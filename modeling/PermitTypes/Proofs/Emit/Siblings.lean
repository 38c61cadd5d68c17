import Mathlib.Logic.Function.Iterate
import PermitTypes.Proofs.Emit.Culprit
import PermitTypes.Proofs.Emit.NormalForm
import PermitTypes.Proofs.Schema.Rearrangement

namespace PermitTypes.Emit.NormalForm

open Schema

/-- Fields that differ in the order of the fields nested in them at most. -/
inductive Field.Reordered : Field → Field → Prop
  | scalar (label : String) (list : Bool) (type : Scalar) :
      Field.Reordered (.scalar label list type) (.scalar label list type)
  | nested (label : String) (list : Bool) {left middle right : List Field}
      (h : List.Forall₂ Field.Reordered left middle) (hperm : middle.Perm right) :
      Field.Reordered (.nested label list left) (.nested label list right)

def Container.Reordered (left right : Container) : Prop :=
  ∃ middle, List.Forall₂ Field.Reordered left middle ∧ middle.Perm right

/-- What the lines of a permit are put together from: single lines around containers. -/
inductive Part where
  | frame (line : String)
  | fields (depth : Nat) (container : Container)

def Part.lines : Part → List String
  | .frame line => [line]
  | .fields depth container => indent^[depth] (containerLines container)

/-- The line that stands at each place, where it does not belong to a field. -/
def Part.marks : Part → List (Option String)
  | .frame line => [some line]
  | .fields _ container => List.replicate (containerLines container).length none

inductive Part.Reordered : Part → Part → Prop
  | frame (line : String) : Part.Reordered (.frame line) (.frame line)
  | fields (depth : Nat) {left right : Container} (h : left.Reordered right) :
      Part.Reordered (.fields depth left) (.fields depth right)

def blockParts (head close : String) (depth : Nat) (fields : Container) : List Part :=
  [.frame head, .fields depth fields, .frame close]

def Selector.parts (optional : Bool) : Selector → List Part
  | .shape fields => blockParts ("filter" ++ filterMark optional ++ ": \x7b") "\x7d" 1 fields
  | .union shapes =>
    .frame ("filter" ++ filterMark optional ++ ":") ::
      shapes.flatMap (blockParts "  | \x7b" "  \x7d" 2)

def Form.parts (n : Form) : List Part :=
  (n.filter.map fun f => f.2.parts f.1).getD [] ++
    (n.effect.map (blockParts "effect: \x7b" "\x7d" 1)).getD [] ++
    (extendPart n.extend).map .frame

theorem lines_blockParts (head : String) (fields : Container) :
    (blockParts head "\x7d" 1 fields).flatMap Part.lines = blockLines head fields := by
  simp [blockParts, Part.lines, blockLines]

theorem lines_branchParts (shapes : List Container) :
    (shapes.flatMap (blockParts "  | \x7b" "  \x7d" 2)).flatMap Part.lines =
      indent (shapes.flatMap (blockLines "| \x7b")) := by
  induction shapes with
  | nil => rfl
  | cons shape shapes ih =>
      rw [List.flatMap_cons, List.flatMap_append, ih, List.flatMap_cons]
      simp [blockParts, Part.lines, blockLines, indent]

theorem lines_selectorParts (optional : Bool) (selector : Selector) :
    (selector.parts optional).flatMap Part.lines = selector.lines optional := by
  cases selector with
  | shape fields => exact lines_blockParts _ fields
  | union shapes => exact congrArg (_ :: ·) (lines_branchParts shapes)

theorem lines_parts (n : Form) : n.parts.flatMap Part.lines = n.lines := by
  obtain ⟨filter, effect, extend⟩ := n
  have hfilter : ((filter.map fun f => f.2.parts f.1).getD []).flatMap Part.lines =
      filterPart filter := by
    cases filter with
    | none => rfl
    | some f => exact lines_selectorParts f.1 f.2
  have heffect : ((effect.map (blockParts "effect: \x7b" "\x7d" 1)).getD []).flatMap Part.lines =
      effectPart effect := by
    cases effect with
    | none => rfl
    | some fields => exact lines_blockParts _ fields
  have hextend : ((extendPart extend).map Part.frame).flatMap Part.lines = extendPart extend := by
    cases extend <;> rfl
  rw [Form.parts, List.flatMap_append, List.flatMap_append, hfilter, heffect, hextend, Form.lines]

theorem flatMap_perm_of_forall₂ {α β γ : Type} {f : α → List γ} {g : β → List γ} {as : List α}
    {bs : List β} (h : List.Forall₂ (fun a b => (f a).Perm (g b)) as bs) :
    (as.flatMap f).Perm (bs.flatMap g) := by
  induction h with
  | nil => exact .nil
  | cons hab _ ih => exact hab.append ih

theorem containerLines_eq_flatMap (fields : List Field) :
    containerLines fields = fields.flatMap Field.lines := by
  induction fields with
  | nil => rfl
  | cons f rest ih => rw [containerLines, ih, List.flatMap_cons]

theorem containerLines_perm {left middle right : List Field}
    (h : List.Forall₂ (fun a b : Field => a.lines.Perm b.lines) left middle)
    (hperm : middle.Perm right) : (containerLines left).Perm (containerLines right) := by
  rw [containerLines_eq_flatMap, containerLines_eq_flatMap]
  exact (flatMap_perm_of_forall₂ h).trans (hperm.flatMap_right Field.lines)

mutual

theorem Field.Reordered.lines_perm {a b : Field} (h : a.Reordered b) : a.lines.Perm b.lines := by
  match a, h with
  | .scalar _ _ _, .scalar label list type => exact .refl _
  | .nested _ _ left, .nested label list hmiddle hperm =>
      have hbody := containerLines_perm (Field.lines_forall₂ hmiddle) hperm
      exact ((hbody.map _).cons _).append_right _

theorem Field.lines_forall₂ {left middle : List Field}
    (h : List.Forall₂ Field.Reordered left middle) :
    List.Forall₂ (fun a b : Field => a.lines.Perm b.lines) left middle := by
  match left, h with
  | [], .nil => exact .nil
  | f :: left, .cons hf hrest =>
      exact .cons (Field.Reordered.lines_perm hf) (Field.lines_forall₂ hrest)

end

theorem Container.Reordered.lines_perm {left right : Container} (h : left.Reordered right) :
    (containerLines left).Perm (containerLines right) := by
  obtain ⟨middle, hmiddle, hperm⟩ := h
  exact containerLines_perm (Field.lines_forall₂ hmiddle) hperm

theorem iterate_indent_perm {left right : List String} (depth : Nat) (h : left.Perm right) :
    (indent^[depth] left).Perm (indent^[depth] right) := by
  induction depth generalizing left right with
  | zero => exact h
  | succ depth ih => exact ih (h.map _)

theorem length_iterate_indent (depth : Nat) (lines : List String) :
    (indent^[depth] lines).length = lines.length := by
  induction depth generalizing lines with
  | zero => rfl
  | succ depth ih => exact (ih _).trans (length_indent lines)

theorem Part.Reordered.lines_perm {a b : Part} (h : a.Reordered b) : a.lines.Perm b.lines := by
  cases h with
  | frame line => exact .refl _
  | fields depth h => exact iterate_indent_perm depth h.lines_perm

theorem Part.Reordered.marks_eq {a b : Part} (h : a.Reordered b) : a.marks = b.marks := by
  cases h with
  | frame line => rfl
  | fields depth h => rw [Part.marks, Part.marks, h.lines_perm.length_eq]

/-- A line stands where it is marked. -/
def Stands (mark : Option String) (line : String) : Prop := ∀ marked ∈ mark, line = marked

theorem forall₂_stands_part (p : Part) : List.Forall₂ Stands p.marks p.lines := by
  cases p with
  | frame line => exact .cons (fun _ h => Option.some.inj h) .nil
  | fields depth container =>
      rw [Part.marks, ← length_iterate_indent depth, Part.lines]
      induction indent^[depth] (containerLines container) with
      | nil => exact .nil
      | cons line lines ih => exact .cons (fun _ h => nomatch h) ih

theorem forall₂_stands (parts : List Part) :
    List.Forall₂ Stands (parts.flatMap Part.marks) (parts.flatMap Part.lines) := by
  induction parts with
  | nil => exact .nil
  | cons p parts ih => exact List.rel_append (forall₂_stands_part p) ih

theorem ofFields_eq_map (fields : List (String × Property)) :
    ofFields fields = fields.map fun e => ofProperty e.1 e.2 := by
  induction fields with
  | nil => rfl
  | cons e rest ih => rw [ofFields, ih, List.map_cons]

/-- If each property's field keeps its siblings together, so does the container of all. -/
theorem reordered_ofFields {left right : Fields}
    (h : Entries.Rearranged (fun p q => ∀ name, (ofProperty name p).Reordered (ofProperty name q))
      left right) : Container.Reordered (ofFields left) (ofFields right) := by
  obtain ⟨middle, hmiddle, hperm⟩ := h
  refine ⟨ofFields middle, ?_, ?_⟩
  · rw [ofFields_eq_map, ofFields_eq_map, List.forall₂_map_left_iff, List.forall₂_map_right_iff]
    refine hmiddle.imp fun e f he => ?_
    obtain ⟨name, h⟩ := he
    exact h name
  · rw [ofFields_eq_map, ofFields_eq_map]
    exact hperm.map _

theorem reordered_make (label : String) (list : Bool) (type : Option Scalar)
    {left right : Container} (h : left.Reordered right) :
    (Field.make label list left type).Reordered (Field.make label list right type) := by
  cases type with
  | none =>
      obtain ⟨middle, hmiddle, hperm⟩ := h
      exact .nested label list hmiddle hperm
  | some type => exact .scalar label list type

theorem respected_ofProperty : Property.Respected fun p q =>
    ∀ name, (ofProperty name p).Reordered (ofProperty name q) := by
  refine ⟨fun kind optional list name => ?_, fun kind optional list left right h name => ?_⟩
  · rw [ofProperty]
    exact reordered_make _ list _ ⟨[], .nil, .nil⟩
  · rw [ofProperty, ofProperty]
    exact reordered_make _ list _ (reordered_ofFields h)

theorem reordered_of_rearranged {left right : Fields} (h : left.Rearranged right) :
    Container.Reordered (ofFields left) (ofFields right) :=
  reordered_ofFields (h.imp fun _ _ _ hq => hq.lift respected_ofProperty)

theorem reordered_blockParts (head close : String) (depth : Nat) {left right : Container}
    (h : left.Reordered right) : List.Forall₂ Part.Reordered (blockParts head close depth left)
      (blockParts head close depth right) :=
  .cons (.frame head) (.cons (.fields depth h) (.cons (.frame close) .nil))

theorem reordered_selectorParts (optional : Bool) {a b : Filter} (h : a.Rearranged b) :
    List.Forall₂ Part.Reordered ((ofFilter a).parts optional) ((ofFilter b).parts optional) := by
  cases h with
  | shape h => exact reordered_blockParts _ _ 1 (reordered_of_rearranged h)
  | union h =>
      refine .cons (.frame _) ?_
      induction h with
      | nil => exact .nil
      | cons hshape _ ih =>
          exact List.rel_append (reordered_blockParts _ _ 2 (reordered_of_rearranged hshape)) ih

/-- The frame of a permit keeps its places when its fields are rearranged. -/
theorem reordered_parts (options : Options) {a b : Permit} (h : a.Rearranged b) :
    List.Forall₂ Part.Reordered (normalForm options a).parts (normalForm options b).parts := by
  obtain ⟨filter, effect, extend⟩ := a
  obtain ⟨filter', effect', extend'⟩ := b
  obtain ⟨hfilter, heffect, rfl⟩ := h
  refine List.rel_append (List.rel_append ?_ ?_) ?_
  · cases hfilter with
    | none => exact .nil
    | some h => exact reordered_selectorParts _ h
  · cases heffect with
    | none => exact .nil
    | some h => exact reordered_blockParts _ _ 1 (reordered_of_rearranged h)
  · refine List.forall₂_map_left_iff.2 (List.forall₂_map_right_iff.2 ?_)
    exact List.forall₂_same.2 fun line _ => .frame line

end PermitTypes.Emit.NormalForm

namespace PermitTypes.Emit

open Schema NormalForm

theorem fieldVisits_eq_flatMap (fields : List (String × Property)) :
    fieldVisits fields = fields.flatMap fun e => visits e.2 := by
  induction fields with
  | nil => rfl
  | cons e rest ih => rw [fieldVisits, ih, List.flatMap_cons]

def visitedKinds (fields : Fields) : List Kind := (fieldVisits fields).map (·.kind)

theorem visitedKinds_perm {left right : Fields}
    (h : Entries.Rearranged
      (fun p q => ((visits p).map (·.kind)).Perm ((visits q).map (·.kind))) left right) :
    (visitedKinds left).Perm (visitedKinds right) := by
  obtain ⟨middle, hmiddle, hperm⟩ := h
  simp only [visitedKinds, fieldVisits_eq_flatMap, List.map_flatMap]
  refine .trans (flatMap_perm_of_forall₂ (hmiddle.imp fun e f he => ?_)) (hperm.flatMap_right _)
  obtain ⟨name, h⟩ := he
  exact h

theorem respected_visits : Property.Respected fun p q =>
    ((visits p).map (·.kind)).Perm ((visits q).map (·.kind)) := by
  refine ⟨fun kind optional list => .refl _, fun kind optional list left right h => ?_⟩
  rw [visits, visits]
  refine .cons _ ?_
  split
  · exact visitedKinds_perm h
  · exact .nil

theorem rendered_rearranged {a b : Permit} (h : a.Rearranged b) :
    List.Forall₂ Fields.Rearranged (rendered a) (rendered b) := by
  obtain ⟨filter, effect, extend⟩ := a
  obtain ⟨filter', effect', extend'⟩ := b
  obtain ⟨hfilter, heffect, -⟩ := h
  refine List.rel_append ?_ ?_
  · cases hfilter with
    | none => exact .nil
    | some h =>
        cases h with
        | shape h => exact .cons h .nil
        | union h => exact h
  · cases heffect with
    | none => exact .nil
    | some h => exact .cons h .nil

theorem permitVisits_kinds_perm {a b : Permit} (h : a.Rearranged b) :
    ((permitVisits a).map (·.kind)).Perm ((permitVisits b).map (·.kind)) := by
  simp only [permitVisits, List.map_flatMap]
  refine flatMap_perm_of_forall₂ ((rendered_rearranged h).imp fun left right h => ?_)
  exact visitedKinds_perm (h.imp fun _ _ _ hq => hq.lift respected_visits)

/-- Which tag is met first depends on the order, but not whether there is one. -/
theorem unknownKind?_permitVisits_eq_none_iff {a b : Permit} (h : a.Rearranged b) :
    unknownKind? (permitVisits a) = none ↔ unknownKind? (permitVisits b) = none := by
  have hkinds (permit : Permit) : unknownKind? (permitVisits permit) = none ↔
      ∀ kind ∈ (permitVisits permit).map (·.kind), ∀ tag, kind ≠ .unknown tag := by
    rw [unknownKind?_eq_none_iff, List.forall_mem_map]
  rw [hkinds, hkinds]
  constructor
  · exact fun hnone kind hkind => hnone kind ((permitVisits_kinds_perm h).mem_iff.2 hkind)
  · exact fun hnone kind hkind => hnone kind ((permitVisits_kinds_perm h).mem_iff.1 hkind)

theorem filter_eq_emptyUnion_iff {a b : Permit} (h : a.Rearranged b) :
    a.filter = some (.union []) ↔ b.filter = some (.union []) := by
  obtain ⟨filter, effect, extend⟩ := a
  obtain ⟨filter', effect', extend'⟩ := b
  obtain ⟨hfilter, -, -⟩ := h
  cases hfilter with
  | none => exact Iff.rfl
  | some h =>
      cases h with
      | shape h => exact ⟨fun h => (nomatch h), fun h => (nomatch h)⟩
      | union h => cases h <;> simp

/-- Permits that are the same fail alike, up to which tag without meaning is met first, or their
lines differ in the order of the fields inside of containers, at whatever depth, while everything
else stands where it stood. As in any map, no name is repeated in a container. -/
theorem permitLines_of_same (options : Options) {a b : Permit}
    (hd : ∀ fields ∈ a.containers, fields.Distinct) (h : a.same b = true) :
    ((∃ lines, permitLines options a = .ok lines) ↔ ∃ lines, permitLines options b = .ok lines) ∧
    (permitLines options a = .error .emptyUnion ↔ permitLines options b = .error .emptyUnion) ∧
    ∀ left right, permitLines options a = .ok left → permitLines options b = .ok right →
      (normalForm options a).parts.flatMap Part.lines = left ∧
      (normalForm options b).parts.flatMap Part.lines = right ∧
      List.Forall₂ Part.Reordered (normalForm options a).parts (normalForm options b).parts ∧
      (∃ marks, marks = (normalForm options a).parts.flatMap Part.marks ∧
        marks = (normalForm options b).parts.flatMap Part.marks ∧
        List.Forall₂ Stands marks left ∧ List.Forall₂ Stands marks right) ∧
      left.Perm right := by
  have hab := (Permit.same_eq_true_iff_rearranged hd).1 h
  refine ⟨?_, ?_, fun left right hleft hright => ?_⟩
  · rw [permitLines_succeeds_iff, permitLines_succeeds_iff, Ne, Ne, filter_eq_emptyUnion_iff hab,
      unknownKind?_permitVisits_eq_none_iff hab]
  · rw [permitLines_eq_emptyUnion_iff, permitLines_eq_emptyUnion_iff, filter_eq_emptyUnion_iff hab]
  · have hparts := reordered_parts options hab
    have hlines (permit : Permit) {lines : List String}
        (hl : permitLines options permit = .ok lines) :
        (normalForm options permit).parts.flatMap Part.lines = lines :=
      (lines_parts _).trans (lines_of_permitLines hl).symm
    have hmarks : (normalForm options a).parts.flatMap Part.marks =
        (normalForm options b).parts.flatMap Part.marks := by
      rw [List.flatMap_def, List.flatMap_def]
      refine congrArg List.flatten ?_
      rw [← List.forall₂_eq_eq_eq, List.forall₂_map_left_iff, List.forall₂_map_right_iff]
      exact hparts.imp fun _ _ hp => hp.marks_eq
    have hperm := flatMap_perm_of_forall₂ (hparts.imp fun _ _ hp => hp.lines_perm)
    rw [hlines a hleft, hlines b hright] at hperm
    refine ⟨hlines a hleft, hlines b hright, hparts, ⟨_, rfl, hmarks, ?_, ?_⟩, hperm⟩
    · have hstands := forall₂_stands (normalForm options a).parts
      rwa [hlines a hleft] at hstands
    · have hstands := forall₂_stands (normalForm options b).parts
      rwa [hlines b hright, ← hmarks] at hstands

/-- Fields that are swapped in a branch and once more inside of one of them. -/
theorem swapped_fields_emit_alike :
    let left : Permit :=
      { filter := some (.union [[("id", .ofTag "uuid"),
          ("at", .object [("x", .ofTag "integer"), ("y", .ofTag "integer")])], []])
        extend := some "user" }
    let right : Permit :=
      { filter := some (.union
          [[("at", .object [("y", .ofTag "integer"), ("x", .ofTag "integer")]),
            ("id", .ofTag "uuid")], []])
        extend := some "user" }
    (∀ fields ∈ left.containers, fields.Distinct) ∧ left.same right = true ∧
      permitLines {} right = .ok
        ["filter:", "  | \x7b", "    at: \x7b", "      y: number", "      x: number", "    \x7d",
          "    id: string", "  \x7d", "  | \x7b", "  \x7d", "extend: UserExtendType"] ∧
      List.Forall₂ Part.Reordered (normalForm {} left).parts (normalForm {} right).parts := by
  intro left right
  have hd : ∀ fields ∈ left.containers, fields.Distinct := by
    simp [left, Permit.containers, Filter.containers, Fields.Distinct, Fields.Each, Property.Each,
      Entries.names, Property.object, Property.ofTag]
  have hsame : left.same right = true := by decide
  have hleft : permitLines {} left = .ok
      ["filter:", "  | \x7b", "    id: string", "    at: \x7b", "      x: number", "      y: number",
        "    \x7d", "  \x7d", "  | \x7b", "  \x7d", "extend: UserExtendType"] := by
    decide
  have hright : permitLines {} right = .ok
      ["filter:", "  | \x7b", "    at: \x7b", "      y: number", "      x: number", "    \x7d",
        "    id: string", "  \x7d", "  | \x7b", "  \x7d", "extend: UserExtendType"] := by
    decide
  obtain ⟨-, -, hlines⟩ := permitLines_of_same {} hd hsame
  obtain ⟨-, -, hparts, -⟩ := hlines _ _ hleft hright
  exact ⟨hd, hsame, hright, hparts⟩

end PermitTypes.Emit
