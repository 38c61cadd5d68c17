import Mathlib.Data.List.Perm.Basic
import PermitTypes.Proofs.Emit.Success

namespace PermitTypes.Emit.Printer

open Schema

/-- A line of output and the depth at which it stands. -/
structure Row where
  depth : Nat
  text : String
  deriving DecidableEq

/-- Two blanks a level stand in front of the line, once. -/
def Row.line (r : Row) : String := String.ofList (List.replicate (2 * r.depth) ' ') ++ r.text

def ended : List String → String
  | [] => ""
  | line :: lines => line ++ "\n" ++ ended lines

def printed (rows : List Row) : String := ended (rows.map Row.line)

mutual

/-- The rows of a property, in one walk that carries the depth along. -/
def propertyRows (depth : Nat) (name : String) : Property → List Row
  | ⟨kind, optional, list, fields⟩ =>
    match scalarType kind with
    | some type => [⟨depth, scalarLine name optional list type⟩]
    | none =>
      match kind with
      | .unknown _ => []
      | _ =>
        let body := match fields with
          | none => []
          | some fields => fieldRows (depth + 1) fields
        ⟨depth, openLine name optional list⟩ :: body ++ [⟨depth, closeLine list⟩]

def fieldRows (depth : Nat) : List (String × Property) → List Row
  | [] => []
  | (name, p) :: rest => propertyRows depth name p ++ fieldRows depth rest

end

def blockRows (depth : Nat) (head : String) (fields : Fields) : List Row :=
  ⟨depth, head⟩ :: fieldRows (depth + 1) fields ++ [⟨depth, "\x7d"⟩]

/-- What a permit may have a part of its text for. -/
inductive Facet where
  | filter (optional : Bool) (filter : Filter)
  | effect (fields : Fields)
  | extension (schema : String)

def facets (options : Options) (permit : Permit) : List Facet :=
  (permit.filter.map (.filter options.filterOptional)).toList ++
    (permit.effect.map .effect).toList ++ (permit.extended.map .extension).toList

namespace Facet

def rows : Facet → List Row
  | filter optional (.shape fields) =>
    blockRows 1 ("filter" ++ filterMark optional ++ ": \x7b") fields
  | filter optional (.union shapes) =>
    ⟨1, "filter" ++ filterMark optional ++ ":"⟩ :: shapes.flatMap (blockRows 2 "| \x7b")
  | effect fields => blockRows 1 "effect: \x7b" fields
  | extension schema => [⟨1, extendLine schema⟩]

/-- The rows that do not belong to any field. -/
def frame : Facet → List Row
  | filter optional (.shape _) =>
    [⟨1, "filter" ++ filterMark optional ++ ": \x7b"⟩, ⟨1, "\x7d"⟩]
  | filter optional (.union shapes) =>
    ⟨1, "filter" ++ filterMark optional ++ ":"⟩ ::
      shapes.flatMap fun _ => [⟨2, "| \x7b"⟩, ⟨2, "\x7d"⟩]
  | effect _ => [⟨1, "effect: \x7b"⟩, ⟨1, "\x7d"⟩]
  | extension schema => [⟨1, extendLine schema⟩]

/-- The containers, each with the depth of its own fields. -/
def containers : Facet → List (Nat × Fields)
  | filter _ (.shape fields) => [(2, fields)]
  | filter _ (.union shapes) => shapes.map fun shape => (3, shape)
  | effect fields => [(2, fields)]
  | extension _ => []

end Facet

def declarationRows (options : Options) (e : String × Permit) : List Row :=
  ⟨0, "export type " ++ permitTypeName e.1 ++ " = \x7b"⟩ ::
    (facets options e.2).flatMap Facet.rows ++ [⟨0, "\x7d"⟩]

/-- The declarations in order, with an empty row between two of them. -/
def documentRows (options : Options) (document : Document) : List Row :=
  [⟨0, ""⟩].intercalate (document.permits.map (declarationRows options))

theorem propertyRows_of_scalarType (depth : Nat) (name : String) {kind : Kind} {type : String}
    (h : scalarType kind = some type) (optional list : Bool) (fields : Option Fields) :
    propertyRows depth name ⟨kind, optional, list, fields⟩ =
      [⟨depth, scalarLine name optional list type⟩] := by
  cases kind <;> cases h <;> rw [propertyRows.eq_def] <;> rfl

theorem propertyRows_object (depth : Nat) (name : String) (optional list : Bool)
    (fields : Option Fields) :
    propertyRows depth name ⟨.object, optional, list, fields⟩ =
      ⟨depth, openLine name optional list⟩ :: fieldRows (depth + 1) (fields.getD []) ++
        [⟨depth, closeLine list⟩] := by
  cases fields <;> rw [propertyRows.eq_def] <;> rfl

theorem propertyRows_unknown (depth : Nat) (name tag : String) (optional list : Bool)
    (fields : Option Fields) :
    propertyRows depth name ⟨.unknown tag, optional, list, fields⟩ = [] := by
  rw [propertyRows.eq_def]
  rfl

section Lines

/-- Lines that were not indented, at a depth. -/
def raised (depth : Nat) (lines : List String) : List String :=
  lines.map fun line => Row.line ⟨depth, line⟩

theorem raised_zero (lines : List String) : raised 0 lines = lines := by
  have hline : ∀ line, Row.line ⟨0, line⟩ = line := fun line => String.empty_append
  simp only [raised, hline, List.map_id']

/-- To indent once more is to stand one level deeper. -/
theorem raised_indent (depth : Nat) (lines : List String) :
    raised depth (indent lines) = raised (depth + 1) lines := by
  have hline : ∀ line, Row.line ⟨depth, "  " ++ line⟩ = Row.line ⟨depth + 1, line⟩ := by
    intro line
    have hblanks : List.replicate (2 * (depth + 1)) ' ' =
        List.replicate (2 * depth) ' ' ++ [' ', ' '] := List.replicate_add (2 * depth) 2 ' '
    rw [Row.line, Row.line, hblanks, String.ofList_append, String.append_assoc]
  simp only [raised, indent, List.map_map, Function.comp_def, hline]

theorem raised_enclosed (depth : Nat) (head last : String) (body : List String) :
    raised depth (head :: indent body ++ [last]) =
      Row.line ⟨depth, head⟩ :: raised (depth + 1) body ++ [Row.line ⟨depth, last⟩] := by
  rw [← raised_indent]
  simp only [raised, List.map_cons, List.map_append, List.map_nil]

theorem raised_append (depth : Nat) (a b : List String) :
    raised depth (a ++ b) = raised depth a ++ raised depth b :=
  List.map_append ..

mutual

/-- However often its lines are indented by those who enclose it, a property has the rows of the
depth at which it comes to stand. -/
theorem lines_propertyRows {name : String} {lines : List String} (depth : Nat) :
    (p : Property) → propertyLines name p = .ok lines →
      (propertyRows depth name p).map Row.line = raised depth lines
  | ⟨kind, optional, list, fields⟩, h => by
      rcases propertyLines_eq_ok h with ⟨type, ht, rfl⟩ | ⟨rfl, body, hb, rfl⟩
      · rw [propertyRows_of_scalarType depth name ht]
        rfl
      · have hbody : (fieldRows (depth + 1) (fields.getD [])).map Row.line =
            raised (depth + 1) body := by
          cases fields with
          | none => cases hb; rfl
          | some fields => exact lines_fieldRows (depth + 1) fields hb
        rw [propertyRows_object, raised_enclosed, ← hbody]
        simp only [List.map_cons, List.map_append, List.map_nil]

theorem lines_fieldRows {lines : List String} (depth : Nat) :
    (fields : List (String × Property)) → fieldLines fields = .ok lines →
      (fieldRows depth fields).map Row.line = raised depth lines
  | [], h => by cases h; rfl
  | (name, p) :: rest, h => by
      obtain ⟨first, others, hf, ho, rfl⟩ := fieldLines_cons_eq_ok h
      rw [fieldRows, List.map_append, lines_propertyRows depth p hf, lines_fieldRows depth rest ho,
        raised_append]

end

theorem lines_blockRows {head : String} {fields : Fields} {lines : List String}
    (h : block head fields = .ok lines) (depth : Nat) :
    (blockRows depth head fields).map Row.line = raised depth lines := by
  obtain ⟨body, hb, rfl⟩ := block_eq_ok h
  rw [raised_enclosed, ← lines_fieldRows (depth + 1) fields hb, blockRows]
  simp only [List.map_cons, List.map_append, List.map_nil]

theorem lines_branchRows {shapes : List Fields} {lines : List String}
    (h : branchLines shapes = .ok lines) (depth : Nat) :
    (shapes.flatMap (blockRows (depth + 1) "| \x7b")).map Row.line = raised depth lines := by
  induction shapes generalizing lines with
  | nil => cases h; rfl
  | cons shape rest ih =>
      obtain ⟨first, others, hf, ho, rfl⟩ := branchLines_cons_eq_ok h
      rw [List.flatMap_cons, List.map_append, lines_blockRows hf, ih ho, raised_append,
        raised_indent]

theorem lines_filterRows {optional : Bool} {filter : Filter} {lines : List String}
    (h : filterLines optional filter = .ok lines) :
    (Facet.filter optional filter).rows.map Row.line = raised 1 lines := by
  cases filter with
  | shape fields => exact lines_blockRows h 1
  | union shapes =>
      obtain ⟨-, branches, hb, rfl⟩ := filterLines_union_eq_ok h
      rw [Facet.rows, List.map_cons, lines_branchRows hb 1]
      rfl

theorem lines_facet {α : Type} {lines : α → Lines} {facet : α → Facet} {a : Option α}
    {ls : List String}
    (hlines : ∀ {x ls}, lines x = .ok ls → (facet x).rows.map Row.line = raised 1 ls)
    (h : Emit.facet lines a = .ok ls) :
    ((a.map facet).toList.flatMap Facet.rows).map Row.line = raised 1 ls := by
  cases a with
  | none => cases h; rfl
  | some x => rw [Option.map_some, Option.toList_some, List.flatMap_singleton, hlines h]

theorem lines_facets {options : Options} {permit : Permit} {lines : List String}
    (h : permitLines options permit = .ok lines) :
    ((facets options permit).flatMap Facet.rows).map Row.line = raised 1 lines := by
  obtain ⟨filter, effect, hf, he, rfl⟩ := permitLines_eq_ok h
  have hextension : ((permit.extended.map Facet.extension).toList.flatMap Facet.rows).map Row.line =
      raised 1 (permit.extended.map extendLine).toList := by
    cases permit.extended <;> rfl
  have heffect : ((permit.effect.map Facet.effect).toList.flatMap Facet.rows).map Row.line =
      raised 1 effect := lines_facet (fun h => lines_blockRows h 1) he
  simp only [facets, List.flatMap_append, List.map_append, raised_append, hextension, heffect,
    lines_facet lines_filterRows hf]

theorem lines_declarationRows {options : Options} {name : String} {permit : Permit}
    {lines : List String} (h : permitLines options permit = .ok lines) :
    (declarationRows options (name, permit)).map Row.line = declarationLines name lines := by
  have hlines := raised_enclosed 0 ("export type " ++ permitTypeName name ++ " = \x7b") "\x7d" lines
  rw [← lines_facets h, raised_zero] at hlines
  rw [declarationLines, hlines, declarationRows]
  simp only [List.map_cons, List.map_append, List.map_nil]

theorem lines_permitBodies {options : Options} {permits : List (String × Permit)}
    {bodies : List (String × List String)} (h : permitBodies options permits = .ok bodies) :
    permits.map (fun e => (declarationRows options e).map Row.line) =
      bodies.map fun b => declarationLines b.1 b.2 := by
  induction permits generalizing bodies with
  | nil => cases h; rfl
  | cons e permits ih =>
      obtain ⟨lines, others, hl, ho, rfl⟩ := permitBodies_cons_eq_ok h
      rw [List.map_cons, List.map_cons, ih ho, lines_declarationRows hl]

end Lines

section Text

theorem map_intercalate {α β : Type} (f : α → β) (gap : List α) (parts : List (List α)) :
    (gap.intercalate parts).map f = (gap.map f).intercalate (parts.map (List.map f)) := by
  induction parts with
  | nil => rfl
  | cons part parts ih =>
      cases parts with
      | nil => simp only [List.intercalate_singleton, List.map_singleton]
      | cons next parts =>
          simp only [List.map_cons] at ih ⊢
          rw [List.intercalate_cons_cons, List.map_append, List.map_append, ih,
            List.intercalate_cons_cons]

theorem ended_append (a b : List String) : ended (a ++ b) = ended a ++ ended b := by
  induction a with
  | nil => exact String.empty_append.symm
  | cons line a ih => rw [List.cons_append, ended, ended, ih, ← String.append_assoc]

theorem ended_eq_joinLines {lines : List String} (h : lines ≠ []) :
    ended lines = joinLines lines ++ "\n" := by
  induction lines with
  | nil => exact absurd rfl h
  | cons line lines ih =>
      cases lines with
      | nil => exact String.append_empty
      | cons next lines =>
          rw [ended, ih (List.cons_ne_nil _ _), joinLines, joinLines,
            String.intercalate_cons_cons, ← String.append_assoc]

/-- Lines with their ends, in blocks with an empty line between two of them. -/
theorem ended_intercalate {blocks : List (List String)} (h : ∀ lines ∈ blocks, lines ≠ []) :
    ended ([""].intercalate blocks) = joinBlocks (blocks.map joinLines) := by
  induction blocks with
  | nil => rfl
  | cons lines blocks ih =>
      obtain ⟨hlines, hblocks⟩ := List.forall_mem_cons.1 h
      have hfirst := ended_eq_joinLines hlines
      cases blocks with
      | nil =>
          rw [List.intercalate_singleton, hfirst, List.map_singleton, joinBlocks,
            String.intercalate_singleton]
          exact List.cons_ne_nil _ _
      | cons next blocks =>
          have hrest := ih hblocks
          rw [List.map_cons, joinBlocks] at hrest
          · rw [List.intercalate_cons_cons, ended_append, ended_append, hrest, hfirst,
              List.map_cons, List.map_cons, joinBlocks, String.intercalate_cons_cons]
            · have hgap : ∀ s, "\n" ++ ("\n" ++ s) = "\n\n" ++ s :=
                fun _ => String.append_assoc.symm
              simp only [ended, String.empty_append, String.append_assoc, hgap]
            · exact List.cons_ne_nil _ _
          · exact List.cons_ne_nil _ _

end Text

section Levels

/-- A field that is reached in a container, so many objects below it. -/
structure Nested where
  level : Nat
  name : String
  property : Property

mutual

def nestedIn (level : Nat) (name : String) : Property → List Nested
  | ⟨kind, optional, list, none⟩ => [⟨level, name, ⟨kind, optional, list, none⟩⟩]
  | ⟨kind, optional, list, some fields⟩ =>
    ⟨level, name, ⟨kind, optional, list, some fields⟩⟩ ::
      if kind = .object then nested (level + 1) fields else []

/-- All fields that are reached, when those of the container are on the given level. -/
def nested (level : Nat) : List (String × Property) → List Nested
  | [] => []
  | (name, p) :: rest => nestedIn level name p ++ nested level rest

end

theorem nestedIn_eq (level : Nat) (name : String) (p : Property) :
    nestedIn level name p = ⟨level, name, p⟩ ::
      if p.kind = .object then nested (level + 1) (p.fields.getD []) else [] := by
  obtain ⟨kind, optional, list, fields⟩ := p
  cases fields <;> simp [nestedIn, nested]

/-- A field of a container, or of an object that is itself so many objects below. -/
inductive Under (fields : Fields) : Nat → String → Property → Prop
  | field {name : String} {p : Property} (h : (name, p) ∈ fields) : Under fields 0 name p
  | inside {level : Nat} {outer name : String} {p q : Property} {inner : Fields}
      (hp : Under fields level outer p) (hkind : p.kind = .object)
      (hinner : p.fields = some inner) (h : (name, q) ∈ inner) : Under fields (level + 1) name q

mutual

theorem under_of_mem_nestedIn {fields : Fields} {f : Nested} {level : Nat} {name : String} :
    (p : Property) → Under fields level name p → f ∈ nestedIn level name p →
      Under fields f.level f.name f.property
  | ⟨kind, optional, list, none⟩, hp, h => by
      rw [nestedIn, List.mem_singleton] at h
      exact h ▸ hp
  | ⟨kind, optional, list, some inner⟩, hp, h => by
      rw [nestedIn, List.mem_cons] at h
      rcases h with rfl | h
      · exact hp
      · by_cases hkind : kind = .object
        · rw [if_pos hkind] at h
          exact under_of_mem_nested inner (fun _ he => hp.inside hkind rfl he) h
        · rw [if_neg hkind] at h
          exact absurd h List.not_mem_nil

theorem under_of_mem_nested {fields : Fields} {f : Nested} {level : Nat} :
    (inner : List (String × Property)) → (∀ e, e ∈ inner → Under fields level e.1 e.2) →
      f ∈ nested level inner → Under fields f.level f.name f.property
  | [], _, h => by cases h
  | (name, p) :: rest, hinner, h => by
      rw [nested, List.mem_append] at h
      rcases h with h | h
      · exact under_of_mem_nestedIn p (hinner (name, p) List.mem_cons_self) h
      · exact under_of_mem_nested rest (fun e he => hinner e (List.mem_cons_of_mem _ he)) h

end

theorem nestedIn_subset_nested {level : Nat} {name : String} {p : Property} {fields : Fields}
    (h : (name, p) ∈ fields) : nestedIn level name p ⊆ nested level fields := by
  induction fields with
  | nil => cases h
  | cons e rest ih =>
      rw [nested]
      rcases List.mem_cons.1 h with rfl | h
      · exact List.subset_append_left _ _
      · exact List.Subset.trans (ih h) (List.subset_append_right _ _)

mutual

theorem nestedIn_subset {f : Nested} {level : Nat} {name : String} : (p : Property) →
    f ∈ nestedIn level name p → nestedIn f.level f.name f.property ⊆ nestedIn level name p
  | ⟨kind, optional, list, none⟩, h => by
      rw [nestedIn, List.mem_singleton] at h
      rw [h]
      exact List.Subset.refl _
  | ⟨kind, optional, list, some inner⟩, h => by
      rw [nestedIn, List.mem_cons] at h
      rcases h with rfl | h
      · exact List.Subset.refl _
      · by_cases hkind : kind = .object
        · rw [if_pos hkind] at h
          rw [nestedIn, if_pos hkind]
          exact List.subset_cons_of_subset _ (nested_subset inner h)
        · rw [if_neg hkind] at h
          exact absurd h List.not_mem_nil

theorem nested_subset {f : Nested} {level : Nat} : (fields : List (String × Property)) →
    f ∈ nested level fields → nestedIn f.level f.name f.property ⊆ nested level fields
  | [], h => by cases h
  | (name, p) :: rest, h => by
      rw [nested, List.mem_append] at h
      rw [nested]
      rcases h with h | h
      · exact List.Subset.trans (nestedIn_subset p h) (List.subset_append_left _ _)
      · exact List.Subset.trans (nested_subset rest h) (List.subset_append_right _ _)

end

theorem mem_nested_iff {fields : Fields} {f : Nested} :
    f ∈ nested 0 fields ↔ Under fields f.level f.name f.property := by
  constructor
  · exact under_of_mem_nested fields fun _ he => .field he
  · intro h
    have hself : ∀ level name q, (⟨level, name, q⟩ : Nested) ∈ nestedIn level name q := by
      intro level name q
      rw [nestedIn_eq]
      exact List.mem_cons_self
    have hmem : ∀ {level name q}, Under fields level name q →
        (⟨level, name, q⟩ : Nested) ∈ nested 0 fields := by
      intro level name q h
      induction h with
      | field h => exact nestedIn_subset_nested h (hself ..)
      | @inside level outer name p q inner hp hkind hinner h ih =>
          have hbelow : nested (level + 1) inner ⊆ nestedIn level outer p := by
            rw [nestedIn_eq, if_pos hkind, hinner]
            exact List.subset_cons_self _ _
          exact nested_subset fields ih (hbelow (nestedIn_subset_nested h (hself ..)))
    exact hmem h

/-- The rows of a field without those of the fields in it. -/
def ownRows (base : Nat) (f : Nested) : List Row :=
  match scalarType f.property.kind with
  | some type =>
    [⟨base + f.level, scalarLine f.name f.property.optional f.property.list type⟩]
  | none =>
    if f.property.kind = .object then
      [⟨base + f.level, openLine f.name f.property.optional f.property.list⟩,
        ⟨base + f.level, closeLine f.property.list⟩]
    else []

mutual

/-- A field on a level has its rows that much deeper than the fields of the container. -/
theorem propertyRows_perm (base level : Nat) (name : String) : (p : Property) →
    (propertyRows (base + level) name p).Perm
      ((nestedIn level name p).flatMap (ownRows base))
  | ⟨kind, optional, list, fields⟩ => by
      rw [nestedIn_eq, List.flatMap_cons]
      cases hs : scalarType kind with
      | some type =>
          have hkind : kind ≠ .object := by
            rintro rfl
            cases hs
          simp only [propertyRows_of_scalarType _ name hs, ownRows, hs, if_neg hkind]
          exact .refl _
      | none =>
          cases kind with
          | object =>
              have hbody : (fieldRows (base + (level + 1)) (fields.getD [])).Perm
                  ((nested (level + 1) (fields.getD [])).flatMap (ownRows base)) := by
                cases fields with
                | none => exact .refl _
                | some fields => exact fieldRows_perm base (level + 1) fields
              rw [propertyRows_object, if_pos rfl]
              exact (List.perm_append_comm.trans (hbody.append_left [_])).cons _
          | unknown tag =>
              rw [propertyRows_unknown]
              exact .refl _
          | _ => cases hs

theorem fieldRows_perm (base level : Nat) : (fields : List (String × Property)) →
    (fieldRows (base + level) fields).Perm ((nested level fields).flatMap (ownRows base))
  | [] => .refl _
  | (name, p) :: rest => by
      rw [fieldRows, nested, List.flatMap_append]
      exact (propertyRows_perm base level name p).append (fieldRows_perm base level rest)

end

theorem blockRows_perm (depth : Nat) (head : String) (fields : Fields) :
    (blockRows depth head fields).Perm
      ([⟨depth, head⟩, ⟨depth, "\x7d"⟩] ++
        (nested 0 fields).flatMap (ownRows (depth + 1))) := by
  rw [blockRows]
  refine List.Perm.cons _ (List.perm_append_comm.trans ?_)
  exact (fieldRows_perm (depth + 1) 0 fields).append_left _

/-- The rows of a facet are its frame and those of all fields in its containers, each as deep as its
level says. -/
theorem rows_perm (facet : Facet) :
    facet.rows.Perm (facet.frame ++ facet.containers.flatMap fun c =>
      (nested 0 c.2).flatMap (ownRows c.1)) := by
  cases facet with
  | filter optional filter =>
      cases filter with
      | shape fields =>
          rw [Facet.containers, List.flatMap_singleton]
          exact blockRows_perm 1 _ fields
      | union shapes =>
          rw [Facet.containers, List.flatMap_map]
          refine List.Perm.cons _ (.trans ?_ (List.flatMap_append_perm shapes _ _).symm)
          exact .flatMap_left _ fun shape _ => blockRows_perm 2 _ shape
  | effect fields =>
      rw [Facet.containers, List.flatMap_singleton]
      exact blockRows_perm 1 _ fields
  | extension schema => exact .refl _

def Nested.isScalar (f : Nested) : Bool := (scalarType f.property.kind).isSome

def Nested.isObject (f : Nested) : Bool := f.property.kind = .object

theorem length_ownRows (base : Nat) (f : Nested) :
    (ownRows base f).length = (if f.isScalar then 1 else 0) + 2 * if f.isObject then 1 else 0 := by
  obtain ⟨level, name, kind, optional, list, fields⟩ := f
  cases kind <;> rfl

theorem length_flatMap_ownRows (base : Nat) (fs : List Nested) :
    (fs.flatMap (ownRows base)).length =
      fs.countP Nested.isScalar + 2 * fs.countP Nested.isObject := by
  induction fs with
  | nil => rfl
  | cons f fs ih =>
      rw [List.flatMap_cons, List.length_append, ih, length_ownRows, List.countP_cons,
        List.countP_cons]
      omega

theorem length_rows (facet : Facet) :
    let reached := facet.containers.flatMap fun c => nested 0 c.2
    facet.rows.length = facet.frame.length + reached.countP Nested.isScalar +
      2 * reached.countP Nested.isObject := by
  intro reached
  have hfields : ∀ containers : List (Nat × Fields),
      (containers.flatMap fun c => (nested 0 c.2).flatMap (ownRows c.1)).length =
        (containers.flatMap fun c => nested 0 c.2).countP Nested.isScalar +
          2 * (containers.flatMap fun c => nested 0 c.2).countP Nested.isObject := by
    intro containers
    induction containers with
    | nil => rfl
    | cons c containers ih =>
        rw [List.flatMap_cons, List.flatMap_cons, List.length_append, ih, length_flatMap_ownRows,
          List.countP_append, List.countP_append]
        omega
  rw [(rows_perm facet).length_eq, List.length_append, hfields, Nat.add_assoc]

end Levels

/-- A text is what a printer prints that walks the document once and counts the depth. Each facet
has the rows of its frame and of the fields in its containers: one for a scalar and two for an
object, as many levels below the container's own fields as there are objects between. -/
theorem documentText_eq_printed {options : Options} {document : Document} {text : String}
    (h : documentText options document = .ok text) :
    text = printed (documentRows options document) ∧
      ∀ e ∈ document.permits, ∀ facet ∈ facets options e.2,
        facet.rows.Perm (facet.frame ++ facet.containers.flatMap fun c =>
          (nested 0 c.2).flatMap (ownRows c.1)) ∧
        (∀ c ∈ facet.containers, ∀ f,
          f ∈ nested 0 c.2 ↔ Under c.2 f.level f.name f.property) ∧
        let reached := facet.containers.flatMap fun c => nested 0 c.2
        facet.rows.length = facet.frame.length + reached.countP Nested.isScalar +
          2 * reached.countP Nested.isObject := by
  refine ⟨?_, fun _ _ facet _ => ⟨rows_perm facet, fun _ _ _ => mem_nested_iff, length_rows facet⟩⟩
  obtain ⟨bodies, hb, htext⟩ := bind_eq_ok_iff.1 h
  obtain rfl := Except.ok.inj htext
  have hne : ∀ lines ∈ bodies.map fun b => declarationLines b.1 b.2, lines ≠ [] := by
    intro lines hlines
    obtain ⟨b, -, rfl⟩ := List.mem_map.1 hlines
    exact List.cons_ne_nil _ _
  have hlines : (documentRows options document).map Row.line =
      [""].intercalate (bodies.map fun b => declarationLines b.1 b.2) := by
    rw [← lines_permitBodies hb, documentRows, map_intercalate, List.map_map]
    rfl
  rw [printed, hlines, ended_intercalate hne, List.map_map]
  rfl

/-- A branch with objects in a list, a branch without fields, and a second permit. -/
def deep : Document where
  permits := [
    ("move-item", {
      filter := some (.union [
        [("path", ⟨.object, true, true, some [("at", .object [("id", .ofTag "uuid")])]⟩)], []])
      effect := some [("done", .ofTag "boolean")] }),
    ("drop", {})]

def deepRows : List Row := [
  ⟨0, "export type MoveItemMutatePermitType = \x7b"⟩, ⟨1, "filter:"⟩, ⟨2, "| \x7b"⟩,
  ⟨3, "path?: Array<\x7b"⟩, ⟨4, "at: \x7b"⟩, ⟨5, "id: string"⟩, ⟨4, "\x7d"⟩, ⟨3, "\x7d>"⟩,
  ⟨2, "\x7d"⟩, ⟨2, "| \x7b"⟩, ⟨2, "\x7d"⟩, ⟨1, "effect: \x7b"⟩, ⟨2, "done: boolean"⟩, ⟨1, "\x7d"⟩,
  ⟨0, "\x7d"⟩, ⟨0, ""⟩, ⟨0, "export type DropMutatePermitType = \x7b"⟩, ⟨0, "\x7d"⟩]

theorem deep_printed :
    documentText ⟨false⟩ deep = .ok (printed deepRows) ∧
      documentRows ⟨false⟩ deep = deepRows ∧
      ∀ e ∈ deep.permits, ∀ facet ∈ facets ⟨false⟩ e.2,
        facet.rows.Perm (facet.frame ++ facet.containers.flatMap fun c =>
          (nested 0 c.2).flatMap (ownRows c.1)) := by
  have hok : documentText ⟨false⟩ deep = .ok (printed deepRows) :=
    eq_ok_of_toOption (by decide +kernel)
  obtain ⟨-, hfacets⟩ := documentText_eq_printed hok
  exact ⟨hok, by decide +kernel, fun e he facet hf => (hfacets e he facet hf).1⟩

end PermitTypes.Emit.Printer
