import PermitTypes.Proofs.EntryOrder
import PermitTypes.Proofs.Schema.Encoding
import PermitTypes.Schema.Sameness

namespace PermitTypes.Schema

/-- Properties that differ in the order of nested fields at most. -/
inductive Property.Rearranged : Property → Property → Prop
  | plain (kind : Kind) (optional list : Bool) :
      Property.Rearranged ⟨kind, optional, list, none⟩ ⟨kind, optional, list, none⟩
  | nested (kind : Kind) (optional list : Bool) {left middle right : List (String × Property)}
      (h : List.Forall₂ (Entries.Related Property.Rearranged) left middle)
      (hperm : middle.Perm right) :
      Property.Rearranged ⟨kind, optional, list, some left⟩ ⟨kind, optional, list, some right⟩

def Fields.Rearranged (left right : Fields) : Prop :=
  Entries.Rearranged Property.Rearranged left right

/-- The shapes of a union keep their order. -/
inductive Filter.Rearranged : Filter → Filter → Prop
  | shape {left right : Fields} (h : left.Rearranged right) :
      Filter.Rearranged (.shape left) (.shape right)
  | union {left right : List Fields} (h : List.Forall₂ Fields.Rearranged left right) :
      Filter.Rearranged (.union left) (.union right)

structure Permit.Rearranged (a b : Permit) : Prop where
  filter : Option.Rel Filter.Rearranged a.filter b.filter
  effect : Option.Rel Fields.Rearranged a.effect b.effect
  extend : a.extend = b.extend

structure Document.Rearranged (a b : Document) : Prop where
  base : a.base = b.base
  permits : Entries.Rearranged Permit.Rearranged a.permits b.permits

/-- Each name stands once in the fields nested in a property, and in those nested in them. -/
def Property.Distinct (p : Property) : Prop :=
  p.Each fun p => ∀ nested ∈ p.fields, (Entries.names nested).Nodup

theorem Fields.distinct_iff {fields : Fields} :
    fields.Distinct ↔ (Entries.names fields).Nodup ∧ ∀ e ∈ fields, e.2.Distinct :=
  and_congr_right fun _ => Fields.each_iff

theorem Property.distinct_nested {kind : Kind} {optional list : Bool} {fields : Fields} :
    (Property.mk kind optional list (some fields)).Distinct ↔ fields.Distinct := by
  simp only [Property.Distinct, Property.Each, Option.mem_def, Option.some.injEq, forall_eq',
    Fields.Distinct]

theorem optionSame_iff {α : Type} {same : α → α → Bool} {a b : Option α} :
    optionSame same a b = true ↔ Option.Rel (fun x y => same x y = true) a b := by
  constructor
  · intro h
    cases a <;> cases b <;> first | exact .none | exact .some h | cases h
  · intro h
    cases h with
    | none => rfl
    | some h => exact h

theorem Property.same_iff {p q : Property} : p.same q = true ↔
    p.kind = q.kind ∧ p.optional = q.optional ∧ p.list = q.list ∧
      Option.Rel (fun left right => Fields.same left right = true) p.fields q.fields := by
  obtain ⟨kind, optional, list, left⟩ := p
  obtain ⟨kind', optional', list', right⟩ := q
  have hfields : Property.same ⟨kind, optional, list, left⟩ ⟨kind', optional', list', right⟩ =
      (kind == kind' && optional == optional' && list == list' &&
        optionSame Fields.same left right) := by
    cases left <;> cases right <;> rw [Property.same.eq_def] <;> rfl
  rw [hfields, ← optionSame_iff]
  simp only [Bool.and_eq_true, beq_iff_eq, and_assoc]

/-- A relation that a rearrangement of related nested fields keeps. -/
structure Property.Respected (R : Property → Property → Prop) : Prop where
  plain : ∀ kind optional list, R ⟨kind, optional, list, none⟩ ⟨kind, optional, list, none⟩
  nested : ∀ kind optional list {left right : Fields}, Entries.Rearranged R left right →
    R ⟨kind, optional, list, some left⟩ ⟨kind, optional, list, some right⟩

theorem Property.Rearranged.lift {R : Property → Property → Prop} (hR : Property.Respected R)
    {p q : Property} (h : p.Rearranged q) : R p q := by
  induction p using Property.induct generalizing q with
  | plain kind optional list =>
      cases h
      exact hR.plain kind optional list
  | nested kind optional list left ih =>
      cases h with
      | nested _ _ _ hmiddle hperm =>
          have hleft : Fields.Rearranged left _ := ⟨_, hmiddle, hperm⟩
          exact hR.nested kind optional list (hleft.imp fun e he q hq => ih e he hq)

/-- What is found to be the same by its names is all there is, so nothing but the order differs. -/
theorem Property.rearranged_of_same {p q : Property} (hp : p.Distinct) (h : p.same q = true) :
    p.Rearranged q := by
  induction p using Property.induct generalizing q with
  | plain kind optional list =>
      obtain ⟨rfl, rfl, rfl, hfields⟩ := Property.same_iff.1 h
      obtain ⟨kind, optional, list, right⟩ := q
      cases hfields
      exact .plain kind optional list
  | nested kind optional list left ih =>
      obtain ⟨rfl, rfl, rfl, hfields⟩ := Property.same_iff.1 h
      obtain ⟨kind, optional, list, right⟩ := q
      obtain ⟨hnodup, heach⟩ := Fields.distinct_iff.1 (Property.distinct_nested.1 hp)
      cases hfields with
      | some hsame =>
          rw [Fields.same_eq_agree, Entries.agree_iff_rearranged hnodup] at hsame
          obtain ⟨middle, hmiddle, hperm⟩ := hsame.imp fun e he q hq => ih e he (heach e he) hq
          exact .nested kind optional list hmiddle hperm

theorem Property.same_of_rearranged {p q : Property} (hp : p.Distinct) (h : p.Rearranged q) :
    p.same q = true := by
  have hrespected : Property.Respected fun p q => p.Distinct → p.same q = true := by
    refine ⟨fun kind optional list _ => ?_, fun kind optional list left right h hp => ?_⟩
    · exact Property.same_iff.2 ⟨rfl, rfl, rfl, .none⟩
    · obtain ⟨hnodup, heach⟩ := Fields.distinct_iff.1 (Property.distinct_nested.1 hp)
      have hsame : Fields.same left right = true := by
        rw [Fields.same_eq_agree, Entries.agree_iff_rearranged hnodup]
        exact h.imp fun e he q hq => hq (heach e he)
      exact Property.same_iff.2 ⟨rfl, rfl, rfl, .some hsame⟩
  exact h.lift hrespected hp

theorem Fields.same_eq_true_iff_rearranged {left right : Fields} (hd : left.Distinct) :
    left.same right = true ↔ left.Rearranged right := by
  obtain ⟨hnodup, heach⟩ := Fields.distinct_iff.1 hd
  rw [same_eq_agree, Entries.agree_iff_rearranged hnodup]
  constructor
  · exact fun h => h.imp fun e he q => Property.rearranged_of_same (heach e he)
  · exact fun h => h.imp fun e he q => Property.same_of_rearranged (heach e he)

theorem Fields.sameInOrder_iff {left right : List Fields} :
    sameInOrder left right = true ↔ List.Forall₂ (fun x y => same x y = true) left right := by
  induction left generalizing right with
  | nil => cases right <;> simp [sameInOrder]
  | cons fields left ih => cases right <;> simp [sameInOrder, ih]

theorem Filter.same_eq_true_iff_rearranged {a b : Filter}
    (hd : ∀ fields ∈ a.containers, fields.Distinct) : a.same b = true ↔ a.Rearranged b := by
  cases a with
  | shape left =>
      have hleft : left.Distinct := hd left List.mem_cons_self
      cases b with
      | shape right =>
          rw [Filter.same, Fields.same_eq_true_iff_rearranged hleft]
          exact ⟨.shape, fun h => by cases h; assumption⟩
      | union _ => exact ⟨fun h => (nomatch h), fun h => (nomatch h)⟩
  | union left =>
      cases b with
      | shape _ => exact ⟨fun h => (nomatch h), fun h => (nomatch h)⟩
      | union right =>
          rw [Filter.same, Fields.sameInOrder_iff]
          have hiff : List.Forall₂ (fun x y => Fields.same x y = true) left right ↔
              List.Forall₂ Fields.Rearranged left right :=
            forall₂_congr_of_mem fun fields hmem _ =>
              Fields.same_eq_true_iff_rearranged (hd fields hmem)
          rw [hiff]
          exact ⟨.union, fun h => by cases h; assumption⟩

theorem Permit.same_eq_true_iff_rearranged {a b : Permit}
    (hd : ∀ fields ∈ a.containers, fields.Distinct) : a.same b = true ↔ a.Rearranged b := by
  have hfilter : ∀ f ∈ a.filter, ∀ g, f.same g = true ↔ f.Rearranged g := fun f hf g =>
    Filter.same_eq_true_iff_rearranged fun fields hmem =>
      hd fields (a.mem_containers_of_filter hf hmem)
  have heffect : ∀ fields ∈ a.effect, ∀ other, fields.same other = true ↔
      fields.Rearranged other := fun fields hf other =>
    Fields.same_eq_true_iff_rearranged (hd fields (a.mem_containers_of_effect hf))
  simp only [Permit.same, Bool.and_eq_true, beq_iff_eq, and_assoc]
  rw [optionSame_iff, optionSame_iff, option_rel_congr hfilter, option_rel_congr heffect]
  exact ⟨fun h => ⟨h.1, h.2.1, h.2.2⟩, fun h => ⟨h.filter, h.effect, h.extend⟩⟩

/-- Documents that are the same differ in the order of permits and of fields, and in nothing
else. -/
theorem Document.same_eq_true_iff_rearranged {a b : Document} (hd : a.Distinct) :
    a.same b = true ↔ a.Rearranged b := by
  rw [Document.same, Bool.and_eq_true, beq_iff_eq, Entries.agree_iff_rearranged hd.1]
  constructor
  · rintro ⟨hbase, hpermits⟩
    exact ⟨hbase, hpermits.imp fun e he p => (Permit.same_eq_true_iff_rearranged (hd.2 e he)).1⟩
  · rintro ⟨hbase, hpermits⟩
    exact ⟨hbase, hpermits.imp fun e he p => (Permit.same_eq_true_iff_rearranged (hd.2 e he)).2⟩

end PermitTypes.Schema
