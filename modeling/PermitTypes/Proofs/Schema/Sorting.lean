import PermitTypes.Proofs.Schema.Rearrangement
import PermitTypes.Proofs.Schema.RoundTrip

namespace PermitTypes.Schema

mutual

/-- Nested fields in the order of their names. -/
def Property.sorted : Property → Property
  | ⟨kind, optional, list, none⟩ => ⟨kind, optional, list, none⟩
  | ⟨kind, optional, list, some fields⟩ =>
    ⟨kind, optional, list, some (Entries.byName (Fields.sortedEach fields))⟩

def Fields.sortedEach : List (String × Property) → List (String × Property)
  | [] => []
  | (name, p) :: rest => (name, p.sorted) :: Fields.sortedEach rest

end

def Fields.sorted (fields : Fields) : Fields := Entries.byName (sortedEach fields)

/-- The shapes of a union keep their order. -/
def Filter.sorted : Filter → Filter
  | .shape fields => .shape fields.sorted
  | .union shapes => .union (shapes.map Fields.sorted)

def Permit.sorted (p : Permit) : Permit :=
  ⟨p.filter.map Filter.sorted, p.effect.map Fields.sorted, p.extend⟩

def Document.sorted (d : Document) : Document :=
  ⟨d.base, Entries.byName (d.permits.map fun e => (e.1, e.2.sorted))⟩

theorem Fields.sortedEach_eq_map (fields : Fields) :
    sortedEach fields = fields.map fun e => (e.1, e.2.sorted) := by
  induction fields with
  | nil => rfl
  | cons e rest ih => rw [sortedEach, ih, List.map_cons]

theorem Property.sorted_nested (kind : Kind) (optional list : Bool) (fields : Fields) :
    Property.sorted ⟨kind, optional, list, some fields⟩ =
      ⟨kind, optional, list, some fields.sorted⟩ := by
  rw [Property.sorted]
  rfl

theorem Fields.sorted_eq_iff {left right : Fields} (h : (Entries.names left).Nodup) :
    left.sorted = right.sorted ↔
      Entries.Rearranged (fun p q => p.sorted = q.sorted) left right := by
  rw [Entries.rearranged_iff_byName_eq h, sorted, sorted, sortedEach_eq_map, sortedEach_eq_map]

theorem Property.rearranged_iff_sorted_eq {p q : Property} (hp : p.Distinct) :
    p.Rearranged q ↔ p.sorted = q.sorted := by
  constructor
  · intro h
    have hrespected : Property.Respected fun p q => p.Distinct → p.sorted = q.sorted := by
      refine ⟨fun _ _ _ _ => rfl, fun kind optional list left right h hp => ?_⟩
      obtain ⟨hnodup, heach⟩ := Fields.distinct_iff.1 (Property.distinct_nested.1 hp)
      have hsorted : left.sorted = right.sorted :=
        (Fields.sorted_eq_iff hnodup).2 (h.imp fun e he q hq => hq (heach e he))
      rw [sorted_nested, sorted_nested, hsorted]
    exact h.lift hrespected hp
  · intro h
    induction p using Property.induct generalizing q with
    | plain kind optional list =>
        obtain ⟨kind', optional', list', right⟩ := q
        cases right with
        | none =>
            rw [Property.sorted, Property.sorted] at h
            cases h
            exact .plain kind optional list
        | some right =>
            rw [sorted_nested] at h
            cases h
    | nested kind optional list left ih =>
        obtain ⟨kind', optional', list', right⟩ := q
        cases right with
        | none =>
            rw [sorted_nested] at h
            cases h
        | some right =>
            obtain ⟨hnodup, heach⟩ := Fields.distinct_iff.1 (Property.distinct_nested.1 hp)
            rw [sorted_nested, sorted_nested, Property.mk.injEq, Option.some.injEq] at h
            obtain ⟨rfl, rfl, rfl, hsorted⟩ := h
            obtain ⟨middle, hmiddle, hperm⟩ := ((Fields.sorted_eq_iff hnodup).1 hsorted).imp
              fun e he q hq => ih e he (heach e he) hq
            exact .nested kind optional list hmiddle hperm

theorem Fields.rearranged_iff_sorted_eq {left right : Fields} (hd : left.Distinct) :
    left.Rearranged right ↔ left.sorted = right.sorted := by
  obtain ⟨hnodup, heach⟩ := Fields.distinct_iff.1 hd
  rw [sorted_eq_iff hnodup]
  constructor
  · exact fun h => h.imp fun e he q => (Property.rearranged_iff_sorted_eq (heach e he)).1
  · exact fun h => h.imp fun e he q => (Property.rearranged_iff_sorted_eq (heach e he)).2

theorem Filter.rearranged_iff_sorted_eq {a b : Filter}
    (hd : ∀ fields ∈ a.containers, fields.Distinct) : a.Rearranged b ↔ a.sorted = b.sorted := by
  cases a with
  | shape left =>
      cases b with
      | shape right =>
          rw [sorted, sorted, Filter.shape.injEq,
            ← Fields.rearranged_iff_sorted_eq (hd left List.mem_cons_self)]
          exact ⟨fun h => by cases h; assumption, .shape⟩
      | union _ => exact ⟨fun h => (nomatch h), fun h => (nomatch h)⟩
  | union left =>
      cases b with
      | shape _ => exact ⟨fun h => (nomatch h), fun h => (nomatch h)⟩
      | union right =>
          have hiff : List.Forall₂ Fields.Rearranged left right ↔
              left.map Fields.sorted = right.map Fields.sorted := by
            rw [← List.forall₂_eq_eq_eq, List.forall₂_map_left_iff, List.forall₂_map_right_iff]
            exact forall₂_congr_of_mem fun fields hmem _ =>
              Fields.rearranged_iff_sorted_eq (hd fields hmem)
          rw [sorted, sorted, Filter.union.injEq, ← hiff]
          exact ⟨fun h => by cases h; assumption, .union⟩

theorem Permit.rearranged_iff_sorted_eq {a b : Permit}
    (hd : ∀ fields ∈ a.containers, fields.Distinct) : a.Rearranged b ↔ a.sorted = b.sorted := by
  have hfilter : Option.Rel Filter.Rearranged a.filter b.filter ↔
      a.filter.map Filter.sorted = b.filter.map Filter.sorted := by
    rw [option_rel_congr fun f hf g => Filter.rearranged_iff_sorted_eq fun fields hmem =>
      hd fields (a.mem_containers_of_filter hf hmem)]
    exact option_rel_eq_iff
  have heffect : Option.Rel Fields.Rearranged a.effect b.effect ↔
      a.effect.map Fields.sorted = b.effect.map Fields.sorted := by
    rw [option_rel_congr fun fields hf _ => Fields.rearranged_iff_sorted_eq
      (hd fields (a.mem_containers_of_effect hf))]
    exact option_rel_eq_iff
  rw [sorted, sorted, Permit.mk.injEq, ← hfilter, ← heffect]
  exact ⟨fun h => ⟨h.filter, h.effect, h.extend⟩, fun h => ⟨h.1, h.2.1, h.2.2⟩⟩

theorem Document.rearranged_iff_sorted_eq {a b : Document} (hd : a.Distinct) :
    a.Rearranged b ↔ a.sorted = b.sorted := by
  rw [sorted, sorted, Document.mk.injEq, ← Entries.rearranged_iff_byName_eq hd.1]
  constructor
  · rintro ⟨hbase, hpermits⟩
    exact ⟨hbase, hpermits.imp fun e he p => (Permit.rearranged_iff_sorted_eq (hd.2 e he)).1⟩
  · rintro ⟨hbase, hpermits⟩
    exact ⟨hbase, hpermits.imp fun e he p => (Permit.rearranged_iff_sorted_eq (hd.2 e he)).2⟩

theorem Property.each_sorted {P : Property → Prop} {p : Property}
    (hP : ∀ kind optional list fields, P ⟨kind, optional, list, some fields⟩ →
      P ⟨kind, optional, list, some (Fields.sorted fields)⟩) (h : p.Each P) : p.sorted.Each P := by
  induction p using Property.induct with
  | plain kind optional list => exact h
  | nested kind optional list fields ih =>
      rw [sorted_nested]
      refine ⟨hP kind optional list fields h.1, Fields.each_iff.2 ?_⟩
      rw [Fields.sorted, Fields.sortedEach_eq_map, Entries.forall_byName_map]
      exact fun e he => ih e he (Fields.each_iff.1 h.2 e he)

theorem Fields.each_sorted {P : Property → Prop} {fields : Fields}
    (hP : ∀ kind optional list fields, P ⟨kind, optional, list, some fields⟩ →
      P ⟨kind, optional, list, some (Fields.sorted fields)⟩) (h : Each P fields) :
    Each P fields.sorted := by
  rw [Fields.each_iff, sorted, sortedEach_eq_map, Entries.forall_byName_map]
  exact fun e he => Property.each_sorted hP (Fields.each_iff.1 h e he)

theorem Fields.names_sorted_nodup {fields : Fields} (h : (Entries.names fields).Nodup) :
    (Entries.names fields.sorted).Nodup := by
  rw [sorted, sortedEach_eq_map]
  refine Entries.names_byName_nodup ?_
  rwa [Entries.names, List.map_map]

theorem Fields.distinct_sorted {fields : Fields} (h : fields.Distinct) :
    fields.sorted.Distinct := by
  refine ⟨names_sorted_nodup h.1, each_sorted (fun kind optional list nested hn => ?_) h.2⟩
  intro fields hfields
  obtain rfl := Option.some.inj hfields
  exact names_sorted_nodup (hn nested rfl)

theorem Fields.genuine_sorted {fields : Fields} (h : fields.Genuine) : fields.sorted.Genuine :=
  each_sorted (fun _ _ _ _ hkind => hkind) h

theorem Permit.containers_sorted (p : Permit) :
    p.sorted.containers = p.containers.map Fields.sorted := by
  obtain ⟨filter, effect, extend⟩ := p
  rw [containers, containers, List.map_append]
  cases effect <;> rcases filter with _ | ⟨_ | _⟩ <;> rfl

/-- What holds of each container, sorted or not, holds of each in a sorted document. -/
theorem Document.forall_containers_sorted {P : Fields → Prop} {d : Document}
    (hP : ∀ fields, P fields → P fields.sorted)
    (h : ∀ e ∈ d.permits, ∀ fields ∈ e.2.containers, P fields) :
    ∀ e ∈ d.sorted.permits, ∀ fields ∈ e.2.containers, P fields := by
  let Q (p : Permit) : Prop := ∀ fields ∈ p.containers, P fields
  refine (Entries.forall_byName_map (P := Q)).2 fun e he => ?_
  change ∀ fields ∈ e.2.sorted.containers, P fields
  rw [Permit.containers_sorted, List.forall_mem_map]
  exact fun fields hmem => hP fields (h e he fields hmem)

theorem Document.distinct_sorted {d : Document} (h : d.Distinct) : d.sorted.Distinct := by
  refine ⟨Entries.names_byName_nodup ?_,
    forall_containers_sorted (fun _ => Fields.distinct_sorted) h.2⟩
  rw [Entries.names, List.map_map]
  exact h.1

theorem Document.genuine_sorted {d : Document} (h : d.Genuine) : d.sorted.Genuine :=
  forall_containers_sorted (fun _ => Fields.genuine_sorted) h

/-- Whatever its depth, a document is known from its text: with enough room for brackets, the text
is read as both documents that are written so. -/
theorem Document.write_injective {a b : Document} (ha : a.Distinct ∧ a.Genuine)
    (hb : b.Distinct ∧ b.Genuine) (layout : Layout) (h : a.write layout = b.write layout) :
    a = b := by
  let room := max a.encode.raw.depth b.encode.raw.depth
  have hreada := answers_write ha.1 ha.2 layout room
  have hreadb := answers_write hb.1 hb.2 layout room
  rw [Meaning.fit, if_pos (Nat.le_max_left ..), h] at hreada
  rw [Meaning.fit, if_pos (Nat.le_max_right ..)] at hreadb
  have hboth := hreada.symm.trans hreadb
  cases hboth
  rfl

/-- Two documents are the same exactly if their texts are, once both are sorted. -/
theorem Document.same_eq_true_iff_write_sorted_eq {a b : Document}
    (ha : a.Distinct ∧ a.Genuine) (hb : b.Distinct ∧ b.Genuine) (layout : Layout) :
    a.same b = true ↔ a.sorted.write layout = b.sorted.write layout := by
  rw [same_eq_true_iff_rearranged ha.1, rearranged_iff_sorted_eq ha.1]
  constructor
  · intro h
    rw [h]
  · exact write_injective ⟨distinct_sorted ha.1, genuine_sorted ha.2⟩
      ⟨distinct_sorted hb.1, genuine_sorted hb.2⟩ layout

end PermitTypes.Schema
