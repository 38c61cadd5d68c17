import PermitTypes.Schema.Permit

namespace PermitTypes.Schema

mutual

/-- A condition on a property and on all properties nested in it. -/
def Property.Each (P : Property → Prop) : Property → Prop
  | ⟨kind, optional, list, none⟩ => P ⟨kind, optional, list, none⟩
  | ⟨kind, optional, list, some fields⟩ =>
    P ⟨kind, optional, list, some fields⟩ ∧ Fields.Each P fields

def Fields.Each (P : Property → Prop) : List (String × Property) → Prop
  | [] => True
  | (_, p) :: rest => p.Each P ∧ Fields.Each P rest

end

theorem Fields.each_iff {P : Property → Prop} {fs : List (String × Property)} :
    Fields.Each P fs ↔ ∀ e ∈ fs, e.2.Each P := by
  induction fs with
  | nil => exact ⟨fun _ _ h => (nomatch h), fun _ => trivial⟩
  | cons e fs ih =>
      rw [Fields.Each, ih, List.forall_mem_cons]

mutual

theorem Property.induct {motive : Property → Prop}
    (plain : ∀ kind optional list, motive ⟨kind, optional, list, none⟩)
    (nested : ∀ kind optional list fields, (∀ e ∈ fields, motive e.2) →
      motive ⟨kind, optional, list, some fields⟩) (p : Property) : motive p := by
  match p with
  | ⟨kind, optional, list, none⟩ => exact plain kind optional list
  | ⟨kind, optional, list, some fields⟩ =>
      exact nested kind optional list fields (Fields.induct plain nested fields)

theorem Fields.induct {motive : Property → Prop}
    (plain : ∀ kind optional list, motive ⟨kind, optional, list, none⟩)
    (nested : ∀ kind optional list fields, (∀ e ∈ fields, motive e.2) →
      motive ⟨kind, optional, list, some fields⟩) (fields : List (String × Property)) :
    ∀ e ∈ fields, motive e.2 := by
  match fields with
  | [] => exact fun _ he => nomatch he
  | (_, p) :: rest =>
      exact List.forall_mem_cons.2 ⟨Property.induct plain nested p, Fields.induct plain nested rest⟩

end

def Filter.containers : Filter → List Fields
  | .shape fields => [fields]
  | .union shapes => shapes

def Permit.containers (p : Permit) : List Fields :=
  (p.filter.map Filter.containers).getD [] ++ p.effect.toList

theorem Permit.mem_containers_of_filter {p : Permit} {f : Filter} {fields : Fields}
    (hf : f ∈ p.filter) (h : fields ∈ f.containers) : fields ∈ p.containers := by
  rw [containers, hf]
  exact List.mem_append_left _ h

theorem Permit.mem_containers_of_effect {p : Permit} {fields : Fields} (h : fields ∈ p.effect) :
    fields ∈ p.containers :=
  List.mem_append_right _ (Option.mem_toList.2 h)

end PermitTypes.Schema
