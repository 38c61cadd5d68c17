import PermitTypes.Emit.Declaration

namespace PermitTypes.Emit

open Schema

theorem bind_eq_ok_iff {ε α β : Type} {x : Except ε α} {f : α → Except ε β} {b : β} :
    (x >>= f) = .ok b ↔ ∃ a, x = .ok a ∧ f a = .ok b := by
  cases x <;> simp [bind, Except.bind]

theorem eq_ok_of_toOption {ε α : Type} {x : Except ε α} {a : α} (h : x.toOption = some a) :
    x = .ok a := by
  cases x with
  | error e => cases h
  | ok b => exact congrArg _ (Option.some.inj h)

theorem propertyLines_of_scalarType (name : String) {kind : Kind} {type : String}
    (h : scalarType kind = some type) (optional list : Bool) (fields : Option Fields) :
    propertyLines name ⟨kind, optional, list, fields⟩ =
      .ok [scalarLine name optional list type] := by
  cases kind <;> cases h <;> rw [propertyLines.eq_def] <;> rfl

theorem propertyLines_object (name : String) (optional list : Bool) (fields : Option Fields) :
    propertyLines name ⟨.object, optional, list, fields⟩ =
      (fieldLines (fields.getD []) >>= fun body =>
        .ok (openLine name optional list :: indent body ++ [closeLine list])) := by
  cases fields <;> rw [propertyLines.eq_def] <;> rfl

theorem propertyLines_unknown (name tag : String) (optional list : Bool) (fields : Option Fields) :
    propertyLines name ⟨.unknown tag, optional, list, fields⟩ = .error (.unknownKind tag) := by
  rw [propertyLines.eq_def]
  rfl

/-- A property that has lines is a scalar with one of them, or an object with a body. -/
theorem propertyLines_eq_ok {name : String} {p : Property} {lines : List String}
    (h : propertyLines name p = .ok lines) :
    (∃ type, scalarType p.kind = some type ∧
      lines = [scalarLine name p.optional p.list type]) ∨
    (p.kind = .object ∧ ∃ body, fieldLines (p.fields.getD []) = .ok body ∧
      lines = openLine name p.optional p.list :: indent body ++ [closeLine p.list]) := by
  obtain ⟨kind, optional, list, fields⟩ := p
  cases hs : scalarType kind with
  | some type =>
      rw [propertyLines_of_scalarType name hs] at h
      exact .inl ⟨type, rfl, (Except.ok.inj h).symm⟩
  | none =>
      cases kind with
      | object =>
          rw [propertyLines_object, bind_eq_ok_iff] at h
          obtain ⟨body, hb, hl⟩ := h
          exact .inr ⟨rfl, body, hb, (Except.ok.inj hl).symm⟩
      | unknown tag => rw [propertyLines_unknown] at h; cases h
      | _ => cases hs

theorem fieldLines_cons_eq_ok {name : String} {p : Property} {rest : Fields}
    {lines : List String} (h : fieldLines ((name, p) :: rest) = .ok lines) :
    ∃ first others, propertyLines name p = .ok first ∧ fieldLines rest = .ok others ∧
      lines = first ++ others := by
  rw [fieldLines, bind_eq_ok_iff] at h
  obtain ⟨first, hf, h⟩ := h
  obtain ⟨others, ho, h⟩ := bind_eq_ok_iff.1 h
  exact ⟨first, others, hf, ho, (Except.ok.inj h).symm⟩

theorem block_eq_ok {head : String} {fields : Fields} {lines : List String}
    (h : block head fields = .ok lines) :
    ∃ body, fieldLines fields = .ok body ∧ lines = head :: indent body ++ ["\x7d"] := by
  obtain ⟨body, hb, h⟩ := bind_eq_ok_iff.1 h
  exact ⟨body, hb, (Except.ok.inj h).symm⟩

theorem branchLines_cons_eq_ok {shape : Fields} {rest : List Fields} {lines : List String}
    (h : branchLines (shape :: rest) = .ok lines) :
    ∃ first others, block "| \x7b" shape = .ok first ∧ branchLines rest = .ok others ∧
      lines = indent first ++ others := by
  rw [branchLines, bind_eq_ok_iff] at h
  obtain ⟨first, hf, h⟩ := h
  obtain ⟨others, ho, h⟩ := bind_eq_ok_iff.1 h
  exact ⟨first, others, hf, ho, (Except.ok.inj h).symm⟩

theorem filterLines_union_eq_ok {optional : Bool} {shapes : List Fields} {lines : List String}
    (h : filterLines optional (.union shapes) = .ok lines) :
    shapes ≠ [] ∧ ∃ branches, branchLines shapes = .ok branches ∧
      lines = ("filter" ++ filterMark optional ++ ":") :: branches := by
  cases shapes with
  | nil => cases h
  | cons shape rest =>
      obtain ⟨branches, hb, h⟩ := bind_eq_ok_iff.1 h
      exact ⟨by simp, branches, hb, (Except.ok.inj h).symm⟩

theorem permitLines_eq_ok {options : Options} {permit : Permit} {lines : List String}
    (h : permitLines options permit = .ok lines) :
    ∃ filter effect, facet (filterLines options.filterOptional) permit.filter = .ok filter ∧
      facet effectLines permit.effect = .ok effect ∧
      lines = filter ++ effect ++ (permit.extended.map extendLine).toList := by
  obtain ⟨filter, hf, h⟩ := bind_eq_ok_iff.1 h
  obtain ⟨effect, he, h⟩ := bind_eq_ok_iff.1 h
  obtain ⟨extension, hx, h⟩ := bind_eq_ok_iff.1 h
  refine ⟨filter, effect, hf, he, ?_⟩
  rw [← Except.ok.inj h]
  cases hp : permit.extended with
  | none => rw [hp] at hx; cases hx; rfl
  | some schema => rw [hp] at hx; cases hx; rfl

theorem permitBodies_cons_eq_ok {options : Options} {name : String} {permit : Permit}
    {rest : List (String × Permit)} {bodies : List (String × List String)}
    (h : permitBodies options ((name, permit) :: rest) = .ok bodies) :
    ∃ lines others, permitLines options permit = .ok lines ∧
      permitBodies options rest = .ok others ∧ bodies = (name, lines) :: others := by
  rw [permitBodies] at h
  cases hl : permitLines options permit with
  | error cause => rw [hl] at h; cases h
  | ok lines =>
      rw [hl] at h
      obtain ⟨others, ho, hb⟩ := bind_eq_ok_iff.1 h
      exact ⟨lines, others, rfl, ho, (Except.ok.inj hb).symm⟩

end PermitTypes.Emit
