import PermitTypes.Entries
import PermitTypes.Schema.Kind

namespace PermitTypes.Schema

/-- One field. The nested fields mean something for objects only. -/
structure Property where
  kind : Kind
  optional : Bool := false
  list : Bool := false
  fields : Option (List (String × Property)) := none

/-- Properties by name, in the order of their declaration. -/
abbrev Fields := List (String × Property)

namespace Property

def ofTag (tag : String) : Property := { kind := .ofTag tag }

def object (fields : Fields) : Property := { kind := .object, fields := some fields }

def asOptional (p : Property) : Property := { p with optional := true }

def asList (p : Property) : Property := { p with list := true }

end Property

mutual

def Property.decEq : (p q : Property) → Decidable (p = q)
  | ⟨kind, optional, list, none⟩, q =>
    decidable_of_iff (kind = q.kind ∧ optional = q.optional ∧ list = q.list ∧ q.fields = none) (by
      cases q; simp [Property.mk.injEq, eq_comm])
  | ⟨_, _, _, some _⟩, ⟨_, _, _, none⟩ => isFalse (by simp)
  | ⟨kind, optional, list, some fields⟩, ⟨kind', optional', list', some fields'⟩ =>
    match Fields.decEq fields fields' with
    | isTrue h =>
      decidable_of_iff (kind = kind' ∧ optional = optional' ∧ list = list') (by simp [h])
    | isFalse h => isFalse (by simp [h])

def Fields.decEq : (a b : List (String × Property)) → Decidable (a = b)
  | [], [] => isTrue rfl
  | [], _ :: _ => isFalse (by simp)
  | _ :: _, [] => isFalse (by simp)
  | (n, p) :: a, (m, q) :: b =>
    match p.decEq q, Fields.decEq a b with
    | isTrue h, isTrue h' => decidable_of_iff (n = m) (by simp [h, h'])
    | isFalse h, _ => isFalse (by simp [h])
    | _, isFalse h => isFalse (by simp [h])

end

instance : DecidableEq Property := Property.decEq

end PermitTypes.Schema
