import PermitTypes.Schema.Permit

namespace PermitTypes.Schema

mutual

/-- Equality of properties, in which nested fields may stand in any order. -/
def Property.same : Property → Property → Bool
  | ⟨kind, optional, list, fields⟩, q =>
    kind == q.kind && optional == q.optional && list == q.list &&
      match fields, q.fields with
      | none, none => true
      | some left, some right => left.length == right.length && Fields.within left right
      | _, _ => false

/-- Every field on the left has a field of its name on the right that is the same. -/
def Fields.within : List (String × Property) → List (String × Property) → Bool
  | [], _ => true
  | (name, p) :: rest, right =>
    (right.lookup name).any p.same && Fields.within rest right

end

namespace Fields

def same (left right : Fields) : Bool := left.length == right.length && within left right

theorem within_eq_all (left right : Fields) :
    within left right = left.all fun e => (right.lookup e.1).any e.2.same := by
  induction left with
  | nil => rfl
  | cons e rest ih => simp [within, ih]

theorem same_eq_agree (left right : Fields) :
    same left right = Entries.agree Property.same left right := by
  simp only [same, Entries.agree, within_eq_all]

def sameInOrder : List Fields → List Fields → Bool
  | [], [] => true
  | a :: as, b :: bs => same a b && sameInOrder as bs
  | _, _ => false

end Fields

/-- The shapes of a union keep their order. -/
def Filter.same : Filter → Filter → Bool
  | .shape a, .shape b => Fields.same a b
  | .union a, .union b => Fields.sameInOrder a b
  | _, _ => false

def optionSame {α : Type} (same : α → α → Bool) : Option α → Option α → Bool
  | none, none => true
  | some a, some b => same a b
  | _, _ => false

def Permit.same (a b : Permit) : Bool :=
  optionSame Filter.same a.filter b.filter && optionSame Fields.same a.effect b.effect &&
    a.extend == b.extend

def Document.same (a b : Document) : Bool :=
  a.base == b.base && Entries.agree Permit.same a.permits b.permits

end PermitTypes.Schema
