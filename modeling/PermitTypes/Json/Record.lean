import PermitTypes.Json.Form

namespace PermitTypes.Json

/-- A named part of a record. Reading it changes a draft. -/
structure Field (δ : Type) where
  name : String
  value : Reader (δ → δ)

/-- A value with named parts. It is written as an object, or as an array that lists the parts in
order and may stop early. -/
structure Record (δ α : Type) where
  expected : String
  draft : δ
  fields : List (Field δ)
  /-- The finished value, or the name of a part that it cannot do without. -/
  finish : δ → Except String α

namespace Record

variable {δ α : Type}

/-- A draft and the names of the parts that it has taken. -/
structure Named (δ : Type) where
  draft : δ
  seen : List String

/-- Names that are no part's are passed over; a part may be given once only. -/
def members (r : Record δ α) : Members (Named δ) α where
  start := ⟨r.draft, []⟩
  member state name :=
    match r.fields.find? (·.name = name) with
    | none => .ok (.ignored state)
    | some field =>
      if name ∈ state.seen then .error (.repeatedField name)
      else .ok (field.value.map fun set => ⟨set state.draft, name :: state.seen⟩)
  finish state :=
    match r.finish state.draft with
    | .error name => .error (.missingField name)
    | .ok a => .ok a

/-- A draft and the parts that may still follow. -/
structure Listed (δ : Type) where
  draft : δ
  remaining : List (Field δ)

def elements (r : Record δ α) : Elements (Listed δ) α where
  start := ⟨r.draft, r.fields⟩
  element state :=
    match state.remaining with
    | [] => none
    | field :: others => some (field.value.map fun set => ⟨set state.draft, others⟩)
  finish state :=
    match r.finish state.draft with
    | .error name =>
      .error (.tooShort (r.fields.findIdx (·.name = name))
        (r.expected ++ " with " ++ toString r.fields.length ++ " elements"))
    | .ok a => .ok a

def form (r : Record δ α) : Form α where
  expected := r.expected
  array := .inside r.elements.reader
  object := .inside r.members.reader

/-- The form of a record where no bracket may be opened any more. -/
def closedForm (expected : String) : Form α where
  expected := expected
  array := .tooDeep
  object := .tooDeep

end Record

end PermitTypes.Json
