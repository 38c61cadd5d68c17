import PermitTypes.Json.Tree
import PermitTypes.Schema.Permit

namespace PermitTypes.Schema

open Json

/-- A flag is written only when it is set. -/
def flagMember (name : String) (value : Bool) : List (String × Tree) :=
  if value then [(name, .bool true)] else []

mutual

def Property.encode : Property → Tree
  | ⟨kind, optional, list, fields⟩ =>
    let nested := match fields with
      | none => []
      | some fields => [("property", .object (Fields.encodeMembers fields))]
    .object (("type", .string kind.tag) :: flagMember "optional" optional ++
      flagMember "list" list ++ nested)

def Fields.encodeMembers : List (String × Property) → List (String × Tree)
  | [] => []
  | (name, p) :: rest => (name, p.encode) :: Fields.encodeMembers rest

end

def Fields.encode (fields : Fields) : Tree := .object (encodeMembers fields)

theorem Fields.encodeMembers_eq_map (fields : Fields) :
    encodeMembers fields = fields.map fun e => (e.1, e.2.encode) := by
  induction fields with
  | nil => rfl
  | cons e rest ih => simp [encodeMembers, ih]

def Filter.encode : Filter → Tree
  | .shape fields => Fields.encode fields
  | .union shapes => .array (shapes.map Fields.encode)

/-- What is absent has no member. -/
def optionMember {α : Type} (name : String) (encode : α → Tree) : Option α → List (String × Tree)
  | none => []
  | some a => [(name, encode a)]

def Permit.encode (p : Permit) : Tree :=
  .object (optionMember "filter" Filter.encode p.filter ++
    optionMember "effect" Fields.encode p.effect ++ optionMember "extend" Tree.string p.extend)

def Base.encode (b : Base) : Tree := .object [("name", .string b.name)]

def Document.encode (d : Document) : Tree :=
  .object [("base", d.base.encode),
    ("permit", .object (d.permits.map fun e => (e.1, e.2.encode)))]

end PermitTypes.Schema
