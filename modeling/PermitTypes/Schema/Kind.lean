namespace PermitTypes.Schema

/-- What values a property holds. A tag that means nothing is kept, so that it can be reported. -/
inductive Kind where
  | timestamp | text | uuid | integer | decimal | boolean | json | object
  | unknown (tag : String)
  deriving DecidableEq

namespace Kind

def tag : Kind → String
  | timestamp => "timestamp"
  | text => "text"
  | uuid => "uuid"
  | integer => "integer"
  | decimal => "decimal"
  | boolean => "boolean"
  | json => "json"
  | object => "object"
  | unknown tag => tag

def known : List Kind := [timestamp, text, uuid, integer, decimal, boolean, json, object]

def ofTag (tag : String) : Kind := (known.find? (·.tag = tag)).getD (unknown tag)

theorem tag_ofTag (tag : String) : (ofTag tag).tag = tag := by
  unfold ofTag
  cases h : known.find? (·.tag = tag) with
  | none => rfl
  | some k => simpa using List.find?_some h

theorem ofTag_tag {k : Kind} (h : k ∈ known) : ofTag k.tag = k := by
  simp only [known, List.mem_cons, List.not_mem_nil, or_false] at h
  rcases h with rfl | rfl | rfl | rfl | rfl | rfl | rfl | rfl <;> decide

end Kind

end PermitTypes.Schema
