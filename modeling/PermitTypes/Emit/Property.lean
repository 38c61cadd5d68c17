import PermitTypes.Emit.Lines
import PermitTypes.Schema.Property

namespace PermitTypes.Emit

open Schema

/-- The type of a value that needs no lines of its own. -/
def scalarType : Kind → Option String
  | .timestamp => some "Date"
  | .text | .uuid => some "string"
  | .integer | .decimal => some "number"
  | .boolean => some "boolean"
  | .json => some "object"
  | .object | .unknown _ => none

/-- The mark of an optional field belongs to its name. -/
def label (name : String) (optional : Bool) : String :=
  name ++ (if optional then "?" else "") ++ ": "

def listOpen (list : Bool) : String := if list then "Array<" else ""

def listClose (list : Bool) : String := if list then ">" else ""

def scalarLine (name : String) (optional list : Bool) (type : String) : String :=
  label name optional ++ listOpen list ++ type ++ listClose list

def openLine (name : String) (optional list : Bool) : String :=
  label name optional ++ listOpen list ++ "\x7b"

def closeLine (list : Bool) : String := "\x7d" ++ listClose list

mutual

def propertyLines (name : String) : Property → Lines
  | ⟨kind, optional, list, fields⟩ =>
    match scalarType kind with
    | some type => .ok [scalarLine name optional list type]
    | none =>
      match kind with
      | .unknown tag => .error (.unknownKind tag)
      | _ => do
        let body ← match fields with
          | none => .ok []
          | some fields => fieldLines fields
        .ok (openLine name optional list :: indent body ++ [closeLine list])

/-- The lines of every field in order, not indented. -/
def fieldLines : List (String × Property) → Lines
  | [] => .ok []
  | (name, p) :: rest => do
    let first ← propertyLines name p
    let others ← fieldLines rest
    .ok (first ++ others)

end

end PermitTypes.Emit
