import PermitTypes.Emit.Property
import PermitTypes.Schema.Permit

namespace PermitTypes.Emit

open Schema

def filterMark (optional : Bool) : String := if optional then "?" else ""

def block (head : String) (fields : Fields) : Lines := do
  let body ← fieldLines fields
  .ok (head :: indent body ++ ["\x7d"])

def branchLines : List Fields → Lines
  | [] => .ok []
  | shape :: rest => do
    let first ← block "| \x7b" shape
    let others ← branchLines rest
    .ok (indent first ++ others)

/-- A single shape is one block; the shapes of a union are branches below a line of its own. -/
def filterLines (optional : Bool) : Filter → Lines
  | .shape fields => block ("filter" ++ filterMark optional ++ ": \x7b") fields
  | .union [] => .error .emptyUnion
  | .union shapes => do
    let branches ← branchLines shapes
    .ok (("filter" ++ filterMark optional ++ ":") :: branches)

end PermitTypes.Emit
