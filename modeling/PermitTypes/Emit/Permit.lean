import PermitTypes.Emit.Filter
import PermitTypes.Emit.Naming

namespace PermitTypes.Emit

open Schema

structure Options where
  filterOptional : Bool := false

def effectLines (fields : Fields) : Lines := block "effect: \x7b" fields

def extendLine (schema : String) : String := "extend: " ++ extendTypeName schema

/-- What is absent has no lines. -/
def facet {α : Type} (lines : α → Lines) : Option α → Lines
  | none => .ok []
  | some a => lines a

/-- Filter, effect and extension, in this order. -/
def permitLines (options : Options) (permit : Permit) : Lines := do
  let filter ← facet (filterLines options.filterOptional) permit.filter
  let effect ← facet effectLines permit.effect
  let extension ← facet (fun schema => .ok [extendLine schema]) permit.extended
  .ok (filter ++ effect ++ extension)

end PermitTypes.Emit
