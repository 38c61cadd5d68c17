import PermitTypes.Schema.Property

namespace PermitTypes.Schema

/-- Which records a permit selects. -/
inductive Filter where
  | shape (fields : Fields)
  | union (shapes : List Fields)
  deriving DecidableEq

structure Permit where
  filter : Option Filter := none
  effect : Option Fields := none
  extend : Option String := none
  deriving DecidableEq

/-- The extended schema; an empty name extends nothing. -/
def Permit.extended (p : Permit) : Option String := p.extend.filter (· ≠ "")

structure Base where
  name : String := ""
  deriving DecidableEq

structure Document where
  base : Base := {}
  permits : List (String × Permit) := []
  deriving DecidableEq

end PermitTypes.Schema
