import PermitTypes.Proofs.Json.Meaning
import PermitTypes.Schema.Permit

namespace PermitTypes.Schema.Meaning

open Json Json.Grammar Json.Meaning

mutual

/-- The property that a value means, when `room` brackets may be open at once in what is read of it. -/
def property (room : Nat) (t : Raw) : Option Property :=
  match room with
  | 0 => none
  | room + 1 => do
    let given ← parts ["type", "optional", "list", "property"] t
    let tag ← (given "type").bind string
    let optional ← withDefault false flag (given "optional")
    let list ← withDefault false flag (given "list")
    let nested ← withDefault none (nullable (fields room)) (given "property")
    return ⟨.ofTag tag, optional, list, nested⟩

def fields (room : Nat) (t : Raw) : Option Fields :=
  match room with
  | 0 => none
  | room + 1 => entries (property room) t

end

def filter (room : Nat) (t : Raw) : Option Filter :=
  match room, t with
  | 0, _ => none
  | room + 1, .array _ => (elements (fields room) t).map .union
  | room + 1, _ => (fields (room + 1) t).map .shape

def permit (room : Nat) (t : Raw) : Option Permit :=
  match room with
  | 0 => none
  | room + 1 => do
    let given ← parts ["filter", "effect", "extend"] t
    let filter ← withDefault none (nullable (filter room)) (given "filter")
    let effect ← withDefault none (nullable (fields room)) (given "effect")
    let extend ← withDefault none (nullable string) (given "extend")
    return ⟨filter, effect, extend⟩

def permits (room : Nat) (t : Raw) : Option (List (String × Permit)) :=
  match room with
  | 0 => none
  | room + 1 => entries (permit room) t

def base (room : Nat) (t : Raw) : Option Base :=
  match room with
  | 0 => none
  | _ + 1 => do
    let given ← parts ["name"] t
    let name ← withDefault "" string (given "name")
    return ⟨name⟩

def document (room : Nat) (t : Raw) : Option Document :=
  match room with
  | 0 => none
  | room + 1 => do
    let given ← parts ["base", "permit"] t
    let base ← withDefault {} (base room) (given "base")
    let permits ← withDefault [] (permits room) (given "permit")
    return ⟨base, permits⟩

end PermitTypes.Schema.Meaning
