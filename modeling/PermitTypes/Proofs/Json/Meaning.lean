import PermitTypes.Proofs.Json.Grammar

namespace PermitTypes.Json.Meaning

open Grammar

variable {α β : Type}

def string : Raw → Option String
  | .string points => text? points
  | _ => none

def flag : Raw → Option Bool
  | .bool b => some b
  | _ => none

def nullable (meaning : Raw → Option α) : Raw → Option (Option α)
  | .null => some none
  | t => (meaning t).map some

def withDefault (default : α) (meaning : Raw → Option α) : Option Raw → Option α
  | none => some default
  | some t => meaning t

def elements (meaning : Raw → Option α) : Raw → Option (List α)
  | .array ts => ts.mapM meaning
  | _ => none

/-- Members by name. A name in which a surrogate stands alone is no text. -/
def named (members : List (List Nat × Raw)) : Option (List (String × Raw)) :=
  members.mapM fun m => (text? m.1).map fun name => (name, m.2)

theorem named_cons (m : List Nat × Raw) (members : List (List Nat × Raw)) :
    named (m :: members) =
      (text? m.1).bind fun name => (named members).map fun items => (name, m.2) :: items := by
  simp only [named, List.mapM_cons]
  cases text? m.1 with
  | none => rfl
  | some name => exact Option.map_eq_bind.symm

theorem named_cons_eq_some {m : List Nat × Raw} {members : List (List Nat × Raw)}
    {found : List (String × Raw)} :
    named (m :: members) = some found ↔
      ∃ name items, text? m.1 = some name ∧ named members = some items ∧
        found = (name, m.2) :: items := by
  simp only [named_cons, Option.bind_eq_some_iff, Option.map_eq_some_iff]
  constructor
  · rintro ⟨name, hname, items, hitems, rfl⟩
    exact ⟨name, items, hname, hitems, rfl⟩
  · rintro ⟨name, items, hname, hitems, rfl⟩
    exact ⟨name, hname, items, hitems, rfl⟩

/-- Each name once, in the order of their first occurrences and with the value of the last. -/
def lastValues (entries : List (String × α)) : List (String × α) :=
  (entries.map (·.1)).eraseDups.filterMap fun name =>
    (entries.reverse.lookup name).map fun a => (name, a)

def entries (meaning : Raw → Option α) : Raw → Option (List (String × α))
  | .object members => do
    let members ← named members
    let values ← members.mapM fun m => (meaning m.2).map fun a => (m.1, a)
    return lastValues values
  | _ => none

theorem entries_object (meaning : Raw → Option α) (members : List (List Nat × Raw)) :
    entries meaning (.object members) =
      (named members).bind fun items =>
        (items.mapM fun m => (meaning m.2).map fun a => (m.1, a)).map lastValues :=
  Option.bind_congr fun _ _ => Option.map_eq_bind.symm

/-- The parts of a record by their names: the members of an object, of which those with a known name
must not repeat it, or the elements of an array in the order of the known names, of which there must
not be more. -/
def parts (known : List String) : Raw → Option (String → Option Raw)
  | .object members => do
    let members ← named members
    if ((members.map (·.1)).filter (· ∈ known)).Nodup then some fun name => members.lookup name
    else none
  | .array ts =>
    if ts.length ≤ known.length then some fun name => (known.zip ts).lookup name else none
  | _ => none

end PermitTypes.Json.Meaning
