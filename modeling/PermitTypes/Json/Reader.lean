import PermitTypes.Json.Number
import PermitTypes.Json.Skip.Nested

namespace PermitTypes.Json

/-- What reads a value always leaves less of the text. -/
structure Reader (α : Type) where
  run : List Char → Step α
  shrinks : ∀ {s : List Char} {a : α} {rest : List Char},
    run s = .ok (a, rest) → rest.length < s.length

namespace Reader

variable {α β : Type}

def map (f : α → β) (r : Reader α) : Reader β where
  run s :=
    match r.run s with
    | .error fault => .error fault
    | .ok (a, rest) => .ok (f a, rest)
  shrinks h := by
    split at h
    · cases h
    · rename_i hr
      cases h
      exact r.shrinks hr

/-- A value of any kind that is passed over. -/
def ignored (a : α) : Reader α where
  run s :=
    match Skip.value [] s with
    | .error fault => .error fault
    | .ok rest => .ok (a, rest)
  shrinks h := by
    split at h
    · cases h
    · rename_i hr
      cases h
      exact Skip.length_of_value hr

/-- A value or `null`. -/
def nullable (r : Reader α) : Reader (Option α) where
  run s :=
    match skipSpace s with
    | 'n' :: letters =>
      match readLiteral "ull".toList letters with
      | .error fault => .error fault
      | .ok rest => .ok (none, rest)
    | _ => (r.map some).run s
  shrinks h := by
    split at h
    · rename_i hs
      have := length_of_skipSpace hs
      split at h
      · cases h
      · rename_i hr
        have := Skip.length_of_readLiteral hr
        cases h
        omega
    · exact (r.map some).shrinks h

/-- Reads a whole text. -/
def readAll (r : Reader α) (source : List Char) : Except Fault α :=
  match r.run source with
  | .error fault => .error fault
  | .ok (a, rest) =>
    match skipSpace rest with
    | [] => .ok a
    | other => .error (.within .trailingCharacters other)

def read (r : Reader α) (source : String) : Except Failure α :=
  match r.readAll source.toList with
  | .error fault => .error (fault.located source.toList)
  | .ok a => .ok a

end Reader

end PermitTypes.Json
