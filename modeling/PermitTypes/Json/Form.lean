import PermitTypes.Entries
import PermitTypes.Json.Elements
import PermitTypes.Json.Members

namespace PermitTypes.Json

/-- What a bracket may do where a value is expected. -/
inductive Opening (α : Type) where
  | refused
  | tooDeep
  | inside (body : Reader α)

/-- Which values are accepted, and what they mean. -/
structure Form (α : Type) where
  expected : String
  text : String → Option α := fun _ => none
  truth : Bool → Option α := fun _ => none
  array : Opening α := .refused
  object : Opening α := .refused

namespace Form

variable {α : Type}

/-- The meaning of a value that has been read. -/
def settle (f : Form α) (meaning : Option α) (found : Found) (rest : List Char) : Step α :=
  match meaning with
  | some a => .ok (a, rest)
  | none => .error (.before (.wrongType found f.expected) rest)

def openBracket (f : Form α) (opening : Opening α) (found : Found) (bracket : Char)
    (s : List Char) : Step α :=
  match opening with
  | .refused => .error (.before (.wrongType found f.expected) (bracket :: s))
  | .tooDeep => .error (.within .tooDeep (bracket :: s))
  | .inside body => body.run s

def readWord (f : Form α) (letters : String) (meaning : Option α) (found : Found)
    (s : List Char) : Step α :=
  match readLiteral letters.toList s with
  | .error fault => .error fault
  | .ok rest => f.settle meaning found rest

def run (f : Form α) (s : List Char) : Step α :=
  match skipSpace s with
  | [] => .error ⟨.endInValue, 0⟩
  | 'n' :: rest => f.readWord "ull" none .null rest
  | 't' :: rest => f.readWord "rue" (f.truth true) (.bool true) rest
  | 'f' :: rest => f.readWord "alse" (f.truth false) (.bool false) rest
  | '"' :: rest =>
    match readString rest with
    | .error fault => .error fault
    | .ok (text, rest) => f.settle (f.text text) (.string text) rest
  | '[' :: rest => f.openBracket f.array .array '[' rest
  | '{' :: rest => f.openBracket f.object .object '{' rest
  | c :: rest =>
    if c = '-' || isDigit c then
      match readNumber (c :: rest) with
      | .error fault => .error fault
      | .ok (found, rest) => .error (.before (.wrongType found f.expected) rest)
    else .error (.within .noValue (c :: rest))

theorem rest_eq_of_settle {f : Form α} {meaning : Option α} {found : Found} {s rest : List Char}
    {a : α} (h : f.settle meaning found s = .ok (a, rest)) : rest = s := by
  unfold settle at h
  split at h
  · cases h; rfl
  · cases h

theorem length_of_openBracket {f : Form α} {opening : Opening α} {found : Found} {bracket : Char}
    {s rest : List Char} {a : α} (h : f.openBracket opening found bracket s = .ok (a, rest)) :
    rest.length < s.length := by
  unfold openBracket at h
  split at h
  · cases h
  · cases h
  · rename_i body
    exact body.shrinks h

theorem length_of_readWord {f : Form α} {letters : String} {meaning : Option α} {found : Found}
    {s rest : List Char} {a : α} (h : f.readWord letters meaning found s = .ok (a, rest)) :
    rest.length ≤ s.length := by
  unfold readWord at h
  split at h
  · cases h
  · rename_i hl
    rw [rest_eq_of_settle h]
    exact Skip.length_of_readLiteral hl

theorem length_of_run {f : Form α} {s rest : List Char} {a : α} (h : f.run s = .ok (a, rest)) :
    rest.length < s.length := by
  unfold run at h
  split at h
  · cases h
  · rename_i hs
    exact Nat.lt_of_le_of_lt (length_of_readWord h) (length_of_skipSpace hs)
  · rename_i hs
    exact Nat.lt_of_le_of_lt (length_of_readWord h) (length_of_skipSpace hs)
  · rename_i hs
    exact Nat.lt_of_le_of_lt (length_of_readWord h) (length_of_skipSpace hs)
  · rename_i hs
    split at h
    · cases h
    · rename_i ht
      rw [rest_eq_of_settle h]
      exact Nat.lt_trans (length_of_readString ht) (length_of_skipSpace hs)
  · rename_i hs
    exact Nat.lt_trans (length_of_openBracket h) (length_of_skipSpace hs)
  · rename_i hs
    exact Nat.lt_trans (length_of_openBracket h) (length_of_skipSpace hs)
  · split at h
    · split at h <;> cases h
    · cases h

def reader (f : Form α) : Reader α := ⟨f.run, length_of_run⟩

end Form

def stringForm : Form String := { expected := "a string", text := some }

def boolForm : Form Bool := { expected := "a boolean", truth := some }

/-- An object with any names. A repeated name keeps its first place and takes the last value. -/
def mapMembers {α : Type} (value : Reader α) :
    Members (List (String × α)) (List (String × α)) where
  start := []
  member entries name := .ok (value.map fun v => Entries.put name v entries)
  finish := .ok

def listElements {α : Type} (element : Reader α) : Elements (List α) (List α) where
  start := []
  element taken := some (element.map (· :: taken))
  finish taken := .ok taken.reverse

end PermitTypes.Json
