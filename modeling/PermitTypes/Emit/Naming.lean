import PermitTypes.Text.Blank
import PermitTypes.Text.UpperCase

namespace PermitTypes.Emit

/-- What stands between the words of a name. -/
def isSeparator (c : Char) : Bool :=
  c == '-' || c == '_' || c == '.' || c == '/' || Text.isBlank c

/-- Words run together, each with its first character in upper case. `fresh` holds where a word
would begin. -/
def joinWords (fresh : Bool) : List Char → List Char
  | [] => []
  | c :: cs =>
    if isSeparator c then joinWords true cs
    else if fresh then Text.upper c ++ joinWords false cs
    else c :: joinWords false cs

theorem joinWords_append_separator (fresh : Bool) (before after : List Char) {c : Char}
    (h : isSeparator c) :
    joinWords fresh (before ++ c :: after) = joinWords fresh before ++ joinWords true after := by
  induction before generalizing fresh with
  | nil => simp [joinWords, h]
  | cons b bs ih =>
    simp only [List.cons_append, joinWords]
    split
    · exact ih true
    · split
      · rw [ih false, List.append_assoc]
      · rw [ih false]; rfl

def pascalCase (name : String) : String := String.ofList (joinWords true name.toList)

/-- The type that a permit's `extend` refers to. -/
def extendTypeName (schema : String) : String := pascalCase schema ++ "ExtendType"

/-- The type declared for a permit. -/
def permitTypeName (permit : String) : String := pascalCase permit ++ "MutatePermitType"

end PermitTypes.Emit
