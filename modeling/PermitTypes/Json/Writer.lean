import PermitTypes.Json.Tree

namespace PermitTypes.Json

def hexDigits (n : Nat) : List Char := [Nat.digitChar (n / 16), Nat.digitChar (n % 16)]

/-- Quotes, backslashes and controls are escaped, all else stands as it is. -/
def escapeChar (c : Char) : List Char :=
  match c with
  | '"' => ['\\', '"']
  | '\\' => ['\\', '\\']
  | '\x08' => ['\\', 'b']
  | '\x0c' => ['\\', 'f']
  | '\n' => ['\\', 'n']
  | '\r' => ['\\', 'r']
  | '\t' => ['\\', 't']
  | c => if c.toNat < 0x20 then '\\' :: 'u' :: '0' :: '0' :: hexDigits c.toNat else [c]

def writeString (s : String) : List Char := '"' :: s.toList.flatMap escapeChar ++ ['"']

def writeBool (b : Bool) : List Char := if b then "true".toList else "false".toList

namespace Tree

mutual

/-- The text without any blanks, in front of what follows it. -/
def compactOnto (rest : List Char) : Tree → List Char
  | null => "null".toList ++ rest
  | bool b => writeBool b ++ rest
  | number lexeme => lexeme.toList ++ rest
  | string s => writeString s ++ rest
  | array elements => '[' :: compactElements (']' :: rest) elements
  | object members => '{' :: compactMembers ('}' :: rest) members

def compactElements (rest : List Char) : List Tree → List Char
  | [] => rest
  | [t] => t.compactOnto rest
  | t :: others => t.compactOnto (',' :: compactElements rest others)

def compactMembers (rest : List Char) : List (String × Tree) → List Char
  | [] => rest
  | [(name, t)] => writeString name ++ ':' :: t.compactOnto rest
  | (name, t) :: others =>
    writeString name ++ ':' :: t.compactOnto (',' :: compactMembers rest others)

end

def compact (t : Tree) : List Char := t.compactOnto []

def newline (depth : Nat) : List Char := '\n' :: List.replicate (2 * depth) ' '

mutual

/-- The text with one element or member a line and two blanks a level, in front of what follows it.
What is empty stays closed. -/
def prettyOnto (depth : Nat) (rest : List Char) : Tree → List Char
  | null => "null".toList ++ rest
  | bool b => writeBool b ++ rest
  | number lexeme => lexeme.toList ++ rest
  | string s => writeString s ++ rest
  | array [] => '[' :: ']' :: rest
  | array elements => '[' :: prettyElements (depth + 1) (newline depth ++ ']' :: rest) elements
  | object [] => '{' :: '}' :: rest
  | object members => '{' :: prettyMembers (depth + 1) (newline depth ++ '}' :: rest) members

def prettyElements (depth : Nat) (rest : List Char) : List Tree → List Char
  | [] => rest
  | [t] => newline depth ++ t.prettyOnto depth rest
  | t :: others => newline depth ++ t.prettyOnto depth (',' :: prettyElements depth rest others)

def prettyMembers (depth : Nat) (rest : List Char) : List (String × Tree) → List Char
  | [] => rest
  | [(name, t)] => newline depth ++ writeString name ++ ':' :: ' ' :: t.prettyOnto depth rest
  | (name, t) :: others =>
    newline depth ++ writeString name ++ ':' :: ' ' ::
      t.prettyOnto depth (',' :: prettyMembers depth rest others)

end

def pretty (t : Tree) : List Char := t.prettyOnto 0 []

def compactText (t : Tree) : String := String.ofList t.compact

def prettyText (t : Tree) : String := String.ofList t.pretty

end Tree

end PermitTypes.Json
