import PermitTypes.Decimal.Notation
import PermitTypes.Text.Quoted

namespace PermitTypes.Json

/-- A value as a message names it. A fraction is given by the bits of its double. -/
inductive Found where
  | null
  | bool (value : Bool)
  | integer (value : Int)
  | fraction (bits : UInt64)
  | string (value : String)
  | array
  | object
  deriving DecidableEq

namespace Found

def fractionWindow : Decimal.Window := ⟨-5, 16⟩

def text : Found → String
  | null => "null"
  | bool value => "boolean `" ++ (if value then "true" else "false") ++ "`"
  | integer value => "integer `" ++ toString value ++ "`"
  | fraction bits => "floating point `" ++ Decimal.doubleText fractionWindow bits ++ "`"
  | string value => "string " ++ Text.Quoted.quote value
  | array => "sequence"
  | object => "map"

end Found

/-- What is wrong with a text. -/
inductive Cause where
  | endInValue | endInString | endInArray | endInObject
  | noValue | noLiteral | noColon | noElementEnd | noMemberEnd | keyNotString
  | trailingComma | trailingCharacters
  | badEscape | brokenHexEscape | loneSurrogate | controlCharacter
  | badNumber | numberOutOfRange
  | tooDeep
  | wrongType (found : Found) (expected : String)
  | missingField (name : String)
  | repeatedField (name : String)
  | tooShort (length : Nat) (expected : String)
  deriving DecidableEq

def Cause.message : Cause → String
  | endInValue => "EOF while parsing a value"
  | endInString => "EOF while parsing a string"
  | endInArray => "EOF while parsing a list"
  | endInObject => "EOF while parsing an object"
  | noValue => "expected value"
  | noLiteral => "expected ident"
  | noColon => "expected `:`"
  | noElementEnd => "expected `,` or `]`"
  | noMemberEnd => "expected `,` or `\x7d`"
  | keyNotString => "key must be a string"
  | trailingComma => "trailing comma"
  | trailingCharacters => "trailing characters"
  | badEscape => "invalid escape"
  | brokenHexEscape => "unexpected end of hex escape"
  | loneSurrogate => "lone leading surrogate in hex escape"
  | controlCharacter => "control character (\\u0000-\\u001F) found while parsing a string"
  | badNumber => "invalid number"
  | numberOutOfRange => "number out of range"
  | tooDeep => "recursion limit exceeded"
  | wrongType found expected => "invalid type: " ++ found.text ++ ", expected " ++ expected
  | missingField name => "missing field `" ++ name ++ "`"
  | repeatedField name => "duplicate field `" ++ name ++ "`"
  | tooShort length expected =>
    "invalid length " ++ toString length ++ ", expected " ++ expected

/-- A length in bytes. -/
def size (cs : List Char) : Nat := cs.foldr (fun c n => c.utf8Size + n) 0

/-- A cause and its place, counted in bytes from the end of the text, so that it does not hang on
what stands before the part that was read. -/
structure Fault where
  cause : Cause
  left : Nat
  deriving DecidableEq

namespace Fault

/-- The text is wrong before `rest`. -/
def before (cause : Cause) (rest : List Char) : Fault := ⟨cause, size rest⟩

/-- The text is wrong at the first byte of `rest`, or at its end when nothing is left. -/
def within (cause : Cause) (rest : List Char) : Fault := ⟨cause, size rest - 1⟩

end Fault

/-- Lines count from one; columns count the bytes since the last line feed. -/
structure Place where
  line : Nat
  column : Nat
  deriving DecidableEq

namespace Place

/-- The place `bytes` further on. -/
def advance (p : Place) : List Char → Nat → Place
  | _, 0 => p
  | [], _ => p
  | c :: cs, bytes =>
    if c = '\n' then advance ⟨p.line + 1, 0⟩ cs (bytes - 1)
    else advance ⟨p.line, p.column + min bytes c.utf8Size⟩ cs (bytes - c.utf8Size)

def start : Place := ⟨1, 0⟩

end Place

def Fault.place (f : Fault) (source : List Char) : Place :=
  Place.start.advance source (size source - f.left)

/-- A cause with its place in the text. -/
structure Failure where
  cause : Cause
  place : Place
  deriving DecidableEq

def Fault.located (f : Fault) (source : List Char) : Failure := ⟨f.cause, f.place source⟩

def Failure.message (f : Failure) : String :=
  f.cause.message ++ " at line " ++ toString f.place.line ++ " column " ++ toString f.place.column

end PermitTypes.Json
