import PermitTypes.Json.Text

namespace PermitTypes.Json

def digitValue (c : Char) : Nat := c.toNat - '0'.toNat

def wordLimit : Nat := 0xffffffffffffffff

/-- Digits join the significand while it fits in a word of 64 bits; the rest is counted. -/
def gather (significand : Nat) : List Char → Nat × Nat
  | [] => (significand, 0)
  | d :: ds =>
    let next := significand * 10 + digitValue d
    if next ≤ wordLimit then gather next ds else (significand, (d :: ds).length)

/-- What a number consists of. Digits that no longer fit count towards the exponent when they
stand before the point, and are dropped when they stand behind it. -/
structure Numeral where
  negative : Bool
  significand : Nat
  exponent : Int
  /-- Whether there is neither a fraction, nor an exponent, nor a digit too many. -/
  whole : Bool

namespace Numeral

def powerOfTen (n : Nat) : Float := Float.ofScientific 1 false n

/-- Exponents below the smallest power of ten take several divisions. -/
def divide (f : Float) (n : Nat) : Float :=
  if n ≤ 308 then f / powerOfTen n
  else if f == 0 then f
  else divide (f / powerOfTen 308) (n - 308)
termination_by n
decreasing_by omega

/-- The double that a significand and an exponent give; none when it is too large. -/
def scale (significand : Nat) (exponent : Int) : Option Float :=
  let f := significand.toUInt64.toFloat
  match exponent with
  | .negSucc n => some (divide f (n + 1))
  | .ofNat n =>
    if n ≤ 308 then
      let g := f * powerOfTen n
      if g.isInf then none else some g
    else if f == 0 then some f
    else none

def double? (n : Numeral) : Option Float :=
  (scale n.significand n.exponent).map fun f => if n.negative then -f else f

/-- The magnitude of the least integer. -/
def leastMagnitude : Nat := 0x8000000000000000

/-- Whole numbers are integers as far as 64 bits hold them, except for a negative zero. -/
def integer? (n : Numeral) : Option Int :=
  if !n.whole then none
  else if !n.negative then some n.significand
  else if 0 < n.significand ∧ n.significand ≤ leastMagnitude then some (-n.significand)
  else none

def found? (n : Numeral) : Option Found :=
  match n.integer? with
  | some i => some (.integer i)
  | none => n.double?.map fun f => .fraction f.toBits

end Numeral

def exponentLimit : Nat := 0x7fffffff

/-- Exponent digits. One digit too many stops the reading where the number would be too large
whatever follows. -/
def readExponentDigits (huge : Bool) (exponent : Nat) : List Char → Step Nat
  | [] => .ok (exponent, [])
  | c :: s =>
    if isDigit c then
      let next := exponent * 10 + digitValue c
      if huge && exponentLimit < next then .error (.before .numberOutOfRange s)
      else readExponentDigits huge next s
    else .ok (exponent, c :: s)

/-- What follows the letter of an exponent. -/
def readExponent (nonzero : Bool) (s : List Char) : Step Int :=
  let (negative, s) := match s with
    | '+' :: s => (false, s)
    | '-' :: s => (true, s)
    | s => (false, s)
  match s with
  | [] => .error ⟨.endInValue, 0⟩
  | c :: rest =>
    if isDigit c then
      match readExponentDigits (nonzero && !negative) (digitValue c) rest with
      | .error f => .error f
      | .ok (n, rest) => .ok (if negative then -n else n, rest)
    else .error (.within .badNumber (c :: rest))

/-- Digits before the point: a zero stands alone. -/
def readWhole (s : List Char) : Step (List Char) :=
  match s with
  | [] => .error ⟨.endInValue, 0⟩
  | '0' :: c :: rest =>
    if isDigit c then .error (.within .badNumber (c :: rest)) else .ok (['0'], c :: rest)
  | c :: rest =>
    if isDigit c then .ok (c :: rest.takeWhile isDigit, rest.dropWhile isDigit)
    else .error (.within .badNumber (c :: rest))

/-- The digits behind a point, at least one. -/
def readFraction (s : List Char) : Step (List Char) :=
  match s with
  | [] => .error ⟨.endInValue, 0⟩
  | c :: rest =>
    if isDigit c then .ok (c :: rest.takeWhile isDigit, rest.dropWhile isDigit)
    else .error (.within .badNumber (c :: rest))

/-- The numeral whose digits have been read, with its exponent if there is one. -/
def readTail (n : Numeral) (s : List Char) : Step Numeral :=
  match s with
  | 'e' :: rest | 'E' :: rest =>
    match readExponent (n.significand != 0) rest with
    | .error f => .error f
    | .ok (e, rest) => .ok ({ n with exponent := n.exponent + e, whole := false }, rest)
  | _ => .ok (n, s)

def readUnsigned (negative : Bool) (s : List Char) : Step Numeral :=
  match readWhole s with
  | .error f => .error f
  | .ok (digits, rest) =>
    let (significand, dropped) := gather 0 digits
    match rest with
    | '.' :: rest =>
      match readFraction rest with
      | .error f => .error f
      | .ok (fraction, rest) =>
        let (significand, ignored) := gather significand fraction
        let taken := fraction.length - ignored
        readTail ⟨negative, significand, (dropped : Int) - taken, false⟩ rest
    | _ => readTail ⟨negative, significand, dropped, dropped == 0⟩ rest

/-- A number that stands where another value was expected. -/
def readNumber (s : List Char) : Step Found :=
  let numeral := match s with
    | '-' :: rest => readUnsigned true rest
    | _ => readUnsigned false s
  match numeral with
  | .error f => .error f
  | .ok (n, rest) =>
    match n.found? with
    | none => .error (.before .numberOutOfRange rest)
    | some found => .ok (found, rest)

end PermitTypes.Json
