import PermitTypes.Decimal.Shortest

namespace PermitTypes.Decimal

/-- The number `0.d₁d₂… · 10 ^ point`. -/
structure Digits where
  digits : List Char
  point : Int

def dropTrailing (z : Char) (ds : List Char) : List Char := (ds.reverse.dropWhile (· == z)).reverse

def Scaled.split (s : Scaled) : Digits :=
  let ds := Nat.toDigits 10 s.digits
  ⟨dropTrailing '0' ds, ds.length + s.exponent⟩

namespace Digits

def zeros (n : Nat) : List Char := List.replicate n '0'

/-- Always with a point, and with a digit on both sides of it. -/
def positional (d : Digits) : List Char :=
  if d.point ≤ 0 then '0' :: '.' :: zeros (-d.point).toNat ++ d.digits
  else
    let whole := d.point.toNat
    if d.digits.length ≤ whole then d.digits ++ zeros (whole - d.digits.length) ++ ['.', '0']
    else d.digits.take whole ++ '.' :: d.digits.drop whole

def signed (n : Int) : List Char :=
  (if n < 0 then '-' else '+') :: Nat.toDigits 10 n.natAbs

/-- One digit before the point, no point after a lone digit, and a signed exponent. -/
def scientific (d : Digits) : List Char :=
  let mantissa := match d.digits with
    | [] => ['0']
    | [lead] => [lead]
    | lead :: rest => lead :: '.' :: rest
  mantissa ++ 'e' :: signed (d.point - 1)

end Digits

/-- Which places of the point are written positionally. -/
structure Window where
  above : Int
  upTo : Int

def Digits.text (w : Window) (d : Digits) : List Char :=
  if w.above < d.point && d.point ≤ w.upTo then d.positional else d.scientific

/-- The text of a finite double. Zero keeps its sign and one decimal. -/
def doubleText (w : Window) (bits : UInt64) : String :=
  let sign := if bits >>> 63 = 1 then ['-'] else []
  let b := Binary.ofBits bits
  let magnitude :=
    if b.mantissa = 0 then ['0', '.', '0']
    else ((Quarters.ofBinary b).shortest.split).text w
  String.ofList (sign ++ magnitude)

end PermitTypes.Decimal
