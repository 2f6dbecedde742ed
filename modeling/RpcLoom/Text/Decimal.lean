/-
RpcLoom/Text/Decimal.lean

The shortest decimal that reads back as a given binary number.

Design.  A binary number `m · 2^e` stands for the interval of reals that round
to it; the ends belong to it when `m` is even.  For one digit, two digits, and
so on, the number's two neighbours on that decimal grid are tried; the first
grid that has a neighbour in the interval gives the digits, the nearer of two
neighbours wins, and a tie goes upwards.  All arithmetic is on naturals: one
denominator serves the number, the interval's ends and the grid.
-/
namespace RpcLoom.Text

/-- The value `digits · 10^exponent`. -/
structure Decimal where
  digits : Nat
  exponent : Int
  deriving DecidableEq

namespace Decimal

/-- The same value without trailing zeros in its digits. -/
def trimmed (fuel : Nat) (d : Decimal) : Decimal :=
  match fuel with
  | 0 => d
  | fuel + 1 =>
    if d.digits % 10 = 0 ∧ d.digits ≠ 0 then trimmed fuel ⟨d.digits / 10, d.exponent + 1⟩ else d

end Decimal

/-- A positive binary number and the interval of reals that round to it, as numerators over one
denominator. -/
structure Rounding where
  low : Nat
  value : Nat
  high : Nat
  denominator : Nat
  /-- Whether the ends of the interval round to the number too. -/
  closed : Bool
  deriving DecidableEq

namespace Rounding

/-- The interval around `m · 2^e`.  The gap below is half the gap above at a power of two,
`narrowBelow`. -/
def ofBinary (m : Nat) (e : Int) (narrowBelow : Bool) : Rounding :=
  let up := Nat.pow 2 e.toNat
  { low := (4 * m - if narrowBelow then 1 else 2) * up
    value := 4 * m * up
    high := (4 * m + 2) * up
    denominator := 4 * Nat.pow 2 (-e).toNat
    closed := m % 2 = 0 }

/-- Whether `d · 10^k`, given as a numerator and a denominator, rounds to the number. -/
def holds (r : Rounding) (num den : Nat) : Bool :=
  let x := num * r.denominator
  if r.closed then r.low * den ≤ x && x ≤ r.high * den else r.low * den < x && x < r.high * den

/-- The power of ten of the leading digit: the `p` with `10^p ≤ value < 10^(p+1)`.  `shift` is
a power of ten that makes the value at least one. -/
def leading (r : Rounding) (shift : Nat) : Int :=
  (Nat.toDigits 10 (r.value * Nat.pow 10 shift / r.denominator)).length - 1 - (shift : Int)

/-- The point of the grid of step `10^k` that is to be printed, if one of the two neighbours of
the value on it rounds to the number. -/
def onGrid? (r : Rounding) (k : Int) : Option Decimal :=
  let up := Nat.pow 10 k.toNat
  let down := Nat.pow 10 (-k).toNat
  let below := r.value * down / (r.denominator * up)
  let inBelow := r.holds (below * up) down
  let inAbove := r.holds ((below + 1) * up) down
  -- twice the distance to the lower neighbour against one step of the grid
  let nearerAbove := r.denominator * up ≤ 2 * (r.value * down - below * (r.denominator * up))
  if inAbove && (!inBelow || nearerAbove) then some ⟨below + 1, k⟩
  else if inBelow then some ⟨below, k⟩
  else none

/-- The shortest decimal that rounds to the number, tried up to `most` digits. -/
def shortest (r : Rounding) (shift most : Nat) : Decimal :=
  let p := r.leading shift
  match (List.range most).findSome? fun (n : Nat) => r.onGrid? (p - n) with
  | some d => d.trimmed most
  | none => ⟨0, 0⟩

end Rounding

namespace Decimal

/-- A run of zeros. -/
def zeros (n : Nat) : String := String.ofList (List.replicate n '0')

/-- Digits around a decimal point, with at least one digit on either side of it. -/
def positional (d : Decimal) : String :=
  let ds := toString d.digits
  if 0 ≤ d.exponent then ds ++ zeros d.exponent.toNat ++ ".0"
  else
    let places := (-d.exponent).toNat
    let padded := zeros (places + 1 - ds.length) ++ ds
    let split := padded.length - places
    String.ofList (padded.toList.take split) ++ "." ++ String.ofList (padded.toList.drop split)

/-- One digit before the point, the others after it if there are any, and a power of ten. -/
def scientific (d : Decimal) : String :=
  let ds := (toString d.digits).toList
  let power := d.exponent + ds.length - 1
  String.ofList (ds.take 1) ++ (if ds.length ≤ 1 then "" else "." ++ String.ofList (ds.drop 1))
    ++ "e" ++ toString power

end Decimal

end RpcLoom.Text
