/-
RpcLoom/Text/Binary32.lean

Single-precision numbers as bit patterns, and their text.

Design.  A number is its pattern, so two numbers are equal when their bits
are: a NaN keeps its payload and the two zeros differ.  The text has the
fewest digits that read back, in positional notation from one ten-thousandth
up to ten to the sixteenth and in scientific notation outside.
-/
import RpcLoom.Text.Decimal

namespace RpcLoom.Text

/-- A single-precision number, given by its 32 bits. -/
structure Binary32 where
  bits : UInt32
  deriving DecidableEq, Inhabited

namespace Binary32

/-- Whether the sign bit is set. -/
def isNegative (x : Binary32) : Bool := 0x80000000 ≤ x.bits.toNat

/-- The pattern without its sign bit.  Patterns of numbers are ordered as the numbers are. -/
def magnitude (x : Binary32) : Nat := x.bits.toNat % 0x80000000

/-- The pattern of infinity; larger magnitudes are no numbers. -/
def infinity : Nat := 0x7f800000

/-- The least magnitude written positionally: the number nearest to one ten-thousandth. -/
def leastPositional : Nat := 0x38d1b717

/-- The least magnitude above zero's range that is no longer written positionally: the number
nearest to ten to the sixteenth. -/
def leastScientific : Nat := 0x5a0e1bca

/-- The significand of a magnitude: a leading one unless the exponent field is zero. -/
def significand (magnitude : Nat) : Nat :=
  if magnitude / 0x800000 = 0 then magnitude % 0x800000 else magnitude % 0x800000 + 0x800000

/-- The power of two of the significand's last bit. -/
def exponent (magnitude : Nat) : Int :=
  max 1 (magnitude / 0x800000 : Nat) - 150

/-- The shortest decimal that reads back as a positive magnitude. -/
def shortest (magnitude : Nat) : Decimal :=
  let narrowBelow := magnitude % 0x800000 = 0 ∧ 1 < magnitude / 0x800000
  (Rounding.ofBinary (significand magnitude) (exponent magnitude) narrowBelow).shortest 45 9

/-- The text of a number. -/
def text (x : Binary32) : String :=
  let m := x.magnitude
  if infinity < m then "NaN"
  else
    let unsigned :=
      if m = infinity then "inf"
      else if m = 0 then "0.0"
      else if leastPositional ≤ m ∧ m < leastScientific then (shortest m).positional
      else (shortest m).scientific
    if x.isNegative then "-" ++ unsigned else unsigned

end Binary32

end RpcLoom.Text
