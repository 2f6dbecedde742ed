/-
RpcLoom/Wire/Bits.lean

Numbers as bits, bits as octets, and lengths of any size.

Design.  Bits stand in the order they travel: of a number the least significant
first, and of an octet too, so octets are just bits in groups of eight.  A
length travels in groups of nine bits, each after a bit that says whether more
groups follow.  A reader takes what it needs from the front and gives back the
rest.

This is the format of the serialization library naia-serde, which the program uses
and does not contain: that the library writes and reads these bits is assumed, and
whatever is proved of packets rests on it.  The library limits how long the groups
of a length may go on; here a length is any number.
-/
namespace RpcLoom.Wire

/-- Bits in the order they travel. -/
abbrev Bits := List Bool

/-- The lowest `width` bits of a number, the least significant first. -/
def bitsOf : (width : Nat) → Nat → Bits
  | 0, _ => []
  | width + 1, n => (n % 2 == 1) :: bitsOf width (n / 2)

/-- The number of given bits, the least significant first. -/
def natOf : Bits → Nat
  | [] => 0
  | b :: rest => b.toNat + 2 * natOf rest

/-- Takes a number of `width` bits from the front. -/
def readNat : (width : Nat) → Bits → Option (Nat × Bits)
  | 0, bits => some (0, bits)
  | _ + 1, [] => none
  | width + 1, b :: bits => do
    let (n, rest) ← readNat width bits
    some (b.toNat + 2 * n, rest)

/-! ### Lengths -/

/-- A length: groups of nine bits, each after a bit that is set if more follow. -/
def lengthBits (n : Nat) : Bits :=
  if n < 512 then false :: bitsOf 9 n else true :: bitsOf 9 n ++ lengthBits (n / 512)
termination_by n
decreasing_by omega

/-- Takes a length from the front; groups of zeros at the end do no harm. -/
def readLength : Bits → Option (Nat × Bits)
  | more :: b₀ :: b₁ :: b₂ :: b₃ :: b₄ :: b₅ :: b₆ :: b₇ :: b₈ :: rest =>
    let group := natOf [b₀, b₁, b₂, b₃, b₄, b₅, b₆, b₇, b₈]
    if more then do
      let (n, rest) ← readLength rest
      some (group + 512 * n, rest)
    else some (group, rest)
  | _ => none

/-! ### Octets -/

/-- The bits of octets. -/
def bitsOfOctets (octets : List UInt8) : Bits := octets.flatMap fun o => bitsOf 8 o.toNat

/-- Bits in groups of eight, the last one filled up with zeros. -/
def octetsOf : Bits → List UInt8
  | b₀ :: b₁ :: b₂ :: b₃ :: b₄ :: b₅ :: b₆ :: b₇ :: rest =>
    .ofNat (natOf [b₀, b₁, b₂, b₃, b₄, b₅, b₆, b₇]) :: octetsOf rest
  | [] => []
  | few => [.ofNat (natOf few)]

/-- Takes so many octets from the front. -/
def readOctets : (count : Nat) → Bits → Option (List UInt8 × Bits)
  | 0, bits => some ([], bits)
  | count + 1, bits => do
    let (o, rest) ← readNat 8 bits
    let (os, rest) ← readOctets count rest
    some (.ofNat o :: os, rest)

/-! ### Widths -/

@[simp] theorem length_bitsOf (width n : Nat) : (bitsOf width n).length = width := by
  induction width generalizing n with
  | zero => rfl
  | succ width ih => simp [bitsOf, ih]

@[simp] theorem length_bitsOfOctets (octets : List UInt8) :
    (bitsOfOctets octets).length = 8 * octets.length := by
  induction octets with
  | nil => rfl
  | cons o os ih => simp only [bitsOfOctets, List.flatMap_cons, List.length_append,
      length_bitsOf, List.length_cons] at ih ⊢; omega

end RpcLoom.Wire
