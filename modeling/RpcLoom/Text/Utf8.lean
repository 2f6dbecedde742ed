/-
RpcLoom/Text/Utf8.lean

Characters as octets, and octets as characters.

Design.  The encoder is arithmetic on the code point.  The decoder is a
machine that reads one octet at a time: between characters it waits for a
first octet; inside one it knows how many more octets are owed and the range
of the next.  An octet outside that range ends the character begun, which is
given as one replacement character, and is then read again as a first octet.
So the longest run of octets that could still begin a character becomes one
replacement character, and so does every octet that begins none.
-/
namespace RpcLoom.Text

/-- The octets of one character. -/
def utf8OfChar (c : Char) : List UInt8 :=
  let n := c.toNat
  if n < 0x80 then [.ofNat n]
  else if n < 0x800 then [.ofNat (0xc0 + n / 0x40), .ofNat (0x80 + n % 0x40)]
  else if n < 0x10000 then
    [.ofNat (0xe0 + n / 0x1000), .ofNat (0x80 + n / 0x40 % 0x40), .ofNat (0x80 + n % 0x40)]
  else
    [.ofNat (0xf0 + n / 0x40000), .ofNat (0x80 + n / 0x1000 % 0x40),
      .ofNat (0x80 + n / 0x40 % 0x40), .ofNat (0x80 + n % 0x40)]

/-- The octets of a text. -/
def utf8 (s : String) : List UInt8 :=
  s.toList.flatMap utf8OfChar

/-- What stands for octets that are no character. -/
def replacement : Char := '\uFFFD'

/-- Where the decoder stands between two octets. -/
inductive Utf8State where
  /-- Between characters. -/
  | start
  /-- Inside a character: the bits so far, how many octets are owed after the next one, and
  the least and the greatest value the next octet may have. -/
  | inside (bits owed low high : Nat)
  deriving DecidableEq

/-- A first octet: the characters it completes and the state after it. -/
def Utf8State.first (b : Nat) : List Char × Utf8State :=
  if b < 0x80 then ([Char.ofNat b], .start)
  else if b < 0xc2 then ([replacement], .start)
  else if b < 0xe0 then ([], .inside (b - 0xc0) 0 0x80 0xbf)
  else if b = 0xe0 then ([], .inside 0 1 0xa0 0xbf)
  else if b = 0xed then ([], .inside 0xd 1 0x80 0x9f)
  else if b < 0xf0 then ([], .inside (b - 0xe0) 1 0x80 0xbf)
  else if b = 0xf0 then ([], .inside 0 2 0x90 0xbf)
  else if b < 0xf4 then ([], .inside (b - 0xf0) 2 0x80 0xbf)
  else if b = 0xf4 then ([], .inside 4 2 0x80 0x8f)
  else ([replacement], .start)

/-- One octet: the characters it completes and the state after it. -/
def Utf8State.step : Utf8State → Nat → List Char × Utf8State
  | .start, b => first b
  | .inside bits owed low high, b =>
    if low ≤ b ∧ b ≤ high then
      match owed with
      | 0 => ([Char.ofNat (bits * 0x40 + (b - 0x80))], .start)
      | owed + 1 => ([], .inside (bits * 0x40 + (b - 0x80)) owed 0x80 0xbf)
    else
      let (cs, state) := first b
      (replacement :: cs, state)

/-- The characters of octets, from a state; a character cut off by the end is replaced. -/
def Utf8State.run : Utf8State → List UInt8 → List Char
  | .start, [] => []
  | .inside .., [] => [replacement]
  | state, b :: rest =>
    let (cs, state) := state.step b.toNat
    cs ++ state.run rest

/-- The text of octets, with a replacement character for each part that is no character. -/
def textOfUtf8 (octets : List UInt8) : String :=
  String.ofList (Utf8State.start.run octets)

end RpcLoom.Text
