/-
RpcLoom/Proofs/Packing.lean

How many bits fields take, and that packing them loses nothing.

Design.  Fields are packed without gaps, so a field may begin at any bit and nothing
marks where it ends.  Its width is therefore told from the value alone (`width`),
without writing it: the length of a text stands before its octets in groups of nine
bits, as many as the length has digits to the base 512.

Several fields are written as a run of `writeField` that goes on after a field that is
refused, and read as a run of `readField`.  Each field written adds its width and
nothing else, and each field read takes back what it added, so both runs are followed
by induction on the fields, and where the first one stands does not matter.

Main result.  `packing_exact`: fields that have room are written in exactly the sum of
their widths, the refused ones in no bits at all, and they are read back from wherever
they stand; a packet is too full exactly if the widths of its calls add up to too much.
-/
import Mathlib.Data.Nat.Digits.Defs
import RpcLoom.Proofs.Framing

namespace RpcLoom

namespace Text

theorem length_utf8OfChar (c : Char) : (utf8OfChar c).length = c.utf8Size := by
  have hle (m : UInt32) : c.val ≤ m ↔ c.toNat ≤ m.toNat := UInt32.le_iff_toNat_le
  simp only [utf8OfChar, Char.utf8Size, hle]
  split_ifs <;> simp at * <;> omega

/-- A text has as many octets as its characters take. -/
theorem length_utf8 (s : String) : (utf8 s).length = s.utf8ByteSize := by
  have hchars : ∀ cs : List Char,
      (cs.flatMap utf8OfChar).length = (String.ofList cs).utf8ByteSize := by
    intro cs
    induction cs with
    | nil => rfl
    | cons c cs ih =>
      rw [List.flatMap_cons, List.length_append, ih, length_utf8OfChar,
        ← List.singleton_append, String.ofList_append, String.utf8ByteSize_append]
      simp
  rw [utf8, hchars, String.ofList_toList]

end Text

namespace Wire

/-! ### Widths of values -/

/-- How many groups of nine bits a number takes, at least one. -/
def groups (n : Nat) : Nat := max 1 (Nat.digits 512 n).length

theorem length_lengthBits (n : Nat) : (lengthBits n).length = 10 * groups n := by
  induction n using Nat.strongRecOn with
  | _ n ih =>
    rw [lengthBits]
    by_cases h : n < 512
    · rw [if_pos h, List.length_cons, length_bitsOf, groups]
      rcases Nat.eq_zero_or_pos n with rfl | hpos
      · simp
      · rw [Nat.digits_of_lt 512 n (by omega) h]
        rfl
    · have hdigits : Nat.digits 512 n = n % 512 :: Nat.digits 512 (n / 512) :=
        Nat.digits_def' (by decide) (by omega)
      have hmore : (Nat.digits 512 (n / 512)).length ≠ 0 := by
        rw [Ne, List.length_eq_zero_iff, Nat.digits_eq_nil_iff_eq_zero]
        omega
      rw [if_neg h, List.length_append, List.length_cons, length_bitsOf, ih (n / 512) (by omega),
        groups, groups, hdigits, List.length_cons]
      omega

/-- How many bits a value takes. -/
def width : Value → Nat
  | .bool _ => 1
  | .u32 _ | .i32 _ | .f32 _ => 32
  | .text s => 8 * s.utf8ByteSize + 10 * groups s.utf8ByteSize
  | _ => 0

theorem length_bitsOfValue (v : Value) : (bitsOfValue v).length = width v := by
  cases v with
  | text s =>
    rw [bitsOfValue, List.length_append, length_lengthBits, length_bitsOfOctets,
      Text.length_utf8, Nat.add_comm, width]
  | bool | u32 | i32 | f32 => simp [bitsOfValue, width]
  | _ => rfl

/-- How many bits fields take. -/
def widthOf (fields : List Field) : Nat := (fields.map fun f => width f.2).sum

theorem length_flatMap_fieldBits (fields : List Field) :
    (fields.flatMap fieldBits).length = widthOf fields := by
  simp only [List.length_flatMap, fieldBits, length_bitsOfValue, widthOf]

/-! ### Fields that can travel -/

/-- The fields whose values can travel under their types. -/
def travelling (fields : List Field) : List Field :=
  fields.filter fun f => (check f.1 f.2).toBool

theorem check_of_mem_travelling {fields : List Field} {f : Field} (h : f ∈ travelling fields) :
    check f.1 f.2 = .ok () := by
  have hcheck := (List.mem_filter.mp h).2
  cases hf : check f.1 f.2 with
  | ok => rfl
  | error => rw [hf] at hcheck; cases hcheck

variable {f : Field} {fields : List Field}

theorem travelling_cons_of_ok (h : check f.1 f.2 = .ok ()) :
    travelling (f :: fields) = f :: travelling fields :=
  List.filter_cons_of_pos (by rw [h]; rfl)

theorem travelling_cons_of_error {cause : Fault} (h : check f.1 f.2 = .error cause) :
    travelling (f :: fields) = travelling fields :=
  List.filter_cons_of_neg (by rw [h]; exact Bool.false_ne_true)

/-! ### Writing several fields -/

/-- Writes fields one after the other, going on after a field that is refused: how many bits each
one added or why it was refused, and the packet; nothing if a field does not fit. -/
def writeEach (written : Bits) : List Field → Option (List (Except Fault Nat) × Bits)
  | [] => some ([], written)
  | f :: fields =>
    match writeField written f with
    | .ok more => (writeEach more fields).map fun (answers, packet) =>
        (.ok (more.length - written.length) :: answers, packet)
    | .error (.fault cause) => (writeEach written fields).map fun (answers, packet) =>
        (.error cause :: answers, packet)
    | .error .overflow => none

/-- What becomes of a field that has room: it adds its width or is refused. -/
def answer (f : Field) : Except Fault Nat := (check f.1 f.2).map fun _ => width f.2

/-- A field that is refused adds no bits. -/
theorem writeField_refused {cause : Fault} (h : check f.1 f.2 = .error cause) (written : Bits) :
    writeField written f = .error (.fault cause) := by
  rw [writeField, h]
  rfl

/-- Fields that have room add the sum of their widths. -/
theorem writeEach_eq {written : Bits}
    (h : written.length + widthOf (travelling fields) ≤ capacity) :
    writeEach written fields =
      some (fields.map answer, written ++ (travelling fields).flatMap fieldBits) := by
  induction fields generalizing written with
  | nil => rw [writeEach, travelling, List.filter_nil, List.flatMap_nil, List.append_nil]; rfl
  | cons f fields ih =>
    cases hf : check f.1 f.2 with
    | error cause =>
      rw [travelling_cons_of_error hf] at h ⊢
      rw [writeEach, writeField_refused hf, List.map_cons, answer, hf]
      show (writeEach written fields).map _ = _
      rw [ih h]
      rfl
    | ok =>
      rw [travelling_cons_of_ok hf] at h ⊢
      have hroom : written.length + (width f.2 + widthOf (travelling fields)) ≤ capacity := h
      have hlength : (fieldBits f).length = width f.2 := length_bitsOfValue f.2
      have hwrite : writeField written f = .ok (written ++ fieldBits f) :=
        (writeField_adds hf written (by omega)).trans (append_of_fits (by omega))
      have hrest := @ih (written ++ fieldBits f) (by rw [List.length_append]; omega)
      rw [writeEach, hwrite, List.map_cons, answer, hf, List.flatMap_cons, ← List.append_assoc]
      show (writeEach (written ++ fieldBits f) fields).map _ = _
      rw [hrest, Option.map_some, List.length_append, hlength, Nat.add_sub_cancel_left]
      rfl

/-! ### Reading several fields -/

/-- Takes values that travel under types from the front, one after the other: each value or its
fault, and the rest. -/
def readEach : List TypeRef → Bits → List (Except Fault Value) × Bits
  | [], bits => ([], bits)
  | type :: types, bits =>
    let (value, rest) := readField type bits
    let (values, rest) := readEach types rest
    (value :: values, rest)

/-- Fields are read back under their types, whatever follows them. -/
theorem readEach_fieldBits (h : ∀ f ∈ fields, check f.1 f.2 = .ok ()) (rest : Bits) :
    readEach (fields.map (·.1)) (fields.flatMap fieldBits ++ rest) =
      (fields.map fun f => .ok f.2, rest) := by
  induction fields with
  | nil => rfl
  | cons f fields ih =>
    have hfirst := readField_bitsOfValue (h f (by simp)) (fields.flatMap fieldBits ++ rest)
    have hrest := ih fun g hg => h g (by simp [hg])
    rw [List.flatMap_cons, List.append_assoc, List.map_cons, readEach, fieldBits, hfirst]
    simp only [hrest, List.map_cons]

/-- Whether reading fields from where their bits begin gives their values and ends where their
bits end, whatever comes before and after. -/
def ReadBack (fields : List Field) (bits : Bits) : Prop :=
  ∀ before after : Bits,
    readEach (fields.map (·.1)) ((before ++ bits ++ after).drop before.length) =
      (fields.map fun f => .ok f.2, after)

theorem readBack_fieldBits (h : ∀ f ∈ fields, check f.1 f.2 = .ok ()) :
    ReadBack fields (fields.flatMap fieldBits) := by
  intro before after
  rw [List.append_assoc, List.drop_left, readEach_fieldBits h]

/-! ### Packets -/

/-- How many bits calls and a trailing number take in a packet. -/
def packetWidth (calls : List SentCall) (trailer : Option UInt32) : Nat :=
  (calls.map fun c => 33 + widthOf c.payload).sum + 2 + if trailer.isSome then 32 else 0

theorem length_flatMap_callBits (calls : List SentCall) :
    (calls.flatMap callBits).length = (calls.map fun c => 33 + widthOf c.payload).sum := by
  have hcall (c : SentCall) : (callBits c).length = 33 + widthOf c.payload := by
    rw [callBits, List.length_append, List.length_cons, length_bitsOf, length_flatMap_fieldBits]
  simp only [List.length_flatMap, hcall]

theorem length_trailerBits (trailer : Option UInt32) :
    (trailerBits trailer).length = 1 + if trailer.isSome then 32 else 0 := by
  cases trailer with
  | none => rfl
  | some n => rw [trailerBits, List.length_cons, length_bitsOf]; rfl

theorem writePacket_overflow {calls : List SentCall} (trailer : Option UInt32)
    (h : ∀ c ∈ calls, ∀ f ∈ c.payload, check f.1 f.2 = .ok ()) :
    writePacket calls trailer = .error .overflow ↔ capacity < packetWidth calls trailer := by
  rw [writePacket_append trailer h, append_eq_overflow, List.length_append, List.length_cons,
    length_flatMap_callBits, length_trailerBits, packetWidth, List.length_nil]
  omega

/-- **Packing is exact.** Fields that have room, from any bit on, are written in the sum of their
widths, each answering its own, while a refused field answers why and adds nothing. From the octets
of the packet, as from any bits that hold what was added, the fields are read back, and reading
ends where they end. A packet is too full exactly if its calls take more than it holds. -/
theorem packing_exact :
    (∀ (written : Bits) (fields : List Field),
      written.length + widthOf (travelling fields) ≤ capacity →
      ∃ bits, writeEach written fields = some (fields.map answer, written ++ bits) ∧
        bits.length = widthOf (travelling fields) ∧
        ReadBack (travelling fields) bits ∧
        ∃ filling, bitsOfOctets (octetsOf (written ++ bits)) = written ++ bits ++ filling) ∧
    ∀ (calls : List SentCall) (trailer : Option UInt32),
      (∀ c ∈ calls, ∀ f ∈ c.payload, check f.1 f.2 = .ok ()) →
      (writePacket calls trailer = .error .overflow ↔ capacity < packetWidth calls trailer) := by
  refine ⟨fun written fields hroom => ?_, fun calls trailer => writePacket_overflow trailer⟩
  refine ⟨(travelling fields).flatMap fieldBits, writeEach_eq hroom,
    length_flatMap_fieldBits _, ?_, bitsOfOctets_octetsOf _⟩
  exact readBack_fieldBits fun f => check_of_mem_travelling

end Wire

namespace Sample

/-- Two fields that travel, the first with a character of two octets, and one between them that
does not. -/
def luggage : List Field :=
  [(.named "String", .text "é"), (.named "u32", .bool true), (.named "f32", .f32 ⟨0x7fc00001⟩)]

/-- A call of so many bits of payload. -/
def crate (count : Nat) : SentCall :=
  ⟨.server, 7, List.replicate count (.named "bool", .bool true), .reliable, false, none⟩

end Sample

open Sample

namespace Wire

theorem packetWidth_crate (count : Nat) : packetWidth [crate count] none = 35 + count := by
  simp [packetWidth, crate, widthOf, width]
  omega

theorem packing_exact_luggage :
    (∃ bits, writeEach [true, false, true] luggage =
        some (luggage.map answer, [true, false, true] ++ bits) ∧
      bits.length = widthOf (travelling luggage) ∧
      ReadBack (travelling luggage) bits ∧
      ∃ filling, bitsOfOctets (octetsOf ([true, false, true] ++ bits)) =
        [true, false, true] ++ bits ++ filling) ∧
    widthOf (travelling luggage) = 58 ∧
    writePacket [crate 3405] none ≠ .error .overflow ∧
    writePacket [crate 3406] none = .error .overflow := by
  have hwidth : widthOf (travelling luggage) = 58 := by
    have htravelling : travelling luggage =
        [(.named "String", .text "é"), (.named "f32", .f32 ⟨0x7fc00001⟩)] := by decide
    have hoctets : "é".utf8ByteSize = 2 := by decide
    rw [htravelling]
    simp [widthOf, width, groups, hoctets]
  have hcheck (count : Nat) : ∀ c ∈ [crate count], ∀ f ∈ c.payload, check f.1 f.2 = .ok () := by
    intro c hc f hf
    rw [List.mem_singleton.mp hc] at hf
    rw [List.eq_of_mem_replicate hf]
    rfl
  refine ⟨packing_exact.1 _ _ (by rw [hwidth]; decide), hwidth, ?_, ?_⟩
  · rw [Ne, packing_exact.2 _ none (hcheck 3405), packetWidth_crate]
    decide
  · rw [packing_exact.2 _ none (hcheck 3406), packetWidth_crate]
    decide

end Wire

end RpcLoom
