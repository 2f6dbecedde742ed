/-
RpcLoom/Proofs/Framing.lean

What was written into a packet is read back.

Design.  Every reader takes exactly what its writer wrote and gives back what
follows, so readers can stand one after the other with nothing between.  The bits
of octets are the bits that were grouped, followed by what filled up the last
octet; nobody reads that far.

A packet is written call by call, and each bit that is added has to fit.  Since a
packet only grows, what is written in parts is written, or does not fit, as if all
of it were added at once (`Adds`); so the packet is the bits of its calls, one call
after the other (`writePacket_append`).
-/
import Mathlib.Algebra.GroupWithZero.Nat
import RpcLoom.Proofs.Characters
import RpcLoom.Wire.Packet

namespace RpcLoom.Wire

open RpcLoom.Text (utf8 textOfUtf8 textOfUtf8_utf8)

/-! ### Numbers and lengths -/

/-- A number that fits its width is read back, whatever follows. -/
theorem readNat_bitsOf_append {width n : Nat} (h : n < 2 ^ width) (rest : Bits) :
    readNat width (bitsOf width n ++ rest) = some (n, rest) := by
  induction width generalizing n with
  | zero => simp [bitsOf, readNat]; omega
  | succ width ih =>
    have hn : n / 2 < 2 ^ width := by rw [Nat.pow_succ] at h; omega
    have hb : (n % 2 == 1).toNat + 2 * (n / 2) = n := by
      rcases Nat.mod_two_eq_zero_or_one n with h | h <;> simp [h] <;> omega
    simp [bitsOf, readNat, ih hn, hb]

theorem natOf_bitsOf (width n : Nat) : natOf (bitsOf width n) = n % 2 ^ width := by
  induction width generalizing n with
  | zero => rw [bitsOf, natOf, Nat.pow_zero, Nat.mod_one]
  | succ width ih =>
    have hbit : (n % 2 == 1).toNat = n % 2 := by
      rcases Nat.mod_two_eq_zero_or_one n with h | h <;> simp [h]
    rw [bitsOf, natOf, ih, hbit, Nat.pow_succ, Nat.mul_comm (2 ^ width), Nat.mod_mul]

/-- A length is read back, whatever follows it. -/
theorem readLength_lengthBits (n : Nat) (rest : Bits) :
    readLength (lengthBits n ++ rest) = some (n, rest) := by
  induction n using Nat.strongRecOn with
  | _ n ih =>
    have hgroup : natOf (bitsOf 9 n) = n % 512 := natOf_bitsOf 9 n
    rw [lengthBits]
    by_cases h : n < 512
    · rw [if_pos h]
      simp only [bitsOf, List.cons_append, List.nil_append, readLength] at hgroup ⊢
      rw [hgroup, Nat.mod_eq_of_lt h]
      rfl
    · rw [if_neg h]
      simp only [bitsOf, List.cons_append, List.nil_append, readLength] at hgroup ⊢
      rw [hgroup, ih (n / 512) (by omega)]
      show some (n % 512 + 512 * (n / 512), rest) = _
      rw [Nat.mod_add_div]

/-! ### Octets -/

theorem readOctets_bitsOfOctets (octets : List UInt8) (rest : Bits) :
    readOctets octets.length (bitsOfOctets octets ++ rest) = some (octets, rest) := by
  induction octets with
  | nil => rfl
  | cons o octets ih =>
    rw [bitsOfOctets, List.flatMap_cons, List.append_assoc, List.length_cons, readOctets,
      readNat_bitsOf_append o.toNat_lt]
    simp only [Option.bind_eq_bind, Option.bind_some]
    rw [← bitsOfOctets, ih, UInt8.ofNat_toNat]
    rfl

theorem natOf_lt (bits : Bits) : natOf bits < 2 ^ bits.length := by
  induction bits with
  | nil => exact Nat.one_pos
  | cons b bits ih =>
    rw [natOf, List.length_cons, Nat.pow_succ]
    have hb : b.toNat ≤ 1 := Bool.toNat_le b
    omega

/-- A number written wider than it was read has zeros behind. -/
theorem bitsOf_natOf {width : Nat} (bits : Bits) (h : bits.length ≤ width) :
    bitsOf width (natOf bits) = bits ++ List.replicate (width - bits.length) false := by
  induction bits generalizing width with
  | nil =>
    clear h
    induction width with
    | zero => rfl
    | succ width ih =>
      rw [natOf] at ih ⊢
      rw [bitsOf, Nat.zero_div, ih]
      rfl
  | cons b bits ih =>
    obtain ⟨width, rfl⟩ : ∃ w, width = w + 1 := ⟨width - 1, by simp at h; omega⟩
    have hlow : ((b.toNat + 2 * natOf bits) % 2 == 1) = b := by
      cases b <;> simp [Nat.add_mod]
    have hhigh : (b.toNat + 2 * natOf bits) / 2 = natOf bits := by
      have hb : b.toNat ≤ 1 := Bool.toNat_le b
      omega
    rw [natOf, bitsOf, hlow, hhigh, ih (by simpa using h), List.length_cons,
      Nat.add_sub_add_right]
    rfl

theorem bitsOf_ofNat_natOf (bits : Bits) (h : bits.length ≤ 8) :
    bitsOf 8 (UInt8.ofNat (natOf bits)).toNat =
      bits ++ List.replicate (8 - bits.length) false := by
  have hlt : natOf bits < 256 :=
    Nat.lt_of_lt_of_le (natOf_lt bits) (Nat.pow_le_pow_right (by omega) h)
  rw [Text.toNat_ofNat_octet hlt, bitsOf_natOf bits h]

/-- The bits of the octets that bits were grouped into: those bits, and what filled up the last
octet. -/
theorem bitsOfOctets_octetsOf (bits : Bits) :
    ∃ filling, bitsOfOctets (octetsOf bits) = bits ++ filling := by
  induction bits using octetsOf.induct with
  | case1 b₀ b₁ b₂ b₃ b₄ b₅ b₆ b₇ rest ih =>
    obtain ⟨filling, ih⟩ := ih
    refine ⟨filling, ?_⟩
    rw [octetsOf, bitsOfOctets, List.flatMap_cons, bitsOf_ofNat_natOf _ (by simp),
      ← bitsOfOctets, ih]
    rfl
  | case2 => exact ⟨[], rfl⟩
  | case3 few hfull hempty =>
    refine ⟨List.replicate (8 - few.length) false, ?_⟩
    have hfew : few.length ≤ 8 := by
      refine Nat.le_of_not_lt fun hlong => ?_
      rcases few with _ | ⟨b₀, _ | ⟨b₁, _ | ⟨b₂, _ | ⟨b₃, few⟩⟩⟩⟩ <;> simp at hlong
      rcases few with _ | ⟨b₄, _ | ⟨b₅, _ | ⟨b₆, _ | ⟨b₇, few⟩⟩⟩⟩ <;> simp at hlong
      exact hfull b₀ b₁ b₂ b₃ b₄ b₅ b₆ b₇ few rfl
    rw [octetsOf, bitsOfOctets, List.flatMap_singleton, bitsOf_ofNat_natOf few hfew]
    · exact hfull
    · exact hempty

/-! ### Fields -/

/-- What travels under a type is a value of one of the sorts that travel. -/
theorem scalar_of_check {type : TypeRef} {v : Value} (h : check type v = .ok ()) :
    ∃ name s, type = .named name ∧ Scalar.ofName? name = some s ∧ s.admits v = true := by
  cases type with
  | named name =>
    rw [check] at h
    cases hs : Scalar.ofName? name with
    | none => simp [hs] at h
    | some s =>
      cases hadmits : s.admits v with
      | true => exact ⟨name, s, rfl, hs, hadmits⟩
      | false => simp [hs, hadmits] at h
  | _ => cases h

theorem read_bitsOfValue {s : Scalar} {v : Value} (h : s.admits v = true) (rest : Bits) :
    s.read (bitsOfValue v ++ rest) = some (v, rest) := by
  cases s <;> cases v <;> try cases h
  case bool.bool b => cases b <;> rfl
  case u32.u32 n =>
    rw [bitsOfValue, Scalar.read, readNat_bitsOf_append n.toNat_lt, Option.map_some]
    show some (Value.u32 (UInt32.ofNat n.toNat), rest) = _
    rw [UInt32.ofNat_toNat]
  case i32.i32 n =>
    rw [bitsOfValue, Scalar.read, readNat_bitsOf_append n.toUInt32.toNat_lt, Option.map_some]
    show some (Value.i32 (UInt32.ofNat n.toUInt32.toNat).toInt32, rest) = _
    rw [UInt32.ofNat_toNat]
    rfl
  case f32.f32 x =>
    rw [bitsOfValue, Scalar.read, readNat_bitsOf_append x.bits.toNat_lt, Option.map_some]
    show some (Value.f32 ⟨UInt32.ofNat x.bits.toNat⟩, rest) = _
    rw [UInt32.ofNat_toNat]
  case text.text s =>
    rw [bitsOfValue, Scalar.read, List.append_assoc, readLength_lengthBits]
    simp only [Option.bind_eq_bind, Option.bind_some, readOctets_bitsOfOctets, textOfUtf8_utf8]

/-- A field is read back under the type it was written under, whatever follows it. -/
theorem readField_bitsOfValue {type : TypeRef} {v : Value} (h : check type v = .ok ())
    (rest : Bits) : readField type (bitsOfValue v ++ rest) = (.ok v, rest) := by
  obtain ⟨name, s, rfl, hs, hadmits⟩ := scalar_of_check h
  rw [readField]
  simp only [hs, read_bitsOfValue hadmits]

/-- Every field takes at least one bit. -/
theorem length_bitsOfValue_pos {type : TypeRef} {v : Value} (h : check type v = .ok ()) :
    0 < (bitsOfValue v).length := by
  obtain ⟨name, s, -, -, hadmits⟩ := scalar_of_check h
  cases s <;> cases v <;> try cases hadmits
  case bool.bool b => exact Nat.one_pos
  case u32.u32 n => simp [bitsOfValue]
  case i32.i32 n => simp [bitsOfValue]
  case f32.f32 x => simp [bitsOfValue]
  case text.text s =>
    rw [bitsOfValue, lengthBits]
    split <;> simp

/-- The bits of a field. -/
def fieldBits (f : Field) : Bits := bitsOfValue f.2

/-- There are no more fields than bits. -/
theorem length_le_fieldBits {fields : List Field}
    (hcheck : ∀ f ∈ fields, check f.1 f.2 = .ok ()) :
    fields.length ≤ (fields.flatMap fieldBits).length := by
  induction fields with
  | nil => exact Nat.le_refl 0
  | cons f fields ih =>
    have hfirst : 0 < (fieldBits f).length := length_bitsOfValue_pos (hcheck f (by simp))
    have hrest := ih fun g hg => hcheck g (by simp [hg])
    rw [List.flatMap_cons, List.length_append, List.length_cons]
    omega

/-! ### Packets -/

/-- The bits of a call in a packet. -/
def callBits (c : SentCall) : Bits := true :: bitsOf 32 c.id.toNat ++ c.payload.flatMap fieldBits

theorem length_callBits (c : SentCall) :
    (callBits c).length = 33 + (c.values.flatMap bitsOfValue).length := by
  have hvalues : c.values.flatMap bitsOfValue = c.payload.flatMap fieldBits :=
    List.flatMap_map ..
  rw [callBits, hvalues, List.length_append, List.length_cons, length_bitsOf]

theorem append_of_fits {written more : Bits} (h : written.length + more.length ≤ capacity) :
    append written more = .ok (written ++ more) := by
  rw [append, if_pos h]

theorem append_eq_overflow {written more : Bits} :
    append written more = .error .overflow ↔ capacity < written.length + more.length := by
  rw [append]
  split <;> simp <;> omega

/-- Bits added in two parts are bits added at once: if the first part does not fit then the
whole does not. -/
theorem append_append {written first second : Bits} :
    (append written first >>= fun more => append more second) =
      append written (first ++ second) := by
  by_cases hfirst : written.length + first.length ≤ capacity
  · rw [append_of_fits hfirst]
    show append (written ++ first) second = _
    rw [append, append, List.length_append, List.length_append, List.append_assoc, Nat.add_assoc]
  · rw [append_eq_overflow.mpr (by omega),
      append_eq_overflow.mpr (by rw [List.length_append]; omega)]
    rfl

/-- What writes so many bits: they are added to a packet, if they fit. -/
def Adds (write : Bits → Except WriteError Bits) (bits : Bits) : Prop :=
  ∀ written : Bits, written.length ≤ capacity → write written = append written bits

namespace Adds

variable {first second : Bits → Except WriteError Bits} {bits more : Bits}

theorem bind (hfirst : Adds first bits) (hsecond : Adds second more) :
    Adds (fun written => first written >>= second) (bits ++ more) := by
  intro written hwritten
  rw [← append_append]
  show first written >>= second = _
  rw [hfirst written hwritten]
  by_cases hfits : written.length + bits.length ≤ capacity
  · rw [append_of_fits hfits]
    exact hsecond _ (by rw [List.length_append]; exact hfits)
  · rw [append_eq_overflow.mpr (by omega)]
    rfl

/-- What writes one after the other adds what each adds. -/
theorem foldlM {α : Type} {write : Bits → α → Except WriteError Bits} {added : α → Bits}
    {xs : List α} (h : ∀ x ∈ xs, Adds (write · x) (added x)) :
    Adds (fun written => xs.foldlM write written) (xs.flatMap added) := by
  induction xs with
  | nil =>
    intro written hwritten
    rw [List.flatMap_nil, append_of_fits (by simpa using hwritten), List.append_nil]
    rfl
  | cons x xs ih =>
    simp only [List.foldlM_cons, List.flatMap_cons]
    exact (h x (by simp)).bind (ih fun y hy => h y (by simp [hy]))

end Adds

theorem writeField_adds {f : Field} (h : check f.1 f.2 = .ok ()) :
    Adds (writeField · f) (fieldBits f) := by
  intro written _
  show writeField written f = _
  rw [writeField, h]
  rfl

theorem writeCall_adds {c : SentCall} (h : ∀ f ∈ c.payload, check f.1 f.2 = .ok ()) :
    Adds (writeCall · c) (callBits c) :=
  Adds.bind (fun _ _ => rfl) (Adds.foldlM fun f hf => writeField_adds (h f hf))

/-- A packet is written as if all of its bits were added at once. -/
theorem writePacket_append {calls : List SentCall} (trailer : Option UInt32)
    (hcheck : ∀ c ∈ calls, ∀ f ∈ c.payload, check f.1 f.2 = .ok ()) :
    writePacket calls trailer =
      append [] (calls.flatMap callBits ++ (false :: trailerBits trailer)) := by
  have hcalls := Adds.foldlM fun c hc => writeCall_adds (hcheck c hc)
  have hend : Adds (fun written => append written [false] >>= fun more =>
      append more (trailerBits trailer)) ([false] ++ trailerBits trailer) :=
    Adds.bind (fun _ _ => rfl) (fun _ _ => rfl)
  exact hcalls.bind hend [] (Nat.zero_le _)

/-- A packet that fits is written, call after call. -/
theorem writePacket_eq (calls : List SentCall) (trailer : Option UInt32)
    (hcheck : ∀ c ∈ calls, ∀ f ∈ c.payload, check f.1 f.2 = .ok ())
    (hfits : (calls.flatMap callBits).length + 1 + (trailerBits trailer).length ≤ capacity) :
    writePacket calls trailer =
      .ok (calls.flatMap callBits ++ (false :: trailerBits trailer)) := by
  rw [writePacket_append trailer hcheck, append_of_fits, List.nil_append]
  rw [List.length_nil, List.length_append, List.length_cons]
  omega

theorem readU32_bitsOf (expected : String) (n : UInt32) (rest : Bits) :
    readU32 expected (bitsOf 32 n.toNat ++ rest) = .ok (n, rest) := by
  rw [readU32, readNat_bitsOf_append n.toNat_lt]
  show Except.ok (UInt32.ofNat n.toNat, rest) = _
  rw [UInt32.ofNat_toNat]

/-- A trailing number, or that there is none, is read back. -/
theorem readTrailer_trailerBits (trailer : Option UInt32) (rest : Bits) :
    readTrailer (trailerBits trailer ++ rest) = .ok trailer := by
  cases trailer with
  | none => rfl
  | some n =>
    show (readU32 "trailer" (bitsOf 32 n.toNat ++ rest) >>= fun x => .ok (some x.1)) = _
    rw [readU32_bitsOf]
    rfl

end RpcLoom.Wire
