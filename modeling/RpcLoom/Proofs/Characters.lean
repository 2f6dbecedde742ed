/-
RpcLoom/Proofs/Characters.lean

Characters that were made octets are read back.

Design.  The decoder is followed octet by octet.  From `start` the first octet of
a character says how many are owed, and the range of the next one is met because
the code point is neither too small for its length nor a surrogate.  After the
last octet the decoder has given the character and is at `start` again, so what
follows does not matter (`run_utf8OfChar`).
-/
import RpcLoom.Text.Utf8

namespace RpcLoom.Text

namespace Utf8State

variable {bits owed low high : Nat} {o : UInt8} {rest : List UInt8}

theorem run_start_cons (o : UInt8) (rest : List UInt8) :
    start.run (o :: rest) = (first o.toNat).1 ++ (first o.toNat).2.run rest := by
  rw [run]
  rfl

/-- An octet in its range that is not the last one. -/
theorem run_inside_succ (h : low ≤ o.toNat ∧ o.toNat ≤ high) :
    (inside bits (owed + 1) low high).run (o :: rest) =
      (inside (bits * 0x40 + (o.toNat - 0x80)) owed 0x80 0xbf).run rest := by
  rw [run, step, if_pos h]
  rfl

/-- The last octet of a character, if it is in its range. -/
theorem run_inside_zero (h : low ≤ o.toNat ∧ o.toNat ≤ high) :
    (inside bits 0 low high).run (o :: rest) =
      Char.ofNat (bits * 0x40 + (o.toNat - 0x80)) :: start.run rest := by
  rw [run, step, if_pos h]
  rfl

end Utf8State

open Utf8State

theorem toNat_ofNat_octet {n : Nat} (h : n < 256) : (UInt8.ofNat n).toNat = n := by
  rw [UInt8.toNat_ofNat']
  exact Nat.mod_eq_of_lt h

/-- A code point is no surrogate and not too large. -/
theorem toNat_char (c : Char) : c.toNat < 0xd800 ∨ 0xdfff < c.toNat ∧ c.toNat < 0x110000 :=
  c.valid

theorem first_two {n : Nat} (hlow : 0x80 ≤ n) (hhigh : n < 0x800) :
    first (0xc0 + n / 0x40) = ([], .inside (n / 0x40) 0 0x80 0xbf) := by
  have h : 0xc2 ≤ 0xc0 + n / 0x40 ∧ 0xc0 + n / 0x40 < 0xe0 := by omega
  rw [first, if_neg (by omega), if_neg (by omega), if_pos h.2]
  rw [Nat.add_sub_cancel_left]

theorem first_three {n : Nat} (hlow : 0x800 ≤ n) (hhigh : n < 0x10000)
    (hn : n < 0xd800 ∨ 0xdfff < n) :
    ∃ low high, first (0xe0 + n / 0x1000) = ([], .inside (n / 0x1000) 1 low high) ∧
      low ≤ 0x80 + n / 0x40 % 0x40 ∧ 0x80 + n / 0x40 % 0x40 ≤ high := by
  have hfirst : 0xe0 + n / 0x1000 < 0xf0 := by omega
  rw [first, if_neg (by omega), if_neg (by omega), if_neg (by omega)]
  by_cases hzero : n / 0x1000 = 0
  · refine ⟨0xa0, 0xbf, ?_, ?_, ?_⟩
    · rw [if_pos (by omega), hzero]
    · omega
    · omega
  rw [if_neg (by omega)]
  by_cases hsurrogate : n / 0x1000 = 0xd
  · refine ⟨0x80, 0x9f, ?_, ?_, ?_⟩
    · rw [if_pos (by omega), hsurrogate]
    · omega
    · omega
  refine ⟨0x80, 0xbf, ?_, ?_, ?_⟩
  · rw [if_neg (by omega), if_pos hfirst, Nat.add_sub_cancel_left]
  · omega
  · omega

theorem first_four {n : Nat} (hlow : 0x10000 ≤ n) (hhigh : n < 0x110000) :
    ∃ low high, first (0xf0 + n / 0x40000) = ([], .inside (n / 0x40000) 2 low high) ∧
      low ≤ 0x80 + n / 0x1000 % 0x40 ∧ 0x80 + n / 0x1000 % 0x40 ≤ high := by
  rw [first, if_neg (by omega), if_neg (by omega), if_neg (by omega), if_neg (by omega),
    if_neg (by omega), if_neg (by omega)]
  by_cases hzero : n / 0x40000 = 0
  · refine ⟨0x90, 0xbf, ?_, ?_, ?_⟩
    · rw [if_pos (by omega), hzero]
    · omega
    · omega
  rw [if_neg (by omega)]
  by_cases hlast : n / 0x40000 = 4
  · refine ⟨0x80, 0x8f, ?_, ?_, ?_⟩
    · rw [if_neg (by omega), if_pos (by omega), hlast]
    · omega
    · omega
  refine ⟨0x80, 0xbf, ?_, ?_, ?_⟩
  · rw [if_pos (by omega), Nat.add_sub_cancel_left]
  · omega
  · omega

/-- A character is read back, whatever follows its octets. -/
theorem run_utf8OfChar (c : Char) (rest : List UInt8) :
    start.run (utf8OfChar c ++ rest) = c :: start.run rest := by
  have hchar := toNat_char c
  have hback : Char.ofNat c.toNat = c := Char.ofNat_toNat c
  rw [utf8OfChar]
  generalize c.toNat = n at hchar hback
  by_cases h₁ : n < 0x80
  · rw [if_pos h₁]
    show start.run (.ofNat n :: rest) = _
    rw [run_start_cons, toNat_ofNat_octet (by omega), first, if_pos h₁, hback]
    rfl
  rw [if_neg h₁]
  by_cases h₂ : n < 0x800
  · rw [if_pos h₂]
    show start.run (.ofNat _ :: .ofNat _ :: rest) = _
    rw [run_start_cons, toNat_ofNat_octet (by omega), first_two (by omega) h₂]
    have hlast := toNat_ofNat_octet (show 0x80 + n % 0x40 < 256 by omega)
    show (inside (n / 0x40) 0 0x80 0xbf).run _ = _
    rw [run_inside_zero (by omega), hlast, show n / 0x40 * 0x40 + (0x80 + n % 0x40 - 0x80) = n by
      omega, hback]
  rw [if_neg h₂]
  by_cases h₃ : n < 0x10000
  · rw [if_pos h₃]
    show start.run (.ofNat _ :: .ofNat _ :: .ofNat _ :: rest) = _
    obtain ⟨low, high, hfirst, hrange⟩ := first_three (by omega) h₃ (by omega)
    have hnext := toNat_ofNat_octet (show 0x80 + n / 0x40 % 0x40 < 256 by omega)
    have hlast := toNat_ofNat_octet (show 0x80 + n % 0x40 < 256 by omega)
    rw [run_start_cons, toNat_ofNat_octet (by omega), hfirst]
    show (inside (n / 0x1000) 1 low high).run _ = _
    rw [run_inside_succ (by rw [hnext]; exact hrange), run_inside_zero (by omega), hnext, hlast,
      show (n / 0x1000 * 0x40 + (0x80 + n / 0x40 % 0x40 - 0x80)) * 0x40 +
        (0x80 + n % 0x40 - 0x80) = n by omega, hback]
  rw [if_neg h₃]
  show start.run (.ofNat _ :: .ofNat _ :: .ofNat _ :: .ofNat _ :: rest) = _
  obtain ⟨low, high, hfirst, hrange⟩ := first_four (n := n) (by omega) (by omega)
  have hnext := toNat_ofNat_octet (show 0x80 + n / 0x1000 % 0x40 < 256 by omega)
  have hthird := toNat_ofNat_octet (show 0x80 + n / 0x40 % 0x40 < 256 by omega)
  have hlast := toNat_ofNat_octet (show 0x80 + n % 0x40 < 256 by omega)
  rw [run_start_cons, toNat_ofNat_octet (by omega), hfirst]
  show (inside (n / 0x40000) 2 low high).run _ = _
  rw [run_inside_succ (by rw [hnext]; exact hrange), run_inside_succ (by omega),
    run_inside_zero (by omega), hnext, hthird, hlast,
    show ((n / 0x40000 * 0x40 + (0x80 + n / 0x1000 % 0x40 - 0x80)) * 0x40 +
      (0x80 + n / 0x40 % 0x40 - 0x80)) * 0x40 + (0x80 + n % 0x40 - 0x80) = n by omega, hback]

/-- Every text is read back from its octets. -/
theorem textOfUtf8_utf8 (s : String) : textOfUtf8 (utf8 s) = s := by
  have hrun : ∀ cs : List Char, start.run (cs.flatMap utf8OfChar) = cs := by
    intro cs
    induction cs with
    | nil => rfl
    | cons c cs ih => rw [List.flatMap_cons, run_utf8OfChar, ih]
  rw [textOfUtf8, utf8, hrun, String.ofList_toList]

end RpcLoom.Text
