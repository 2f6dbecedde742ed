/-
RpcLoom/Proofs/Names.lean

Generated names tell their keys apart.

Design.  A generated name is an opening and then tokens: the characters of
escaped texts, the gap before the type of a parameter, and the two marks that
may follow a gap.  Every one of these spells an underscore as its first
character or is a single letter, and what follows the underscore tells them
apart: a hexadecimal digit, another underscore, a `g` or an `n`.  So no
spelling begins another one, a row of spellings is read in one way, and from
the tokens the name and the types are read back.

Main result: two keys have one name only if they are one key, and a name is
made of ASCII letters, digits and underscores (`SynthKey.mangledName_unique`).
-/
import RpcLoom.Code.Signature
import Mathlib.Data.List.Infix

namespace RpcLoom

open RpcLoom.Text

/-! ### Runs up to a stop -/

/-- What runs up to the first stop, and what is left from there, are read off their sequence. -/
theorem Text.append_inj_of_stop {α : Type} {stop : α} {xs ys rest more : List α}
    (hx : stop ∉ xs) (hy : stop ∉ ys) (hrest : ∀ a ∈ rest.head?, a = stop)
    (hmore : ∀ a ∈ more.head?, a = stop) (h : xs ++ rest = ys ++ more) :
    xs = ys ∧ rest = more := by
  induction xs generalizing ys with
  | nil =>
    cases ys with
    | nil => exact ⟨rfl, h⟩
    | cons y ys =>
      obtain rfl := hrest y (by rw [← List.nil_append rest, h]; rfl)
      exact absurd (List.mem_cons_self ..) hy
  | cons x xs ih =>
    cases ys with
    | nil =>
      obtain rfl := hmore x (by rw [← List.nil_append more, ← h]; rfl)
      exact absurd (List.mem_cons_self ..) hx
    | cons y ys =>
      obtain ⟨rfl, htail⟩ := List.cons.inj h
      obtain ⟨rfl, hr⟩ := ih (List.not_mem_of_not_mem_cons hx) (List.not_mem_of_not_mem_cons hy)
        htail
      exact ⟨rfl, hr⟩

/-! ### Hexadecimal digits -/

theorem Text.digitChar_inj : ∀ m < 16, ∀ n < 16, Nat.digitChar m = Nat.digitChar n → m = n := by
  decide

/-- The digits of a code point are digits. -/
theorem Text.mem_hexDigits {n : Nat} {c : Char} (h : c ∈ Nat.toDigits 16 n) :
    ∃ d < 16, c = Nat.digitChar d := by
  induction n using Nat.strongRecOn with
  | ind n ih =>
    rw [Nat.toDigits_eq_if (by decide)] at h
    split at h
    · exact ⟨n, by assumption, List.mem_singleton.mp h⟩
    · rcases List.mem_append.mp h with h | h
      · exact ih (n / 16) (by omega) h
      · exact ⟨n % 16, Nat.mod_lt _ (by decide), List.mem_singleton.mp h⟩

/-- Equal digits stand for equal numbers. -/
theorem Text.hexDigits_inj {m n : Nat} (h : Nat.toDigits 16 m = Nat.toDigits 16 n) : m = n := by
  have key : 1 < 16 := by decide
  have hne : ∀ k, Nat.toDigits 16 k ≠ [] := by
    intro k
    rw [Nat.toDigits_eq_if key]
    split <;> simp
  induction m using Nat.strongRecOn generalizing n with
  | ind m ih =>
    rw [Nat.toDigits_eq_if (n := m) key, Nat.toDigits_eq_if (n := n) key] at h
    split at h <;> split at h
    · exact digitChar_inj m (by assumption) n (by assumption) (List.singleton_inj.mp h)
    · exact absurd (List.append_eq_singleton_iff.mp h.symm) (by simp [hne])
    · exact absurd (List.append_eq_singleton_iff.mp h) (by simp [hne])
    · -- both numbers have a last digit and digits before it
      obtain ⟨hdigits, hlast⟩ := List.append_inj' h rfl
      have hdiv : m / 16 = n / 16 := ih (m / 16) (by omega) hdigits
      have hmod : m % 16 = n % 16 :=
        digitChar_inj _ (Nat.mod_lt _ (by decide)) _ (Nat.mod_lt _ (by decide))
          (List.singleton_inj.mp hlast)
      omega

/-! ### The spelling of one character -/

/-- No character begins as a gap or a mark does. -/
theorem Text.escapeChar_append_ne {c x : Char} {rest more : List Char}
    (hx : ∀ d < 16, x ≠ Nat.digitChar d) : escapeChar c ++ rest ≠ '_' :: x :: more := by
  intro h
  unfold escapeChar at h
  split at h
  · obtain ⟨rfl, -⟩ := List.cons.inj h
    contradiction
  · cases hdigits : Nat.toDigits 16 c.toNat with
    | nil =>
      rw [Nat.toDigits_eq_if (by decide)] at hdigits
      split at hdigits <;> simp at hdigits
    | cons y ys =>
      rw [hdigits] at h
      obtain ⟨-, h⟩ := List.cons.inj h
      obtain ⟨rfl, -⟩ := List.cons.inj h
      obtain ⟨d, hd, rfl⟩ := mem_hexDigits (hdigits ▸ List.mem_cons_self ..)
      exact hx d hd rfl

theorem Text.escapeChar_append_inj {c d : Char} {rest more : List Char}
    (h : escapeChar c ++ rest = escapeChar d ++ more) : c = d ∧ rest = more := by
  have hstop : ∀ n, '_' ∉ Nat.toDigits 16 n := by
    intro n hmem
    obtain ⟨k, hk, he⟩ := mem_hexDigits hmem
    revert k
    decide
  unfold escapeChar at h
  split at h <;> split at h
  · exact List.cons.inj h
  · obtain ⟨rfl, -⟩ := List.cons.inj h
    contradiction
  · obtain ⟨rfl, -⟩ := List.cons.inj h
    contradiction
  · -- two runs of digits, each up to its underscore
    have h : Nat.toDigits 16 c.toNat ++ '_' :: rest = Nat.toDigits 16 d.toNat ++ '_' :: more := by
      simpa using h
    obtain ⟨hdigits, hrest⟩ := append_inj_of_stop (hstop _) (hstop _) (by simp) (by simp) h
    exact ⟨Char.toNat_inj.mp (hexDigits_inj hdigits), (List.cons.inj hrest).2⟩

/-! ### Tokens -/

/-- A token of a generated name after its opening. -/
inductive NameToken where
  /-- A character of an escaped text. -/
  | letter (c : Char)
  /-- What stands before the type of a parameter. -/
  | gap
  /-- The mark of an open type parameter. -/
  | openMark
  /-- The mark of a named type that is called as a built-in type is. -/
  | namedMark
  deriving DecidableEq

namespace NameToken

/-- How a token is written. -/
def spelling : NameToken → List Char
  | .letter c => escapeChar c
  | .gap => ['_', '_']
  | .openMark => ['_', 'g', '_']
  | .namedMark => ['_', 'n', '_']

/-- The tokens of an escaped text. -/
def letters (s : String) : List NameToken := s.toList.map .letter

/-- The text whose letters are given; marks and gaps are passed over. -/
def textOf (ts : List NameToken) : String :=
  String.ofList (ts.filterMap fun
    | .letter c => some c
    | _ => none)

@[simp] theorem textOf_letters (s : String) : textOf (letters s) = s := by
  simp [textOf, letters, List.filterMap_map]

theorem letters_inj {s t : String} (h : letters s = letters t) : s = t := by
  rw [← textOf_letters s, h, textOf_letters]

@[simp] theorem spell_letters (s : String) :
    (letters s).flatMap spelling = escapeChars s.toList := by
  simp [letters, spelling, escapeChars, List.flatMap_map]

theorem gap_notMem_letters (s : String) : gap ∉ letters s := by
  simp [letters]

theorem spelling_ne_nil (t : NameToken) : t.spelling ≠ [] := by
  cases t with
  | letter c =>
    intro h
    simp only [spelling, escapeChar] at h
    split at h <;> simp at h
  | gap | openMark | namedMark => simp [spelling]

/-- No spelling begins another one. -/
theorem spelling_append_inj {s t : NameToken} {rest more : List Char}
    (h : s.spelling ++ rest = t.spelling ++ more) : s = t ∧ rest = more := by
  -- a character is told from the others by what follows its underscore, if it has one
  have apart : ∀ {c : Char} {rest more : List Char} (t : NameToken), (∀ d, t ≠ .letter d) →
      escapeChar c ++ rest ≠ t.spelling ++ more := by
    intro c rest more t ht
    cases t with
    | letter d => exact absurd rfl (ht d)
    | gap | openMark | namedMark => exact escapeChar_append_ne (by decide)
  cases s with
  | letter c =>
    cases t with
    | letter d =>
      obtain ⟨rfl, hrest⟩ := escapeChar_append_inj h
      exact ⟨rfl, hrest⟩
    | gap | openMark | namedMark => exact absurd h (apart _ nofun)
  | gap | openMark | namedMark =>
    cases t with
    | letter d => exact absurd h.symm (apart _ nofun)
    | gap | openMark | namedMark =>
      revert h
      simp [spelling]

/-- A row of spellings is read in one way. -/
theorem spell_inj {ss ts : List NameToken} (h : ss.flatMap spelling = ts.flatMap spelling) :
    ss = ts := by
  induction ss generalizing ts with
  | nil =>
    cases ts with
    | nil => rfl
    | cons t ts => exact absurd (List.append_eq_nil_iff.mp h.symm).1 (spelling_ne_nil t)
  | cons s ss ih =>
    cases ts with
    | nil => exact absurd (List.append_eq_nil_iff.mp h).1 (spelling_ne_nil s)
    | cons t ts =>
      obtain ⟨rfl, htail⟩ := spelling_append_inj (by simpa using h)
      rw [ih htail]

end NameToken

/-! ### The tokens of types and signatures -/

open NameToken (letters textOf textOf_letters gap_notMem_letters)

namespace TypeRef

/-- The tokens of a type. -/
def tokens : TypeRef → List NameToken
  | .generic name => .openMark :: letters name
  | .named name => if isBuiltinText name then .namedMark :: letters name else letters name
  | builtin => letters builtin.text

/-- The type whose tokens are given. -/
def ofTokens (ts : List NameToken) : TypeRef :=
  match ts.head? with
  | some .openMark => .generic (textOf ts)
  | some .namedMark => .named (textOf ts)
  | _ => (builtins.find? fun b => b.text == textOf ts).getD (.named (textOf ts))

/-- Letters alone are a type that carries no mark. -/
theorem ofTokens_letters (s : String) :
    ofTokens (letters s) = (builtins.find? fun b => b.text == s).getD (.named s) := by
  have hunmarked : ∀ t ∈ (letters s).head?, t ≠ .openMark ∧ t ≠ .namedMark := by
    intro t ht
    obtain ⟨c, -, rfl⟩ := List.mem_map.mp (List.mem_of_mem_head? ht)
    exact ⟨nofun, nofun⟩
  unfold ofTokens
  split
  · exact absurd rfl (hunmarked _ (by assumption)).1
  · exact absurd rfl (hunmarked _ (by assumption)).2
  · rw [textOf_letters]

@[simp] theorem ofTokens_tokens (t : TypeRef) : ofTokens t.tokens = t := by
  cases t with
  | generic name => exact congrArg generic (textOf_letters name)
  | named name =>
    by_cases h : isBuiltinText name = true
    · rw [tokens, if_pos h]
      exact congrArg named (textOf_letters name)
    · rw [tokens, if_neg h, ofTokens_letters]
      have hnone : builtins.find? (fun b => b.text == name) = none := by
        rw [List.find?_eq_none]
        intro b hb he
        exact h (List.contains_iff_mem.mpr (beq_iff_eq.mp he ▸ List.mem_map_of_mem hb))
      rw [hnone]
      rfl
  | void | channel | connection | reader | writer => exact ofTokens_letters _

theorem tokens_inj {s t : TypeRef} (h : s.tokens = t.tokens) : s = t := by
  rw [← ofTokens_tokens s, h, ofTokens_tokens]

@[simp] theorem spell_tokens (t : TypeRef) :
    t.tokens.flatMap NameToken.spelling = t.mangled.toList := by
  cases t with
  | generic name => simp [tokens, mangled, NameToken.spelling]
  | named name =>
    by_cases h : isBuiltinText name = true <;> simp [tokens, mangled, NameToken.spelling, h]
  | void | channel | connection | reader | writer => simp [tokens, mangled]

theorem gap_notMem_tokens (t : TypeRef) : .gap ∉ t.tokens := by
  cases t with
  | generic name => simp [tokens, gap_notMem_letters]
  | named name =>
    by_cases h : isBuiltinText name = true <;> simp [tokens, gap_notMem_letters, h]
  | void | channel | connection | reader | writer => exact gap_notMem_letters _

end TypeRef

namespace Signature

/-- The tokens of parameter types, a gap before each. -/
def typeTokens (ts : List TypeRef) : List NameToken :=
  ts.flatMap fun t => .gap :: t.tokens

/-- The tokens of a signature. -/
def tokens (s : Signature) : List NameToken :=
  letters s.name ++ typeTokens s.types

/-- After a name or a type comes a gap, if anything does. -/
theorem head?_typeTokens (ts : List TypeRef) : ∀ a ∈ (typeTokens ts).head?, a = .gap := by
  cases ts with
  | nil => simp [typeTokens]
  | cons t ts => simp [typeTokens]

theorem typeTokens_inj {ss ts : List TypeRef} (h : typeTokens ss = typeTokens ts) : ss = ts := by
  induction ss generalizing ts with
  | nil =>
    cases ts with
    | nil => rfl
    | cons t ts => simp [typeTokens] at h
  | cons s ss ih =>
    cases ts with
    | nil => simp [typeTokens] at h
    | cons t ts =>
      obtain ⟨-, h⟩ := List.cons.inj h
      have htokens : s.tokens = t.tokens ∧ typeTokens ss = typeTokens ts :=
        append_inj_of_stop s.gap_notMem_tokens t.gap_notMem_tokens (head?_typeTokens ss)
          (head?_typeTokens ts) h
      rw [TypeRef.tokens_inj htokens.1, ih htokens.2]

theorem tokens_inj {s t : Signature} (h : s.tokens = t.tokens) : s = t := by
  obtain ⟨hname, htypes⟩ :=
    append_inj_of_stop (gap_notMem_letters s.name) (gap_notMem_letters t.name)
      (head?_typeTokens s.types) (head?_typeTokens t.types) h
  cases s
  cases t
  rw [mk.injEq]
  exact ⟨NameToken.letters_inj hname, typeTokens_inj htypes⟩

@[simp] theorem spell_typeTokens (ts : List TypeRef) :
    (typeTokens ts).flatMap NameToken.spelling =
      (String.join (ts.map fun t => "__" ++ t.mangled)).toList := by
  induction ts with
  | nil => rfl
  | cons t ts ih =>
    simp only [typeTokens] at ih
    simp [typeTokens, NameToken.spelling, ih]

theorem spell_tokens (s : Signature) :
    s.tokens.flatMap NameToken.spelling = s.mangled.toList := by
  simp [tokens, mangled]

/-- Signatures are told by their spelling. -/
theorem mangled_inj {s t : Signature} (h : s.mangled.toList = t.mangled.toList) : s = t := by
  rw [← spell_tokens, ← spell_tokens] at h
  exact tokens_inj (NameToken.spell_inj h)

end Signature

/-! ### The opening -/

/-- No opening begins another one. -/
theorem SynthRole.eq_of_opening {r s : SynthRole}
    (h : r.opening.toList <+: s.opening.toList) : r = s := by
  cases r with
  | logic =>
    cases s with
    | logic => rfl
    | writer k | reader k => revert h; cases k <;> decide
  | writer j =>
    cases s with
    | logic => revert h; cases j <;> decide
    | writer k | reader k => revert h; cases j <;> cases k <;> decide
  | reader j =>
    cases s with
    | logic => revert h; cases j <;> decide
    | writer k | reader k => revert h; cases j <;> cases k <;> decide

theorem SynthRole.opening_append_inj {r s : SynthRole} {rest more : List Char}
    (h : r.opening.toList ++ rest = s.opening.toList ++ more) : r = s ∧ rest = more := by
  have hr : r.opening.toList <+: s.opening.toList ++ more := h ▸ List.prefix_append ..
  have hs : s.opening.toList <+: s.opening.toList ++ more := List.prefix_append ..
  obtain rfl : r = s := by
    rcases List.prefix_or_prefix_of_prefix hr hs with hpre | hpre
    · exact eq_of_opening hpre
    · exact (eq_of_opening hpre).symm
  exact ⟨rfl, List.append_cancel_left h⟩

/-! ### The characters of a name -/

/-- Whether a character may stand in a generated name. -/
def IsNameChar (c : Char) : Prop := c.isAlphanum = true ∨ c = '_'

instance : DecidablePred IsNameChar := fun _ => inferInstanceAs (Decidable (_ ∨ _))

theorem isNameChar_of_all {cs : List Char} (h : cs.all (fun c => decide (IsNameChar c)) = true) :
    ∀ c ∈ cs, IsNameChar c :=
  fun c hc => of_decide_eq_true (List.all_eq_true.mp h c hc)

theorem SynthRole.opening_chars (r : SynthRole) : ∀ c ∈ r.opening.toList, IsNameChar c := by
  cases r with
  | logic => exact isNameChar_of_all (by decide)
  | writer k | reader k => cases k <;> exact isNameChar_of_all (by decide)

theorem NameToken.spelling_chars (t : NameToken) : ∀ c ∈ t.spelling, IsNameChar c := by
  cases t with
  | letter c =>
    intro x hx
    simp only [spelling, escapeChar] at hx
    split at hx
    · rw [List.mem_singleton] at hx
      exact .inl (hx ▸ by assumption)
    · simp only [List.cons_append, List.mem_cons, List.mem_append, List.not_mem_nil,
        or_false] at hx
      rcases hx with hx | hx | hx
      · exact .inr hx
      · obtain ⟨d, hd, rfl⟩ := mem_hexDigits hx
        clear hx
        revert d
        decide
      · exact .inr hx
  | gap | openMark | namedMark => exact isNameChar_of_all (by decide)

theorem SynthKey.mangledName_chars (key : SynthKey) :
    ∀ c ∈ key.mangledName.toList, IsNameChar c := by
  intro c hc
  rw [mangledName, String.toList_append, ← Signature.spell_tokens, List.mem_append] at hc
  rcases hc with hc | hc
  · exact key.role.opening_chars c hc
  · obtain ⟨t, -, ht⟩ := List.mem_flatMap.mp hc
    exact t.spelling_chars c ht

theorem isNameChar_iff (c : Char) :
    IsNameChar c ↔ ('a' ≤ c ∧ c ≤ 'z') ∨ ('A' ≤ c ∧ c ≤ 'Z') ∨ ('0' ≤ c ∧ c ≤ '9') ∨ c = '_' := by
  have hcode : ∀ d e : Char, d ≤ e ↔ d.val ≤ e.val := fun _ _ => Iff.rfl
  delta IsNameChar Char.isAlphanum Char.isAlpha Char.isUpper Char.isLower Char.isDigit
  simp only [Bool.or_eq_true, Bool.and_eq_true, decide_eq_true_eq, ge_iff_le, hcode]
  grind

/-- A key is read back from its name. -/
theorem SynthKey.mangledName_inj {key other : SynthKey}
    (h : key.mangledName = other.mangledName) : key = other := by
  have hchars := congrArg String.toList h
  simp only [mangledName, String.toList_append] at hchars
  obtain ⟨hrole, hrest⟩ := SynthRole.opening_append_inj hchars
  cases key
  cases other
  rw [mk.injEq]
  exact ⟨hrole, Signature.mangled_inj hrest⟩

/-- Two keys have one name only if they are one key: one part, one name and the same types in
the same order.  A name is made of ASCII letters, digits and underscores. -/
theorem SynthKey.mangledName_unique (key other : SynthKey) :
    (key.mangledName = other.mangledName ↔ key = other) ∧
      ∀ c ∈ key.mangledName.toList,
        ('a' ≤ c ∧ c ≤ 'z') ∨ ('A' ≤ c ∧ c ≤ 'Z') ∨ ('0' ≤ c ∧ c ≤ '9') ∨ c = '_' := by
  refine ⟨⟨mangledName_inj, congrArg mangledName⟩, fun c hc => ?_⟩
  exact (isNameChar_iff c).mp (key.mangledName_chars c hc)

end RpcLoom
