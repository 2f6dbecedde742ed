/-
RpcLoom/Proofs/Arenas.lean

Types whose procedures are added and replaced.

Design.  A type that starts empty goes through any sequence of additions and
replacements; one that is refused leaves it as it is.  Adding refuses a procedure
whose signature is there already.  Replacing does not look at signatures, so it can
put one signature in two places (`Change.Clashes`), and nothing else does
(`SignaturesDiffer.change_iff`).

As long as signatures differ, looking for one finds the one procedure that has it.

Main result.  `TypeDef.signatures_differ_iff`.
-/
import Mathlib.Data.List.Induction
import RpcLoom.Proofs.Edits

namespace RpcLoom

namespace TypeDef

/-! ### Sequences of changes -/

/-- A change to the procedures of a type. -/
inductive Change where
  | add (p : Procedure)
  | replace (id : ProcedureId) (p : Procedure)

/-- The type after a change; if the change is refused, the type as it was. -/
def change (t : TypeDef) : Change → TypeDef
  | .add p =>
    match t.add p with
    | .ok (u, _) => u
    | .error _ => t
  | .replace id p =>
    match t.replace id p with
    | .ok (u, _) => u
    | .error _ => t

/-- The type after several changes. -/
def changeAll (t : TypeDef) (cs : List Change) : TypeDef := cs.foldl change t

variable {t : TypeDef} {p : Procedure} {i id : ProcedureId} {s : Signature}

theorem changeAll_concat (t : TypeDef) (cs : List Change) (c : Change) :
    t.changeAll (cs ++ [c]) = (t.changeAll cs).change c := by
  rw [changeAll, List.foldl_append]
  rfl

/-- Adding a procedure puts it at the end, or leaves the type as it is. -/
theorem change_add_cases (t : TypeDef) (p : Procedure) :
    (t.findSignature? p.signature = none ∧ t.change (.add p) = t.push p) ∨
      t.change (.add p) = t := by
  rw [change]
  cases hadd : t.add p with
  | error e => exact .inr rfl
  | ok added =>
    refine .inl ⟨?_, (eq_of_add hadd).1⟩
    cases hfound : t.findSignature? p.signature with
    | none => rfl
    | some k => simp [add, hfound] at hadd

/-- Replacing a procedure puts the new one in its place, or leaves the type as it is. -/
theorem change_replace_cases (t : TypeDef) (id : ProcedureId) (p : Procedure) :
    (∃ old, t.replace id p = .ok (t.modify id fun _ => p, old) ∧ t.procedure? id = some old ∧
      t.change (.replace id p) = t.modify id fun _ => p) ∨
    ((∀ x, t.replace id p ≠ .ok x) ∧ t.change (.replace id p) = t) := by
  rw [change]
  cases hreplace : t.replace id p with
  | error e => exact .inr ⟨fun _ => nofun, rfl⟩
  | ok replaced =>
    obtain ⟨u, old⟩ := replaced
    obtain ⟨hold, -, rfl⟩ := replace_eq_ok_iff.mp hreplace
    exact .inl ⟨old, rfl, hold, rfl⟩

/-! ### One procedure for each signature -/

/-- The procedure at a position has a signature. -/
def HasAt (t : TypeDef) (s : Signature) (i : ProcedureId) : Prop :=
  ∃ p, t.procedure? i = some p ∧ p.signature = s

/-- No two procedures share a name and the types of their parameters. -/
def SignaturesDiffer (t : TypeDef) : Prop := ∀ s i j, t.HasAt s i → t.HasAt s j → i = j

/-- Looking for a signature finds the one and only procedure that has it. -/
def FindsOnly (t : TypeDef) : Prop := ∀ s i, t.findSignature? s = some i ↔ t.HasAt s i

theorem findSignature?_eq_none_iff : t.findSignature? s = none ↔ ∀ i, ¬ t.HasAt s i := by
  rw [findSignature?, List.findIdx?_eq_none_iff]
  simp only [beq_eq_false_iff_ne]
  constructor
  · rintro h i ⟨p, hp, hs⟩
    exact h p (List.mem_of_getElem? hp) hs
  · intro h p hp hs
    obtain ⟨i, hi⟩ := List.mem_iff_getElem?.mp hp
    exact h i ⟨p, hi, hs⟩

/-- Signatures differ exactly if each of them is found where it is, and only there. -/
theorem signaturesDiffer_iff_findsOnly : t.SignaturesDiffer ↔ t.FindsOnly := by
  constructor
  · intro h s i
    refine ⟨procedure?_of_findSignature?, fun hi => ?_⟩
    cases hfound : t.findSignature? s with
    | none => exact absurd hi (findSignature?_eq_none_iff.mp hfound i)
    | some k => rw [h s k i (procedure?_of_findSignature? hfound) hi]
  · intro h s i j hi hj
    exact Option.some.inj (((h s i).mpr hi).symm.trans ((h s j).mpr hj))

/-- Adding a procedure at the end puts it there and leaves the others where they are. -/
theorem procedure?_push_eq_some_iff {q : Procedure} :
    (t.push p).procedure? i = some q ↔
      t.procedure? i = some q ∨ (i = t.procedures.length ∧ q = p) := by
  rcases Nat.lt_trichotomy i t.procedures.length with hlt | rfl | hgt
  · simp only [procedure?_push_of_lt hlt, Nat.ne_of_lt hlt, false_and, or_false]
  · have hnone : t.procedure? t.procedures.length = none := List.getElem?_eq_none (Nat.le_refl _)
    simp only [procedure?_push_length, hnone, Option.some.injEq, reduceCtorEq, true_and, false_or,
      eq_comm]
  · have hnone : t.procedure? i = none := List.getElem?_eq_none (Nat.le_of_lt hgt)
    have hnone' : (t.push p).procedure? i = none :=
      List.getElem?_eq_none (by simp [push]; omega)
    simp only [hnone, hnone', reduceCtorEq, Nat.ne_of_gt hgt, false_and, or_false]

theorem hasAt_push :
    (t.push p).HasAt s i ↔ t.HasAt s i ∨ (i = t.procedures.length ∧ p.signature = s) := by
  simp only [HasAt, procedure?_push_eq_some_iff, or_and_right, exists_or, and_assoc,
    exists_and_left, exists_eq_left]

theorem hasAt_modify_self {old : Procedure} (hold : t.procedure? id = some old) :
    (t.modify id fun _ => p).HasAt s id ↔ p.signature = s := by
  simp only [HasAt, procedure?_modify, if_true, hold, Option.map_some, Option.some.injEq,
    exists_eq_left']

theorem hasAt_modify_of_ne (h : i ≠ id) :
    (t.modify id fun _ => p).HasAt s i ↔ t.HasAt s i := by
  simp only [HasAt, procedure?_modify, if_neg (Ne.symm h)]

/-- A procedure is put in the place of another one while a third one has its signature. -/
def Change.Clashes (t : TypeDef) : Change → Prop
  | .add _ => False
  | .replace id p => (∃ x, t.replace id p = .ok x) ∧ ∃ j, j ≠ id ∧ t.HasAt p.signature j

/-- Where signatures differ they differ after a change as well, unless it clashes. -/
theorem SignaturesDiffer.change_iff (h : t.SignaturesDiffer) (c : Change) :
    (t.change c).SignaturesDiffer ↔ ¬ c.Clashes t := by
  cases c with
  | add p =>
    refine ⟨fun _ => id, fun _ => ?_⟩
    obtain ⟨hnew, hchange⟩ | hchange := t.change_add_cases p
    · rw [hchange]
      have hother := findSignature?_eq_none_iff.mp hnew
      intro s i j hi hj
      rcases hasAt_push.mp hi with hi | ⟨rfl, rfl⟩ <;> rcases hasAt_push.mp hj with hj | ⟨rfl, hs⟩
      · exact h s i j hi hj
      · exact absurd (hs ▸ hi) (hother i)
      · exact absurd hj (hother j)
      · rfl
    · rw [hchange]
      exact h
  | replace id p =>
    obtain ⟨old, hok, hold, hchange⟩ | ⟨hrefused, hchange⟩ := t.change_replace_cases id p
    · rw [hchange]
      constructor
      · rintro hdiffer ⟨-, j, hj, hat⟩
        exact hj (hdiffer p.signature j id ((hasAt_modify_of_ne hj).mpr hat)
          ((hasAt_modify_self hold).mpr rfl))
      · intro hfree s i j hi hj
        have hclash : ∀ k, k ≠ id → t.HasAt p.signature k → False :=
          fun k hk hat => hfree ⟨⟨_, hok⟩, k, hk, hat⟩
        by_cases hi' : i = id <;> by_cases hj' : j = id
        · rw [hi', hj']
        · subst hi'
          obtain rfl := (hasAt_modify_self hold).mp hi
          exact (hclash j hj' ((hasAt_modify_of_ne hj').mp hj)).elim
        · subst hj'
          obtain rfl := (hasAt_modify_self hold).mp hj
          exact (hclash i hi' ((hasAt_modify_of_ne hi').mp hi)).elim
        · exact h s i j ((hasAt_modify_of_ne hi').mp hi) ((hasAt_modify_of_ne hj').mp hj)
    · rw [hchange]
      exact ⟨fun _ hclash => hclash.1.elim hrefused, fun _ => h⟩

theorem signaturesDiffer_empty (name : String) (base : Option String) :
    (empty name base).SignaturesDiffer := by
  rintro s i j ⟨p, hp, -⟩
  cases hp

/-- A type that started empty keeps its signatures apart, and looking for a signature finds the one
and only procedure that has it, exactly as long as no replacement takes the signature of a
procedure at another place. -/
theorem signatures_differ_iff (name : String) (base : Option String) (cs : List Change) :
    (∀ before, before <+: cs → ((empty name base).changeAll before).SignaturesDiffer ∧
      ((empty name base).changeAll before).FindsOnly) ↔
    ∀ before c, before ++ [c] <+: cs → ¬ c.Clashes ((empty name base).changeAll before) := by
  constructor
  · intro h before c hc
    have hbefore := (h before ((List.prefix_append before [c]).trans hc)).1
    have hafter := (h (before ++ [c]) hc).1
    rw [changeAll_concat] at hafter
    exact (hbefore.change_iff c).mp hafter
  · intro h before hbefore
    have hdiffer : ((empty name base).changeAll before).SignaturesDiffer := by
      induction before using List.reverseRecOn with
      | nil => exact signaturesDiffer_empty name base
      | append_singleton before c ih =>
        rw [changeAll_concat]
        exact ((ih ((List.prefix_append before [c]).trans hbefore)).change_iff c).mpr
          (h before c hbefore)
    exact ⟨hdiffer, signaturesDiffer_iff_findsOnly.mp hdiffer⟩

end TypeDef

namespace Sample

/-- Two procedures are added to a type, and then the first one again in the place of the second. -/
def signedTwice : List TypeDef.Change :=
  [.add (.declare "Sign"), .add (.declare "File"), .replace 1 (.declare "Sign")]

/-- The type then. -/
def desk : TypeDef := (TypeDef.empty "Desk" none).changeAll signedTwice

end Sample

open Sample in
/-- After these changes both procedures have one signature, and looking for it finds the first. -/
theorem TypeDef.signature_shared_desk :
    desk.procedure? 0 = some (.declare "Sign") ∧ desk.procedure? 1 = some (.declare "Sign") ∧
    desk.findSignature? ⟨"Sign", []⟩ = some 0 ∧ ¬ desk.SignaturesDiffer ∧ ¬ desk.FindsOnly := by
  have hfirst : desk.procedure? 0 = some (.declare "Sign") := by rfl
  have hsecond : desk.procedure? 1 = some (.declare "Sign") := by rfl
  have hshared : ¬ desk.SignaturesDiffer := fun h =>
    absurd (h ⟨"Sign", []⟩ 0 1 ⟨_, hfirst, rfl⟩ ⟨_, hsecond, rfl⟩) (by decide)
  refine ⟨hfirst, hsecond, by rfl, hshared, fun h => hshared ?_⟩
  exact signaturesDiffer_iff_findsOnly.mpr h

end RpcLoom
