/-
RpcLoom/Proofs/Handles.lean

A pool of writers is a map from handles to fields.

Design.  The ledger of a pool says which handles are live, with which fields, and how
many writers were taken and given back; it knows nothing of places.  An operation
answers alike on a pool and on its ledger, and leaves a pool and its ledger again
(`Follows.apply`), so any sequence of operations does (`Follows.applyAll`).

Places are used again, so a pool has no more of them than handles were ever live at
once: it grows only while all its places are in use (`Follows.room`).

Main result.  `WriterPool.refines_ledger`.
-/
import Mathlib.Data.Finmap
import Mathlib.Data.Fintype.EquivFin
import RpcLoom.Run.WriterPool

namespace RpcLoom

namespace WriterPool

/-! ### Operations -/

/-- An operation on a pool. -/
inductive Op where
  | acquire
  | write (handle : Nat) (field : Field)
  | contents (handle : Nat)
  | release (handle : Nat)
  deriving DecidableEq

/-- The handle that an operation is about, if it is given one. -/
def Op.handle? : Op → Option Nat
  | .acquire => none
  | .write handle _ | .contents handle | .release handle => some handle

/-- What an operation answers. -/
inductive Answer where
  | taken (handle : Nat)
  | done
  | fields (fields : List Field)
  | refused (cause : Fault)
  deriving DecidableEq

/-- Does an operation: the answer, and the pool then. -/
def apply (p : WriterPool) : Op → Answer × WriterPool
  | .acquire => (.taken p.acquire.1, p.acquire.2)
  | .write handle field =>
    match p.write handle field with
    | .ok q => (.done, q)
    | .error e => (.refused e, p)
  | .contents handle =>
    match p.contents handle with
    | .ok fields => (.fields fields, p)
    | .error e => (.refused e, p)
  | .release handle =>
    match p.release handle with
    | .ok q => (.done, q)
    | .error e => (.refused e, p)

/-- Does operations one after the other: the answers, and the pool then. -/
def applyAll (p : WriterPool) : List Op → List Answer × WriterPool
  | [] => ([], p)
  | op :: ops =>
    let (answers, q) := (p.apply op).2.applyAll ops
    ((p.apply op).1 :: answers, q)

/-! ### Places -/

section

variable {p q : WriterPool} {handle : Nat}

/-- The handle that is given is the least one that is free. -/
theorem fst_acquire_le {k : Nat} (h : p.fields? k = none) : p.acquire.1 ≤ k := by
  unfold acquire
  split
  next free hfree =>
    obtain ⟨hlt, -, hused⟩ := Array.findIdx?_eq_some_iff_getElem.mp hfree
    refine Nat.le_of_not_lt fun hk => ?_
    have := hused k hk
    simp [fields?, Nat.lt_trans hk hlt] at h
    simp [h] at this
  next hnone =>
    refine Nat.le_of_not_lt fun hk => ?_
    have := Array.findIdx?_eq_none_iff.mp hnone p.slots[k] (Array.getElem_mem hk)
    simp [fields?, hk] at h
    simp [h] at this

/-- A writer is taken from a free place, or all places are in use and there is one more. -/
theorem room_acquire (p : WriterPool) :
    (p.acquire.1 < p.slots.size ∧ p.acquire.2.slots.size = p.slots.size) ∨
    (p.outstanding = p.slots.size ∧ p.acquire.1 = p.slots.size ∧
      p.acquire.2.slots.size = p.slots.size + 1) := by
  unfold acquire
  split
  next free hfree =>
    obtain ⟨hlt, -, -⟩ := Array.findIdx?_eq_some_iff_getElem.mp hfree
    exact .inl ⟨hlt, Array.size_setIfInBounds⟩
  next hnone =>
    refine .inr ⟨Array.countP_eq_size.mpr fun slot hslot => ?_, rfl, Array.size_push _⟩
    have := Array.findIdx?_eq_none_iff.mp hnone slot hslot
    rwa [Option.isNone_eq_false_iff] at this

theorem size_of_write {field : Field} (h : p.write handle field = .ok q) :
    q.slots.size = p.slots.size := by
  obtain ⟨fields, -, h⟩ := of_bind h
  cases h
  exact Array.size_setIfInBounds

theorem size_of_release (h : p.release handle = .ok q) : q.slots.size = p.slots.size := by
  obtain ⟨fields, -, h⟩ := of_bind h
  cases h
  exact Array.size_setIfInBounds

/-- The writers in use are those under the handles that have fields. -/
theorem outstanding_eq (p : WriterPool) :
    p.outstanding =
      ((Finset.range p.slots.size).filter fun k => (p.fields? k).isSome = true).card := by
  have hcount : ∀ slots : List (Option (List Field)), slots.countP (·.isSome) =
      ((Finset.range slots.length).filter fun k : Nat => (slots[k]?.join).isSome = true).card := by
    intro slots
    induction slots using List.reverseRecOn with
    | nil => rfl
    | append_singleton slots slot ih =>
      have hbefore : ((Finset.range slots.length).filter fun k : Nat =>
          ((slots ++ [slot])[k]?.join).isSome = true) =
          (Finset.range slots.length).filter fun k : Nat => (slots[k]?.join).isSome = true := by
        refine Finset.filter_congr fun k hk => ?_
        rw [List.getElem?_append_left (Finset.mem_range.mp hk)]
      rw [List.countP_append, List.length_append, List.length_singleton, Finset.range_add_one,
        Finset.filter_insert, hbefore, ih, List.getElem?_concat_length]
      cases slot with
      | none => rfl
      | some fields =>
        simp only [Option.join_some, Option.isSome_some, if_true]
        rw [Finset.card_insert_of_notMem (by simp)]
        rfl
  rw [outstanding, ← Array.countP_toList, hcount, Array.length_toList]
  refine congrArg Finset.card (Finset.filter_congr fun k _ => ?_)
  rw [fields?, Array.getElem?_toList]

end

/-! ### The ledger -/

/-- What the operations tell of a pool. -/
structure Ledger where
  /-- The handles in use, each with the fields written so far. -/
  live : Finmap fun _ : Nat => List Field
  /-- How many writers have been taken. -/
  acquired : Nat
  /-- How many writers have been given back. -/
  released : Nat

namespace Ledger

/-- The ledger before any writer is taken. -/
def empty : Ledger := ⟨∅, 0, 0⟩

/-- The least handle that is not live. -/
def free (l : Ledger) : Nat := Nat.find (Infinite.exists_notMem_finset l.live.keys)

/-- Does an operation: the answer, and the ledger then. -/
def apply (l : Ledger) : Op → Answer × Ledger
  | .acquire =>
    (.taken l.free, { l with live := l.live.insert l.free [], acquired := l.acquired + 1 })
  | .write handle field =>
    match l.live.lookup handle with
    | some fields => (.done, { l with live := l.live.insert handle (fields ++ [field]) })
    | none => (.refused (.writerNotAcquired handle), l)
  | .contents handle =>
    match l.live.lookup handle with
    | some fields => (.fields fields, l)
    | none => (.refused (.writerNotAcquired handle), l)
  | .release handle =>
    match l.live.lookup handle with
    | some _ => (.done, { l with live := l.live.erase handle, released := l.released + 1 })
    | none => (.refused (.writerNotAcquired handle), l)

/-- Does operations one after the other: the answers, and the ledger then. -/
def applyAll (l : Ledger) : List Op → List Answer × Ledger
  | [] => ([], l)
  | op :: ops =>
    let (answers, l') := (l.apply op).2.applyAll ops
    ((l.apply op).1 :: answers, l')

/-- How many handles are live. -/
def inUse (l : Ledger) : Nat := l.live.keys.card

/-- The largest number of handles that are live at once while operations are done. -/
def peak (l : Ledger) : List Op → Nat
  | [] => l.inUse
  | op :: ops => max l.inUse ((l.apply op).2.peak ops)

variable {l : Ledger} {handle : Nat}

theorem free_notMem (l : Ledger) : l.free ∉ l.live := fun h =>
  Nat.find_spec (Infinite.exists_notMem_finset l.live.keys) (Finmap.mem_keys.mpr h)

theorem free_le {k : Nat} (h : k ∉ l.live) : l.free ≤ k :=
  Nat.find_min' _ fun hk => h (Finmap.mem_keys.mp hk)

theorem keys_insert (live : Finmap fun _ : Nat => List Field) (handle : Nat)
    (fields : List Field) : (live.insert handle fields).keys = insert handle live.keys := by
  ext k
  rw [Finset.mem_insert, Finmap.mem_keys, Finmap.mem_keys, Finmap.mem_insert]

theorem inUse_le_peak (l : Ledger) (ops : List Op) : l.inUse ≤ l.peak ops := by
  cases ops with
  | nil => exact Nat.le_refl _
  | cons op ops => exact Nat.le_max_left _ _

theorem inUse_acquire (l : Ledger) : (l.apply .acquire).2.inUse = l.inUse + 1 := by
  show (l.live.insert l.free []).keys.card = _
  rw [keys_insert, Finset.card_insert_of_notMem fun h => l.free_notMem (Finmap.mem_keys.mp h)]
  rfl

/-- As many writers were taken as given back and are in use. -/
def Balanced (l : Ledger) : Prop := l.acquired = l.released + l.inUse

theorem balanced_empty : empty.Balanced := rfl

theorem Balanced.apply (h : l.Balanced) (op : Op) : (l.apply op).2.Balanced := by
  unfold Balanced at h ⊢
  cases op with
  | acquire =>
    rw [inUse_acquire]
    show l.acquired + 1 = l.released + (l.inUse + 1)
    rw [h, Nat.add_assoc]
  | write handle field =>
    rw [Ledger.apply]
    cases hlive : l.live.lookup handle with
    | none => exact h
    | some fields =>
      have hmem : handle ∈ l.live.keys := Finmap.mem_keys.mpr (Finmap.mem_of_lookup_eq_some hlive)
      simp only [inUse, keys_insert, Finset.insert_eq_of_mem hmem]
      exact h
  | contents handle =>
    rw [Ledger.apply]
    cases l.live.lookup handle <;> exact h
  | release handle =>
    rw [Ledger.apply]
    cases hlive : l.live.lookup handle with
    | none => exact h
    | some fields =>
      have hmem : handle ∈ l.live.keys := Finmap.mem_keys.mpr (Finmap.mem_of_lookup_eq_some hlive)
      have hcard := Finset.card_erase_add_one hmem
      simp only [inUse, Finmap.keys_erase] at h ⊢
      omega

theorem Balanced.applyAll (h : l.Balanced) (ops : List Op) : (l.applyAll ops).2.Balanced := by
  induction ops generalizing l with
  | nil => exact h
  | cons op ops ih => exact ih (h.apply op)

end Ledger

/-! ### A pool and its ledger -/

/-- A ledger is that of a pool. -/
structure Follows (p : WriterPool) (l : Ledger) : Prop where
  fields : ∀ handle, p.fields? handle = l.live.lookup handle
  acquired : p.acquired = l.acquired
  released : p.released = l.released

theorem follows_empty : empty.Follows .empty :=
  ⟨fun handle => by rw [fields?_empty]; rfl, rfl, rfl⟩

namespace Follows

variable {p : WriterPool} {l : Ledger} {handle : Nat} {fields : List Field}

theorem fields_eq_none (h : p.Follows l) : p.fields? handle = none ↔ handle ∉ l.live := by
  rw [h.fields, Finmap.lookup_eq_none]

theorem outstanding (h : p.Follows l) : p.outstanding = l.inUse := by
  rw [outstanding_eq, Ledger.inUse]
  congr 1
  ext k
  rw [Finset.mem_filter, Finset.mem_range, Finmap.mem_keys, ← Finmap.lookup_isSome, ← h.fields]
  refine and_iff_right_of_imp fun hused => Nat.lt_of_not_le fun hk => ?_
  simp [fields?, Array.getElem?_eq_none hk] at hused

/-- The place that a pool gives is the handle that its ledger gives. -/
theorem fst_acquire (h : p.Follows l) : p.acquire.1 = l.free :=
  Nat.le_antisymm (fst_acquire_le (h.fields_eq_none.mpr l.free_notMem))
    (Ledger.free_le (h.fields_eq_none.mp (fields?_fst_acquire p)))

theorem acquire (h : p.Follows l) :
    (p.apply .acquire).1 = (l.apply .acquire).1 ∧
      (p.apply .acquire).2.Follows (l.apply .acquire).2 := by
  obtain ⟨hacquired, hreleased⟩ := counts_acquire p
  refine ⟨congrArg Answer.taken h.fst_acquire, fun k => ?_, ?_, hreleased.trans h.released⟩
  · show p.acquire.2.fields? k = (l.live.insert l.free []).lookup k
    by_cases hk : k = p.acquire.1
    · rw [hk, fields?_acquire_self, h.fst_acquire, Finmap.lookup_insert]
    · rw [fields?_acquire_of_ne p hk, h.fields,
        Finmap.lookup_insert_of_ne _ fun hfree => hk (hfree.trans h.fst_acquire.symm)]
  · exact hacquired.trans (congrArg (· + 1) h.acquired)

theorem write (h : p.Follows l) (hlive : l.live.lookup handle = some fields) (field : Field) :
    ∃ q, p.write handle field = .ok q ∧
      q.Follows { l with live := l.live.insert handle (fields ++ [field]) } := by
  have hfields : p.fields? handle = some fields := (h.fields handle).trans hlive
  obtain ⟨q, hq⟩ : ∃ q, p.write handle field = .ok q := by
    rw [WriterPool.write, contents, hfields]
    exact ⟨_, rfl⟩
  obtain ⟨hacquired, hreleased⟩ := counts_write hq
  refine ⟨q, hq, fun k => ?_, hacquired.trans h.acquired, hreleased.trans h.released⟩
  rw [fields?_write hq]
  by_cases hk : k = handle
  · rw [if_pos hk, hfields, hk, Finmap.lookup_insert]
    rfl
  · rw [if_neg hk, h.fields, Finmap.lookup_insert_of_ne _ hk]

theorem release (h : p.Follows l) (hlive : l.live.lookup handle = some fields) :
    ∃ q, p.release handle = .ok q ∧
      q.Follows { l with live := l.live.erase handle, released := l.released + 1 } := by
  have hused : (p.fields? handle).isSome = true := by rw [h.fields, hlive]; rfl
  obtain ⟨q, hq⟩ := release_of_used hused
  obtain ⟨hacquired, hreleased⟩ := counts_release hq
  refine ⟨q, hq, fun k => ?_, hacquired.trans h.acquired,
    hreleased.trans (congrArg (· + 1) h.released)⟩
  rw [fields?_release hq]
  by_cases hk : k = handle
  · rw [if_pos hk, hk, Finmap.lookup_erase]
  · rw [if_neg hk, h.fields, Finmap.lookup_erase_ne hk]

/-- Writing, looking and giving back are refused for a handle that is not live, and nothing is
changed. -/
theorem apply_of_notMem (h : p.Follows l) (hnone : handle ∉ l.live) {op : Op}
    (hop : op.handle? = some handle) :
    p.apply op = (.refused (.writerNotAcquired handle), p) := by
  have hfields : p.fields? handle = none := h.fields_eq_none.mpr hnone
  have hcontents : p.contents handle = .error (.writerNotAcquired handle) := by
    rw [contents, hfields]
  cases op <;> cases hop <;>
    simp only [WriterPool.apply, WriterPool.write, WriterPool.release, hcontents, bind, Except.bind]

/-- An operation answers alike on a pool and on its ledger, and leaves a pool and its ledger. -/
theorem apply (h : p.Follows l) (op : Op) :
    (p.apply op).1 = (l.apply op).1 ∧ (p.apply op).2.Follows (l.apply op).2 := by
  have hrefused : ∀ handle, op.handle? = some handle → l.live.lookup handle = none →
      l.apply op = (.refused (.writerNotAcquired handle), l) →
      (p.apply op).1 = (l.apply op).1 ∧ (p.apply op).2.Follows (l.apply op).2 := by
    intro handle hop hlookup hledger
    rw [h.apply_of_notMem (Finmap.lookup_eq_none.mp hlookup) hop, hledger]
    exact ⟨rfl, h⟩
  cases op with
  | acquire => exact h.acquire
  | write handle field =>
    cases hlive : l.live.lookup handle with
    | none => exact hrefused handle rfl hlive (by simp only [Ledger.apply, hlive])
    | some fields =>
      obtain ⟨q, hq, hfollows⟩ := h.write hlive field
      simp only [WriterPool.apply, Ledger.apply, hq, hlive]
      exact ⟨trivial, hfollows⟩
  | contents handle =>
    cases hlive : l.live.lookup handle with
    | none => exact hrefused handle rfl hlive (by simp only [Ledger.apply, hlive])
    | some fields =>
      have hfields : p.fields? handle = some fields := (h.fields handle).trans hlive
      simp only [WriterPool.apply, WriterPool.contents, Ledger.apply, hfields, hlive]
      exact ⟨trivial, h⟩
  | release handle =>
    cases hlive : l.live.lookup handle with
    | none => exact hrefused handle rfl hlive (by simp only [Ledger.apply, hlive])
    | some fields =>
      obtain ⟨q, hq, hfollows⟩ := h.release hlive
      simp only [WriterPool.apply, Ledger.apply, hq, hlive]
      exact ⟨trivial, hfollows⟩

/-- So does any sequence of operations. -/
theorem applyAll (h : p.Follows l) (ops : List Op) :
    (p.applyAll ops).1 = (l.applyAll ops).1 ∧ (p.applyAll ops).2.Follows (l.applyAll ops).2 := by
  induction ops generalizing p l with
  | nil => exact ⟨rfl, h⟩
  | cons op ops ih =>
    obtain ⟨hanswer, hnext⟩ := h.apply op
    obtain ⟨hanswers, hlast⟩ := ih hnext
    refine ⟨?_, hlast⟩
    show (p.apply op).1 :: ((p.apply op).2.applyAll ops).1 = _
    rw [hanswer, hanswers]
    rfl

/-- An operation leaves no more places than there were or handles are live then, and a handle that
it gives is one of them. -/
theorem room (h : p.Follows l) (op : Op) :
    (p.apply op).2.slots.size ≤ max p.slots.size (l.apply op).2.inUse ∧
      ∀ handle, (p.apply op).1 = .taken handle →
        handle < max p.slots.size (l.apply op).2.inUse := by
  cases op with
  | acquire =>
    have hanswer : ∀ handle, (p.apply .acquire).1 = .taken handle → p.acquire.1 = handle :=
      fun handle htaken => Answer.taken.inj htaken
    have hpool : (p.apply .acquire).2 = p.acquire.2 := rfl
    rw [Ledger.inUse_acquire, ← h.outstanding, hpool]
    obtain ⟨hfree, hsize⟩ | ⟨hused, hnew, hsize⟩ := p.room_acquire
    · refine ⟨by omega, fun handle htaken => ?_⟩
      have := hanswer handle htaken
      omega
    · refine ⟨by omega, fun handle htaken => ?_⟩
      have := hanswer handle htaken
      omega
  | write handle field =>
    rw [WriterPool.apply]
    cases hwrite : p.write handle field with
    | error e => exact ⟨Nat.le_max_left _ _, fun _ htaken => nomatch htaken⟩
    | ok q =>
      have := size_of_write hwrite
      exact ⟨by simp only; omega, fun _ htaken => nomatch htaken⟩
  | contents handle =>
    rw [WriterPool.apply]
    cases p.contents handle <;>
      exact ⟨Nat.le_max_left _ _, fun _ htaken => nomatch htaken⟩
  | release handle =>
    rw [WriterPool.apply]
    cases hrelease : p.release handle with
    | error e => exact ⟨Nat.le_max_left _ _, fun _ htaken => nomatch htaken⟩
    | ok q =>
      have := size_of_release hrelease
      exact ⟨by simp only; omega, fun _ htaken => nomatch htaken⟩

/-- A handle that is given is smaller than the places there were at first, or than the number of
handles that have been live at once. -/
theorem taken_lt (h : p.Follows l) {ops : List Op}
    (htaken : .taken handle ∈ (p.applyAll ops).1) : handle < max p.slots.size (l.peak ops) := by
  induction ops generalizing p l with
  | nil => cases htaken
  | cons op ops ih =>
    obtain ⟨hsize, hfirst⟩ := h.room op
    have hpeak := (l.apply op).2.inUse_le_peak ops
    have hmost : l.peak (op :: ops) = max l.inUse ((l.apply op).2.peak ops) := rfl
    rcases List.mem_cons.mp htaken with hhere | hlater
    · have := hfirst handle hhere.symm
      omega
    · have := ih (h.apply op).2 hlater
      omega

end Follows

/-- A pool of writers is a map from the live handles to their fields.  Whatever is done to a fresh
pool, each operation answers as on the map; the pool then holds what the map holds, and refuses
every handle that is not in the map without changing anything; as many writers were taken as given
back and are in use; and every handle that was given is smaller than the largest number of handles
that have been live at once. -/
theorem refines_ledger (ops : List Op) :
    ∃ answers p l, empty.applyAll ops = (answers, p) ∧ Ledger.empty.applyAll ops = (answers, l) ∧
      (∀ handle, p.fields? handle = l.live.lookup handle) ∧
      p.acquired = l.acquired ∧ p.released = l.released ∧
      (∀ handle op, op.handle? = some handle → handle ∉ l.live →
        p.apply op = (.refused (.writerNotAcquired handle), p)) ∧
      p.acquired = p.released + p.outstanding ∧ p.outstanding = l.live.keys.card ∧
      ∀ handle, .taken handle ∈ answers → handle < Ledger.empty.peak ops := by
  obtain ⟨hanswers, hfollows⟩ := follows_empty.applyAll ops
  have hbalanced : Ledger.Balanced _ := Ledger.balanced_empty.applyAll ops
  refine ⟨_, _, _, rfl, Prod.ext hanswers.symm rfl, hfollows.fields, hfollows.acquired,
    hfollows.released, fun handle op hop hnone => hfollows.apply_of_notMem hnone hop, ?_,
    hfollows.outstanding, fun handle htaken => ?_⟩
  · rw [hfollows.acquired, hfollows.released, hfollows.outstanding]
    exact hbalanced
  · have := follows_empty.taken_lt htaken
    rwa [show empty.slots.size = 0 from rfl, Nat.zero_max] at this

/-- A place is used again, and what was written under its handle before is gone. -/
example : (empty.applyAll [.acquire, .write 0 (.named "u32", .u32 7), .acquire, .release 0,
    .contents 0, .acquire, .contents 0]).1 =
      [.taken 0, .done, .taken 1, .done, .refused (.writerNotAcquired 0), .taken 0,
        .fields []] := by
  decide +kernel

end WriterPool

end RpcLoom
