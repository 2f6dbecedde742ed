/-
RpcLoom/Run/WriterPool.lean

The writers that senders fill.

Design.  A writer is known by its place in the pool.  A released place is free
and is given again, the lowest free place first; only when none is free does
the pool grow.  A handle whose place is free is refused by every operation.
-/
import RpcLoom.Wire.Field

namespace RpcLoom

/-- Writers in use, each with the fields written so far. -/
structure WriterPool where
  /-- The places; a free one holds nothing. -/
  slots : Array (Option (List Field))
  /-- How many writers have been taken. -/
  acquired : Nat
  /-- How many writers have been given back. -/
  released : Nat
  deriving DecidableEq

namespace WriterPool

/-- The pool before any writer is taken. -/
def empty : WriterPool := ⟨#[], 0, 0⟩

/-- The fields of the writer at a place, if there is one. -/
def fields? (p : WriterPool) (handle : Nat) : Option (List Field) := p.slots[handle]?.join

/-- Takes a writer: its handle, and the pool then. -/
def acquire (p : WriterPool) : Nat × WriterPool :=
  match p.slots.findIdx? (·.isNone) with
  | some free =>
    (free, { p with slots := p.slots.setIfInBounds free (some []), acquired := p.acquired + 1 })
  | none =>
    (p.slots.size, { p with slots := p.slots.push (some []), acquired := p.acquired + 1 })

/-- The fields written into a writer. -/
def contents (p : WriterPool) (handle : Nat) : Except Fault (List Field) :=
  match p.fields? handle with
  | some fields => .ok fields
  | none => .error (.writerNotAcquired handle)

/-- Writes a field into a writer. -/
def write (p : WriterPool) (handle : Nat) (field : Field) : Except Fault WriterPool := do
  let fields ← p.contents handle
  .ok { p with slots := p.slots.setIfInBounds handle (some (fields ++ [field])) }

/-- Gives a writer back. -/
def release (p : WriterPool) (handle : Nat) : Except Fault WriterPool := do
  let _ ← p.contents handle
  .ok { p with slots := p.slots.setIfInBounds handle none, released := p.released + 1 }

/-- How many writers are in use. -/
def outstanding (p : WriterPool) : Nat := p.slots.countP (·.isSome)

/-! ### What each operation does to the fields under a handle -/

@[simp] theorem fields?_empty (handle : Nat) : empty.fields? handle = none := by
  simp [fields?, empty]

/-- The handle that is given is free until then. -/
theorem fields?_fst_acquire (p : WriterPool) : p.fields? p.acquire.1 = none := by
  unfold acquire
  split
  next free h =>
    obtain ⟨hlt, hfree, -⟩ := Array.findIdx?_eq_some_iff_getElem.mp h
    simpa [fields?, hlt] using hfree
  next => simp [fields?]

/-- A writer that was just taken is empty. -/
theorem fields?_acquire_self (p : WriterPool) : p.acquire.2.fields? p.acquire.1 = some [] := by
  unfold acquire
  split
  next free h =>
    obtain ⟨hlt, -, -⟩ := Array.findIdx?_eq_some_iff_getElem.mp h
    simp [fields?, hlt]
  next => simp [fields?]

/-- Taking a writer leaves the others as they are. -/
theorem fields?_acquire_of_ne (p : WriterPool) {handle : Nat} (h : handle ≠ p.acquire.1) :
    p.acquire.2.fields? handle = p.fields? handle := by
  unfold acquire at h ⊢
  split
  next free hfree =>
    simp only [hfree] at h
    simp [fields?, Array.getElem?_setIfInBounds_ne (Ne.symm h)]
  next hfree =>
    simp only [hfree] at h
    simp [fields?, Array.getElem?_push, h]

/-- The fields that an operation on a used handle leaves, if it sets the slot under it. -/
theorem fields?_setIfInBounds {p : WriterPool} {handle : Nat} {fields : List Field}
    (h : p.fields? handle = some fields) (slot : Option (List Field)) (k : Nat) :
    (p.slots.setIfInBounds handle slot)[k]?.join = if k = handle then slot else p.fields? k := by
  have hlt : handle < p.slots.size := by
    rcases Nat.lt_or_ge handle p.slots.size with hlt | hge
    · exact hlt
    · simp [fields?, Array.getElem?_eq_none hge] at h
  by_cases hk : k = handle
  · subst hk; simp [hlt]
  · simp [fields?, hk, Array.getElem?_setIfInBounds_ne (Ne.symm hk)]

/-- What a pool becomes when a field is written. -/
theorem of_write {p q : WriterPool} {handle : Nat} {field : Field}
    (h : p.write handle field = .ok q) :
    ∃ fields, p.fields? handle = some fields ∧
      q = { p with slots := p.slots.setIfInBounds handle (some (fields ++ [field])) } := by
  cases hf : p.fields? handle with
  | none => simp [write, contents, hf, bind, Except.bind] at h
  | some fields =>
    simp only [write, contents, hf, bind, Except.bind, Except.ok.injEq] at h
    exact ⟨fields, rfl, h.symm⟩

/-- What a pool becomes when a writer is given back. -/
theorem of_release {p q : WriterPool} {handle : Nat} (h : p.release handle = .ok q) :
    ∃ fields, p.fields? handle = some fields ∧
      q = { p with
        slots := p.slots.setIfInBounds handle none
        released := p.released + 1 } := by
  cases hf : p.fields? handle with
  | none => simp [release, contents, hf, bind, Except.bind] at h
  | some fields =>
    simp only [release, contents, hf, bind, Except.bind, Except.ok.injEq] at h
    exact ⟨fields, rfl, h.symm⟩

/-- Writing adds the field at the end of the handle's own. -/
theorem fields?_write {p q : WriterPool} {handle : Nat} {field : Field}
    (h : p.write handle field = .ok q) (k : Nat) :
    q.fields? k =
      if k = handle then (p.fields? handle).map (· ++ [field]) else p.fields? k := by
  obtain ⟨fields, hf, rfl⟩ := of_write h
  rw [hf]
  exact fields?_setIfInBounds hf _ k

/-- A writer given back is gone, and the others stay. -/
theorem fields?_release {p q : WriterPool} {handle : Nat} (h : p.release handle = .ok q)
    (k : Nat) : q.fields? k = if k = handle then none else p.fields? k := by
  obtain ⟨fields, hf, rfl⟩ := of_release h
  exact fields?_setIfInBounds hf _ k

/-- A writer in use can be given back. -/
theorem release_of_used {p : WriterPool} {handle : Nat} (h : (p.fields? handle).isSome = true) :
    ∃ q, p.release handle = .ok q := by
  obtain ⟨fields, hfields⟩ := Option.isSome_iff_exists.mp h
  rw [release, contents, hfields]
  exact ⟨_, rfl⟩

/-! ### What each operation does to the counts -/

theorem counts_acquire (p : WriterPool) :
    p.acquire.2.acquired = p.acquired + 1 ∧ p.acquire.2.released = p.released := by
  unfold acquire
  split <;> exact ⟨rfl, rfl⟩

theorem counts_write {p q : WriterPool} {handle : Nat} {field : Field}
    (h : p.write handle field = .ok q) : q.acquired = p.acquired ∧ q.released = p.released := by
  obtain ⟨fields, -, rfl⟩ := of_write h
  exact ⟨rfl, rfl⟩

theorem counts_release {p q : WriterPool} {handle : Nat} (h : p.release handle = .ok q) :
    q.acquired = p.acquired ∧ q.released = p.released + 1 := by
  obtain ⟨fields, -, rfl⟩ := of_release h
  exact ⟨rfl, rfl⟩

/-- Pools with writers under the same handles have as many in use. -/
theorem outstanding_congr {p q : WriterPool}
    (h : ∀ k, (p.fields? k).isSome = (q.fields? k).isSome) : p.outstanding = q.outstanding := by
  have hnone : ∀ xs : List (Option (List Field)), (∀ k : Nat, (xs[k]?.join).isSome = false) →
      xs.countP (·.isSome) = 0 := by
    intro xs hxs
    refine List.countP_eq_zero.mpr fun x hx => ?_
    obtain ⟨k, hk⟩ := List.mem_iff_getElem?.mp hx
    simpa [hk] using hxs k
  have hlists : ∀ xs ys : List (Option (List Field)),
      (∀ k : Nat, (xs[k]?.join).isSome = (ys[k]?.join).isSome) →
      xs.countP (·.isSome) = ys.countP (·.isSome) := by
    intro xs
    induction xs with
    | nil => exact fun ys hys => (hnone ys fun k => (hys k).symm).symm
    | cons x xs ih =>
      intro ys hys
      cases ys with
      | nil => exact hnone _ hys
      | cons y ys =>
        have hhead : x.isSome = y.isSome := by simpa using hys 0
        rw [List.countP_cons, List.countP_cons, ih ys fun k => by simpa using hys (k + 1), hhead]
  have := hlists p.slots.toList q.slots.toList (by simpa [fields?] using h)
  simpa [outstanding] using this

/-- A writer was taken from a pool, and given back. -/
structure Lent (p q : WriterPool) : Prop where
  fields : ∀ k, q.fields? k = p.fields? k
  acquired : q.acquired = p.acquired + 1
  released : q.released = p.released + 1

theorem Lent.outstanding {p q : WriterPool} (h : p.Lent q) : q.outstanding = p.outstanding :=
  outstanding_congr fun k => by rw [h.fields]

/-- A writer was lent when it is taken and given back, and nothing else was done to a pool but to
write to it. -/
theorem Lent.of_release {p q r : WriterPool}
    (hothers : ∀ k, k ≠ p.acquire.1 → q.fields? k = p.acquire.2.fields? k)
    (hacquired : q.acquired = p.acquire.2.acquired)
    (hreleased : q.released = p.acquire.2.released)
    (hrelease : q.release p.acquire.1 = .ok r) : p.Lent r where
  fields k := by
    rw [fields?_release hrelease]
    split
    next hk => rw [hk, fields?_fst_acquire]
    next hk => rw [hothers k hk, fields?_acquire_of_ne p hk]
  acquired := by
    rw [(counts_release hrelease).1, hacquired, (counts_acquire p).1]
  released := by
    rw [(counts_release hrelease).2, hreleased, (counts_acquire p).2]

/-- As many writers were taken as given back, and the same are in use. -/
structure Balances (p q : WriterPool) : Prop where
  used : ∀ k, (q.fields? k).isSome = (p.fields? k).isSome
  counts : q.acquired + p.released = p.acquired + q.released

namespace Balances

variable {p q r : WriterPool} {handle : Nat}

theorem refl (p : WriterPool) : p.Balances p := ⟨fun _ => rfl, rfl⟩

theorem trans (h : p.Balances q) (h' : q.Balances r) : p.Balances r where
  used k := (h'.used k).trans (h.used k)
  counts := by have := h.counts; have := h'.counts; omega

theorem of_write {field : Field} (h : p.write handle field = .ok q) : p.Balances q where
  used k := by
    rw [fields?_write h]
    split
    next hk => rw [hk, Option.isSome_map]
    next => rfl
  counts := by
    obtain ⟨hacquired, hreleased⟩ := counts_write h
    omega

/-- A writer is taken and given back, and what happens between balances. -/
theorem of_lent (h : p.acquire.2.Balances q) (hrelease : q.release p.acquire.1 = .ok r) :
    p.Balances r where
  used k := by
    rw [fields?_release hrelease]
    split
    next hk => rw [hk, fields?_fst_acquire]
    next hk => rw [h.used, fields?_acquire_of_ne p hk]
  counts := by
    obtain ⟨hacquired, hreleased⟩ := counts_release hrelease
    obtain ⟨hacquired', hreleased'⟩ := p.counts_acquire
    have := h.counts
    omega

/-- What balances from the start on leaves nothing in use. -/
theorem settled (h : empty.Balances p) : p.outstanding = 0 ∧ p.acquired = p.released := by
  refine ⟨outstanding_congr h.used, ?_⟩
  have := h.counts
  simp only [empty] at this
  omega

end Balances

end WriterPool

end RpcLoom
