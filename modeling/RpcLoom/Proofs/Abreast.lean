/-
RpcLoom/Proofs/Abreast.lean

Weaving one call in two types at once.

Design.  Two types are abreast if they have the same generated procedures for some
signatures, wherever these stand, and the same declared procedures but one
(`TypeDef.Abreast`).  What weaving does for a call of such a signature ends in both
types in the same way and leaves them abreast; each of its steps is taken in both
at once (`TypeEdit.InStep`), up to the weaving of the whole call
(`Abreast.weaveProcedure`).  What weaving does for a call of another signature
leaves its type abreast of what it was (`Job.Edits.abreast`).
-/
import RpcLoom.Proofs.Generated

namespace RpcLoom

/-! ### Edits in two types -/

namespace TypeEdit

variable {α β γ δ ι : Type} {P : TypeDef → TypeDef → Prop} {R : α → β → Prop}
  {R' : γ → δ → Prop} {t u : TypeDef}

/-- Two edits end in the same way: with related results, or for one reason; and the types they
leave are related. -/
inductive InStep (P : TypeDef → TypeDef → Prop) (R : α → β → Prop) :
    EStateM.Result SynthesisError TypeDef α → EStateM.Result SynthesisError TypeDef β → Prop
  | ok {a : α} {b : β} {t u : TypeDef} (hab : R a b) (htu : P t u) : InStep P R (.ok a t) (.ok b u)
  | error {t u : TypeDef} (e : SynthesisError) (htu : P t u) :
      InStep P R (.error e t) (.error e u)

theorem InStep.bind {x : TypeEdit α} {y : TypeEdit β} {f : α → TypeEdit γ} {g : β → TypeEdit δ}
    (h : InStep P R (x t) (y u))
    (hfg : ∀ a b t u, R a b → P t u → InStep P R' (f a t) (g b u)) :
    InStep P R' ((x >>= f) t) ((y >>= g) u) := by
  rw [bind_eq, bind_eq]
  generalize x t = first at h
  generalize y u = second at h
  cases h with
  | ok hab htu => exact hfg _ _ _ _ hab htu
  | error e htu => exact .error e htu

/-- Edits that go in step one by one go in step one after the other. -/
theorem InStep.mapM {f : ι → TypeEdit α} {g : ι → TypeEdit β} (is : List ι)
    (h : ∀ i ∈ is, ∀ t u, P t u → InStep P R (f i t) (g i u)) (htu : P t u) :
    InStep P (List.Forall₂ R) (is.mapM f t) (is.mapM g u) := by
  induction is generalizing t u with
  | nil => exact .ok .nil htu
  | cons i is ih =>
    rw [List.mapM_cons, List.mapM_cons]
    refine InStep.bind (h i (by simp) t u htu) fun a b t u hab htu => ?_
    refine InStep.bind (ih (fun i hi => h i (by simp [hi])) htu) fun as bs t u hall htu => ?_
    exact .ok (.cons hab hall) htu

end TypeEdit

/-! ### What a change does to the procedures of other keys -/

namespace TypeDef

variable {t : TypeDef} {p q : Procedure} {key : SynthKey} {i k : ProcedureId}

theorem generated?_push (ho : p.origin = .synthesized key) (hnone : t.findSynthesized? key = none)
    (other : SynthKey) :
    (t.push p).generated? other = if other = key then some p else t.generated? other := by
  by_cases hk : other = key
  · subst hk
    rw [if_pos rfl]
    exact generated?_of_find (findSynthesized?_push ho hnone) (procedure?_push_length t p)
  · rw [if_neg hk, generated?, Job.findSynthesized?_push_of_ne ho (Ne.symm hk), generated?]
    cases hi : t.findSynthesized? other with
    | none => rfl
    | some i =>
      obtain ⟨r, hr, -⟩ := procedure?_of_findSynthesized? hi
      exact procedure?_push_of_lt (lt_of_procedure? hr) p

/-- A procedure in the place of one from the same key stands for the key. -/
theorem generated?_replace (hold : t.findSynthesized? key = some i)
    (ho : q.origin = .synthesized key) (other : SynthKey) :
    (t.modify i fun _ => q).generated? other =
      if other = key then some q else t.generated? other := by
  obtain ⟨old, hi, hio⟩ := procedure?_of_findSynthesized? hold
  have hfind : ∀ k, (t.modify i fun _ => q).findSynthesized? k = t.findSynthesized? k := by
    intro k
    rw [findSynthesized?_eq, Job.origins_modify fun r hr => ?_, ← findSynthesized?_eq]
    obtain rfl := Option.some.inj (hi.symm.trans hr)
    exact ho.trans hio.symm
  rw [generated?, hfind, generated?]
  by_cases hk : other = key
  · rw [if_pos hk, hk, hold, Option.bind_some, procedure?_modify, if_pos rfl, hi, Option.map_some]
  · rw [if_neg hk]
    cases hl : t.findSynthesized? other with
    | none => rfl
    | some l =>
      obtain ⟨r, hr, hro⟩ := procedure?_of_findSynthesized? hl
      have hne : i ≠ l := by
        rintro rfl
        obtain rfl := Option.some.inj (hi.symm.trans hr)
        exact hk (Origin.synthesized.inj (hro.symm.trans hio))
      rw [Option.bind_some, Option.bind_some, procedure?_modify, if_neg hne]

/-- A change of a declared procedure touches no generated one. -/
theorem generated?_modify {f : Procedure → Procedure}
    (hd : ∀ p, t.procedure? i = some p → p.isDeclared = true)
    (ho : ∀ p, (f p).origin = p.origin) (key : SynthKey) :
    (t.modify i f).generated? key = t.generated? key := by
  rw [generated?, findSynthesized?_eq, Job.origins_modify fun p _ => ho p, ← findSynthesized?_eq,
    generated?]
  cases hl : t.findSynthesized? key with
  | none => rfl
  | some l =>
    obtain ⟨p, hp, hpo⟩ := procedure?_of_findSynthesized? hl
    have hne : i ≠ l := by
      rintro rfl
      have := hd p hp
      exact absurd hpo (Procedure.origin_ne_of_isDeclared this _)
    rw [Option.bind_some, Option.bind_some, procedure?_modify, if_neg hne]

theorem isSome_findSignature?_push (t : TypeDef) (p : Procedure) (s : Signature) :
    ((t.push p).findSignature? s).isSome = ((t.findSignature? s).isSome || p.signature == s) := by
  by_cases hp : p.signature = s <;> simp [findSignature?, push, List.findIdx?_append, hp]

theorem findSignature?_modify {f : Procedure → Procedure}
    (hs : ∀ p, t.procedure? i = some p → (f p).signature = p.signature) (s : Signature) :
    (t.modify i f).findSignature? s = t.findSignature? s := by
  rw [findSignature?_eq, Job.signatures_modify hs, ← findSignature?_eq]

/-- Adding a generated procedure touches no declared one. -/
theorem procedure?_push_declared (hq : q.isDeclared = false) (hp : p.isDeclared = true) :
    (t.push q).procedure? k = some p ↔ t.procedure? k = some p := by
  constructor
  · intro h
    rcases procedure?_push_cases h with h | ⟨-, rfl⟩
    · exact h
    · cases hq.symm.trans hp
  · intro h
    rw [procedure?_push_of_lt (lt_of_procedure? h), h]

/-- Nor does replacing one. -/
theorem procedure?_replace_declared (hold : t.findSynthesized? key = some i)
    (hq : q.isDeclared = false) (hp : p.isDeclared = true) :
    (t.modify i fun _ => q).procedure? k = some p ↔ t.procedure? k = some p := by
  obtain ⟨old, hi, hio⟩ := procedure?_of_findSynthesized? hold
  rw [procedure?_modify]
  by_cases hk : i = k
  · subst hk
    have hgen := Procedure.isDeclared_of_synthesized hio
    rw [if_pos rfl, hi]
    constructor
    · rintro h
      obtain rfl := Option.some.inj h
      cases hq.symm.trans hp
    · rintro h
      obtain rfl := Option.some.inj h
      cases hgen.symm.trans hp
  · rw [if_neg hk]

/-! ### Types abreast -/

/-- Two types have the same generated procedures for the signatures in `S`, the names of such
procedures are taken in both or in neither, and they have the same declared procedures, the one at
`m` apart. -/
structure Abreast (S : Signature → Prop) (m : ProcedureId) (t u : TypeDef) : Prop where
  name : t.name = u.name
  left : t.Canonical
  right : u.Canonical
  generated : ∀ key : SynthKey, S key.signature → t.generated? key = u.generated? key
  taken : ∀ key : SynthKey, S key.signature →
    (t.findSignature? key.generated).isSome = (u.findSignature? key.generated).isSome
  declared : ∀ (k : ProcedureId) (p : Procedure), k ≠ m → p.isDeclared = true →
    (t.procedure? k = some p ↔ u.procedure? k = some p)

namespace Abreast

variable {S : Signature → Prop} {m : ProcedureId} {u v : TypeDef}

theorem refl (hc : t.Canonical) : Abreast S m t t :=
  ⟨rfl, hc, hc, fun _ _ => rfl, fun _ _ => rfl, fun _ _ _ _ => .rfl⟩

theorem trans (h : Abreast S m t u) (h' : Abreast S m u v) : Abreast S m t v :=
  ⟨h.name.trans h'.name, h.left, h'.right,
    fun key hk => (h.generated key hk).trans (h'.generated key hk),
    fun key hk => (h.taken key hk).trans (h'.taken key hk),
    fun k p hk hp => (h.declared k p hk hp).trans (h'.declared k p hk hp)⟩

theorem symm (h : Abreast S m t u) : Abreast S m u t :=
  ⟨h.name.symm, h.right, h.left, fun key hk => (h.generated key hk).symm,
    fun key hk => (h.taken key hk).symm, fun k p hk hp => (h.declared k p hk hp).symm⟩

/-- What is found for a key in one type is found in the other, perhaps elsewhere. -/
theorem find_cases (h : Abreast S m t u) (key : SynthKey) (hS : S key.signature) :
    (t.findSynthesized? key = none ∧ u.findSynthesized? key = none) ∨
      ∃ i k, t.findSynthesized? key = some i ∧ u.findSynthesized? key = some k := by
  have hsame := h.generated key hS
  cases ht : t.findSynthesized? key with
  | none =>
    rw [generated?_eq_none.mpr ht, eq_comm, generated?_eq_none] at hsame
    exact .inl ⟨rfl, hsame⟩
  | some i =>
    cases hu : u.findSynthesized? key with
    | none =>
      rw [generated?_eq_none.mpr hu, generated?_eq_none, ht] at hsame
      cases hsame
    | some k => exact .inr ⟨i, k, rfl, rfl⟩

/-! ### The same change in both types -/

theorem push (h : Abreast S m t u) (ho : p.origin = .synthesized key)
    (hs : p.signature = key.generated) (ht : t.Lacks key) (hu : u.Lacks key) :
    Abreast S m (t.push p) (u.push p) := by
  have hp := Procedure.isDeclared_of_synthesized ho
  constructor
  case name => exact h.name
  case left => exact h.left.push ho hs ht
  case right => exact h.right.push ho hs hu
  case generated =>
    intro other hk
    rw [generated?_push ho ht.absent, generated?_push ho hu.absent, h.generated other hk]
  case taken =>
    intro other hk
    rw [isSome_findSignature?_push, isSome_findSignature?_push, h.taken other hk]
  case declared =>
    intro k q hk hq
    rw [procedure?_push_declared hp hq, procedure?_push_declared hp hq, h.declared k q hk hq]

theorem replace (h : Abreast S m t u) (ho : q.origin = .synthesized key)
    (hs : q.signature = key.generated) (ht : t.findSynthesized? key = some i)
    (hu : u.findSynthesized? key = some k) :
    Abreast S m (t.modify i fun _ => q) (u.modify k fun _ => q) := by
  have hq := Procedure.isDeclared_of_synthesized ho
  have hkeeps : ∀ {v : TypeDef} {i : ProcedureId}, v.Canonical → v.findSynthesized? key = some i →
      ∀ p, v.procedure? i = some p → q.origin = p.origin ∧ q.signature = p.signature := by
    intro v i hc hi p hp
    obtain ⟨old, hold, hio⟩ := procedure?_of_findSynthesized? hi
    obtain rfl := Option.some.inj (hold.symm.trans hp)
    exact ⟨ho.trans hio.symm, hs.trans (hc i old key hold hio).1.symm⟩
  have hleft := hkeeps h.left ht
  have hright := hkeeps h.right hu
  constructor
  case name => exact h.name
  case left => exact h.left.modify (fun p hp => (hleft p hp).1) fun p hp => (hleft p hp).2
  case right => exact h.right.modify (fun p hp => (hright p hp).1) fun p hp => (hright p hp).2
  case generated =>
    intro other hk
    rw [generated?_replace ht ho, generated?_replace hu ho, h.generated other hk]
  case taken =>
    intro other hk
    rw [findSignature?_modify fun p hp => (hleft p hp).2,
      findSignature?_modify fun p hp => (hright p hp).2, h.taken other hk]
  case declared =>
    intro l p hl hp
    rw [procedure?_replace_declared ht hq hp, procedure?_replace_declared hu hq hp,
      h.declared l p hl hp]

/-- Both types have the same declared procedure changed. -/
theorem modify (h : Abreast S m t u) (hi : i ≠ m) (hp : t.procedure? i = some p)
    (hd : p.isDeclared = true) {f : Procedure → Procedure} (ho : ∀ p, (f p).origin = p.origin)
    (hs : ∀ p, (f p).signature = p.signature) : Abreast S m (t.modify i f) (u.modify i f) := by
  have hp' := (h.declared i p hi hd).mp hp
  have hdecl : ∀ {v : TypeDef}, v.procedure? i = some p →
      ∀ q, v.procedure? i = some q → q.isDeclared = true := by
    intro v hv q hq
    obtain rfl := Option.some.inj (hv.symm.trans hq)
    exact hd
  constructor
  case name => exact h.name
  case left => exact h.left.modify (fun p _ => ho p) fun p _ => hs p
  case right => exact h.right.modify (fun p _ => ho p) fun p _ => hs p
  case generated =>
    intro key hk
    rw [generated?_modify (hdecl hp) ho, generated?_modify (hdecl hp') ho, h.generated key hk]
  case taken =>
    intro key hk
    rw [findSignature?_modify fun p _ => hs p, findSignature?_modify fun p _ => hs p,
      h.taken key hk]
  case declared =>
    intro k q hk hq
    rw [procedure?_modify, procedure?_modify]
    by_cases hik : i = k
    · subst hik
      rw [if_pos rfl, if_pos rfl, hp, hp']
    · rw [if_neg hik, if_neg hik, h.declared k q hk hq]

end Abreast

/-! ### A change in one type that is not seen -/

variable {S : Signature → Prop} {m : ProcedureId}

theorem abreast_push (hc : t.Canonical) (ho : p.origin = .synthesized key)
    (hs : p.signature = key.generated) (hnew : t.Lacks key) (hS : ¬ S key.signature) :
    Abreast S m (t.push p) t := by
  have hp := Procedure.isDeclared_of_synthesized ho
  constructor
  case name => rfl
  case left => exact hc.push ho hs hnew
  case right => exact hc
  case generated =>
    intro other hk
    rw [generated?_push ho hnew.absent, if_neg]
    rintro rfl
    exact hS hk
  case taken =>
    intro other hk
    have hne : p.signature ≠ other.generated := by
      rw [hs]
      intro he
      rw [SynthKey.eq_of_generated_eq he] at hS
      exact hS hk
    rw [isSome_findSignature?_push, beq_false_of_ne hne, Bool.or_false]
  case declared => exact fun k q _ hq => procedure?_push_declared hp hq

theorem abreast_replace (hc : t.Canonical) (ho : q.origin = .synthesized key)
    (hs : q.signature = key.generated) (hold : t.findSynthesized? key = some i)
    (hS : ¬ S key.signature) : Abreast S m (t.modify i fun _ => q) t := by
  obtain ⟨old, hi, hio⟩ := procedure?_of_findSynthesized? hold
  have hq := Procedure.isDeclared_of_synthesized ho
  have hkeeps : ∀ p, t.procedure? i = some p → q.origin = p.origin ∧ q.signature = p.signature := by
    intro p hp
    obtain rfl := Option.some.inj (hi.symm.trans hp)
    exact ⟨ho.trans hio.symm, hs.trans (hc i old key hi hio).1.symm⟩
  constructor
  case name => rfl
  case left => exact hc.modify (fun p hp => (hkeeps p hp).1) fun p hp => (hkeeps p hp).2
  case right => exact hc
  case generated =>
    intro other hk
    rw [generated?_replace hold ho, if_neg]
    rintro rfl
    exact hS hk
  case taken => exact fun other _ => by rw [findSignature?_modify fun p hp => (hkeeps p hp).2]
  case declared => exact fun k p _ hp => procedure?_replace_declared hold hq hp

theorem abreast_modify (hc : t.Canonical)
    (hd : ∀ p, t.procedure? m = some p → p.isDeclared = true) {f : Procedure → Procedure}
    (ho : ∀ p, (f p).origin = p.origin) (hs : ∀ p, (f p).signature = p.signature) :
    Abreast S m (t.modify m f) t where
  name := rfl
  left := hc.modify (fun p _ => ho p) fun p _ => hs p
  right := hc
  generated key _ := generated?_modify hd ho key
  taken key _ := by rw [findSignature?_modify fun p _ => hs p]
  declared k p hk _ := by rw [procedure?_modify, if_neg (Ne.symm hk)]

end TypeDef

namespace Job

open TypeDef (Abreast)

variable {loom : Loom} {j : Job} {t u : TypeDef} {S : Signature → Prop}

theorem Stands.declared_of (h : j.Stands t) {p : Procedure} (hp : t.procedure? j.id = some p) :
    p.isDeclared = true := by
  obtain ⟨hd, q, hq, hhead⟩ := h
  obtain rfl := Option.some.inj (hq.symm.trans hp)
  rw [← q.isDeclared_heading, hhead, Procedure.isDeclared_heading, hd]

/-- Weaving a call is not seen by calls of other signatures. -/
theorem Edit.abreast (h : j.Edit loom t u) (hc : t.Canonical) (hj : j.Stands t)
    (hS : ¬ S j.served.signature) : Abreast S j.id u t := by
  cases h with
  | clear => exact TypeDef.abreast_modify hc (fun p => hj.declared_of) (fun _ => rfl) fun _ => rfl
  | fill => exact TypeDef.abreast_modify hc (fun p => hj.declared_of) (fun _ => rfl) fun _ => rfl
  | logic _ _ hnew =>
    have hclear : Abreast S j.id (t.clear j.id) t :=
      TypeDef.abreast_modify hc (fun p => hj.declared_of) (fun _ => rfl) fun _ => rfl
    exact (TypeDef.abreast_push hclear.left rfl rfl (hnew.clear j.id) hS).trans hclear
  | reader _ _ _ hnew => exact TypeDef.abreast_push hc rfl rfl hnew hS
  | writer _ hnew => exact TypeDef.abreast_push hc rfl rfl hnew hS
  | rewriter _ hold => exact TypeDef.abreast_replace hc rfl rfl hold hS

theorem Edits.abreast (h : j.Edits loom t u) (hc : t.Canonical) (hj : j.Stands t)
    (hS : ¬ S j.served.signature) : Abreast S j.id u t := by
  induction h with
  | refl => exact .refl hc
  | tail hs hstep ih =>
    exact (hstep.abreast (Edits.canonical hs hc) (Edits.stands hs hj) hS).trans ih

end Job

/-! ### Generated parts that correspond -/

/-- Two stubs are for one kind and called alike, wherever they stand. -/
structure Stub.Matches (s s' : Stub) : Prop where
  kind : s.kind = s'.kind
  ref : s.ref = s'.ref

/-- The stubs for a kind among stubs that match, match. -/
theorem Stub.find?_matches {xs ys : List Stub} (h : List.Forall₂ Stub.Matches xs ys)
    (kind : Kind) : (xs.find? (·.kind == kind) = none ∧ ys.find? (·.kind == kind) = none) ∨
      ∃ s s', xs.find? (·.kind == kind) = some s ∧ ys.find? (·.kind == kind) = some s' ∧
        s.Matches s' := by
  induction h with
  | nil => exact .inl ⟨rfl, rfl⟩
  | @cons s s' xs ys hs _ ih =>
    by_cases hk : s.kind = kind
    · refine .inr ⟨s, s', ?_, ?_, hs⟩
      · rw [List.find?_cons_of_pos (by simpa using hk)]
      · rw [List.find?_cons_of_pos (by simpa [← hs.kind] using hk)]
    · rw [List.find?_cons_of_neg (by simpa using hk),
        List.find?_cons_of_neg (by simpa [← hs.kind] using hk)]
      exact ih

namespace Triad

/-- Two triads are called alike, wherever their procedures stand. -/
structure Matches (x y : Triad) : Prop where
  logicRef : x.logicRef = y.logicRef
  writers : List.Forall₂ Stub.Matches x.writers y.writers
  readers : List.Forall₂ Stub.Matches x.readers y.readers

variable {x y : Triad}

theorem Matches.writerRef (h : x.Matches y) (name : String) (kind : Kind) :
    x.writerRef name kind = y.writerRef name kind := by
  rcases Stub.find?_matches h.writers kind with ⟨hx, hy⟩ | ⟨s, s', hx, hy, hs⟩
  · rw [Triad.writerRef, writer?, hx, Triad.writerRef, writer?, hy]
  · rw [Triad.writerRef, writer?, hx, Triad.writerRef, writer?, hy]
    exact congrArg Except.ok hs.ref

theorem Matches.forwarderBody (h : x.Matches y) (p : Procedure) (c : Contract) :
    x.forwarderBody p c = y.forwarderBody p c := by
  simp only [Triad.forwarderBody, sendingBody, h.writerRef, h.logicRef]

end Triad

/-! ### The steps of weaving a call -/

namespace TypeDef.Abreast

open TypeEdit

variable {S : Signature → Prop} {m id : ProcedureId} {t u : TypeDef} {p : Procedure}
  {key : SynthKey} {j : Job}

theorem add (h : Abreast S m t u) (ho : p.origin = .synthesized key)
    (hs : p.signature = key.generated) (hS : S key.signature)
    (ht : t.findSynthesized? key = none) (hu : u.findSynthesized? key = none) :
    InStep (Abreast S m) (fun _ _ => True) (TypeEdit.add p t) (TypeEdit.add p u) := by
  have htaken := h.taken key hS
  rcases add_cases ho hs ht with ⟨ht, hadd⟩ | ⟨ht, hadd⟩ <;>
    rcases add_cases ho hs hu with ⟨hu, hadd'⟩ | ⟨hu, hadd'⟩ <;> rw [hadd, hadd']
  · exact .ok trivial (h.push ho hs ht hu)
  · rw [ht.unsigned, hu.signed] at htaken
    cases htaken
  · rw [ht.signed, hu.unsigned] at htaken
    cases htaken
  · rw [clash, h.name, ← clash]
    exact .error _ h

theorem relocateLogic (h : Abreast S m t u) (hid : id ≠ m) (hp : t.procedure? id = some p)
    (hd : p.isDeclared = true) (hS : S p.signature) :
    InStep (Abreast S m) (fun _ _ => True) (relocateLogic id t) (relocateLogic id u) := by
  have hp' := (h.declared id p hid hd).mp hp
  rw [relocateLogic_eq hp, relocateLogic_eq hp']
  rcases h.find_cases ⟨.logic, p.signature⟩ hS with ⟨ht, hu⟩ | ⟨i, k, ht, hu⟩
  · rw [ht, hu]
    have htake := takeBody_eq hp
    have htake' := takeBody_eq hp'
    cases hb : p.body with
    | none =>
      rw [hb] at htake htake'
      simp only
      rw [bind_of_error htake, bind_of_error htake']
      exact .error _ h
    | some body =>
      rw [hb] at htake htake'
      simp only
      rw [bind_of_ok htake, bind_of_ok htake']
      have hclear : Abreast S m (t.clear id) (u.clear id) :=
        h.modify hid hp hd (fun _ => rfl) fun _ => rfl
      exact hclear.add (p := p.logicOf body) rfl rfl hS
        ((findSynthesized?_clear t id _).trans ht) ((findSynthesized?_clear u id _).trans hu)
  · rw [ht, hu]
    exact .ok trivial h

theorem ensureReader (h : Abreast S m t u) (loom : Loom) (hS : S p.signature) (c : Contract)
    (logic : MethodRef) (kind : Kind) :
    InStep (Abreast S m) Stub.Matches (ensureReader loom p c logic kind t)
      (ensureReader loom p c logic kind u) := by
  rw [ensureReader_eq, ensureReader_eq]
  rcases h.find_cases ⟨.reader kind, p.signature⟩ hS with ⟨ht, hu⟩ | ⟨i, k, ht, hu⟩
  · rw [ht, hu]
    cases loom.receiverBody p c kind logic with
    | error e => exact .error e h
    | ok body =>
      refine InStep.bind (h.add (p := p.readerOf kind body) rfl rfl hS ht hu) ?_
      exact fun i k t u _ h => .ok ⟨rfl, rfl⟩ h
  · rw [ht, hu]
    exact .ok ⟨rfl, rfl⟩ h

theorem installWriter (h : Abreast S m t u) (hS : S p.signature) (owner : String) (kind : Kind)
    (body : Body) :
    InStep (Abreast S m) Stub.Matches (installWriter owner p kind body t)
      (installWriter owner p kind body u) := by
  have hreplace : ∀ {v : TypeDef} {i : ProcedureId},
      v.findSynthesized? ⟨.writer kind, p.signature⟩ = some i →
      TypeEdit.installWriter owner p kind body v =
        .ok ⟨kind, i, (⟨.writer kind, p.signature⟩ : SynthKey).ref owner⟩
          (v.modify i fun _ => p.writerOf kind body) := by
    intro v i hi
    rcases installWriter_cases (t := v) owner p kind body with ⟨k, hk, hv⟩ | ⟨hnew, -⟩ | ⟨hclash, -⟩
    · obtain rfl := Option.some.inj (hk.symm.trans hi)
      exact hv
    · cases hnew.absent.symm.trans hi
    · cases hclash.absent.symm.trans hi
  rcases h.find_cases ⟨.writer kind, p.signature⟩ hS with ⟨ht, hu⟩ | ⟨i, k, ht, hu⟩
  · rw [installWriter_eq, installWriter_eq, ht, hu]
    refine InStep.bind (h.add (p := p.writerOf kind body) rfl rfl hS ht hu) ?_
    exact fun i k t u _ h => .ok ⟨rfl, rfl⟩ h
  · rw [hreplace ht, hreplace hu]
    exact .ok ⟨rfl, rfl⟩ (h.replace rfl rfl ht hu)

theorem install (h : Abreast S m t u) (loom : Loom) (hid : j.id ≠ m)
    (hj : t.procedure? j.id = some j.served) (hd : j.served.isDeclared = true)
    (hS : S j.served.signature) (bodies : List (Kind × Body)) :
    InStep (Abreast S m) Triad.Matches
      (install loom t.name j.id j.served j.contract bodies t)
      (install loom u.name j.id j.served j.contract bodies u) := by
  have hj' := (h.declared j.id j.served hid hd).mp hj
  have hrelocate := h.relocateLogic hid hj hd hS
  unfold TypeEdit.install
  rcases ht : TypeEdit.relocateLogic j.id t with ⟨l, t₁⟩ | ⟨e, t₁⟩ <;>
    rcases hu : TypeEdit.relocateLogic j.id u with ⟨l', u₁⟩ | ⟨e', u₁⟩ <;>
    rw [ht, hu] at hrelocate
  · obtain ⟨-, h₁⟩ := hrelocate
    obtain ⟨q, hq, hlogic⟩ := Job.hasLogic_of_relocateLogic hj ht
    obtain ⟨q', hq', hlogic'⟩ := Job.hasLogic_of_relocateLogic hj' hu
    -- the logic has one name in both types, so the receivers that call it have one body
    have href : (⟨t.name, q.name, j.served.types⟩ : MethodRef) =
        ⟨u.name, q'.name, j.served.types⟩ := by
      rw [hlogic.ref_eq h₁.left, hlogic'.ref_eq h₁.right, h₁.name]
    have hname : q.name = q'.name := congrArg MethodRef.name href
    rw [bind_of_ok ht, bind_of_ok hu, bind_of_ok (procedure_of_some hq),
      bind_of_ok (procedure_of_some hq')]
    simp only [← hname, ← h.name]
    have hreaders := InStep.mapM j.contract.kinds.toList
      (fun kind _ v v' hv => hv.ensureReader loom hS j.contract
        ⟨t.name, q.name, j.served.types⟩ kind) h₁
    refine InStep.bind hreaders fun readers readers' t₂ u₂ hreaders h₂ => ?_
    have hwriters := InStep.mapM bodies
      (fun w _ v v' hv => hv.installWriter hS t.name w.1 w.2) h₂
    refine InStep.bind hwriters fun writers writers' t₃ u₃ hwriters h₃ => ?_
    exact .ok ⟨rfl, hwriters, hreaders⟩ h₃
  · cases hrelocate
  · cases hrelocate
  · cases hrelocate with
    | error _ h₁ =>
      rw [bind_of_error ht, bind_of_error hu]
      exact .error _ h₁

theorem stands (h : Abreast S m t u) (hid : j.id ≠ m) (hj : j.Stands t) : j.Stands u := by
  obtain ⟨q, hq, hhead⟩ := hj.here
  exact ⟨hj.declared, q, (h.declared j.id q hid (hj.declared_of hq)).mp hq, hhead⟩

theorem fill (h : Abreast S m t u) (hid : j.id ≠ m) (hj : j.Stands t) (b : Body) :
    Abreast S m (t.fill j.id b) (u.fill j.id b) := by
  obtain ⟨q, hq, -⟩ := hj.here
  exact h.modify hid hq (hj.declared_of hq) (fun _ => rfl) fun _ => rfl

/-- A call of one of the signatures is woven in both types with one result, and still stands. -/
theorem weaveProcedure (h : Abreast S m t u) (loom : Loom) (hid : j.id ≠ m)
    (hj : t.procedure? j.id = some j.served) (hd : j.served.isDeclared = true)
    (hS : S j.served.signature) :
    InStep (fun v v' => Abreast S m v v' ∧ j.Stands v) Triad.Matches
      (loom.weaveProcedure t j.id j.contract j.rpcId).2
      (loom.weaveProcedure u j.id j.contract j.rpcId).2 := by
  have hj' := (h.declared j.id j.served hid hd).mp hj
  have hstands : j.Stands t := ⟨hd, j.served, hj, rfl⟩
  rw [Loom.weaveProcedure, Job.synthesize_eq hj, Loom.weaveProcedure, Job.synthesize_eq hj']
  cases hs : (j.senders loom).2 with
  | error e => exact .error e ⟨h, hstands⟩
  | ok bodies =>
    have hinstall := h.install loom hid hj hd hS bodies
    simp only
    rcases Job.install_cases loom hj hd hs with
      ⟨triad, t₁, ht, hedits, hinstalled⟩ | ⟨e, t₁, ht, hedits, -⟩ <;>
      rcases hu : TypeEdit.install loom u.name j.id j.served j.contract bodies u with
        ⟨triad', u₁⟩ | ⟨e', u₁⟩ <;> rw [ht, hu] at hinstall
    · obtain ⟨hmatch, h₁⟩ := hinstall
      have hstands := hedits.stands hstands
      obtain ⟨b, hb⟩ := hinstalled.forwarderBody_ok j.served
      have hb' : triad'.forwarderBody j.served j.contract = .ok b := by
        rw [← hmatch.forwarderBody, hb]
      rw [ht]
      simp only
      rw [Job.redirect_eq hstands hb, Job.redirect_eq (h₁.stands hid hstands) hb']
      have hfill : j.Edit loom t₁ (t₁.fill j.id b) := .fill t₁ b
      exact .ok hmatch ⟨h₁.fill hid hstands b, hfill.stands hstands⟩
    · cases hinstall
    · cases hinstall
    · cases hinstall with
      | error _ h₁ =>
        rw [ht]
        exact .error _ ⟨h₁, hedits.stands hstands⟩

end TypeDef.Abreast

end RpcLoom
