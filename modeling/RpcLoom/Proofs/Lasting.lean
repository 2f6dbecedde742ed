/-
RpcLoom/Proofs/Lasting.lean

What lasts while the calls of a type are woven.

Design.  A type is canonical if every generated procedure has the signature of
its key and is the first of that signature; then references by name find it.  A
type of declared procedures is canonical, and edits keep it so.  In a canonical
type a clash lasts for ever (`Clashes.edits`), and a call of one signature
spares everything that belongs to a call of another (`Edits.spares`).  Every
generated procedure was made for one of the calls woven so far (`MadeFor`).
-/
import RpcLoom.Proofs.Turns

namespace RpcLoom

namespace TypeDef

/-- Every generated procedure has the signature of its key, and is the first that has it. -/
def Canonical (t : TypeDef) : Prop :=
  ∀ i p key, t.procedure? i = some p → p.origin = .synthesized key →
    p.signature = key.generated ∧ t.findSignature? key.generated = some i

/-- A type that nothing was generated in. -/
def Fresh (t : TypeDef) : Prop :=
  ∀ i p, t.procedure? i = some p → p.isDeclared = true

theorem Fresh.canonical {t : TypeDef} (h : t.Fresh) : t.Canonical := by
  intro i p key hp ho
  have := h i p hp
  exact absurd ho (Procedure.origin_ne_of_isDeclared this _)

/-- A type of declared procedures, all of them with bodies. -/
structure Unwoven (t : TypeDef) : Prop where
  fresh : t.Fresh
  bodies : ∀ i p, t.procedure? i = some p → p.body ≠ none

theorem unwoven_iff {t : TypeDef} :
    t.Unwoven ↔ ∀ p ∈ t.procedures, p.isDeclared = true ∧ p.body.isSome = true := by
  constructor
  · intro h p hp
    obtain ⟨i, hi⟩ := List.mem_iff_getElem?.mp hp
    exact ⟨h.fresh i p hi, Option.isSome_iff_ne_none.mpr (h.bodies i p hi)⟩
  · intro h
    constructor
    · intro i p hp
      exact (h p (List.mem_of_getElem? hp)).1
    · intro i p hp
      exact Option.isSome_iff_ne_none.mp (h p (List.mem_of_getElem? hp)).2

instance (t : TypeDef) : Decidable t.Unwoven := decidable_of_iff _ unwoven_iff.symm

theorem Canonical.find {t : TypeDef} (h : t.Canonical) {key : SynthKey} {i : ProcedureId}
    (hi : t.findSynthesized? key = some i) : t.findSignature? key.generated = some i := by
  obtain ⟨p, hp, ho⟩ := procedure?_of_findSynthesized? hi
  exact (h i p key hp ho).2

theorem findSignature?_push {t : TypeDef} {p : Procedure} {s : Signature}
    (hsig : p.signature = s) (hnone : t.findSignature? s = none) :
    (t.push p).findSignature? s = some t.procedures.length := by
  rw [findSignature?_eq] at hnone ⊢
  simp [push, List.findIdx?_append, hnone, hsig]

/-- Whatever stands behind a type is what was added there, or stood there before. -/
theorem procedure?_push_cases {t : TypeDef} {q p : Procedure} {i : ProcedureId}
    (h : (t.push q).procedure? i = some p) :
    t.procedure? i = some p ∨ i = t.procedures.length ∧ p = q := by
  rcases Nat.lt_trichotomy i t.procedures.length with hlt | rfl | hgt
  · rw [procedure?_push_of_lt hlt] at h
    exact .inl h
  · rw [procedure?_push_length] at h
    exact .inr ⟨rfl, (Option.some.inj h).symm⟩
  · have := lt_of_procedure? h
    rw [push, List.length_append, List.length_singleton] at this
    omega

/-- What stands in a changed type is changed, or stood there before. -/
theorem procedure?_modify_cases {t : TypeDef} {id i : ProcedureId} {f : Procedure → Procedure}
    {p : Procedure} (h : (t.modify id f).procedure? i = some p) :
    ∃ q, t.procedure? i = some q ∧ (p = q ∨ id = i ∧ p = f q) := by
  rw [procedure?_modify] at h
  split at h
  next hid =>
    obtain ⟨q, hq, rfl⟩ := Option.map_eq_some_iff.mp h
    exact ⟨q, hq, .inr ⟨hid, rfl⟩⟩
  next => exact ⟨p, h, .inl rfl⟩

theorem Canonical.push {t : TypeDef} {p : Procedure} {key : SynthKey} (h : t.Canonical)
    (horigin : p.origin = .synthesized key) (hsig : p.signature = key.generated)
    (hnew : t.Lacks key) : (t.push p).Canonical := by
  intro i q k hq ho
  rcases procedure?_push_cases hq with hq | ⟨rfl, rfl⟩
  · obtain ⟨h₁, h₂⟩ := h i q k hq ho
    refine ⟨h₁, findSignature?_of_prefix ?_ h₂⟩
    simp [TypeDef.push]
  · obtain rfl : key = k := by simpa [horigin] using ho
    exact ⟨hsig, findSignature?_push hsig hnew.unsigned⟩

theorem Canonical.modify {t : TypeDef} {id : ProcedureId} {f : Procedure → Procedure}
    (h : t.Canonical) (ho : ∀ p, t.procedure? id = some p → (f p).origin = p.origin)
    (hs : ∀ p, t.procedure? id = some p → (f p).signature = p.signature) :
    (t.modify id f).Canonical := by
  intro i q k hq hk
  rw [findSignature?_eq, Job.signatures_modify hs, ← findSignature?_eq]
  obtain ⟨p, hp, rfl | ⟨rfl, rfl⟩⟩ := procedure?_modify_cases hq
  · exact h i q k hp hk
  · rw [ho p hp] at hk
    rw [hs p hp]
    exact h id p k hp hk

end TypeDef

namespace Job

variable {loom : Loom} {j : Job} {t u : TypeDef}

theorem Edit.canonical (h : j.Edit loom t u) (hc : t.Canonical) : u.Canonical := by
  cases h with
  | clear => exact hc.modify (fun _ _ => rfl) fun _ _ => rfl
  | fill => exact hc.modify (fun _ _ => rfl) fun _ _ => rfl
  | logic _ _ hnew =>
    have hclear : (t.clear j.id).Canonical := hc.modify (fun _ _ => rfl) fun _ _ => rfl
    exact hclear.push rfl rfl (hnew.clear j.id)
  | reader _ _ _ hnew => exact hc.push rfl rfl hnew
  | writer _ hnew => exact hc.push rfl rfl hnew
  | @rewriter kind body i _ hold =>
    obtain ⟨q, hq, ho⟩ := TypeDef.procedure?_of_findSynthesized? hold
    refine hc.modify (fun p hp => ?_) fun p hp => ?_
    · obtain rfl := Option.some.inj (hq.symm.trans hp)
      exact ho.symm
    · obtain rfl := Option.some.inj (hq.symm.trans hp)
      exact (hc i q _ hq ho).1.symm

theorem Edits.canonical (h : j.Edits loom t u) (hc : t.Canonical) : u.Canonical := by
  induction h with
  | refl => exact hc
  | tail _ hstep ih => exact hstep.canonical ih

/-- In a canonical type, edits keep every signature where it is. -/
theorem Edit.signatures_prefix (h : j.Edit loom t u) (hc : t.Canonical) :
    t.procedures.map (·.signature) <+: u.procedures.map (·.signature) := by
  have hsame : ∀ {f : Procedure → Procedure} {i : ProcedureId},
      (∀ p, t.procedure? i = some p → (f p).signature = p.signature) →
      t.procedures.map (·.signature) <+: (t.modify i f).procedures.map (·.signature) :=
    fun hf => (signatures_modify hf) ▸ List.prefix_rfl
  cases h with
  | clear => exact hsame fun _ _ => rfl
  | fill => exact hsame fun _ _ => rfl
  | logic =>
    have := hsame (f := fun p => { p with body := none }) (i := j.id) fun _ _ => rfl
    exact this.trans (by simp [TypeDef.push, TypeDef.clear])
  | reader => simp [TypeDef.push]
  | writer => simp [TypeDef.push]
  | @rewriter kind body i _ hold =>
    obtain ⟨q, hq, ho⟩ := TypeDef.procedure?_of_findSynthesized? hold
    refine hsame fun p hp => ?_
    obtain rfl := Option.some.inj (hq.symm.trans hp)
    exact (hc i q _ hq ho).1.symm

theorem Edits.signatures_prefix (h : j.Edits loom t u) (hc : t.Canonical) :
    t.procedures.map (·.signature) <+: u.procedures.map (·.signature) := by
  induction h with
  | refl => exact List.prefix_rfl
  | tail hs hstep ih => exact ih.trans (hstep.signatures_prefix (Edits.canonical hs hc))

/-! ### Clashes -/

/-- Nothing is found for a key but what was there or was added for it. -/
theorem findSynthesized?_push_of_ne {p : Procedure} {key k : SynthKey}
    (ho : p.origin = .synthesized k) (hne : k ≠ key) :
    (t.push p).findSynthesized? key = t.findSynthesized? key := by
  rw [TypeDef.findSynthesized?_eq, TypeDef.findSynthesized?_eq]
  simp only [TypeDef.push, List.map_append, List.map_cons, List.map_nil, List.findIdx?_append, ho]
  simp [hne]

/-- An edit of a call finds for every key what was found before, unless it adds what the key
lacks. -/
theorem Edit.findSynthesized?_eq (h : j.Edit loom t u) (key : SynthKey) :
    u.findSynthesized? key = t.findSynthesized? key ∨ (∃ role, key = j.key role) ∧ t.Lacks key := by
  have hmod : ∀ {v : TypeDef} {i : ProcedureId} {f : Procedure → Procedure},
      (∀ p, v.procedure? i = some p → (f p).origin = p.origin) →
      (v.modify i f).findSynthesized? key = v.findSynthesized? key := by
    intro v i f hf
    rw [TypeDef.findSynthesized?_eq, TypeDef.findSynthesized?_eq, origins_modify hf]
  have hpush : ∀ {v : TypeDef} {p : Procedure} {role : SynthRole},
      v.findSynthesized? key = t.findSynthesized? key →
      p.origin = .synthesized (j.key role) → t.Lacks (j.key role) →
      (v.push p).findSynthesized? key = t.findSynthesized? key ∨
        (∃ role, key = j.key role) ∧ t.Lacks key := by
    intro v p role hv ho hnew
    by_cases hk : j.key role = key
    · exact .inr ⟨⟨role, hk.symm⟩, hk ▸ hnew⟩
    · exact .inl ((findSynthesized?_push_of_ne ho hk).trans hv)
  cases h with
  | clear => exact .inl (hmod fun _ _ => rfl)
  | fill => exact .inl (hmod fun _ _ => rfl)
  | logic _ _ hnew => exact hpush (hmod fun _ _ => rfl) rfl hnew
  | reader _ _ _ hnew => exact hpush rfl rfl hnew
  | writer _ hnew => exact hpush rfl rfl hnew
  | rewriter _ hold =>
    obtain ⟨q, hq, ho⟩ := TypeDef.procedure?_of_findSynthesized? hold
    refine .inl (hmod fun p hp => ?_)
    obtain rfl := Option.some.inj (hq.symm.trans hp)
    exact ho.symm

/-- A clash lasts. -/
theorem Edit.clashes (h : j.Edit loom t u) (hc : t.Canonical) {key : SynthKey}
    (hk : t.Clashes key) : u.Clashes key := by
  obtain ⟨i, hi⟩ := Option.isSome_iff_exists.mp hk.signed
  refine ⟨?_, ?_⟩
  · rcases h.findSynthesized?_eq key with heq | ⟨-, hl⟩
    · rw [heq, hk.absent]
    · exact absurd hl hk.not_lacks
  · rw [TypeDef.findSignature?_of_prefix (h.signatures_prefix hc) hi]
    rfl

theorem Edits.clashes (h : j.Edits loom t u) (hc : t.Canonical) {key : SynthKey}
    (hk : t.Clashes key) : u.Clashes key := by
  induction h with
  | refl => exact hk
  | tail hs hstep ih => exact hstep.clashes (Edits.canonical hs hc) ih

/-- In a canonical type the logic of a call is called by its own name. -/
theorem HasLogic.ref_eq {l : ProcedureId} {ref : MethodRef} (h : j.HasLogic t l ref)
    (hc : t.Canonical) : ref = (j.key .logic).ref t.name := by
  obtain ⟨q, hq, rfl⟩ := h.named
  obtain ⟨q', hq', ho⟩ := TypeDef.procedure?_of_findSynthesized? h.found
  obtain rfl := Option.some.inj (hq.symm.trans hq')
  have hsig := (hc l q _ hq ho).1
  have hname : q.name = (j.key .logic).mangledName := congrArg Signature.name hsig
  rw [hname]
  rfl

/-! ### What weaving a call makes -/

/-- A procedure is what weaving a call makes: its logic, a receiver or a sender. -/
inductive Makes (loom : Loom) (j : Job) : Procedure → Prop
  | logic {body : Body} (hbody : j.served.body = some body) : Makes loom j (j.served.logicOf body)
  | reader {kind : Kind} {logic : MethodRef} {body : Body}
      (hbody : loom.receiverBody j.served j.contract kind logic = .ok body) :
      Makes loom j (j.served.readerOf kind body)
  | writer {kind : Kind} {body : Body} (hkind : kind ∈ j.contract.kinds.toList)
      (hbody : loom.senderBody j.served j.contract j.rpcId kind = .ok body) :
      Makes loom j (j.served.writerOf kind body)

/-- What an edit leaves anywhere but in the call was there before, or the edit made it. -/
theorem Edit.kept_or_made (h : j.Edit loom t u) {i : ProcedureId} {p : Procedure}
    (hp : u.procedure? i = some p) (hid : i ≠ j.id) :
    t.procedure? i = some p ∨ j.Makes loom p := by
  have hsame : ∀ {v : TypeDef} {f : Procedure → Procedure},
      (v.modify j.id f).procedure? i = some p → v.procedure? i = some p := by
    intro v f hv
    rwa [TypeDef.procedure?_modify, if_neg (Ne.symm hid)] at hv
  cases h with
  | clear => exact .inl (hsame hp)
  | fill => exact .inl (hsame hp)
  | logic _ hbody =>
    rcases TypeDef.procedure?_push_cases hp with hp | ⟨-, rfl⟩
    · exact .inl (hsame hp)
    · exact .inr (.logic hbody)
  | reader _ _ hbody =>
    rcases TypeDef.procedure?_push_cases hp with hp | ⟨-, rfl⟩
    · exact .inl hp
    · exact .inr (.reader hbody)
  | writer hbody _ hkind =>
    rcases TypeDef.procedure?_push_cases hp with hp | ⟨-, rfl⟩
    · exact .inl hp
    · exact .inr (.writer hkind hbody)
  | rewriter hbody _ hkind =>
    obtain ⟨q, hq, rfl | ⟨-, rfl⟩⟩ := TypeDef.procedure?_modify_cases hp
    · exact .inl hq
    · exact .inr (.writer hkind hbody)

theorem Edits.kept_or_made (h : j.Edits loom t u) {i : ProcedureId} {p : Procedure}
    (hp : u.procedure? i = some p) (hid : i ≠ j.id) :
    t.procedure? i = some p ∨ j.Makes loom p := by
  induction h with
  | refl => exact .inl hp
  | tail _ hstep ih =>
    rcases hstep.kept_or_made hp hid with hp | hmade
    · exact ih hp
    · exact .inr hmade

/-! ### What generated procedures are made for -/

/-- A procedure was generated for a call of the type `owner`. -/
inductive MadeFor (loom : Loom) (j : Job) (owner : String) : Procedure → Prop
  | logic {body : Body} (hbody : j.served.body = some body) :
      MadeFor loom j owner (j.served.logicOf body)
  | reader {kind : Kind} {body : Body} (hkind : kind ∈ j.contract.kinds.toList)
      (hbody : loom.receiverBody j.served j.contract kind ((j.key .logic).ref owner) = .ok body) :
      MadeFor loom j owner (j.served.readerOf kind body)
  | writer {kind : Kind} {body : Body}
      (hbody : loom.senderBody j.served j.contract j.rpcId kind = .ok body)
      (hkind : kind ∈ j.contract.kinds.toList) :
      MadeFor loom j owner (j.served.writerOf kind body)

theorem MadeFor.origin {owner : String} {p : Procedure} (h : j.MadeFor loom owner p) :
    ∃ role, p.origin = .synthesized (j.key role) := by
  cases h with
  | logic | reader | writer => exact ⟨_, rfl⟩

theorem MadeFor.of_logic {owner : String} {p : Procedure} {s : Signature}
    (h : j.MadeFor loom owner p) (ho : p.origin = .synthesized ⟨.logic, s⟩) :
    j.served.signature = s ∧ ∃ body, j.served.body = some body ∧ p = j.served.logicOf body := by
  have hkey := fun {key} (hown : p.origin = .synthesized key) =>
    Origin.synthesized.inj (hown.symm.trans ho)
  cases h with
  | reader | writer => cases congrArg SynthKey.role (hkey rfl)
  | logic hbody => exact ⟨congrArg SynthKey.signature (hkey rfl), _, hbody, rfl⟩

theorem MadeFor.of_reader {owner : String} {p : Procedure} {kind : Kind} {s : Signature}
    (h : j.MadeFor loom owner p) (ho : p.origin = .synthesized ⟨.reader kind, s⟩) :
    j.served.signature = s ∧ kind ∈ j.contract.kinds.toList ∧
      ∃ body, loom.receiverBody j.served j.contract kind ((j.key .logic).ref owner) = .ok body ∧
        p = j.served.readerOf kind body := by
  have hkey := fun {key} (hown : p.origin = .synthesized key) =>
    Origin.synthesized.inj (hown.symm.trans ho)
  cases h with
  | logic | writer => cases congrArg SynthKey.role (hkey rfl)
  | @reader k body hkind hbody =>
    obtain rfl : k = kind := SynthRole.reader.inj (congrArg SynthKey.role (hkey rfl))
    exact ⟨congrArg SynthKey.signature (hkey rfl), hkind, body, hbody, rfl⟩

/-- A generated procedure was there before an edit, or the edit made it, and then the logic of the
call is there. -/
theorem Edit.madeFor (h : j.Edit loom t u) (hc : t.Canonical) (hj : j.Stands t)
    {i : ProcedureId} {p : Procedure} (hp : u.procedure? i = some p)
    (hd : p.isDeclared = false) : t.procedure? i = some p ∨
      j.MadeFor loom t.name p ∧ ∃ l, u.findSynthesized? (j.key .logic) = some l := by
  have hgrows := h.grows
  -- the procedure that is woven is a declared one, and so none of the generated ones
  have hbody : ∀ {v : TypeDef} {f : Procedure → Procedure}, (∀ q, (f q).isDeclared = q.isDeclared) →
      j.Stands v → (v.modify j.id f).procedure? i = some p → v.procedure? i = some p := by
    intro v f hf hv hvp
    obtain ⟨q, hq, rfl | ⟨rfl, rfl⟩⟩ := TypeDef.procedure?_modify_cases hvp
    · exact hq
    · obtain ⟨hdecl, r, hr, hhead⟩ := hv
      obtain rfl := Option.some.inj (hq.symm.trans hr)
      rw [hf, ← q.isDeclared_heading, hhead, Procedure.isDeclared_heading, hdecl] at hd
      cases hd
  cases h with
  | clear => exact .inl (hbody (f := fun p => { p with body := none }) (fun _ => rfl) hj hp)
  | fill b => exact .inl (hbody (f := (·.withBody b)) (fun _ => rfl) hj hp)
  | logic _ hb hnew =>
    rcases TypeDef.procedure?_push_cases hp with hp | ⟨-, rfl⟩
    · exact .inl (hbody (f := fun p => { p with body := none }) (fun _ => rfl) hj hp)
    · exact .inr ⟨.logic hb, _, TypeDef.findSynthesized?_push rfl (hnew.clear j.id).absent⟩
  | reader hkind hlogic hb _ =>
    rcases TypeDef.procedure?_push_cases hp with hp | ⟨-, rfl⟩
    · exact .inl hp
    · exact .inr ⟨.reader hkind (hlogic.ref_eq hc ▸ hb), _, hgrows.find hlogic.found⟩
  | writer hb _ hkind hlogic =>
    rcases TypeDef.procedure?_push_cases hp with hp | ⟨-, rfl⟩
    · exact .inl hp
    · exact .inr ⟨.writer hb hkind, _, hgrows.find hlogic.found⟩
  | rewriter hb _ hkind hlogic =>
    obtain ⟨q, hq, rfl | ⟨-, rfl⟩⟩ := TypeDef.procedure?_modify_cases hp
    · exact .inl hq
    · exact .inr ⟨.writer hb hkind, _, hgrows.find hlogic.found⟩

theorem Edits.madeFor (h : j.Edits loom t u) (hc : t.Canonical) (hj : j.Stands t)
    {i : ProcedureId} {p : Procedure} (hp : u.procedure? i = some p)
    (hd : p.isDeclared = false) : t.procedure? i = some p ∨
      j.MadeFor loom t.name p ∧ ∃ l, u.findSynthesized? (j.key .logic) = some l := by
  induction h with
  | refl => exact .inl hp
  | @tail v u hs hstep ih =>
    rcases hstep.madeFor (Edits.canonical hs hc) (Edits.stands hs hj) hp hd with
      hp | ⟨hmade, hlogic⟩
    · rcases ih hp with hp | ⟨hmade, l, hl⟩
      · exact .inl hp
      · exact .inr ⟨hmade, l, hstep.grows.find hl⟩
    · exact .inr ⟨Edits.name_eq hs ▸ hmade, hlogic⟩

/-! ### Sparing a call -/

/-- A type keeps everything that belongs to a call; the code of its logic may change. -/
structure Spares (j : Job) (t u : TypeDef) : Prop where
  name : u.name = t.name
  found : ∀ role, u.findSynthesized? (j.key role) = t.findSynthesized? (j.key role)
  signed : ∀ s, (t.findSignature? s).isSome = true → (u.findSignature? s).isSome = true
  call : ∀ p, t.procedure? j.id = some p → p.isDeclared = true → u.procedure? j.id = some p
  writer : ∀ i p kind, t.procedure? i = some p → p.origin = .synthesized (j.key (.writer kind)) →
    u.procedure? i = some p
  logic : ∀ i p, t.procedure? i = some p → p.origin = .synthesized (j.key .logic) →
    ∃ q, u.procedure? i = some q ∧ q.heading = p.heading

theorem Spares.refl (j : Job) (t : TypeDef) : j.Spares t t :=
  ⟨rfl, fun _ => rfl, fun _ h => h, fun _ h _ => h, fun _ _ _ h _ => h, fun _ p h _ => ⟨p, h, rfl⟩⟩

theorem Spares.trans {v : TypeDef} (h : j.Spares t u) (h' : j.Spares u v) : j.Spares t v := by
  refine ⟨h'.name.trans h.name, fun role => (h'.found role).trans (h.found role),
    fun s hs => h'.signed s (h.signed s hs), fun p hp hd => h'.call p (h.call p hp hd) hd,
    fun i p kind hp ho => h'.writer i p kind (h.writer i p kind hp ho) ho, fun i p hp ho => ?_⟩
  obtain ⟨q, hq, hhead⟩ := h.logic i p hp ho
  have hqo : q.origin = p.origin := by rw [← q.origin_heading, hhead, p.origin_heading]
  obtain ⟨r, hr, hhead'⟩ := h'.logic i q hq (hqo.trans ho)
  exact ⟨r, hr, hhead'.trans hhead⟩

/-- Weaving a call spares the calls of other signatures. -/
theorem Edit.spares {k : Job} (h : j.Edit loom t u) (hc : t.Canonical) (hj : j.Stands t)
    (hid : j.id ≠ k.id) (hs : j.served.signature ≠ k.served.signature) : k.Spares t u := by
  have hkey : ∀ r r', j.key r ≠ k.key r' := by
    intro r r' he
    exact hs (congrArg SynthKey.signature he)
  have hgen : ∀ i p role, t.procedure? i = some p → p.origin = .synthesized (k.key role) →
      u.procedure? i = some p := by
    intro i p role hp ho
    refine h.procedure?_eq hp (hj.ne_of_origin hp ho) fun kind ho' => ?_
    exact hkey (.writer kind) role (by simpa using ho'.symm.trans ho)
  refine ⟨h.name_eq, fun role => ?_, fun s hsome => ?_, fun p hp hd => ?_,
    fun i p kind hp ho => hgen i p _ hp ho, fun i p hp ho => ⟨p, hgen i p _ hp ho, rfl⟩⟩
  · rcases h.findSynthesized?_eq (k.key role) with heq | ⟨⟨r, hr⟩, -⟩
    · exact heq
    · exact absurd hr.symm (hkey r role)
  · obtain ⟨i, hi⟩ := Option.isSome_iff_exists.mp hsome
    rw [TypeDef.findSignature?_of_prefix (h.signatures_prefix hc) hi]
    rfl
  · refine h.procedure?_eq hp hid.symm fun kind ho => ?_
    exact absurd ho (Procedure.origin_ne_of_isDeclared hd _)

theorem Edits.spares {k : Job} (h : j.Edits loom t u) (hc : t.Canonical) (hj : j.Stands t)
    (hid : j.id ≠ k.id) (hs : j.served.signature ≠ k.served.signature) : k.Spares t u := by
  induction h with
  | refl => exact .refl k t
  | tail hedits hstep ih =>
    exact ih.trans (hstep.spares (Edits.canonical hedits hc) (Edits.stands hedits hj) hid hs)

/-! ### What a spared call keeps -/

theorem Spares.clashes {role : SynthRole} (h : j.Spares t u) (hk : t.Clashes (j.key role)) :
    u.Clashes (j.key role) :=
  ⟨(h.found role).trans hk.absent, h.signed _ hk.signed⟩

theorem Spares.clash_eq (h : j.Spares t u) (key : SynthKey) : u.clash key = t.clash key := by
  rw [TypeDef.clash, h.name, TypeDef.clash]

theorem Spares.hasLogic {l : ProcedureId} {ref : MethodRef} (h : j.Spares t u)
    (hl : j.HasLogic t l ref) : j.HasLogic u l ref := by
  obtain ⟨q, hq, rfl⟩ := hl.named
  obtain ⟨q', hq', ho⟩ := TypeDef.procedure?_of_findSynthesized? hl.found
  obtain rfl := Option.some.inj (hq.symm.trans hq')
  obtain ⟨r, hr, hhead⟩ := h.logic l q hq ho
  refine ⟨(h.found .logic).trans hl.found, r, hr, ?_⟩
  have hname : r.heading.name = q.heading.name := by rw [hhead]
  rw [h.name]
  exact congrArg (MethodRef.mk t.name · j.served.types) hname.symm

theorem Spares.hasReader {kind : Kind} {s : Stub} (h : j.Spares t u) (hr : j.HasReader t kind s) :
    j.HasReader u kind s :=
  ⟨hr.serves, (h.found _).trans hr.found, by rw [hr.ref, h.name]⟩

theorem Spares.hasWriter {w : Kind × Body} {s : Stub} (h : j.Spares t u) (hw : j.HasWriter t w s) :
    j.HasWriter u w s :=
  ⟨hw.serves, (h.found _).trans hw.found, by rw [hw.ref, h.name],
    h.writer s.id _ w.1 hw.current rfl⟩

theorem Spares.installed {triad : Triad} (h : j.Spares t u) (hi : Installed loom j t triad) :
    Installed loom j u triad := by
  obtain ⟨bodies, hs, hwriters⟩ := hi.writers
  exact ⟨h.hasLogic hi.logic, hi.readers.imp fun _ _ => h.hasReader, bodies, hs,
    hwriters.imp fun _ _ => h.hasWriter⟩

theorem Spares.stuck {e : SynthesisError} (h : j.Spares t u) (hs : Stuck loom j t e) :
    Stuck loom j u e := by
  cases hs with
  | sender hs => exact .sender hs
  | pending hs hnone hbody => exact .pending hs ((h.found _).trans hnone) hbody
  | logic hs hk => exact h.clash_eq _ ▸ .logic hs (h.clashes hk)
  | reader hs hl hkinds hbefore hrefused =>
    refine .reader hs (h.hasLogic hl) hkinds (hbefore.imp fun _ _ => h.hasReader) ?_
    cases hrefused with
    | body hnone hbody => exact .body ((h.found _).trans hnone) hbody
    | clash hbody hk => exact h.clash_eq _ ▸ .clash hbody (h.clashes hk)
  | writer hs hl hreaders hbodies hbefore hk =>
    exact h.clash_eq _ ▸ .writer hs (h.hasLogic hl) (hreaders.imp fun _ _ => h.hasReader) hbodies
      (hbefore.imp fun _ _ => h.hasWriter) (h.clashes hk)

theorem Spares.left {f : Fate} (h : j.Spares t u) (hd : j.served.isDeclared = true)
    (hf : f.Left loom j t) : f.Left loom j u := by
  cases f with
  | woven triad b => exact ⟨h.installed hf.installed, hf.forwarder, h.call _ hf.here hd⟩
  | cleared e => exact ⟨h.stuck hf.stuck, h.call _ hf.here hd⟩

end Job

/-! ### The same for a sequence of turns -/

section

variable {loom : Loom} {w w' : TypeWeaving} {turns : List (Job × Fate)} {j k : Job} {f : Fate}

theorem Turn.stands (h : Turn loom w j f w') : j.Stands w.type := ⟨h.declared, _, h.here, rfl⟩

namespace Turns

theorem canonical (h : Turns loom w turns w') (hc : w.type.Canonical) : w'.type.Canonical := by
  induction h with
  | nil => exact hc
  | cons hturn _ ih => exact ih (hturn.edits.canonical hc)

theorem clashes (h : Turns loom w turns w') (hc : w.type.Canonical) {key : SynthKey}
    (hk : w.type.Clashes key) : w'.type.Clashes key := by
  induction h with
  | nil => exact hk
  | cons hturn _ ih => exact ih (hturn.edits.canonical hc) (hturn.edits.clashes hc hk)

theorem grows (h : Turns loom w turns w') : w.type.Grows w'.type := by
  induction h with
  | nil => exact .refl _
  | cons hturn _ ih => exact hturn.edits.grows.trans ih

/-- A generated procedure was there before the first turn, or was made for a call that had its
turn. -/
theorem madeFor (h : Turns loom w turns w') (hc : w.type.Canonical) {i : ProcedureId}
    {p : Procedure} (hp : w'.type.procedure? i = some p) (hd : p.isDeclared = false) :
    w.type.procedure? i = some p ∨ ∃ x ∈ turns, x.1.MadeFor loom w.type.name p := by
  induction h with
  | nil => exact .inl hp
  | cons hturn _ ih =>
    rcases ih (hturn.edits.canonical hc) hp with hp | ⟨x, hx, hmade⟩
    · rcases hturn.edits.madeFor hc hturn.stands hp hd with hp | ⟨hmade, -⟩
      · exact .inl hp
      · exact .inr ⟨_, List.mem_cons_self, hmade⟩
    · exact .inr ⟨x, List.mem_cons_of_mem _ hx, hturn.edits.name_eq ▸ hmade⟩

/-- If all procedures were declared before the first turn, the generated ones were made in turns. -/
theorem madeFor_of_fresh (h : Turns loom w turns w') (hfresh : w.type.Fresh) {i : ProcedureId}
    {p : Procedure} (hp : w'.type.procedure? i = some p) (hd : p.isDeclared = false) :
    ∃ x ∈ turns, x.1.MadeFor loom w.type.name p := by
  rcases h.madeFor hfresh.canonical hp hd with hstart | hmade
  · cases hd.symm.trans (hfresh i p hstart)
  · exact hmade

/-- The turns of other calls spare a call. -/
theorem spares (h : Turns loom w turns w') (hc : w.type.Canonical)
    (hk : ∀ x ∈ turns, x.1.id ≠ k.id ∧ x.1.served.signature ≠ k.served.signature) :
    k.Spares w.type w'.type := by
  induction h with
  | nil => exact .refl k _
  | cons hturn _ ih =>
    obtain ⟨hid, hs⟩ := hk _ List.mem_cons_self
    exact (hturn.edits.spares hc hturn.stands hid hs).trans
      (ih (hturn.edits.canonical hc) fun x hx => hk x (List.mem_cons_of_mem _ hx))

end Turns

/-- No two calls share their position or their signature. -/
def Apart (turns : List (Job × Fate)) : Prop :=
  turns.Pairwise fun x y =>
    y.1.id ≠ x.1.id ∧ y.1.served.signature ≠ x.1.served.signature

/-- What a turn leaves, the later turns keep. -/
theorem Turns.left (h : Turns loom w turns w') (hc : w.type.Canonical) (ha : Apart turns)
    {x : Job × Fate} (hx : x ∈ turns) : x.2.Left loom x.1 w'.type := by
  induction h with
  | nil => cases hx
  | cons hturn hrest ih =>
    obtain ⟨hlater, ha⟩ := List.pairwise_cons.mp ha
    rcases List.mem_cons.mp hx with rfl | hx
    · exact (hrest.spares (hturn.edits.canonical hc) hlater).left hturn.declared hturn.left
    · exact ih (hturn.edits.canonical hc) ha hx

end

end RpcLoom
