/-
RpcLoom/Proofs/Forwarding.lean

A woven call forwards to its senders, and weaving it again does nothing.

Design.  A call whose procedures are installed has a sender for each of its
kinds, so its forwarder can always be made (`forwarderBody_ok`).  Weaving a
call therefore ends installed or stuck (`weaveProcedure_cases`).  Conversely,
weaving a call in a type where it is installed and forwards already gives the
same triad and the same type; where it is stuck, the same failure, and the type
is the same once the call is cleared again.
-/
import RpcLoom.Proofs.CallOutcome

namespace RpcLoom

open TypeEdit

theorem TypeDef.modify_eq_self {t : TypeDef} {id : ProcedureId} {p : Procedure}
    {f : Procedure → Procedure} (h : t.procedure? id = some p) (hf : f p = p) :
    t.modify id f = t := by
  obtain ⟨n, b, ps⟩ := t
  rw [TypeDef.modify, TypeDef.mk.injEq]
  refine ⟨rfl, rfl, ?_⟩
  apply List.ext_getElem?
  intro k
  by_cases hk : id = k
  · subst hk
    have hp : ps[id]? = some p := h
    simp [hp, hf]
  · simp [hk]

namespace Triad

/-- A forwarder depends on what it forwards to, and on the name and the number of parameters of
the procedure it is for. -/
theorem forwarderBody_congr (triad : Triad) {p q : Procedure} (h : p.heading = q.heading)
    (c : Contract) : triad.forwarderBody p c = triad.forwarderBody q c := by
  rw [Procedure.eq_of_heading_eq h]
  rfl

end Triad

namespace Job

variable {loom : Loom} {j : Job} {t u : TypeDef}

/-- The stub for a kind is among stubs for a list of kinds. -/
theorem find?_stub {α : Type} {R : α → Stub → Prop} {f : α → Kind} {as : List α}
    {stubs : List Stub} (hR : ∀ a s, R a s → s.kind = f a) (h : List.Forall₂ R as stubs)
    {kind : Kind} (hkind : kind ∈ as.map f) :
    ∃ a ∈ as, ∃ s, stubs.find? (·.kind == kind) = some s ∧ R a s ∧ f a = kind := by
  induction h with
  | nil => cases hkind
  | @cons a s as stubs has _ ih =>
    have hs := hR a s has
    by_cases hk : f a = kind
    · exact ⟨a, by simp, s, by simp [hs, hk], has, hk⟩
    · have hrest : kind ∈ as.map f := by
        rcases List.mem_cons.mp hkind with h | h
        · exact absurd h.symm hk
        · exact h
      obtain ⟨a', ha', s', hs', hR', hf'⟩ := ih hrest
      refine ⟨a', by simp [ha'], s', ?_, hR', hf'⟩
      rw [List.find?_cons_of_neg (by simpa [hs] using hk)]
      exact hs'

/-- The sender for each kind of an installed call. -/
theorem Installed.writer? {triad : Triad} (h : Installed loom j t triad) {kind : Kind}
    (hkind : kind ∈ j.contract.kinds.toList) :
    ∃ s body, triad.writer? kind = some s ∧ j.HasWriter t (kind, body) s ∧
      loom.senderBody j.served j.contract j.rpcId kind = .ok body := by
  obtain ⟨bodies, hs, hall⟩ := h.writers
  obtain ⟨hkinds, hmade⟩ := Loom.senderBodies_spec hs
  rw [← hkinds] at hkind
  obtain ⟨w, hmem, s, hfind, hw, rfl⟩ := find?_stub (fun _ _ hw => hw.serves) hall hkind
  exact ⟨s, w.2, hfind, hw, hmade w hmem⟩

/-- It is called by its own name. -/
theorem Installed.writerRef {triad : Triad} (h : Installed loom j t triad) (kind : Kind)
    (hkind : kind ∈ j.contract.kinds.toList) (name : String) :
    triad.writerRef name kind = .ok ((j.key (.writer kind)).ref t.name) := by
  obtain ⟨s, body, hfind, hw, -⟩ := h.writer? hkind
  rw [Triad.writerRef, hfind]
  exact congrArg _ hw.ref

/-- The receiver for each kind of an installed call. -/
theorem Installed.reader? {triad : Triad} (h : Installed loom j t triad) {kind : Kind}
    (hkind : kind ∈ j.contract.kinds.toList) :
    ∃ s, triad.reader? kind = some s ∧ j.HasReader t kind s := by
  have hkind' : kind ∈ j.contract.kinds.toList.map fun k => k := by simpa using hkind
  obtain ⟨_, -, s, hfind, hs, rfl⟩ :=
    find?_stub (f := fun k => k) (fun _ _ hs => hs.serves) h.readers hkind'
  exact ⟨s, hfind, hs⟩

/-- What a forwarder of an installed call sends. -/
theorem Installed.forwarderBody_ok {triad : Triad} (h : Installed loom j t triad)
    (p : Procedure) : ∃ b, triad.forwarderBody p j.contract = .ok b := by
  have hsend : ∃ b, triad.sendingBody p j.contract.kinds = .ok b := by
    unfold Triad.sendingBody
    cases hk : j.contract.kinds with
    | single kind =>
      have := h.writerRef kind (by simp [hk, KindSet.toList]) p.name
      exact ⟨_, by simp only [this]; rfl⟩
    | observersAndTarget =>
      have hone := h.writerRef .target (by simp [hk, KindSet.toList]) p.name
      have hall := h.writerRef .observers (by simp [hk, KindSet.toList]) p.name
      exact ⟨_, by simp only [hone, hall]; rfl⟩
  obtain ⟨b, hb⟩ := hsend
  exact ⟨_, by simp only [Triad.forwarderBody, hb]; rfl⟩

/-! ### Weaving a call -/

theorem synthesize_eq (hj : t.procedure? j.id = some j.served) :
    loom.synthesize t j.id j.contract j.rpcId =
      ((j.senders loom).1,
        match (j.senders loom).2 with
        | .error e => .error e t
        | .ok bodies => install loom t.name j.id j.served j.contract bodies t) := by
  simp only [Loom.synthesize, TypeDef.procedure, hj, senders]
  rcases loom.senderBodies j.served j.contract j.rpcId j.contract.kinds.toList with ⟨log, _ | _⟩ <;>
    rfl

/-- A forwarder is put into a call that is there. -/
theorem redirect_eq {triad : Triad} {b : Body} (hj : j.Stands t)
    (hb : triad.forwarderBody j.served j.contract = .ok b) :
    t.redirect j.id j.contract triad = .ok (t.fill j.id b) := by
  obtain ⟨-, q, hq, hhead⟩ := hj
  rw [TypeDef.redirect, TypeDef.procedure, hq]
  show (do
    let body ← triad.forwarderBody q j.contract
    Except.ok (t.modify j.id (·.withBody body))) = _
  rw [triad.forwarderBody_congr hhead, hb]
  rfl

/-- What is left in a type where weaving a call succeeded. -/
structure Woven (loom : Loom) (j : Job) (t : TypeDef) (triad : Triad) (b : Body) : Prop where
  installed : Installed loom j t triad
  forwarder : triad.forwarderBody j.served j.contract = .ok b
  here : t.procedure? j.id = some (j.served.withBody b)

/-- What is left in a type where weaving a call failed and the call was cleared. -/
structure Cleared (loom : Loom) (j : Job) (t : TypeDef) (e : SynthesisError) : Prop where
  stuck : Stuck loom j t e
  here : t.procedure? j.id = some (j.served.withBody .justLeave)

/-- Weaving a call ends with the call woven, or stuck, and makes edits only. -/
theorem weaveProcedure_cases (loom : Loom) (hj : t.procedure? j.id = some j.served)
    (hd : j.served.isDeclared = true) :
    (∃ triad b u, loom.weaveProcedure t j.id j.contract j.rpcId =
        ((j.senders loom).1, .ok triad u) ∧ j.Edits loom t u ∧ Woven loom j u triad b) ∨
    (∃ e u, loom.weaveProcedure t j.id j.contract j.rpcId =
        ((j.senders loom).1, .error e u) ∧ j.Edits loom t (u.fill j.id .justLeave) ∧
        Cleared loom j (u.fill j.id .justLeave) e) := by
  have hstands : j.Stands t := ⟨hd, j.served, hj, rfl⟩
  -- a call that failed is left with a body that does nothing, whatever was done before
  have hfail : ∀ {e u}, j.Edits loom t u → Stuck loom j u e →
      j.Edits loom t (u.fill j.id .justLeave) ∧ Cleared loom j (u.fill j.id .justLeave) e := by
    intro e u he hstuck
    have hu := he.stands hstands
    exact ⟨he.tail (.fill u _), hstuck.fill hu _, hu.procedure?_fill _⟩
  rw [Loom.weaveProcedure, synthesize_eq hj]
  cases hs : (j.senders loom).2 with
  | error e => exact .inr ⟨e, t, rfl, hfail .refl (.sender hs)⟩
  | ok bodies =>
    rcases install_cases loom hj hd hs with
      ⟨triad, u, h, he, hin⟩ | ⟨e, u, h, he, hstuck⟩
    · have hu := he.stands hstands
      obtain ⟨b, hb⟩ := hin.forwarderBody_ok j.served
      refine .inl ⟨triad, b, u.fill j.id b, ?_, he.tail (.fill u b), hin.fill hu b, hb,
        hu.procedure?_fill b⟩
      simp only [h, redirect_eq hu hb]
    · exact .inr ⟨e, u, by simp only [h], hfail he hstuck⟩

/-! ### Weaving a call again -/

theorem HasReader.eq {kind : Kind} {s : Stub} (h : j.HasReader t kind s) :
    s = ⟨kind, s.id, (j.key (.reader kind)).ref t.name⟩ := by
  rw [← h.ref, ← h.serves]

theorem HasWriter.eq {w : Kind × Body} {s : Stub} (h : j.HasWriter t w s) :
    s = ⟨w.1, s.id, (j.key (.writer w.1)).ref t.name⟩ := by
  rw [← h.ref, ← h.serves]

/-- A receiver that is there is left as it is. -/
theorem HasReader.again {l : ProcedureId} {ref : MethodRef} {kind : Kind} {s : Stub}
    (h : j.HasReader t kind s) (loom : Loom) (hlogic : j.HasLogic t l ref) :
    ensureReader loom j.served j.contract ref kind t = .ok s t := by
  obtain ⟨q, -, rfl⟩ := hlogic.named
  rcases ensureReader_cases loom j.served j.contract ⟨t.name, q.name, j.served.types⟩ kind with
    ⟨i, hi, h'⟩ | ⟨hnone, -⟩ | ⟨_, -, hnew, -⟩ | ⟨_, -, hclash, -⟩
  · obtain rfl := Option.some.inj (hi.symm.trans h.found)
    exact h'.trans (congrArg (EStateM.Result.ok · t) h.eq.symm)
  · cases hnone.symm.trans h.found
  · cases hnew.absent.symm.trans h.found
  · cases hclash.absent.symm.trans h.found

/-- A refused receiver is refused again. -/
theorem ReaderRefused.again {ref : MethodRef} {kind : Kind} {e : SynthesisError}
    (h : ReaderRefused loom j ref t kind e) :
    ensureReader loom j.served j.contract ref kind t = .error e t := by
  rcases ensureReader_cases loom j.served j.contract ref kind with
    ⟨i, hi, -⟩ | ⟨-, e', he', h'⟩ | ⟨_, hok, hnew, -⟩ | ⟨_, hok, -, h'⟩ <;> cases h with
    | body hnone hbody => ?_
    | clash hbody hclash => ?_
  · cases hi.symm.trans hnone
  · cases hi.symm.trans hclash.absent
  · obtain rfl := Except.error.inj (he'.symm.trans hbody)
    exact h'
  · cases he'.symm.trans hbody
  · cases hok.symm.trans hbody
  · exact absurd hnew hclash.not_lacks
  · cases hok.symm.trans hbody
  · exact h'

/-- A sender that is there with the same body is put in its own place. -/
theorem HasWriter.again {w : Kind × Body} {s : Stub} (h : j.HasWriter t w s) :
    installWriter t.name j.served w.1 w.2 t = .ok s t := by
  rcases installWriter_cases t.name j.served w.1 w.2 with
    ⟨i, hi, h'⟩ | ⟨hnew, -⟩ | ⟨hclash, -⟩
  · obtain rfl := Option.some.inj (hi.symm.trans h.found)
    rw [TypeDef.modify_eq_self h.current rfl] at h'
    exact h'.trans (congrArg (EStateM.Result.ok · t) h.eq.symm)
  · cases hnew.absent.symm.trans h.found
  · cases hclash.absent.symm.trans h.found

theorem installWriter_of_clashes {kind : Kind} (h : t.Clashes (j.key (.writer kind)))
    (owner : String) (body : Body) :
    installWriter owner j.served kind body t = .error (t.clash (j.key (.writer kind))) t := by
  rcases installWriter_cases owner j.served kind body with ⟨i, hi, -⟩ | ⟨hnew, -⟩ | ⟨-, h'⟩
  · cases hi.symm.trans h.absent
  · exact absurd hnew h.not_lacks
  · exact h'

theorem HasLogic.again {l : ProcedureId} {ref : MethodRef} (h : j.HasLogic t l ref)
    (hj : t.procedure? j.id = some j.served) : relocateLogic j.id t = .ok l t := by
  rcases relocateLogic_cases hj with
    ⟨l', hl', h'⟩ | ⟨hnone, -⟩ | ⟨_, -, hnew, -⟩ | ⟨_, -, hclash, -⟩
  · obtain rfl := Option.some.inj (hl'.symm.trans h.found)
    exact h'
  · cases hnone.symm.trans h.found
  · cases hnew.absent.symm.trans h.found
  · cases hclash.absent.symm.trans h.found

/-- A call that is installed and forwards stays as it is when it is woven. -/
theorem weaveProcedure_of_installed {triad : Triad} {b : Body}
    (h : Installed loom j t triad) (hb : triad.forwarderBody j.served j.contract = .ok b)
    (hj : t.procedure? j.id = some j.served) (hbody : j.served.body = some b) :
    loom.weaveProcedure t j.id j.contract j.rpcId = ((j.senders loom).1, .ok triad t) := by
  obtain ⟨bodies, hs, hwriters⟩ := h.writers
  have hinstall : install loom t.name j.id j.served j.contract bodies t = .ok triad t := by
    obtain ⟨q, hq, href⟩ := h.logic.named
    have hreaders := mapM_of_forall₂ (h.readers.imp fun _ _ hr => hr.again loom h.logic)
    have hwrite := mapM_of_forall₂ (hwriters.imp fun _ _ hw => hw.again)
    rw [install, bind_of_ok (h.logic.again hj), bind_of_ok (procedure_of_some hq)]
    simp only
    rw [← href, bind_of_ok hreaders, bind_of_ok hwrite]
    rfl
  have hredirect : t.redirect j.id j.contract triad = .ok t := by
    have hself : j.served.withBody b = j.served := by rw [Procedure.withBody, ← hbody]
    rw [TypeDef.redirect, TypeDef.procedure, hj]
    show (do
      let body ← triad.forwarderBody j.served j.contract
      Except.ok (t.modify j.id (·.withBody body))) = _
    rw [hb]
    exact congrArg _ (TypeDef.modify_eq_self hj hself)
  rw [Loom.weaveProcedure, synthesize_eq hj, hs]
  simp only [hinstall, hredirect]

/-- Bringing in the procedures of a call that is stuck fails in the same way; at most the body is
moved out. -/
theorem install_of_stuck {bodies : List (Kind × Body)} {e : SynthesisError} {b : Body}
    (h : Stuck loom j t e) (hs : (j.senders loom).2 = .ok bodies)
    (hj : t.procedure? j.id = some j.served) (hbody : j.served.body = some b) :
    ∃ u, install loom t.name j.id j.served j.contract bodies t = .error e u ∧
      (u = t ∨ u = t.clear j.id) := by
  cases h with
  | sender h => cases hs.symm.trans h
  | pending _ _ hnone => cases hbody.symm.trans hnone
  | logic _ hclash =>
    rcases relocateLogic_cases hj with
      ⟨l', hl', -⟩ | ⟨-, hnone, -⟩ | ⟨_, -, hnew, -⟩ | ⟨_, -, -, h'⟩
    · cases hclash.absent.symm.trans hl'
    · cases hbody.symm.trans hnone
    · exact absurd hnew hclash.not_lacks
    · exact ⟨_, bind_of_error h' _, .inr rfl⟩
  | @reader _ l ref before after kind stubs _ hs' hl hkinds hbefore hrefused =>
    obtain ⟨q, hq, href⟩ := hl.named
    -- what was added up to the failure is found again, so the run gets just as far
    have hreaders := mapM_of_error after
      (hbefore.imp fun _ _ hr => hr.again loom hl) hrefused.again
    refine ⟨t, ?_, .inl rfl⟩
    rw [install, bind_of_ok (hl.again hj), bind_of_ok (procedure_of_some hq)]
    simp only
    rw [← href, hkinds, bind_of_error hreaders]
  | @writer _ before after l ref readers stubs next hs' hl hreaders hbodies hbefore hclash =>
    obtain rfl := Except.ok.inj (hs'.symm.trans hs)
    obtain ⟨q, hq, href⟩ := hl.named
    have hread := mapM_of_forall₂ (hreaders.imp fun _ _ hr => hr.again loom hl)
    have hwrite := mapM_of_error after (hbefore.imp fun _ _ hw => hw.again)
      (installWriter_of_clashes hclash t.name next.2)
    refine ⟨t, ?_, .inl rfl⟩
    rw [install, bind_of_ok (hl.again hj), bind_of_ok (procedure_of_some hq)]
    simp only
    rw [← href, bind_of_ok hread, hbodies, bind_of_error hwrite]

/-- A call that is stuck and cleared fails in the same way when it is woven, and is as it was once
it is cleared again. -/
theorem weaveProcedure_of_stuck {e : SynthesisError} (h : Stuck loom j t e)
    (hj : t.procedure? j.id = some j.served) (hbody : j.served.body = some .justLeave) :
    ∃ u, loom.weaveProcedure t j.id j.contract j.rpcId = ((j.senders loom).1, .error e u) ∧
      u.fill j.id .justLeave = t := by
  have hself : t.fill j.id .justLeave = t :=
    TypeDef.modify_eq_self hj (by rw [Procedure.withBody, ← hbody])
  have hclear : (t.clear j.id).fill j.id .justLeave = t := by
    rw [TypeDef.fill, TypeDef.clear, TypeDef.modify, TypeDef.modify, List.modify_modify_eq]
    exact hself
  rw [Loom.weaveProcedure, synthesize_eq hj]
  cases hs : (j.senders loom).2 with
  | error e' =>
    cases h with
    | sender h =>
      obtain rfl := Except.error.inj (hs.symm.trans h)
      exact ⟨t, rfl, hself⟩
    | pending hs' | logic hs' | reader hs' | writer hs' => cases hs.symm.trans hs'
  | ok bodies =>
    obtain ⟨u, hu, rfl | rfl⟩ := install_of_stuck h hs hj hbody
    · exact ⟨u, by simp only [hu], hself⟩
    · exact ⟨_, by simp only [hu], hclear⟩

end Job

end RpcLoom
