/-
RpcLoom/Proofs/Again.lean

Weaving a woven type changes nothing.

Design.  The second time, a call looks as its first turn left it: it forwards,
or it does nothing but return.  What is left of its first turn does not depend
on the body it had then (`Fate.Left.withBody`), so the second turn finds the
call installed or stuck and ends as the first one did (`Turn.again`).  Turn by
turn, weaving the final type goes through the same reports and links as weaving
the original one, while the type stays where it is (`Turns.again`).
-/
import RpcLoom.Proofs.Lasting

namespace RpcLoom

/-! ### A call with another body -/

/-- The call with another body. -/
def Job.withBody (j : Job) (b : Body) : Job := { j with served := j.served.withBody b }

namespace Job

variable {loom : Loom} {j : Job} {t : TypeDef}

theorem senderBodies_withBody (loom : Loom) (p : Procedure) (b : Body) (c : Contract) (id : RpcId)
    (kinds : List Kind) :
    loom.senderBodies (p.withBody b) c id kinds = loom.senderBodies p c id kinds := by
  induction kinds with
  | nil => rfl
  | cons kind kinds ih =>
    have hbody : loom.senderBody (p.withBody b) c id kind = loom.senderBody p c id kind := rfl
    have hlog : loom.senderLog (p.withBody b) c kind = loom.senderLog p c kind := rfl
    rw [Loom.senderBodies, Loom.senderBodies, hbody, hlog, ih]

@[simp] theorem senders_withBody (loom : Loom) (j : Job) (b : Body) :
    (j.withBody b).senders loom = j.senders loom :=
  senderBodies_withBody loom j.served b j.contract j.rpcId _

theorem HasLogic.withBody {l : ProcedureId} {ref : MethodRef} (h : j.HasLogic t l ref) (b : Body) :
    (j.withBody b).HasLogic t l ref :=
  ⟨h.found, h.named⟩

theorem HasReader.withBody {kind : Kind} {s : Stub} (h : j.HasReader t kind s) (b : Body) :
    (j.withBody b).HasReader t kind s :=
  ⟨h.serves, h.found, h.ref⟩

theorem HasWriter.withBody {w : Kind × Body} {s : Stub} (h : j.HasWriter t w s) (b : Body) :
    (j.withBody b).HasWriter t w s :=
  ⟨h.serves, h.found, h.ref, h.current⟩

theorem ReaderRefused.withBody {ref : MethodRef} {kind : Kind} {e : SynthesisError}
    (h : ReaderRefused loom j ref t kind e) (b : Body) :
    ReaderRefused loom (j.withBody b) ref t kind e := by
  cases h with
  | body hnone hbody => exact .body (j := j.withBody b) hnone hbody
  | clash hbody hclash => exact .clash (j := j.withBody b) hbody hclash

theorem Installed.withBody {triad : Triad} (h : Installed loom j t triad) (b : Body) :
    Installed loom (j.withBody b) t triad := by
  obtain ⟨bodies, hs, hwriters⟩ := h.writers
  exact ⟨h.logic.withBody b, h.readers.imp fun _ _ hr => hr.withBody b, bodies,
    by rw [senders_withBody]; exact hs, hwriters.imp fun _ _ hw => hw.withBody b⟩

theorem Stuck.withBody {e : SynthesisError} (h : Stuck loom j t e) (hbody : j.served.body ≠ none)
    (b : Body) : Stuck loom (j.withBody b) t e := by
  have hsenders : ∀ {x}, (j.senders loom).2 = x → ((j.withBody b).senders loom).2 = x :=
    fun hx => by rw [senders_withBody]; exact hx
  cases h with
  | sender hs => exact .sender (hsenders hs)
  | pending _ _ hnone => exact absurd hnone hbody
  | logic hs hk => exact .logic (j := j.withBody b) (hsenders hs) hk
  | reader hs hl hkinds hbefore hrefused =>
    exact .reader (j := j.withBody b) (hsenders hs) (hl.withBody b) hkinds
      (hbefore.imp fun _ _ hr => hr.withBody b) (hrefused.withBody b)
  | writer hs hl hreaders hbodies hbefore hk =>
    exact .writer (j := j.withBody b) (hsenders hs) (hl.withBody b)
      (hreaders.imp fun _ _ hr => hr.withBody b) hbodies (hbefore.imp fun _ _ hw => hw.withBody b)
      hk

/-- Two types that hold the same call and the same logic give it the same link. -/
theorem Spares.logicLink?_eq {u : TypeDef} (h : j.Spares t u) (hd : j.served.isDeclared = true)
    {b : Body} (hhere : t.procedure? j.id = some (j.served.withBody b)) {l : ProcedureId}
    {ref : MethodRef} (hl : j.HasLogic t l ref) : u.logicLink? j.id l = t.logicLink? j.id l := by
  obtain ⟨q, hq, ho⟩ := TypeDef.procedure?_of_findSynthesized? hl.found
  obtain ⟨r, hr, hhead⟩ := h.logic l q hq ho
  have hvirtual : r.isVirtual = q.isVirtual := by
    show r.heading.isVirtual = q.heading.isVirtual
    rw [hhead]
  simp only [TypeDef.logicLink?, h.call _ hhere hd, hhere, hq, hr, h.name]
  show (if r.isVirtual = true then some _ else none) = if q.isVirtual = true then some _ else none
  rw [hvirtual]

end Job

/-! ### Another turn, another run -/

section

variable {loom : Loom} {w w' : TypeWeaving} {turns : List (Job × Fate)} {j : Job} {f : Fate}

/-- A second turn of a call ends as the first one did, and leaves the type as it was. -/
theorem Turn.again (h : Turn loom w j f w') (hbody : j.served.body ≠ none) {F : TypeDef}
    (hF : j.Spares w'.type F) :
    loom.weaveNext { w with type := F } j.id j.contract = { w' with type := F } := by
  have hleft := hF.left h.declared h.left
  have hsecond : loom.weaveNext { w with type := F } j.id j.contract =
      ({ w with type := F } : TypeWeaving).after loom j F f := by
    cases f with
    | woven triad b =>
      have hweave := Job.weaveProcedure_of_installed (j := j.withBody b)
        (hleft.installed.withBody b) hleft.forwarder hleft.here rfl
      rw [Job.senders_withBody, Job.withBody, h.next] at hweave
      rw [Loom.weaveNext, hweave, TypeWeaving.after, h.next]
      rfl
    | cleared e =>
      obtain ⟨u, hweave, hu⟩ := Job.weaveProcedure_of_stuck (j := j.withBody .justLeave)
        (hleft.stuck.withBody hbody _) hleft.here rfl
      rw [Job.senders_withBody, Job.withBody, h.next] at hweave
      rw [Loom.weaveNext, hweave]
      simp only
      rw [show u.modify j.id (·.withBody .justLeave) = F from hu, TypeWeaving.after]
  rw [hsecond]
  have hafter := h.after
  cases f with
  | woven triad b =>
    have hlink := hF.logicLink?_eq h.declared h.left.here h.left.installed.logic
    rw [hafter]
    simp only [TypeWeaving.after, hlink]
  | cleared e =>
    rw [hafter]
    simp only [TypeWeaving.after]

/-- All second turns together change nothing in the type. -/
theorem Turns.again (h : Turns loom w turns w') (hc : w.type.Canonical) (ha : Apart turns)
    (hbody : ∀ x ∈ turns, x.1.served.body ≠ none) {F : TypeDef}
    (hF : ∀ x ∈ turns, x.1.Spares w'.type F) :
    turns.foldl (fun w x => loom.weaveNext w x.1.id x.1.contract) { w with type := F } =
      { w' with type := F } := by
  induction h with
  | nil => rfl
  | cons hturn hrest ih =>
    obtain ⟨hlater, ha⟩ := List.pairwise_cons.mp ha
    have hc' := hturn.edits.canonical hc
    have hfirst := hturn.again (hbody _ List.mem_cons_self)
      ((hrest.spares hc' hlater).trans (hF _ List.mem_cons_self))
    rw [List.foldl_cons, hfirst]
    exact ih hc' ha (fun x hx => hbody x (List.mem_cons_of_mem _ hx))
      fun x hx => hF x (List.mem_cons_of_mem _ hx)

end

/-- Weaving a woven type gives the same result again, and the type as it was. -/
theorem Loom.weaveTypeDef_again {loom : Loom} {t F : TypeDef} {counter : IdCounter} {log : Log}
    {w : TypeWeaving} {turns : List (Job × Fate)}
    (h : loom.weaveTypeDef t counter = (log, .ok w))
    (hturns : Turns loom (loom.beginType t counter) turns w)
    (hmap : turns.map (fun x => (x.1.id, x.1.contract)) = t.contracts loom.codec)
    (hc : t.Canonical) (ha : Apart turns) (hbody : ∀ x ∈ turns, x.1.served.body ≠ none)
    (hF : ∀ x ∈ turns, x.1.Spares w.type F) (houtline : F.outline = t.outline) :
    loom.weaveTypeDef F counter = (log, .ok { w with type := F }) := by
  obtain ⟨hfits, rfl, -⟩ := turns_of_weaveTypeDef h
  have hbegin : loom.beginType F counter = { loom.beginType t counter with type := F } := by
    simp only [Loom.beginType, TypeDef.rejections_congr houtline]
  have hfold := hturns.again hc ha hbody hF
  rw [← hbegin] at hfold
  rw [← TypeDef.contracts_congr houtline] at hfits
  simp only [Loom.weaveTypeDef, hfits, if_true]
  rw [TypeDef.contracts_congr houtline, ← hmap, List.foldl_map]
  exact congrArg (fun woven => (woven.log, Except.ok woven)) hfold

end RpcLoom
