/-
RpcLoom/Proofs/CallOutcome.lean

How the installation of one remote call ends.

Design.  `Installed` says that all procedures generated for a call are in a
type, `Stuck` says at which step an installation cannot go on and why.  Both
are read off the type alone, and neither looks at the body of the call itself.
An installation leaves one of the two (`install_cases`).
-/
import RpcLoom.Proofs.CallWeaving

namespace RpcLoom

open Relation (ReflTransGen)

open TypeEdit

namespace Loom

/-- Senders are made for all kinds, in order, if any are. -/
theorem senderBodies_spec {loom : Loom} {p : Procedure} {c : Contract} {id : RpcId}
    {kinds : List Kind} {bodies : List (Kind × Body)}
    (h : (loom.senderBodies p c id kinds).2 = .ok bodies) :
    bodies.map (·.1) = kinds ∧ ∀ w ∈ bodies, loom.senderBody p c id w.1 = .ok w.2 := by
  induction kinds generalizing bodies with
  | nil =>
    obtain rfl : bodies = [] := by simpa [senderBodies] using h.symm
    simp
  | cons kind kinds ih =>
    unfold senderBodies at h
    cases hb : loom.senderBody p c id kind with
    | error e => simp [hb] at h
    | ok b =>
      simp only [hb] at h
      cases hrest : (loom.senderBodies p c id kinds).2 with
      | error e => simp [hrest, Except.map] at h
      | ok more =>
        obtain rfl : bodies = (kind, b) :: more := by simpa [hrest, Except.map] using h.symm
        obtain ⟨hkinds, hall⟩ := ih hrest
        refine ⟨by simp [hkinds], fun w hw => ?_⟩
        rcases List.mem_cons.mp hw with rfl | hw
        · exact hb
        · exact hall w hw

end Loom

namespace Job

variable {loom : Loom} {j : Job} {t u : TypeDef} {bodies : List (Kind × Body)}

/-- What is said while the senders of a call are made, and the senders or the failure. -/
def senders (loom : Loom) (j : Job) : Log × Except SynthesisError (List (Kind × Body)) :=
  loom.senderBodies j.served j.contract j.rpcId j.contract.kinds.toList

/-- All procedures generated for a call are in a type, as a triad says. -/
structure Installed (loom : Loom) (j : Job) (t : TypeDef) (triad : Triad) : Prop where
  logic : j.HasLogic t triad.logic triad.logicRef
  readers : List.Forall₂ (j.HasReader t) j.contract.kinds.toList triad.readers
  writers : ∃ bodies, (j.senders loom).2 = .ok bodies ∧
    List.Forall₂ (j.HasWriter t) bodies triad.writers

/-- Why the procedures for a call cannot all be in a type. -/
inductive Stuck (loom : Loom) (j : Job) (t : TypeDef) : SynthesisError → Prop
  /-- A sender cannot be made. -/
  | sender {e : SynthesisError} (h : (j.senders loom).2 = .error e) : Stuck loom j t e
  /-- There is no body for the logic to take. -/
  | pending {bodies : List (Kind × Body)} (hs : (j.senders loom).2 = .ok bodies)
      (hnone : t.findSynthesized? (j.key .logic) = none) (hbody : j.served.body = none) :
      Stuck loom j t (.bodyPending j.served.name)
  /-- Another procedure is in the place of the logic. -/
  | logic {bodies : List (Kind × Body)} (hs : (j.senders loom).2 = .ok bodies)
      (h : t.Clashes (j.key .logic)) : Stuck loom j t (t.clash (j.key .logic))
  /-- A receiver cannot be added. -/
  | reader {bodies : List (Kind × Body)} {logic : ProcedureId} {ref : MethodRef}
      {before after : List Kind} {kind : Kind} {stubs : List Stub} {e : SynthesisError}
      (hs : (j.senders loom).2 = .ok bodies) (hlogic : j.HasLogic t logic ref)
      (hkinds : j.contract.kinds.toList = before ++ kind :: after)
      (hbefore : List.Forall₂ (j.HasReader t) before stubs)
      (h : ReaderRefused loom j ref t kind e) : Stuck loom j t e
  /-- Another procedure is in the place of a sender. -/
  | writer {bodies before after : List (Kind × Body)} {logic : ProcedureId} {ref : MethodRef}
      {readers stubs : List Stub} {next : Kind × Body}
      (hs : (j.senders loom).2 = .ok bodies) (hlogic : j.HasLogic t logic ref)
      (hreaders : List.Forall₂ (j.HasReader t) j.contract.kinds.toList readers)
      (hbodies : bodies = before ++ next :: after)
      (hbefore : List.Forall₂ (j.HasWriter t) before stubs)
      (h : t.Clashes (j.key (.writer next.1))) :
      Stuck loom j t (t.clash (j.key (.writer next.1)))

/-! ### Logic, receivers, senders -/

/-- Logic that is brought in is there under its name. -/
theorem hasLogic_of_relocateLogic {l : ProcedureId} (hj : t.procedure? j.id = some j.served)
    (h : relocateLogic j.id t = .ok l u) :
    ∃ q, u.procedure? l = some q ∧ j.HasLogic u l ⟨t.name, q.name, j.served.types⟩ := by
  rcases relocateLogic_cases hj with
    ⟨l, hl, h'⟩ | ⟨-, -, h'⟩ | ⟨body, hbody, hnew, h'⟩ | ⟨body, -, -, h'⟩ <;>
    rw [h'] at h <;> cases h
  · obtain ⟨q, hq, -⟩ := TypeDef.procedure?_of_findSynthesized? hl
    exact ⟨q, hq, hl, q, hq, rfl⟩
  · have hlen : (t.clear j.id).procedures.length = t.procedures.length := by
      simp [TypeDef.clear]
    have hq : ((t.clear j.id).push (j.served.logicOf body)).procedure? t.procedures.length =
        some (j.served.logicOf body) := hlen ▸ TypeDef.procedure?_push_length _ _
    refine ⟨_, hq, ?_, _, hq, rfl⟩
    exact hlen ▸ TypeDef.findSynthesized?_push rfl (hnew.clear j.id).absent

theorem stuck_of_relocateLogic {e : SynthesisError} (hs : (j.senders loom).2 = .ok bodies)
    (hj : t.procedure? j.id = some j.served) (h : relocateLogic j.id t = .error e u) :
    Stuck loom j u e := by
  rcases relocateLogic_cases hj with
    ⟨l, hl, h'⟩ | ⟨hnone, hbody, h'⟩ | ⟨body, hbody, hnew, h'⟩ | ⟨body, -, hclash, h'⟩ <;>
    rw [h'] at h <;> cases h
  · exact .pending hs hnone hbody
  · refine .logic (t := t.clear j.id) hs ⟨?_, ?_⟩
    · rw [TypeDef.findSynthesized?_clear]; exact hclash.absent
    · rw [TypeDef.findSignature?_clear]; exact hclash.signed

/-- Receivers are all brought in, or one is refused. -/
theorem readers_cases (loom : Loom) {l : ProcedureId} {ref : MethodRef} (hj : j.Stands t)
    (hlogic : j.HasLogic t l ref) :
    let all := j.contract.kinds.toList.mapM (ensureReader loom j.served j.contract ref)
    (∃ stubs u, all t = .ok stubs u ∧ j.Edits loom t u ∧
      List.Forall₂ (j.HasReader u) j.contract.kinds.toList stubs) ∨
    (∃ e u, all t = .error e u ∧ j.Edits loom t u ∧ ∃ before kind after stubs,
      j.contract.kinds.toList = before ++ kind :: after ∧
      List.Forall₂ (j.HasReader u) before stubs ∧ ReaderRefused loom j ref u kind e) := by
  intro all
  have howner : ∀ v, j.Edits loom t v → ref.owner = v.name := by
    intro v hv
    obtain ⟨q, -, rfl⟩ := hlogic.named
    exact hv.grows.name.symm
  -- along the way the type is what edits make of it, and the logic stays where it is
  have hedit : ∀ kind ∈ j.contract.kinds.toList, ∀ v, j.Edits loom t v →
      j.Edits loom t (final (ensureReader loom j.served j.contract ref kind v)) :=
    fun kind hkind v hv => hv.trans (ensureReader_edits hkind (hlogic.edits hj hv))
  have hcases := mapM_cases (P := j.Edits loom t) (H := j.HasReader)
    (f := ensureReader loom j.served j.contract ref) j.contract.kinds.toList
    (fun kind hkind v hv =>
      ⟨hedit kind hkind v hv, fun s w hs => hasReader_of_ensureReader (howner v hv) hs⟩)
    ((List.pairwise_of_forall_mem_list fun kind _ other hother v s _ hs =>
      hs.grows (ensureReader_grows loom j.served j.contract ref other v)))
    (t := t) .refl
  rcases hcases with ⟨stubs, u, h, hu, hall⟩ |
    ⟨e, u, h, hu, before, kind, after, stubs, v, hkinds, -, hrefused, hall⟩
  · exact .inl ⟨stubs, u, h, hu, hall⟩
  · obtain ⟨rfl, hrefused⟩ := readerRefused_of_ensureReader hrefused
    exact .inr ⟨e, u, h, hu, before, kind, after, stubs, hkinds, hall, hrefused⟩

/-- Senders are all brought in, or another procedure is in the place of one. -/
theorem writers_cases {l : ProcedureId} {ref : MethodRef} (hj : j.Stands t)
    (hlogic : j.HasLogic t l ref) (hs : (j.senders loom).2 = .ok bodies) :
    let all := bodies.mapM fun w => installWriter t.name j.served w.1 w.2
    (∃ stubs u, all t = .ok stubs u ∧ j.Edits loom t u ∧
      List.Forall₂ (j.HasWriter u) bodies stubs) ∨
    (∃ e u, all t = .error e u ∧ j.Edits loom t u ∧ ∃ before next after stubs,
      bodies = before ++ next :: after ∧ List.Forall₂ (j.HasWriter u) before stubs ∧
      u.Clashes (j.key (.writer next.1)) ∧ e = u.clash (j.key (.writer next.1))) := by
  intro all
  obtain ⟨hkinds, hbodies⟩ := Loom.senderBodies_spec hs
  have hkind : ∀ w ∈ bodies, w.1 ∈ j.contract.kinds.toList := fun w hw =>
    hkinds ▸ List.mem_map_of_mem hw
  -- each sender is for a kind of its own, so a later one does not replace an earlier one
  have hnodup : bodies.Pairwise fun w w' => w.1 ≠ w'.1 := by
    have := j.contract.kinds.nodup_toList
    rw [← hkinds] at this
    exact List.pairwise_map.mp this
  have hcases := mapM_cases (P := j.Edits loom t) (H := j.HasWriter)
    (f := fun w => installWriter t.name j.served w.1 w.2) bodies
    (fun w hw v hv => ⟨hv.trans
      (installWriter_edits (hbodies w hw) (hkind w hw) (hlogic.edits hj hv) _), fun s v' hv' => by
        rw [← hv.grows.name] at hv'
        exact hasWriter_of_installWriter hv'⟩)
    (hnodup.imp fun hne v s _ hs => hs.kept hne)
    (t := t) .refl
  rcases hcases with ⟨stubs, u, h, hu, hall⟩ |
    ⟨e, u, h, hu, before, next, after, stubs, v, hsplit, -, hrefused, hall⟩
  · exact .inl ⟨stubs, u, h, hu, hall⟩
  · obtain ⟨rfl, hclash, rfl⟩ := clashes_of_installWriter hrefused
    exact .inr ⟨_, u, h, hu, before, next, after, stubs, hsplit, hall, hclash, rfl⟩

/-! ### The whole installation -/

/-- A call is installed or stuck. -/
theorem install_cases (loom : Loom) (hj : t.procedure? j.id = some j.served)
    (hd : j.served.isDeclared = true) (hs : (j.senders loom).2 = .ok bodies) :
    (∃ triad u, install loom t.name j.id j.served j.contract bodies t = .ok triad u ∧
      j.Edits loom t u ∧ Installed loom j u triad) ∨
    (∃ e u, install loom t.name j.id j.served j.contract bodies t = .error e u ∧
      j.Edits loom t u ∧ Stuck loom j u e) := by
  have hstands : j.Stands t := ⟨hd, j.served, hj, rfl⟩
  have hrelocate := relocateLogic_edits loom hj
  unfold install
  cases hfirst : relocateLogic j.id t with
  | error e t₁ =>
    rw [hfirst] at hrelocate
    exact .inr ⟨e, t₁, bind_of_error hfirst _, hrelocate, stuck_of_relocateLogic hs hj hfirst⟩
  | ok l t₁ =>
    rw [hfirst, final_ok] at hrelocate
    obtain ⟨q, hq, hlogic⟩ := hasLogic_of_relocateLogic hj hfirst
    rw [bind_of_ok hfirst, bind_of_ok (procedure_of_some hq)]
    simp only
    -- the parts are put in place one after the other, and what was placed stays
    rcases readers_cases loom (hrelocate.stands hstands) hlogic with
      ⟨readers, t₂, hsecond, he₂, hreaders⟩ | ⟨e, t₂, hsecond, he₂, hstuck⟩
    · have hlogic₂ := hlogic.edits (hrelocate.stands hstands) he₂
      have hname : t.name = t₂.name := ((he₂.grows).name.trans hrelocate.grows.name).symm
      rw [bind_of_ok hsecond]
      simp only [hname] at hlogic₂ ⊢
      rcases writers_cases (he₂.stands (hrelocate.stands hstands)) hlogic₂ hs with
        ⟨writers, t₃, hthird, he₃, hwriters⟩ | ⟨e, t₃, hthird, he₃, hstuck⟩
      · refine .inl ⟨_, t₃, bind_of_ok hthird _, (hrelocate.trans he₂).trans he₃, ?_⟩
        exact ⟨hlogic₂.edits (he₂.stands (hrelocate.stands hstands)) he₃,
          hreaders.imp fun _ _ h => h.grows he₃.grows, bodies, hs, hwriters⟩
      · obtain ⟨before, next, after, stubs, hsplit, hbefore, hclash, rfl⟩ := hstuck
        refine .inr ⟨_, t₃, bind_of_error hthird _, (hrelocate.trans he₂).trans he₃, ?_⟩
        exact .writer hs (hlogic₂.edits (he₂.stands (hrelocate.stands hstands)) he₃)
          (hreaders.imp fun _ _ h => h.grows he₃.grows) hsplit hbefore hclash
    · obtain ⟨before, kind, after, stubs, hsplit, hbefore, hrefused⟩ := hstuck
      refine .inr ⟨e, t₂, bind_of_error hsecond _, hrelocate.trans he₂, ?_⟩
      exact .reader hs (hlogic.edits (hrelocate.stands hstands) he₂) hsplit hbefore hrefused

/-! ### Putting a body into the call itself -/

theorem findSynthesized?_fill (t : TypeDef) (id : ProcedureId) (b : Body) (key : SynthKey) :
    (t.fill id b).findSynthesized? key = t.findSynthesized? key := by
  rw [TypeDef.findSynthesized?_eq, TypeDef.findSynthesized?_eq]
  exact congrArg _ (origins_modify fun _ _ => rfl)

theorem findSignature?_fill (t : TypeDef) (id : ProcedureId) (b : Body) (s : Signature) :
    (t.fill id b).findSignature? s = t.findSignature? s := by
  rw [TypeDef.findSignature?_eq, TypeDef.findSignature?_eq]
  exact congrArg _ (signatures_modify fun _ _ => rfl)

theorem Clashes.fill {key : SynthKey} (h : t.Clashes key) (id : ProcedureId) (b : Body) :
    (t.fill id b).Clashes key :=
  ⟨by rw [findSynthesized?_fill]; exact h.absent, by rw [findSignature?_fill]; exact h.signed⟩

/-- A filled call has the given body and is otherwise as it was. -/
theorem Stands.procedure?_fill (hj : j.Stands t) (b : Body) :
    (t.fill j.id b).procedure? j.id = some (j.served.withBody b) := by
  obtain ⟨-, q, hq, hhead⟩ := hj
  have hfill : (t.fill j.id b).procedure? j.id = some (q.withBody b) := by
    simp [TypeDef.fill, TypeDef.procedure?_modify, hq]
  rw [hfill, Procedure.eq_of_heading_eq hhead]
  rfl

theorem HasWriter.fill {w : Kind × Body} {s : Stub} (h : j.HasWriter t w s) (hj : j.Stands t)
    (b : Body) : j.HasWriter (t.fill j.id b) w s := by
  refine ⟨h.serves, by rw [findSynthesized?_fill]; exact h.found, h.ref, ?_⟩
  have hne : j.id ≠ s.id := (hj.ne_of_origin h.current rfl).symm
  rw [TypeDef.fill, TypeDef.procedure?_modify, if_neg hne]
  exact h.current

theorem HasReader.fill {kind : Kind} {s : Stub} (h : j.HasReader t kind s) (b : Body) :
    j.HasReader (t.fill j.id b) kind s :=
  ⟨h.serves, by rw [findSynthesized?_fill]; exact h.found, h.ref⟩

theorem Installed.fill {triad : Triad} (h : Installed loom j t triad) (hj : j.Stands t)
    (b : Body) : Installed loom j (t.fill j.id b) triad := by
  obtain ⟨bodies, hs, hwriters⟩ := h.writers
  have hedit : j.Edit loom t (t.fill j.id b) := .fill t b
  exact ⟨h.logic.edit hj hedit,
    h.readers.imp fun _ _ hr => hr.fill b, bodies, hs, hwriters.imp fun _ _ hw => hw.fill hj b⟩

theorem Stuck.fill {e : SynthesisError} (h : Stuck loom j t e) (hj : j.Stands t) (b : Body) :
    Stuck loom j (t.fill j.id b) e := by
  have hedit : j.Edit loom t (t.fill j.id b) := .fill t b
  cases h with
  | sender h => exact .sender h
  | pending hs hnone hbody => exact .pending hs (by rw [findSynthesized?_fill]; exact hnone) hbody
  | logic hs h => exact .logic (t := t.fill j.id b) hs (Clashes.fill h _ _)
  | reader hs hlogic hkinds hbefore h =>
    refine .reader hs (hlogic.edit hj hedit) hkinds
      (hbefore.imp fun _ _ hr => hr.fill b) ?_
    cases h with
    | body hnone hbody => exact .body (by rw [findSynthesized?_fill]; exact hnone) hbody
    | clash hbody hclash => exact .clash (t := t.fill j.id b) hbody (Clashes.fill hclash _ _)
  | writer hs hlogic hreaders hbodies hbefore h =>
    exact .writer (t := t.fill j.id b) hs (hlogic.edit hj hedit)
      (hreaders.imp fun _ _ hr => hr.fill b) hbodies (hbefore.imp fun _ _ hw => hw.fill hj b)
      (Clashes.fill h _ _)

end Job

end RpcLoom
