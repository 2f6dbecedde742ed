/-
RpcLoom/Proofs/Pooling.lean

No writer stays in use.

Design.  Weaving puts four kinds of code into an assembly.  Senders take one writer
and give it back; receivers, forwarders and what is left of a call that could not
be woven take none (`Job.Makes.solvent`, `Turn.solvent`).  The code of a user stays
what it was, but for the procedures that it calls (`Body.Solvent.mapMethods`).  So
if the code of a user takes no writers, all code of the woven assembly is solvent
(`Assembly.Solvent.weave`), and every run in it that is never short of steps
balances.

Main result.  `Loom.writers_settled`: whatever is called and whatever arrives, when
it is over no writer is in use.
-/
import RpcLoom.Proofs.Covering
import RpcLoom.Proofs.Lending
import RpcLoom.Proofs.Senders
import RpcLoom.Proofs.WovenCalls

namespace RpcLoom

/-! ### Generated code -/

/-- Whether an instruction has no blocks in it, and neither takes a writer nor gives one back. -/
def Instruction.isModest : Instruction → Bool
  | .region .. => false
  | i => !i.pools

theorem Instruction.isModest_of_straight {i : Instruction} (h : i.isStraight = true) :
    i.isModest = true := by
  cases i with
  | call callee =>
    cases callee with
    | method | base => cases h
    | _ => exact h
  | region => cases h
  | _ => rfl

namespace Block

variable {block : Block}

theorem nested_of_modest (h : ∀ i ∈ block, i.isModest = true) : nested block = block := by
  refine nested_of_flat fun i hi => ?_
  have hi := h i hi
  cases i with
  | region => cases hi
  | _ => simp [Instruction.nested]

theorem modest_of_flat (h : ∀ i ∈ block, i.isModest = true) : block.Modest := by
  rw [Modest, nested_of_modest h]
  intro i hi
  have hi := h i hi
  cases i with
  | region => cases hi
  | _ => simpa [Instruction.isModest] using hi

end Block

namespace Loom

variable {loom : Loom} {p : Procedure} {c : Contract} {kind : Kind}

theorem straight_checks (asked : List (Intrinsic × String)) (label : Label) :
    ∀ i ∈ Assembly.checks asked label, i.isStraight = true := by
  induction asked generalizing label with
  | nil => exact fun _ hi => absurd hi List.not_mem_nil
  | cons x rest ih =>
    rw [Assembly.checks, List.forall_mem_append]
    exact ⟨by simp [Assembly.check, Instruction.isStraight, Instruction.pools], ih (label + 1)⟩

theorem straight_senderGuard (loom : Loom) (c : Contract) (kind : Kind) :
    ∀ i ∈ (loom.senderGuard c kind).code, i.isStraight = true := by
  rw [senderGuard]
  split
  next =>
    rw [Assembly.code_guardSender]
    exact straight_checks _ 0
  next => exact fun _ hi => absurd hi List.not_mem_nil

theorem straight_packingCode (codec : Codec) (fields : List (Nat × Parameter)) (writer : Nat) :
    ∀ i ∈ codec.packingCode fields writer, i.isStraight = true := by
  intro i hi
  obtain ⟨x, -, hi⟩ := List.mem_flatMap.mp hi
  simp only [List.mem_cons, List.not_mem_nil, or_false] at hi
  rcases hi with rfl | rfl | rfl <;> rfl

theorem straight_sendingCode (c : Contract) (kind : Kind) (id : RpcId) :
    ∀ i ∈ sendingCode c kind id, i.isStraight = true := by
  cases kind <;> simp [sendingCode, Instruction.isStraight, Instruction.pools]

theorem isOperand_channelOperand (loom : Loom) (c : Contract) :
    (loom.channelOperand c).isOperand = true := by
  rw [channelOperand]
  cases c.layout.position? .channel <;> rfl

/-- A sender takes a writer and gives it back. -/
theorem lends_sender (hcodec : loom.codec.Honest) (hp : p.Keeps loom.codec c)
    (hkind : kind ∈ c.kinds.toList) {id : RpcId} {body : Body}
    (hbody : loom.senderBody p c id kind = .ok body) : body.Lends := by
  obtain ⟨b, hb, hcode, hlocals⟩ := senderBody_eq loom hcodec hp hkind id
  obtain rfl : b = body := Except.ok.inj (hb.symm.trans hbody)
  refine ⟨⟨(loom.senderGuard c kind).code, loom.channelOperand c,
    loom.codec.packingCode (c.layout.fields p.parameters) 1 ++ sendingCode c kind id, hcode,
    straight_senderGuard loom c kind, isOperand_channelOperand loom c, ?_⟩, hlocals⟩
  rw [List.forall_mem_append]
  exact ⟨straight_packingCode _ _ 1, straight_sendingCode c kind id⟩

/-- A receiver takes no writers. -/
theorem modest_receiver (hcodec : loom.codec.Honest) (hp : p.Keeps loom.codec c)
    {logic : MethodRef} {body : Body} (hbody : loom.receiverBody p c kind logic = .ok body) :
    body.code.Modest := by
  obtain ⟨b, hb, hcode, -⟩ := receiverBody_eq loom hcodec hp kind logic
  obtain rfl : b = body := Except.ok.inj (hb.symm.trans hbody)
  have hunpacking : ∀ types slot, ∀ i ∈ loom.codec.unpackingCode types slot,
      i.isModest = true := by
    intro types
    induction types with
    | nil => exact fun _ _ hi => absurd hi List.not_mem_nil
    | cons t types ih =>
      intro slot
      rw [Codec.unpackingCode, List.forall_mem_append]
      exact ⟨by simp [Body.readInto, Instruction.isModest, Instruction.pools], ih (slot + 1)⟩
  have hguard : ∀ i ∈ receiverGuard c kind, i.isModest = true := by
    rw [receiverGuard]
    cases kind with
    | server =>
      cases h : (c.policy .server).requireOwnership <;>
        simp [Body.guardReceiver, h, Body.require, Body.newLabel, Body.empty,
          Instruction.isModest, Instruction.pools]
    | observers =>
      cases h : (c.policy .observers).includeOwner <;>
        simp [Body.guardReceiver, h, Body.newLabel, Body.empty, Body.askSelf,
          Instruction.isModest, Instruction.pools]
    | target => exact fun _ hi => absurd hi List.not_mem_nil
  have hloads : ∀ roles slot, ∀ i ∈ argumentLoads roles slot, i.isModest = true := by
    intro roles
    induction roles with
    | nil => exact fun _ _ hi => absurd hi List.not_mem_nil
    | cons role roles ih =>
      intro slot
      cases role with
      | serialized | channel | caller => exact List.forall_mem_cons.mpr ⟨rfl, ih _⟩
      | target => exact List.forall_mem_cons.mpr ⟨rfl, List.forall_mem_cons.mpr ⟨rfl, ih _⟩⟩
  refine Block.modest_of_flat ?_
  rw [hcode, receiverCode, List.forall_mem_append, List.forall_mem_append]
  refine ⟨⟨hunpacking _ 0, hguard⟩, ?_⟩
  rw [List.cons_append, List.forall_mem_cons, List.forall_mem_append]
  exact ⟨rfl, hloads c.layout.roles 0, by simp [Instruction.isModest, Instruction.pools]⟩

end Loom

/-- A forwarder takes no writers. -/
theorem Triad.modest_forwarder {t : Triad} {p : Procedure} {c : Contract} {body : Body}
    (hbody : t.forwarderBody p c = .ok body) : body.code.Modest := by
  have hforward : ∀ arity ref, ∀ i ∈ forward arity ref, i.isModest = true := by
    intro arity ref i hi
    rcases List.mem_append.mp hi with hi | hi
    · rcases List.mem_cons.mp hi with rfl | hi
      · rfl
      · obtain ⟨k, -, rfl⟩ := List.mem_map.mp hi
        rfl
    · rw [List.mem_singleton.mp hi]
      rfl
  have hsends : ∀ sending, t.sendingBody p c.kinds = .ok sending →
      ∀ i ∈ sending.code, i.isModest = true := by
    intro sending
    cases c.kinds with
    | single kind =>
      intro hsending
      obtain ⟨ref, -, hsending⟩ := of_bind hsending
      rw [← Except.ok.inj hsending]
      exact hforward _ ref
    | observersAndTarget =>
      intro hsending
      obtain ⟨target, -, hsending⟩ := of_bind hsending
      obtain ⟨observers, -, hsending⟩ := of_bind hsending
      rw [← Except.ok.inj hsending]
      simp only [Body.code_emit, Body.empty, List.nil_append, List.forall_mem_append]
      exact ⟨⟨⟨⟨by simp [Instruction.isModest, Instruction.pools], hforward _ target⟩,
        by simp [Instruction.isModest, Instruction.pools]⟩, hforward _ observers⟩,
        by simp [Instruction.isModest, Instruction.pools]⟩
  obtain ⟨sending, hsending, hbody⟩ := of_bind hbody
  rw [← Except.ok.inj hbody]
  refine Block.modest_of_flat ?_
  rw [Body.code_emit, List.forall_mem_append, List.forall_mem_append]
  refine ⟨hsends sending hsending, ?_, by simp [Instruction.isModest, Instruction.pools]⟩
  split
  next => exact hforward _ t.logicRef
  next => exact fun _ hi => absurd hi List.not_mem_nil

/-! ### Code that is led on -/

theorem Instruction.pools_mapMethods (f : MethodRef → MethodRef) (i : Instruction) :
    (i.mapMethods f).pools = i.pools := by
  cases i with
  | call callee => cases callee <;> simp [Callee.mapMethod, pools]
  | _ => simp [Instruction.mapMethods, pools]

theorem Instruction.method?_of_straight {i : Instruction} (h : i.isStraight = true) :
    i.method? = none := by
  cases i with
  | call callee =>
    cases callee with
    | method | base => cases h
    | _ => rfl
  | _ => rfl

/-- Code that takes one writer and gives it back calls no procedures. -/
theorem Body.Lends.method? {b : Body} (h : b.Lends) : ∀ i ∈ b.nested, i.method? = none := by
  obtain ⟨⟨guard, operand, packing, hcode, hguard, hoperand, hpacking⟩, -⟩ := h
  have hstraight : ∀ {block : Block}, (∀ i ∈ block, i.isStraight = true) →
      ∀ i ∈ Block.nested block, i.method? = none := by
    intro block hblock i hi
    rw [Block.nested_of_modest fun i hi => Instruction.isModest_of_straight (hblock i hi)] at hi
    exact Instruction.method?_of_straight (hblock i hi)
  have hload : ∀ i ∈ operand.nested, i.method? = none := by
    cases operand with
    | loadArg | loadConst => simp [Instruction.nested, Instruction.method?]
    | _ => cases hoperand
  rw [Body.nested, hcode, Block.nested_append, List.forall_mem_append]
  refine ⟨hstraight hguard, ?_⟩
  rw [Block.lendingTail, Block.nested_cons, List.forall_mem_append]
  refine ⟨hload, ?_⟩
  intro i hi
  simp only [Block.nested_cons, Block.nested_nil, Instruction.nested, List.mem_append,
    List.mem_cons, List.not_mem_nil, or_false] at hi
  rcases hi with rfl | rfl | rfl | (rfl | hi | rfl | rfl) | rfl
  any_goals rfl
  exact hstraight hpacking i hi

/-- Leading base calls on keeps code solvent. -/
theorem Body.Solvent.mapMethods {b : Body} (h : b.Solvent) (f : MethodRef → MethodRef) :
    (b.mapMethods f).Solvent := by
  rcases h with hmodest | hlends
  · refine .inl fun i hi => ?_
    have hi : i ∈ (b.mapMethods f).nested := hi
    rw [Body.nested_mapMethods] at hi
    obtain ⟨k, hk, rfl⟩ := List.mem_map.mp hi
    rw [Instruction.pools_mapMethods]
    exact hmodest k hk
  · rw [b.mapMethods_of_fixed fun i hi ref href => ?_]
    · exact .inr hlends
    · rw [hlends.method? i hi] at href
      cases href

/-! ### Weaving -/

/-- The code of a procedure is solvent, if there is any. -/
def Procedure.Solvent (p : Procedure) : Prop := ∀ body, p.body = some body → body.Solvent

/-- All code of a type is solvent. -/
def TypeDef.Solvent (t : TypeDef) : Prop := ∀ i p, t.procedure? i = some p → p.Solvent

/-- All code of an assembly is solvent. -/
def Assembly.Solvent (a : Assembly) : Prop := ∀ i t, a.type? i = some t → t.Solvent

theorem Procedure.solvent_withBody {body : Body} (h : body.Solvent) (p : Procedure) :
    (p.withBody body).Solvent := by
  rintro _ ⟨⟩
  exact h

section

variable {loom : Loom} {j : Job} {t u : TypeDef} {w w' : TypeWeaving} {f : Fate}
  {turns : List (Job × Fate)}

/-- What weaving a call makes is solvent, if the code of the call is. -/
theorem Job.Makes.solvent {p : Procedure} (h : j.Makes loom p) (hcodec : loom.codec.Honest)
    (hkeeps : j.served.Keeps loom.codec j.contract) (hserved : j.served.Solvent) : p.Solvent := by
  intro body hbody
  cases h with
  | logic hb =>
    cases hbody
    exact hserved body hb
  | reader hb =>
    cases hbody
    exact .inl (Loom.modest_receiver hcodec hkeeps hb)
  | writer hkind hb =>
    cases hbody
    exact .inr (Loom.lends_sender hcodec hkeeps hkind hb)

/-- A turn ends with a forwarder in the call, or with nothing to do there. -/
theorem Turn.solvent (h : Turn loom w j f w') (hcodec : loom.codec.Honest) (hw : w.type.Solvent) :
    w'.type.Solvent := by
  obtain ⟨b, hb, hhere⟩ : ∃ b : Body, b.code.Modest ∧
      w'.type.procedure? j.id = some (j.served.withBody b) := by
    have hleft := h.left
    cases f with
    | woven triad b => exact ⟨b, Triad.modest_forwarder hleft.forwarder, hleft.here⟩
    | cleared e =>
      refine ⟨.justLeave, Block.modest_of_flat ?_, hleft.here⟩
      exact List.forall_mem_singleton.mpr rfl
  intro i p hp
  by_cases hid : i = j.id
  · rw [hid, hhere] at hp
    rw [← Option.some.inj hp]
    exact Procedure.solvent_withBody (.inl hb) j.served
  · rcases h.edits.kept_or_made hp hid with hp | hmade
    · exact hw i p hp
    · exact hmade.solvent hcodec (Procedure.keeps_of_contract? h.keeps) (hw j.id j.served h.here)

theorem Turns.solvent (h : Turns loom w turns w') (hcodec : loom.codec.Honest)
    (hw : w.type.Solvent) : w'.type.Solvent := by
  induction h with
  | nil => exact hw
  | cons hturn _ ih => exact ih (hturn.solvent hcodec hw)

end

namespace Assembly.Solvent

open Weaving

variable {loom : Loom} {a b : Assembly} {i : TypeId} {t : TypeDef}

theorem set (h : a.Solvent) (ht : t.Solvent) : (a.set i t).Solvent := by
  intro k u hu
  rcases List.mem_or_eq_of_mem_set (List.mem_of_getElem? hu) with hu | rfl
  · obtain ⟨m, hm⟩ := List.mem_iff_getElem?.mp hu
    exact h m u hm
  · exact ht

/-- Leading base calls on keeps all code solvent. -/
theorem redirect {link : LogicLink} {n : Nat} (h : a.Solvent)
    (hlink : link.redirect a = .ok (b, n)) : b.Solvent := by
  rcases LogicLink.redirect_cases hlink with
    rfl | ⟨i, t, p, body, names, ref, ht, hp, hbody, rfl⟩
  · exact h
  · refine h.set fun k q hq => ?_
    obtain ⟨q', hq', rfl | ⟨-, rfl⟩⟩ := TypeDef.procedure?_modify_cases hq
    · exact h i t ht k q hq'
    · rw [LogicLink.run_mapNestedM]
      exact Procedure.solvent_withBody ((h i t ht link.logic p hp body hbody).mapMethods _) q'

theorem followAll {w : Weaving} (h : w.assembly.Solvent) (links : List LogicLink) :
    (w.followAll links).1.assembly.Solvent := by
  induction links generalizing w with
  | nil => exact h
  | cons link rest ih =>
    have hfirst : (w.follow link).1.assembly.Solvent := by
      unfold Weaving.follow
      cases hlink : link.redirect w.assembly with
      | error e => exact h
      | ok r => exact h.redirect hlink
    exact ih hfirst

/-- Weaving leaves all code solvent. -/
theorem weave {w : Weaving} (h : w.assembly.Solvent) (hcodec : loom.codec.Honest) :
    (loom.weave w).1.assembly.Solvent := by
  rcases loom.weave_cases w with ⟨e, -, hresult⟩ | ⟨order, v, o, horder, hgathers, hresult⟩
  · rw [hresult]
    exact h
  · rw [hresult]
    obtain ⟨-, hknown⟩ := Assembly.of_hierarchyOrder horder
    have hwoven : v.assembly.Solvent := by
      intro i u hu
      rw [hgathers.type?] at hu
      split at hu
      next hi =>
        obtain ⟨t, above, ht, hab⟩ := hknown i hi
        rw [ht, Option.map_some] at hu
        rw [← Option.some.inj hu]
        obtain ⟨counter, -, ⟨log, e, -, halone⟩ | ⟨log, u, hu, halone⟩⟩ := loom.alone_cases ht hab
        · rw [halone]
          exact h i t ht
        · rw [halone]
          obtain ⟨-, -, turns, hturns, -⟩ := turns_of_weaveTypeDef hu
          exact hturns.solvent hcodec (h i t ht)
      next => exact h i u hu
    exact followAll (w := { v with links := [] }) hwoven v.links

end Assembly.Solvent

/-! ### Errands -/

namespace Assembly

open Exec

variable {a : Assembly} {object : NetObject} {isVirtualCall : Bool} {m : MethodRef}
  {args : List Value} {packet : Option Wire.Bits} {host : Host}

/-- The run of the procedure that a call runs, if any, is never short of steps. -/
def AffordsCall (a : Assembly) (object : NetObject) (isVirtualCall : Bool) (m : MethodRef)
    (args : List Value) (packet : Option Wire.Bits) (host : Host) : Prop :=
  ∀ p body, a.calleeOf object isVirtualCall m = .ok p → p.body = some body →
    a.Affords object (.entry p body args ⟨⟨[], [], []⟩, host, packet, stepBudget⟩)

/-- A call that has steps left at its end was never short of them. -/
theorem affordsCall_of_stepsLeft
    (h : (finalState (a.enter object (fun name code => a.run object name code code) isVirtualCall m
      args) ⟨⟨[], [], []⟩, host, packet, stepBudget⟩).stepsLeft ≠ 0) :
    a.AffordsCall object isVirtualCall m args packet host := by
  intro p body hcallee hbody
  rw [finalState_enter hcallee hbody] at h
  exact affords_of_stepsLeft h

/-- Whatever a call runs is solvent. -/
theorem Solvent.of_calleeOf {p : Procedure} (h : a.Solvent)
    (hcallee : a.calleeOf object isVirtualCall m = .ok p) : p.Solvent := by
  obtain ⟨t, ht, hp, -⟩ := Assembly.of_calleeOf hcallee
  obtain ⟨i, hi⟩ := List.mem_iff_getElem?.mp ht
  obtain ⟨k, hk⟩ := List.mem_iff_getElem?.mp hp
  exact h i t hi k p hk

/-- Whatever is invoked in solvent code takes as many writers as it gives back, however it ends. -/
theorem Solvent.balances_invoke (h : a.Solvent)
    (hbudget : a.AffordsCall object isVirtualCall m args packet host) :
    host.writers.Balances (a.invoke object isVirtualCall m args packet host).2.1.writers := by
  have hrun : Balances
      (a.enter object (fun name code => a.run object name code code) isVirtualCall m args)
      ⟨⟨[], [], []⟩, host, packet, stepBudget⟩ :=
    balances_enter fun p body hcallee hbody =>
      balances_of_settled (fun _ _ _ body hcallee => h.of_calleeOf hcallee body)
        ((h.of_calleeOf hcallee body hbody).settled p args _) (hbudget p body hcallee hbody)
  rw [Balances, RunState.Balances, finalState] at hrun
  rw [invoke_eq]
  cases hended : a.enter object (fun name code => a.run object name code code) isVirtualCall m args
      ⟨⟨[], [], []⟩, host, packet, stepBudget⟩ with
  | ok u s =>
    rw [hended] at hrun
    exact hrun
  | error e s =>
    rw [hended] at hrun
    exact hrun

end Assembly

/-- What an object is asked for: a procedure is called on it, or a packet arrives for it. -/
inductive Errand where
  | call (object : NetObject) (name : String) (args : List Value)
  | receive (object : NetObject) (reader : MethodRef) (packet : Wire.Bits) (channel : Channel)
      (sender : Option ConnectionId)

namespace Errand

/-- What an errand comes to, and the host then. -/
def run (a : Assembly) (host : Host) : Errand → Except Fault Unit × Host
  | call object name args => a.call object name args host
  | receive object reader packet channel sender =>
    let (result, host, _) := a.receive object reader packet channel sender host
    (result, host)

/-- An errand that is never short of steps. -/
def Affordable (a : Assembly) (host : Host) : Errand → Prop
  | call object name args => ∀ m, a.methodNamed object.typeName name = .ok m →
      a.AffordsCall object true m args none host
  | receive object reader packet channel sender =>
    a.AffordsCall object false reader (Assembly.receiverArgs reader channel sender) (some packet)
      host

/-- An errand in solvent code takes as many writers as it gives back, however it ends. -/
theorem balances_run {a : Assembly} {host : Host} (h : a.Solvent) (e : Errand)
    (hbudget : e.Affordable a host) : host.writers.Balances (e.run a host).2.writers := by
  cases e with
  | call object name args =>
    rw [run, Assembly.call]
    cases hnamed : a.methodNamed object.typeName name with
    | error e => exact .refl _
    | ok m => exact h.balances_invoke (hbudget m hnamed)
  | receive object reader packet channel sender => exact h.balances_invoke hbudget

end Errand

/-- A host after any number of errands, none of which was short of steps.  Between them the
transport may begin to refuse to send, or to send again. -/
inductive Host.After (a : Assembly) : Host → Prop
  | fresh : After a .fresh
  | errand {host : Host} (h : After a host) (refuses : Bool) (e : Errand)
      (hbudget : e.Affordable a { host with refusesSends := refuses }) :
      After a (e.run a { host with refusesSends := refuses }).2

/-- If the code of a user neither takes writers nor gives any back, no writer is in use in the woven
assembly once an errand is over, whatever has been called, whatever has arrived, and however it
ended. -/
theorem Loom.writers_settled (settings : Settings) {a : Assembly}
    (huser : ∀ t ∈ a.types, ∀ p ∈ t.procedures, ∀ body, p.body = some body → body.code.Modest)
    {host : Host} (h : host.After (Loom.weave ⟨.standard, settings⟩ (.start a)).1.assembly) :
    host.writers.outstanding = 0 ∧ host.writers.acquired = host.writers.released := by
  have hstart : a.Solvent := fun i t ht k p hp body hbody =>
    .inl (huser t (List.mem_of_getElem? ht) p (List.mem_of_getElem? hp) body hbody)
  have hsolvent : (Loom.weave ⟨.standard, settings⟩ (.start a)).1.assembly.Solvent :=
    Assembly.Solvent.weave hstart Codec.honest_standard
  suffices hbalances : WriterPool.empty.Balances host.writers from hbalances.settled
  induction h with
  | fresh => exact .refl _
  | errand _ refuses e hbudget ih => exact ih.trans (e.balances_run hsolvent hbudget)

namespace Sample

/-- The chain, once it is woven. -/
def wovenChain : Assembly := (Loom.weave ⟨.standard, .default⟩ (.start chain)).1.assembly

/-- A leader is told to announce that its side advances. -/
def advance : Errand := .call (.server "Leader" none) "Announce" [.null, .text "advance"]

/-- The transport has refused to send the announcement. -/
def thwarted : Host := (advance.run wovenChain { Host.fresh with refusesSends := true }).2

theorem affordable_advance {host : Host}
    (h : (Exec.finalState (wovenChain.enter (.server "Leader" none)
      (fun name code => wovenChain.run (.server "Leader" none) name code code) true
      ⟨"Leader", "Announce", announce.types⟩ [.null, .text "advance"])
      ⟨⟨[], [], []⟩, host, none, stepBudget⟩).stepsLeft ≠ 0) :
    advance.Affordable wovenChain host := by
  intro m hm
  have hnamed : wovenChain.methodNamed "Leader" "Announce" =
      .ok ⟨"Leader", "Announce", announce.types⟩ := by decide +kernel
  obtain rfl := Except.ok.inj (hnamed.symm.trans hm)
  exact Assembly.affordsCall_of_stepsLeft h

end Sample

/-- A leader announces twice; the first time the transport refuses.  Two writers have been taken. -/
theorem Loom.writers_settled_announce :
    ∃ host : Host, host.After Sample.wovenChain ∧ host.writers.acquired = 2 ∧
      host.sent.size = 1 ∧
      host.writers.outstanding = 0 ∧ host.writers.acquired = host.writers.released := by
  have hfirst : Host.After Sample.wovenChain Sample.thwarted :=
    .errand .fresh true Sample.advance (Sample.affordable_advance (by decide +kernel))
  have hafter := hfirst.errand false Sample.advance
    (Sample.affordable_advance (by decide +kernel))
  have hmodest : ∀ t ∈ Sample.chain.types, ∀ p ∈ t.procedures, ∀ body, p.body = some body →
      body.code.Modest := by
    decide
  have hsettled := Loom.writers_settled .default hmodest hafter
  exact ⟨_, hafter, by decide +kernel, by decide +kernel, hsettled⟩

end RpcLoom
