/-
RpcLoom/Proofs/CallEffects.lean

What a registered call does where it is called.

Design.  The trip of a call (`RoundTrip`) asks for a type whose names all differ
and an object that passes its checks.  Here the object is any of the type, the
host is in any state that does not refuse to send, and only the name of the call
itself has to be its own.  All that is left to do is to find the turn in which
the call was woven (`Registers.turn`); what the forwarder, the sender and the
logic then do with the host was followed before (`Answers.call_eq`).

Main result:
- `Loom.call_registered`: a registered call warns or is sent, and runs its logic
  here as well if it is to.
-/
import RpcLoom.Proofs.RoundTrip

namespace RpcLoom

/-- A registration of a type that was woven, and the procedure that it is for: one with code that
records its arguments, few enough for the budget of a run. -/
structure Loom.Registers (loom : Loom) (a : Assembly) (t : TypeDef) (reg : Registration)
    (p : Procedure) (symbol : String) : Prop where
  names : a.NamesDiffer
  fresh : ∀ t ∈ a.types, t.Fresh
  type : t ∈ a.types
  reported : ∃ r ∈ (loom.weave (.start a)).2.reports, r.typeName = t.name ∧ reg ∈ r.registrations
  procedure : t.procedure? reg.procedure = some p
  records : p.body = some (.recording symbol p.parameters.length)
  few : p.parameters.length < 10000

namespace Loom.Registers

variable {loom : Loom} {settings : Settings} {a : Assembly} {t : TypeDef} {reg : Registration}
  {p : Procedure} {symbol : String} {object : NetObject} {args : List Value}

/-- A registration comes from the turn in which its call was woven. -/
theorem turn (h : loom.Registers a t reg p symbol) :
    ∃ r ∈ (loom.weave (.start a)).2.reports, ∃ F counter turns v,
      loom.Reported a r t F counter turns v ∧
      ∃ x ∈ turns, ∃ triad b, x.2 = .woven triad b ∧ x.1.served = p ∧
        .ofTriad x.1.rpcId x.1.id x.1.contract triad = reg := by
  obtain ⟨r, hr, hname, hreg⟩ := h.reported
  obtain ⟨u, F, counter, turns, v, hreported⟩ := Loom.reported h.names h.fresh hr
  obtain rfl : u = t :=
    List.inj_on_of_nodup_map h.names hreported.mem h.type (hreported.named.symm.trans hname)
  obtain ⟨x, hx, triad, b, hf, rfl⟩ := hreported.registration hreg
  exact ⟨r, hr, F, counter, turns, v, hreported, x, hx, triad, b, hf,
    Option.some.inj ((hreported.served hx).symm.trans h.procedure), rfl⟩

/-- Objects of the type answer a registered call whose name is its own. -/
theorem answers (h : Registers ⟨.standard, settings⟩ a t reg p symbol)
    (halone : t.NamedAlone reg.procedure) (hobject : object.typeName = t.name) :
    ∃ c triad, p.contract? .standard = .ok (some c) ∧
      Answers ⟨.standard, settings⟩ (Loom.weave ⟨.standard, settings⟩ (.start a)).1.assembly object
        p c reg.id t.name triad (p.logicOf (.recording symbol p.parameters.length)) := by
  obtain ⟨r, -, F, counter, turns, v, hreported, x, hx, triad, b, hf, rfl, rfl⟩ := h.turn
  have ht := h.fresh t h.type
  have hlogic := hreported.logic ht hx (hreported.firstTurn hx halone) hf hobject h.records
  exact ⟨x.1.contract, triad, (hreported.went.declared hx).2,
    hreported.answers ht hx halone hf hobject hlogic⟩

end Loom.Registers

/-- What a registered call does where it is called, whatever the host has done before.  An object
that fails a check for the kind of the call is warned with the text of the first one that it fails;
any other hands over its fields, channel and target, in a writer that it takes and gives back.  In
either case the logic runs here too if that was asked for. -/
theorem Loom.call_registered (settings : Settings) {a : Assembly} {t : TypeDef}
    {reg : Registration} {p : Procedure} {symbol : String}
    (h : Registers ⟨.standard, settings⟩ a t reg p symbol) (halone : t.NamedAlone reg.procedure)
    {object : NetObject} (hobject : object.typeName = t.name) {args : List Value}
    (hargs : p.Takes args) (host : Host) (hopen : host.refusesSends = false) :
    ∃ c host', p.contract? .standard = .ok (some c) ∧
      Sends ⟨.standard, settings⟩ p c reg.id (c.sentAs args) object args host host' ∧
      (Loom.weave ⟨.standard, settings⟩ (.start a)).1.assembly.call object p.name args host =
        (.ok (), if c.runLocally then host'.callExternal symbol args else host') := by
  obtain ⟨c, triad, hcontract, hanswers⟩ := h.answers halone hobject
  have hrecords : (p.logicOf (.recording symbol p.parameters.length)).body =
      some (.recording symbol args.length) := by
    rw [← hargs.length_eq]
    rfl
  have hfields := c.layout.length_fields_le p.parameters
  rw [hanswers.keeps.length_roles, hargs.length_eq] at hfields
  have hfew := h.few
  rw [hargs.length_eq] at hfew
  obtain ⟨host', hsends, hcall⟩ := hanswers.call_eq hargs
    (fun host => Assembly.completes_last hrecords rfl object host none)
    (by rw [stepBudget]; omega) host hopen
  exact ⟨c, host', hcontract, hsends, hcall⟩

theorem Sample.registers_chain {t : TypeDef} {p : Procedure} {symbol : String} {id : RpcId}
    (ht : t ∈ chain.types) (hp : t.procedure? 0 = some p)
    (hrecords : p.body = some (.recording symbol p.parameters.length))
    (hfew : p.parameters.length < 10000)
    (hreported : ∃ r ∈ (loom.weave (.start chain)).2.reports, r.typeName = t.name ∧
      ∃ reg ∈ r.registrations, reg.id = id ∧ reg.procedure = 0) :
    ∃ reg, Loom.Registers loom chain t reg p symbol ∧ reg.id = id ∧ reg.procedure = 0 := by
  obtain ⟨r, hr, hname, reg, hreg, hid, hfirst⟩ := hreported
  exact ⟨reg, {
    names := by decide
    fresh := fun t ht => (show ∀ t ∈ chain.types, t.Unwoven by decide) t ht |>.fresh
    type := ht
    reported := ⟨r, hr, hname, hreg⟩
    procedure := by rw [hfirst]; exact hp
    records := hrecords
    few := hfew }, hid, hfirst⟩

theorem Sample.registers_announce :
    ∃ reg, Loom.Registers loom chain leader reg announce "app::announce" ∧ reg.id = 1 ∧
      reg.procedure = 0 :=
  registers_chain (List.mem_cons_of_mem _ List.mem_cons_self) rfl rfl (by decide)
    (by decide +kernel)

/-- An announcement to no connection in particular goes to all observers, once a host serves. -/
theorem Loom.call_registered_announce :
    ∃ writers, WriterPool.Lent .empty writers ∧
      (Sample.loom.weave (.start Sample.chain)).1.assembly.call (.server "Leader" none) "Announce"
          [.null, .text "advance"] .fresh =
        (.ok (), { Host.fresh with
          writers
          sent := #[⟨.observers, 1, [(.named "String", .text "advance")], .reliable, false,
            none⟩] }) := by
  obtain ⟨reg, hreg, hid, -⟩ := Sample.registers_announce
  have halone := TypeDef.NamesDiffer.namedAlone (t := Sample.leader) (by decide) reg.procedure
  have hargs : Sample.announce.Takes [.null, .text "advance"] := .cons rfl (.cons rfl .nil)
  have hobject : (NetObject.server "Leader" none).typeName = Sample.leader.name := rfl
  obtain ⟨c, host', hcontract, hsends, hcall⟩ :=
    Loom.call_registered .default hreg halone hobject hargs .fresh rfl
  obtain rfl : (Sample.order 0 "").contract = c := Option.some.inj (Except.ok.inj hcontract)
  obtain ⟨writers, hlent, rfl⟩ := hsends
  rw [hid] at hcall
  exact ⟨writers, hlent, hcall⟩

end RpcLoom
