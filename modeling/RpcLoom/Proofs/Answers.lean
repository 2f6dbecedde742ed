/-
RpcLoom/Proofs/Answers.lean

What an object does when a woven procedure is called on it, here or from afar.

Design.  `Answers` collects where the references of a woven call lead on an
object: from its name to the forwarder, from there to the senders and the logic,
and from the table to the receivers.  A call then runs a sender and perhaps the
logic (`Answers.call_eq`), and a packet runs a receiver and perhaps the logic
(`Answers.receive_eq`), whatever the logic does, as long as it ends well and the
steps suffice.
-/
import RpcLoom.Proofs.Forwards
import RpcLoom.Proofs.Receivers
import RpcLoom.Proofs.Senders
import RpcLoom.Proofs.WovenCalls

namespace RpcLoom

theorem Contract.sentAs_mem (c : Contract) (args : List Value) :
    c.sentAs args ∈ c.kinds.toList := by
  rw [Contract.sentAs]
  cases c.kinds with
  | single kind => exact List.mem_singleton.mpr rfl
  | observersAndTarget =>
    show (if args[0]? = some .null then Kind.observers else .target) ∈ [.observers, .target]
    split
    · exact List.mem_cons_self
    · exact List.mem_cons_of_mem _ List.mem_cons_self

/-- Where the references of a woven call lead on an object.  The call belongs to the type named
`owner`, which need not be the object's own. -/
structure Loom.Answers (loom : Loom) (a : Assembly) (object : NetObject) (p : Procedure)
    (c : Contract) (id : RpcId) (owner : String) (triad : Triad) (logic : Procedure) : Prop where
  keeps : p.Keeps loom.codec c
  named : a.methodNamed object.typeName p.name = .ok ⟨owner, p.name, p.types⟩
  forwards : ∃ body, triad.forwarderBody p c = .ok body ∧
    a.calleeOf object true ⟨owner, p.name, p.types⟩ = .ok (p.withBody body)
  logicRef : triad.logicRef = (⟨.logic, p.signature⟩ : SynthKey).ref owner
  runs : a.calleeOf object true triad.logicRef = .ok logic
  sends : ∀ kind ∈ c.kinds.toList, ∃ ref body, triad.writerRef p.name kind = .ok ref ∧
    ref.types = p.types ∧ loom.senderBody p c id kind = .ok body ∧
    a.calleeOf object true ref = .ok (p.writerOf kind body)
  receives : ∀ kind ∈ c.kinds.toList, ∃ body,
    loom.receiverBody p c kind triad.logicRef = .ok body ∧
    a.calleeOf object false ((⟨.reader kind, p.signature⟩ : SynthKey).ref owner) =
      .ok (p.readerOf kind body)

namespace Loom.Answers

variable {settings : Settings} {a : Assembly} {object : NetObject} {p logic : Procedure}
  {c : Contract} {id : RpcId} {owner : String} {triad : Triad} {args : List Value} {kind : Kind}
  {after : Host → Host} {more : Nat}

theorem logicTypes {loom : Loom} (h : Answers loom a object p c id owner triad logic) :
    triad.logicRef.types = p.types := by
  rw [h.logicRef]
  rfl

/-- A call sends, unless the object fails a check, and in either case runs its logic if that is to
run here as well. -/
theorem call_eq (h : Answers ⟨.standard, settings⟩ a object p c id owner triad logic)
    (hargs : p.Takes args)
    (hlogic : ∀ host, a.Completes object logic args host none (after host) none more)
    (hbudget : 3 * (c.layout.fields p.parameters).length + more + 2 * args.length + 33 ≤ stepBudget)
    (host : Host) (hopen : host.refusesSends = false) :
    ∃ host', Loom.Sends ⟨.standard, settings⟩ p c id (c.sentAs args) object args host host' ∧
      a.call object p.name args host =
        (.ok (), if c.runLocally then after host' else host') := by
  have hkind := c.sentAs_mem args
  have hlength := hargs.length_eq
  obtain ⟨forwarder, hforwarder, hcallee⟩ := h.forwards
  obtain ⟨ref, body, hwriter, htypes, hbody, hsender⟩ := h.sends _ hkind
  have hfirst : c.kinds = .observersAndTarget → args ≠ [] := by
    intro hkinds hnone
    obtain ⟨id, hid⟩ := h.keeps.at_target hargs (by rw [hkinds]; rfl)
    rw [hnone] at hid
    cases hid
  -- the three procedures that a call runs, from the innermost outwards
  obtain ⟨host', hsent, cost, hcost, hsends⟩ :=
    Assembly.completes_sender a none h.keeps hkind hbody hargs hopen
  obtain ⟨spent, hspent, hruns⟩ := Assembly.completes_forwarder hforwarder hlength hfirst
    hwriter (by rw [htypes, Procedure.types, List.length_map, hlength]) hsender hsends
    (by rw [h.logicTypes, Procedure.types, List.length_map, hlength]) h.runs (hlogic _)
  refine ⟨host', hsent, ?_⟩
  rw [Assembly.call, h.named]
  simp only [Assembly.invoke_of_completes hcallee hruns (by omega)]

/-- A receiver takes the fields of a call from the packet, and runs the logic on what arrived or
turns the call away. -/
theorem receive_eq (h : Answers ⟨.standard, settings⟩ a object p c id owner triad logic)
    (hargs : p.Takes args) (hkind : kind ∈ c.kinds.toList) (channel : Channel)
    (sender : Option ConnectionId)
    (hlogic : ∀ host left, a.Completes object logic
      (c.layout.arriving channel sender object.localConnection args) host (some left) (after host)
      (some left) more)
    (hbudget : 3 * (c.layout.fields p.parameters).length + 2 * args.length + more + 9 ≤ stepBudget)
    (left : Wire.Bits) (host : Host) :
    a.receive object ((⟨.reader kind, p.signature⟩ : SynthKey).ref owner)
        ((Layout.payload (c.layout.fields p.parameters) args).flatMap Wire.fieldBits ++ left)
        channel sender host =
      (.ok (), if c.accepts kind object sender then after host else host.refusing kind, left) := by
  obtain ⟨body, hbody, hcallee⟩ := h.receives kind hkind
  -- what travelled is taken from the packet, and filled in where it came from
  let fields := Layout.payload (c.layout.fields p.parameters) args
  have htake : Wire.takeFields ((c.layout.fields p.parameters).map (·.2.type))
      (fields.flatMap Wire.fieldBits ++ left) = (.ok (fields.map (·.2)), left) := by
    rw [← h.keeps.types_payload hargs]
    exact Wire.takeFields_fieldBits (fun f hf => h.keeps.check_payload hargs hf) left
  have hfilled : c.layout.filled channel sender object.localConnection (fields.map (·.2)) =
      c.layout.arriving channel sender object.localConnection args := by
    rw [h.keeps.values_payload hargs]
    exact Role.fill_values (hargs.length_eq.symm.trans h.keeps.length_roles.symm)
  have hends : ∀ vs last, Wire.takeFields ((c.layout.fields p.parameters).map (·.2.type))
      (fields.flatMap Wire.fieldBits ++ left) = (.ok vs, last) →
      a.Completes object logic (c.layout.filled channel sender object.localConnection vs) host
        (some last) (after host) (some last) more := by
    intro vs last htaken
    have hsame := htake.symm.trans htaken
    obtain rfl : fields.map (·.2) = vs := Except.ok.inj (congrArg Prod.fst hsame)
    obtain rfl : left = last := congrArg Prod.snd hsame
    rw [hfilled]
    exact hlogic host left
  rw [Assembly.receive_eq h.keeps hkind hbody rfl hcallee
    (by rw [h.logicTypes, Procedure.types, List.length_map]) h.runs hends
    (by rw [hargs.length_eq]; exact hbudget), htake]

end Loom.Answers

namespace Loom.Reported

variable {loom : Loom} {a : Assembly} {r : TypeReport} {t F : TypeDef} {counter : IdCounter}
  {turns : List (Job × Fate)} {v : TypeWeaving} {x : Job × Fate} {triad : Triad} {b : Body}
  {object : NetObject} {logic : Procedure}

/-- Objects of a type answer the calls of their own name that were woven in it. -/
theorem answers (h : loom.Reported a r t F counter turns v) (ht : t.Fresh) (hx : x ∈ turns)
    (halone : t.NamedAlone x.1.id) (hf : x.2 = .woven triad b) (hobject : object.typeName = t.name)
    (hlogic : (loom.weave (.start a)).1.assembly.calleeOf object true triad.logicRef =
      .ok logic) :
    Answers loom (loom.weave (.start a)).1.assembly object x.1.served x.1.contract x.1.rpcId
      t.name triad logic := by
  have href := h.logicRef ht hx hf
  refine ⟨Procedure.keeps_of_contract? (h.went.declared hx).2, ?_,
    ⟨b, (h.woven ht hx halone hf).forwarder, h.calleeOf_forwarder ht hx halone hf hobject⟩, href,
    hlogic, fun kind hkind => h.sender ht hx halone hf hobject hkind, fun kind hkind => ?_⟩
  · rw [hobject]
    exact h.methodNamed ht hx halone hf
  · obtain ⟨body, hbody, hcallee⟩ := h.reader ht (h.firstTurn hx halone) hf hkind
    rw [← href] at hbody
    exact ⟨body, hbody, hcallee object⟩

end Loom.Reported

end RpcLoom
