/-
RpcLoom/Proofs/OverrideTrip.lean

A call along a chain of overrides, from one side to the other.

Design.  The call on an object of the last type is answered with the code of the
nearest type that declares it: the types between have no procedures, so they hand
every search on (`Inheriting`), and that code runs through the whole chain
(`Overriding`).  So the trip of the call is that of any woven call (`Answers`),
with the chain for its logic.  It has one sender and no arguments that stay here,
so what is sent are the arguments, and what arrives.

A run has a budget of steps, which bounds the chain and the arguments.  The bound
that is asked for is close: an unchecked call whose code runs here as well spends
all of it but 23 steps (`overrides_overrun`).

Main result:
- `Loom.overrides_run`: a call along a chain of overrides is sent once, and all
  code of the chain runs where it is delivered, the lower before the higher.
-/
import RpcLoom.Proofs.Overriding
import RpcLoom.Proofs.RoundTrip
import RpcLoom.Proofs.Unfailing

namespace RpcLoom

open Wire (Bits)

/-! ### Calls all of whose arguments travel -/

namespace Procedure.Keeps

variable {p : Procedure} {c : Contract} {args : List Value}

theorem roles_eq (h : p.Keeps .standard c)
    (htravels : ∀ x ∈ p.parameters, Codec.standard.hasSerializer x.type = true) :
    c.layout.roles = List.replicate p.parameters.length .serialized := by
  rw [List.eq_replicate_iff]
  refine ⟨h.length_roles, fun role hrole => ?_⟩
  obtain ⟨i, hi⟩ := List.mem_iff_getElem?.mp hrole
  rw [h.layout] at hi
  obtain ⟨x, hx, hasks⟩ := Layout.parameter_of_role hi
  have hx' := htravels x (List.mem_of_getElem? hx)
  cases role with
  | serialized => rfl
  | channel =>
    rw [show x.type = .channel from hasks] at hx'
    cases hx'
  | target =>
    rw [hasks.2.2] at hx'
    cases hx'
  | caller =>
    rw [hasks.2] at hx'
    cases hx'

theorem values_eq (h : p.Keeps .standard c)
    (htravels : ∀ x ∈ p.parameters, Codec.standard.hasSerializer x.type = true)
    (hargs : p.Takes args) :
    (Layout.payload (c.layout.fields p.parameters) args).map (·.2) = args := by
  have hall : ∀ vs : List Value,
      Layout.values (List.replicate vs.length .serialized) vs = vs := by
    intro vs
    induction vs with
    | nil => rfl
    | cons v vs ih => rw [List.length_cons, List.replicate_succ, Layout.values, ih]
  rw [h.values_payload hargs, h.roles_eq htravels, hargs.length_eq, hall]

theorem arriving_eq (h : p.Keeps .standard c)
    (htravels : ∀ x ∈ p.parameters, Codec.standard.hasSerializer x.type = true)
    (hargs : p.Takes args) (channel : Channel) (sender own : Option ConnectionId) :
    c.layout.arriving channel sender own args = args := by
  have hall : ∀ vs : List Value, List.zipWith (Role.arriving channel sender own)
      (List.replicate vs.length .serialized) vs = vs := by
    intro vs
    induction vs with
    | nil => rfl
    | cons v vs ih => rw [List.length_cons, List.replicate_succ, List.zipWith_cons_cons, ih]; rfl
  rw [Layout.arriving, h.roles_eq htravels, hargs.length_eq, hall]

theorem length_fields_eq (h : p.Keeps .standard c)
    (htravels : ∀ x ∈ p.parameters, Codec.standard.hasSerializer x.type = true)
    (hargs : p.Takes args) : (c.layout.fields p.parameters).length = args.length := by
  rw [← h.length_payload hargs, ← List.length_map (f := (·.2)), h.values_eq htravels hargs]

end Procedure.Keeps

/-! ### The call of a type that declares one -/

theorem TypeDef.Declares.namesDiffer {t : TypeDef} {s : Signature} {p : Procedure}
    (h : t.Declares s p) : t.NamesDiffer := by
  rw [TypeDef.NamesDiffer, h.only]
  exact List.nodup_singleton _

theorem TypeDef.Declares.takes {t : TypeDef} {s : Signature} {p : Procedure} (h : t.Declares s p)
    {args : List Value} (hargs : List.Forall₂ (fun type v => type.takes v = true) s.types args) :
    p.Takes args := by
  have htypes : p.parameters.map (·.type) = s.types := congrArg Signature.types h.signature
  rw [← htypes, List.forall₂_map_left_iff] at hargs
  exact hargs

/-- Objects that inherit from a type answer what the objects of the type answer. -/
theorem Loom.Answers.of_inherits {loom : Loom} {a : Assembly} {object : NetObject}
    {p logic : Procedure} {c : Contract} {id : RpcId} {base owner : String} {triad : Triad}
    (hobject : a.Inherits object.typeName base)
    (h : Answers loom a { object with typeName := base } p c id owner triad logic) :
    Answers loom a object p c id owner triad logic := by
  obtain ⟨body, hbody, hforwarder⟩ := h.forwards
  refine ⟨h.keeps, hobject.methodNamed h.named, ⟨body, hbody, hobject.calleeOf hforwarder⟩,
    h.logicRef, hobject.calleeOf h.runs, fun kind hkind => ?_, fun kind hkind => ?_⟩
  · obtain ⟨ref, sender, href, htypes, hsender, hcallee⟩ := h.sends kind hkind
    exact ⟨ref, sender, href, htypes, hsender, hobject.calleeOf hcallee⟩
  · obtain ⟨receiver, hreceiver, hcallee⟩ := h.receives kind hkind
    exact ⟨receiver, hreceiver, hobject.calleeOf hcallee⟩

namespace Loom.Faultless

variable {loom : Loom} {a : Assembly} {w : Weaving} {k : TypeId} {t : TypeDef} {s : Signature}
  {p : Procedure} {body : Body} {after : List TypeId}

/-- The call that a type declares is registered, and objects that inherit from the type answer it
with its code, in which base calls are led on. -/
theorem answers (h : loom.Faultless a w) (ht : a.type? k = some t) (hp : t.Declares s p)
    (hab : a.ancestors k = .ok after) (hbody : p.body = some body) :
    ∃ r ∈ (loom.weave (.start a)).2.reports, r.typeName = t.name ∧ ∃ table,
      (loom.weave (.start a)).1.table? t.name = some table ∧ ∃ reg ∈ r.registrations,
        reg.procedure = 0 ∧ ∃ c triad, (c.kinds = .single .server →
          ∃ entry, table.get? .server reg.id = some entry ∧
            entry.reader = (⟨.reader .server, s⟩ : SynthKey).ref t.name) ∧
        ∀ object : NetObject,
          (loom.weave (.start a)).1.assembly.Inherits object.typeName t.name →
          Answers loom (loom.weave (.start a)).1.assembly object p c reg.id t.name triad
            (p.logicOf (body.mapMethods (a.leading after p))) := by
  have hfresh := h.fresh t (List.mem_of_getElem? ht)
  obtain ⟨above, counter, turns, v, -, hflawless, -, -, hr, F, hreported⟩ := h.types k t ht
  -- the type declares a single call, so its first turn is the turn of that call
  obtain ⟨before, x, rest, rfl, hid, rfl, -, -⟩ :=
    hflawless.first (hp.firstCall? hfresh) hp.here
  obtain ⟨triad, b, hf⟩ := hflawless.woven x (by simp)
  have hx : x ∈ before ++ x :: rest := by simp
  have href := hreported.logicRef hfresh hx hf
  refine ⟨v.report, hr, hreported.named, v.table, hreported.named ▸ hreported.table, _,
    hreported.mem_registrations hx hf, hid, x.1.contract, triad, fun hkinds => ?_,
    fun object hobject => .of_inherits hobject ?_⟩
  · refine ⟨_, (hreported.get?_iff h.names hfresh hr).mpr
      ⟨x, hx, triad, b, hf, rfl, by rw [hkinds]; exact List.mem_singleton_self _, rfl⟩, ?_⟩
    rw [← hp.signature]
    rfl
  · -- the logic holds the code of the call, with its base calls led on
    refine hreported.answers hfresh hx (hp.namesDiffer.namedAlone _) hf rfl ?_
    obtain ⟨l, F', after', body', hF, hafter, hbody', hfound, hlogic⟩ :=
      h.keeps ht (hp.signature.symm ▸ hp.firstCall? hfresh) hp.here
    obtain rfl := Option.some.inj (hF.symm.trans (h.type?_eq ht hreported))
    obtain rfl := Except.ok.inj (hab.symm.trans hafter)
    obtain rfl := Option.some.inj (hbody.symm.trans hbody')
    rw [hreported.relinked.findSynthesized?_eq] at hfound
    rw [href]
    exact hreported.calleeOf hfresh hfound hlogic (.inr rfl)

end Loom.Faultless

/-! ### The trip -/

/-- A packet of one call is delivered to its receiver, whatever fills up its last octet. -/
theorem Reception.deliver_one {r : Reception} {c : SentCall} {entry : DispatchEntry}
    {host host' : Host} (hget : r.table.get? r.kind c.id = some entry)
    (hreceive : ∀ left, r.assembly.receive r.object entry.reader
      (c.payload.flatMap Wire.fieldBits ++ left) r.channel r.sender host = (.ok (), host', left))
    (trailer : Option UInt32) (filling : Bits) :
    r.deliver ([c].flatMap Wire.callBits ++ (false :: Wire.trailerBits trailer) ++ filling) host =
      (.ok ⟨[c.id], trailer⟩, host') := by
  have hpacket : [c].flatMap Wire.callBits ++ (false :: Wire.trailerBits trailer) ++ filling =
      true :: (Wire.bitsOf 32 c.id.toNat ++ (c.payload.flatMap Wire.fieldBits ++
        (false :: (Wire.trailerBits trailer ++ filling)))) := by
    simp [Wire.callBits]
  rw [hpacket, deliver, List.length_cons, dispatchAll, nextCall_head hget]
  -- one round takes the call, and the next one meets the end mark
  simp only [hreceive, List.length_append, List.length_cons]
  rw [← Nat.add_assoc, ← Nat.add_assoc, dispatchAll]
  simp only [nextCall, Wire.readFlag, bind, Except.bind]
  simp [Except.map, Wire.readTrailer_trailerBits]

namespace Loom.Answers

variable {settings : Settings} {a : Assembly} {object : NetObject} {p logic : Procedure}
  {c : Contract} {id : RpcId} {owner : String} {triad : Triad} {args : List Value}
  {after : Host → Host} {more : Nat}

/-- An owner's call to the server is sent with the arguments it was given. -/
theorem call_of_travels (h : Answers ⟨.standard, settings⟩ a object p c id owner triad logic)
    (hkinds : c.kinds = .single .server)
    (htravels : ∀ x ∈ p.parameters, Codec.standard.hasSerializer x.type = true)
    (hargs : p.Takes args) (howner : object.isOwner = true) (hclient : object.isClient = true)
    (hlogic : ∀ host, a.Completes object logic args host none (after host) none more)
    (hbudget : 5 * args.length + more + 33 ≤ stepBudget) :
    ∃ (sent : SentCall) (writers : WriterPool), sent.kind = .server ∧ sent.id = id ∧
      sent.payload = Layout.payload (c.layout.fields p.parameters) args ∧ sent.values = args ∧
      (∀ handle, writers.fields? handle = none) ∧
      a.call object p.name args .fresh =
        (.ok (), if p.annotations.any (·.policy.runLocally) then
            after { Host.fresh with sent := #[sent], writers }
          else { Host.fresh with sent := #[sent], writers }) := by
  have hsentAs : c.sentAs args = .server := by rw [Contract.sentAs, hkinds]
  have hfields := h.keeps.length_fields_eq htravels hargs
  obtain ⟨host', hsends, hcall⟩ := h.call_eq hargs hlogic (by rw [hfields]; omega) .fresh rfl
  obtain ⟨writers, hlent, rfl⟩ := hsends.handed
    (fun _ => by rw [hsentAs]; simp [Contract.maySend, howner, hclient])
  have hlocally : c.runLocally = p.annotations.any (·.policy.runLocally) := by
    rw [Contract.runLocally, h.keeps.annotations]
  refine ⟨Loom.outgoing ⟨.standard, settings⟩ p c id (c.sentAs args) args, writers, hsentAs, rfl,
    rfl, h.keeps.values_eq htravels hargs, fun handle => ?_, ?_⟩
  · rw [hlent.fields]
    exact WriterPool.fields?_empty handle
  · rw [hcall, hlocally]
    rfl

/-- What an owner called is written, if a packet has room for it, and runs where it is
delivered. -/
theorem deliver_of_travels (h : Answers ⟨.standard, settings⟩ a object p c id owner triad logic)
    (hkinds : c.kinds = .single .server)
    (htravels : ∀ x ∈ p.parameters, Codec.standard.hasSerializer x.type = true)
    (hargs : p.Takes args) {sender : Option ConnectionId}
    (howned : object.ownedByConnection sender = true)
    (hlogic : ∀ host left,
      a.Completes object logic args host (some left) (after host) (some left) more)
    (hbudget : 5 * args.length + more + 9 ≤ stepBudget) {sent : SentCall} (hid : sent.id = id)
    (hpayload : sent.payload = Layout.payload (c.layout.fields p.parameters) args)
    {table : DispatchTable} {entry : DispatchEntry} (hget : table.get? .server id = some entry)
    (hreader : entry.reader = (⟨.reader .server, p.signature⟩ : SynthKey).ref owner)
    (channel : Channel) {trailer : Option UInt32}
    (hroom : 34 + (args.flatMap Wire.bitsOfValue).length + (Wire.trailerBits trailer).length ≤
      Wire.capacity) (host : Host) :
    ∃ packet, Wire.writePacket [sent] trailer = .ok packet ∧
      Reception.deliver ⟨a, object, table, .server, channel, sender⟩
          (Wire.bitsOfOctets (Wire.octetsOf packet)) host =
        (.ok ⟨[id], trailer⟩, after host) := by
  have hvalues : sent.values = args := by
    rw [SentCall.values, hpayload, h.keeps.values_eq htravels hargs]
  have hchecked : ∀ x ∈ [sent], ∀ f ∈ x.payload, Wire.check f.1 f.2 = .ok () := by
    intro x hx f hf
    rw [List.mem_singleton.mp hx, hpayload] at hf
    exact h.keeps.check_payload hargs hf
  have hsize : (Wire.callBits sent).length = 33 + (args.flatMap Wire.bitsOfValue).length := by
    rw [Wire.length_callBits, hvalues]
  have hwritten := Wire.writePacket_eq [sent] trailer hchecked
    (by rw [List.flatMap_singleton]; omega)
  -- the octets hold the bits of the packet and some more, which nobody reads
  obtain ⟨filling, hfilling⟩ := Wire.bitsOfOctets_octetsOf
    ([sent].flatMap Wire.callBits ++ (false :: Wire.trailerBits trailer))
  refine ⟨_, hwritten, ?_⟩
  rw [hfilling, ← hid]
  rw [← hid] at hget
  refine Reception.deliver_one hget (fun left => ?_) trailer filling
  have hmem : Kind.server ∈ c.kinds.toList := by
    rw [hkinds]
    exact List.mem_singleton_self _
  have hfields := h.keeps.length_fields_eq htravels hargs
  have harrives := h.keeps.arriving_eq htravels hargs channel sender object.localConnection
  have hreceive := h.receive_eq hargs hmem channel sender
    (fun host left => by rw [harrives]; exact hlogic host left) (by rw [hfields]; omega) left host
  have haccepts : c.accepts .server object sender = true := by
    simp [Contract.accepts, howned]
  rw [hpayload, hreader]
  rw [haccepts, if_pos rfl] at hreceive
  exact hreceive

end Loom.Answers

/-- An assembly that was woven without an error, a chain of overrides of `s` in it from the type
`leaf` upwards, and arguments for a call along the chain. -/
structure Loom.Overridden (loom : Loom) (a : Assembly) (leaf : TypeDef) (chain : List TypeId)
    (s : Signature) (symbols : List String) (args : List Value) : Prop where
  names : a.NamesDiffer
  fresh : ∀ t ∈ a.types, t.Fresh
  woven : (loom.weave (.start a)).2.allErrors = []
  chained : ∃ i, a.type? i = some leaf ∧ a.chain i = .ok chain
  overrides : a.Overrides s chain symbols
  takes : List.Forall₂ (fun type v => type.takes v = true) s.types args

namespace Loom

variable {loom : Loom} {settings : Settings} {a : Assembly} {leaf : TypeDef} {chain : List TypeId}
  {s : Signature} {symbols : List String} {args : List Value}

/-- What a chain of overrides has become for objects of its first type: they answer the call with
the code of the nearest type that declares it, which records all symbols of the chain. -/
theorem Overridden.answers (h : Overridden loom a leaf chain s symbols args) :
    ∃ k after t p, a.Nearest s chain k after t p ∧ p.Takes args ∧
      ∃ r ∈ (loom.weave (.start a)).2.reports, r.typeName = t.name ∧
      ∃ table, (loom.weave (.start a)).1.table? t.name = some table ∧
      ∃ reg ∈ r.registrations, reg.procedure = 0 ∧ ∃ c triad body cost,
        c.kinds = .single .server ∧
        (∃ entry, table.get? .server reg.id = some entry ∧
          entry.reader = (⟨.reader .server, s⟩ : SynthKey).ref t.name) ∧
        (∀ object : NetObject, object.typeName = leaf.name →
          Answers loom (loom.weave (.start a)).1.assembly object p c reg.id t.name triad
            (p.logicOf body)) ∧
        cost + (args.length + 2) = (2 * args.length + 4) * symbols.length ∧
        (∀ object host packet, (loom.weave (.start a)).1.assembly.Completes object
          (p.logicOf body) args host packet (host.recorded symbols args) packet cost) ∧
        ∀ object, (loom.weave (.start a)).1.assembly.Costs object body.code cost := by
  obtain ⟨i, hleaf, hchain⟩ := h.chained
  obtain ⟨w, hfaultless⟩ := faultless_of_errors h.names h.fresh h.woven
  obtain ⟨above, hab, rfl⟩ := Assembly.of_chain hchain
  obtain ⟨k, after, t, p, body, cost, hnear, hafter, hbody, hcost, hruns, hcosts⟩ :=
    hfaultless.records h.overrides h.takes.length_eq.symm rfl hab
  have hp := hnear.declares
  obtain ⟨r, hr, hname, table, htable, reg, hreg, hfirst, c, triad, hentry, hanswers⟩ :=
    hfaultless.answers hnear.type hp hafter hbody
  obtain ⟨before, hsplit, hvacant⟩ := hnear.split
  rw [hsplit] at hchain
  -- the types before the nearest one are empty, so objects of the leaf answer as its objects do
  have hinherits := hfaultless.inherits hleaf hchain hvacant hnear.type
  have hobjects : ∀ object : NetObject, object.typeName = leaf.name →
      Answers loom (loom.weave (.start a)).1.assembly object p c reg.id t.name triad
        (p.logicOf (body.mapMethods (a.leading after p))) :=
    fun object hobject => hanswers object (hobject ▸ hinherits)
  have hkinds : c.kinds = .single .server := by
    have hkeeps := (hobjects (.server leaf.name none) rfl).keeps.kinds
    rw [hp.kinds] at hkeeps
    exact (Option.some.inj hkeeps).symm
  exact ⟨k, after, t, p, hnear, hp.takes h.takes, r, hr, hname, table, htable, reg, hreg, hfirst, c,
    triad, _, cost, hkinds, hentry hkinds, hobjects, hcost, hruns, hcosts⟩

/-- A call along a chain of overrides.  It is sent once, under the id of the nearest type that
declares it.  A packet that has room for it is written, and where that is delivered, all code of
the chain runs in turn.  The steps that suffice grow with the arguments and with the chain. -/
theorem overrides_run (h : Overridden ⟨.standard, settings⟩ a leaf chain s symbols args)
    (hbudget : (2 * args.length + 4) * symbols.length + 4 * args.length + 31 ≤ stepBudget)
    {caller receiver : NetObject} (hcaller : caller.typeName = leaf.name)
    (howner : caller.isOwner = true) (hclient : caller.isClient = true)
    (hreceiver : receiver.typeName = leaf.name) {sender : Option ConnectionId}
    (howned : receiver.ownedByConnection sender = true) :
    let woven := Loom.weave ⟨.standard, settings⟩ (.start a)
    ∃ k after t p, a.Nearest s chain k after t p ∧
      ∃ r ∈ woven.2.reports, r.typeName = t.name ∧ ∃ table, woven.1.table? t.name = some table ∧
      ∃ reg ∈ r.registrations, reg.procedure = 0 ∧ ∃ (sent : SentCall) (writers : WriterPool),
        sent.kind = .server ∧ sent.id = reg.id ∧ sent.values = args ∧
        (∀ handle, writers.fields? handle = none) ∧
        woven.1.assembly.call caller s.name args .fresh =
          (.ok (), { Host.fresh with sent := #[sent], writers }.recorded
            (if p.annotations.any (·.policy.runLocally) then symbols else []) args) ∧
        ∀ channel trailer,
          34 + (args.flatMap Wire.bitsOfValue).length + (Wire.trailerBits trailer).length ≤
            Wire.capacity →
          ∃ packet, Wire.writePacket [sent] trailer = .ok packet ∧
            Reception.deliver ⟨woven.1.assembly, receiver, table, .server, channel, sender⟩
                (Wire.bitsOfOctets (Wire.octetsOf packet)) .fresh =
              (.ok ⟨[reg.id], trailer⟩, Host.fresh.recorded symbols args) := by
  intro woven
  obtain ⟨k, after, t, p, hnear, htakes, r, hr, hname, table, htable, reg, hreg, hfirst, c, triad,
    body, cost, hkinds, ⟨entry, hget, hreader⟩, hanswers, hcost, hruns, -⟩ := h.answers
  have hp := hnear.declares
  obtain ⟨sent, writers, hkind, hid, hpayload, hvalues, hwriters, hcall⟩ :=
    (hanswers caller hcaller).call_of_travels hkinds hp.travels htakes howner hclient
      (hruns caller · none) (by omega)
  refine ⟨k, after, t, p, hnear, r, hr, hname, table, htable, reg, hreg, hfirst, sent, writers,
    hkind, hid, hvalues, hwriters, ?_, fun channel trailer hroom => ?_⟩
  · rw [← hp.signature]
    refine hcall.trans ?_
    split
    · rfl
    · rw [Host.recorded_nil]
  · exact (hanswers receiver hreceiver).deliver_of_travels hkinds hp.travels htakes howned
      (hruns receiver · <| some ·) (by omega) hid hpayload hget (hp.signature ▸ hreader) channel
      hroom .fresh

end Loom

namespace Sample

/-- A call with so many arguments, and its code. -/
def strike (arity : Nat) (attributes : List Attribute) (modifiers : Modifiers) (code : Block) :
    Procedure :=
  { Procedure.declare "Strike" with
    parameters := List.replicate arity ⟨"power", .named "u32", false, false⟩
    attributes, modifiers, body := some (.ofCode code) }

/-- Four types, each deriving from the one before.  The first and the third declare the call. -/
def troop : Assembly :=
  ⟨[⟨"Actor", none, [strike 1 [⟨"ServerRpc", []⟩] { Modifiers.default with isVirtual := true }
      (recordingCode "game::actor" 1 [.leave])]⟩,
    ⟨"Prop", some "Actor", []⟩,
    ⟨"Enemy", some "Prop", [strike 1 [⟨"ServerRpc", [("RunLocally", .bool true)]⟩]
      { Modifiers.default with isOverride := true }
      (recordingCode "game::enemy" 1
        (Body.baseCall ⟨"Prop", "Strike", [.named "u32"]⟩).code)]⟩,
    ⟨"Grunt", some "Enemy", []⟩]⟩

theorem unwoven_troop : ∀ t ∈ troop.types, t.Unwoven := by decide

theorem overrides_troop :
    troop.Overrides ⟨"Strike", [.named "u32"]⟩ [3, 2, 1, 0] ["game::enemy", "game::actor"] := by
  refine .passed rfl rfl (.overriding rfl rfl ⟨rfl, rfl, rfl, rfl, by decide⟩ rfl rfl ?_)
  exact .passed rfl rfl (.last rfl ⟨rfl, rfl, rfl, rfl, by decide⟩ rfl rfl)

theorem overridden_troop :
    Loom.Overridden ⟨.standard, .default⟩ troop ⟨"Grunt", some "Enemy", []⟩ [3, 2, 1, 0]
      ⟨"Strike", [.named "u32"]⟩ ["game::enemy", "game::actor"] [.u32 7] where
  names := by decide
  fresh := fun t ht => (unwoven_troop t ht).fresh
  woven := by decide +kernel
  chained := ⟨3, rfl, rfl⟩
  overrides := overrides_troop
  takes := .cons (by decide) .nil

end Sample

open Sample in
/-- A call on the last type of the troop is recorded twice on either side. -/
theorem Loom.overrides_run_troop :
    Loom.Overridden ⟨.standard, .default⟩ troop ⟨"Grunt", some "Enemy", []⟩ [3, 2, 1, 0]
      ⟨"Strike", [.named "u32"]⟩ ["game::enemy", "game::actor"] [.u32 7] ∧
    let woven := Loom.weave ⟨.standard, .default⟩ (.start troop)
    ∃ k after t p, troop.Nearest ⟨"Strike", [.named "u32"]⟩ [3, 2, 1, 0] k after t p ∧
      ∃ r ∈ woven.2.reports, r.typeName = t.name ∧ ∃ table, woven.1.table? t.name = some table ∧
      ∃ reg ∈ r.registrations, reg.procedure = 0 ∧ ∃ (sent : SentCall) (writers : WriterPool),
        sent.kind = .server ∧ sent.id = reg.id ∧ sent.values = [.u32 7] ∧
        (∀ handle, writers.fields? handle = none) ∧
        woven.1.assembly.call (.client "Grunt" 1) "Strike" [.u32 7] .fresh =
          (.ok (), { Host.fresh with sent := #[sent], writers }.recorded
            (if p.annotations.any (·.policy.runLocally) then ["game::enemy", "game::actor"]
              else []) [.u32 7]) ∧
        ∀ channel trailer, 34 + ([Value.u32 7].flatMap Wire.bitsOfValue).length +
            (Wire.trailerBits trailer).length ≤ Wire.capacity →
          ∃ packet, Wire.writePacket [sent] trailer = .ok packet ∧
            Reception.deliver
                ⟨woven.1.assembly, .server "Grunt" (some 1), table, .server, channel, some 1⟩
                (Wire.bitsOfOctets (Wire.octetsOf packet)) .fresh =
              (.ok ⟨[reg.id], trailer⟩,
                Host.fresh.recorded ["game::enemy", "game::actor"] [.u32 7]) :=
  ⟨overridden_troop, overrides_run overridden_troop (by decide) rfl rfl rfl rfl rfl⟩

/-! ### Where the steps end -/

/-- The steps do not suffice for much less.  A call that is sent unchecked, and whose code runs here
as well, ends badly if it takes that many steps. -/
theorem Loom.overrides_overrun {settings : Settings} {a : Assembly} {leaf : TypeDef}
    {chain : List TypeId} {s : Signature} {symbols : List String} {args : List Value}
    (h : Overridden ⟨.standard, settings⟩ a leaf chain s symbols args)
    (hguards : settings.guards = false)
    (hlocally : ∀ k after t p, a.Nearest s chain k after t p →
      p.annotations.any (·.policy.runLocally) = true)
    (hmuch : stepBudget < (2 * args.length + 4) * symbols.length + 4 * args.length + 8)
    {caller : NetObject} (hcaller : caller.typeName = leaf.name) (host : Host) :
    ((Loom.weave ⟨.standard, settings⟩ (.start a)).1.assembly.call caller s.name args host).1 ≠
      .ok () := by
  obtain ⟨k, after, t, p, hnear, htakes, r, -, -, _, -, reg, -, -, c, triad, body, cost, hkinds, -,
    hanswers, hcost, -, hcosts⟩ := h.answers
  have hp := hnear.declares
  have hcalled := hanswers caller hcaller
  have hfields := hcalled.keeps.length_fields_eq hp.travels htakes
  have hlength : args.length = p.parameters.length := htakes.length_eq.symm
  have hlocal : c.runLocally = true := by
    rw [Contract.runLocally, hcalled.keeps.annotations]
    exact hlocally k after t p hnear
  rw [← hp.signature]
  exact hcalled.call_ne_ok Codec.honest_standard hguards hkinds hlocal rfl (hcosts caller)
    (by omega) args host

namespace Sample

/-- A call with so many arguments that is recorded on either side. -/
def shout (arity : Nat) : Procedure :=
  strike arity [⟨"ServerRpc", [("RunLocally", .bool true)]⟩]
    { Modifiers.default with isVirtual := true } (recordingCode "game::actor" arity [.leave])

/-- The usual settings, without checks in senders. -/
def unguarded : Settings := { Settings.default with guards := false }

/-- A type that has this call, and derives from none. -/
def soloist (arity : Nat) : TypeDef := ⟨"Actor", none, [shout arity]⟩

variable {arity : Nat} {settings : Settings}

theorem unwoven_soloist (arity : Nat) : (soloist arity).Unwoven := by
  rw [TypeDef.unwoven_iff]
  intro p hp
  rw [List.mem_singleton.mp hp]
  exact ⟨rfl, rfl⟩

theorem declares_soloist (arity : Nat) :
    (soloist arity).Declares ⟨"Strike", List.replicate arity (.named "u32")⟩ (shout arity) where
  only := rfl
  signature := by
    rw [Procedure.signature, Procedure.types, shout, strike, List.map_replicate]
    rfl
  kinds := rfl
  virtual := rfl
  travels := fun x hx => by
    rw [List.eq_of_mem_replicate hx]
    decide

theorem contract?_shout (arity : Nat) : ∃ c, (shout arity).contract? .standard = .ok (some c) := by
  have hfields : ((Layout.ofParameters (.single .server) (shout arity).parameters).fields
      (shout arity).parameters).findSome?
        (fun x => (shout arity).fieldRejection? .standard x.2) = none := by
    rw [List.findSome?_eq_none_iff]
    rintro ⟨i, x⟩ hx
    obtain ⟨-, hx⟩ := Layout.mem_fields.mp hx
    rw [List.eq_of_mem_replicate (List.mem_of_getElem? hx)]
    rfl
  have hkinds : KindSet.ofKinds? ((shout arity).annotations.map (·.kind)) =
      some (.single .server) := rfl
  have hremote : (shout arity).isRemote = true := rfl
  refine ⟨⟨.single .server, (shout arity).annotations,
    .ofParameters (.single .server) (shout arity).parameters⟩, ?_⟩
  rw [Procedure.contract?, hremote, hkinds]
  simp only [hfields]
  rfl

theorem woven_solo (hroom : 1 ≤ settings.allowance.toNat) :
    (Loom.weave ⟨.standard, settings⟩ (.start ⟨[soloist arity]⟩)).2.allErrors = [] := by
  obtain ⟨c, hc⟩ := contract?_shout arity
  have hdeclared : (soloist arity).declared = [(0, shout arity)] := rfl
  have hall : ∀ P : TypeDef → Prop, P (soloist arity) →
      ∀ t ∈ (⟨[soloist arity]⟩ : Assembly).types, P t := by
    intro P h t ht
    rw [List.mem_singleton.mp ht]
    exact h
  refine Loom.weave_unfailing Codec.honest_standard (List.nodup_singleton _)
    (hall _ (unwoven_soloist arity)) (hall _ (TypeDef.leavesFree_of_openings fun x hx role => ?_))
    (hall _ rfl) (hall _ ?_) (hall _ ?_)
  · have hname : x.2.name = "Strike" := by
      rw [List.mem_singleton.mp (show x ∈ [(0, (shout arity).heading)] from hx)]
      rfl
    rw [hname]
    cases role with
    | logic => decide
    | reader kind => cases kind <;> decide
    | writer kind => cases kind <;> decide
  · rw [TypeDef.rejections, hdeclared]
    simp [hc]
  · rw [TypeDef.contracts, hdeclared]
    simpa [hc] using hroom

theorem overridden_solo (hroom : 1 ≤ settings.allowance.toNat) :
    Loom.Overridden ⟨.standard, settings⟩ ⟨[soloist arity]⟩ (soloist arity) [0]
      ⟨"Strike", List.replicate arity (.named "u32")⟩ ["game::actor"]
      (List.replicate arity (.u32 0)) where
  names := List.nodup_singleton _
  fresh := fun t ht => by
    rw [List.mem_singleton.mp ht]
    exact (unwoven_soloist arity).fresh
  woven := woven_solo hroom
  chained := ⟨0, rfl, rfl⟩
  overrides := .last rfl (declares_soloist arity) rfl (by rw [List.length_replicate]; rfl)
  takes := by
    induction arity with
    | zero => exact .nil
    | succ n ih => exact .cons rfl ih

end Sample

open Sample in
/-- Without the bounds a call along a chain need not succeed, and need not be delivered.  With very
many arguments its code does not run to its end.  With many of them it is sent, but no packet holds
it. -/
theorem Loom.overrides_run_crowded :
    (Overridden ⟨.standard, unguarded⟩ ⟨[soloist 16670]⟩ (soloist 16670) [0]
        ⟨"Strike", List.replicate 16670 (.named "u32")⟩ ["game::actor"]
        (List.replicate 16670 (.u32 0)) ∧
      ((Loom.weave ⟨.standard, unguarded⟩ (.start ⟨[soloist 16670]⟩)).1.assembly.call
        (.client "Actor" 1) "Strike" (List.replicate 16670 (.u32 0)) .fresh).1 ≠ .ok ()) ∧
    Overridden ⟨.standard, .default⟩ ⟨[soloist 107]⟩ (soloist 107) [0]
      ⟨"Strike", List.replicate 107 (.named "u32")⟩ ["game::actor"]
      (List.replicate 107 (.u32 0)) ∧
    ∃ host sent, (Loom.weave ⟨.standard, .default⟩ (.start ⟨[soloist 107]⟩)).1.assembly.call
        (.client "Actor" 1) "Strike" (List.replicate 107 (.u32 0)) .fresh = (.ok (), host) ∧
      host.sent = #[sent] ∧ ∀ trailer, Wire.writePacket [sent] trailer = .error .overflow := by
  refine ⟨⟨overridden_solo (by decide), ?_⟩, overridden_solo (by decide), ?_⟩
  · refine overrides_overrun (overridden_solo (by decide)) rfl (fun k after t p hnear => ?_)
      (by rw [List.length_replicate]; decide) rfl .fresh
    -- there is one type only, so the nearest one is that type, and its call runs on either side
    have ht := List.mem_singleton.mp (List.mem_of_getElem? hnear.type)
    have hp := hnear.declares.only
    rw [ht] at hp
    rw [← List.singleton_inj.mp hp]
    rfl
  -- the writer gives up in the middle of the call, before it comes to the trailer
  · have hrun : Prod.map id (fun host : Host =>
        host.sent.toList.map fun c => [c].foldlM Wire.writeCall [])
          ((Loom.weave ⟨.standard, .default⟩ (.start ⟨[soloist 107]⟩)).1.assembly.call
            (.client "Actor" 1) "Strike" (List.replicate 107 (.u32 0)) .fresh) =
        (.ok (), [.error .overflow]) := by decide +kernel
    rcases hcall : (Loom.weave ⟨.standard, .default⟩ (.start ⟨[soloist 107]⟩)).1.assembly.call
      (.client "Actor" 1) "Strike" (List.replicate 107 (.u32 0)) .fresh with ⟨result, host⟩
    rw [hcall, Prod.map_apply, Prod.mk.injEq] at hrun
    obtain ⟨rfl, hsent⟩ := hrun
    obtain ⟨sent, hlist, hwrite⟩ := List.map_eq_singleton_iff.mp hsent
    refine ⟨host, sent, rfl, Array.toList_inj.mp hlist, fun trailer => ?_⟩
    rw [Wire.writePacket, hwrite]
    rfl

end RpcLoom
