/-
RpcLoom/Proofs/Alignment.lean

Whoever receives a packet, the same bits of it are read.

Design.  What a receiver takes from a packet depends on the types of its fields
alone (`Receivers`).  If they are there it comes to its end, whether the check
turns the call away or not, provided its logic ends well (`consumes_receiver`):
the logic holds code that only records.  So two deliveries of one packet through
one table are in the same place after each call.

Main result.  `Loom.deliver_aligned`.
-/
import RpcLoom.Proofs.Authority
import RpcLoom.Proofs.Forwards
import RpcLoom.Proofs.WovenCalls

namespace RpcLoom

namespace Assembly

variable {a : Assembly} {object : NetObject}

/-! ### One receiver -/

/-- What a receiver takes from a packet are values of some types, and it fails only where they
cannot be taken. -/
def Consumes (a : Assembly) (object : NetObject) (reader : MethodRef) (channel : Channel)
    (sender : Option ConnectionId) (types : List TypeRef) : Prop :=
  ∀ packet host, ∃ host', a.receive object reader packet channel sender host =
    ((Wire.takeFields types packet).1.map fun _ => (), host', (Wire.takeFields types packet).2)

/-- A receiver whose logic ends well takes its fields, whether it accepts a call or not. -/
theorem consumes_receiver {settings : Settings} {p : Procedure} {c : Contract}
    (hp : p.Keeps .standard c) {kind : Kind} (hkind : kind ∈ c.kinds.toList) {body : Body}
    {logic : MethodRef}
    (hbody : Loom.receiverBody ⟨.standard, settings⟩ p c kind logic = .ok body)
    {reader : MethodRef} (hreader : reader.types = (Receiver.parameters kind).map (·.type))
    (hcallee : a.calleeOf object false reader = .ok (p.readerOf kind body)) {l : Procedure}
    {more : Nat} (hlength : logic.types.length = p.parameters.length)
    (hlogic : a.calleeOf object true logic = .ok l)
    (hends : ∀ given host packet, given.length = p.parameters.length →
      ∃ host', a.Completes object l given host packet host' packet more)
    (hbudget : 5 * p.parameters.length + more + 9 ≤ stepBudget) (channel : Channel)
    (sender : Option ConnectionId) :
    a.Consumes object reader channel sender ((c.layout.fields p.parameters).map (·.2.type)) := by
  intro packet host
  let types := (c.layout.fields p.parameters).map (·.2.type)
  have hfields := c.layout.length_fields_le p.parameters
  rw [hp.length_roles] at hfields
  -- at most one host comes of it, since at most one list of values is taken
  have hafter : ∀ vs, ∃ host', ∀ left, Wire.takeFields types packet = (.ok vs, left) →
      a.Completes object l (c.layout.filled channel sender object.localConnection vs) host
        (some left) host' (some left) more := by
    intro vs
    by_cases htaken : (Wire.takeFields types packet).1 = .ok vs
    · obtain ⟨host', hend⟩ := hends _ host (some (Wire.takeFields types packet).2)
        (hp.length_filled (Prod.ext htaken rfl) channel sender object.localConnection)
      refine ⟨host', fun left hleft => ?_⟩
      rw [hleft] at hend
      exact hend
    · exact ⟨host, fun left hleft => absurd (congrArg Prod.fst hleft) htaken⟩
  choose after hafter using hafter
  have hreceive := receive_eq hp hkind hbody hreader hcallee hlength hlogic hafter (by omega)
  rcases htake : Wire.takeFields types packet with ⟨e | vs, left⟩
  · exact ⟨host, by rw [hreceive, htake]; rfl⟩
  · exact ⟨_, by rw [hreceive, htake]; rfl⟩

end Assembly

/-! ### A whole packet -/

namespace Reception

/-- The same packets, received on another object and from someone else. -/
def onto (r : Reception) (object : NetObject) (sender : Option ConnectionId) : Reception :=
  { r with object, sender }

/-- The next call of a packet is found without looking at who receives it. -/
theorem nextCall_onto (r : Reception) (object : NetObject) (sender : Option ConnectionId)
    (packet : Wire.Bits) : (r.onto object sender).nextCall packet = r.nextCall packet :=
  rfl

section

variable {r : Reception} {object : NetObject} {sender : Option ConnectionId}
  (h : ∀ id entry, r.table.get? r.kind id = some entry → ∃ types,
    r.assembly.Consumes r.object entry.reader r.channel r.sender types ∧
      r.assembly.Consumes object entry.reader r.channel sender types)

include h

/-- Before each call both deliveries are at the same place, so they find the same call there. -/
theorem dispatchAll_onto (rounds : Nat) (packet : Wire.Bits) (host other : Host) :
    ((r.onto object sender).dispatchAll rounds packet other).1 =
      (r.dispatchAll rounds packet host).1 := by
  induction rounds generalizing packet host other with
  | zero => rfl
  | succ rounds ih =>
    rw [dispatchAll, dispatchAll, nextCall_onto]
    cases hnext : r.nextCall packet with
    | error e => rfl
    | ok found =>
      rcases found with ⟨_ | ⟨id, entry⟩, packet⟩
      · rfl
      · obtain ⟨types, hhere, hthere⟩ := h id entry (get?_of_nextCall hnext)
        obtain ⟨host', hhere⟩ := hhere packet host
        obtain ⟨other', hthere⟩ := hthere packet other
        have hthere : (r.onto object sender).assembly.receive (r.onto object sender).object
            entry.reader packet (r.onto object sender).channel (r.onto object sender).sender
            other = _ := hthere
        simp only [hhere, hthere]
        cases (Wire.takeFields types packet).1 with
        | error e => rfl
        | ok vs =>
          show Except.map _ _ = Except.map _ _
          rw [ih _ host' other']

theorem deliver_onto (packet : Wire.Bits) (host other : Host) :
    ((r.onto object sender).deliver packet other).1 = (r.deliver packet host).1 := by
  have hall := dispatchAll_onto h (packet.length + 1) packet host other
  rw [deliver, deliver]
  simp only [hall]

end

end Reception

/-! ### The receivers of a table -/

/-- Every call of a type records its arguments outside, and has fewer than so many. -/
def TypeDef.Records (t : TypeDef) (limit : Nat) : Prop :=
  ∀ x ∈ t.contracts .standard, ∃ p symbol, t.procedure? x.1 = some p ∧
    p.body = some (.recording symbol p.parameters.length) ∧ p.parameters.length < limit

namespace Loom.Reported

variable {settings : Settings} {a : Assembly} {r : TypeReport} {t F : TypeDef}
  {counter : IdCounter} {turns : List (Job × Fate)} {v : TypeWeaving} {limit : Nat}

theorem records (h : Reported ⟨.standard, settings⟩ a r t F counter turns v)
    (hrecords : t.Records limit) {x : Job × Fate} (hx : x ∈ turns) :
    ∃ symbol, x.1.served.body = some (.recording symbol x.1.served.parameters.length) ∧
      x.1.served.parameters.length < limit := by
  have hmem : (x.1.id, x.1.contract) ∈ t.contracts .standard := by
    rw [← h.jobs]
    exact List.mem_map_of_mem (f := fun x => (x.1.id, x.1.contract)) hx
  obtain ⟨p, symbol, hp, hbody, hlimit⟩ := hrecords _ hmem
  obtain rfl := Option.some.inj (hp.symm.trans (h.served hx))
  exact ⟨symbol, hbody, hlimit⟩

/-- The logic of a woven call was made for a call of its signature, and records as many arguments
as that has. -/
theorem recordingLogic (h : Reported ⟨.standard, settings⟩ a r t F counter turns v)
    (ht : t.Fresh) (hrecords : t.Records limit) {x : Job × Fate} {triad : Triad} {b : Body}
    (hx : x ∈ turns) (hf : x.2 = .woven triad b) {object : NetObject}
    (hobject : object.typeName = t.name) :
    ∃ l symbol, (Loom.weave ⟨.standard, settings⟩ (.start a)).1.assembly.calleeOf object true
        ((x.1.key .logic).ref t.name) = .ok l ∧
      l.body = some (.recording symbol x.1.served.types.length) := by
  obtain ⟨u, hwoven, hgrows⟩ := h.installed ht hx hf
  have hfound := hgrows.find hwoven.installed.logic.found
  obtain ⟨p, hp, ho⟩ := TypeDef.procedure?_of_findSynthesized? hfound
  have hd := Procedure.isDeclared_of_synthesized ho
  obtain ⟨z, hz, hmade⟩ := h.went.madeFor_of_fresh ht hp hd
  obtain ⟨hsignature, body, hbody, rfl⟩ := hmade.of_logic ho
  obtain ⟨symbol, hrecording, -⟩ := h.records hrecords hz
  obtain rfl := Option.some.inj (hbody.symm.trans hrecording)
  have hplain : (z.1.served.logicOf
      (.recording symbol z.1.served.parameters.length)).Plain := Procedure.plain_recording rfl
  have hlength : z.1.served.parameters.length = x.1.served.types.length := by
    rw [← show z.1.served.types = x.1.served.types from congrArg Signature.types hsignature,
      Procedure.types, List.length_map]
  refine ⟨_, symbol, h.calleeOf ht hfound (h.relinked.kept _ _ hp (.inr hplain)) (.inr hobject),
    ?_⟩
  rw [← hlength]
  rfl

/-- The receiver that a table has for a call takes the fields of the call, whoever receives it. -/
theorem consumes (h : Reported ⟨.standard, settings⟩ a r t F counter turns v)
    (hnames : a.NamesDiffer) (ht : t.Fresh) (hrecords : t.Records 10000)
    (hr : r ∈ (Loom.weave ⟨.standard, settings⟩ (.start a)).2.reports) {kind : Kind} {id : RpcId}
    {entry : DispatchEntry} (hget : v.table.get? kind id = some entry) :
    ∃ types, ∀ object channel sender, object.typeName = t.name →
      (Loom.weave ⟨.standard, settings⟩ (.start a)).1.assembly.Consumes object entry.reader channel
        sender types := by
  obtain ⟨x, hx, triad, b, hf, rfl, hxkind, rfl⟩ := (h.get?_iff hnames ht hr).mp hget
  obtain ⟨u, hwoven, hgrows⟩ := h.installed ht hx hf
  obtain ⟨stub, -, hreader⟩ := hwoven.installed.reader? hxkind
  have hfound := hgrows.find hreader.found
  obtain ⟨y, hy, body, hsignature, hykind, hbody, hp⟩ := h.receiver ht hfound
  obtain ⟨-, hcontract⟩ := h.went.declared hy
  obtain ⟨-, -, hlimit⟩ := h.records hrecords hy
  have htypes : y.1.served.types = x.1.served.types := congrArg Signature.types hsignature
  have hlength : x.1.served.types.length = y.1.served.parameters.length := by
    rw [← htypes, Procedure.types, List.length_map]
  have hkey : y.1.key .logic = x.1.key .logic := congrArg (SynthKey.mk .logic) hsignature
  refine ⟨(y.1.contract.layout.fields y.1.served.parameters).map (·.2.type), ?_⟩
  intro object channel sender hobject
  obtain ⟨l, symbol, hlogic, hrecording⟩ := h.recordingLogic ht hrecords hx hf hobject
  have hends : ∀ given host packet, given.length = y.1.served.parameters.length →
      ∃ host', (Loom.weave ⟨.standard, settings⟩ (.start a)).1.assembly.Completes object l given
        host packet host' packet (y.1.served.parameters.length + 2) := by
    intro given host packet hgiven
    have hcode : (Body.recording symbol x.1.served.types.length).code =
        recordingCode symbol given.length [.leave] := by
      rw [hgiven, ← hlength]
      rfl
    rw [← hgiven]
    exact ⟨_, Assembly.completes_last hrecording hcode object host packet⟩
  refine Assembly.consumes_receiver (Procedure.keeps_of_contract? hcontract) hykind hbody rfl
    (h.calleeOf ht hfound hp (.inl rfl)) ?_ (hkey ▸ hlogic) hends ?_ channel sender
  · rw [hkey]
    exact hlength
  · rw [stepBudget]
    omega

end Loom.Reported

/-- A packet received through the table of a type is taken apart alike by all objects of the type,
whoever sent it: either delivery tells the same, and after each call as much is left. -/
theorem Loom.deliver_aligned (settings : Settings) {a : Assembly} (hnames : a.NamesDiffer)
    (hfresh : ∀ t ∈ a.types, t.Fresh) {r : TypeReport}
    (hr : r ∈ (Loom.weave ⟨.standard, settings⟩ (.start a)).2.reports) {table : DispatchTable}
    (htable : (Loom.weave ⟨.standard, settings⟩ (.start a)).1.table? r.typeName = some table)
    {t : TypeDef} (ht : t ∈ a.types) (hname : t.name = r.typeName) (hrecords : t.Records 10000)
    (kind : Kind) (channel : Channel) :
    (∀ first second : NetObject, first.typeName = t.name → second.typeName = t.name →
      ∀ (sender₁ sender₂ : Option ConnectionId) (packet : Wire.Bits) (host₁ host₂ : Host),
        (Reception.deliver ⟨(Loom.weave ⟨.standard, settings⟩ (.start a)).1.assembly, first, table,
          kind, channel, sender₁⟩ packet host₁).1 =
        (Reception.deliver ⟨(Loom.weave ⟨.standard, settings⟩ (.start a)).1.assembly, second, table,
          kind, channel, sender₂⟩ packet host₂).1) ∧
    ∀ id entry, table.get? kind id = some entry → ∀ packet, ∃ result left,
      ∀ object : NetObject, object.typeName = t.name → ∀ sender host, ∃ host',
        (Loom.weave ⟨.standard, settings⟩ (.start a)).1.assembly.receive object entry.reader packet
          channel sender host = (result, host', left) := by
  obtain ⟨u, F, counter, turns, v, h⟩ := reported hnames hfresh hr
  obtain rfl : v.table = table := Option.some.inj (h.table.symm.trans htable)
  obtain rfl : u = t :=
    List.inj_on_of_nodup_map hnames h.mem ht (h.named.symm.trans hname.symm)
  constructor
  · intro first second hfirst hsecond sender₁ sender₂ packet host₁ host₂
    refine Reception.deliver_onto (r := ⟨_, second, v.table, kind, channel, sender₂⟩) ?_ packet
      host₂ host₁
    intro id entry hget
    obtain ⟨types, htypes⟩ := h.consumes hnames (hfresh u ht) hrecords hr hget
    exact ⟨types, htypes second channel sender₂ hsecond, htypes first channel sender₁ hfirst⟩
  · intro id entry hget packet
    obtain ⟨types, htypes⟩ := h.consumes hnames (hfresh u ht) hrecords hr hget
    exact ⟨_, _, fun object hobject sender host => htypes object channel sender hobject packet host⟩

namespace Sample

/-- A packet of two calls to the first call of the gate. -/
def knocks : Wire.Bits :=
  let knock := true :: (Wire.bitsOf 32 0 ++ Wire.bitsOf 32 5)
  knock ++ knock ++ [false, false]

end Sample

/-- Its owner is let in twice and a stranger is not, but both are told the same of the packet. -/
theorem Loom.deliver_aligned_gate :
    Sample.gate.NamesDiffer ∧ (∀ t ∈ Sample.gate.types, t.Fresh) ∧
    ∃ r ∈ (Sample.loom.weave (.start Sample.gate)).2.reports, ∃ table,
      (Sample.loom.weave (.start Sample.gate)).1.table? r.typeName = some table ∧
      ∃ t ∈ Sample.gate.types, t.name = r.typeName ∧ t.Records 10000 ∧
      let received (object : NetObject) (sender : ConnectionId) := Reception.deliver
        ⟨(Sample.loom.weave (.start Sample.gate)).1.assembly, object, table, .server, .reliable,
          some sender⟩ Sample.knocks .fresh
      (received (.server "Gate" (some 7)) 7).1 = .ok ⟨[0, 0], none⟩ ∧
      (received (.server "Gate" (some 7)) 7).2.externalCalls.size = 2 ∧
      (received (.client "Gate" 7) 8).2.externalCalls.size = 0 ∧
      (received (.client "Gate" 7) 8).1 = (received (.server "Gate" (some 7)) 7).1 := by
  have hnames : Sample.gate.NamesDiffer := by decide
  have hunwoven : ∀ t ∈ Sample.gate.types, t.Unwoven := by decide
  have hfresh : ∀ t ∈ Sample.gate.types, t.Fresh := fun t ht => (hunwoven t ht).fresh
  have hmem : (Sample.loom.weave (.start Sample.gate)).2.reports.headD ⟨"Gate", [], []⟩ ∈
      (Sample.loom.weave (.start Sample.gate)).2.reports := by decide +kernel
  have htable : (Sample.loom.weave (.start Sample.gate)).1.table?
      ((Sample.loom.weave (.start Sample.gate)).2.reports.headD ⟨"Gate", [], []⟩).typeName =
        some (((Sample.loom.weave (.start Sample.gate)).1.table? "Gate").getD .empty) := by
    decide +kernel
  have ht : (⟨"Gate", none, [Sample.fire, Sample.notify]⟩ : TypeDef) ∈ Sample.gate.types :=
    List.mem_singleton.mpr rfl
  have hname : "Gate" =
      ((Sample.loom.weave (.start Sample.gate)).2.reports.headD ⟨"Gate", [], []⟩).typeName := by
    decide +kernel
  have hrecords : (⟨"Gate", none, [Sample.fire, Sample.notify]⟩ : TypeDef).Records 10000 := by
    intro x hx
    have hid : x.1 = 0 ∨ x.1 = 1 := by
      revert x
      decide +kernel
    rcases hid with hid | hid
    · exact ⟨Sample.fire, "app::fire", by rw [hid]; rfl, rfl, by decide⟩
    · exact ⟨Sample.notify, "app::notify", by rw [hid]; rfl, rfl, by decide⟩
  refine ⟨hnames, hfresh, _, hmem, _, htable, _, ht, hname, hrecords, by decide +kernel,
    by decide +kernel, by decide +kernel, ?_⟩
  exact (Loom.deliver_aligned .default hnames hfresh hmem htable ht hname hrecords .server
    .reliable).1 _ _ rfl rfl (some 8) (some 7) _ .fresh .fresh

end RpcLoom
