/-
RpcLoom/Proofs/RoundTrip.lean

What is called on one side runs on the other.

Design.  A request is a call that user code may make: a registered procedure of a
type and arguments of its types.  The calls of requests hand their fields to the
host one after the other (`callAll_eq`), the fields of a packet are written and
read back (`Framing`), and every receiver takes from the packet what its sender
put there and no more, so the next one begins where it should
(`dispatchAll_eq`).  Together they are the round trip of a whole packet.

Main result:
- `Loom.round_trip`: the calls that one side makes are the calls that the other
  side runs, in order, each with what arrives for its arguments, or turned away.
-/
import RpcLoom.Proofs.Answers
import RpcLoom.Run.Delivery

namespace RpcLoom

open Wire (Bits fieldBits)

/-! ### Requests -/

/-- A call of a remote procedure whose code records its arguments. -/
structure Request where
  /-- The id that the procedure is registered under. -/
  id : RpcId
  procedure : Procedure
  contract : Contract
  /-- What the arguments are recorded for. -/
  symbol : String
  args : List Value

namespace Request

/-- A request is for a registered procedure of a type, has arguments of its types, and may be
sent as a kind by an object. -/
structure Fits (q : Request) (loom : Loom) (t : TypeDef) (r : TypeReport) (kind : Kind)
    (object : NetObject) : Prop where
  registered : ∃ reg ∈ r.registrations, reg.id = q.id ∧
    t.procedure? reg.procedure = some q.procedure
  contract : q.procedure.contract? loom.codec = .ok (some q.contract)
  records : q.procedure.body = some (.recording q.symbol q.procedure.parameters.length)
  args : q.procedure.Takes q.args
  sentAs : q.contract.sentAs q.args = kind
  allowed : loom.settings.guards = true → q.contract.maySend kind object = true

/-- The fields that travel. -/
def payload (q : Request) : List Field :=
  Layout.payload (q.contract.layout.fields q.procedure.parameters) q.args

/-- The bits of a request in a packet. -/
def bits (q : Request) : Bits :=
  true :: Wire.bitsOf 32 q.id.toNat ++ q.payload.flatMap fieldBits

/-- The bits of a packet of requests. -/
def packet (requests : List Request) (trailer : Option UInt32) : Bits :=
  requests.flatMap bits ++ (false :: Wire.trailerBits trailer)

/-- The calling side after the call of a request: its logic runs there too if that was asked
for. -/
def made (q : Request) (host : Host) : Host :=
  if q.contract.runLocally then host.callExternal q.symbol q.args else host

/-- The receiving side after a request came in: its logic runs on what arrived, or it is turned
away. -/
def received (q : Request) (r : Reception) (host : Host) : Host :=
  if q.contract.accepts r.kind r.object r.sender then
    host.callExternal q.symbol
      (q.contract.layout.arriving r.channel r.sender r.object.localConnection q.args)
  else host.refusing r.kind

/-- The table has a receiver for a request, which takes its fields from the packet and leaves what
follows. -/
def Arrives (q : Request) (r : Reception) : Prop :=
  ∃ entry, r.table.get? r.kind q.id = some entry ∧ ∀ left host,
    r.assembly.receive r.object entry.reader (q.payload.flatMap fieldBits ++ left) r.channel
      r.sender host = (.ok (), q.received r host, left)

end Request

/-- Calls procedures of an object one after the other, up to the first that fails. -/
def Assembly.callAll (a : Assembly) (object : NetObject) :
    List (String × List Value) → Host → Except Fault Unit × Host
  | [], host => (.ok (), host)
  | (name, args) :: rest, host =>
    match a.call object name args host with
    | (.ok (), host) => a.callAll object rest host
    | (.error e, host) => (.error e, host)

/-! ### One call -/

namespace Loom.Reported

variable {settings : Settings} {a : Assembly} {r : TypeReport} {t F : TypeDef}
  {counter : IdCounter} {turns : List (Job × Fate)} {v : TypeWeaving} {kind : Kind}
  {object : NetObject} {q : Request}

/-- Every request is for a call that was woven in its turn. -/
theorem turn_of_fits {loom : Loom} {object : NetObject}
    (h : loom.Reported a r t F counter turns v) (hq : q.Fits loom t r kind object) :
    ∃ x ∈ turns, ∃ triad b, x.2 = .woven triad b ∧ x.1.served = q.procedure ∧
      x.1.contract = q.contract ∧ x.1.rpcId = q.id := by
  obtain ⟨reg, hreg, hid, hp⟩ := hq.registered
  obtain ⟨x, hx, triad, b, hf, rfl⟩ := h.registration hreg
  have hserved : x.1.served = q.procedure := Option.some.inj ((h.served hx).symm.trans hp)
  obtain ⟨-, hcontract⟩ := h.went.declared hx
  refine ⟨x, hx, triad, b, hf, hserved, ?_, hid⟩
  rw [hserved] at hcontract
  exact Option.some.inj (Except.ok.inj (hcontract.symm.trans hq.contract))

/-- Objects of the type answer the call of a request, and its logic records the arguments. -/
theorem answers_of_fits (h : Reported ⟨.standard, settings⟩ a r t F counter turns v) (ht : t.Fresh)
    (hdiffer : t.NamesDiffer) {sender : NetObject}
    (hq : q.Fits ⟨.standard, settings⟩ t r kind sender) (hobject : object.typeName = t.name) :
    ∃ x ∈ turns, ∃ triad b, x.2 = .woven triad b ∧ x.1.served = q.procedure ∧
      x.1.contract = q.contract ∧ x.1.rpcId = q.id ∧
      Answers ⟨.standard, settings⟩ (Loom.weave ⟨.standard, settings⟩ (.start a)).1.assembly object
        q.procedure q.contract q.id t.name triad
        (q.procedure.logicOf (.recording q.symbol q.procedure.parameters.length)) := by
  obtain ⟨x, hx, triad, b, hf, hserved, hcontract, hid⟩ := h.turn_of_fits hq
  have halone := hdiffer.namedAlone x.1.id
  have hlogic := h.logic ht hx (h.firstTurn hx halone) hf hobject (hserved.symm ▸ hq.records)
  have hanswers := h.answers ht hx halone hf hobject hlogic
  rw [hserved, hcontract, hid] at hanswers
  exact ⟨x, hx, triad, b, hf, hserved, hcontract, hid, hanswers⟩

/-- A call for a request hands its fields to the host, and the pool of writers looks as before. -/
theorem call_eq (h : Reported ⟨.standard, settings⟩ a r t F counter turns v) (ht : t.Fresh)
    (hdiffer : t.NamesDiffer) (hobject : object.typeName = t.name)
    (hq : q.Fits ⟨.standard, settings⟩ t r kind object)
    (hsize : (q.contract.layout.fields q.procedure.parameters).length ≤ Wire.capacity)
    (host : Host) (hopen : host.refusesSends = false) :
    ∃ sent : SentCall, sent.kind = kind ∧ sent.id = q.id ∧ sent.payload = q.payload ∧
      ∃ writers : WriterPool, (∀ k, writers.fields? k = host.writers.fields? k) ∧
        (Loom.weave ⟨.standard, settings⟩ (.start a)).1.assembly.call object q.procedure.name
          q.args host = (.ok (), q.made ({ host with writers }.handed sent)) := by
  obtain ⟨-, -, triad, -, -, -, -, -, hanswers⟩ := h.answers_of_fits ht hdiffer hq hobject
  have hrecords : (q.procedure.logicOf (.recording q.symbol q.procedure.parameters.length)).body =
      some (.recording q.symbol q.args.length) := by
    rw [← hq.args.length_eq]
    rfl
  have hfew := hanswers.keeps.length_parameters_le hq.args
  have hbudget : 3 * (q.contract.layout.fields q.procedure.parameters).length +
      (q.args.length + 2) + 2 * q.args.length + 33 ≤ stepBudget := by
    rw [hq.args.length_eq] at hfew
    rw [stepBudget]
    rw [Wire.capacity] at hsize
    omega
  obtain ⟨host', hsends, hcall⟩ := hanswers.call_eq hq.args
    (fun host => Assembly.completes_last hrecords rfl object host none) hbudget host hopen
  obtain ⟨writers, hlent, rfl⟩ := hsends.handed (hq.sentAs.symm ▸ hq.allowed)
  exact ⟨_, hq.sentAs, rfl, rfl, writers, hlent.fields, hcall⟩

/-- A request that was sent arrives. -/
theorem arrives (h : Reported ⟨.standard, settings⟩ a r t F counter turns v)
    (hnames : a.NamesDiffer) (ht : t.Fresh)
    (hr : r ∈ (Loom.weave ⟨.standard, settings⟩ (.start a)).2.reports) (hdiffer : t.NamesDiffer)
    {sender : NetObject} (hq : q.Fits ⟨.standard, settings⟩ t r kind sender)
    (hobject : object.typeName = t.name)
    (hsize : (q.contract.layout.fields q.procedure.parameters).length ≤ Wire.capacity)
    (channel : Channel) (connection : Option ConnectionId) :
    q.Arrives ⟨(Loom.weave ⟨.standard, settings⟩ (.start a)).1.assembly, object, v.table, kind,
      channel, connection⟩ := by
  obtain ⟨x, hx, triad, b, hf, hserved, hcontract, hid, hanswers⟩ :=
    h.answers_of_fits ht hdiffer hq hobject
  have hkind : kind ∈ q.contract.kinds.toList := hq.sentAs ▸ q.contract.sentAs_mem q.args
  let arriving := q.contract.layout.arriving channel connection object.localConnection q.args
  have harriving : arriving.length = q.procedure.parameters.length := by
    show (List.zipWith _ q.contract.layout.roles q.args).length = _
    rw [List.length_zipWith, hanswers.keeps.length_roles, hq.args.length_eq, Nat.min_self]
  have hrecords : (q.procedure.logicOf (.recording q.symbol q.procedure.parameters.length)).body =
      some (.recording q.symbol arriving.length) := by
    rw [harriving]
    rfl
  have hfew := hanswers.keeps.length_parameters_le hq.args
  have hbudget : 3 * (q.contract.layout.fields q.procedure.parameters).length +
      2 * q.args.length + (arriving.length + 2) + 9 ≤ stepBudget := by
    rw [harriving, ← hq.args.length_eq, stepBudget]
    rw [Wire.capacity] at hsize
    omega
  refine ⟨_, (h.get?_iff hnames ht hr).mpr ⟨x, hx, triad, b, hf, hid, hcontract.symm ▸ hkind, rfl⟩,
    fun left host => ?_⟩
  have hreader : x.1.key (.reader kind) = ⟨.reader kind, q.procedure.signature⟩ := by
    rw [← hserved]
    rfl
  rw [hreader]
  exact hanswers.receive_eq hq.args hkind channel connection
    (fun host left => Assembly.completes_last hrecords rfl object host (some left))
    hbudget left host

end Loom.Reported

/-! ### Many calls -/

namespace Request

variable {q : Request} {requests : List Request} {trailer : Option UInt32}

/-- What runs locally has nothing to do with what is sent. -/
theorem made_with (q : Request) (host : Host) (sent : Array SentCall) (writers : WriterPool) :
    q.made { host with sent, writers } = { q.made host with sent, writers } := by
  rw [made, made]
  split <;> rfl

@[simp] theorem sent_made (q : Request) (host : Host) : (q.made host).sent = host.sent := by
  rw [made]
  split <;> rfl

@[simp] theorem writers_made (q : Request) (host : Host) :
    (q.made host).writers = host.writers := by
  rw [made]
  split <;> rfl

@[simp] theorem refusesSends_made (q : Request) (host : Host) :
    (q.made host).refusesSends = host.refusesSends := by
  rw [made]
  split <;> rfl

theorem length_bits_le (hq : q ∈ requests) (trailer : Option UInt32) :
    (q.payload.flatMap fieldBits).length ≤ (packet requests trailer).length := by
  obtain ⟨before, after, rfl⟩ := List.append_of_mem hq
  simp only [packet, bits, List.flatMap_append, List.flatMap_cons, List.length_append]
  omega

theorem length_le_packet (requests : List Request) (left : Bits) :
    requests.length ≤ (requests.flatMap bits ++ left).length := by
  induction requests with
  | nil => exact Nat.zero_le _
  | cons q requests ih =>
    rw [List.flatMap_cons, List.append_assoc, List.length_append]
    have hbits : 1 ≤ q.bits.length := by simp [bits]
    rw [List.length_cons]
    omega

end Request

namespace Reception

variable {r : Reception} {q : Request} {entry : DispatchEntry}

/-- The head of a call leads to its receiver. -/
theorem nextCall_head {id : RpcId} (hget : r.table.get? r.kind id = some entry) (rest : Bits) :
    r.nextCall (true :: (Wire.bitsOf 32 id.toNat ++ rest)) = .ok (some (id, entry), rest) := by
  rw [nextCall]
  simp only [Wire.readFlag, bind, Except.bind, if_true, Wire.readU32_bitsOf, hget]

theorem nextCall_bits (hget : r.table.get? r.kind q.id = some entry) (left : Bits) :
    r.nextCall (q.bits ++ left) =
      .ok (some (q.id, entry), q.payload.flatMap fieldBits ++ left) := by
  rw [Request.bits, List.append_assoc]
  exact nextCall_head hget _

/-- Requests that arrive are received one after the other, and the end of the calls ends the
round. -/
theorem dispatchAll_eq (requests : List Request) (h : ∀ q ∈ requests, q.Arrives r)
    (left : Bits) (rounds : Nat) (hrounds : requests.length < rounds) (host : Host) :
    r.dispatchAll rounds (requests.flatMap Request.bits ++ false :: left) host =
      (.ok (requests.map (·.id), left), requests.foldl (fun host q => q.received r host) host) := by
  induction requests generalizing rounds host with
  | nil =>
    obtain ⟨rounds, rfl⟩ : ∃ n, rounds = n + 1 := ⟨rounds - 1, by omega⟩
    rfl
  | cons q requests ih =>
    obtain ⟨rounds, rfl⟩ : ∃ n, rounds = n + 1 := ⟨rounds - 1, by omega⟩
    obtain ⟨entry, hget, hreceive⟩ := h q List.mem_cons_self
    have hlater := ih (fun k hk => h k (List.mem_cons_of_mem _ hk)) rounds
      (by simpa using hrounds) (q.received r host)
    rw [dispatchAll, List.flatMap_cons, List.append_assoc, nextCall_bits hget]
    simp only [hreceive, hlater]
    rfl

/-- A packet of requests that arrive is delivered, whatever fills up its last octet. -/
theorem deliver_packet {requests : List Request} (h : ∀ q ∈ requests, q.Arrives r)
    (trailer : Option UInt32) (filling : Bits) (host : Host) :
    r.deliver (Request.packet requests trailer ++ filling) host =
      (.ok ⟨requests.map (·.id), trailer⟩,
        requests.foldl (fun host q => q.received r host) host) := by
  -- what fills the last octet stands behind the trailer, and the reader stops before it
  have hpacket : Request.packet requests trailer ++ filling =
      requests.flatMap Request.bits ++ false :: (Wire.trailerBits trailer ++ filling) := by
    rw [Request.packet, List.append_assoc]
    rfl
  have hrounds : requests.length < (requests.flatMap Request.bits ++
      false :: (Wire.trailerBits trailer ++ filling)).length + 1 :=
    Nat.lt_succ_of_le (Request.length_le_packet requests _)
  rw [deliver, hpacket, dispatchAll_eq requests h _ _ hrounds]
  simp only [bind, Except.bind, Wire.readTrailer_trailerBits]

end Reception

namespace Loom

variable {settings : Settings} {a : Assembly} {r : TypeReport} {t F : TypeDef}
  {counter : IdCounter} {turns : List (Job × Fate)} {v : TypeWeaving} {kind : Kind}
  {object : NetObject} {q : Request}

/-- The calls of requests hand their fields to the host one after the other, and nothing else is
done but what runs locally. -/
theorem Reported.callAll_eq (h : Reported ⟨.standard, settings⟩ a r t F counter turns v)
    (ht : t.Fresh) (hdiffer : t.NamesDiffer) (hobject : object.typeName = t.name)
    (requests : List Request)
    (hfits : ∀ q ∈ requests, q.Fits ⟨.standard, settings⟩ t r kind object)
    (hsize : ∀ q ∈ requests,
      (q.contract.layout.fields q.procedure.parameters).length ≤ Wire.capacity)
    (host : Host) (hopen : host.refusesSends = false) :
    ∃ (calls : List SentCall) (writers : WriterPool),
      (Loom.weave ⟨.standard, settings⟩ (.start a)).1.assembly.callAll object
        (requests.map fun q => (q.procedure.name, q.args)) host =
          (.ok (), requests.foldl (fun host q => q.made host)
            { host with sent := host.sent ++ calls.toArray, writers }) ∧
      calls.map (fun c => (c.kind, c.id, c.payload)) =
        requests.map (fun q => (kind, q.id, q.payload)) ∧
      ∀ k, writers.fields? k = host.writers.fields? k := by
  induction requests generalizing host with
  | nil =>
    refine ⟨[], host.writers, ?_, rfl, fun _ => rfl⟩
    rw [Array.append_empty]
    rfl
  | cons q requests ih =>
    obtain ⟨sent, hkind, hid, hpayload, writers, hwriters, hcall⟩ := h.call_eq ht hdiffer hobject
      (hfits q List.mem_cons_self) (hsize q List.mem_cons_self) host hopen
    obtain ⟨calls, last, hcalls, hsent, hlast⟩ :=
      ih (fun k hk => hfits k (List.mem_cons_of_mem _ hk))
        (fun k hk => hsize k (List.mem_cons_of_mem _ hk))
        (q.made ({ host with writers }.handed sent))
        (by rw [Request.refusesSends_made]; exact hopen)
    refine ⟨sent :: calls, last, ?_, ?_, fun k => ?_⟩
    · have hpush : host.sent ++ (sent :: calls).toArray = host.sent.push sent ++ calls.toArray := by
        apply Array.toList_inj.mp
        simp
      rw [List.map_cons, Assembly.callAll, hpush]
      simp only [hcall, hcalls, List.foldl_cons, ← Request.made_with, Request.sent_made]
      rfl
    · rw [List.map_cons, List.map_cons, hsent, hkind, hid, hpayload]
    · rw [hlast, Request.writers_made]
      exact hwriters k

/-- The round trip of a packet.  Calls that one side may make are sent, and a packet that has
room for them is written; the other side delivers the same calls in the same order, and runs the
logic of each on what arrives for its arguments, or turns it away. -/
theorem round_trip (settings : Settings) {a : Assembly} (hnames : a.NamesDiffer)
    (hunwoven : ∀ t ∈ a.types, t.Unwoven) {r : TypeReport}
    (hr : r ∈ (Loom.weave ⟨.standard, settings⟩ (.start a)).2.reports) {table : DispatchTable}
    (htable : (Loom.weave ⟨.standard, settings⟩ (.start a)).1.table? r.typeName = some table)
    {t : TypeDef} (ht : t ∈ a.types) (hname : t.name = r.typeName) (hdiffer : t.NamesDiffer)
    (sender receiver : NetObject) (hsender : sender.typeName = t.name)
    (hreceiver : receiver.typeName = t.name) (channel : Channel)
    (connection : Option ConnectionId) {kind : Kind} {requests : List Request}
    (hfits : ∀ q ∈ requests, q.Fits ⟨.standard, settings⟩ t r kind sender)
    {trailer : Option UInt32}
    (hroom : (Request.packet requests trailer).length ≤ Wire.capacity) :
    let woven := (Loom.weave ⟨.standard, settings⟩ (.start a)).1.assembly
    let reception : Reception := ⟨woven, receiver, table, kind, channel, connection⟩
    ∃ (calls : List SentCall) (writers : WriterPool),
      woven.callAll sender (requests.map fun q => (q.procedure.name, q.args)) .fresh =
        (.ok (), requests.foldl (fun host q => q.made host)
          { Host.fresh with sent := calls.toArray, writers }) ∧
      calls.map (fun c => (c.kind, c.id, c.payload)) =
        requests.map (fun q => (kind, q.id, q.payload)) ∧
      (∀ handle, writers.fields? handle = none) ∧
      Wire.writePacket calls trailer = .ok (Request.packet requests trailer) ∧
      reception.deliver (Wire.bitsOfOctets (Wire.octetsOf (Request.packet requests trailer)))
          .fresh =
        (.ok ⟨requests.map (·.id), trailer⟩,
          requests.foldl (fun host q => q.received reception host) .fresh) := by
  intro woven reception
  obtain ⟨u, F, counter, turns, v, h⟩ := reported hnames (fun t ht => (hunwoven t ht).fresh) hr
  obtain rfl : v.table = table := Option.some.inj (h.table.symm.trans htable)
  obtain rfl : u = t :=
    List.inj_on_of_nodup_map hnames h.mem ht (h.named.symm.trans hname.symm)
  have hfresh := (hunwoven u ht).fresh
  have hchecked : ∀ q ∈ requests, ∀ f ∈ q.payload, Wire.check f.1 f.2 = .ok () :=
    fun q hq f hf => (Procedure.keeps_of_contract? (hfits q hq).contract).check_payload
      (hfits q hq).args hf
  have hsize : ∀ q ∈ requests,
      (q.contract.layout.fields q.procedure.parameters).length ≤ Wire.capacity := by
    intro q hq
    have hfew := Wire.length_le_fieldBits (hchecked q hq)
    have hlength := (Procedure.keeps_of_contract? (hfits q hq).contract).length_payload
      (hfits q hq).args
    have hpart := Request.length_bits_le hq trailer
    rw [Request.payload] at hfew hpart
    omega
  obtain ⟨calls, writers, hcalls, hsent, hwriters⟩ :=
    h.callAll_eq hfresh hdiffer hsender requests hfits hsize .fresh rfl
  refine ⟨calls, writers, ?_, hsent, fun handle => ?_, ?_, ?_⟩
  · rw [hcalls, show Host.fresh.sent ++ calls.toArray = calls.toArray from Array.empty_append]
  · rw [hwriters handle]
    exact WriterPool.fields?_empty handle
  · -- a packet is made of the ids and the fields of its calls, and those are the requests'
    let parts (x : Kind × RpcId × List Field) : Bits :=
      true :: Wire.bitsOf 32 x.2.1.toNat ++ x.2.2.flatMap fieldBits
    have hbits : calls.flatMap Wire.callBits = requests.flatMap Request.bits := by
      have hparts := congrArg (List.flatMap parts) hsent
      rw [List.flatMap_map, List.flatMap_map] at hparts
      exact hparts
    have hcallsChecked : ∀ c ∈ calls, ∀ f ∈ c.payload, Wire.check f.1 f.2 = .ok () := by
      intro c hc
      have hmem := List.mem_map_of_mem (f := fun c : SentCall => (c.kind, c.id, c.payload)) hc
      rw [hsent] at hmem
      obtain ⟨q, hq, hsame⟩ := List.mem_map.mp hmem
      have hpayload : q.payload = c.payload := congrArg (·.2.2) hsame
      rw [← hpayload]
      exact hchecked q hq
    rw [Wire.writePacket_eq calls trailer hcallsChecked, hbits]
    · rfl
    · rw [hbits]
      rw [Request.packet, List.length_append, List.length_cons] at hroom
      omega
  · obtain ⟨filling, hfilling⟩ :=
      Wire.bitsOfOctets_octetsOf (Request.packet requests trailer)
    rw [hfilling]
    apply Reception.deliver_packet
    intro q hq
    exact h.arrives hnames hfresh hr hdiffer (hfits q hq) hreceiver (hsize q hq) channel connection

end Loom

namespace Sample

/-- The type of leaders. -/
def leader : TypeDef := ⟨"Leader", some "Unit", [announce]⟩

/-- A call of a leader to one connection. -/
def order (target : ConnectionId) (text : String) : Request where
  id := 1
  procedure := announce
  contract := ⟨.observersAndTarget, announce.annotations,
    .ofParameters .observersAndTarget announce.parameters⟩
  symbol := "app::announce"
  args := [.connection target, .text text]

end Sample

/-- A leader's orders reach the side that owns it: the texts as they were sent, and the connection
that an order went to stands for that side's own. -/
theorem Loom.round_trip_orders :
    ∃ r ∈ (Sample.loom.weave (.start Sample.chain)).2.reports, ∃ table,
      (Sample.loom.weave (.start Sample.chain)).1.table? r.typeName = some table ∧
      ((Sample.loom.weave (.start Sample.chain)).1.assembly.callAll (.server "Leader" (some 7))
        [("Announce", [.connection 3, .text "advance"]),
          ("Announce", [.connection 4, .text "zurück"])] .fresh).1 = .ok () ∧
      (Reception.deliver ⟨(Sample.loom.weave (.start Sample.chain)).1.assembly,
        .client "Leader" 7, table, .target, .reliable, none⟩
        (Wire.bitsOfOctets (Wire.octetsOf (Request.packet
          [Sample.order 3 "advance", Sample.order 4 "zurück"] (some 9)))) .fresh) =
          (.ok ⟨[1, 1], some 9⟩, { Host.fresh with externalCalls := #[
            ⟨"app::announce", [.connection 7, .text "advance"]⟩,
            ⟨"app::announce", [.connection 7, .text "zurück"]⟩] }) := by
  have hnames : Sample.chain.NamesDiffer := by decide
  have hunwoven : ∀ t ∈ Sample.chain.types, t.Unwoven := by decide
  have hmem : (Sample.loom.weave (.start Sample.chain)).2.reports.getLastD ⟨"Leader", [], []⟩ ∈
      (Sample.loom.weave (.start Sample.chain)).2.reports := by decide +kernel
  have htable : (Sample.loom.weave (.start Sample.chain)).1.table?
      ((Sample.loom.weave (.start Sample.chain)).2.reports.getLastD ⟨"Leader", [], []⟩).typeName =
        some (((Sample.loom.weave (.start Sample.chain)).1.table? "Leader").getD .empty) := by
    decide +kernel
  have hname : Sample.leader.name = ((Sample.loom.weave (.start Sample.chain)).2.reports.getLastD
      ⟨"Leader", [], []⟩).typeName := by decide +kernel
  have hregistered : ∃ reg ∈ ((Sample.loom.weave (.start Sample.chain)).2.reports.getLastD
      ⟨"Leader", [], []⟩).registrations, reg.id = 1 ∧ reg.procedure = 0 := by decide +kernel
  have hfits : ∀ target text, (Sample.order target text).Fits Sample.loom Sample.leader
      ((Sample.loom.weave (.start Sample.chain)).2.reports.getLastD ⟨"Leader", [], []⟩) .target
      (.server "Leader" (some 7)) := by
    intro target text
    obtain ⟨reg, hreg, hid, hprocedure⟩ := hregistered
    exact {
      registered := ⟨reg, hreg, hid, by rw [hprocedure]; rfl⟩
      contract := rfl
      records := rfl
      args := .cons rfl (.cons rfl .nil)
      sentAs := rfl
      allowed := fun _ => rfl }
  have hroom : (Request.packet [Sample.order 3 "advance", Sample.order 4 "zurück"]
      (some 9)).length ≤ Wire.capacity := by decide +kernel
  have hleader : Sample.leader ∈ Sample.chain.types := List.mem_cons_of_mem _ List.mem_cons_self
  have horders : ∀ q ∈ [Sample.order 3 "advance", Sample.order 4 "zurück"],
      q.Fits Sample.loom Sample.leader
        ((Sample.loom.weave (.start Sample.chain)).2.reports.getLastD ⟨"Leader", [], []⟩) .target
        (.server "Leader" (some 7)) := by
    intro q hq
    rcases List.mem_pair.mp hq with rfl | rfl
    · exact hfits 3 "advance"
    · exact hfits 4 "zurück"
  obtain ⟨calls, writers, hcalls, -, -, -, hdeliver⟩ := Loom.round_trip .default hnames hunwoven hmem
    htable hleader hname (by decide) (.server "Leader" (some 7)) (.client "Leader" 7) rfl rfl
    .reliable none horders hroom
  exact ⟨_, hmem, _, htable, congrArg Prod.fst hcalls, hdeliver⟩

end RpcLoom
