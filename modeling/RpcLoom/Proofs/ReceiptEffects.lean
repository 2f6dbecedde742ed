/-
RpcLoom/Proofs/ReceiptEffects.lean

What a registered call does where it is received.

Design.  A table may be asked for any registered call, and the packet may hold
any bits.  What a receiver does with a packet was followed before
(`Assembly.receive_eq`).  Receivers and logic are made once for a signature, so
those of a call are its own if no earlier call of the type has its signature; a
later one is received as the first (`receiver_shared_porch`).  The types that
travel are those of the wire format, so the only fault is to meet the end.

Main result:
- `Loom.receive_registered`: on any packet a receiver fails where a field has met
  the end, and otherwise runs the logic on what arrived or turns the call away.
-/
import RpcLoom.Proofs.CallEffects
import RpcLoom.Proofs.Frame

namespace RpcLoom

/-! ### Fields that cannot be taken -/

namespace Wire

variable {types : List TypeRef} {type : TypeRef} {bits left : Bits} {e : Fault}

/-- A value of a type of the wire format is always there, unless a packet ends too early. -/
theorem readField_error (hpromised : Codec.standard.hasSerializer type = true)
    (h : readField type bits = (.error e, left)) : e = .truncated type.text := by
  have hmem : type ∈ Codec.scalars := List.contains_iff_mem.mp hpromised
  obtain ⟨name, s, rfl, hs⟩ : ∃ name s, type = .named name ∧ Scalar.ofName? name = some s := by
    simp only [Codec.scalars, List.mem_cons, List.not_mem_nil, or_false] at hmem
    rcases hmem with rfl | rfl | rfl | rfl | rfl <;> exact ⟨_, _, rfl, rfl⟩
  rw [readField] at h
  simp only [hs] at h
  cases hread : s.read bits with
  | none =>
    rw [hread] at h
    cases h
    rfl
  | some v =>
    rw [hread] at h
    cases h

theorem takeFields_error (hpromised : ∀ t ∈ types, Codec.standard.hasSerializer t = true)
    (h : takeFields types bits = (.error e, left)) : ∃ t ∈ types, e = .truncated t.text := by
  induction types generalizing bits with
  | nil => cases h
  | cons t types ih =>
    rcases hread : readField t bits with ⟨e' | v, rest⟩
    · rw [takeFields_of_error hread] at h
      cases h
      exact ⟨t, List.mem_cons_self, readField_error (hpromised t List.mem_cons_self) hread⟩
    · rw [takeFields_of_ok hread] at h
      rcases hmore : takeFields types rest with ⟨e' | vs, last⟩
      · rw [hmore] at h
        cases h
        obtain ⟨u, hu, he⟩ := ih (fun u hu => hpromised u (List.mem_cons_of_mem _ hu)) hmore
        exact ⟨u, List.mem_cons_of_mem _ hu, he⟩
      · rw [hmore] at h
        cases h

end Wire

/-! ### The receivers of a registered call -/

/-- What a receiver of a call does to a host and a packet, if the call records its arguments for
`symbol`: it fails where the fields cannot be taken, and leaves the host alone; otherwise it runs
the code on what arrived, or turns the call away. -/
def Contract.receipt (c : Contract) (p : Procedure) (symbol : String) (kind : Kind)
    (object : NetObject) (channel : Channel) (sender : Option ConnectionId) (packet : Wire.Bits)
    (host : Host) : Except Fault Unit × Host × Wire.Bits :=
  match Wire.takeFields ((c.layout.fields p.parameters).map (·.2.type)) packet with
  | (.ok vs, left) =>
    (.ok (),
      if c.accepts kind object sender then
        host.callExternal symbol (c.layout.filled channel sender object.localConnection vs)
      else host.refusing kind, left)
  | (.error e, left) => (.error e, host, left)

/-- A receiver whose logic records its arguments does with a packet what its contract says. -/
theorem Assembly.receive_recording {a : Assembly} {object : NetObject} {settings : Settings}
    {p l : Procedure} {c : Contract} (hp : p.Keeps .standard c) {kind : Kind}
    (hkind : kind ∈ c.kinds.toList) {body : Body} {logic reader : MethodRef}
    (hbody : Loom.receiverBody ⟨.standard, settings⟩ p c kind logic = .ok body)
    (hreader : reader.types = (Receiver.parameters kind).map (·.type))
    (hcallee : a.calleeOf object false reader = .ok (p.readerOf kind body))
    (hlength : logic.types.length = p.parameters.length)
    (hlogic : a.calleeOf object true logic = .ok l) {symbol : String}
    (hrecords : l.body = some (.recording symbol p.parameters.length))
    (hfew : p.parameters.length < 10000) (channel : Channel) (sender : Option ConnectionId)
    (packet : Wire.Bits) (host : Host) :
    a.receive object reader packet channel sender host =
      c.receipt p symbol kind object channel sender packet host := by
  have hends : ∀ vs left,
      Wire.takeFields ((c.layout.fields p.parameters).map (·.2.type)) packet = (.ok vs, left) →
      a.Completes object l (c.layout.filled channel sender object.localConnection vs) host
        (some left) (host.callExternal symbol
          (c.layout.filled channel sender object.localConnection vs)) (some left)
        (p.parameters.length + 2) := by
    intro vs left htake
    rw [← hp.length_filled htake channel sender object.localConnection] at hrecords ⊢
    exact completes_last hrecords rfl object host (some left)
  have hfields := c.layout.length_fields_le p.parameters
  rw [hp.length_roles] at hfields
  exact receive_eq hp hkind hbody hreader hcallee hlength hlogic hends
    (by rw [stepBudget]; omega)

/-- On any packet, a receiver of a registered call that is the first of its signature takes the
values of the fields in order.  If one has met the end it fails with that, and nothing else is done.
Otherwise it runs the logic once on what arrived, if the call is accepted, and turns it away if
not. -/
theorem Loom.receive_registered (settings : Settings) {a : Assembly} {t : TypeDef}
    {reg : Registration} {p : Procedure} {symbol : String}
    (h : Registers ⟨.standard, settings⟩ a t reg p symbol)
    (hfirst : t.IsFirst .standard reg.procedure p.signature) :
    let woven := Loom.weave ⟨.standard, settings⟩ (.start a)
    ∃ c table, p.contract? .standard = .ok (some c) ∧ woven.1.table? t.name = some table ∧
      (∀ packet e left,
        Wire.takeFields ((c.layout.fields p.parameters).map (·.2.type)) packet = (.error e, left) →
        ∃ x ∈ c.layout.fields p.parameters, e = .truncated x.2.type.text) ∧
      ∀ kind ∈ c.kinds.toList, ∃ entry, table.get? kind reg.id = some entry ∧
        ∀ object : NetObject, object.typeName = t.name → ∀ channel sender packet host,
          woven.1.assembly.receive object entry.reader packet channel sender host =
            c.receipt p symbol kind object channel sender packet host := by
  intro woven
  obtain ⟨r, hr, F, counter, turns, v, hreported, x, hx, triad, b, hf, rfl, rfl⟩ := h.turn
  have ht := h.fresh t h.type
  have hcontract := (hreported.went.declared hx).2
  have hkeeps := Procedure.keeps_of_contract? hcontract
  refine ⟨x.1.contract, v.table, hcontract, hreported.named ▸ hreported.table,
    fun packet e left htake => ?_, fun kind hkind => ?_⟩
  · have hpromised : ∀ type ∈ (x.1.contract.layout.fields x.1.served.parameters).map (·.2.type),
        Codec.standard.hasSerializer type = true := by
      intro type htype
      obtain ⟨field, hfield, rfl⟩ := List.mem_map.mp htype
      exact hkeeps.promised field hfield
    obtain ⟨type, htype, he⟩ := Wire.takeFields_error hpromised htake
    obtain ⟨field, hfield, rfl⟩ := List.mem_map.mp htype
    exact ⟨field, hfield, he⟩
  · -- logic and receivers are those of the first turn of the signature
    have hturn := hreported.went.firstTurn hreported.jobs hx hfirst
    obtain ⟨body, hbody, hcallee⟩ := hreported.reader ht hturn hf hkind
    refine ⟨_, (hreported.get?_iff h.names ht hr).mpr ⟨x, hx, triad, b, hf, rfl, hkind, rfl⟩,
      fun object hobject channel sender packet host => ?_⟩
    have hlogic := hreported.logic ht hx hturn hf hobject h.records
    rw [hreported.logicRef ht hx hf] at hlogic
    exact Assembly.receive_recording hkeeps hkind hbody rfl (hcallee object) (List.length_map _)
      hlogic rfl h.few channel sender packet host

theorem Sample.registers_fire :
    ∃ reg, Loom.Registers loom chain ⟨"Unit", none, [fire]⟩ reg fire "app::fire" ∧ reg.id = 0 ∧
      reg.procedure = 0 :=
  registers_chain List.mem_cons_self rfl rfl (by decide) (by decide +kernel)

/-- An announcement that stops before its text is done is not received, and one with an empty text
is.  A call to the server from another connection than the owner's is turned away. -/
theorem Loom.receive_registered_announce :
    let woven := (Sample.loom.weave (.start Sample.chain)).1
    ∃ leaders announced units fired,
      woven.table? "Leader" = some leaders ∧ leaders.get? .target 1 = some announced ∧
      woven.table? "Unit" = some units ∧ units.get? .server 0 = some fired ∧
      woven.assembly.receive (.client "Leader" 7) announced.reader (Wire.bitsOf 9 5) .reliable none
        .fresh = (.error (.truncated "String"), .fresh, []) ∧
      woven.assembly.receive (.client "Leader" 7) announced.reader (Wire.bitsOf 11 0) .reliable none
        .fresh =
          (.ok (), Host.fresh.callExternal "app::announce" [.connection 7, .text ""], [false]) ∧
      woven.assembly.receive (.server "Unit" (some 7)) fired.reader (Wire.bitsOf 32 5) .reliable
        (some 8) .fresh = (.ok (), Host.fresh.warn Body.notOwnerWarning, []) := by
  intro woven
  have hfirst {t : TypeDef} {reg : Registration} (hprocedure : reg.procedure = 0) (s : Signature) :
      t.IsFirst .standard reg.procedure s := by
    intro k p c hk
    rw [hprocedure] at hk
    exact absurd hk (Nat.not_lt_zero k)
  obtain ⟨reg, hreg, hid, hprocedure⟩ := Sample.registers_announce
  obtain ⟨c, leaders, hcontract, hleaders, -, hreceives⟩ :=
    Loom.receive_registered .default hreg (hfirst hprocedure _)
  obtain rfl : (Sample.order 0 "").contract = c := Option.some.inj (Except.ok.inj hcontract)
  obtain ⟨announced, hannounced, hannounce⟩ := hreceives .target (by decide)
  rw [hid] at hannounced
  obtain ⟨reg', hreg', hid', hprocedure'⟩ := Sample.registers_fire
  obtain ⟨c', units, hcontract', hunits, -, hreceives'⟩ :=
    Loom.receive_registered .default hreg' (hfirst hprocedure' _)
  obtain rfl : ⟨.single .server, Sample.fire.annotations,
      .ofParameters (.single .server) Sample.fire.parameters⟩ = c' :=
    Option.some.inj (Except.ok.inj hcontract')
  obtain ⟨fired, hfired, hfire⟩ := hreceives' .server (by decide)
  rw [hid'] at hfired
  exact ⟨leaders, announced, units, fired, hleaders, hannounced, hunits, hfired,
    hannounce (.client "Leader" 7) rfl .reliable none _ .fresh,
    hannounce (.client "Leader" 7) rfl .reliable none _ .fresh,
    hfire (.server "Unit" (some 7)) rfl .reliable (some 8) _ .fresh⟩

namespace Sample

/-- A call that only the owner may make. -/
def knock : Procedure :=
  { Procedure.declare "Knock" with
    attributes := [⟨"ServerRpc", []⟩]
    body := some (.recording "app::knock" 0) }

/-- A call of the same signature, which everyone may make. -/
def enter : Procedure :=
  { knock with
    attributes := [⟨"ServerRpc", [("RequireOwnership", .bool false)]⟩]
    body := some (.recording "app::enter" 0) }

/-- A type that declares both. -/
def porch : TypeDef := ⟨"Porch", none, [knock, enter]⟩

end Sample

open Sample in
/-- Of two calls of one signature both have an entry, but they share the receiver of the first.  So
the second, which is for everyone, is turned away if the owner did not send it. -/
theorem Loom.receiver_shared_porch :
    ∃ reg c table entry, Registers Sample.loom ⟨[porch]⟩ porch reg enter "app::enter" ∧
      enter.contract? .standard = .ok (some c) ∧ .server ∈ c.kinds.toList ∧
      (Sample.loom.weave (.start ⟨[porch]⟩)).1.table? "Porch" = some table ∧
      table.get? .server reg.id = some entry ∧
      c.receipt enter "app::enter" .server (.server "Porch" (some 7)) .reliable none [] .fresh =
        (.ok (), Host.fresh.callExternal "app::enter" [], []) ∧
      (Sample.loom.weave (.start ⟨[porch]⟩)).1.assembly.receive (.server "Porch" (some 7))
        entry.reader [] .reliable none .fresh =
          (.ok (), Host.fresh.warn Body.notOwnerWarning, []) := by
  obtain ⟨r, hr, hname, reg, hreg, hid, hsecond⟩ :
      ∃ r ∈ (Sample.loom.weave (.start ⟨[porch]⟩)).2.reports, r.typeName = "Porch" ∧
        ∃ reg ∈ r.registrations, reg.id = 1 ∧ reg.procedure = 1 := by decide +kernel
  have hruns : (((Sample.loom.weave (.start ⟨[porch]⟩)).1.table? "Porch").bind fun table =>
      (table.get? .server 1).map fun entry =>
        (Sample.loom.weave (.start ⟨[porch]⟩)).1.assembly.receive (.server "Porch" (some 7))
          entry.reader [] .reliable none .fresh) =
      some (.ok (), Host.fresh.warn Body.notOwnerWarning, []) := by decide +kernel
  obtain ⟨table, htable, hruns⟩ := Option.bind_eq_some_iff.mp hruns
  obtain ⟨entry, hget, hreceive⟩ := Option.map_eq_some_iff.mp hruns
  refine ⟨reg, ⟨.single .server, enter.annotations, .ofParameters (.single .server) []⟩, table,
    entry, ?_, rfl, List.mem_singleton_self _, htable, by rw [hid]; exact hget, rfl, hreceive⟩
  exact {
    names := by decide
    fresh := fun t ht => (show ∀ t ∈ [porch], t.Unwoven by decide) t ht |>.fresh
    type := List.mem_singleton_self _
    reported := ⟨r, hr, hname, hreg⟩
    procedure := by rw [hsecond]; rfl
    records := rfl
    few := by decide }

end RpcLoom
