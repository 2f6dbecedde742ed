/-
RpcLoom/Proofs/Authority.lean

What is received without authority reaches no user code.

Design.  A receiver unpacks, checks, and only then calls logic.  Whatever the
packet holds, unpacking leaves the host alone and either fails or comes to the
check (`run_unpacking`); if the check fails, the receiver warns at most once
and returns (`Dismisses`).  So a delivery all of whose receivers dismiss its
calls only warns, once for each call it has delivered (`deliver_of_dismisses`).

A receiver may have been made for another procedure of the same signature.
Under the codec of the wire format both are sent as the same kinds, so if one is
registered the other is too, and its policy is among the registered ones.
-/
import RpcLoom.Proofs.Receivers
import RpcLoom.Proofs.Resolving
import RpcLoom.Run.Delivery

namespace RpcLoom

/-- A host that has been told something a number of times more, and nothing else. -/
def Host.warned (h : Host) (text : String) (times : Nat) : Host :=
  { h with warnings := h.warnings ++ Array.replicate times text }

theorem Host.warned_zero (h : Host) (text : String) : h.warned text 0 = h := by
  simp [warned]

theorem Host.warned_one (h : Host) (text : String) : h.warned text 1 = h.warn text := by
  rw [warned, warn, show Array.replicate 1 text = #[text] from rfl, Array.append_singleton]

theorem Host.warned_warned (h : Host) (text : String) (m n : Nat) :
    (h.warned text m).warned text n = h.warned text (m + n) := by
  simp [warned, Array.append_assoc, Array.replicate_append_replicate]

namespace Assembly

variable {a : Assembly} {object : NetObject} {procedure : String} {block rest : Block}
  {args locals stack : List Value} {host : Host} {codec : Codec}

/-! ### One receiver -/

/-- Unpacking leaves the host alone; it fails, or comes to what follows. -/
theorem run_unpacking (types : List TypeRef) (slot : Nat)
    (hroom : slot + types.length ≤ locals.length) (bits : Wire.Bits) (n : Nat) :
    (∃ e s, a.run object procedure block (codec.unpackingCode types slot ++ rest)
        ⟨⟨.reader :: args, locals, stack⟩, host, some bits, n⟩ = .error e s ∧ s.host = host) ∨
    ∃ locals' bits' n', a.run object procedure block (codec.unpackingCode types slot ++ rest)
        ⟨⟨.reader :: args, locals, stack⟩, host, some bits, n⟩ =
      a.run object procedure block rest
        ⟨⟨.reader :: args, locals', stack⟩, host, some bits', n'⟩ := by
  induction types generalizing slot locals bits n with
  | nil => exact .inr ⟨locals, bits, n, rfl⟩
  | cons t types ih =>
    rw [List.length_cons] at hroom
    rw [Codec.unpackingCode, Body.readInto]
    simp only [List.cons_append, List.nil_append]
    -- each of the three instructions may find the budget used up
    cases n with
    | zero => exact .inl ⟨_, _, run_stop .., rfl⟩
    | succ n =>
      rw [run_loadArg (by rfl)]
      cases n with
      | zero => exact .inl ⟨_, _, run_stop .., rfl⟩
      | succ n =>
        rw [run_read]
        rcases Wire.readField (codec.reading t).type bits with ⟨e | v, left⟩
        · exact .inl ⟨e, _, rfl, rfl⟩
        · cases n with
          | zero => exact .inl ⟨_, _, run_stop .., rfl⟩
          | succ n =>
            simp only
            rw [run_storeLocal (by omega)]
            refine ih (slot + 1) ?_ left n
            rw [List.length_set]
            omega

/-- How a receiver that dismisses a call ends: with so many warnings, or none if it fails
before. -/
def Dismissed (host : Host) (text : String) (times : Nat) :
    EStateM.Result Fault RunState Flow → Prop
  | .ok _ s => s.host = host.warned text times
  | .error _ s => s.host = host ∨ s.host = host.warned text times

/-- A step of a call that is being dismissed, or the end of its budget. -/
theorem dismissed_step {host' : Host} {text : String} {times : Nat} {i : Instruction}
    {frame : Frame} {packet : Option Wire.Bits} {next : Nat → EStateM.Result Fault RunState Flow}
    (hhost : host' = host ∨ host' = host.warned text times)
    (hstep : ∀ n, a.run object procedure block (i :: rest) ⟨frame, host', packet, n + 1⟩ = next n)
    (hnext : ∀ n, Dismissed host text times (next n)) (n : Nat) :
    Dismissed host text times
      (a.run object procedure block (i :: rest) ⟨frame, host', packet, n⟩) := by
  cases n with
  | zero => exact hhost
  | succ n =>
    rw [hstep]
    exact hnext n

/-- The check of a call to the server turns away whoever does not own the object. -/
theorem dismissed_server {c : Contract} {sender : Option ConnectionId}
    (hpolicy : (c.policy .server).requireOwnership = true)
    (hsender : object.ownedByConnection sender = false) (logic : MethodRef) (before : Block)
    {channel : Value} (packet : Option Wire.Bits) (n : Nat) :
    Dismissed host Body.notOwnerWarning 1
      (a.run object procedure
        (before ++ (Loom.receiverGuard c .server ++ receiverTail c logic))
        (Loom.receiverGuard c .server ++ receiverTail c logic)
        ⟨⟨[.reader, channel, .ofConnection? sender], locals, stack⟩, host, packet, n⟩) := by
  have hguard := receiverGuard_server hpolicy
  have hjump := from?_receiverGuard c .server logic (.inl ⟨rfl, hpolicy⟩) before
  have hask := host.answer_compareOwner object sender
  rw [hsender] at hask
  have hcheck : ∀ n, a.run object procedure
      (before ++ (Loom.receiverGuard c .server ++ receiverTail c logic))
      (.intrinsic .compareOwner :: .jumpIfTrue 0 :: .warn Body.notOwnerWarning :: .leave ::
        .mark 0 :: receiverTail c logic)
      ⟨⟨[.reader, channel, .ofConnection? sender], locals,
        .ofConnection? sender :: .self :: stack⟩, host, packet, n + 1⟩ = _ :=
    fun n => run_intrinsic [.self, .ofConnection? sender] rfl hask
  generalize before ++ (Loom.receiverGuard c .server ++ receiverTail c logic) = block
    at hjump hcheck ⊢
  rw [hguard]
  refine dismissed_step (.inl rfl) (fun _ => run_loadSelf) (fun n => ?_) n
  refine dismissed_step (.inl rfl) (fun _ => run_loadArg rfl) (fun n => ?_) n
  refine dismissed_step (.inl rfl) hcheck (fun n => ?_) n
  refine dismissed_step (.inl rfl) (fun _ => run_jumpIfTrue hjump false) (fun n => ?_) n
  refine dismissed_step (.inl rfl) (fun _ => run_warn) (fun n => ?_) n
  refine dismissed_step (.inr (Host.warned_one host _).symm) (fun _ => run_leave) (fun n => ?_) n
  exact (Host.warned_one host _).symm

/-- The check of a call to observers drops it where the owner has run it already. -/
theorem dismissed_observers {c : Contract} (hpolicy : (c.policy .observers).includeOwner = false)
    (howner : object.isOwner = true) (text : String) (logic : MethodRef) (before : Block)
    (packet : Option Wire.Bits) (n : Nat) :
    Dismissed host text 0
      (a.run object procedure
        (before ++ (Loom.receiverGuard c .observers ++ receiverTail c logic))
        (Loom.receiverGuard c .observers ++ receiverTail c logic)
        ⟨⟨args, locals, stack⟩, host, packet, n⟩) := by
  have hguard := receiverGuard_observers hpolicy
  have hjump := from?_receiverGuard c .observers logic (.inr ⟨rfl, hpolicy⟩) before
  have hask : host.answer object .isOwner [.self] = .ok (host, some (.bool true)) := by
    rw [← howner]
    rfl
  generalize before ++ (Loom.receiverGuard c .observers ++ receiverTail c logic) = block
    at hjump ⊢
  rw [hguard]
  refine dismissed_step (.inl rfl) (fun _ => run_loadSelf) (fun n => ?_) n
  refine dismissed_step (.inl rfl) (fun _ => run_ask rfl hask) (fun n => ?_) n
  refine dismissed_step (.inl rfl) (fun _ => run_jumpIfFalse hjump true) (fun n => ?_) n
  refine dismissed_step (.inl rfl) (fun _ => run_leave) (fun n => ?_) n
  exact (Host.warned_zero host _).symm

/-- A receiver dismisses every call. -/
def Dismisses (a : Assembly) (object : NetObject) (reader : MethodRef) (channel : Channel)
    (sender : Option ConnectionId) (text : String) (times : Nat) : Prop :=
  ∀ packet host result host' packet',
    a.receive object reader packet channel sender host = (result, host', packet') →
      (result = .ok () → host' = host.warned text times) ∧
        (host' = host ∨ host' = host.warned text times)

/-- A receiver whose code unpacks and then dismisses, dismisses. -/
theorem dismisses_of_code {reader : MethodRef} {channel : Channel} {sender : Option ConnectionId}
    {text : String} {times : Nat} {p : Procedure} {body : Body} {types : List TypeRef}
    {checked : Block} (hcallee : a.calleeOf object false reader = .ok p)
    (hbody : p.body = some body) (hcode : body.code = codec.unpackingCode types 0 ++ checked)
    (hlocals : body.locals.length = types.length)
    (hcheck : ∀ host locals packet n, Dismissed host text times
      (a.run object p.name body.code checked
        ⟨⟨receiverArgs reader channel sender, locals, []⟩, host, packet, n⟩)) :
    a.Dismisses object reader channel sender text times := by
  intro packet host result host' packet' h
  have hroom : 0 + types.length ≤ (List.replicate body.locals.length Value.null).length := by
    simp [hlocals]
  have hrun : Dismissed host text times (a.run object p.name body.code body.code
      ⟨⟨receiverArgs reader channel sender, List.replicate body.locals.length .null, []⟩, host,
        some packet, stepBudget⟩) := by
    have hsplit : ∀ block, a.run object p.name block body.code =
        a.run object p.name block (codec.unpackingCode types 0 ++ checked) := by
      intro block
      rw [← hcode]
    rw [hsplit, show receiverArgs reader channel sender = .reader :: _ from rfl]
    rcases run_unpacking types 0 hroom packet stepBudget with
      ⟨e, s, hrun, hhost⟩ | ⟨locals, bits, n, hrun⟩
    · rw [hrun]
      exact .inl hhost
    · rw [hrun]
      exact hcheck host locals (some bits) n
  rw [receive, invoke_eq, enter_eq hcallee hbody] at h
  cases hend : a.run object p.name body.code body.code
      ⟨⟨receiverArgs reader channel sender, List.replicate body.locals.length .null, []⟩, host,
        some packet, stepBudget⟩ with
  | ok flow s =>
    rw [hend] at hrun h
    cases h
    exact ⟨fun _ => hrun, .inr hrun⟩
  | error e s =>
    rw [hend] at hrun h
    cases h
    exact ⟨fun hok => absurd hok (by simp), hrun⟩

end Assembly

/-! ### A whole packet -/

namespace Reception

theorem get?_of_nextCall {r : Reception} {packet rest : Wire.Bits} {id : RpcId}
    {entry : DispatchEntry} (h : r.nextCall packet = .ok (some (id, entry), rest)) :
    r.table.get? r.kind id = some entry := by
  rw [nextCall] at h
  cases hflag : Wire.readFlag "continuation bit" packet with
  | error e =>
    rw [hflag] at h
    cases h
  | ok x =>
    obtain ⟨more, packet⟩ := x
    rw [hflag] at h
    cases more with
    | false => cases h
    | true =>
      simp only [bind, Except.bind, if_true] at h
      cases hid : Wire.readU32 "rpc id" packet with
      | error e =>
        rw [hid] at h
        cases h
      | ok y =>
        obtain ⟨id', packet⟩ := y
        rw [hid] at h
        simp only at h
        cases hget : r.table.get? r.kind id' with
        | none =>
          rw [hget] at h
          cases h
        | some entry' =>
          rw [hget] at h
          cases h
          exact hget

/-- A delivery all of whose calls are dismissed warns once for each of them, and the call it
fails at may have warned too. -/
theorem dispatchAll_of_dismisses {r : Reception} {text : String} {times : Nat}
    (h : ∀ id entry, r.table.get? r.kind id = some entry →
      r.assembly.Dismisses r.object entry.reader r.channel r.sender text times)
    (rounds : Nat) (packet : Wire.Bits) (host : Host) :
    ∃ n, (r.dispatchAll rounds packet host).2 = host.warned text (times * n) ∧
      ∀ ids rest, (r.dispatchAll rounds packet host).1 = .ok (ids, rest) → n = ids.length := by
  induction rounds generalizing packet host with
  | zero =>
    refine ⟨0, (host.warned_zero text).symm, fun ids rest hok => ?_⟩
    cases hok
  | succ rounds ih =>
    rw [dispatchAll]
    cases hnext : r.nextCall packet with
    | error e =>
      refine ⟨0, (host.warned_zero text).symm, fun ids rest hok => ?_⟩
      cases hok
    | ok found =>
      rcases found with ⟨_ | ⟨id, entry⟩, packet⟩
      · refine ⟨0, (host.warned_zero text).symm, fun ids rest hok => ?_⟩
        simp only [Except.ok.injEq, Prod.mk.injEq] at hok
        rw [← hok.1]
        rfl
      · have hone := h id entry (get?_of_nextCall hnext) packet host
        rcases hreceive : r.assembly.receive r.object entry.reader packet r.channel r.sender host
          with ⟨e | u, host', left⟩
        · simp only [hreceive]
          -- the receiver at which the delivery fails may have warned
          rcases (hone _ _ _ hreceive).2 with rfl | rfl
          · refine ⟨0, (Host.warned_zero _ text).symm, fun ids rest hok => ?_⟩
            cases hok
          · refine ⟨1, by rw [Nat.mul_one], fun ids rest hok => ?_⟩
            cases hok
        · simp only [hreceive]
          obtain rfl := (hone _ _ _ hreceive).1 rfl
          obtain ⟨n, hhost, hcount⟩ := ih left (host.warned text times)
          refine ⟨n + 1, ?_, fun ids rest hok => ?_⟩
          · rw [hhost, Host.warned_warned, Nat.mul_succ, Nat.add_comm]
          · cases hlater : (r.dispatchAll rounds left (host.warned text times)).1 with
            | error e =>
              rw [hlater] at hok
              cases hok
            | ok later =>
              rw [hlater] at hok
              cases hok
              rw [hcount later.1 later.2 hlater, List.length_cons]

/-- What a delivery does whose calls are all dismissed. -/
theorem deliver_of_dismisses {r : Reception} {text : String} {times : Nat}
    (h : ∀ id entry, r.table.get? r.kind id = some entry →
      r.assembly.Dismisses r.object entry.reader r.channel r.sender text times)
    (packet : Wire.Bits) (host : Host) :
    ∃ n, (r.deliver packet host).2 = host.warned text (times * n) ∧
      ∀ d, (r.deliver packet host).1 = .ok d → n = d.dispatched.length := by
  obtain ⟨n, hhost, hcount⟩ := dispatchAll_of_dismisses h (packet.length + 1) packet host
  refine ⟨n, hhost, fun d hd => ?_⟩
  rw [deliver] at hd
  cases hall : (r.dispatchAll (packet.length + 1) packet host).1 with
  | error e =>
    simp only [hall] at hd
    cases hd
  | ok result =>
    rw [hcount result.1 result.2 hall]
    simp only [hall, bind, Except.bind] at hd
    cases htrailer : Wire.readTrailer result.2 with
    | error e =>
      rw [htrailer] at hd
      cases hd
    | ok trailer =>
      rw [htrailer] at hd
      cases hd
      rfl

end Reception

/-! ### Calls that share their receiver -/

namespace Loom

variable {settings : Settings} {a : Assembly} {r : TypeReport} {t F : TypeDef}
  {counter : IdCounter} {turns : List (Job × Fate)} {v : TypeWeaving}

/-- Of two calls of one signature and the same kinds both are woven if one is. -/
theorem Reported.woven_of_same (h : Reported ⟨.standard, settings⟩ a r t F counter turns v)
    (ht : t.Unwoven) {x y : Job × Fate} (hx : x ∈ turns) (hy : y ∈ turns) {triad : Triad}
    {b : Body} (hf : x.2 = .woven triad b)
    (hsignature : y.1.served.signature = x.1.served.signature)
    (hkinds : y.1.contract.kinds = x.1.contract.kinds) : ∃ triad b, y.2 = .woven triad b := by
  cases hfy : y.2 with
  | woven triad b => exact ⟨triad, b, rfl⟩
  | cleared e =>
    exfalso
    obtain ⟨u, hwoven, hgrows⟩ := h.installed ht.fresh hx hf
    obtain ⟨u', hcleared, -, hclashes⟩ := h.went.left_behind ht.fresh.canonical hy
    rw [hfy] at hcleared
    have hkey : ∀ role, y.1.key role = x.1.key role := fun role =>
      congrArg (SynthKey.mk role) hsignature
    -- what stands in the way of one call would stand in the way of the other
    have hfree : ∀ role i, u.findSynthesized? (x.1.key role) = some i →
        ¬ u'.Clashes (y.1.key role) := by
      intro role i hfound hclash
      have habsent := (hclashes _ hclash).absent
      rw [hkey, hgrows.find hfound] at habsent
      cases habsent
    obtain ⟨-, hcontract⟩ := h.went.declared hy
    have hkeeps := Procedure.keeps_of_contract? hcontract
    cases hcleared.stuck with
    | sender hs =>
      obtain ⟨bodies, hbodies⟩ := senderBodies_ok ⟨.standard, settings⟩
        Codec.honest_standard hkeeps y.1.rpcId fun _ hkind => hkind
      cases hs.symm.trans hbodies
    | pending hs hnone hbody =>
      exact ht.bodies _ _ (h.went.served_eq (Turns.nodup_ids h.jobs) hy) hbody
    | logic hs hclash => exact hfree _ _ hwoven.installed.logic.found hclash
    | @reader bodies logic ref before after kind stubs e hs hlogic hsplit hbefore hrefused =>
      cases hrefused with
      | body hnone hbody =>
        obtain ⟨body, hmade, -⟩ := receiverBody_eq ⟨.standard, settings⟩
          Codec.honest_standard hkeeps kind ref
        cases hbody.symm.trans hmade
      | clash hbody hclash =>
        have hkind : kind ∈ x.1.contract.kinds.toList := by
          rw [← hkinds, hsplit]
          simp
        obtain ⟨stub, -, hreader⟩ := hwoven.installed.reader? hkind
        exact hfree _ _ hreader.found hclash
    | @writer bodies before after logic ref readers stubs next hs hlogic hreaders hsplit hbefore
        hclash =>
      obtain ⟨hmade, -⟩ := senderBodies_spec hs
      have hkind : next.1 ∈ x.1.contract.kinds.toList := by
        rw [← hkinds, ← hmade, hsplit]
        simp
      obtain ⟨stub, body, -, hwriter, -⟩ := hwoven.installed.writer? hkind
      exact hfree _ _ hwriter.found hclash

/-- The receiver that a table has for a call to the server or to observers was made for a
registered call of the kind, and has that call's policy. -/
theorem Reported.receiver_of_get? (h : Reported ⟨.standard, settings⟩ a r t F counter turns v)
    (hnames : a.NamesDiffer) (ht : t.Unwoven)
    (hr : r ∈ (Loom.weave ⟨.standard, settings⟩ (.start a)).2.reports) {kind : Kind}
    (hkind : kind ≠ .target) {id : RpcId} {entry : DispatchEntry}
    (hget : v.table.get? kind id = some entry) :
    ∃ p c logic body, p.Keeps .standard c ∧
      Loom.receiverBody ⟨.standard, settings⟩ p c kind logic = .ok body ∧
      (∀ object, (Loom.weave ⟨.standard, settings⟩ (.start a)).1.assembly.calleeOf object false
        entry.reader = .ok (p.readerOf kind body)) ∧
      entry.reader.types = (Receiver.parameters kind).map (·.type) ∧
      ∃ reg ∈ r.registrations, ∃ handler ∈ reg.handlers, handler.kind = kind ∧
        handler.policy = c.policy kind := by
  obtain ⟨x, hx, triad, b, hf, rfl, hxkind, rfl⟩ := (h.get?_iff hnames ht.fresh hr).mp hget
  obtain ⟨u, hwoven, hgrows⟩ := h.installed ht.fresh hx hf
  obtain ⟨stub, -, hreader⟩ := hwoven.installed.reader? hxkind
  have hfound := hgrows.find hreader.found
  obtain ⟨y, hy, body, hsignature, hykind, hbody, hp⟩ := h.receiver ht.fresh hfound
  obtain ⟨-, hxcontract⟩ := h.went.declared hx
  obtain ⟨-, hycontract⟩ := h.went.declared hy
  have hxkeeps := Procedure.keeps_of_contract? hxcontract
  have hykeeps := Procedure.keeps_of_contract? hycontract
  have hkinds : y.1.contract.kinds = x.1.contract.kinds := by
    have hserver : ∀ {kinds : KindSet}, .server ∈ kinds.toList → kinds = .single .server := by
      intro kinds hmem
      cases kinds with
      | single kind =>
        obtain rfl : Kind.server = kind := by simpa [KindSet.toList] using hmem
        rfl
      | observersAndTarget => simp [KindSet.toList] at hmem
    cases kind with
    | server => rw [hserver hykind, hserver hxkind]
    | observers =>
      exact hykeeps.kinds_eq hxkeeps (congrArg Signature.types hsignature) rfl hykind hxkind
    | target => exact absurd rfl hkind
  obtain ⟨triad', b', hfy⟩ := h.woven_of_same ht hx hy hf hsignature hkinds
  obtain ⟨reader, hhandler⟩ := (h.mem_handlers ht.fresh hy hfy).mpr ⟨hykind, rfl, rfl⟩
  refine ⟨y.1.served, y.1.contract, _, body, hykeeps, hbody, fun object => ?_, rfl,
    _, h.mem_registrations hy hfy, _, hhandler, rfl, rfl⟩
  exact h.calleeOf ht.fresh hfound hp (.inl rfl)

/-- If the check of a kind of call dismisses whatever the policies registered for that kind may
be, so does a delivery of that kind. -/
theorem Reported.deliver_of_dismissed
    (h : Reported ⟨.standard, settings⟩ a r t F counter turns v) (hnames : a.NamesDiffer)
    (ht : t.Unwoven) (hr : r ∈ (Loom.weave ⟨.standard, settings⟩ (.start a)).2.reports)
    {object : NetObject} (kind : Kind) (hkind : kind ≠ .target) {channel : Channel}
    {sender : Option ConnectionId} (text : String) (times : Nat)
    (hcheck : ∀ (c : Contract) (logic reader : MethodRef) procedure before host locals packet n,
      (∃ reg ∈ r.registrations, ∃ handler ∈ reg.handlers, handler.kind = kind ∧
        handler.policy = c.policy kind) →
      reader.types = (Receiver.parameters kind).map (·.type) →
      Assembly.Dismissed host text times
        ((Loom.weave ⟨.standard, settings⟩ (.start a)).1.assembly.run object procedure
          (before ++ (receiverGuard c kind ++ Assembly.receiverTail c logic))
          (receiverGuard c kind ++ Assembly.receiverTail c logic)
          ⟨⟨Assembly.receiverArgs reader channel sender, locals, []⟩, host, packet, n⟩))
    (packet : Wire.Bits) (host : Host) :
    let received := Reception.deliver
      ⟨(Loom.weave ⟨.standard, settings⟩ (.start a)).1.assembly, object, v.table, kind, channel,
        sender⟩ packet host
    ∃ n, received.2 = host.warned text (times * n) ∧
      ∀ d, received.1 = .ok d → n = d.dispatched.length := by
  refine Reception.deliver_of_dismisses (fun id entry hget => ?_) packet host
  obtain ⟨p, c, logic, body, hkeeps, hbody, hcallee, htypes, hpolicy⟩ :=
    h.receiver_of_get? hnames ht hr hkind hget
  obtain ⟨b, hb, hcode, hlocals⟩ := receiverBody_eq ⟨.standard, settings⟩
    Codec.honest_standard hkeeps kind logic
  obtain rfl : b = body := Except.ok.inj (hb.symm.trans hbody)
  rw [receiverCode, List.append_assoc] at hcode
  refine Assembly.dismisses_of_code (hcallee object) rfl hcode (by simp [hlocals]) ?_
  intro host locals packet n
  rw [hcode]
  exact hcheck c logic entry.reader _ _ host locals packet n hpolicy htypes

/-- Whatever a packet holds, a call to the server from whom does not own the object, and a call
to observers that its owner has run already, reaches no user code. -/
theorem delivery_without_authority (settings : Settings) {a : Assembly} (hnames : a.NamesDiffer)
    (hunwoven : ∀ t ∈ a.types, t.Unwoven) {r : TypeReport}
    (hr : r ∈ (Loom.weave ⟨.standard, settings⟩ (.start a)).2.reports) {table : DispatchTable}
    (htable : (Loom.weave ⟨.standard, settings⟩ (.start a)).1.table? r.typeName = some table)
    (object : NetObject) (channel : Channel) (sender : Option ConnectionId)
    (octets : List UInt8) (host : Host) :
    let received (kind : Kind) :=
      Reception.deliver ⟨(Loom.weave ⟨.standard, settings⟩ (.start a)).1.assembly, object, table,
        kind, channel, sender⟩ (Wire.bitsOfOctets octets) host
    ((∀ reg ∈ r.registrations, ∀ handler ∈ reg.handlers, handler.kind = .server →
        handler.policy.requireOwnership = true) →
      sender = none ∨ sender ≠ object.owner →
      ∃ n, (received .server).2 = host.warned Body.notOwnerWarning n ∧
        ∀ d, (received .server).1 = .ok d → n = d.dispatched.length) ∧
    ((∀ reg ∈ r.registrations, ∀ handler ∈ reg.handlers, handler.kind = .observers →
        handler.policy.includeOwner = false) →
      object.isOwner = true → (received .observers).2 = host) := by
  intro received
  obtain ⟨t, F, counter, turns, v, h⟩ := reported hnames (fun t ht => (hunwoven t ht).fresh) hr
  obtain rfl : v.table = table := Option.some.inj (h.table.symm.trans htable)
  have ht := hunwoven t h.mem
  constructor
  · intro hpolicy hsender
    have howner : object.ownedByConnection sender = false := by
      rw [NetObject.ownedByConnection]
      rcases hsender with rfl | hsender
      · rfl
      · simp [hsender]
    obtain ⟨n, hhost, hcount⟩ := h.deliver_of_dismissed hnames ht hr .server (by simp)
      Body.notOwnerWarning 1
      (fun c logic reader _ _ _ _ _ _ hsource htypes => by
        obtain ⟨reg, hreg, handler, hhandler, hkind, hsame⟩ := hsource
        have hargs : Assembly.receiverArgs reader channel sender =
            [.reader, .channel channel, .ofConnection? sender] := by
          simp [Assembly.receiverArgs, htypes, Receiver.parameters]
        rw [hargs]
        exact Assembly.dismissed_server (hsame ▸ hpolicy reg hreg handler hhandler hkind) howner
          logic _ _ _)
      (Wire.bitsOfOctets octets) host
    rw [Nat.one_mul] at hhost
    exact ⟨n, hhost, hcount⟩
  · intro hpolicy howner
    obtain ⟨n, hhost, -⟩ := h.deliver_of_dismissed hnames ht hr .observers (by simp)
      Body.notOwnerWarning 0
      (fun c logic reader _ _ _ _ _ _ hsource _ => by
        obtain ⟨reg, hreg, handler, hhandler, hkind, hsame⟩ := hsource
        exact Assembly.dismissed_observers (hsame ▸ hpolicy reg hreg handler hhandler hkind)
          howner _ logic _ _ _)
      (Wire.bitsOfOctets octets) host
    rw [Nat.zero_mul, Host.warned_zero] at hhost
    exact hhost

end Loom

namespace Sample

/-- A call to all observers but the owner. -/
def notify : Procedure :=
  { Procedure.declare "Notify" with
    parameters := [.plain "text" (.named "String")]
    attributes := [⟨"ObserversRpc", [("IncludeOwner", .bool false)]⟩]
    body := some (.recording "app::notify" 1) }

/-- A type with a call to the server and one to observers. -/
def gate : Assembly := ⟨[⟨"Gate", none, [fire, notify]⟩]⟩

end Sample

/-- A packet with one call to the server: whoever does not own the gate is told so.  A packet with
one call to observers: the owner of the gate takes the text from it and does nothing more. -/
theorem Loom.delivery_without_authority_gate :
    Sample.gate.NamesDiffer ∧ (∀ t ∈ Sample.gate.types, t.Unwoven) ∧
    ∃ r ∈ (Sample.loom.weave (.start Sample.gate)).2.reports, ∃ table,
      (Sample.loom.weave (.start Sample.gate)).1.table? r.typeName = some table ∧
      r.registrations.map (·.id) = [0, 1] ∧
      let received (object : NetObject) (kind : Kind) (first : UInt8) := Reception.deliver
        ⟨(Sample.loom.weave (.start Sample.gate)).1.assembly, object, table, kind, .reliable,
          some 8⟩ (Wire.bitsOfOctets (first :: List.replicate 8 0)) .fresh
      (received (.server "Gate" (some 7)) .server 1).1 = .ok ⟨[0], none⟩ ∧
      (∃ n, (received (.server "Gate" (some 7)) .server 1).2 =
        Host.fresh.warned Body.notOwnerWarning n ∧
        ∀ d, (received (.server "Gate" (some 7)) .server 1).1 = .ok d →
          n = d.dispatched.length) ∧
      (received (.client "Gate" 7) .observers 3).1 = .ok ⟨[1], none⟩ ∧
      (received (.client "Gate" 7) .observers 3).2 = Host.fresh := by
  have hnames : Sample.gate.NamesDiffer := by decide
  have hunwoven : ∀ t ∈ Sample.gate.types, t.Unwoven := by decide
  have hmem : (Sample.loom.weave (.start Sample.gate)).2.reports.headD ⟨"Gate", [], []⟩ ∈
      (Sample.loom.weave (.start Sample.gate)).2.reports := by decide +kernel
  have htable : (Sample.loom.weave (.start Sample.gate)).1.table?
      ((Sample.loom.weave (.start Sample.gate)).2.reports.headD ⟨"Gate", [], []⟩).typeName =
        some (((Sample.loom.weave (.start Sample.gate)).1.table? "Gate").getD .empty) := by
    decide +kernel
  refine ⟨hnames, hunwoven, _, hmem, _, htable, by decide +kernel, by decide +kernel, ?_,
    by decide +kernel, ?_⟩
  · exact (Loom.delivery_without_authority .default hnames hunwoven hmem htable
      (.server "Gate" (some 7)) .reliable (some 8) _ .fresh).1 (by decide +kernel) (by decide)
  · exact (Loom.delivery_without_authority .default hnames hunwoven hmem htable
      (.client "Gate" 7) .reliable (some 8) _ .fresh).2 (by decide +kernel) (by decide)

end RpcLoom
