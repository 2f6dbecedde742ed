/-
RpcLoom/Proofs/Receivers.lean

A receiver hands its logic what arrived.

Design.  A receiver unpacks before it checks anything, so what it takes from a
packet depends on the types of its fields alone (`Wire.takeFields`).  If they
cannot be taken it fails at that place.  If its check is passed it loads an
argument for each role: what travelled from its local, the rest from what it was
run with (`Layout.filled`).  So the logic gets the arguments of the call, each
replaced by what stands for it on this side.

Main result.  `Assembly.receive_eq`: all that a receiver does with any packet.
-/
import RpcLoom.Proofs.Arguments
import RpcLoom.Proofs.Edits
import RpcLoom.Proofs.Framing
import RpcLoom.Proofs.Stepping

namespace RpcLoom

/-- Whether a side takes a call of a kind that comes from a sender. -/
def Contract.accepts (c : Contract) (kind : Kind) (object : NetObject)
    (sender : Option ConnectionId) : Bool :=
  match kind with
  | .server => !(c.policy kind).requireOwnership || object.ownedByConnection sender
  | .observers => (c.policy kind).includeOwner || !object.isOwner
  | .target => true

/-- A host after a call of a kind was turned away. -/
def Host.refusing (h : Host) (kind : Kind) : Host :=
  match kind with
  | .server => h.warn Body.notOwnerWarning
  | .observers | .target => h

/-! ### Taking fields -/

namespace Wire

/-- Takes values of several types from the front: the values or the first fault, and what is left
then. -/
def takeFields : List TypeRef → Bits → Except Fault (List Value) × Bits
  | [], bits => (.ok [], bits)
  | t :: types, bits =>
    match readField t bits with
    | (.error e, left) => (.error e, left)
    | (.ok v, left) =>
      let (result, left) := takeFields types left
      (result.map (v :: ·), left)

variable {types : List TypeRef} {t : TypeRef} {bits left : Bits} {vs : List Value} {e : Fault}

theorem takeFields_of_error (h : readField t bits = (.error e, left)) (types : List TypeRef) :
    takeFields (t :: types) bits = (.error e, left) := by
  rw [takeFields, h]

theorem takeFields_of_ok {v : Value} (h : readField t bits = (.ok v, left))
    (types : List TypeRef) :
    takeFields (t :: types) bits =
      ((takeFields types left).1.map (v :: ·), (takeFields types left).2) := by
  rw [takeFields, h]

theorem length_of_takeFields (h : takeFields types bits = (.ok vs, left)) :
    vs.length = types.length := by
  induction types generalizing bits vs left with
  | nil =>
    cases h
    rfl
  | cons t types ih =>
    rcases hread : readField t bits with ⟨e | v, rest⟩
    · rw [takeFields_of_error hread] at h
      cases h
    · rw [takeFields_of_ok hread] at h
      rcases hmore : takeFields types rest with ⟨e | more, last⟩
      · rw [hmore] at h
        cases h
      · rw [hmore] at h
        cases h
        rw [List.length_cons, ih hmore, List.length_cons]

/-- Fields that come first in a packet are taken from it. -/
theorem takeFields_fieldBits {fields : List Field} (h : ∀ f ∈ fields, check f.1 f.2 = .ok ())
    (left : Bits) :
    takeFields (fields.map (·.1)) (fields.flatMap fieldBits ++ left) =
      (.ok (fields.map (·.2)), left) := by
  induction fields with
  | nil => rfl
  | cons f fields ih =>
    have hread : readField f.1 (fieldBits f ++ (fields.flatMap fieldBits ++ left)) =
        (.ok f.2, fields.flatMap fieldBits ++ left) :=
      readField_bitsOfValue (h f (by simp)) _
    rw [List.flatMap_cons, List.append_assoc, List.map_cons, takeFields_of_ok hread,
      ih fun g hg => h g (by simp [hg])]
    rfl

end Wire

/-! ### What arrives -/

/-- Arguments for roles: values in order where something travels, and elsewhere what a receiver was
run with. -/
def Role.fill (channel : Channel) (sender own : Option ConnectionId) :
    List Role → List Value → List Value
  | [], _ => []
  | .serialized :: roles, v :: vs => v :: fill channel sender own roles vs
  | .serialized :: _, [] => []
  | .channel :: roles, vs => .channel channel :: fill channel sender own roles vs
  | .caller :: roles, vs => .ofConnection? sender :: fill channel sender own roles vs
  | .target :: roles, vs => .ofConnection? own :: fill channel sender own roles vs

/-- The arguments that a receiver makes of the values that it took. -/
def Layout.filled (l : Layout) (channel : Channel) (sender own : Option ConnectionId)
    (vs : List Value) : List Value :=
  Role.fill channel sender own l.roles vs

section

variable {channel : Channel} {sender own : Option ConnectionId} {roles : List Role}
  {vs args : List Value}

theorem Role.length_fill (h : vs.length = roles.count .serialized) :
    (Role.fill channel sender own roles vs).length = roles.length := by
  induction roles generalizing vs with
  | nil => rfl
  | cons role roles ih =>
    cases role with
    | serialized =>
      rw [List.count_cons_self] at h
      obtain ⟨v, vs, rfl⟩ := List.exists_cons_of_length_eq_add_one h
      rw [fill, List.length_cons, ih (by simpa using h), List.length_cons]
    | _ => rw [fill, List.length_cons, ih (by simpa using h), List.length_cons]

/-- What travelled is filled in again where it came from. -/
theorem Role.fill_values (h : args.length = roles.length) :
    Role.fill channel sender own roles (Layout.values roles args) =
      List.zipWith (Role.arriving channel sender own) roles args := by
  induction roles generalizing args with
  | nil => rfl
  | cons role roles ih =>
    obtain ⟨v, args, rfl⟩ := List.exists_cons_of_length_eq_add_one h
    have hlater := ih (by simpa using h : args.length = roles.length)
    cases role with
    | serialized => exact congrArg (v :: ·) hlater
    | channel | caller | target => exact congrArg (_ :: ·) hlater

end

/-- If all fields can be taken, they make as many arguments as there are parameters. -/
theorem Procedure.Keeps.length_filled {codec : Codec} {p : Procedure} {c : Contract}
    (hp : p.Keeps codec c) {packet left : Wire.Bits} {vs : List Value}
    (htake : Wire.takeFields ((c.layout.fields p.parameters).map (·.2.type)) packet =
      (.ok vs, left)) (channel : Channel) (sender own : Option ConnectionId) :
    (c.layout.filled channel sender own vs).length = p.parameters.length := by
  have hvs : vs.length = c.layout.roles.count .serialized := by
    rw [Wire.length_of_takeFields htake, List.length_map]
    exact c.layout.length_fields p.parameters hp.length_roles
  exact (Role.length_fill hvs).trans hp.length_roles

namespace Assembly

variable {a : Assembly} {object : NetObject} {procedure : String} {block rest : Block}
  {args locals stack : List Value} {host host' : Host} {packet : Option Wire.Bits} {n : Nat}

/-! ### Checks -/

/-- What follows the checks of a receiver. -/
def receiverTail (c : Contract) (logic : MethodRef) : Block :=
  .loadSelf :: Loom.argumentLoads c.layout.roles 0 ++ [.call (.method logic), .leave]

theorem argumentLoads_ne_mark (roles : List Role) (slot : Nat) (label : Label) :
    ∀ i ∈ Loom.argumentLoads roles slot, i ≠ .mark label := by
  induction roles generalizing slot with
  | nil => simp [Loom.argumentLoads]
  | cons role roles ih =>
    intro i hi
    cases role with
    | target =>
      rcases List.mem_cons.mp hi with rfl | hi
      · simp
      · rcases List.mem_cons.mp hi with rfl | hi
        · simp
        · exact ih slot i hi
    | serialized =>
      rcases List.mem_cons.mp hi with rfl | hi
      · simp
      · exact ih (slot + 1) i hi
    | _ =>
      rcases List.mem_cons.mp hi with rfl | hi
      · simp
      · exact ih slot i hi

theorem from?_receiverTail (c : Contract) (logic : MethodRef) (label : Label) (before : Block) :
    Block.from? label (before ++ .mark label :: receiverTail c logic) =
      some (.mark label :: receiverTail c logic) := by
  refine Block.from?_append (Block.from?_eq_none fun i hi => ?_) before
  rcases List.mem_append.mp hi with hi | hi
  · rcases List.mem_cons.mp hi with rfl | hi
    · simp
    · exact argumentLoads_ne_mark c.layout.roles 0 label i hi
  · rcases List.mem_pair.mp hi with rfl | rfl <;> simp

theorem receiverGuard_server {c : Contract} (h : (c.policy .server).requireOwnership = true) :
    Loom.receiverGuard c .server = [.loadSelf, .loadArg 2, .intrinsic .compareOwner, .jumpIfTrue 0,
      .warn Body.notOwnerWarning, .leave, .mark 0] := by
  simp [Loom.receiverGuard, Body.guardReceiver, h, Body.require, Body.newLabel, Body.empty,
    Receiver.connectionArg]

theorem receiverGuard_observers {c : Contract} (h : (c.policy .observers).includeOwner = false) :
    Loom.receiverGuard c .observers =
      [.loadSelf, .intrinsic .isOwner, .jumpIfFalse 0, .leave, .mark 0] := by
  simp [Loom.receiverGuard, Body.guardReceiver, h, Body.newLabel, Body.empty, Body.askSelf]

/-- A check that is passed jumps behind itself. -/
theorem from?_receiverGuard (c : Contract) (kind : Kind) (logic : MethodRef)
    (h : kind = .server ∧ (c.policy .server).requireOwnership = true ∨
      kind = .observers ∧ (c.policy .observers).includeOwner = false) (before : Block) :
    Block.from? 0 (before ++ (Loom.receiverGuard c kind ++ receiverTail c logic)) =
      some (.mark 0 :: receiverTail c logic) := by
  rcases h with ⟨rfl, h⟩ | ⟨rfl, h⟩
  · have := from?_receiverTail c logic 0 (before ++ [.loadSelf, .loadArg 2,
      .intrinsic .compareOwner, .jumpIfTrue 0, .warn Body.notOwnerWarning, .leave])
    rw [receiverGuard_server h]
    simpa using this
  · have := from?_receiverTail c logic 0 (before ++ [.loadSelf, .intrinsic .isOwner,
      .jumpIfFalse 0, .leave])
    rw [receiverGuard_observers h]
    simpa using this

/-- A check goes on with `tail` if a call is accepted, and otherwise turns it away and returns. -/
def Decides (a : Assembly) (object : NetObject) (args : List Value) (block checked tail : Block)
    (kind : Kind) (accepted : Bool) (cost : Nat) : Prop :=
  ∀ procedure locals stack host packet n,
    a.run object procedure block checked ⟨⟨args, locals, stack⟩, host, packet, n + cost⟩ =
      if accepted then
        a.run object procedure block tail ⟨⟨args, locals, stack⟩, host, packet, n⟩
      else .ok .returned ⟨⟨args, locals, stack⟩, host.refusing kind, packet, n⟩

theorem decides_server (a : Assembly) (object : NetObject) {sender : Option ConnectionId}
    (hsender : args[2]? = some (.ofConnection? sender)) {tail : Block}
    (hjump : Block.from? 0 block = some (.mark 0 :: tail)) :
    ∃ cost ≤ 6, Decides a object args block
      (.loadSelf :: .loadArg 2 :: .intrinsic .compareOwner :: .jumpIfTrue 0 ::
        .warn Body.notOwnerWarning :: .leave :: .mark 0 :: tail) tail .server
      (object.ownedByConnection sender) cost := by
  have hcompare : ∀ procedure rest locals stack host packet n,
      a.run object procedure block (.intrinsic .compareOwner :: rest)
          ⟨⟨args, locals, .ofConnection? sender :: .self :: stack⟩, host, packet, n + 1⟩ =
        a.run object procedure block rest ⟨⟨args, locals,
          .bool (object.ownedByConnection sender) :: stack⟩, host, packet, n⟩ :=
    fun _ _ _ _ host _ _ => run_intrinsic [.self, .ofConnection? sender] rfl
      (host.answer_compareOwner object sender)
  cases howned : object.ownedByConnection sender with
  | true =>
    refine ⟨5, by omega, fun procedure locals stack host packet n => ?_⟩
    rw [run_loadSelf, run_loadArg hsender, hcompare, run_jumpIfTrue hjump, howned, if_pos rfl,
      run_mark, if_pos rfl]
  | false =>
    refine ⟨6, Nat.le_refl 6, fun procedure locals stack host packet n => ?_⟩
    rw [run_loadSelf, run_loadArg hsender, hcompare, run_jumpIfTrue hjump, howned,
      if_neg (by simp), run_warn, run_leave, if_neg (by simp)]
    rfl

theorem decides_observers (a : Assembly) (object : NetObject) {tail : Block}
    (hjump : Block.from? 0 block = some (.mark 0 :: tail)) :
    ∃ cost ≤ 6, Decides a object args block
      (.loadSelf :: .intrinsic .isOwner :: .jumpIfFalse 0 :: .leave :: .mark 0 :: tail) tail
      .observers (!object.isOwner) cost := by
  have hask : ∀ host : Host, host.answer object .isOwner [.self] =
      .ok (host, some (.bool object.isOwner)) := fun _ => rfl
  cases howner : object.isOwner with
  | true =>
    refine ⟨4, by omega, fun procedure locals stack host packet n => ?_⟩
    rw [run_loadSelf, run_ask rfl (hask host), run_jumpIfFalse hjump, howner, if_pos rfl,
      run_leave, if_neg (by simp)]
    rfl
  | false =>
    refine ⟨4, by omega, fun procedure locals stack host packet n => ?_⟩
    rw [run_loadSelf, run_ask rfl (hask host), run_jumpIfFalse hjump, howner, if_neg (by simp),
      run_mark, if_pos (by simp)]

/-- The check of a receiver decides whether it accepts a call. -/
theorem decides_receiverGuard (a : Assembly) (object : NetObject) (c : Contract) (kind : Kind)
    (logic : MethodRef) {sender : Option ConnectionId}
    (hsender : kind = .server → args[2]? = some (.ofConnection? sender)) (before : Block) :
    ∃ cost ≤ 6, Decides a object args
      (before ++ (Loom.receiverGuard c kind ++ receiverTail c logic))
      (Loom.receiverGuard c kind ++ receiverTail c logic) (receiverTail c logic) kind
      (c.accepts kind object sender) cost := by
  -- without a guard every call is let in
  have hopen : Loom.receiverGuard c kind = [] → c.accepts kind object sender = true →
      ∃ cost ≤ 6, Decides a object args
        (before ++ (Loom.receiverGuard c kind ++ receiverTail c logic))
        (Loom.receiverGuard c kind ++ receiverTail c logic) (receiverTail c logic) kind
        (c.accepts kind object sender) cost := by
    intro hguard haccepts
    refine ⟨0, by omega, fun _ _ _ _ _ _ => ?_⟩
    rw [hguard, if_pos haccepts]
    rfl
  cases kind with
  | server =>
    cases howned : (c.policy .server).requireOwnership with
    | false =>
      apply hopen
      · simp [Loom.receiverGuard, Body.guardReceiver, howned, Body.empty]
      · simp [Contract.accepts, howned]
    | true =>
      have haccepts : c.accepts .server object sender = object.ownedByConnection sender := by
        simp [Contract.accepts, howned]
      have hjump := from?_receiverGuard c .server logic (.inl ⟨rfl, howned⟩) before
      rw [haccepts]
      generalize before ++ (Loom.receiverGuard c .server ++ receiverTail c logic) = block at hjump ⊢
      rw [receiverGuard_server howned]
      exact decides_server a object (hsender rfl) hjump
  | observers =>
    cases howned : (c.policy .observers).includeOwner with
    | true =>
      apply hopen
      · simp [Loom.receiverGuard, Body.guardReceiver, howned, Body.empty]
      · simp [Contract.accepts, howned]
    | false =>
      have haccepts : c.accepts .observers object sender = !object.isOwner := by
        simp [Contract.accepts, howned]
      have hjump := from?_receiverGuard c .observers logic (.inr ⟨rfl, howned⟩) before
      rw [haccepts]
      generalize before ++ (Loom.receiverGuard c .observers ++ receiverTail c logic) = block
        at hjump ⊢
      rw [receiverGuard_observers howned]
      exact decides_observers a object hjump
  | target => exact hopen rfl rfl

/-! ### Unpacking -/

/-- With enough steps, unpacking takes the fields and goes on, or fails where they end. -/
theorem run_takeFields (a : Assembly) (object : NetObject) (types : List TypeRef)
    (read pending : List Value) (hpending : pending.length = types.length) (bits : Wire.Bits)
    (procedure : String) (block rest : Block) (args stack : List Value) (host : Host) (n : Nat) :
    (∃ vs left, Wire.takeFields types bits = (.ok vs, left) ∧
      a.run object procedure block (Codec.standard.unpackingCode types read.length ++ rest)
          ⟨⟨.reader :: args, read ++ pending, stack⟩, host, some bits, n + 3 * types.length⟩ =
        a.run object procedure block rest
          ⟨⟨.reader :: args, read ++ vs, stack⟩, host, some left, n⟩) ∨
    ∃ e left frame steps, Wire.takeFields types bits = (.error e, left) ∧
      a.run object procedure block (Codec.standard.unpackingCode types read.length ++ rest)
          ⟨⟨.reader :: args, read ++ pending, stack⟩, host, some bits, n + 3 * types.length⟩ =
        .error e ⟨frame, host, some left, steps⟩ := by
  induction types generalizing read pending bits with
  | nil =>
    obtain rfl := List.eq_nil_of_length_eq_zero hpending
    exact .inl ⟨[], bits, rfl, rfl⟩
  | cons t types ih =>
    obtain ⟨old, pending, rfl⟩ := List.exists_cons_of_length_eq_add_one hpending
    rw [Wire.takeFields, Codec.unpackingCode, List.append_assoc, List.length_cons, Nat.mul_succ,
      ← Nat.add_assoc, Codec.reading_standard, Body.readInto]
    simp only [List.cons_append, List.nil_append]
    rw [run_loadArg rfl, run_read, show (Codec.readProc t).type = t from rfl]
    rcases Wire.readField t bits with ⟨e | v, left⟩
    · exact .inr ⟨e, left, _, _, rfl, rfl⟩
    · -- the local that is stored is the first that has not been
      have hset : (read ++ old :: pending).set read.length v = read ++ [v] ++ pending := by
        rw [List.set_append_right _ _ (Nat.le_refl _), Nat.sub_self, List.append_assoc]
        rfl
      have hnext := ih (read ++ [v]) pending (by simpa using hpending) left
      rw [List.length_append, List.length_singleton] at hnext
      simp only
      rw [run_storeLocal (by simp), hset]
      rcases hnext with ⟨vs, last, htake, hrun⟩ | ⟨e, last, frame, steps, htake, hrun⟩
      · refine .inl ⟨v :: vs, last, by rw [htake]; rfl, ?_⟩
        rw [hrun, List.append_assoc]
        rfl
      · exact .inr ⟨e, last, frame, steps, by rw [htake]; rfl, hrun⟩

/-! ### Arguments for the logic -/

/-- The arguments for the logic are loaded in the order of their roles. -/
theorem run_argumentLoads (a : Assembly) (object : NetObject) {channel : Channel}
    {sender : Option ConnectionId} (hchannel : args[1]? = some (.channel channel))
    (roles : List Role) (vs before : List Value) (hvs : vs.length = roles.count .serialized)
    (hcaller : .caller ∈ roles → args[2]? = some (.ofConnection? sender))
    (hlocals : locals = before ++ vs) :
    ∃ cost ≤ 2 * roles.length, ∀ procedure block rest stack host packet n,
      a.run object procedure block (Loom.argumentLoads roles before.length ++ rest)
          ⟨⟨args, locals, stack⟩, host, packet, n + cost⟩ =
        a.run object procedure block rest
          ⟨⟨args, locals, (Role.fill channel sender object.localConnection roles vs).reverse ++
            stack⟩, host, packet, n⟩ := by
  induction roles generalizing vs before with
  | nil => exact ⟨0, Nat.le_refl 0, fun _ _ _ _ _ _ _ => rfl⟩
  | cons role roles ih =>
    have hlater : .caller ∈ roles → args[2]? = some (.ofConnection? sender) :=
      fun h => hcaller (List.mem_cons_of_mem _ h)
    -- what a role loads stands below all that is loaded later
    have hbelow : ∀ (w : Value) (vs stack : List Value),
        (w :: vs).reverse ++ stack = vs.reverse ++ w :: stack := by
      intro w vs stack
      rw [List.reverse_cons, List.append_assoc]
      rfl
    cases role with
    | serialized =>
      rw [List.count_cons_self] at hvs
      obtain ⟨v, vs, rfl⟩ := List.exists_cons_of_length_eq_add_one hvs
      have hnext : locals = (before ++ [v]) ++ vs := by
        rw [hlocals, List.append_assoc]
        rfl
      obtain ⟨cost, hcost, hrun⟩ := ih vs (before ++ [v]) (by simpa using hvs) hlater hnext
      rw [List.length_append, List.length_singleton] at hrun
      have hv : locals[before.length]? = some v := by simp [hlocals]
      refine ⟨cost + 1, by rw [List.length_cons]; omega, fun _ _ _ _ _ _ n => ?_⟩
      rw [Loom.argumentLoads, List.cons_append, ← Nat.add_assoc, run_loadLocal hv, hrun,
        Role.fill, hbelow]
    | channel =>
      obtain ⟨cost, hcost, hrun⟩ := ih vs before (by simpa using hvs) hlater hlocals
      refine ⟨cost + 1, by rw [List.length_cons]; omega, fun _ _ _ _ _ _ n => ?_⟩
      rw [Loom.argumentLoads, List.cons_append, ← Nat.add_assoc,
        run_loadArg (show args[Receiver.channelArg]? = _ from hchannel), hrun, Role.fill, hbelow]
    | caller =>
      obtain ⟨cost, hcost, hrun⟩ := ih vs before (by simpa using hvs) hlater hlocals
      refine ⟨cost + 1, by rw [List.length_cons]; omega, fun _ _ _ _ _ _ n => ?_⟩
      rw [Loom.argumentLoads, List.cons_append, ← Nat.add_assoc,
        run_loadArg (show args[Receiver.connectionArg]? = _ from hcaller (by simp)), hrun,
        Role.fill, hbelow]
    | target =>
      obtain ⟨cost, hcost, hrun⟩ := ih vs before (by simpa using hvs) hlater hlocals
      refine ⟨cost + 2, by rw [List.length_cons]; omega, fun _ _ _ _ host _ n => ?_⟩
      have hask : host.answer object .localConnection [.self] =
          .ok (host, some (.ofConnection? object.localConnection)) := rfl
      rw [Loom.argumentLoads, List.cons_append, List.cons_append, ← Nat.add_assoc, run_loadSelf,
        run_ask rfl hask, hrun, Role.fill, hbelow]

/-- If the check lets a call in, its logic is run on what arrived. -/
theorem run_receiverTail {c : Contract} {logic : MethodRef} {l : Procedure} {more : Nat}
    (hlength : logic.types.length = c.layout.roles.length)
    (hlogic : a.calleeOf object true logic = .ok l) {channel : Channel}
    {sender : Option ConnectionId} (hchannel : args[1]? = some (.channel channel))
    (hcaller : .caller ∈ c.layout.roles → args[2]? = some (.ofConnection? sender))
    {vs : List Value} (hvs : vs.length = c.layout.roles.count .serialized)
    (hends : a.Completes object l (c.layout.filled channel sender object.localConnection vs) host
      packet host' packet more) (procedure : String) (block : Block) :
    ∃ cost ≤ 2 * c.layout.roles.length + more + 3, ∀ n, ∃ frame,
      a.run object procedure block (receiverTail c logic) ⟨⟨args, vs, []⟩, host, packet, n + cost⟩ =
        .ok .returned ⟨frame, host', packet, n⟩ := by
  obtain ⟨loads, hloads, hload⟩ :=
    run_argumentLoads a object hchannel c.layout.roles vs [] hvs hcaller rfl
  have hfilled : (c.layout.filled channel sender object.localConnection vs).length =
      logic.types.length := by
    rw [hlength]
    exact Role.length_fill hvs
  have htail : receiverTail c logic = .loadSelf :: (Loom.argumentLoads c.layout.roles 0 ++
      [.call (.method logic), .leave]) := rfl
  refine ⟨loads + more + 3, by omega, fun n => ⟨⟨args, vs, []⟩, ?_⟩⟩
  rw [show n + (loads + more + 3) = more + (n + 1) + 1 + loads + 1 by omega, htail, run_loadSelf]
  refine (hload _ _ _ _ _ _ _).trans ?_
  exact (run_call _ hfilled hlogic hends).trans run_leave

/-! ### The whole receiver -/

theorem receiverArgs_server {reader : MethodRef} {kind : Kind} (channel : Channel)
    (sender : Option ConnectionId)
    (hreader : reader.types = (Receiver.parameters kind).map (·.type)) (hkind : kind = .server) :
    (receiverArgs reader channel sender)[2]? = some (.ofConnection? sender) := by
  subst hkind
  simp [receiverArgs, hreader, Receiver.parameters]

section

variable {reader : MethodRef} {p : Procedure} {body : Body} {packet : Wire.Bits}
  {channel : Channel} {sender : Option ConnectionId} {host : Host} {s : RunState}

theorem receive_of_ok {flow : Flow} (hcallee : a.calleeOf object false reader = .ok p)
    (hbody : p.body = some body)
    (hrun : a.run object p.name body.code body.code
      ⟨⟨receiverArgs reader channel sender, List.replicate body.locals.length .null, []⟩, host,
        some packet, stepBudget⟩ = .ok flow s) :
    a.receive object reader packet channel sender host = (.ok (), s.host, s.packet.getD []) := by
  rw [receive, invoke_eq, enter_eq hcallee hbody, hrun]

theorem receive_of_error {e : Fault} (hcallee : a.calleeOf object false reader = .ok p)
    (hbody : p.body = some body)
    (hrun : a.run object p.name body.code body.code
      ⟨⟨receiverArgs reader channel sender, List.replicate body.locals.length .null, []⟩, host,
        some packet, stepBudget⟩ = .error e s) :
    a.receive object reader packet channel sender host = (.error e, s.host, s.packet.getD []) := by
  rw [receive, invoke_eq, enter_eq hcallee hbody, hrun]

end

/-- A receiver takes exactly the fields of a call from the packet, and fails without a trace if
they are not there.  If they are, it runs the logic on what arrived or turns the call away. -/
theorem receive_eq {settings : Settings} {p : Procedure} {c : Contract} (hp : p.Keeps .standard c)
    {kind : Kind} (hkind : kind ∈ c.kinds.toList) {body : Body} {logic : MethodRef}
    (hbody : Loom.receiverBody ⟨.standard, settings⟩ p c kind logic = .ok body)
    {reader : MethodRef} (hreader : reader.types = (Receiver.parameters kind).map (·.type))
    (hcallee : a.calleeOf object false reader = .ok (p.readerOf kind body)) {l : Procedure}
    {more : Nat} (hlength : logic.types.length = p.parameters.length)
    (hlogic : a.calleeOf object true logic = .ok l) {packet : Wire.Bits} {channel : Channel}
    {sender : Option ConnectionId} {after : List Value → Host}
    (hends : ∀ vs left,
      Wire.takeFields ((c.layout.fields p.parameters).map (·.2.type)) packet = (.ok vs, left) →
      a.Completes object l (c.layout.filled channel sender object.localConnection vs) host
        (some left) (after vs) (some left) more)
    (hbudget : 3 * (c.layout.fields p.parameters).length + 2 * p.parameters.length + more + 9 ≤
      stepBudget) :
    a.receive object reader packet channel sender host =
      match Wire.takeFields ((c.layout.fields p.parameters).map (·.2.type)) packet with
      | (.ok vs, left) =>
        (.ok (), if c.accepts kind object sender then after vs else host.refusing kind, left)
      | (.error e, left) => (.error e, host, left) := by
  obtain ⟨b, hb, hcode, hlocals⟩ :=
    Loom.receiverBody_eq ⟨.standard, settings⟩ Codec.honest_standard hp kind logic
  obtain rfl : b = body := Except.ok.inj (hb.symm.trans hbody)
  have hroles := hp.length_roles
  have hserver := receiverArgs_server channel sender hreader
  let types := (c.layout.fields p.parameters).map (·.2.type)
  let args := receiverArgs reader channel sender
  have hmany : types.length = (c.layout.fields p.parameters).length := List.length_map _
  have htypes : types.length = c.layout.roles.count .serialized := by
    rw [hmany]
    exact c.layout.length_fields p.parameters hroles
  have hwhole : b.code = Codec.standard.unpackingCode types 0 ++
      (Loom.receiverGuard c kind ++ receiverTail c logic) := by
    rw [hcode, Loom.receiverCode, List.append_assoc]
    rfl
  have hcaller : .caller ∈ c.layout.roles → args[2]? = some (.ofConnection? sender) := by
    intro hmem
    apply hserver
    rw [hp.server_of_caller hmem] at hkind
    simpa [KindSet.toList] using hkind
  obtain ⟨first, hfirst, hcheck⟩ := decides_receiverGuard a object c kind logic hserver
    (Codec.standard.unpackingCode types 0)
  rw [← hwhole] at hcheck
  obtain ⟨spare, hspare⟩ : ∃ spare, stepBudget =
      spare + (2 * p.parameters.length + more + 3) + first + 3 * types.length :=
    ⟨stepBudget - ((2 * p.parameters.length + more + 3) + first + 3 * types.length), by omega⟩
  have hunpack := run_takeFields a object types [] (List.replicate b.locals.length .null)
    (by rw [List.length_replicate, hlocals, List.length_map]) packet (p.readerOf kind b).name b.code
    (Loom.receiverGuard c kind ++ receiverTail c logic) args.tail [] host
    (spare + (2 * p.parameters.length + more + 3) + first)
  rw [List.length_nil, ← hwhole, ← hspare] at hunpack
  rcases hunpack with ⟨vs, left, htake, hrun⟩ | ⟨e, left, frame, steps, htake, hrun⟩
  · obtain ⟨tail, htail, hend⟩ := run_receiverTail (hlength.trans hroles.symm) hlogic
      (show args[1]? = some (.channel channel) from rfl) hcaller
      ((Wire.length_of_takeFields htake).trans htypes) (hends vs left htake)
      (p.readerOf kind b).name b.code
    -- a call that is let in has steps enough for what follows the check
    obtain ⟨rest, hrest⟩ : ∃ rest, spare + (2 * p.parameters.length + more + 3) = rest + tail :=
      ⟨spare + (2 * p.parameters.length + more + 3 - tail), by omega⟩
    have hchecked := hcheck (p.readerOf kind b).name vs [] host (some left) (rest + tail)
    rw [hrest] at hrun
    rw [htake]
    cases haccepts : c.accepts kind object sender with
    | false =>
      rw [haccepts] at hchecked
      exact receive_of_ok hcallee rfl (hrun.trans hchecked)
    | true =>
      rw [haccepts, if_pos rfl] at hchecked
      obtain ⟨frame, hend⟩ := hend rest
      exact receive_of_ok hcallee rfl (hrun.trans (hchecked.trans hend))
  · rw [htake]
    exact receive_of_error hcallee rfl hrun

end Assembly

end RpcLoom
