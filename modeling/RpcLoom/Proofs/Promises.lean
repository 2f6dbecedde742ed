/-
RpcLoom/Proofs/Promises.lean

What a contract says, and what is made under a codec that keeps its promises.

Design.  A contract is read apart once (`Keeps`).  Only parameters of the type
that a role asks for can have it, so the parameters that travel are those the
codec promises.  If it also writes and reads them, every sender and every
receiver can be made, and their code is written out here.
-/
import RpcLoom.Proofs.Outline

namespace RpcLoom

/-! ### Codecs -/

namespace Codec

/-- A codec writes and reads whatever it promises. -/
structure Honest (codec : Codec) : Prop where
  writes : ∀ t, codec.hasSerializer t = true → (codec.writerFor t).isSome = true
  reads : ∀ t, codec.hasSerializer t = true → (codec.readerFor t).isSome = true

/-- What writes values of a type. -/
def writing (codec : Codec) (t : TypeRef) : CodecProc := (codec.writerFor t).getD (writeProc t)

/-- What reads values of a type. -/
def reading (codec : Codec) (t : TypeRef) : CodecProc := (codec.readerFor t).getD (readProc t)

theorem honest_ofLists (promised : List TypeRef) : (ofLists promised promised promised).Honest := by
  constructor
  · intro t ht
    have hmem : promised.contains t = true := ht
    show (if promised.contains t = true then some (writeProc t) else none).isSome = true
    rw [if_pos hmem]
    rfl
  · intro t ht
    have hmem : promised.contains t = true := ht
    show (if promised.contains t = true then some (readProc t) else none).isSome = true
    rw [if_pos hmem]
    rfl

theorem honest_standard : standard.Honest := honest_ofLists scalars

@[simp] theorem writing_standard (t : TypeRef) : standard.writing t = writeProc t := by
  show (if scalars.contains t = true then some (writeProc t) else none).getD (writeProc t) = _
  split <;> rfl

@[simp] theorem reading_standard (t : TypeRef) : standard.reading t = readProc t := by
  show (if scalars.contains t = true then some (readProc t) else none).getD (readProc t) = _
  split <;> rfl

end Codec

/-! ### Roles -/

namespace Layout

theorem getElem?_assign (role : Role) (index? : Option Nat) (roles : List Role) (i : Nat) :
    (assign role index? roles)[i]? =
      if index? = some i then roles[i]?.map fun _ => role else roles[i]? := by
  cases index? with
  | none => simp [assign]
  | some k =>
    by_cases hk : k = i
    · subst hk
      by_cases hlt : k < roles.length <;> simp [assign, hlt]
    · simp [assign, hk]

variable {kinds : KindSet} {ps : List Parameter} {i : Nat}

theorem parameter_of_targetIndex? (h : targetIndex? kinds ps = some i) :
    i = 0 ∧ kinds.contains .target = true ∧ ∃ x, ps[i]? = some x ∧ x.type = .connection := by
  unfold targetIndex? at h
  cases ps with
  | nil => cases h
  | cons x rest =>
    by_cases hx : (kinds.contains .target && x.type.isConnection) = true
    · simp only [hx, if_true, Option.some.injEq] at h
      obtain ⟨hkind, htype⟩ := Bool.and_eq_true_iff.mp hx
      subst h
      exact ⟨rfl, hkind, x, rfl, by simpa [TypeRef.isConnection] using htype⟩
    · simp [hx] at h

theorem parameter_of_callerIndex? (h : callerIndex? kinds ps = some i) :
    kinds = .single .server ∧ ∃ x, ps[i]? = some x ∧ x.type = .connection := by
  unfold callerIndex? at h
  cases hlast : ps.getLast? with
  | none => simp [hlast] at h
  | some x =>
    simp only [hlast] at h
    by_cases hx : (kinds.isServer && isCaller x) = true
    · simp only [hx, if_true, Option.some.injEq] at h
      obtain ⟨hkind, hcaller⟩ := Bool.and_eq_true_iff.mp hx
      obtain ⟨htype, -⟩ := Bool.and_eq_true_iff.mp hcaller
      refine ⟨by simpa [KindSet.isServer] using hkind, x, ?_,
        by simpa [TypeRef.isConnection] using htype⟩
      rw [← h, ← List.getLast?_eq_getElem?]
      exact hlast
    · simp [hx] at h

theorem parameter_of_channelIndex? (h : channelIndex? kinds ps = some i) :
    ∃ x, ps[i]? = some x ∧ x.type = .channel := by
  obtain ⟨qs, rfl⟩ : ∃ qs : List Parameter, ps = qs.reverse :=
    ⟨ps.reverse, (List.reverse_reverse ps).symm⟩
  unfold channelIndex? at h
  rw [List.reverse_reverse] at h
  cases qs with
  | nil => cases h
  | cons last before =>
    by_cases hlast : last.type.isChannel = true
    · simp only [hlast, if_true, Option.some.injEq, List.length_reverse, List.length_cons,
        Nat.add_sub_cancel] at h
      refine ⟨last, ?_, by simpa [TypeRef.isChannel] using hlast⟩
      rw [← h, List.reverse_cons, List.getElem?_append_right (by simp)]
      simp
    · cases before with
      | nil => simp [hlast] at h
      | cons previous before =>
        by_cases hprev : ((callerIndex? kinds (last :: previous :: before).reverse).isSome &&
            previous.type.isChannel) = true
        · simp only [if_neg hlast, if_pos hprev] at h
          have hi : before.length = i := by simpa using h
          refine ⟨previous, ?_, ?_⟩
          · rw [← hi, List.reverse_cons, List.reverse_cons, List.append_assoc,
              List.getElem?_append_right (by simp)]
            simp
          · simpa [TypeRef.isChannel] using (Bool.and_eq_true_iff.mp hprev).2
        · simp only [if_neg hlast, if_neg hprev] at h
          cases h

/-- What a role asks of the parameter at a position. -/
def Asks (kinds : KindSet) (i : Nat) (x : Parameter) : Role → Prop
  | .serialized => True
  | .channel => x.type = .channel
  | .target => kinds.contains .target = true ∧ i = 0 ∧ x.type = .connection
  | .caller => kinds = .single .server ∧ x.type = .connection

/-- The parameter of each role is what the role asks for. -/
theorem parameter_of_role {role : Role} (h : (ofParameters kinds ps).roles[i]? = some role) :
    ∃ x, ps[i]? = some x ∧ Asks kinds i x role := by
  have hx : ∃ x, ps[i]? = some x := by
    have hlt : i < ps.length := by
      rw [← length_roles_ofParameters kinds ps]
      exact (List.getElem?_eq_some_iff.mp h).1
    exact ⟨ps[i], List.getElem?_eq_getElem hlt⟩
  obtain ⟨x, hx⟩ := hx
  refine ⟨x, hx, ?_⟩
  rw [ofParameters] at h
  simp only [getElem?_assign] at h
  -- the role of a position is the last one it was given
  split at h
  next hchannel =>
    obtain ⟨y, hy, htype⟩ := parameter_of_channelIndex? hchannel
    obtain rfl := Option.some.inj (hx.symm.trans hy)
    obtain ⟨_, -, rfl⟩ := Option.map_eq_some_iff.mp h
    exact htype
  next =>
    split at h
    next hcaller =>
      obtain ⟨hkinds, y, hy, htype⟩ := parameter_of_callerIndex? hcaller
      obtain rfl := Option.some.inj (hx.symm.trans hy)
      obtain ⟨_, -, rfl⟩ := Option.map_eq_some_iff.mp h
      exact ⟨hkinds, htype⟩
    next =>
      split at h
      next htarget =>
        obtain ⟨hi, hkinds, y, hy, htype⟩ := parameter_of_targetIndex? htarget
        obtain rfl := Option.some.inj (hx.symm.trans hy)
        obtain ⟨_, -, rfl⟩ := Option.map_eq_some_iff.mp h
        exact ⟨hkinds, hi, htype⟩
      next =>
        obtain ⟨-, rfl⟩ := by simpa [List.getElem?_replicate] using h
        trivial

/-- A connection at the front of a targeted call is its target. -/
theorem role_zero (hkinds : kinds.contains .target = true)
    (h : ps.head?.any (·.type.isConnection) = true) :
    (ofParameters kinds ps).roles[0]? = some .target := by
  obtain ⟨x, rest, rfl, hx⟩ : ∃ x rest, ps = x :: rest ∧ x.type.isConnection = true := by
    cases ps with
    | nil => simp at h
    | cons x rest => exact ⟨x, rest, rfl, by simpa using h⟩
  have htype : x.type = .connection := by simpa [TypeRef.isConnection] using hx
  have hchannel : channelIndex? kinds (x :: rest) ≠ some 0 := by
    intro hc
    obtain ⟨y, hy, hchannel⟩ := parameter_of_channelIndex? hc
    obtain rfl : x = y := by simpa using hy
    rw [htype] at hchannel
    cases hchannel
  have hcaller : callerIndex? kinds (x :: rest) ≠ some 0 := by
    intro hc
    obtain ⟨hserver, -⟩ := parameter_of_callerIndex? hc
    rw [hserver] at hkinds
    cases hkinds
  have htarget : targetIndex? kinds (x :: rest) = some 0 := by
    simp [targetIndex?, hkinds, hx]
  rw [ofParameters]
  simp only [getElem?_assign, hchannel, hcaller, htarget, if_false, if_true]
  simp

/-- The parameters that travel are those at the serialized positions. -/
theorem mem_fields {l : Layout} {x : Parameter} :
    (i, x) ∈ l.fields ps ↔ l.roles[i]? = some .serialized ∧ ps[i]? = some x := by
  simp only [fields, serialized, List.mem_filterMap, List.mem_map, List.mem_filter,
    Option.map_eq_some_iff, Prod.mk.injEq]
  constructor
  · rintro ⟨_, ⟨⟨role, k⟩, ⟨hmem, hrole⟩, rfl⟩, y, hy, rfl, rfl⟩
    obtain rfl : role = .serialized := by simpa using hrole
    exact ⟨List.mk_mem_zipIdx_iff_getElem?.mp hmem, hy⟩
  · rintro ⟨hrole, hx⟩
    exact ⟨i, ⟨(.serialized, i), ⟨List.mk_mem_zipIdx_iff_getElem?.mpr hrole, rfl⟩, rfl⟩, x, hx,
      rfl, rfl⟩

end Layout

/-! ### Contracts -/

/-- A procedure keeps the rules for remote calls, and this is its contract. -/
structure Procedure.Keeps (p : Procedure) (codec : Codec) (c : Contract) : Prop where
  kinds : KindSet.ofKinds? (p.annotations.map (·.kind)) = some c.kinds
  annotations : c.annotations = p.annotations
  layout : c.layout = .ofParameters c.kinds p.parameters
  target : c.kinds.contains .target = true → p.parameters.head?.any (·.type.isConnection) = true
  promised : ∀ x ∈ c.layout.fields p.parameters, codec.hasSerializer x.2.type = true

theorem Procedure.keeps_of_contract? {p : Procedure} {codec : Codec} {c : Contract}
    (h : p.contract? codec = .ok (some c)) : p.Keeps codec c := by
  unfold contract? at h
  by_cases hremote : (!p.isRemote) = true
  · simp [hremote] at h
  rw [if_neg hremote] at h
  cases hkinds : KindSet.ofKinds? (p.annotations.map (·.kind)) with
  | none => simp [hkinds] at h
  | some kinds =>
    simp only [hkinds] at h
    split at h
    · cases h
    split at h
    · cases h
    split at h
    · cases h
    split at h
    · cases h
    split at h
    · cases h
    next htarget =>
      cases hfields : ((Layout.ofParameters kinds p.parameters).fields p.parameters).findSome?
          fun x => p.fieldRejection? codec x.2 with
      | some r =>
        rw [hfields] at h
        cases h
      | none =>
        rw [hfields] at h
        obtain rfl := Option.some.inj (Except.ok.inj h)
        refine ⟨hkinds, rfl, rfl, fun hk => ?_, fun x hx => ?_⟩
        · show p.parameters.head?.any (·.type.isConnection) = true
          simpa [show kinds.contains .target = true from hk] using htarget
        · have hnone := List.findSome?_eq_none_iff.mp hfields x hx
          unfold fieldRejection? at hnone
          split at hnone
          · cases hnone
          · split at hnone
            · cases hnone
            next hpromised => simpa using hpromised

/-- Where connections do not travel, calls of one signature that go to observers are of the same
kinds: only a target explains a connection at the front. -/
theorem Procedure.Keeps.kinds_eq {p q : Procedure} {codec : Codec} {c d : Contract}
    (hp : p.Keeps codec c) (hq : q.Keeps codec d) (htypes : p.types = q.types)
    (hcodec : codec.hasSerializer .connection = false) (hc : .observers ∈ c.kinds.toList)
    (hd : .observers ∈ d.kinds.toList) : c.kinds = d.kinds := by
  have hone : ∀ {p q : Procedure} {c d : Contract}, p.Keeps codec c → q.Keeps codec d →
      p.types = q.types → c.kinds = .single .observers → d.kinds ≠ .observersAndTarget := by
    intro p q c d hp hq htypes hc hd
    have hfront := hq.target (by rw [hd]; rfl)
    obtain ⟨x, rest, hps, hx⟩ : ∃ x rest, p.parameters = x :: rest ∧ x.type = .connection := by
      rw [types, types] at htypes
      cases hqs : q.parameters with
      | nil => simp [hqs] at hfront
      | cons y ys =>
        rw [hqs, List.map_cons] at htypes
        obtain ⟨x, rest, hps, hx, -⟩ := List.map_eq_cons_iff.mp htypes
        have hy : y.type = .connection := by simpa [hqs, TypeRef.isConnection] using hfront
        exact ⟨x, rest, hps, hx.trans hy⟩
    have hlength : 0 < c.layout.roles.length := by
      rw [hp.layout, Layout.length_roles_ofParameters, hps]
      exact Nat.succ_pos _
    have hrole := List.getElem?_eq_getElem hlength
    generalize c.layout.roles[0] = role at hrole
    have hasks := hrole
    rw [hp.layout] at hasks
    obtain ⟨y, hy, hasks⟩ := Layout.parameter_of_role hasks
    obtain rfl : x = y := by simpa [hps] using hy
    cases role with
    | serialized =>
      have hpromised := hp.promised (0, x) (Layout.mem_fields.mpr ⟨hrole, hy⟩)
      rw [hx, hcodec] at hpromised
      cases hpromised
    | channel => cases hx.symm.trans hasks
    | target =>
      rw [hc] at hasks
      cases hasks.1
    | caller => cases hc.symm.trans hasks.1
  have hcases : ∀ {kinds : KindSet}, .observers ∈ kinds.toList →
      kinds = .single .observers ∨ kinds = .observersAndTarget := by
    intro kinds h
    cases kinds with
    | single kind =>
      obtain rfl : Kind.observers = kind := by simpa [KindSet.toList] using h
      exact .inl rfl
    | observersAndTarget => exact .inr rfl
  rcases hcases hc with hc | hc <;> rcases hcases hd with hd | hd
  · rw [hc, hd]
  · exact absurd hd (hone hp hq htypes hc)
  · exact absurd hc (hone hq hp htypes.symm hd)
  · rw [hc, hd]

/-! ### Code that can be made -/

/-- A list of computations none of which fails. -/
theorem mapM_eq_ok {ε α β : Type} {f : α → Except ε β} {g : α → β} {l : List α}
    (h : ∀ x ∈ l, f x = .ok (g x)) : l.mapM f = .ok (l.map g) := by
  induction l with
  | nil => rfl
  | cons x rest ih =>
    rw [List.mapM_cons, h x (by simp), ih fun y hy => h y (by simp [hy])]
    rfl

/-- The code that packs parameters into the writer in a local. -/
def Codec.packingCode (codec : Codec) (fields : List (Nat × Parameter)) (writer : Nat) : Block :=
  fields.flatMap fun x =>
    [.loadLocal writer, .loadArg x.1, .codec (.write (codec.writing x.2.type))]

/-- The code that unpacks values of given types, the first into the local `slot`. -/
def Codec.unpackingCode (codec : Codec) : (types : List TypeRef) → (slot : Nat) → Block
  | [], _ => []
  | t :: types, slot =>
    Body.readInto Receiver.readerArg (codec.reading t) slot ++ unpackingCode codec types (slot + 1)

namespace Loom

variable {loom : Loom} {p : Procedure} {c : Contract} {kind : Kind}

theorem packing_eq (hcodec : loom.codec.Honest) (hp : p.Keeps loom.codec c) (writer : Nat) :
    loom.packing p (c.layout.fields p.parameters) writer =
      .ok (loom.codec.packingCode (c.layout.fields p.parameters) writer) := by
  rw [packing, mapM_eq_ok (g := fun x : Nat × Parameter =>
    [.loadLocal writer, .loadArg x.1, .codec (.write (loom.codec.writing x.2.type))])]
  · show Except.ok (List.flatten _) = _
    rw [Codec.packingCode, List.flatMap_def]
  · intro x hx
    obtain ⟨proc, hproc⟩ := Option.isSome_iff_exists.mp (hcodec.writes _ (hp.promised x hx))
    simp only [Codec.writing, hproc, Option.getD_some]

theorem unpacking_eq (hcodec : loom.codec.Honest) (hp : p.Keeps loom.codec c) :
    loom.unpacking p (c.layout.fields p.parameters) =
      .ok (loom.codec.unpackingCode ((c.layout.fields p.parameters).map (·.2.type)) 0) := by
  have hcode : ∀ (types : List TypeRef) (slot : Nat),
      ((types.map loom.codec.reading).zipIdx slot).flatMap
        (fun x => Body.readInto Receiver.readerArg x.1 x.2) =
          loom.codec.unpackingCode types slot := by
    intro types
    induction types with
    | nil => intro slot; rfl
    | cons t types ih =>
      intro slot
      rw [List.map_cons, List.zipIdx_cons, List.flatMap_cons, ih, Codec.unpackingCode]
  rw [unpacking, mapM_eq_ok (g := fun x : Nat × Parameter => loom.codec.reading x.2.type)]
  · rw [← hcode, List.map_map]
    rfl
  · intro x hx
    obtain ⟨proc, hproc⟩ := Option.isSome_iff_exists.mp (hcodec.reads _ (hp.promised x hx))
    simp only [Codec.reading, hproc, Option.getD_some]

/-- Reads fields one after the other, each into a local of its own, up to the first that cannot be
read. -/
def readFields (loom : Loom) (p : Procedure) :
    Body → List (Nat × Parameter) → Except SynthesisError Body
  | b, [] => .ok b
  | b, (_, x) :: rest =>
    match b.createRead? loom.codec Receiver.readerArg x.type with
    | some (_, code, b) => loom.readFields p (b.emit code) rest
    | none => .error (.missingReader p.name x.type.text)

/-- What reads a field, or what to say if nothing does. -/
def readerOf (loom : Loom) (p : Procedure) (field : Nat × Parameter) :
    Except SynthesisError CodecProc :=
  match loom.codec.readerFor field.2.type with
  | some proc => .ok proc
  | none => .error (.missingReader p.name field.2.type.text)

/-- Reading goes on behind the locals that a body has. -/
theorem readFields_eq (loom : Loom) (p : Procedure) (b : Body) (fields : List (Nat × Parameter)) :
    loom.readFields p b fields = (fields.mapM (loom.readerOf p)).map fun procs =>
      ({ b with locals := b.locals ++ fields.map (·.2.type) } : Body).emit
        ((procs.zipIdx b.locals.length).flatMap fun (proc, slot) =>
          Body.readInto Receiver.readerArg proc slot) := by
  induction fields generalizing b with
  | nil => simp [readFields, Except.map, pure, Except.pure, Body.emit]
  | cons field rest ih =>
    rw [readFields, List.mapM_cons, Body.createRead?, readerOf]
    cases hproc : loom.codec.readerFor field.2.type with
    | none => rfl
    | some proc =>
      simp only [Option.map_some, ih]
      cases rest.mapM (loom.readerOf p) with
      | error e => rfl
      | ok procs =>
        simp [Except.map, bind, Except.bind, pure, Except.pure, Body.emit, Body.declareLocal]

/-- The code that unpacks fields, and the locals for them, are those of reading one field after the
other, under any codec; and the same field is the first that cannot be read. -/
theorem readFields_eq_unpacking (loom : Loom) (p : Procedure) (fields : List (Nat × Parameter)) :
    loom.readFields p .empty fields = (loom.unpacking p fields).map fun code =>
      ({ Body.empty with locals := fields.map (·.2.type) } : Body).emit code := by
  rw [readFields_eq]
  show _ = Except.map _ (fields.mapM (loom.readerOf p) >>= fun procs => _)
  cases fields.mapM (loom.readerOf p) <;> rfl

/-- The code that sends the packed arguments. -/
def sendingCode (c : Contract) (kind : Kind) (id : RpcId) : Block :=
  [.loadSelf, .loadConst (.u32 id), .loadLocal 1, .loadLocal 0] ++
    match kind with
    | .server => [.intrinsic .sendServer]
    | .observers =>
      [.loadConst (.bool (c.policy kind).bufferLast), .intrinsic .sendObservers]
    | .target => [.loadArg 0, .intrinsic .sendTarget]

theorem position?_target (hp : p.Keeps loom.codec c) (hkind : c.kinds.contains .target = true) :
    c.layout.position? .target = some 0 := by
  have hzero := Layout.role_zero hkind (hp.target hkind)
  rw [← hp.layout] at hzero
  rw [Layout.position?]
  cases hroles : c.layout.roles with
  | nil =>
    rw [hroles] at hzero
    cases hzero
  | cons role rest =>
    rw [hroles] at hzero
    obtain rfl : role = .target := by simpa using hzero
    rfl

theorem sending_eq (hp : p.Keeps loom.codec c) (hkind : kind ∈ c.kinds.toList) (id : RpcId) :
    sending p c kind id 1 0 = .ok (sendingCode c kind id) := by
  cases kind with
  | server => rfl
  | observers => rfl
  | target =>
    have hcontains : c.kinds.contains .target = true := List.contains_iff_mem.mpr hkind
    simp only [sending, position?_target hp hcontains, sendingCode]

/-- The checks a sender begins with. -/
def senderGuard (loom : Loom) (c : Contract) (kind : Kind) : Body :=
  if loom.settings.guards then Body.empty.guardSender kind (c.policy kind) else .empty

/-- The code of a sender. -/
def senderCode (loom : Loom) (p : Procedure) (c : Contract) (id : RpcId) (kind : Kind) : Block :=
  (loom.senderGuard c kind).code ++
    [loom.channelOperand c, .storeLocal 0, .codec .acquire, .storeLocal 1,
      .region (loom.codec.packingCode (c.layout.fields p.parameters) 1 ++ sendingCode c kind id)
        [.loadLocal 1, .codec .release],
      .leave]

theorem locals_senderGuard (loom : Loom) (c : Contract) (kind : Kind) :
    (loom.senderGuard c kind).locals = [] := by
  rw [senderGuard]
  cases loom.settings.guards with
  | false => rfl
  | true =>
    cases kind with
    | server => cases h : (c.policy .server).requireOwnership <;> simp [Body.guardSender, h,
        Body.require, Body.empty]
    | observers => rfl
    | target => rfl

/-- A sender can be made under an honest codec, and this is its code. -/
theorem senderBody_eq (loom : Loom) (hcodec : loom.codec.Honest) (hp : p.Keeps loom.codec c)
    (hkind : kind ∈ c.kinds.toList) (id : RpcId) :
    ∃ b, loom.senderBody p c id kind = .ok b ∧ b.code = loom.senderCode p c id kind ∧
      b.locals.length = 2 := by
  have hlocals := locals_senderGuard loom c kind
  rw [senderGuard] at hlocals
  unfold senderBody
  simp only [Body.declareLocal, hlocals, List.length_nil, List.nil_append, List.length_singleton,
    packing_eq hcodec hp, sending_eq hp hkind, bind, Except.bind]
  refine ⟨_, rfl, ?_, ?_⟩
  · rfl
  · rfl

theorem senderBodies_ok (loom : Loom) (hcodec : loom.codec.Honest) (hp : p.Keeps loom.codec c)
    (id : RpcId) {kinds : List Kind} (hkinds : ∀ kind ∈ kinds, kind ∈ c.kinds.toList) :
    ∃ bodies, (loom.senderBodies p c id kinds).2 = .ok bodies := by
  induction kinds with
  | nil => exact ⟨[], rfl⟩
  | cons kind kinds ih =>
    obtain ⟨b, hb, -⟩ := senderBody_eq loom hcodec hp (hkinds kind (by simp)) id
    obtain ⟨bodies, hbodies⟩ := ih fun k hk => hkinds k (by simp [hk])
    rw [senderBodies, hb]
    simp only [hbodies, Except.map]
    exact ⟨_, rfl⟩

/-- The checks of a receiver. -/
def receiverGuard (c : Contract) (kind : Kind) : Block :=
  (Body.empty.guardReceiver kind (c.policy kind)).code

/-- The code of a receiver. -/
def receiverCode (loom : Loom) (p : Procedure) (c : Contract) (kind : Kind) (logic : MethodRef) :
    Block :=
  loom.codec.unpackingCode ((c.layout.fields p.parameters).map (·.2.type)) 0 ++
    receiverGuard c kind ++
    (.loadSelf :: argumentLoads c.layout.roles 0 ++ [.call (.method logic), .leave])

/-- A receiver can be made under an honest codec, and this is its code. -/
theorem receiverBody_eq (loom : Loom) (hcodec : loom.codec.Honest) (hp : p.Keeps loom.codec c)
    (kind : Kind) (logic : MethodRef) :
    ∃ b, loom.receiverBody p c kind logic = .ok b ∧ b.code = loom.receiverCode p c kind logic ∧
      b.locals.length = (c.layout.fields p.parameters).length := by
  have hguard : ∀ b : Body, b.nextLabel = 0 →
      (b.guardReceiver kind (c.policy kind)).code = b.code ++ receiverGuard c kind ∧
      (b.guardReceiver kind (c.policy kind)).locals = b.locals := by
    intro b hb
    rw [receiverGuard]
    cases kind with
    | server =>
      cases h : (c.policy .server).requireOwnership <;>
        simp [Body.guardReceiver, h, Body.require, Body.newLabel, hb, Body.empty]
    | observers =>
      cases h : (c.policy .observers).includeOwner <;>
        simp [Body.guardReceiver, h, Body.newLabel, hb, Body.empty]
    | target => simp [Body.guardReceiver, Body.empty]
  unfold receiverBody
  simp only [unpacking_eq hcodec hp, bind, Except.bind]
  refine ⟨_, rfl, ?_, ?_⟩
  · rw [Body.code_emit, (hguard _ rfl).1]
    rfl
  · rw [Body.locals_emit, (hguard _ rfl).2, Body.locals_emit, List.length_map]

end Loom

end RpcLoom
