/-
RpcLoom/Proofs/Senders.lean

What a sender does with its arguments.

Design.  Each part of a sender's code is followed by itself, whatever comes after
it: the checks, the packing of the fields one by one, the sending.  A check that
is not passed warns and returns.  Packing keeps to the writer that was taken, so
when it is given back the pool looks as before.  Costs are counted, since a
sender runs within the budget of the call that led to it; only an upper bound
matters, which grows with the number of fields.

Main result.  `completes_sender`: an object that fails a check is warned, and any
other hands over the call (`Loom.Sends`).
-/
import RpcLoom.Proofs.Arguments
import RpcLoom.Proofs.Edits
import RpcLoom.Proofs.Stepping

namespace RpcLoom

/-- A host that has been handed one more call to send. -/
def Host.handed (h : Host) (c : SentCall) : Host := { h with sent := h.sent.push c }

/-- A host takes the fields of a call from its writer, and the last operand says whom they go to. -/
theorem Host.send_eq_handed {h : Host} {kind : Kind} {id : RpcId} {handle : Nat}
    {channel : Channel} {operand : Value} {fields : List Field} {bufferLast : Bool}
    {connection : Option ConnectionId} (hopen : h.refusesSends = false)
    (hwritten : h.writers.fields? handle = some fields)
    (haddress : Host.addressing kind operand = .ok (bufferLast, connection)) :
    h.send kind (.u32 id) (.writer handle) (.channel channel) operand =
      .ok (h.handed ⟨kind, id, fields, channel, bufferLast, connection⟩) := by
  rw [Host.send]
  show (if h.refusesSends = true then _ else _) = _
  rw [if_neg (by simp [hopen])]
  show (h.writers.contents handle >>= fun payload => _) = _
  rw [WriterPool.contents, hwritten]
  show (Host.addressing kind operand >>= fun x => _) = _
  rw [haddress]
  rfl

/-- Whether a side may send calls of a kind. -/
def Contract.maySend (c : Contract) (kind : Kind) (object : NetObject) : Bool :=
  match kind with
  | .server => (!(c.policy kind).requireOwnership || object.isOwner) && object.isClient
  | .observers | .target => object.isServer

/-- The warning of the first check that an object fails when it sends a call of a kind. -/
def Contract.refusal? (c : Contract) (kind : Kind) (object : NetObject) : Option String :=
  match kind with
  | .server =>
    if (c.policy kind).requireOwnership && !object.isOwner then some Body.notOwnerWarning
    else if !object.isClient then some Body.clientInactiveWarning
    else none
  | .observers | .target =>
    if !object.isServer then some Body.serverInactiveWarning else none

/-- Whoever may send passes all checks. -/
theorem Contract.refusal?_of_maySend {c : Contract} {kind : Kind} {object : NetObject}
    (h : c.maySend kind object = true) : c.refusal? kind object = none := by
  cases kind with
  | server =>
    rw [maySend, Bool.and_eq_true, Bool.or_eq_true, Bool.not_eq_true'] at h
    obtain ⟨howner | howner, hclient⟩ := h <;> simp [refusal?, howner, hclient]
  | observers | target => simp [refusal?, show object.isServer = true from h]

/-- The channel among arguments that a call chooses, or the usual one. -/
def Layout.channelOf (l : Layout) (usual : Channel) (args : List Value) : Channel :=
  match (l.position? .channel).bind (args[·]?) with
  | some (.channel channel) => channel
  | _ => usual

/-- The connection among arguments that a call goes to. -/
def Kind.targetOf (kind : Kind) (args : List Value) : Option ConnectionId :=
  match kind with
  | .target =>
    match args.head? with
    | some (.connection id) => some id
    | _ => none
  | .server | .observers => none

namespace Loom

/-- The warning that a sender gives instead of sending. -/
def refusal? (loom : Loom) (c : Contract) (kind : Kind) (object : NetObject) : Option String :=
  if loom.settings.guards then c.refusal? kind object else none

/-- The call of a kind that arguments are sent as. -/
def outgoing (loom : Loom) (p : Procedure) (c : Contract) (id : RpcId) (kind : Kind)
    (args : List Value) : SentCall where
  kind
  id
  payload := Layout.payload (c.layout.fields p.parameters) args
  channel := c.layout.channelOf loom.settings.channel args
  bufferLast := kind == .observers && (c.policy kind).bufferLast
  target := kind.targetOf args

/-- What sending a call of a kind does to a host: the object is warned, or the call is handed over
in a writer that is given back. -/
def Sends (loom : Loom) (p : Procedure) (c : Contract) (id : RpcId) (kind : Kind)
    (object : NetObject) (args : List Value) (host host' : Host) : Prop :=
  match loom.refusal? c kind object with
  | some text => host' = host.warn text
  | none => ∃ writers, host.writers.Lent writers ∧
      host' = { host with writers }.handed (loom.outgoing p c id kind args)

/-- Whoever may send hands the call over. -/
theorem Sends.handed {loom : Loom} {p : Procedure} {c : Contract} {id : RpcId} {kind : Kind}
    {object : NetObject} {args : List Value} {host host' : Host}
    (h : loom.Sends p c id kind object args host host')
    (hsend : loom.settings.guards = true → c.maySend kind object = true) :
    ∃ writers, host.writers.Lent writers ∧
      host' = { host with writers }.handed (loom.outgoing p c id kind args) := by
  have hnone : loom.refusal? c kind object = none := by
    rw [refusal?]
    split
    next hguards => exact Contract.refusal?_of_maySend (hsend hguards)
    next => rfl
  unfold Sends at h
  rw [hnone] at h
  exact h

end Loom

namespace Assembly

variable {a : Assembly} {object : NetObject} {procedure : String} {block rest : Block}
  {args locals stack : List Value} {host : Host} {packet : Option Wire.Bits} {n : Nat}

/-! ### Checks -/

/-- Asks about the object, and returns with a warning if the answer is no. -/
def check (q : Intrinsic) (label : Label) (text : String) : Block :=
  [.loadSelf, .intrinsic q, .jumpIfTrue label, .warn text, .leave, .mark label]

/-- Asks several questions one after the other, each with a label of its own. -/
def checks : List (Intrinsic × String) → Label → Block
  | [], _ => []
  | (q, text) :: rest, label => check q label text ++ checks rest (label + 1)

/-- A check goes to its mark if it is passed, and otherwise warns and returns. -/
theorem run_check {q : Intrinsic} {label : Label} {text : String} (before : Block) {tail : Block}
    (hblock : block = before ++ (check q label text ++ tail))
    (htail : ∀ i ∈ tail, i ≠ .mark label) (hq : q.arity = 1) {b : Bool}
    (hanswer : host.answer object q [.self] = .ok (host, some (.bool b))) :
    a.run object procedure block (check q label text ++ tail)
        ⟨⟨args, locals, stack⟩, host, packet, n + 3⟩ =
      a.run object procedure block
        (if b then .mark label :: tail else .warn text :: .leave :: .mark label :: tail)
        ⟨⟨args, locals, stack⟩, host, packet, n⟩ := by
  have hjump : block.from? label = some (.mark label :: tail) := by
    have := Block.from?_append (Block.from?_eq_none htail)
      (before ++ [.loadSelf, .intrinsic q, .jumpIfTrue label, .warn text, .leave])
    rw [hblock, ← this]
    simp [check]
  show a.run object procedure block (.loadSelf :: .intrinsic q :: .jumpIfTrue label ::
    .warn text :: .leave :: .mark label :: tail) _ = _
  rw [run_loadSelf, run_ask hq hanswer, run_jumpIfTrue hjump b]

/-- What a sender asks about the object, and the warnings if the answer is no. -/
def questions (kind : Kind) (policy : Policy) : List (Intrinsic × String) :=
  match kind with
  | .server =>
    (if policy.requireOwnership then [(.isOwner, Body.notOwnerWarning)] else []) ++
      [(.isClient, Body.clientInactiveWarning)]
  | .observers | .target => [(.isServer, Body.serverInactiveWarning)]

/-- The answer of an object to a question of a sender. -/
def answerTo (object : NetObject) : Intrinsic → Bool
  | .isOwner => object.isOwner
  | .isClient => object.isClient
  | .isServer => object.isServer
  | _ => false

/-- The warning of the first question that is answered with no. -/
def firstRefusal? (object : NetObject) (asked : List (Intrinsic × String)) : Option String :=
  asked.findSome? fun x => if answerTo object x.1 then none else some x.2

theorem refusal?_eq (c : Contract) (kind : Kind) (object : NetObject) :
    c.refusal? kind object = firstRefusal? object (questions kind (c.policy kind)) := by
  cases kind with
  | server =>
    rw [Contract.refusal?, questions, firstRefusal?]
    cases (c.policy .server).requireOwnership <;> cases hown : object.isOwner <;>
      cases hclient : object.isClient <;> simp [answerTo, hown, hclient]
  | observers | target =>
    rw [Contract.refusal?, questions, firstRefusal?]
    cases hserver : object.isServer <;> simp [answerTo, hserver]

theorem length_questions_le (kind : Kind) (policy : Policy) : (questions kind policy).length ≤ 2 := by
  cases kind with
  | server => cases h : policy.requireOwnership <;> simp [questions, h]
  | observers | target => simp [questions]

/-- A host answers what a sender asks from the object alone. -/
theorem answer_questions (object : NetObject) (kind : Kind) (policy : Policy) :
    ∀ x ∈ questions kind policy, x.1.arity = 1 ∧ ∀ host : Host,
      host.answer object x.1 [.self] = .ok (host, some (.bool (answerTo object x.1))) := by
  intro x hx
  have hone : x.1 = .isOwner ∨ x.1 = .isClient ∨ x.1 = .isServer := by
    cases kind with
    | server =>
      cases h : policy.requireOwnership <;> simp [questions, h] at hx <;> grind
    | observers | target => simp [questions] at hx; simp [hx]
  rcases hone with h | h | h <;> rw [h] <;> exact ⟨rfl, fun _ => rfl⟩

theorem code_guardSender (kind : Kind) (policy : Policy) :
    (Body.empty.guardSender kind policy).code = checks (questions kind policy) 0 := by
  cases kind with
  | server =>
    cases h : policy.requireOwnership <;>
      simp [Body.guardSender, h, Body.require, Body.newLabel, Body.empty, Body.askSelf, questions,
        checks, check]
  | observers | target => rfl

theorem checks_ne_mark (asked : List (Intrinsic × String)) {label l : Label} (h : l < label)
    (hroom : label.toNat + asked.length < UInt32.size) : ∀ i ∈ checks asked label, i ≠ .mark l := by
  induction asked generalizing label with
  | nil => exact fun _ hi => absurd hi List.not_mem_nil
  | cons x rest ih =>
    rw [List.length_cons] at hroom
    have hnext : (label + 1).toNat = label.toNat + 1 := toNat_add_one_of_lt (by omega)
    intro i hi
    rcases List.mem_append.mp hi with hi | hi
    · rintro rfl
      exact absurd (by simpa [check] using hi) (UInt32.ne_of_lt h)
    · rw [UInt32.lt_iff_toNat_lt] at h
      exact ih (UInt32.lt_iff_toNat_lt.mpr (by omega)) (by omega) i hi

/-- Questions are asked until one is answered with no, which is warned of. -/
theorem run_checks (a : Assembly) {asked : List (Intrinsic × String)}
    (hasked : ∀ x ∈ asked, x.1.arity = 1 ∧ ∀ host : Host,
      host.answer object x.1 [.self] = .ok (host, some (.bool (answerTo object x.1))))
    {label : Label} (hroom : label.toNat + asked.length < UInt32.size) (before : Block) {tail : Block}
    (hblock : block = before ++ (checks asked label ++ tail))
    (htail : ∀ i ∈ tail, ∀ l, i ≠ .mark l) :
    match firstRefusal? object asked with
    | none => ∀ procedure args locals stack host packet n,
      a.run object procedure block (checks asked label ++ tail)
          ⟨⟨args, locals, stack⟩, host, packet, n + 4 * asked.length⟩ =
        a.run object procedure block tail ⟨⟨args, locals, stack⟩, host, packet, n⟩
    | some text => ∃ cost ≤ 4 * asked.length + 1, ∀ procedure args locals stack host packet n,
      a.run object procedure block (checks asked label ++ tail)
          ⟨⟨args, locals, stack⟩, host, packet, n + cost⟩ =
        .ok .returned ⟨⟨args, locals, stack⟩, host.warn text, packet, n⟩ := by
  induction asked generalizing label before with
  | nil => exact fun _ _ _ _ _ _ _ => rfl
  | cons x rest ih =>
    obtain ⟨q, text⟩ := x
    obtain ⟨harity, hanswer⟩ := hasked _ List.mem_cons_self
    have hcode : checks ((q, text) :: rest) label ++ tail =
        check q label text ++ (checks rest (label + 1) ++ tail) := List.append_assoc ..
    rw [hcode] at hblock ⊢
    rw [List.length_cons] at hroom
    have hnext : (label + 1).toNat = label.toNat + 1 := toNat_add_one_of_lt (by omega)
    have hlater : ∀ i ∈ checks rest (label + 1) ++ tail, i ≠ .mark label := by
      intro i hi
      rcases List.mem_append.mp hi with hi | hi
      · exact checks_ne_mark rest (UInt32.lt_iff_toNat_lt.mpr (by omega)) (by omega) i hi
      · exact htail i hi label
    have hrest := ih (fun y hy => hasked y (List.mem_cons_of_mem _ hy)) (by omega)
      (before ++ check q label text) (hblock.trans (List.append_assoc ..).symm)
    cases hyes : answerTo object q with
    | false =>
      have hfirst : firstRefusal? object ((q, text) :: rest) = some text := by
        simp [firstRefusal?, hyes]
      rw [hfirst]
      refine ⟨5, by rw [List.length_cons]; omega, fun _ _ _ _ host _ n => ?_⟩
      refine (run_check (n := n + 2) before hblock hlater harity (hanswer host)).trans ?_
      rw [hyes, if_neg (by decide), run_warn, run_leave]
    | true =>
      have hfirst : firstRefusal? object ((q, text) :: rest) = firstRefusal? object rest := by
        simp [firstRefusal?, hyes]
      have hpass : ∀ procedure args locals stack (host : Host) packet n,
          a.run object procedure block (check q label text ++ (checks rest (label + 1) ++ tail))
              ⟨⟨args, locals, stack⟩, host, packet, n + 4⟩ =
            a.run object procedure block (checks rest (label + 1) ++ tail)
              ⟨⟨args, locals, stack⟩, host, packet, n⟩ := by
        intro _ _ _ _ host _ n
        refine (run_check (n := n + 1) before hblock hlater harity (hanswer host)).trans ?_
        rw [hyes, if_pos rfl, run_mark]
      rw [hfirst]
      cases hrefused : firstRefusal? object rest with
      | none =>
        rw [hrefused] at hrest
        intro _ _ _ _ _ _ n
        rw [List.length_cons, Nat.mul_succ, ← Nat.add_assoc, hpass]
        exact hrest ..
      | some refusal =>
        rw [hrefused] at hrest
        obtain ⟨cost, hcost, hrun⟩ := hrest
        refine ⟨cost + 4, by rw [List.length_cons]; omega, fun _ _ _ _ _ _ n => ?_⟩
        rw [← Nat.add_assoc, hpass]
        exact hrun ..

/-- A sender goes on behind its checks, or gives the warning of the first that is failed. -/
theorem run_senderGuard (a : Assembly) (object : NetObject) (loom : Loom) (c : Contract)
    (kind : Kind) {tail : Block} (htail : ∀ i ∈ tail, ∀ label, i ≠ .mark label) :
    match loom.refusal? c kind object with
    | none => ∃ cost ≤ 8, ∀ procedure args locals stack host packet n,
      a.run object procedure ((loom.senderGuard c kind).code ++ tail)
          ((loom.senderGuard c kind).code ++ tail)
          ⟨⟨args, locals, stack⟩, host, packet, n + cost⟩ =
        a.run object procedure ((loom.senderGuard c kind).code ++ tail) tail
          ⟨⟨args, locals, stack⟩, host, packet, n⟩
    | some text => ∃ cost ≤ 9, ∀ procedure args locals stack host packet n,
      a.run object procedure ((loom.senderGuard c kind).code ++ tail)
          ((loom.senderGuard c kind).code ++ tail)
          ⟨⟨args, locals, stack⟩, host, packet, n + cost⟩ =
        .ok .returned ⟨⟨args, locals, stack⟩, host.warn text, packet, n⟩ := by
  rw [Loom.refusal?, Loom.senderGuard]
  cases loom.settings.guards with
  | false => exact ⟨0, by omega, fun _ _ _ _ _ _ _ => rfl⟩
  | true =>
    rw [if_pos rfl, if_pos rfl, refusal?_eq, code_guardSender]
    have hfew := length_questions_le kind (c.policy kind)
    have hblock : checks (questions kind (c.policy kind)) 0 ++ tail =
        [] ++ (checks (questions kind (c.policy kind)) 0 ++ tail) := rfl
    have hroom : (0 : Label).toNat + (questions kind (c.policy kind)).length < UInt32.size :=
      Nat.lt_of_le_of_lt (Nat.add_le_add_left hfew _) (by decide)
    have hrun := run_checks a (answer_questions object kind (c.policy kind)) hroom [] hblock htail
    cases hrefused : firstRefusal? object (questions kind (c.policy kind)) with
    | none =>
      rw [hrefused] at hrun
      exact ⟨_, by omega, hrun⟩
    | some text =>
      rw [hrefused] at hrun
      obtain ⟨cost, hcost, hrun⟩ := hrun
      exact ⟨cost, by omega, hrun⟩

/-! ### Packing -/

theorem run_packing (a : Assembly) (object : NetObject) (fields : List (Nat × Parameter))
    {handle : Nat} {written : List Field}
    (hargs : ∀ x ∈ fields, ∃ v, args[x.1]? = some v ∧ Wire.check x.2.type v = .ok ())
    (hlocal : locals[1]? = some (.writer handle))
    (hwritten : host.writers.fields? handle = some written) :
    ∃ writers : WriterPool,
      writers.fields? handle = some (written ++ Layout.payload fields args) ∧
      (∀ k, k ≠ handle → writers.fields? k = host.writers.fields? k) ∧
      writers.acquired = host.writers.acquired ∧ writers.released = host.writers.released ∧
      ∀ procedure block rest stack packet n,
        a.run object procedure block (Codec.standard.packingCode fields 1 ++ rest)
            ⟨⟨args, locals, stack⟩, host, packet, n + 3 * fields.length⟩ =
          a.run object procedure block rest
            ⟨⟨args, locals, stack⟩, { host with writers }, packet, n⟩ := by
  induction fields generalizing host written with
  | nil =>
    refine ⟨host.writers, ?_, fun _ _ => rfl, rfl, rfl, fun _ _ _ _ _ _ => rfl⟩
    rw [hwritten, Layout.payload, List.filterMap_nil, List.append_nil]
  | cons x fields ih =>
    obtain ⟨v, hv, hcheck⟩ := hargs x (by simp)
    obtain ⟨writers, hwrite⟩ : ∃ writers, host.writers.write handle (x.2.type, v) = .ok writers :=
      ⟨_, by rw [WriterPool.write, WriterPool.contents, hwritten]; rfl⟩
    have hfields : writers.fields? handle = some (written ++ [(x.2.type, v)]) := by
      rw [WriterPool.fields?_write hwrite, if_pos rfl, hwritten]
      rfl
    have hlater : ({ host with writers } : Host).writers.fields? handle = _ := hfields
    obtain ⟨htaken, hback⟩ := WriterPool.counts_write hwrite
    -- the pool changes with every field, so the induction is over all pools
    obtain ⟨last, hlast, hothers, hacquired, hreleased, hrun⟩ :=
      ih (fun y hy => hargs y (by simp [hy])) hlater
    refine ⟨last, ?_, fun k hk => ?_, hacquired.trans htaken, hreleased.trans hback,
      fun procedure block rest stack packet n => ?_⟩
    · rw [hlast, Layout.payload, Layout.payload, List.filterMap_cons_some (by rw [hv]; rfl),
        List.append_assoc]
      rfl
    · rw [hothers k hk]
      show writers.fields? k = _
      rw [WriterPool.fields?_write hwrite, if_neg hk]
    · rw [← hrun procedure block rest stack packet n, List.length_cons, Nat.mul_succ,
        ← Nat.add_assoc, Codec.packingCode, List.flatMap_cons, List.append_assoc,
        ← Codec.packingCode, Codec.writing_standard]
      show a.run object procedure block (.loadLocal 1 :: .loadArg x.1 ::
        .codec (.write (Codec.writeProc x.2.type)) :: (_ ++ rest)) _ = _
      rw [run_loadLocal hlocal, run_loadArg hv, run_write hcheck hwrite]

/-! ### Sending -/

/-- A call of a kind is sent with the fields that its writer holds. -/
theorem run_sending (a : Assembly) (object : NetObject) (c : Contract) (kind : Kind) (id : RpcId)
    (channel : Channel) {handle : Nat} {fields : List Field}
    (hwritten : host.writers.fields? handle = some fields)
    (hopen : host.refusesSends = false)
    (htarget : kind = .target → ∃ connection, args[0]? = some (.ofConnection? connection)) :
    ∃ cost ≤ 6, ∀ procedure block packet n,
      a.run object procedure block (Loom.sendingCode c kind id)
        ⟨⟨args, [.channel channel, .writer handle], []⟩, host, packet, n + cost⟩ =
      .ok .fellThrough ⟨⟨args, [.channel channel, .writer handle], []⟩,
        host.handed ⟨kind, id, fields, channel, kind == .observers && (c.policy kind).bufferLast,
          kind.targetOf args⟩, packet, n⟩ := by
  cases kind with
  | server =>
    refine ⟨5, by omega, fun procedure block _ _ => ?_⟩
    have hanswer : host.answer object .sendServer
        [.self, .u32 id, .writer handle, .channel channel] =
          .ok (host.handed ⟨.server, id, fields, channel, false, none⟩, none) := by
      rw [Host.answer, Host.send_eq_handed hopen hwritten rfl]
      rfl
    show a.run object procedure block [.loadSelf, .loadConst (.u32 id), .loadLocal 1,
      .loadLocal 0, .intrinsic .sendServer] _ = _
    rw [run_loadSelf, run_loadConst, run_loadLocal rfl, run_loadLocal rfl]
    exact (run_intrinsic [.self, .u32 id, .writer handle, .channel channel] rfl hanswer).trans
      (run_nil ..)
  | observers =>
    refine ⟨6, by omega, fun procedure block _ _ => ?_⟩
    have hanswer : host.answer object .sendObservers
        [.self, .u32 id, .writer handle, .channel channel,
          .bool (c.policy .observers).bufferLast] = .ok (host.handed
            ⟨.observers, id, fields, channel, (c.policy .observers).bufferLast, none⟩, none) := by
      rw [Host.answer, Host.send_eq_handed hopen hwritten rfl]
      rfl
    show a.run object procedure block [.loadSelf, .loadConst (.u32 id), .loadLocal 1,
      .loadLocal 0, .loadConst (.bool (c.policy .observers).bufferLast),
      .intrinsic .sendObservers] _ = _
    rw [run_loadSelf, run_loadConst, run_loadLocal rfl, run_loadLocal rfl, run_loadConst]
    exact (run_intrinsic [.self, .u32 id, .writer handle, .channel channel,
      .bool (c.policy .observers).bufferLast] rfl hanswer).trans (run_nil ..)
  | target =>
    obtain ⟨connection, hconnection⟩ := htarget rfl
    refine ⟨6, by omega, fun procedure block _ _ => ?_⟩
    have haddress : Host.addressing .target (.ofConnection? connection) =
        .ok (false, connection) := by
      cases connection <;> rfl
    have hgoes : Kind.target.targetOf args = connection := by
      simp only [Kind.targetOf, List.head?_eq_getElem?, hconnection]
      cases connection <;> rfl
    have hanswer : host.answer object .sendTarget
        [.self, .u32 id, .writer handle, .channel channel, .ofConnection? connection] =
          .ok (host.handed ⟨.target, id, fields, channel, false, connection⟩, none) := by
      rw [Host.answer, Host.send_eq_handed hopen hwritten haddress]
      rfl
    rw [hgoes]
    show a.run object procedure block [.loadSelf, .loadConst (.u32 id), .loadLocal 1,
      .loadLocal 0, .loadArg 0, .intrinsic .sendTarget] _ = _
    rw [run_loadSelf, run_loadConst, run_loadLocal rfl, run_loadLocal rfl,
      run_loadArg hconnection]
    exact (run_intrinsic [.self, .u32 id, .writer handle, .channel channel,
      .ofConnection? connection] rfl hanswer).trans (run_nil ..)

/-! ### The whole sender -/

/-- The channel of a call is its argument for it, or the usual one. -/
theorem run_channelOperand (a : Assembly) (object : NetObject) (loom : Loom) {p : Procedure}
    {c : Contract} (hp : p.Keeps .standard c) (hargs : p.Takes args) :
    ∀ procedure block rest locals stack host packet n,
      a.run object procedure block (loom.channelOperand c :: rest)
          ⟨⟨args, locals, stack⟩, host, packet, n + 1⟩ =
        a.run object procedure block rest ⟨⟨args, locals,
          .channel (c.layout.channelOf loom.settings.channel args) :: stack⟩, host, packet, n⟩ := by
  rw [Loom.channelOperand, Layout.channelOf]
  cases hposition : c.layout.position? .channel with
  | none => exact fun _ _ _ _ _ _ _ _ => run_loadConst
  | some i =>
    obtain ⟨channel, hchannel⟩ := hp.at_channel hargs hposition
    rw [Option.bind_some, hchannel]
    exact fun _ _ _ _ _ _ _ _ => run_loadArg hchannel

/-- What a sender does once its checks are passed. -/
def sendingTail (loom : Loom) (p : Procedure) (c : Contract) (id : RpcId) (kind : Kind) : Block :=
  [loom.channelOperand c, .storeLocal 0, .codec .acquire, .storeLocal 1,
    .region (loom.codec.packingCode (c.layout.fields p.parameters) 1 ++
      Loom.sendingCode c kind id) [.loadLocal 1, .codec .release], .leave]

theorem sendingTail_ne_mark (loom : Loom) (p : Procedure) (c : Contract) (id : RpcId)
    (kind : Kind) : ∀ i ∈ sendingTail loom p c id kind, ∀ label, i ≠ .mark label := by
  intro i hi label
  have hoperand : loom.channelOperand c ≠ .mark label := by
    rw [Loom.channelOperand]
    cases c.layout.position? .channel <;> simp
  rcases List.mem_cons.mp hi with rfl | hi
  · exact hoperand
  · rintro rfl
    simp at hi

/-- A sender whose checks are passed sends the fields of its arguments, in a writer that it takes
and gives back. -/
theorem run_sendingTail (a : Assembly) (object : NetObject) {settings : Settings}
    {p : Procedure} {c : Contract} (hp : p.Keeps .standard c) {kind : Kind}
    (hkind : kind ∈ c.kinds.toList) (id : RpcId) (hargs : p.Takes args)
    (hopen : host.refusesSends = false) :
    ∃ writers, host.writers.Lent writers ∧
      ∃ cost ≤ 3 * (c.layout.fields p.parameters).length + 14, ∀ procedure block packet n,
        ∃ frame, a.run object procedure block (sendingTail ⟨.standard, settings⟩ p c id kind)
            ⟨⟨args, [.null, .null], []⟩, host, packet, n + cost⟩ =
          .ok .returned ⟨frame, { host with writers }.handed
            (Loom.outgoing ⟨.standard, settings⟩ p c id kind args), packet, n⟩ := by
  have hchannel := run_channelOperand a object ⟨.standard, settings⟩ hp hargs
  -- the writer that is taken, the fields in it, and the writer given back
  let channel := c.layout.channelOf settings.channel args
  let handle := host.writers.acquire.1
  let locals : List Value := [.channel channel, .writer handle]
  let taken : Host := { host with writers := host.writers.acquire.2 }
  have hempty : taken.writers.fields? handle = some [] :=
    WriterPool.fields?_acquire_self host.writers
  obtain ⟨packed, hpacked, hothers, hacquired, hback, hpacking⟩ := run_packing a object
    (c.layout.fields p.parameters) (fun x hx => hp.at_field hargs hx)
    (show locals[1]? = some (.writer handle) from rfl) hempty
  rw [List.nil_append] at hpacked
  have htarget : kind = .target → ∃ connection, args[0]? = some (.ofConnection? connection) := by
    rintro rfl
    exact hp.at_target hargs (List.contains_iff_mem.mpr hkind)
  obtain ⟨second, hsecond, hsending⟩ :=
    run_sending a object c kind id channel
      (show ({ taken with writers := packed } : Host).writers.fields? handle = some _ from hpacked)
      hopen htarget
  obtain ⟨writers, hreleased⟩ : ∃ writers, packed.release handle = .ok writers :=
    WriterPool.release_of_used (by rw [hpacked]; rfl)
  have hlent : host.writers.Lent writers := .of_release hothers hacquired hback hreleased
  let region := Codec.standard.packingCode (c.layout.fields p.parameters) 1 ++
    Loom.sendingCode c kind id
  let sent := Loom.outgoing ⟨.standard, settings⟩ p c id kind args
  refine ⟨writers, hlent, 3 * (c.layout.fields p.parameters).length + 8 + second, by omega,
    fun procedure block packet n => ⟨⟨args, locals, []⟩, ?_⟩⟩
  have hregion : ∀ name, a.run object name region region ⟨⟨args, locals, []⟩, taken, packet,
      n + 3 + second + 3 * (c.layout.fields p.parameters).length⟩ =
        .ok .fellThrough ⟨⟨args, locals, []⟩, { taken with writers := packed }.handed sent,
          packet, n + 3⟩ :=
    fun name => (hpacking name _ _ _ _ _).trans (hsending name _ _ _)
  have hcleanup : ∀ name block, a.run object name block [.loadLocal 1, .codec .release]
      ⟨⟨args, locals, []⟩, { taken with writers := packed }.handed sent, packet, n + 3⟩ =
        .ok .fellThrough ⟨⟨args, locals, []⟩, { host with writers }.handed sent, packet,
          n + 1⟩ := by
    intro name block
    rw [run_loadLocal (show locals[1]? = some (.writer handle) from rfl)]
    exact (run_release hreleased).trans (run_nil ..)
  have hsteps : n + (3 * (c.layout.fields p.parameters).length + 8 + second) =
      n + 3 + second + 3 * (c.layout.fields p.parameters).length + 1 + 4 := by omega
  rw [hsteps, sendingTail, hchannel, run_storeLocal (by simp), run_acquire,
    run_storeLocal (by simp)]
  exact (run_region (hregion _) (hcleanup _ _)).trans run_leave

/-- What a sender does, on any object and with any arguments of its types. -/
theorem completes_sender (a : Assembly) (packet : Option Wire.Bits) {settings : Settings}
    {p : Procedure} {c : Contract} (hp : p.Keeps .standard c) {kind : Kind}
    (hkind : kind ∈ c.kinds.toList) {id : RpcId} {body : Body}
    (hbody : Loom.senderBody ⟨.standard, settings⟩ p c id kind = .ok body)
    (hargs : p.Takes args) (hopen : host.refusesSends = false) :
    ∃ host', Loom.Sends ⟨.standard, settings⟩ p c id kind object args host host' ∧
      ∃ cost ≤ 3 * (c.layout.fields p.parameters).length + 24,
        a.Completes object (p.writerOf kind body) args host packet host' packet cost := by
  obtain ⟨b, hb, hcode, hlocals⟩ :=
    Loom.senderBody_eq ⟨.standard, settings⟩ Codec.honest_standard hp hkind id
  obtain rfl : b = body := Except.ok.inj (hb.symm.trans hbody)
  have hguard := run_senderGuard a object ⟨.standard, settings⟩ c kind
    (sendingTail_ne_mark ⟨.standard, settings⟩ p c id kind)
  unfold Loom.Sends
  cases hrefused : Loom.refusal? ⟨.standard, settings⟩ c kind object with
  | some text =>
    rw [hrefused] at hguard
    obtain ⟨cost, hcost, hrun⟩ := hguard
    refine ⟨_, rfl, cost, by omega, b, rfl, fun n =>
      ⟨.returned, ⟨args, List.replicate b.locals.length .null, []⟩, ?_⟩⟩
    rw [hcode, Nat.add_comm]
    exact hrun ..
  | none =>
    rw [hrefused] at hguard
    obtain ⟨first, hfirst, hguard⟩ := hguard
    obtain ⟨writers, hlent, second, hsecond, hsends⟩ :=
      run_sendingTail a object hp hkind id hargs hopen
    refine ⟨_, ⟨writers, hlent, rfl⟩, second + first, by omega, b, rfl, fun n => ?_⟩
    obtain ⟨frame, hrun⟩ := hsends (p.writerOf kind b).name b.code packet n
    refine ⟨.returned, frame, ?_⟩
    rw [hcode] at hrun ⊢
    rw [show second + first + n = n + second + first by omega, hlocals]
    exact (hguard ..).trans hrun

end Assembly

end RpcLoom
