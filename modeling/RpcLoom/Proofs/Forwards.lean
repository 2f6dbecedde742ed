/-
RpcLoom/Proofs/Forwards.lean

What a call of a woven procedure runs.

Design.  A forwarder calls the sender of one kind with all of its own arguments,
and then the logic if that is to run here as well (`completes_forwarder`).  Of two
kinds the first argument decides; the jump over the sender that is not called goes
to the last mark of its label, and no other mark follows.  Procedures that record
their arguments stand for any user code whose run is known.
-/
import RpcLoom.Proofs.Stepping
import RpcLoom.Weave.Triad

namespace RpcLoom

/-- The kind that a call with given arguments is sent as. -/
def Contract.sentAs (c : Contract) (args : List Value) : Kind :=
  match c.kinds with
  | .single kind => kind
  | .observersAndTarget => if args[0]? = some .null then .observers else .target

/-- Records all arguments for a symbol, and goes on. -/
def recordingCode (symbol : String) (arity : Nat) (rest : Block) : Block :=
  (List.range arity).map .loadArg ++ .call (.external symbol arity) :: rest

namespace Assembly

variable {a : Assembly} {object : NetObject} {procedure : String} {block rest : Block}
  {args locals stack : List Value} {host host' host'' : Host}
  {packet packet' packet'' : Option Wire.Bits} {n : Nat}

/-! ### All arguments -/

/-- Loading all arguments leaves them as operands. -/
theorem run_loadArgs :
    a.run object procedure block ((List.range args.length).map .loadArg ++ rest)
        ⟨⟨args, locals, stack⟩, host, packet, n + args.length⟩ =
      a.run object procedure block rest
        ⟨⟨args, locals, args.reverse ++ stack⟩, host, packet, n⟩ := by
  have hwalk : ∀ (left before : List Value) (stack : List Value), before ++ left = args →
      a.run object procedure block
          ((List.range' before.length left.length).map .loadArg ++ rest)
          ⟨⟨args, locals, stack⟩, host, packet, n + left.length⟩ =
        a.run object procedure block rest
          ⟨⟨args, locals, left.reverse ++ stack⟩, host, packet, n⟩ := by
    intro left
    induction left with
    | nil =>
      intro before stack _
      rfl
    | cons v left ih =>
      intro before stack hargs
      have hv : args[before.length]? = some v := by
        rw [← hargs]
        simp
      have hrest := ih (before ++ [v]) (v :: stack) (by rw [← hargs, List.append_assoc]; rfl)
      rw [List.length_append, List.length_singleton] at hrest
      rw [List.length_cons, List.range'_succ, List.map_cons, List.cons_append,
        ← Nat.add_assoc, run_loadArg hv, hrest, List.reverse_cons, List.append_assoc]
      rfl
  rw [List.range_eq_range']
  exact hwalk args [] stack rfl

/-- Forwarding runs a procedure with all arguments, and nothing else is left behind. -/
theorem run_forward {ref : MethodRef} {p : Procedure} {cost : Nat}
    (hlength : args.length = ref.types.length) (hcallee : a.calleeOf object true ref = .ok p)
    (h : a.Completes object p args host packet host' packet' cost) :
    a.run object procedure block (forward args.length ref ++ rest)
        ⟨⟨args, locals, stack⟩, host, packet, n + (cost + args.length + 2)⟩ =
      a.run object procedure block rest ⟨⟨args, locals, stack⟩, host', packet', n⟩ := by
  have hsteps : n + (cost + args.length + 2) = cost + n + 1 + args.length + 1 := by omega
  have hcode : forward args.length ref ++ rest =
      .loadSelf :: ((List.range args.length).map .loadArg ++ (.call (.method ref) :: rest)) := by
    simp [forward]
  rw [hsteps, hcode, run_loadSelf, run_loadArgs, run_call args hlength hcallee h]

/-! ### Code that records -/

theorem run_recordingCode {symbol : String} :
    a.run object procedure block (recordingCode symbol args.length rest)
        ⟨⟨args, locals, stack⟩, host, packet, n + 1 + args.length⟩ =
      a.run object procedure block rest
        ⟨⟨args, locals, stack⟩, host.callExternal symbol args, packet, n⟩ :=
  run_loadArgs.trans (run_external args rfl)

/-- A procedure that records its arguments and returns. -/
theorem completes_last {p : Procedure} {body : Body} {symbol : String} (hbody : p.body = some body)
    (hcode : body.code = recordingCode symbol args.length [.leave]) (object : NetObject)
    (host : Host) (packet : Option Wire.Bits) :
    a.Completes object p args host packet (host.callExternal symbol args) packet
      (args.length + 2) := by
  refine ⟨body, hbody, fun n => ⟨.returned,
    ⟨args, List.replicate body.locals.length .null, []⟩, ?_⟩⟩
  rw [hcode, show args.length + 2 + n = n + 1 + 1 + args.length by omega]
  exact run_recordingCode.trans run_leave

/-! ### Forwarders -/

theorem forward_ne_mark (arity : Nat) (ref : MethodRef) (label : Label) :
    ∀ i ∈ forward arity ref, i ≠ .mark label := by
  rintro i hi rfl
  simp [forward] at hi

/-- What a forwarder does after it has sent. -/
def afterSending (c : Contract) (arity : Nat) (logic : MethodRef) : Block :=
  (if c.runLocally then forward arity logic else []) ++ [.leave]

theorem afterSending_ne_mark (c : Contract) (arity : Nat) (logic : MethodRef) (label : Label) :
    ∀ i ∈ afterSending c arity logic, i ≠ .mark label := by
  intro i hi
  rcases List.mem_append.mp hi with hi | hi
  · cases h : c.runLocally with
    | false => simp [h] at hi
    | true => exact forward_ne_mark arity logic label i (by simpa [h] using hi)
  · rintro rfl
    simp at hi

/-- The code of a forwarder for two kinds. -/
def dualCode (arity : Nat) (target observers : MethodRef) (after : Block) : Block :=
  [.loadArg 0, .jumpIfNull 0] ++ forward arity target ++ [.jump 1, .mark 0] ++
    forward arity observers ++ [.mark 1] ++ after

/-- The second label stands behind the call of the observers' sender. -/
theorem from?_dualCode_one (arity : Nat) (target observers : MethodRef) {after : Block}
    (hafter : ∀ i ∈ after, ∀ label, i ≠ .mark label) :
    (dualCode arity target observers after).from? 1 = some (.mark 1 :: after) := by
  rw [dualCode, List.append_assoc]
  exact Block.from?_append (Block.from?_eq_none fun i hi => hafter i hi 1) _

/-- The first label stands before it.  Each label is marked once, so a jump to it goes to the one
mark, whatever stands before. -/
theorem from?_dualCode_zero (arity : Nat) (target observers : MethodRef) {after : Block}
    (hafter : ∀ i ∈ after, ∀ label, i ≠ .mark label) :
    (dualCode arity target observers after).from? 0 =
      some (.mark 0 :: (forward arity observers ++ .mark 1 :: after)) := by
  have hrest : ∀ i ∈ forward arity observers ++ .mark 1 :: after, i ≠ .mark 0 := by
    intro i hi
    rcases List.mem_append.mp hi with hi | hi
    · exact forward_ne_mark arity observers 0 i hi
    · rcases List.mem_cons.mp hi with rfl | hi
      · simp
      · exact hafter i hi 0
  have hjump := Block.from?_append (Block.from?_eq_none hrest)
    ([.loadArg 0, .jumpIfNull 0] ++ forward arity target ++ [.jump 1])
  rw [← hjump, dualCode]
  simp

/-- Of two senders the one that the first argument asks for is called. -/
theorem run_dualCode {target observers : MethodRef} {w : Procedure} {cost : Nat} {v : Value}
    (hfirst : args[0]? = some v) {ref : MethodRef}
    (href : ref = if v = .null then observers else target)
    (hlength : args.length = ref.types.length) (hcallee : a.calleeOf object true ref = .ok w)
    (h : a.Completes object w args host packet host' packet' cost) {after : Block}
    (hafter : ∀ i ∈ after, ∀ label, i ≠ .mark label) :
    a.run object procedure (dualCode args.length target observers after)
        (dualCode args.length target observers after)
        ⟨⟨args, locals, []⟩, host, packet, n + (cost + args.length + 6)⟩ =
      a.run object procedure (dualCode args.length target observers after) after
        ⟨⟨args, locals, []⟩, host', packet', n⟩ := by
  have hlast := from?_dualCode_one args.length target observers hafter
  have hnull := from?_dualCode_zero args.length target observers hafter
  have hcode : dualCode args.length target observers after =
      .loadArg 0 :: .jumpIfNull 0 :: (forward args.length target ++ (.jump 1 :: .mark 0 ::
        (forward args.length observers ++ .mark 1 :: after))) := by
    simp [dualCode]
  have hsteps : n + (cost + args.length + 6) = n + 1 + (cost + args.length + 2) + 1 + 2 := by
    omega
  have hrun : a.run object procedure (dualCode args.length target observers after)
      (.loadArg 0 :: .jumpIfNull 0 :: (forward args.length target ++ (.jump 1 :: .mark 0 ::
        (forward args.length observers ++ .mark 1 :: after))))
      ⟨⟨args, locals, []⟩, host, packet, n + (cost + args.length + 6)⟩ =
        a.run object procedure (dualCode args.length target observers after) after
          ⟨⟨args, locals, []⟩, host', packet', n⟩ := by
    rw [hsteps, run_loadArg hfirst, run_jumpIfNull hnull]
    by_cases hv : v = .null
    · rw [if_pos hv] at href ⊢
      subst href
      rw [run_mark, run_forward hlength hcallee h, run_mark]
    · rw [if_neg hv] at href ⊢
      subst href
      have hsteps' : n + 1 + (cost + args.length + 2) + 1 = n + 2 + (cost + args.length + 2) := by
        omega
      rw [hsteps', run_forward hlength hcallee h, run_jump hlast, run_mark]
  rw [← hcode] at hrun
  exact hrun

/-- What sends a call of one kind calls its sender. -/
theorem code_sendingBody_single {t : Triad} {p : Procedure} {kind : Kind} {body : Body}
    {ref : MethodRef} (hwriter : t.writerRef p.name kind = .ok ref)
    (hbody : t.sendingBody p (.single kind) = .ok body) :
    body.code = forward p.parameters.length ref := by
  unfold Triad.sendingBody at hbody
  simp only [hwriter] at hbody
  rw [← Except.ok.inj hbody]
  rfl

/-- What sends a call of two kinds has both senders, or it would not have been made. -/
theorem code_sendingBody_both {t : Triad} {p : Procedure} {body : Body}
    (hbody : t.sendingBody p .observersAndTarget = .ok body) :
    ∃ target observers, t.writerRef p.name .target = .ok target ∧
      t.writerRef p.name .observers = .ok observers ∧
      ∀ after, body.code ++ after = dualCode p.parameters.length target observers after := by
  unfold Triad.sendingBody at hbody
  cases htarget : t.writerRef p.name .target with
  | error e =>
    rw [htarget] at hbody
    cases hbody
  | ok target =>
    cases hobservers : t.writerRef p.name .observers with
    | error e =>
      rw [htarget, hobservers] at hbody
      cases hbody
    | ok observers =>
      rw [htarget, hobservers] at hbody
      refine ⟨target, observers, rfl, rfl, fun after => ?_⟩
      rw [← Except.ok.inj hbody]
      rfl

/-- A forwarder sends a call as the kind its arguments ask for. -/
theorem run_sendingBody {t : Triad} {p : Procedure} {c : Contract} {body : Body} {ref : MethodRef}
    {w : Procedure} {cost : Nat} (hbody : t.sendingBody p c.kinds = .ok body)
    (harity : p.parameters.length = args.length)
    (hfirst : c.kinds = .observersAndTarget → args ≠ [])
    (hwriter : t.writerRef p.name (c.sentAs args) = .ok ref)
    (hlength : args.length = ref.types.length) (hcallee : a.calleeOf object true ref = .ok w)
    (h : a.Completes object w args host packet host' packet' cost) {after : Block}
    (hafter : ∀ i ∈ after, ∀ label, i ≠ .mark label) :
    ∃ spent ≤ cost + args.length + 6, ∀ procedure locals n,
      a.run object procedure (body.code ++ after) (body.code ++ after)
          ⟨⟨args, locals, []⟩, host, packet, n + spent⟩ =
        a.run object procedure (body.code ++ after) after
          ⟨⟨args, locals, []⟩, host', packet', n⟩ := by
  rw [Contract.sentAs] at hwriter
  cases hkinds : c.kinds with
  | single kind =>
    simp only [hkinds] at hwriter
    rw [hkinds] at hbody
    have hcode : body.code = forward args.length ref := by
      rw [code_sendingBody_single hwriter hbody, harity]
    refine ⟨cost + args.length + 2, by omega, fun _ _ _ => ?_⟩
    rw [hcode]
    exact run_forward hlength hcallee h
  | observersAndTarget =>
    simp only [hkinds] at hwriter
    rw [hkinds] at hbody
    obtain ⟨target, observers, htarget, hobservers, hcode⟩ := code_sendingBody_both hbody
    obtain ⟨v, hv⟩ : ∃ v, args[0]? = some v := by
      obtain ⟨v, left, rfl⟩ := List.exists_cons_of_ne_nil (hfirst hkinds)
      exact ⟨v, rfl⟩
    -- the code asks of the first argument what the contract asks of it
    have href : ref = if v = .null then observers else target := by
      rw [hv] at hwriter
      by_cases hnull : v = .null
      · rw [if_pos (by rw [hnull]), hobservers] at hwriter
        rw [if_pos hnull, Except.ok.inj hwriter]
      · rw [if_neg (by simpa using hnull), htarget] at hwriter
        rw [if_neg hnull, Except.ok.inj hwriter]
    refine ⟨cost + args.length + 6, Nat.le_refl _, fun _ _ _ => ?_⟩
    rw [hcode, harity]
    exact run_dualCode hv href hlength hcallee h hafter

/-- What a call runs: the sender of one kind, and then the logic if it runs here as well. -/
theorem completes_forwarder {t : Triad} {p : Procedure} {c : Contract} {body : Body}
    {ref : MethodRef} {w l : Procedure} {cost more : Nat}
    (hbody : t.forwarderBody p c = .ok body) (hargs : p.parameters.length = args.length)
    (hfirst : c.kinds = .observersAndTarget → args ≠ [])
    (hwriter : t.writerRef p.name (c.sentAs args) = .ok ref)
    (hlength : args.length = ref.types.length) (hcallee : a.calleeOf object true ref = .ok w)
    (h : a.Completes object w args host packet host' packet' cost)
    (hlogicLength : args.length = t.logicRef.types.length)
    (hlogic : a.calleeOf object true t.logicRef = .ok l)
    (hthere : a.Completes object l args host' packet' host'' packet'' more) :
    ∃ spent ≤ cost + more + 2 * args.length + 9,
      a.Completes object (p.withBody body) args host packet
        (if c.runLocally then host'' else host') (if c.runLocally then packet'' else packet')
        spent := by
  rw [Triad.forwarderBody] at hbody
  cases hsending : t.sendingBody p c.kinds with
  | error e =>
    rw [hsending] at hbody
    cases hbody
  | ok sending =>
    rw [hsending] at hbody
    have hcode : body.code = sending.code ++ afterSending c args.length t.logicRef := by
      rw [← Except.ok.inj hbody, hargs]
      rfl
    obtain ⟨first, hspent, hrun⟩ := run_sendingBody hsending hargs hfirst hwriter hlength hcallee
      h fun i hi label => afterSending_ne_mark c args.length t.logicRef label i hi
    rw [← hcode] at hrun
    cases hlocally : c.runLocally with
    | false =>
      refine ⟨1 + first, by omega, body, rfl, fun n =>
        ⟨.returned, ⟨args, List.replicate body.locals.length .null, []⟩, ?_⟩⟩
      rw [show 1 + first + n = n + 1 + first by omega]
      refine (hrun _ _ _).trans ?_
      rw [afterSending, hlocally]
      exact run_leave
    | true =>
      refine ⟨more + args.length + 3 + first, by omega, body, rfl,
        fun n => ⟨.returned, ⟨args, List.replicate body.locals.length .null, []⟩, ?_⟩⟩
      rw [show more + args.length + 3 + first + n = n + 1 + (more + args.length + 2) + first by
        omega]
      refine (hrun _ _ _).trans ?_
      rw [afterSending, hlocally, if_pos rfl, run_forward hlogicLength hlogic hthere]
      exact run_leave

end Assembly

end RpcLoom
