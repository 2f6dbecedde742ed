/-
RpcLoom/Proofs/Budget.lean

The bound of a run does not matter.

Design.  `runBlock` recurses on a bound that is at least the number of steps
left.  Two bounds give the same run as long as both are large enough
(`agree_runBlock`): every computation spends steps and gives none back, so what
is left after an instruction is still within both.  So there is one run, `run`,
bounded by its own budget, and it unfolds instruction by instruction
(`run_cons`).

A computation ends with a result or a fault, and in a state.  A region is its body
and then its cleanup, begun in the state that the body ended in, whatever that
ended with (`instruction_region`).  Most of what instructions are made of only moves
values (`Moves`): it changes the stack and the packet, and nothing else of a state.
-/
import RpcLoom.Run.Machine

namespace RpcLoom

namespace Exec

variable {α β : Type} {n : Nat} {x y : Exec α} {f g : α → Exec β}

theorem bind_apply (x : Exec α) (f : α → Exec β) (s : RunState) :
    (x >>= f) s =
      match x s with
      | .ok a s' => f a s'
      | .error e s' => .error e s' := by
  show EStateM.bind x f s = _
  rw [EStateM.bind]
  cases x s <;> rfl

theorem get_apply (s : RunState) : (get : Exec RunState) s = .ok s s := rfl

/-- The state that a computation ends in. -/
def finalState (x : Exec α) (s : RunState) : RunState :=
  match x s with
  | .ok _ s' => s'
  | .error _ s' => s'

/-! ### Endings -/

/-- What a computation ends with. -/
def ending (x : Exec α) (s : RunState) : Except Fault α :=
  match x s with
  | .ok a _ => .ok a
  | .error e _ => .error e

/-- A computation is told by what it ends with and the state that it ends in. -/
theorem apply_eq_lift (x : Exec α) (s : RunState) : x s = lift (ending x s) (finalState x s) := by
  rw [ending, finalState]
  cases x s <;> rfl

theorem of_eq_lift {r : Except Fault α} {s s' : RunState} (h : x s = lift r s') :
    ending x s = r ∧ finalState x s = s' := by
  rw [ending, finalState, h]
  cases r <;> exact ⟨rfl, rfl⟩

/-- What is lifted without a failure leaves the state as it is. -/
theorem ok_of_lift {r : Except Fault α} {a : α} {s s' : RunState} (h : lift r s = .ok a s') :
    r = .ok a ∧ s' = s := by
  cases r with
  | error e => cases h
  | ok b =>
    cases h
    exact ⟨rfl, rfl⟩

theorem attempt_apply (x : Exec α) (s : RunState) :
    attempt x s = .ok (ending x s) (finalState x s) := by
  rw [attempt, ending, finalState]
  cases x s <;> rfl

/-- A region runs its body, and then its cleanup from the state that the body ended in. -/
theorem instruction_region (object : NetObject) (procedure : String)
    (enter : Bool → MethodRef → List Value → Exec Unit) (inner : Block → Exec Flow)
    (body cleanup : Block) (s : RunState) :
    instruction object procedure enter inner (.region body cleanup) s =
      lift (regionResult (ending (inner body) s)
          (ending (inner cleanup) (finalState (inner body) s)))
        (finalState (inner cleanup) (finalState (inner body) s)) := by
  rw [instruction, bind_apply, attempt_apply]
  simp only [bind_apply, attempt_apply]

/-! ### Computations that agree -/

/-- Two computations do the same wherever at most `n` steps are left, and give no steps back. -/
def Agree (n : Nat) (x y : Exec α) : Prop :=
  ∀ s, s.stepsLeft ≤ n → x s = y s ∧ (finalState x s).stepsLeft ≤ s.stepsLeft

theorem Agree.symm (h : Agree n x y) : Agree n y x := by
  intro s hs
  obtain ⟨heq, hspent⟩ := h s hs
  refine ⟨heq.symm, ?_⟩
  rw [finalState, ← heq]
  exact hspent

/-- A computation that keeps the number of steps agrees with itself. -/
theorem agree_of_keeps (h : ∀ s, (finalState x s).stepsLeft = s.stepsLeft) : Agree n x x :=
  fun s _ => ⟨rfl, Nat.le_of_eq (h s)⟩

theorem Agree.bind (hx : Agree n x y) (hf : ∀ a, Agree n (f a) (g a)) :
    Agree n (x >>= f) (y >>= g) := by
  intro s hs
  obtain ⟨heq, hspent⟩ := hx s hs
  rw [finalState, bind_apply, bind_apply, ← heq]
  rw [finalState] at hspent
  cases h : x s with
  | error e s' =>
    rw [h] at hspent
    exact ⟨rfl, hspent⟩
  | ok a s' =>
    rw [h] at hspent
    obtain ⟨heq', hspent'⟩ := hf a s' (Nat.le_trans hspent hs)
    exact ⟨heq', Nat.le_trans hspent' hspent⟩

theorem agree_pure (a : α) : Agree n (pure a : Exec α) (pure a) :=
  agree_of_keeps fun _ => rfl

theorem agree_throw (e : Fault) : Agree n (throw e : Exec α) (throw e) :=
  agree_of_keeps fun _ => rfl

theorem agree_lift (r : Except Fault α) : Agree n (lift r) (lift r) := by
  cases r with
  | error e => exact agree_throw e
  | ok a => exact agree_pure a

theorem Agree.attempt (h : Agree n x y) : Agree n (attempt x) (attempt y) := by
  intro s hs
  obtain ⟨heq, hspent⟩ := h s hs
  refine ⟨by rw [Exec.attempt, Exec.attempt, heq], ?_⟩
  rw [finalState, attempt_apply]
  exact hspent

theorem Agree.inFrame (h : Agree n x y) (frame : Frame) :
    Agree n (inFrame frame x) (inFrame frame y) := by
  intro s hs
  obtain ⟨heq, hspent⟩ := h { s with frame } hs
  rw [finalState] at hspent
  rw [finalState, Exec.inFrame, Exec.inFrame, ← heq]
  cases h : x { s with frame } with
  | error e s' =>
    rw [h] at hspent
    exact ⟨rfl, hspent⟩
  | ok a s' =>
    rw [h] at hspent
    exact ⟨rfl, hspent⟩

/-! ### Computations that move values -/

theorem finalState_bind (x : Exec α) (f : α → Exec β) (s : RunState) :
    finalState (x >>= f) s =
      match x s with
      | .ok a s' => finalState (f a) s'
      | .error _ s' => s' := by
  rw [finalState, bind_apply]
  cases x s <;> rfl

/-- What relates the states before and after each of two steps relates those before the first and
after the second. -/
theorem relates_bind {R : RunState → RunState → Prop} {s : RunState}
    (htrans : ∀ {a b c}, R a b → R b c → R a c) (hx : R s (finalState x s))
    (hf : ∀ a s', x s = .ok a s' → R s' (finalState (f a) s')) : R s (finalState (x >>= f) s) := by
  rw [finalState_bind]
  rw [finalState] at hx
  cases h : x s with
  | error e s' =>
    rw [h] at hx
    exact hx
  | ok a s' =>
    rw [h] at hx
    exact htrans hx (hf a s' h)

/-- A computation that only moves values: nothing changes but the stack and what is left of the
packet. -/
def Moves (x : Exec α) : Prop :=
  ∀ s, ∃ stack packet,
    finalState x s = ⟨⟨s.frame.args, s.frame.locals, stack⟩, s.host, packet, s.stepsLeft⟩

theorem Moves.bind (hx : Moves x) (hf : ∀ a, Moves (f a)) : Moves (x >>= f) := by
  intro s
  refine relates_bind (R := fun s s' => ∃ stack packet,
    s' = ⟨⟨s.frame.args, s.frame.locals, stack⟩, s.host, packet, s.stepsLeft⟩) ?_ (hx s)
    fun a s' _ => hf a s'
  rintro s₀ s₁ s₂ ⟨stack, packet, rfl⟩ ⟨stack', packet', rfl⟩
  exact ⟨stack', packet', rfl⟩

theorem moves_pure (a : α) : Moves (pure a : Exec α) := fun s => ⟨s.frame.stack, s.packet, rfl⟩

theorem moves_throw (e : Fault) : Moves (throw e : Exec α) :=
  fun s => ⟨s.frame.stack, s.packet, rfl⟩

theorem moves_get : Moves (get : Exec RunState) := fun s => ⟨s.frame.stack, s.packet, rfl⟩

theorem moves_lift (r : Except Fault α) : Moves (lift r) := by
  cases r with
  | error e => exact moves_throw e
  | ok a => exact moves_pure a

theorem moves_push (v : Value) : Moves (push v) := fun s => ⟨v :: s.frame.stack, s.packet, rfl⟩

theorem moves_pop (procedure : String) : Moves (pop procedure) := by
  intro s
  rw [finalState, pop]
  cases hstack : s.frame.stack with
  | nil => exact ⟨s.frame.stack, s.packet, rfl⟩
  | cons v rest => exact ⟨rest, s.packet, rfl⟩

theorem moves_popMany (procedure : String) (count : Nat) : Moves (popMany procedure count) := by
  intro s
  rw [finalState, popMany]
  by_cases h : (s.frame.stack.take count).length < count
  · simp only [h, if_true]
    exact ⟨s.frame.stack, s.packet, rfl⟩
  · simp only [h, if_false]
    exact ⟨s.frame.stack.drop count, s.packet, rfl⟩

theorem moves_popBool (procedure : String) : Moves (popBool procedure) :=
  (moves_pop procedure).bind fun v => moves_lift v.asBool

theorem moves_loadArg (procedure : String) (index : Nat) : Moves (loadArg procedure index) := by
  refine moves_get.bind fun s => ?_
  cases s.frame.args[index]? with
  | none => exact moves_throw _
  | some v => exact moves_push v

theorem moves_loadLocal (procedure : String) (index : Nat) :
    Moves (loadLocal procedure index) := by
  refine moves_get.bind fun s => ?_
  cases s.frame.locals[index]? with
  | none => exact moves_throw _
  | some v => exact moves_push v

theorem moves_readPacket (procedure : String) (type : TypeRef) :
    Moves (readPacket procedure type) := by
  intro s
  rw [finalState, readPacket]
  cases hpacket : s.packet with
  | none => exact ⟨s.frame.stack, s.packet, rfl⟩
  | some bits =>
    rcases h : Wire.readField type bits with ⟨e | v, rest⟩ <;> simp only [h] <;>
      exact ⟨s.frame.stack, some rest, rfl⟩

theorem moves_read (procedure : String) (proc : CodecProc) :
    Moves (codecOp procedure (.read proc)) := by
  refine (moves_pop procedure).bind fun source => ?_
  by_cases h : source = .reader
  · rw [if_pos h]
    exact (moves_readPacket procedure proc.type).bind fun v => moves_push v
  · rw [if_neg h]
    exact moves_throw _

/-! ### What instructions are made of -/

/-- A computation that spends no steps and leaves the locals and the writers as they are. -/
def Quiet (x : Exec α) : Prop :=
  ∀ s, (finalState x s).stepsLeft = s.stepsLeft ∧
    (finalState x s).frame.locals = s.frame.locals ∧
    (finalState x s).host.writers = s.host.writers

theorem Quiet.agree (h : Quiet x) : Agree n x x := agree_of_keeps fun s => (h s).1

theorem Moves.quiet (h : Moves x) : Quiet x := by
  intro s
  obtain ⟨stack, packet, hs⟩ := h s
  rw [hs]
  exact ⟨rfl, rfl, rfl⟩

theorem Moves.agree (h : Moves x) : Agree n x x := h.quiet.agree

theorem Quiet.bind (hx : Quiet x) (hf : ∀ a, Quiet (f a)) : Quiet (x >>= f) := by
  intro s
  refine relates_bind (R := fun s s' => s'.stepsLeft = s.stepsLeft ∧
    s'.frame.locals = s.frame.locals ∧ s'.host.writers = s.host.writers) ?_ (hx s)
    fun a s' _ => hf a s'
  rintro s₀ s₁ s₂ ⟨hsteps, hlocals, hwriters⟩ ⟨hsteps', hlocals', hwriters'⟩
  exact ⟨hsteps'.trans hsteps, hlocals'.trans hlocals, hwriters'.trans hwriters⟩

theorem quiet_onHost {change : Host → Host} (h : ∀ host, (change host).writers = host.writers) :
    Quiet (onHost change) := fun s => ⟨rfl, rfl, h s.host⟩

theorem quiet_intrinsic (object : NetObject) (procedure : String) (i : Intrinsic) :
    Quiet (intrinsic object procedure i) := by
  refine (moves_popMany procedure i.arity).quiet.bind fun args s => ?_
  rw [finalState_bind, get_apply]
  simp only [finalState_bind, lift]
  cases hanswer : s.host.answer object i args with
  | error e => exact ⟨rfl, rfl, rfl⟩
  | ok answer =>
    -- the answer stands for the host, and has the same writers
    have hwriters : answer.1.writers = s.host.writers := Host.writers_answer hanswer
    simp only
    cases answer.2 with
    | none => exact ⟨rfl, rfl, hwriters⟩
    | some v => exact ⟨rfl, rfl, hwriters⟩

theorem agree_modify {change : RunState → RunState}
    (h : ∀ s, (change s).stepsLeft = s.stepsLeft) :
    Agree n (modify change : Exec Unit) (modify change) :=
  agree_of_keeps h

theorem agree_onHost (change : Host → Host) : Agree n (onHost change) (onHost change) :=
  agree_modify fun _ => rfl

theorem agree_storeLocal (procedure : String) (index : Nat) :
    Agree n (storeLocal procedure index) (storeLocal procedure index) := by
  refine (moves_pop procedure).agree.bind fun v => moves_get.agree.bind fun s => ?_
  by_cases h : index < s.frame.locals.length
  · rw [if_pos h]
    exact agree_modify fun _ => rfl
  · rw [if_neg h]
    exact agree_throw _

theorem agree_codecOp (procedure : String) (op : CodecOp) :
    Agree n (codecOp procedure op) (codecOp procedure op) := by
  cases op with
  | acquire =>
    exact moves_get.agree.bind fun _ => (agree_onHost _).bind fun _ => (moves_push _).agree
  | release =>
    exact (moves_pop procedure).agree.bind fun _ => (agree_lift _).bind fun _ =>
      moves_get.agree.bind fun _ => (agree_lift _).bind fun _ => agree_onHost _
  | write proc =>
    exact (moves_pop procedure).agree.bind fun _ => (moves_pop procedure).agree.bind fun _ =>
      (agree_lift _).bind fun _ => (agree_lift _).bind fun _ =>
      moves_get.agree.bind fun _ => (agree_lift _).bind fun _ => agree_onHost _
  | read proc => exact (moves_read procedure proc).agree

theorem agree_callMethod {enter enter' : List Value → Exec Unit} (procedure : String)
    (m : MethodRef) (h : ∀ args, Agree n (enter args) (enter' args)) :
    Agree n (callMethod procedure m enter) (callMethod procedure m enter') := by
  refine (moves_popMany procedure m.arity).agree.bind fun taken => ?_
  rcases taken with _ | ⟨receiver, args⟩
  · exact agree_throw _
  · cases receiver with
    | self => exact h args
    | _ => exact agree_throw _

/-- One instruction does the same with procedures and nested blocks that do the same. -/
theorem agree_instruction (object : NetObject) (procedure : String)
    {enter enter' : Bool → MethodRef → List Value → Exec Unit} {inner inner' : Block → Exec Flow}
    (henter : ∀ v m args, Agree n (enter v m args) (enter' v m args))
    (hinner : ∀ code, Agree n (inner code) (inner' code)) (i : Instruction) :
    Agree n (instruction object procedure enter inner i)
      (instruction object procedure enter' inner' i) := by
  -- most instructions do one thing and go on
  have hadvance : ∀ {x y : Exec Unit}, Agree n x y →
      Agree n (x >>= fun _ => (pure .advance : Exec Next)) (y >>= fun _ => pure .advance) :=
    fun h => h.bind fun _ => agree_pure _
  cases i with
  | loadSelf => exact hadvance (moves_push _).agree
  | loadArg index => exact hadvance (moves_loadArg procedure index).agree
  | loadLocal index => exact hadvance (moves_loadLocal procedure index).agree
  | storeLocal index => exact hadvance (agree_storeLocal procedure index)
  | loadConst c => exact hadvance (moves_push _).agree
  | pop => exact (moves_pop procedure).agree.bind fun _ => agree_pure _
  | call callee =>
    cases callee with
    | method m => exact hadvance (agree_callMethod procedure m (henter true m))
    | base m => exact hadvance (agree_callMethod procedure m (henter false m))
    | intrinsic i => exact hadvance (quiet_intrinsic object procedure i).agree
    | codec op => exact hadvance (agree_codecOp procedure op)
    | external symbol arity =>
      exact (moves_popMany procedure arity).agree.bind fun _ => hadvance (agree_onHost _)
  | jump label => exact agree_pure _
  | jumpIfTrue label => exact (moves_popBool procedure).agree.bind fun _ => agree_pure _
  | jumpIfFalse label => exact (moves_popBool procedure).agree.bind fun _ => agree_pure _
  | jumpIfNull label => exact (moves_pop procedure).agree.bind fun _ => agree_pure _
  | mark label => exact agree_pure _
  | warn text => exact hadvance (agree_onHost _)
  | region body cleanup =>
    exact (hinner body).attempt.bind fun _ => (hinner cleanup).attempt.bind fun _ => agree_lift _
  | leave => exact agree_pure _

end Exec

namespace Assembly

open Exec

variable {a : Assembly} {object : NetObject} {n : Nat}

theorem agree_enter (a : Assembly) (object : NetObject) {run run' : String → Block → Exec Flow}
    (h : ∀ name code, Agree n (run name code) (run' name code)) (isVirtualCall : Bool)
    (m : MethodRef) (args : List Value) :
    Agree n (a.enter object run isVirtualCall m args)
      (a.enter object run' isVirtualCall m args) := by
  refine (agree_lift _).bind fun p => ?_
  cases p.body with
  | none => exact agree_throw _
  | some body => exact ((h p.name body.code).inFrame _).bind fun _ => agree_pure _

/-! ### Any bound that is large enough -/

/-- What follows an instruction. -/
def proceed (run : Block → Exec Flow) (block rest : Block) : Next → Exec Flow
  | .advance => run rest
  | .goto label =>
    match block.from? label with
    | some found => run found
    | none => throw (.unknownLabel label)
  | .leave => pure .returned

theorem runBlock_cons (bound : Nat) (procedure : String) (block rest : Block) (i : Instruction) :
    a.runBlock object (bound + 1) procedure block (i :: rest) = (do
      spendStep
      let next ← instruction object procedure
        (a.enter object fun name code => a.runBlock object bound name code code)
        (fun code => a.runBlock object bound procedure code code) i
      proceed (a.runBlock object bound procedure block) block rest next) := by
  rw [runBlock]
  rfl

theorem agree_proceed {run run' : Block → Exec Flow} (h : ∀ rest, Agree n (run rest) (run' rest))
    (block rest : Block) (next : Next) :
    Agree n (proceed run block rest next) (proceed run' block rest next) := by
  cases next with
  | advance => exact h rest
  | leave => exact agree_pure _
  | goto label =>
    rw [proceed, proceed]
    cases block.from? label with
    | none => exact agree_throw _
    | some found => exact h found

/-- Two bounds that are large enough give the same run. -/
theorem agree_runBlock {bound bound' : Nat} (hb : n ≤ bound) (hb' : n ≤ bound')
    (procedure : String) (block rest : Block) :
    Agree n (a.runBlock object bound procedure block rest)
      (a.runBlock object bound' procedure block rest) := by
  induction n generalizing bound bound' procedure block rest with
  | zero =>
    -- no step is left, so both stop at once
    intro s hs
    have hzero : s.stepsLeft = 0 := Nat.le_zero.mp hs
    cases rest with
    | nil =>
      cases bound <;> cases bound' <;> exact ⟨rfl, Nat.le_refl _⟩
    | cons i rest =>
      have hstop : ∀ m, a.runBlock object m procedure block (i :: rest) s =
          .error (.stepLimit stepBudget) s := by
        intro m
        cases m with
        | zero => rfl
        | succ m =>
          rw [runBlock_cons, bind_apply, spendStep]
          simp only [hzero]
      exact ⟨by rw [hstop, hstop], Nat.le_of_eq (by rw [finalState, hstop])⟩
  | succ n ih =>
    obtain ⟨m, rfl⟩ : ∃ m, bound = m + 1 := ⟨bound - 1, by omega⟩
    obtain ⟨m', rfl⟩ : ∃ m', bound' = m' + 1 := ⟨bound' - 1, by omega⟩
    have hm : n ≤ m := Nat.le_of_succ_le_succ hb
    have hm' : n ≤ m' := Nat.le_of_succ_le_succ hb'
    intro s hs
    cases rest with
    | nil => exact ⟨rfl, Nat.le_refl _⟩
    | cons i rest =>
      rw [finalState, runBlock_cons, runBlock_cons, bind_apply, bind_apply, spendStep]
      cases hleft : s.stepsLeft with
      | zero => simp only [hleft, Nat.le_refl, and_self]
      | succ k =>
        have hk : k ≤ n := by omega
        have hrest := (agree_instruction object procedure
          (agree_enter a object fun name code => ih hm hm' name code code)
          (fun code => ih hm hm' procedure code code) i).bind
          fun next => agree_proceed (ih hm hm' procedure block) block rest next
        obtain ⟨heq, hspent⟩ := hrest { s with stepsLeft := k } hk
        refine ⟨heq, ?_⟩
        rw [finalState] at hspent
        exact Nat.le_succ_of_le hspent

/-! ### Runs -/

/-- Goes through a block of a procedure, from one of its suffixes, with the steps that are
left. -/
def run (a : Assembly) (object : NetObject) (procedure : String) (block rest : Block) :
    Exec Flow :=
  fun s => a.runBlock object s.stepsLeft procedure block rest s

theorem agree_run (procedure : String) (block rest : Block) :
    Agree n (a.runBlock object n procedure block rest) (a.run object procedure block rest) := by
  intro s hs
  exact agree_runBlock hs (Nat.le_refl _) procedure block rest s (Nat.le_refl _)

@[simp] theorem run_nil (procedure : String) (block : Block) (s : RunState) :
    a.run object procedure block [] s = .ok .fellThrough s := by
  rw [run, runBlock]
  rfl

/-- Without a step left nothing is executed. -/
theorem run_stop (procedure : String) (block rest : Block) (i : Instruction) (frame : Frame)
    (host : Host) (packet : Option Wire.Bits) :
    a.run object procedure block (i :: rest) ⟨frame, host, packet, 0⟩ =
      .error (.stepLimit stepBudget) ⟨frame, host, packet, 0⟩ := rfl

/-- A run executes its first instruction and goes on as that says. -/
theorem run_cons (procedure : String) (block rest : Block) (i : Instruction) (frame : Frame)
    (host : Host) (packet : Option Wire.Bits) (n : Nat) :
    a.run object procedure block (i :: rest) ⟨frame, host, packet, n + 1⟩ =
      (do
        let next ← instruction object procedure
          (a.enter object fun name code => a.run object name code code)
          (fun code => a.run object procedure code code) i
        proceed (a.run object procedure block) block rest next)
      ⟨frame, host, packet, n⟩ := by
  have hrun : ∀ name code rest, Agree n (a.runBlock object n name code rest)
      (a.run object name code rest) := agree_run
  have hagree := (agree_instruction object procedure
    (agree_enter a object fun name code => hrun name code code)
    (fun code => hrun procedure code code) i).bind
    fun next => agree_proceed (hrun procedure block) block rest next
  rw [run, runBlock_cons, bind_apply]
  exact (hagree ⟨frame, host, packet, n⟩ (Nat.le_refl n)).1

end Assembly

end RpcLoom
