/-
RpcLoom/Proofs/Stepping.lean

What each instruction of generated code does to a run.

Design.  A state is written out: arguments, locals, operands, host, packet and
steps.  Each lemma says where a run stands after one instruction, so a block is
gone through by rewriting.  Calls and regions speak of the runs inside them.  A
jump forward goes to the last mark of its label, which `from?_append` finds.
-/
import RpcLoom.Proofs.Budget

namespace RpcLoom

/-! ### Where a jump goes -/

namespace Block

theorem from?_cons_of_some {label : Label} {i : Instruction} {rest found : Block}
    (h : from? label rest = some found) : from? label (i :: rest) = some found := by
  cases i <;> simp [from?, h]

/-- A mark after which its label is not marked again is where a jump to the label goes. -/
theorem from?_append {label : Label} {rest : Block} (h : from? label rest = none)
    (before : Block) :
    from? label (before ++ .mark label :: rest) = some (.mark label :: rest) := by
  induction before with
  | nil =>
    show from? label (.mark label :: rest) = _
    simp [from?, h]
  | cons i before ih => exact from?_cons_of_some ih

/-- A label that no instruction of a block marks is not found in it. -/
theorem from?_eq_none {label : Label} {block : Block} (h : ∀ i ∈ block, i ≠ .mark label) :
    from? label block = none := by
  induction block with
  | nil => rfl
  | cons i rest ih =>
    have hrest := ih fun k hk => h k (by simp [hk])
    have hi := h i (by simp)
    cases i with
    | mark l =>
      have hl : l ≠ label := fun hl => hi (by rw [hl])
      simp [from?, hrest, hl]
    | _ => simp [from?, hrest]

end Block

namespace Assembly

open Exec

variable {a : Assembly} {object : NetObject} {procedure : String} {block rest : Block}
  {args locals stack : List Value} {host host' : Host} {packet packet' : Option Wire.Bits}
  {n : Nat}

/-! ### Operands -/

theorem run_loadSelf :
    a.run object procedure block (.loadSelf :: rest)
        ⟨⟨args, locals, stack⟩, host, packet, n + 1⟩ =
      a.run object procedure block rest ⟨⟨args, locals, .self :: stack⟩, host, packet, n⟩ := by
  rw [run_cons]
  rfl

theorem run_loadArg {index : Nat} {v : Value} (h : args[index]? = some v) :
    a.run object procedure block (.loadArg index :: rest)
        ⟨⟨args, locals, stack⟩, host, packet, n + 1⟩ =
      a.run object procedure block rest ⟨⟨args, locals, v :: stack⟩, host, packet, n⟩ := by
  have hload : loadArg procedure index ⟨⟨args, locals, stack⟩, host, packet, n⟩ =
      .ok () ⟨⟨args, locals, v :: stack⟩, host, packet, n⟩ := by
    rw [loadArg, bind_apply]
    simp only [get_apply, h]
    rfl
  rw [run_cons, instruction, bind_apply, bind_apply, hload]
  rfl

theorem run_loadLocal {index : Nat} {v : Value} (h : locals[index]? = some v) :
    a.run object procedure block (.loadLocal index :: rest)
        ⟨⟨args, locals, stack⟩, host, packet, n + 1⟩ =
      a.run object procedure block rest ⟨⟨args, locals, v :: stack⟩, host, packet, n⟩ := by
  have hload : loadLocal procedure index ⟨⟨args, locals, stack⟩, host, packet, n⟩ =
      .ok () ⟨⟨args, locals, v :: stack⟩, host, packet, n⟩ := by
    rw [loadLocal, bind_apply]
    simp only [get_apply, h]
    rfl
  rw [run_cons, instruction, bind_apply, bind_apply, hload]
  rfl

theorem storeLocal_eq {index : Nat} {v : Value} (h : index < locals.length) :
    storeLocal procedure index ⟨⟨args, locals, v :: stack⟩, host, packet, n⟩ =
      .ok () ⟨⟨args, locals.set index v, stack⟩, host, packet, n⟩ := by
  rw [storeLocal, bind_apply]
  show (if index < locals.length then
    modify fun s => { s with frame.locals := s.frame.locals.set index v }
    else throw (Fault.unknownLocal procedure index) : Exec Unit) _ = _
  rw [if_pos h]
  rfl

theorem run_storeLocal {index : Nat} {v : Value} (h : index < locals.length) :
    a.run object procedure block (.storeLocal index :: rest)
        ⟨⟨args, locals, v :: stack⟩, host, packet, n + 1⟩ =
      a.run object procedure block rest
        ⟨⟨args, locals.set index v, stack⟩, host, packet, n⟩ := by
  rw [run_cons, instruction, bind_apply, bind_apply, storeLocal_eq h]
  rfl

theorem run_loadConst {c : Constant} :
    a.run object procedure block (.loadConst c :: rest)
        ⟨⟨args, locals, stack⟩, host, packet, n + 1⟩ =
      a.run object procedure block rest
        ⟨⟨args, locals, .ofConstant c :: stack⟩, host, packet, n⟩ := by
  rw [run_cons]
  rfl

/-- Operands that were pushed one by one are taken in the order they were pushed. -/
theorem popMany_append (given : List Value) {count : Nat} (h : given.length = count) :
    popMany procedure count ⟨⟨args, locals, given.reverse ++ stack⟩, host, packet, n⟩ =
      .ok given ⟨⟨args, locals, stack⟩, host, packet, n⟩ := by
  have hlength : given.reverse.length = count := by rw [List.length_reverse, h]
  rw [popMany]
  simp only [List.take_left' hlength, List.drop_left' hlength, hlength, Nat.lt_irrefl, if_false,
    List.reverse_reverse]

/-! ### Going on elsewhere -/

theorem run_mark {label : Label} :
    a.run object procedure block (.mark label :: rest)
        ⟨⟨args, locals, stack⟩, host, packet, n + 1⟩ =
      a.run object procedure block rest ⟨⟨args, locals, stack⟩, host, packet, n⟩ := by
  rw [run_cons]
  rfl

theorem run_leave :
    a.run object procedure block (.leave :: rest)
        ⟨⟨args, locals, stack⟩, host, packet, n + 1⟩ =
      .ok .returned ⟨⟨args, locals, stack⟩, host, packet, n⟩ := by
  rw [run_cons]
  rfl

theorem run_warn {text : String} :
    a.run object procedure block (.warn text :: rest)
        ⟨⟨args, locals, stack⟩, host, packet, n + 1⟩ =
      a.run object procedure block rest
        ⟨⟨args, locals, stack⟩, host.warn text, packet, n⟩ := by
  rw [run_cons]
  rfl

theorem proceed_goto {label : Label} {found : Block} (rest : Block)
    (h : block.from? label = some found) :
    proceed (a.run object procedure block) block rest (.goto label) =
      a.run object procedure block found := by
  rw [proceed, h]

theorem run_jump {label : Label} {found : Block} (h : block.from? label = some found) :
    a.run object procedure block (.jump label :: rest)
        ⟨⟨args, locals, stack⟩, host, packet, n + 1⟩ =
      a.run object procedure block found ⟨⟨args, locals, stack⟩, host, packet, n⟩ := by
  rw [run_cons, instruction, ← proceed_goto rest h]
  rfl

theorem run_jumpIfTrue {label : Label} {found : Block} (h : block.from? label = some found)
    (b : Bool) :
    a.run object procedure block (.jumpIfTrue label :: rest)
        ⟨⟨args, locals, .bool b :: stack⟩, host, packet, n + 1⟩ =
      a.run object procedure block (if b then found else rest)
        ⟨⟨args, locals, stack⟩, host, packet, n⟩ := by
  rw [run_cons, instruction]
  cases b with
  | true =>
    rw [if_pos rfl, ← proceed_goto rest h]
    rfl
  | false => rfl

theorem run_jumpIfFalse {label : Label} {found : Block} (h : block.from? label = some found)
    (b : Bool) :
    a.run object procedure block (.jumpIfFalse label :: rest)
        ⟨⟨args, locals, .bool b :: stack⟩, host, packet, n + 1⟩ =
      a.run object procedure block (if b then rest else found)
        ⟨⟨args, locals, stack⟩, host, packet, n⟩ := by
  rw [run_cons, instruction]
  cases b with
  | true => rfl
  | false =>
    rw [if_neg (by decide), ← proceed_goto rest h]
    rfl

theorem run_jumpIfNull {label : Label} {found : Block} (h : block.from? label = some found)
    (v : Value) :
    a.run object procedure block (.jumpIfNull label :: rest)
        ⟨⟨args, locals, v :: stack⟩, host, packet, n + 1⟩ =
      a.run object procedure block (if v = .null then found else rest)
        ⟨⟨args, locals, stack⟩, host, packet, n⟩ := by
  rw [run_cons, instruction, bind_apply, bind_apply]
  show proceed (a.run object procedure block) block rest (jumpWhen (decide (v = .null)) label)
    ⟨⟨args, locals, stack⟩, host, packet, n⟩ = _
  by_cases hv : v = .null
  · rw [if_pos hv, ← proceed_goto rest h, decide_eq_true hv]
    rfl
  · rw [if_neg hv, decide_eq_false hv]
    rfl

/-! ### The host, writers and the packet -/

/-- An intrinsic takes its operands and leaves what the host answers. -/
theorem intrinsic_append {i : Intrinsic} (given : List Value) {result : Option Value}
    (hlength : given.length = i.arity) (h : host.answer object i given = .ok (host', result)) :
    intrinsic object procedure i ⟨⟨args, locals, given.reverse ++ stack⟩, host, packet, n⟩ =
      .ok () ⟨⟨args, locals, result.toList ++ stack⟩, host', packet, n⟩ := by
  rw [intrinsic, bind_apply, popMany_append given hlength]
  simp only [bind_apply, get_apply, h, lift]
  cases result <;> rfl

theorem run_intrinsic {i : Intrinsic} (given : List Value) {result : Option Value}
    (hlength : given.length = i.arity) (h : host.answer object i given = .ok (host', result)) :
    a.run object procedure block (.intrinsic i :: rest)
        ⟨⟨args, locals, given.reverse ++ stack⟩, host, packet, n + 1⟩ =
      a.run object procedure block rest
        ⟨⟨args, locals, result.toList ++ stack⟩, host', packet, n⟩ := by
  rw [run_cons, instruction, bind_apply, bind_apply, intrinsic_append given hlength h]
  rfl

/-- A question about the object is answered and nothing else is done. -/
theorem run_ask {i : Intrinsic} {v : Value} (harity : i.arity = 1)
    (h : host.answer object i [.self] = .ok (host, some v)) :
    a.run object procedure block (.intrinsic i :: rest)
        ⟨⟨args, locals, .self :: stack⟩, host, packet, n + 1⟩ =
      a.run object procedure block rest ⟨⟨args, locals, v :: stack⟩, host, packet, n⟩ :=
  run_intrinsic [.self] harity.symm h

theorem run_external {symbol : String} (given : List Value) {arity : Nat}
    (h : given.length = arity) :
    a.run object procedure block (.call (.external symbol arity) :: rest)
        ⟨⟨args, locals, given.reverse ++ stack⟩, host, packet, n + 1⟩ =
      a.run object procedure block rest
        ⟨⟨args, locals, stack⟩, host.callExternal symbol given, packet, n⟩ := by
  rw [run_cons, instruction, bind_apply, bind_apply, popMany_append given h]
  rfl

theorem run_acquire :
    a.run object procedure block (.codec .acquire :: rest)
        ⟨⟨args, locals, stack⟩, host, packet, n + 1⟩ =
      a.run object procedure block rest
        ⟨⟨args, locals, .writer host.writers.acquire.1 :: stack⟩,
          { host with writers := host.writers.acquire.2 }, packet, n⟩ := by
  rw [run_cons]
  rfl

theorem run_release {handle : Nat} {writers : WriterPool}
    (h : host.writers.release handle = .ok writers) :
    a.run object procedure block (.codec .release :: rest)
        ⟨⟨args, locals, .writer handle :: stack⟩, host, packet, n + 1⟩ =
      a.run object procedure block rest
        ⟨⟨args, locals, stack⟩, { host with writers }, packet, n⟩ := by
  have hrelease : codecOp procedure .release
      ⟨⟨args, locals, .writer handle :: stack⟩, host, packet, n⟩ =
        .ok () ⟨⟨args, locals, stack⟩, { host with writers }, packet, n⟩ := by
    show (lift (host.writers.release handle) >>= setWriters)
      ⟨⟨args, locals, stack⟩, host, packet, n⟩ = _
    rw [h]
    rfl
  rw [run_cons, instruction, bind_apply, bind_apply, hrelease]
  rfl

theorem run_write {proc : CodecProc} {handle : Nat} {v : Value} {writers : WriterPool}
    (hcheck : Wire.check proc.type v = .ok ())
    (h : host.writers.write handle (proc.type, v) = .ok writers) :
    a.run object procedure block (.codec (.write proc) :: rest)
        ⟨⟨args, locals, v :: .writer handle :: stack⟩, host, packet, n + 1⟩ =
      a.run object procedure block rest
        ⟨⟨args, locals, stack⟩, { host with writers }, packet, n⟩ := by
  have hwrite : codecOp procedure (.write proc)
      ⟨⟨args, locals, v :: .writer handle :: stack⟩, host, packet, n⟩ =
        .ok () ⟨⟨args, locals, stack⟩, { host with writers }, packet, n⟩ := by
    show (do
      lift (Wire.check proc.type v)
      setWriters (← lift ((← get).host.writers.write handle (proc.type, v))) : Exec Unit)
      ⟨⟨args, locals, stack⟩, host, packet, n⟩ = _
    rw [hcheck]
    show (lift (host.writers.write handle (proc.type, v)) >>= setWriters)
      ⟨⟨args, locals, stack⟩, host, packet, n⟩ = _
    rw [h]
    rfl
  rw [run_cons, instruction, bind_apply, bind_apply, hwrite]
  rfl

theorem codecOp_read {proc : CodecProc} {bits : Wire.Bits} :
    codecOp procedure (.read proc) ⟨⟨args, locals, .reader :: stack⟩, host, some bits, n⟩ =
      match Wire.readField proc.type bits with
      | (.ok v, left) => .ok () ⟨⟨args, locals, v :: stack⟩, host, some left, n⟩
      | (.error e, left) => .error e ⟨⟨args, locals, stack⟩, host, some left, n⟩ := by
  show (readPacket procedure proc.type >>= push) ⟨⟨args, locals, stack⟩, host, some bits, n⟩ = _
  rw [bind_apply, readPacket]
  rcases h : Wire.readField proc.type bits with ⟨e | v, left⟩
  · simp only [h]
  · simp only [h]
    rfl

/-- A value is read from the packet, or nothing more is done. -/
theorem run_read {proc : CodecProc} {bits : Wire.Bits} :
    a.run object procedure block (.codec (.read proc) :: rest)
        ⟨⟨args, locals, .reader :: stack⟩, host, some bits, n + 1⟩ =
      match Wire.readField proc.type bits with
      | (.ok v, left) =>
        a.run object procedure block rest ⟨⟨args, locals, v :: stack⟩, host, some left, n⟩
      | (.error e, left) => .error e ⟨⟨args, locals, stack⟩, host, some left, n⟩ := by
  rw [run_cons, instruction, bind_apply, bind_apply, codecOp_read]
  rcases Wire.readField proc.type bits with ⟨e | v, left⟩ <;> rfl

/-! ### Procedures and regions -/

/-- Running a procedure on arguments ends well: it changes host and packet, and takes `cost`
steps. -/
def Completes (a : Assembly) (object : NetObject) (p : Procedure) (given : List Value)
    (host : Host) (packet : Option Wire.Bits) (host' : Host) (packet' : Option Wire.Bits)
    (cost : Nat) : Prop :=
  ∃ body, p.body = some body ∧ ∀ n, ∃ flow frame,
    a.run object p.name body.code body.code
        ⟨⟨given, List.replicate body.locals.length .null, []⟩, host, packet, cost + n⟩ =
      .ok flow ⟨frame, host', packet', n⟩

theorem enter_of_error {m : MethodRef} {given : List Value} {isVirtualCall : Bool} {e : DeclError}
    (hcallee : a.calleeOf object isVirtualCall m = .error e) (run : String → Block → Exec Flow)
    (s : RunState) :
    a.enter object run isVirtualCall m given s = .error (.declaration e) s := by
  rw [enter, hcallee]
  rfl

theorem mapError_calleeOf {m : MethodRef} {p : Procedure} {isVirtualCall : Bool}
    (hcallee : a.calleeOf object isVirtualCall m = .ok p) :
    (a.calleeOf object isVirtualCall m).mapError Fault.declaration = .ok p := by
  rw [hcallee]
  rfl

/-- A procedure without a body is not run. -/
theorem enter_of_pending {m : MethodRef} {p : Procedure} {given : List Value}
    {isVirtualCall : Bool} (hcallee : a.calleeOf object isVirtualCall m = .ok p)
    (hbody : p.body = none) (run : String → Block → Exec Flow) (s : RunState) :
    a.enter object run isVirtualCall m given s = .error (.pendingBody p.name) s := by
  rw [enter, mapError_calleeOf hcallee]
  simp only [bind_apply, lift, hbody]
  rfl

/-- Entering a procedure runs its code in a frame of its own. -/
theorem enter_eq {m : MethodRef} {p : Procedure} {body : Body} {given : List Value}
    {isVirtualCall : Bool} {frame : Frame}
    (hcallee : a.calleeOf object isVirtualCall m = .ok p) (hbody : p.body = some body) :
    a.enter object (fun name code => a.run object name code code) isVirtualCall m given
        ⟨frame, host, packet, n⟩ =
      match a.run object p.name body.code body.code
        ⟨⟨given, List.replicate body.locals.length .null, []⟩, host, packet, n⟩ with
      | .ok _ s => .ok () { s with frame }
      | .error e s => .error e { s with frame } := by
  rw [enter, mapError_calleeOf hcallee]
  simp only [bind_apply, lift, hbody, inFrame]
  cases a.run object p.name body.code body.code
    ⟨⟨given, List.replicate body.locals.length .null, []⟩, host, packet, n⟩ <;> rfl

theorem enter_of_completes {m : MethodRef} {p : Procedure} {given : List Value} {cost : Nat}
    {isVirtualCall : Bool} {frame : Frame}
    (hcallee : a.calleeOf object isVirtualCall m = .ok p)
    (h : a.Completes object p given host packet host' packet' cost) :
    a.enter object (fun name code => a.run object name code code) isVirtualCall m given
        ⟨frame, host, packet, cost + n⟩ = .ok () ⟨frame, host', packet', n⟩ := by
  obtain ⟨body, hbody, hrun⟩ := h
  obtain ⟨flow, last, hrun⟩ := hrun n
  rw [enter_eq hcallee hbody, hrun]

/-- A procedure that ends well takes its arguments and the object from the operands. -/
theorem callMethod_of_completes {m : MethodRef} {p : Procedure} (given : List Value) {cost : Nat}
    {isVirtualCall : Bool} (hlength : given.length = m.types.length)
    (hcallee : a.calleeOf object isVirtualCall m = .ok p)
    (h : a.Completes object p given host packet host' packet' cost) :
    callMethod procedure m
        (a.enter object (fun name code => a.run object name code code) isVirtualCall m)
        ⟨⟨args, locals, given.reverse ++ .self :: stack⟩, host, packet, cost + n⟩ =
      .ok () ⟨⟨args, locals, stack⟩, host', packet', n⟩ := by
  have hpop : popMany procedure m.arity
      ⟨⟨args, locals, given.reverse ++ .self :: stack⟩, host, packet, cost + n⟩ =
        .ok (.self :: given) ⟨⟨args, locals, stack⟩, host, packet, cost + n⟩ := by
    have hgiven : (Value.self :: given).length = m.arity := by
      rw [List.length_cons, hlength]
      rfl
    have hstack : given.reverse ++ .self :: stack = (Value.self :: given).reverse ++ stack := by
      rw [List.reverse_cons, List.append_assoc]
      rfl
    rw [hstack]
    exact popMany_append _ hgiven
  rw [callMethod, bind_apply, hpop]
  exact enter_of_completes hcallee h

theorem run_call {m : MethodRef} {p : Procedure} (given : List Value) {cost : Nat}
    (hlength : given.length = m.types.length) (hcallee : a.calleeOf object true m = .ok p)
    (h : a.Completes object p given host packet host' packet' cost) :
    a.run object procedure block (.call (.method m) :: rest)
        ⟨⟨args, locals, given.reverse ++ .self :: stack⟩, host, packet, cost + n + 1⟩ =
      a.run object procedure block rest
        ⟨⟨args, locals, stack⟩, host', packet', n⟩ := by
  rw [run_cons, instruction, bind_apply, bind_apply,
    callMethod_of_completes given hlength hcallee h]
  rfl

theorem run_base {m : MethodRef} {p : Procedure} (given : List Value) {cost : Nat}
    (hlength : given.length = m.types.length) (hcallee : a.calleeOf object false m = .ok p)
    (h : a.Completes object p given host packet host' packet' cost) :
    a.run object procedure block (.call (.base m) :: rest)
        ⟨⟨args, locals, given.reverse ++ .self :: stack⟩, host, packet, cost + n + 1⟩ =
      a.run object procedure block rest
        ⟨⟨args, locals, stack⟩, host', packet', n⟩ := by
  rw [run_cons, instruction, bind_apply, bind_apply,
    callMethod_of_completes given hlength hcallee h]
  rfl

/-- Invoking a procedure enters it with the whole budget. -/
theorem invoke_eq (isVirtualCall : Bool) (m : MethodRef) (given : List Value) :
    a.invoke object isVirtualCall m given packet host =
      match a.enter object (fun name code => a.run object name code code) isVirtualCall m given
        ⟨⟨[], [], []⟩, host, packet, stepBudget⟩ with
      | .ok () s => (.ok (), s.host, s.packet)
      | .error e s => (.error e, s.host, s.packet) := by
  have hrun : ∀ name code, Agree stepBudget (a.runBlock object stepBudget name code code)
      (a.run object name code code) := fun name code => agree_run name code code
  have hagree := agree_enter a object hrun isVirtualCall m given
    ⟨⟨[], [], []⟩, host, packet, stepBudget⟩ (Nat.le_refl _)
  show (match a.enter object (fun name code => a.runBlock object stepBudget name code code)
      isVirtualCall m given ⟨⟨[], [], []⟩, host, packet, stepBudget⟩ with
    | .ok () s => (.ok (), s.host, s.packet)
    | .error e s => (.error e, s.host, s.packet) :
      Except Fault Unit × Host × Option Wire.Bits) = _
  rw [hagree.1]

/-- A procedure that ends well within the budget ends well when it is invoked. -/
theorem invoke_of_completes {m : MethodRef} {p : Procedure} {given : List Value} {cost : Nat}
    {isVirtualCall : Bool} (hcallee : a.calleeOf object isVirtualCall m = .ok p)
    (h : a.Completes object p given host packet host' packet' cost) (hcost : cost ≤ stepBudget) :
    a.invoke object isVirtualCall m given packet host = (.ok (), host', packet') := by
  obtain ⟨left, hleft⟩ := Nat.exists_eq_add_of_le hcost
  rw [invoke_eq, hleft, enter_of_completes hcallee h]

/-- A region comes to what its body and its cleanup end with, and ends where its cleanup does. -/
theorem run_region_eq (block rest : Block) (frame : Frame) (host : Host)
    (packet : Option Wire.Bits) (n : Nat) {body cleanup : Block} {s₁ s₂ : RunState}
    {ended cleaned : Except Fault Flow}
    (hbody : a.run object procedure body body ⟨frame, host, packet, n⟩ = lift ended s₁)
    (hcleanup : a.run object procedure cleanup cleanup s₁ = lift cleaned s₂) :
    a.run object procedure block (.region body cleanup :: rest) ⟨frame, host, packet, n + 1⟩ =
      (lift (regionResult ended cleaned) >>= proceed (a.run object procedure block) block rest)
        s₂ := by
  obtain ⟨hended, hs₁⟩ := of_eq_lift hbody
  obtain ⟨hcleaned, hs₂⟩ := of_eq_lift hcleanup
  rw [run_cons, bind_apply, instruction_region, hended, hs₁, hcleaned, hs₂, bind_apply]

/-- A region goes on after its cleanup if both its blocks end. -/
theorem run_region {body cleanup : Block} {frame : Frame} {s₁ s₂ : RunState}
    (hbody : a.run object procedure body body ⟨frame, host, packet, n⟩ = .ok .fellThrough s₁)
    (hcleanup : a.run object procedure cleanup cleanup s₁ = .ok .fellThrough s₂) :
    a.run object procedure block (.region body cleanup :: rest)
        ⟨frame, host, packet, n + 1⟩ =
      a.run object procedure block rest s₂ := by
  have hfell : a.run object procedure body body ⟨frame, host, packet, n⟩ =
    lift (.ok .fellThrough) s₁ := hbody
  have hcleaned : a.run object procedure cleanup cleanup s₁ = lift (.ok .fellThrough) s₂ := hcleanup
  rw [run_region_eq block rest frame host packet n hfell hcleaned]
  rfl

end Assembly

end RpcLoom
