/-
RpcLoom/Proofs/Lending.lean

Whatever happens in a run, the writers that it takes are given back.

Design.  Only senders take writers and give them back.  All other code is modest:
no instruction in it, at any depth, takes a writer or gives one back, so if the
procedures that it calls balance, it does (`balances_instruction`).  A sender
first asks its questions, by instructions that store nothing.  Then it takes a
writer into a local and packs its arguments in a region, by such instructions
again; so the writer is still in its local and in use when the cleanup gives it
back, however the packing ended (`balances_lendingTail`).

A run that is short of steps may stop between taking and giving back.  That a run
is never short is asked of the places that it leads to (`Affords`), since a
region can hide that its cleanup stopped.  The main argument is an induction on
the steps that are left, over these places.

Main result.  `Assembly.balances_of_settled`.
-/
import RpcLoom.Proofs.Regions

namespace RpcLoom

open Relation (ReflTransGen)

/-! ### Kinds of code -/

namespace Instruction

/-- Whether an instruction takes a writer or gives one back. -/
def pools : Instruction → Bool
  | .call (.codec .acquire) | .call (.codec .release) => true
  | _ => false

/-- Whether an instruction works on operands, the packet, the host and the fields of writers
alone. -/
def isStraight : Instruction → Bool
  | .storeLocal _ | .region .. | .call (.method _) | .call (.base _) => false
  | i => !i.pools

/-- Whether an instruction loads an argument or a constant. -/
def isOperand : Instruction → Bool
  | .loadArg _ | .loadConst _ => true
  | _ => false

end Instruction

namespace Block

variable {block rest found body cleanup : Block} {i : Instruction}

/-- No instruction in a block, at any depth, takes a writer or gives one back. -/
def Modest (block : Block) : Prop := ∀ i ∈ nested block, i.pools = false

instance (block : Block) : Decidable block.Modest :=
  inferInstanceAs (Decidable (∀ i ∈ nested block, i.pools = false))

theorem modest_cons :
    Modest (i :: rest) ↔ (∀ k ∈ i.nested, k.pools = false) ∧ Modest rest := by
  rw [Modest, nested_cons, List.forall_mem_append]
  rfl

theorem Modest.of_suffix (h : block.Modest) (hsuffix : rest <:+ block) : rest.Modest := by
  obtain ⟨before, rfl⟩ := hsuffix
  rw [Modest, nested_append, List.forall_mem_append] at h
  exact h.2

theorem Modest.head (h : Modest (i :: rest)) : i.pools = false := by
  obtain ⟨hi, -⟩ := modest_cons.mp h
  apply hi i
  cases i <;> simp [Instruction.nested]

theorem Modest.of_region (h : Modest (.region body cleanup :: rest)) :
    body.Modest ∧ cleanup.Modest := by
  obtain ⟨h, -⟩ := modest_cons.mp h
  rw [Instruction.nested_region, List.forall_mem_cons, List.forall_mem_append] at h
  exact h.2

/-- What a sender does once it has asked its questions: it keeps the operand for the channel and a
fresh writer, packs and sends, and gives the writer back. -/
def lendingTail (operand : Instruction) (packing : Block) : Block :=
  [operand, .storeLocal 0, .codec .acquire, .storeLocal 1,
    .region packing [.loadLocal 1, .codec .release], .leave]

theorem from?_lendingTail {operand : Instruction} (h : operand.isOperand = true)
    (packing : Block) (label : Label) : from? label (lendingTail operand packing) = none := by
  refine from?_eq_none fun i hi => ?_
  rcases List.mem_cons.mp hi with rfl | hi
  · rintro rfl
    cases h
  · simp only [List.mem_cons, List.not_mem_nil, or_false] at hi
    rcases hi with rfl | rfl | rfl | rfl | rfl <;> exact fun h => nomatch h

/-- A jump before the end of a block, in which its label is not marked, stays before it. -/
theorem split_of_from? {label : Label} {tail : Block} (htail : tail.from? label = none)
    {guard : Block} (h : from? label (guard ++ tail) = some found) :
    ∃ rest, rest <:+ guard ∧ found = rest ++ tail := by
  induction guard with
  | nil => cases htail.symm.trans h
  | cons i guard ih =>
    rw [List.cons_append] at h
    unfold from? at h
    cases hrest : from? label (guard ++ tail) with
    | some later =>
      rw [hrest] at h
      cases h
      obtain ⟨rest, hsuffix, rfl⟩ := ih hrest
      exact ⟨rest, hsuffix.trans (List.suffix_cons i guard), rfl⟩
    | none =>
      rw [hrest] at h
      cases i with
      | mark l =>
        by_cases hl : l = label
        · subst hl
          simp only [if_true] at h
          cases h
          exact ⟨.mark l :: guard, List.suffix_rfl, rfl⟩
        · simp only [hl, if_false] at h
          cases h
      | _ => cases h

end Block

/-- The body of a procedure that takes one writer and gives it back. -/
structure Body.Lends (b : Body) : Prop where
  code : ∃ guard operand packing, b.code = guard ++ Block.lendingTail operand packing ∧
    (∀ i ∈ guard, i.isStraight = true) ∧ operand.isOperand = true ∧
    ∀ i ∈ packing, i.isStraight = true
  locals : b.locals.length = 2

/-- A body takes no writers, or gives back the one that it takes. -/
def Body.Solvent (b : Body) : Prop := b.code.Modest ∨ b.Lends

/-! ### Before and after -/

/-- Between two states as many writers were taken as given back. -/
def RunState.Balances (s s' : RunState) : Prop := s.host.writers.Balances s'.host.writers

/-- Besides, the locals are the same. -/
structure RunState.Keeps (s s' : RunState) : Prop where
  locals : s'.frame.locals = s.frame.locals
  balances : s.Balances s'

namespace RunState

variable {s s₁ s₂ : RunState}

theorem Balances.refl (s : RunState) : s.Balances s := WriterPool.Balances.refl _

theorem Balances.trans (h : s.Balances s₁) (h' : s₁.Balances s₂) : s.Balances s₂ :=
  WriterPool.Balances.trans h h'

theorem Keeps.refl (s : RunState) : s.Keeps s := ⟨rfl, .refl s⟩

theorem Keeps.trans (h : s.Keeps s₁) (h' : s₁.Keeps s₂) : s.Keeps s₂ :=
  ⟨h'.locals.trans h.locals, h.balances.trans h'.balances⟩

end RunState

/-! ### One instruction -/

namespace Exec

variable {object : NetObject} {procedure : String}
  {enter : Bool → MethodRef → List Value → Exec Unit} {inner : Block → Exec Flow}
  {i : Instruction} {s : RunState}

/-- The writers balance when a computation is done. -/
abbrev Balances {α : Type} (x : Exec α) (s : RunState) : Prop := s.Balances (finalState x s)

/-- Besides, a computation leaves the locals alone. -/
abbrev Keeps {α : Type} (x : Exec α) (s : RunState) : Prop := s.Keeps (finalState x s)

theorem Balances.bind {α β : Type} {x : Exec α} {f : α → Exec β} (hx : Balances x s)
    (hf : ∀ a s', x s = .ok a s' → Balances (f a) s') : Balances (x >>= f) s :=
  relates_bind RunState.Balances.trans hx hf

theorem Keeps.bind {α β : Type} {x : Exec α} {f : α → Exec β} (hx : Keeps x s)
    (hf : ∀ a s', x s = .ok a s' → Keeps (f a) s') : Keeps (x >>= f) s :=
  relates_bind RunState.Keeps.trans hx hf

theorem Quiet.keeps {α : Type} {x : Exec α} (h : Quiet x) (s : RunState) : Keeps x s := by
  obtain ⟨-, hlocals, hwriters⟩ := h s
  refine ⟨hlocals, ?_⟩
  rw [RunState.Balances, hwriters]
  exact .refl _

theorem Moves.keeps {α : Type} {x : Exec α} (h : Moves x) (s : RunState) : Keeps x s :=
  h.quiet.keeps s

theorem Moves.balances {α : Type} {x : Exec α} (h : Moves x) (s : RunState) : Balances x s :=
  (h.keeps s).balances

/-- Writing changes the fields of a writer. -/
theorem keeps_write (procedure : String) (proc : CodecProc) (s : RunState) :
    Keeps (codecOp procedure (.write proc)) s := by
  refine ((moves_pop procedure).keeps s).bind fun v s₁ _ =>
    ((moves_pop procedure).keeps s₁).bind fun w s₂ _ =>
    ((moves_lift w.asWriter).keeps s₂).bind fun handle s₃ _ =>
    ((moves_lift (Wire.check proc.type v)).keeps s₃).bind fun _ s₄ _ =>
    (moves_get.keeps s₄).bind fun s₅ s₆ hget =>
    ((moves_lift _).keeps s₆).bind fun writers s₇ hwritten => ?_
  cases hget
  obtain ⟨hwrite, rfl⟩ := ok_of_lift hwritten
  exact ⟨rfl, .of_write hwrite⟩

/-- Straight instructions leave the locals alone, and the writers balance. -/
theorem keeps_straight (hi : i.isStraight = true) (s : RunState) :
    Keeps (instruction object procedure enter inner i) s := by
  have hadvance : ∀ {x : Exec Unit}, Quiet x →
      Keeps (x >>= fun _ => (pure .advance : Exec Next)) s :=
    fun h => (h.bind fun _ => (moves_pure _).quiet).keeps s
  cases i with
  | loadSelf => exact hadvance (moves_push _).quiet
  | loadArg index => exact hadvance (moves_loadArg procedure index).quiet
  | loadLocal index => exact hadvance (moves_loadLocal procedure index).quiet
  | loadConst c => exact hadvance (moves_push _).quiet
  | pop => exact ((moves_pop procedure).bind fun _ => moves_pure _).keeps s
  | call callee =>
    cases callee with
    | intrinsic i => exact hadvance (quiet_intrinsic object procedure i)
    | codec op =>
      cases op with
      | read proc => exact hadvance (moves_read procedure proc).quiet
      | write proc =>
        exact (keeps_write procedure proc s).bind fun _ s' _ => (moves_pure _).keeps s'
      | acquire | release => cases hi
    | external symbol arity =>
      have hexternal : ∀ args, Quiet (onHost (·.callExternal symbol args)) :=
        fun _ => quiet_onHost fun _ => rfl
      exact ((moves_popMany procedure arity).quiet.bind fun args =>
        (hexternal args).bind fun _ => (moves_pure _).quiet).keeps s
    | method | base => cases hi
  | jump label => exact (moves_pure _).keeps s
  | jumpIfTrue label => exact ((moves_popBool procedure).bind fun _ => moves_pure _).keeps s
  | jumpIfFalse label => exact ((moves_popBool procedure).bind fun _ => moves_pure _).keeps s
  | jumpIfNull label => exact ((moves_pop procedure).bind fun _ => moves_pure _).keeps s
  | mark label => exact (moves_pure _).keeps s
  | warn text => exact hadvance (quiet_onHost fun _ => rfl)
  | leave => exact (moves_pure _).keeps s
  | storeLocal | region => cases hi

theorem balances_storeLocal (procedure : String) (index : Nat) (s : RunState) :
    Balances (storeLocal procedure index) s := by
  refine ((moves_pop procedure).balances s).bind fun v s₁ _ =>
    (moves_get.balances s₁).bind fun s₂ s₃ _ => ?_
  by_cases h : index < s₂.frame.locals.length
  · rw [if_pos h]
    exact .refl _
  · rw [if_neg h]
    exact .refl _

/-- A call ends where the procedure does that it enters. -/
theorem finalState_calling {v : Bool} {m : MethodRef} {args : List Value} {s' : RunState}
    (hcall : i.calling? = some (v, m))
    (htaken : popMany procedure m.arity s = .ok (.self :: args) s') :
    finalState (instruction object procedure enter inner i) s = finalState (enter v m args) s' := by
  rw [finalState, instruction_calling hcall htaken, bind_apply, finalState]
  cases enter v m args s' <;> rfl

/-- What a call balances is what the procedure does that it enters. -/
theorem balances_callMethod {m : MethodRef} {enter : List Value → Exec Unit}
    (h : ∀ args s', popMany procedure m.arity s = .ok (.self :: args) s' →
      Balances (enter args) s') : Balances (callMethod procedure m enter) s := by
  refine ((moves_popMany procedure m.arity).balances s).bind fun taken s' htaken => ?_
  rcases taken with _ | ⟨receiver, args⟩
  · exact .refl _
  · cases receiver with
    | self => exact h args s' htaken
    | _ => exact .refl _

/-- An instruction that takes no writer balances if the procedure that it calls does, and the blocks
in it do. -/
theorem balances_instruction (hi : i.pools = false)
    (henter : ∀ v m, i.calling? = some (v, m) → ∀ args s',
      popMany procedure m.arity s = .ok (.self :: args) s' → Balances (enter v m args) s')
    (hinner : ∀ body cleanup, i = .region body cleanup → Balances (inner body) s ∧
      Balances (inner cleanup) (finalState (inner body) s)) :
    Balances (instruction object procedure enter inner i) s := by
  have hdone : ∀ s', Balances (pure .advance : Exec Next) s' := fun s' => .refl _
  cases i with
  | storeLocal index => exact (balances_storeLocal procedure index s).bind fun _ s' _ => hdone s'
  | call callee =>
    cases callee with
    | method m => exact (balances_callMethod (henter true m rfl)).bind fun _ s' _ => hdone s'
    | base m => exact (balances_callMethod (henter false m rfl)).bind fun _ s' _ => hdone s'
    | codec op =>
      cases op with
      | acquire | release => cases hi
      | _ => exact (keeps_straight rfl s).balances
    | _ => exact (keeps_straight rfl s).balances
  | region body cleanup =>
    obtain ⟨hbody, hcleanup⟩ := hinner body cleanup rfl
    rw [Balances, finalState_region]
    exact hbody.trans hcleanup
  | _ => exact (keeps_straight rfl s).balances

end Exec

/-! ### Runs that are never short of steps -/

namespace Assembly

open Exec

variable {a : Assembly} {object : NetObject} {procedure : String}
  {block rest found packing : Block} {i operand : Instruction} {frame : Frame} {host : Host}
  {packet : Option Wire.Bits} {n : Nat} {s : RunState} {x y : Place}

/-- Wherever the run from a place leads to, there is a step left for the next instruction. -/
def Affords (a : Assembly) (object : NetObject) (x : Place) : Prop :=
  ∀ y, ReflTransGen (a.Leads object) x y → y.rest ≠ [] → y.state.stepsLeft ≠ 0

theorem Affords.of_leads (h : a.Affords object x) (hxy : a.Leads object x y) :
    a.Affords object y :=
  fun z hyz => h z (.head hxy hyz)

theorem Affords.step
    (h : a.Affords object ⟨procedure, block, i :: rest, ⟨frame, host, packet, n⟩⟩) :
    ∃ k, n = k + 1 :=
  Nat.exists_eq_succ_of_ne_zero (h _ .refl (List.cons_ne_nil i rest))

/-- A run ends where what follows its first instruction ends. -/
theorem finalState_run_cons (procedure : String) (block rest : Block) (i : Instruction)
    (frame : Frame) (host : Host) (packet : Option Wire.Bits) (n : Nat) :
    finalState (a.run object procedure block (i :: rest)) ⟨frame, host, packet, n + 1⟩ =
      finalState (a.perform object procedure i >>=
        proceed (a.run object procedure block) block rest) ⟨frame, host, packet, n⟩ := by
  rw [finalState, finalState, run_cons]
  rfl

/-- A call ends where the procedure does, in the frame of the caller. -/
theorem finalState_enter {v : Bool} {m : MethodRef} {args : List Value} {p : Procedure}
    {body : Body} (hcallee : a.calleeOf object v m = .ok p) (hbody : p.body = some body) :
    finalState (a.enter object (fun name code => a.run object name code code) v m args) s =
      { finalState (a.run object p.name body.code body.code) (Place.entry p body args s).state with
        frame := s.frame } := by
  obtain ⟨frame, host, packet, n⟩ := s
  rw [finalState, finalState, enter_eq hcallee hbody, Place.entry]
  simp only
  cases a.run object p.name body.code body.code
    ⟨⟨args, List.replicate body.locals.length .null, []⟩, host, packet, n⟩ <;> rfl

/-- At most as many steps are left at the end of a run as at the end of a run that it leads to. -/
theorem Leads.ends (h : a.Leads object x y) :
    (finalState (a.run object x.procedure x.block x.rest) x.state).stepsLeft ≤
      (finalState (a.run object y.procedure y.block y.rest) y.state).stepsLeft := by
  have hspent : ∀ procedure block rest i frame host packet n,
      (finalState (a.run object procedure block (i :: rest))
        ⟨frame, host, packet, n + 1⟩).stepsLeft ≤
        (finalState (a.perform object procedure i) ⟨frame, host, packet, n⟩).stepsLeft := by
    intro procedure block rest i frame host packet n
    rw [finalState_run_cons, finalState_bind, finalState]
    cases a.perform object procedure i ⟨frame, host, packet, n⟩ with
    | error e s => exact Nat.le_refl _
    | ok next s =>
      have hrun : ∀ rest, Agree s.stepsLeft (a.run object procedure block rest)
          (a.run object procedure block rest) := agree_run_self _ procedure block
      exact (agree_proceed hrun block rest next s (Nat.le_refl _)).2
  cases h with
  | enter hcalls hcallee hbody =>
    obtain ⟨hcall, htaken⟩ := hcalls
    refine Nat.le_trans (hspent ..) (Nat.le_of_eq ?_)
    rw [perform, finalState_calling hcall htaken, finalState_enter hcallee hbody]
    rfl
  | body =>
    refine Nat.le_trans (hspent ..) ?_
    rw [perform, finalState_region]
    exact run_spends ..
  | cleanup =>
    refine Nat.le_trans (hspent ..) (Nat.le_of_eq ?_)
    rw [perform, finalState_region]
  | advance hdone =>
    rw [finalState_run_cons, finalState_bind, hdone]
    exact Nat.le_refl _
  | jump hdone hfound =>
    rw [finalState_run_cons, finalState_bind, hdone]
    simp only [proceed_goto _ hfound, Nat.le_refl]

/-- A run that has steps left at its end was never short of them. -/
theorem affords_of_stepsLeft
    (h : (finalState (a.run object x.procedure x.block x.rest) x.state).stepsLeft ≠ 0) :
    a.Affords object x := by
  intro y hxy
  induction hxy using ReflTransGen.head_induction_on with
  | refl =>
    obtain ⟨procedure, block, rest, ⟨frame, host, packet, left⟩⟩ := y
    rintro hrest rfl
    obtain ⟨i, rest, rfl⟩ := List.exists_cons_of_ne_nil hrest
    rw [finalState, run_stop] at h
    exact h rfl
  | head hxz _ ih =>
    exact ih fun hnone => h (Nat.le_zero.mp (hnone ▸ hxz.ends))

/-- What relates the states before and after the first instruction, and before and after the run
wherever it goes on, relates those before and after the whole run. -/
theorem relates_run_cons {R : RunState → RunState → Prop} (hrefl : ∀ s, R s s)
    (htrans : ∀ {a b c}, R a b → R b c → R a c)
    (hone : R ⟨frame, host, packet, n⟩
      (finalState (a.perform object procedure i) ⟨frame, host, packet, n⟩))
    (hadvance : ∀ s, a.perform object procedure i ⟨frame, host, packet, n⟩ = .ok .advance s →
      R s (finalState (a.run object procedure block rest) s))
    (hjump : ∀ label found s,
      a.perform object procedure i ⟨frame, host, packet, n⟩ = .ok (.goto label) s →
      block.from? label = some found → R s (finalState (a.run object procedure block found) s)) :
    R ⟨frame, host, packet, n⟩
      (finalState (a.run object procedure block (i :: rest)) ⟨frame, host, packet, n + 1⟩) := by
  rw [finalState_run_cons]
  refine relates_bind htrans hone fun next s hdone => ?_
  cases next with
  | advance => exact hadvance s hdone
  | leave => exact hrefl s
  | goto label =>
    rw [proceed]
    cases hfound : block.from? label with
    | none => exact hrefl s
    | some found => exact hjump label found s hdone hfound

/-- A run through straight instructions leaves the locals alone, and the writers balance. -/
theorem keeps_run (a : Assembly) (object : NetObject) (procedure : String)
    (hblock : ∀ i ∈ block, i.isStraight = true) (hrest : ∀ i ∈ rest, i.isStraight = true)
    (s : RunState) : Keeps (a.run object procedure block rest) s := by
  induction hsteps : s.stepsLeft using Nat.strongRecOn generalizing rest s with
  | ind steps ih =>
    obtain ⟨frame, host, packet, left⟩ := s
    cases rest with
    | nil =>
      rw [Keeps, finalState, run_nil]
      exact .refl _
    | cons i rest =>
      cases left with
      | zero =>
        rw [Keeps, finalState, run_stop]
        exact .refl _
      | succ n =>
        have hlater : ∀ found s next, (∀ i ∈ found, i.isStraight = true) →
            a.perform object procedure i ⟨frame, host, packet, n⟩ = .ok next s →
            Keeps (a.run object procedure block found) s := by
          intro found s next hfound hdone
          have hspent := spends_of_perform hdone
          have hfewer : s.stepsLeft < steps := by
            rw [← hsteps]
            exact Nat.lt_succ_of_le hspent
          exact ih _ hfewer hfound s rfl
        have hwhole := relates_run_cons RunState.Keeps.refl RunState.Keeps.trans
          (keeps_straight (hrest i List.mem_cons_self) ⟨frame, host, packet, n⟩)
          (fun s hdone => hlater rest s _ (fun k hk => hrest k (List.mem_cons_of_mem _ hk)) hdone)
          (fun label found s hdone hfound => hlater found s _
            (fun k hk => hblock k ((Block.suffix_of_from? hfound).mem hk)) hdone)
        exact ⟨hwhole.locals, hwhole.balances⟩

/-! ### Taking a writer and giving it back -/

/-- A run that is never short of steps goes on with the next instruction, if the first one goes
well whatever is left of the steps. -/
theorem Affords.advance {frame' : Frame} {host' : Host} {packet' : Option Wire.Bits}
    (h : a.Affords object ⟨procedure, block, i :: rest, ⟨frame, host, packet, n⟩⟩)
    (hdone : ∀ k, a.perform object procedure i ⟨frame, host, packet, k⟩ =
      .ok .advance ⟨frame', host', packet', k⟩) :
    ∃ k, a.Affords object ⟨procedure, block, rest, ⟨frame', host', packet', k⟩⟩ ∧
      a.run object procedure block (i :: rest) ⟨frame, host, packet, n⟩ =
        a.run object procedure block rest ⟨frame', host', packet', k⟩ := by
  obtain ⟨k, rfl⟩ := h.step
  have hfirst := hdone k
  refine ⟨k, h.of_leads (.advance hfirst), ?_⟩
  rw [perform] at hfirst
  rw [run_cons, bind_apply, hfirst]
  rfl

variable {args locals stack : List Value} {v : Value}

/-- The operand for the channel is loaded, or is not there. -/
theorem perform_operand (a : Assembly) (object : NetObject) (procedure : String)
    (h : operand.isOperand = true) (args locals stack : List Value) (host : Host)
    (packet : Option Wire.Bits) :
    (∃ v, ∀ n, a.perform object procedure operand ⟨⟨args, locals, stack⟩, host, packet, n⟩ =
      .ok .advance ⟨⟨args, locals, v :: stack⟩, host, packet, n⟩) ∨
    ∃ e, ∀ n, a.perform object procedure operand ⟨⟨args, locals, stack⟩, host, packet, n⟩ =
      .error e ⟨⟨args, locals, stack⟩, host, packet, n⟩ := by
  cases operand with
  | loadConst c => exact .inl ⟨_, fun _ => rfl⟩
  | loadArg index =>
    cases hv : args[index]? with
    | none =>
      refine .inr ⟨.unboundArgument procedure index, fun n => ?_⟩
      rw [perform, instruction, bind_apply, loadArg, bind_apply]
      simp only [get_apply, hv]
      rfl
    | some v => exact .inl ⟨v, fun _ => perform_loadArg hv⟩
  | _ => cases h

theorem host_run_leave (a : Assembly) (object : NetObject) (procedure : String) (block : Block)
    (s : RunState) : (finalState (a.run object procedure block [.leave]) s).host = s.host := by
  obtain ⟨frame, host, packet, _ | n⟩ := s
  · rfl
  · rw [finalState, run_leave]

/-- Nothing that follows a region at the end of a lending procedure touches the writers. -/
theorem writers_run_region (a : Assembly) (object : NetObject) (procedure : String)
    (block body cleanup : Block) (frame : Frame) (host : Host) (packet : Option Wire.Bits)
    (n : Nat) :
    (finalState (a.run object procedure block [.region body cleanup, .leave])
        ⟨frame, host, packet, n + 1⟩).host.writers =
      (finalState (a.run object procedure cleanup cleanup)
        (finalState (a.run object procedure body body)
          ⟨frame, host, packet, n⟩)).host.writers := by
  rw [finalState_run_cons, finalState_bind, perform, instruction_region]
  cases hresult : regionResult (ending (a.run object procedure body body) ⟨frame, host, packet, n⟩)
    (ending (a.run object procedure cleanup cleanup) _) with
  | error e => rfl
  | ok next =>
    cases next with
    | advance => exact congrArg Host.writers (host_run_leave ..)
    | leave => rfl
    | goto label => exact absurd hresult (regionResult_ne_goto _ _ label)

/-- The writer of a lending procedure is given back, however the packing ended. -/
theorem balances_cleanup {before : WriterPool}
    (hlocal : s.frame.locals[1]? = some (.writer before.acquire.1))
    (hused : before.acquire.2.Balances s.host.writers)
    (hbudget : a.Affords object
      ⟨procedure, [.loadLocal 1, .codec .release], [.loadLocal 1, .codec .release], s⟩) :
    before.Balances (finalState (a.run object procedure [.loadLocal 1, .codec .release]
      [.loadLocal 1, .codec .release]) s).host.writers := by
  obtain ⟨⟨args, locals, stack⟩, host, packet, n⟩ := s
  -- the writer is in use, since it was when it was taken
  have hstill : (host.writers.fields? before.acquire.1).isSome = true := by
    rw [hused.used, WriterPool.fields?_acquire_self]
    rfl
  obtain ⟨after, hafter⟩ := WriterPool.release_of_used hstill
  obtain ⟨k, hbudget, hrun⟩ := hbudget.advance fun _ => perform_loadLocal hlocal
  obtain ⟨m, rfl⟩ := hbudget.step
  rw [finalState, hrun, run_release hafter, run_nil]
  exact .of_lent hused hafter

/-- A lending procedure that has asked its questions takes one writer and gives it back, or fails
before that. -/
theorem balances_lendingTail (hoperand : operand.isOperand = true)
    (hpacking : ∀ i ∈ packing, i.isStraight = true) (htwo : s.frame.locals.length = 2)
    (hbudget : a.Affords object ⟨procedure, block, Block.lendingTail operand packing, s⟩) :
    Balances (a.run object procedure block (Block.lendingTail operand packing)) s := by
  obtain ⟨⟨args, locals, stack⟩, host, packet, n⟩ := s
  have htwo : locals.length = 2 := htwo
  rcases perform_operand a object procedure hoperand args locals stack host packet with
    ⟨v, hdone⟩ | ⟨e, hfailed⟩
  · -- the operand is stored, and so is the writer that is taken
    obtain ⟨_, hbudget, hloaded⟩ := hbudget.advance hdone
    obtain ⟨_, hbudget, hstored⟩ := hbudget.advance
      fun _ => perform_storeLocal (show 0 < locals.length by omega)
    obtain ⟨_, hbudget, htaken⟩ := hbudget.advance fun _ => perform_acquire
    obtain ⟨k, hbudget, hkept⟩ := hbudget.advance
      fun _ => perform_storeLocal (show 1 < (locals.set 0 v).length by rw [List.length_set]; omega)
    obtain ⟨m, rfl⟩ := hbudget.step
    -- it is still there when the packing has ended
    have hpacked := keeps_run a object procedure hpacking hpacking
      ⟨⟨args, (locals.set 0 v).set 1 (.writer host.writers.acquire.1), stack⟩,
        { host with writers := host.writers.acquire.2 }, packet, m⟩
    rw [Balances, RunState.Balances, finalState, Block.lendingTail, hloaded, hstored, htaken, hkept,
      ← finalState, writers_run_region]
    refine balances_cleanup ?_ hpacked.balances (hbudget.of_leads .cleanup)
    rw [hpacked.locals]
    simp [htwo]
  · obtain ⟨k, rfl⟩ := hbudget.step
    rw [Balances, Block.lendingTail, finalState_run_cons, finalState_bind, hfailed]
    exact .refl _

end Assembly

/-! ### Whole runs -/

/-- A place in modest code, or among the questions of a lending procedure. -/
inductive Place.Settled : Place → Prop
  | modest {procedure : String} {block rest : Block} {s : RunState} (hblock : block.Modest)
      (hrest : rest.Modest) : Settled ⟨procedure, block, rest, s⟩
  | lending {procedure : String} {guard rest packing : Block} {operand : Instruction}
      {s : RunState} (hguard : ∀ i ∈ guard, i.isStraight = true) (hrest : rest <:+ guard)
      (hoperand : operand.isOperand = true) (hpacking : ∀ i ∈ packing, i.isStraight = true)
      (htwo : s.frame.locals.length = 2) :
      Settled ⟨procedure, guard ++ Block.lendingTail operand packing,
        rest ++ Block.lendingTail operand packing, s⟩

theorem Body.Solvent.settled {body : Body} (h : body.Solvent) (p : Procedure) (args : List Value)
    (s : RunState) : (Place.entry p body args s).Settled := by
  rcases h with hmodest | ⟨⟨guard, operand, packing, hcode, hguard, hoperand, hpacking⟩, htwo⟩
  · exact .modest hmodest hmodest
  · rw [Place.entry, hcode]
    exact .lending hguard List.suffix_rfl hoperand hpacking
      (by rw [List.length_replicate]; exact htwo)

namespace Assembly

open Exec

variable {a : Assembly} {object : NetObject} {x : Place}

/-- A call balances if the procedure that it enters does. -/
theorem balances_enter {v : Bool} {m : MethodRef} {args : List Value} {s : RunState}
    (h : ∀ p body, a.calleeOf object v m = .ok p → p.body = some body →
      (Place.entry p body args s).state.Balances
        (finalState (a.run object p.name body.code body.code) (Place.entry p body args s).state)) :
    Balances (a.enter object (fun name code => a.run object name code code) v m args) s := by
  cases hcallee : a.calleeOf object v m with
  | error e =>
    rw [Balances, finalState, enter_of_error hcallee]
    exact .refl _
  | ok p =>
    cases hbody : p.body with
    | none =>
      rw [Balances, finalState, enter_of_pending hcallee hbody]
      exact .refl _
    | some body =>
      rw [Balances, finalState_enter hcallee hbody]
      -- the frame of the caller comes back, which has nothing to do with the writers
      exact h p body hcallee hbody

/-- A run balances if its first instruction does, and wherever it goes on. -/
theorem balances_run_cons {procedure : String} {block rest : Block} {i : Instruction}
    {frame : Frame} {host : Host} {packet : Option Wire.Bits} {n : Nat}
    (hone : Balances (a.perform object procedure i) ⟨frame, host, packet, n⟩)
    (hadvance : ∀ s, a.perform object procedure i ⟨frame, host, packet, n⟩ = .ok .advance s →
      Balances (a.run object procedure block rest) s)
    (hjump : ∀ label found s,
      a.perform object procedure i ⟨frame, host, packet, n⟩ = .ok (.goto label) s →
      block.from? label = some found → Balances (a.run object procedure block found) s) :
    Balances (a.run object procedure block (i :: rest)) ⟨frame, host, packet, n + 1⟩ := by
  have hspent : RunState.Balances ⟨frame, host, packet, n + 1⟩ ⟨frame, host, packet, n⟩ :=
    WriterPool.Balances.refl host.writers
  exact hspent.trans
    (relates_run_cons RunState.Balances.refl RunState.Balances.trans hone hadvance hjump)

/-- From a settled place of a run that is never short of steps, as many writers are taken as given
back, if all procedures that are called are solvent. -/
theorem balances_of_settled
    (hsolvent : ∀ v m p body, a.calleeOf object v m = .ok p → p.body = some body → body.Solvent)
    (hx : x.Settled) (hbudget : a.Affords object x) :
    Balances (a.run object x.procedure x.block x.rest) x.state := by
  induction hsteps : x.state.stepsLeft using Nat.strongRecOn generalizing x with
  | ind steps ih =>
    have hlater : ∀ {procedure block rest s}, a.Leads object x ⟨procedure, block, rest, s⟩ →
        Place.Settled ⟨procedure, block, rest, s⟩ →
        Balances (a.run object procedure block rest) s := fun hxy hy =>
      ih _ (hsteps ▸ hxy.spends) hy (hbudget.of_leads hxy) rfl
    cases hx with
    | @modest procedure block rest s hblock hrest =>
      cases rest with
      | nil =>
        rw [Balances, finalState, run_nil]
        exact .refl _
      | cons i rest =>
        obtain ⟨frame, host, packet, left⟩ := s
        obtain ⟨n, rfl⟩ := hbudget.step
        have hone : Balances (a.perform object procedure i) ⟨frame, host, packet, n⟩ := by
          refine balances_instruction hrest.head (fun v m hcall args s' htaken => ?_) ?_
          · refine balances_enter fun p body hcallee hbody => ?_
            exact hlater (.enter (.intro hcall htaken) hcallee hbody)
              ((hsolvent v m p body hcallee hbody).settled p args s')
          · rintro body cleanup rfl
            obtain ⟨hbody, hcleanup⟩ := hrest.of_region
            have hran : Balances (a.run object procedure body body) ⟨frame, host, packet, n⟩ :=
              hlater .body (.modest hbody hbody)
            have hcleaned : Balances (a.run object procedure cleanup cleanup)
                (finalState (a.run object procedure body body) ⟨frame, host, packet, n⟩) :=
              hlater .cleanup (.modest hcleanup hcleanup)
            exact ⟨hran, hcleaned⟩
        exact balances_run_cons hone
          (fun s hdone => hlater (.advance hdone)
            (.modest hblock (Block.modest_cons.mp hrest).2))
          (fun label found s hdone hfound => hlater (.jump hdone hfound)
            (.modest hblock (hblock.of_suffix (Block.suffix_of_from? hfound))))
    | @lending procedure guard rest packing operand s hguard hrest hoperand hpacking htwo =>
      cases rest with
      | nil => exact balances_lendingTail hoperand hpacking htwo hbudget
      | cons i rest =>
        obtain ⟨frame, host, packet, left⟩ := s
        obtain ⟨n, rfl⟩ := hbudget.step
        have hone : Keeps (a.perform object procedure i) ⟨frame, host, packet, n⟩ :=
          keeps_straight (hguard i (hrest.mem List.mem_cons_self)) _
        -- a question stores nothing, so both locals are there afterwards
        have hlocals : ∀ {next s'}, a.perform object procedure i ⟨frame, host, packet, n⟩ =
            .ok next s' → s'.frame.locals.length = 2 := by
          intro next s' hdone
          have hsame := hone.locals
          rw [finalState, hdone] at hsame
          rw [hsame]
          exact htwo
        refine balances_run_cons hone.balances
          (fun s hdone => ?_) (fun label found s hdone hfound => ?_)
        · exact hlater (.advance hdone) (.lending hguard ((List.suffix_cons i rest).trans hrest)
            hoperand hpacking (hlocals hdone))
        · obtain ⟨later, hlast, rfl⟩ := Block.split_of_from?
            (Block.from?_lendingTail hoperand packing label) hfound
          exact hlater (.jump hdone hfound)
            (.lending hguard hlast hoperand hpacking (hlocals hdone))

end Assembly

end RpcLoom
