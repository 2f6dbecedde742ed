/-
RpcLoom/Proofs/Expense.lean

What a run spends at least.

Design.  Code costs `k` if every run of it that ends well spends `k` steps or
more.  No run gives steps back, so all code costs nothing at least; from there a
cost is put together backwards, instruction by instruction.  A call costs what
the procedure costs that it runs, and a region what its body costs.  A procedure
that costs more than the budget does not end well when it is invoked
(`invoke_ne_ok`).
-/
import RpcLoom.Proofs.Answers

namespace RpcLoom

namespace Exec

variable {n : Nat} {object : NetObject} {procedure : String}
  {enter : Bool → MethodRef → List Value → Exec Unit} {inner : Block → Exec Flow}
  {i : Instruction} {next : Next} {s s' : RunState}

theorem ok_of_bind {α β : Type} {x : Exec α} {f : α → Exec β} {b : β}
    (h : (x >>= f) s = .ok b s') : ∃ a s₁, x s = .ok a s₁ ∧ f a s₁ = .ok b s' := by
  rw [bind_apply] at h
  cases hx : x s with
  | error e s₁ => simp [hx] at h
  | ok a s₁ => exact ⟨a, s₁, rfl, by simpa [hx] using h⟩

/-- What agrees with itself gives no steps back. -/
theorem Agree.spent {α : Type} {x : Exec α} {b : α} (h : Agree s.stepsLeft x x)
    (hx : x s = .ok b s') : s'.stepsLeft ≤ s.stepsLeft := by
  have hspent := (h s (Nat.le_refl _)).2
  rw [finalState, hx] at hspent
  exact hspent

/-- Whether an instruction can do nothing but go on, if it does not fail. -/
def goesOn : Instruction → Bool
  | .jump _ | .jumpIfTrue _ | .jumpIfFalse _ | .jumpIfNull _ | .region .. | .leave => false
  | _ => true

theorem advance_of_goesOn (hi : goesOn i = true)
    (h : instruction object procedure enter inner i s = .ok next s') : next = .advance := by
  -- all instructions but the jumps and regions do something and then go on
  have hpure : ∀ {α : Type} (x : Exec α),
      (x >>= fun _ => (pure .advance : Exec Next)) s = .ok next s' → next = .advance := by
    intro α x h
    obtain ⟨_, _, -, h⟩ := ok_of_bind h
    cases h
    rfl
  cases i with
  | jump | jumpIfTrue | jumpIfFalse | jumpIfNull | region | leave => cases hi
  | call callee =>
    cases callee with
    | external symbol arity =>
      obtain ⟨_, _, -, h⟩ := ok_of_bind h
      obtain ⟨_, _, -, h⟩ := ok_of_bind h
      cases h
      rfl
    | _ => exact hpure _ h
  | mark =>
    cases h
    rfl
  | _ => exact hpure _ h

end Exec

namespace Assembly

open Exec

variable {a : Assembly} {object : NetObject} {code rest body cleanup : Block} {j k : Nat}
  {i : Instruction} {m : MethodRef} {p : Procedure}

/-- Every run through code that ends well spends at least `k` steps. -/
def Costs (a : Assembly) (object : NetObject) (code : Block) (k : Nat) : Prop :=
  ∀ procedure block s flow s', a.run object procedure block code s = .ok flow s' →
    s'.stepsLeft + k ≤ s.stepsLeft

theorem agree_self (a : Assembly) (object : NetObject) (procedure : String) (block code : Block)
    (n : Nat) :
    Agree n (a.run object procedure block code) (a.run object procedure block code) :=
  fun s _ => ⟨rfl, ((agree_run procedure block code).symm s (Nat.le_refl _)).2⟩

theorem costs_zero (a : Assembly) (object : NetObject) (code : Block) :
    a.Costs object code 0 := by
  intro procedure block s flow s' h
  exact (agree_self a object procedure block code _).spent h

theorem Costs.le (h : a.Costs object code k) (hj : j ≤ k) : a.Costs object code j :=
  fun _ _ _ _ _ hrun => Nat.le_trans (Nat.add_le_add_left hj _) (h _ _ _ _ _ hrun)

/-- A run that ends well executes its first instruction and goes on as that says, and neither gives
steps back. -/
theorem of_run_cons {procedure : String} {block : Block} {s s' : RunState} {flow : Flow}
    (h : a.run object procedure block (i :: rest) s = .ok flow s') :
    ∃ next s₀ s₁, s.stepsLeft = s₀.stepsLeft + 1 ∧
      instruction object procedure (a.enter object fun name code => a.run object name code code)
        (fun code => a.run object procedure code code) i s₀ = .ok next s₁ ∧
      s₁.stepsLeft ≤ s₀.stepsLeft ∧
      proceed (a.run object procedure block) block rest next s₁ = .ok flow s' ∧
      s'.stepsLeft ≤ s₁.stepsLeft := by
  obtain ⟨frame, host, packet, n⟩ := s
  cases n with
  | zero =>
    rw [run_stop] at h
    cases h
  | succ n =>
    rw [run_cons] at h
    obtain ⟨next, s₁, hfirst, hrest⟩ := ok_of_bind h
    have hinstruction := agree_instruction object procedure
      (agree_enter a object fun name code => agree_self a object name code code n)
      (fun code => agree_self a object procedure code code n) i
    have hproceed := agree_proceed (fun rest => agree_self a object procedure block rest
      s₁.stepsLeft) block rest next
    exact ⟨next, ⟨frame, host, packet, n⟩, s₁, rfl, hfirst, hinstruction.spent hfirst, hrest,
      hproceed.spent hrest⟩

/-- An instruction that goes on takes a step. -/
theorem Costs.cons (h : a.Costs object rest k) (hi : goesOn i = true) :
    a.Costs object (i :: rest) (k + 1) := by
  intro procedure block s flow s' hrun
  obtain ⟨next, s₀, s₁, hs, hfirst, hs₁, hrest, -⟩ := of_run_cons hrun
  obtain rfl := advance_of_goesOn hi hfirst
  have hspent := h _ _ _ _ _ hrest
  omega

theorem Costs.append (h : a.Costs object rest k) (hcode : ∀ i ∈ code, goesOn i = true) :
    a.Costs object (code ++ rest) (k + code.length) := by
  induction code with
  | nil => exact h
  | cons i code ih =>
    exact Costs.cons (ih fun x hx => hcode x (List.mem_cons_of_mem _ hx))
      (hcode i List.mem_cons_self)

theorem costs_cons (a : Assembly) (object : NetObject) (i : Instruction) (rest : Block) :
    a.Costs object (i :: rest) 1 := by
  intro procedure block s flow s' hrun
  obtain ⟨next, s₀, s₁, hs, -, hs₁, -, hs'⟩ := of_run_cons hrun
  omega

/-- A region takes a step and what its body costs. -/
theorem costs_region (hbody : a.Costs object body j) (cleanup rest : Block) :
    a.Costs object (.region body cleanup :: rest) (j + 1) := by
  intro procedure block s flow s' hrun
  obtain ⟨next, s₀, s₁, hs, hfirst, -, -, hs'⟩ := of_run_cons hrun
  obtain ⟨inner, s₂, hinner, hfirst⟩ := ok_of_bind hfirst
  obtain ⟨last, s₃, hlast, hresult⟩ := ok_of_bind hfirst
  have hcleanup := (agree_self a object procedure cleanup cleanup _).attempt.spent hlast
  cases inner with
  | error e => cases hresult
  | ok inner =>
    have hended : a.run object procedure body body s₀ = .ok inner s₂ := by
      rw [attempt] at hinner
      cases hrun : a.run object procedure body body s₀ with
      | error e s => simp [hrun] at hinner
      | ok f s => simpa [hrun] using hinner
    have hspent := hbody _ _ _ _ _ hended
    have hdone := (agree_lift (regionResult (.ok inner) last)).spent hresult
    omega

/-- A procedure that is entered and ends well spends what its code costs. -/
theorem spent_of_enter {isVirtualCall : Bool} {given : List Value} {s s' : RunState} {b : Body}
    (hcallee : a.calleeOf object isVirtualCall m = .ok p) (hbody : p.body = some b)
    (h : a.Costs object b.code j)
    (hrun : a.enter object (fun name code => a.run object name code code) isVirtualCall m given s =
      .ok () s') : s'.stepsLeft + j ≤ s.stepsLeft := by
  obtain ⟨frame, host, packet, n⟩ := s
  rw [enter_eq hcallee hbody] at hrun
  cases hinner : a.run object p.name b.code b.code
    ⟨⟨given, List.replicate b.locals.length .null, []⟩, host, packet, n⟩ with
  | error e s₁ => simp [hinner] at hrun
  | ok flow s₁ =>
    rw [hinner] at hrun
    cases hrun
    have hspent := h _ _ _ _ _ hinner
    exact hspent

theorem spent_of_callMethod {isVirtualCall : Bool} {procedure : String} {s s' : RunState} {b : Body}
    (hcallee : a.calleeOf object isVirtualCall m = .ok p) (hbody : p.body = some b)
    (h : a.Costs object b.code j)
    (hrun : callMethod procedure m
      (a.enter object (fun name code => a.run object name code code) isVirtualCall m) s =
        .ok () s') : s'.stepsLeft + j ≤ s.stepsLeft := by
  obtain ⟨taken, s₁, hpop, hrun⟩ := ok_of_bind hrun
  have hpopped := (moves_popMany procedure m.arity).agree.spent hpop
  have hentered : ∃ given, a.enter object (fun name code => a.run object name code code)
      isVirtualCall m given s₁ = .ok () s' := by
    split at hrun
    · exact ⟨_, hrun⟩
    · cases hrun
    · cases hrun
  obtain ⟨given, hentered⟩ := hentered
  have hspent := spent_of_enter hcallee hbody h hentered
  omega

/-- A call takes a step and what the procedure costs that it runs. -/
theorem Costs.callee (h : a.Costs object rest k) {callee : Callee} {isVirtualCall : Bool} {b : Body}
    (hcode : ∀ procedure enter inner, instruction object procedure enter inner (.call callee) =
      (callMethod procedure m (enter isVirtualCall m) >>= fun _ => pure .advance))
    (hcallee : a.calleeOf object isVirtualCall m = .ok p) (hbody : p.body = some b)
    (hb : a.Costs object b.code j) : a.Costs object (.call callee :: rest) (k + j + 1) := by
  intro procedure block s flow s' hrun
  obtain ⟨next, s₀, s₁, hs, hfirst, -, hrest, -⟩ := of_run_cons hrun
  rw [hcode] at hfirst
  obtain ⟨_, s₂, hcall, hdone⟩ := ok_of_bind hfirst
  cases hdone
  have hspent := spent_of_callMethod hcallee hbody hb hcall
  have hmore := h _ _ _ _ _ hrest
  omega

theorem Costs.call (h : a.Costs object rest k) {b : Body}
    (hcallee : a.calleeOf object true m = .ok p) (hbody : p.body = some b)
    (hb : a.Costs object b.code j) : a.Costs object (.call (.method m) :: rest) (k + j + 1) :=
  h.callee (fun _ _ _ => rfl) hcallee hbody hb

theorem Costs.base (h : a.Costs object rest k) {b : Body}
    (hcallee : a.calleeOf object false m = .ok p) (hbody : p.body = some b)
    (hb : a.Costs object b.code j) : a.Costs object (.call (.base m) :: rest) (k + j + 1) :=
  h.callee (fun _ _ _ => rfl) hcallee hbody hb

/-- What costs more than the budget does not end well. -/
theorem invoke_ne_ok {isVirtualCall : Bool} {given : List Value} {packet : Option Wire.Bits}
    {host : Host} {b : Body} (hcallee : a.calleeOf object isVirtualCall m = .ok p)
    (hbody : p.body = some b) (h : a.Costs object b.code k) (hk : stepBudget < k) :
    (a.invoke object isVirtualCall m given packet host).1 ≠ .ok () := by
  rw [invoke_eq]
  intro hok
  cases hentered : a.enter object (fun name code => a.run object name code code) isVirtualCall m
    given ⟨⟨[], [], []⟩, host, packet, stepBudget⟩ with
  | error e s => simp [hentered] at hok
  | ok _ s =>
    have hspent := spent_of_enter hcallee hbody h hentered
    simp only at hspent
    omega

/-! ### Generated code -/

theorem Costs.loads (h : a.Costs object rest k) (arity : Nat) :
    a.Costs object ((List.range arity).map .loadArg ++ rest) (k + arity) := by
  have hgoesOn : ∀ i ∈ (List.range arity).map Instruction.loadArg, goesOn i = true := by
    intro i hi
    obtain ⟨index, -, rfl⟩ := List.mem_map.mp hi
    rfl
  have hloads := h.append hgoesOn
  rw [List.length_map, List.length_range] at hloads
  exact hloads

/-- Forwarding takes a step for each argument, and what the procedure costs that it runs. -/
theorem Costs.forward (h : a.Costs object rest k) {b : Body}
    (hcallee : a.calleeOf object true m = .ok p) (hbody : p.body = some b)
    (hb : a.Costs object b.code j) (arity : Nat) :
    a.Costs object (forward arity m ++ rest) (k + j + arity + 2) := by
  have hall := ((h.call hcallee hbody hb).loads arity).cons (i := .loadSelf) rfl
  have hcode : RpcLoom.forward arity m ++ rest =
      .loadSelf :: ((List.range arity).map .loadArg ++ .call (.method m) :: rest) := by
    simp [RpcLoom.forward]
  rw [hcode]
  exact hall.le (by omega)

theorem goesOn_packingCode (codec : Codec) (fields : List (Nat × Parameter)) (writer : Nat) :
    ∀ i ∈ codec.packingCode fields writer, goesOn i = true := by
  intro i hi
  obtain ⟨x, -, hi⟩ := List.mem_flatMap.mp hi
  rcases List.mem_cons.mp hi with rfl | hi
  · rfl
  · rcases List.mem_pair.mp hi with rfl | rfl <;> rfl

theorem length_packingCode (codec : Codec) (fields : List (Nat × Parameter)) (writer : Nat) :
    (codec.packingCode fields writer).length = 3 * fields.length := by
  simp [Codec.packingCode, Nat.mul_comm]

/-- A sender takes three steps for each field, unless a check turns the call away. -/
theorem costs_sender (a : Assembly) (object : NetObject) {loom : Loom} (c : Contract)
    (id : RpcId) (kind : Kind) (hguards : loom.settings.guards = false) :
    a.Costs object (loom.senderCode p c id kind)
      (3 * (c.layout.fields p.parameters).length + 5) := by
  have hpacking := (costs_zero a object (Loom.sendingCode c kind id)).append
    (goesOn_packingCode loom.codec (c.layout.fields p.parameters) 1)
  rw [length_packingCode] at hpacking
  have hregion := costs_region hpacking [.loadLocal 1, .codec .release] [.leave]
  have hoperand : goesOn (loom.channelOperand c) = true := by
    rw [Loom.channelOperand]
    cases c.layout.position? .channel <;> rfl
  have hall := (((hregion.cons (i := .storeLocal 1) rfl).cons (i := .codec .acquire) rfl).cons
    (i := .storeLocal 0) rfl).cons hoperand
  have hcode : loom.senderCode p c id kind = loom.channelOperand c :: .storeLocal 0 ::
      .codec .acquire :: .storeLocal 1 ::
      .region (loom.codec.packingCode (c.layout.fields p.parameters) 1 ++
        Loom.sendingCode c kind id) [.loadLocal 1, .codec .release] :: [.leave] := by
    simp [Loom.senderCode, Loom.senderGuard, hguards, Body.empty]
  rw [hcode]
  exact hall.le (by omega)

end Assembly

/-- A call that is sent as one kind by an unchecked sender, and whose logic runs here as well, does
not end well if all this costs more than the budget. -/
theorem Loom.Answers.call_ne_ok {loom : Loom} {a : Assembly} {object : NetObject}
    {p logic : Procedure} {c : Contract} {id : RpcId} {owner : String} {triad : Triad} {kind : Kind}
    {b : Body} {k : Nat} (h : Answers loom a object p c id owner triad logic)
    (hcodec : loom.codec.Honest) (hguards : loom.settings.guards = false)
    (hkinds : c.kinds = .single kind) (hlocally : c.runLocally = true)
    (hbody : logic.body = some b) (hlogic : a.Costs object b.code k)
    (hmuch : stepBudget < k + 3 * (c.layout.fields p.parameters).length +
      2 * p.parameters.length + 10) (args : List Value) (host : Host) :
    (a.call object p.name args host).1 ≠ .ok () := by
  have hkind : kind ∈ c.kinds.toList := by
    rw [hkinds]
    exact List.mem_singleton_self _
  obtain ⟨forwarder, hforwarder, hcallee⟩ := h.forwards
  obtain ⟨ref, sender, hwriter, -, hsender, hwriterCallee⟩ := h.sends kind hkind
  obtain ⟨b', hb', hcode, -⟩ := Loom.senderBody_eq loom hcodec h.keeps hkind id
  obtain rfl := Except.ok.inj (hb'.symm.trans hsender)
  have hsends := Assembly.costs_sender a object (p := p) c id kind hguards
  rw [← hcode] at hsends
  -- the costs of the forwarder, from its last instruction to its first
  have hall := ((Assembly.costs_cons a object .leave []).forward h.runs hbody hlogic
    p.parameters.length).forward hwriterCallee rfl hsends p.parameters.length
  have hforwards : forwarder.code = forward p.parameters.length ref ++
      (forward p.parameters.length triad.logicRef ++ [.leave]) := by
    unfold Triad.forwarderBody Triad.sendingBody at hforwarder
    simp only [hkinds, hwriter, hlocally, if_true] at hforwarder
    rw [← Except.ok.inj hforwarder]
    rfl
  rw [← hforwards] at hall
  rw [Assembly.call, h.named]
  exact Assembly.invoke_ne_ok hcallee rfl hall (by omega)

end RpcLoom
