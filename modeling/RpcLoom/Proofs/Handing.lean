/-
RpcLoom/Proofs/Handing.lean

What one instruction hands to the host.

Design.  A host gains what is added to its records (`Host.Gains`): calls, warnings,
external calls and writers that are taken.  Gains add up.  Most of what instructions
are made of only moves values, and so leaves the host alone (`Exec.Inward`); an
instruction on its own hands one thing over at most, and takes no step besides the one
it costs (`Exec.hands_alone`).
-/
import RpcLoom.Proofs.Lending

namespace RpcLoom

/-! ### What a host gains -/

namespace Host

variable {host host₁ host₂ : Host} {j k n : Nat}

/-- At most so many things were handed to the host: calls to send, warnings, external calls and
requests for a writer.  The records only grow at their ends. -/
def Gains (host host' : Host) (n : Nat) : Prop :=
  ∃ sent warnings externalCalls acquired,
    host'.sent = host.sent ++ sent ∧ host'.warnings = host.warnings ++ warnings ∧
    host'.externalCalls = host.externalCalls ++ externalCalls ∧
    host'.writers.acquired = host.writers.acquired + acquired ∧
    sent.size + warnings.size + externalCalls.size + acquired ≤ n

theorem Gains.mono (h : host.Gains host₁ j) (hjk : j ≤ k) : host.Gains host₁ k := by
  obtain ⟨sent, warnings, externalCalls, acquired, hsent, hwarned, hcalled, htaken, hn⟩ := h
  exact ⟨sent, warnings, externalCalls, acquired, hsent, hwarned, hcalled, htaken,
    Nat.le_trans hn hjk⟩

/-- Writers that are written to or given back are not handed over anew. -/
theorem gains_writers {writers : WriterPool} (h : writers.acquired = host.writers.acquired) :
    host.Gains { host with writers } 0 := by
  refine ⟨#[], #[], #[], 0, ?_, ?_, ?_, h, Nat.le_refl 0⟩ <;> simp

theorem gains_refl (host : Host) : host.Gains host 0 := gains_writers rfl

theorem Gains.trans (h : host.Gains host₁ j) (h' : host₁.Gains host₂ k) :
    host.Gains host₂ (j + k) := by
  obtain ⟨sent, warnings, externalCalls, acquired, hsent, hwarned, hcalled, htaken, hj⟩ := h
  obtain ⟨sent', warnings', externalCalls', acquired', hsent', hwarned', hcalled', htaken', hk⟩ :=
    h'
  refine ⟨sent ++ sent', warnings ++ warnings', externalCalls ++ externalCalls',
    acquired + acquired', ?_, ?_, ?_, ?_, ?_⟩
  · rw [hsent', hsent, Array.append_assoc]
  · rw [hwarned', hwarned, Array.append_assoc]
  · rw [hcalled', hcalled, Array.append_assoc]
  · rw [htaken', htaken, Nat.add_assoc]
  · simp only [Array.size_append]
    omega

theorem gains_warn (host : Host) (text : String) : host.Gains (host.warn text) 1 := by
  refine ⟨#[], #[text], #[], 0, ?_, ?_, ?_, rfl, Nat.le_refl 1⟩ <;> simp [warn]

theorem gains_callExternal (host : Host) (symbol : String) (args : List Value) :
    host.Gains (host.callExternal symbol args) 1 := by
  refine ⟨#[], #[], #[⟨symbol, args⟩], 0, ?_, ?_, ?_, rfl, Nat.le_refl 1⟩ <;> simp [callExternal]

theorem gains_acquire (host : Host) :
    host.Gains { host with writers := host.writers.acquire.2 } 1 := by
  obtain ⟨hacquired, -⟩ := host.writers.counts_acquire
  refine ⟨#[], #[], #[], 1, ?_, ?_, ?_, hacquired, Nat.le_refl 1⟩ <;> simp

theorem gains_sent (host : Host) (call : SentCall) :
    host.Gains { host with sent := host.sent.push call } 1 := by
  refine ⟨#[call], #[], #[], 0, ?_, ?_, ?_, rfl, Nat.le_refl 1⟩ <;> simp

theorem gains_answer {object : NetObject} {i : Intrinsic} {args : List Value}
    {result : Option Value} (h : host.answer object i args = .ok (host₁, result)) :
    host.Gains host₁ 1 := by
  rcases of_answer h with rfl | ⟨call, rfl⟩
  · exact host₁.gains_refl.mono (Nat.zero_le 1)
  · exact host.gains_sent call

end Host

/-! ### What a computation takes and hands over -/

/-- Between two states so many steps were taken, and at most so many things handed to the host. -/
structure RunState.Spends (s s' : RunState) (steps handed : Nat) : Prop where
  steps : s'.stepsLeft + steps = s.stepsLeft
  gains : s.host.Gains s'.host handed

namespace RunState

variable {s s₁ s₂ : RunState} {i j k n : Nat}

theorem spends_refl (s : RunState) : s.Spends s 0 0 := ⟨rfl, s.host.gains_refl⟩

theorem Spends.mono (h : s.Spends s₁ i j) (hjk : j ≤ k) : s.Spends s₁ i k :=
  ⟨h.steps, h.gains.mono hjk⟩

theorem Spends.trans {i' j' : Nat} (h : s.Spends s₁ i j) (h' : s₁.Spends s₂ i' j') :
    s.Spends s₂ (i + i') (j + j') := by
  refine ⟨?_, h.gains.trans h'.gains⟩
  rw [← h.steps, ← h'.steps, Nat.add_right_comm, Nat.add_assoc]

end RunState

namespace Exec

variable {α β : Type} {x : Exec α} {f : α → Exec β} {s : RunState} {n : Nat}

/-- A computation takes no steps, and hands at most `n` things to the host. -/
abbrev Hands (n : Nat) (x : Exec α) (s : RunState) : Prop := s.Spends (finalState x s) 0 n

theorem Hands.bind {j k : Nat} (hx : Hands j x s)
    (hf : ∀ a s', x s = .ok a s' → Hands k (f a) s') : Hands (j + k) (x >>= f) s := by
  rw [Hands, finalState_bind]
  rw [Hands, finalState] at hx
  cases h : x s with
  | error e s' =>
    rw [h] at hx
    exact hx.mono (Nat.le_add_right j k)
  | ok a s' =>
    rw [h] at hx
    exact hx.trans (hf a s' h)

theorem hands_onHost {change : Host → Host} (h : s.host.Gains (change s.host) n) :
    Hands n (onHost change) s := ⟨rfl, h⟩

/-! ### What stays with the run -/

/-- A computation that takes no steps and leaves the host alone. -/
def Inward (x : Exec α) : Prop :=
  ∀ s, (finalState x s).stepsLeft = s.stepsLeft ∧ (finalState x s).host = s.host

theorem Inward.hands (h : Inward x) (n : Nat) (s : RunState) : Hands n x s := by
  obtain ⟨hsteps, hhost⟩ := h s
  refine ⟨hsteps, ?_⟩
  rw [hhost]
  exact s.host.gains_refl.mono (Nat.zero_le n)

theorem Moves.inward (h : Moves x) : Inward x := by
  intro s
  obtain ⟨stack, packet, hs⟩ := h s
  rw [hs]
  exact ⟨rfl, rfl⟩

theorem Moves.hands (h : Moves x) (n : Nat) (s : RunState) : Hands n x s := h.inward.hands n s

/-- What follows hands over as much as the whole. -/
theorem Moves.hands_bind (hx : Moves x) (hf : ∀ a s', x s = .ok a s' → Hands n (f a) s') :
    Hands n (x >>= f) s := by
  have h := (hx.hands 0 s).bind hf
  rwa [Nat.zero_add] at h

theorem hands_storeLocal (procedure : String) (index : Nat) (s : RunState) :
    Hands n (storeLocal procedure index) s := by
  refine (moves_pop procedure).hands_bind fun v s₁ _ => moves_get.hands_bind fun s₂ s₃ _ => ?_
  by_cases h : index < s₂.frame.locals.length
  · rw [if_pos h]
    exact Inward.hands (fun _ => ⟨rfl, rfl⟩) n s₃
  · rw [if_neg h]
    exact (moves_throw _).hands n s₃

/-! ### One instruction -/

theorem Hands.advance {x : Exec Unit} (h : Hands n x s) :
    Hands n (x >>= fun _ => (pure .advance : Exec Next)) s :=
  h.bind fun _ s' _ => (moves_pure _).hands 0 s'

theorem hands_intrinsic (object : NetObject) (procedure : String) (i : Intrinsic) (s : RunState) :
    Hands 1 (intrinsic object procedure i) s := by
  refine (moves_popMany procedure i.arity).hands_bind fun args s₁ _ =>
    moves_get.hands_bind fun s₂ s₃ hget =>
    (moves_lift _).hands_bind fun answer s₄ hanswer => ?_
  cases hget
  obtain ⟨hanswered, rfl⟩ := ok_of_lift hanswer
  -- the host that the intrinsic leaves takes the place of the old one
  have hhost : Hands 1 (onHost fun _ => answer.1) s₄ := hands_onHost (Host.gains_answer hanswered)
  refine hhost.bind fun _ s' _ => Moves.hands ?_ 0 s'
  cases answer.2 with
  | none => exact moves_pure ()
  | some v => exact moves_push v

theorem hands_setWriters {writers : WriterPool}
    (h : writers.acquired = s.host.writers.acquired) : Hands 1 (setWriters writers) s :=
  hands_onHost ((Host.gains_writers h).mono (Nat.zero_le 1))

/-- Only a writer that is taken is handed over; the others are filled and given back. -/
theorem hands_codecOp (procedure : String) (op : CodecOp) (s : RunState) :
    Hands 1 (codecOp procedure op) s := by
  cases op with
  | acquire =>
    refine moves_get.hands_bind fun s₁ s₂ hget => ?_
    cases hget
    have htaken : Hands 1 (setWriters s.host.writers.acquire.2) s :=
      hands_onHost s.host.gains_acquire
    exact htaken.bind fun _ s' _ => (moves_push _).hands 0 s'
  | release =>
    refine (moves_pop procedure).hands_bind fun w s₁ _ =>
      (moves_lift w.asWriter).hands_bind fun handle s₂ _ =>
      moves_get.hands_bind fun s₃ s₄ hget =>
      (moves_lift _).hands_bind fun writers s₅ hreleased => ?_
    cases hget
    obtain ⟨hrelease, rfl⟩ := ok_of_lift hreleased
    exact hands_setWriters (WriterPool.counts_release hrelease).1
  | write proc =>
    refine (moves_pop procedure).hands_bind fun v s₁ _ =>
      (moves_pop procedure).hands_bind fun w s₂ _ =>
      (moves_lift w.asWriter).hands_bind fun handle s₃ _ =>
      (moves_lift (Wire.check proc.type v)).hands_bind fun _ s₄ _ =>
      moves_get.hands_bind fun s₅ s₆ hget =>
      (moves_lift _).hands_bind fun writers s₇ hwritten => ?_
    cases hget
    obtain ⟨hwrite, rfl⟩ := ok_of_lift hwritten
    exact hands_setWriters (WriterPool.counts_write hwrite).1
  | read proc => exact (moves_read procedure proc).hands 1 s

/-- An instruction on its own: nothing that it calls or contains is run. -/
def alone (object : NetObject) (procedure : String) (i : Instruction) : Exec Next :=
  instruction object procedure (fun _ _ _ => pure ()) (fun _ => pure .fellThrough) i

theorem hands_alone (object : NetObject) (procedure : String) (i : Instruction) (s : RunState) :
    Hands 1 (alone object procedure i) s := by
  have hadvance : ∀ {x : Exec Unit}, Moves x →
      Hands 1 (x >>= fun _ => (pure .advance : Exec Next)) s :=
    fun h => (h.bind fun _ => moves_pure _).hands 1 s
  have hmethod : ∀ m : MethodRef, Moves (callMethod procedure m fun _ => pure ()) := by
    refine fun m => (moves_popMany procedure m.arity).bind fun taken => ?_
    rcases taken with _ | ⟨receiver, args⟩
    · exact moves_throw _
    · cases receiver with
      | self => exact moves_pure ()
      | _ => exact moves_throw _
  cases i with
  | loadSelf => exact hadvance (moves_push _)
  | loadArg index => exact hadvance (moves_loadArg procedure index)
  | loadLocal index => exact hadvance (moves_loadLocal procedure index)
  | storeLocal index => exact (hands_storeLocal procedure index s).advance
  | loadConst c => exact hadvance (moves_push _)
  | pop => exact ((moves_pop procedure).bind fun _ => moves_pure _).hands 1 s
  | call callee =>
    cases callee with
    | method m => exact hadvance (hmethod m)
    | base m => exact hadvance (hmethod m)
    | intrinsic i => exact (hands_intrinsic object procedure i s).advance
    | codec op => exact (hands_codecOp procedure op s).advance
    | external symbol arity =>
      exact (moves_popMany procedure arity).hands_bind fun args s' _ =>
        (hands_onHost (s'.host.gains_callExternal symbol args)).advance
  | jump label => exact (moves_pure _).hands 1 s
  | jumpIfTrue label => exact ((moves_popBool procedure).bind fun _ => moves_pure _).hands 1 s
  | jumpIfFalse label => exact ((moves_popBool procedure).bind fun _ => moves_pure _).hands 1 s
  | jumpIfNull label => exact ((moves_pop procedure).bind fun _ => moves_pure _).hands 1 s
  | mark label => exact (moves_pure _).hands 1 s
  | warn text => exact (hands_onHost (s.host.gains_warn text)).advance
  | region body cleanup => exact (moves_pure Next.advance).hands 1 s
  | leave => exact (moves_pure _).hands 1 s

end Exec

end RpcLoom
