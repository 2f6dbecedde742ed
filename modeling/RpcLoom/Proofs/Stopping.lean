/-
RpcLoom/Proofs/Stopping.lean

Runs stop, and how much they execute.

Design.  The rules `Runs`, `Performs` and `Enters` say how code is executed, with no
bound on how deep calls and regions nest or how often a run jumps back; only an
instruction for which no step is left is not executed.  They keep the instructions
that are executed, in order, in all procedures and blocks.

Every place has a run, since wherever a run leads to fewer steps are left
(`Assembly.stops`).  What the rules say is what the machine does (`Runs.sound`), and a
run takes as many steps as it executes instructions, each of which hands one thing over
at most (`Runs.paid`).

Main result.  `Errand.stops_in_budget`.
-/
import RpcLoom.Proofs.Handing
import RpcLoom.Proofs.Pooling

namespace RpcLoom

open Exec

/-! ### Execution without a bound -/

namespace Assembly

mutual

/-- A run from a place executes these instructions, and ends so, in this state. -/
inductive Runs (a : Assembly) (object : NetObject) :
    Place → List Instruction → Except Fault Flow → RunState → Prop
  /-- The block is done. -/
  | done {procedure : String} {block : Block} {s : RunState} :
      Runs a object ⟨procedure, block, [], s⟩ [] (.ok .fellThrough) s
  /-- There is an instruction, but no step is left for it. -/
  | spent {procedure : String} {block rest : Block} {i : Instruction} {frame : Frame} {host : Host}
      {packet : Option Wire.Bits} :
      Runs a object ⟨procedure, block, i :: rest, ⟨frame, host, packet, 0⟩⟩ []
        (.error (.stepLimit stepBudget)) ⟨frame, host, packet, 0⟩
  /-- The next instruction fails. -/
  | failed {procedure : String} {block rest : Block} {i : Instruction} {frame : Frame}
      {host : Host} {packet : Option Wire.Bits} {n : Nat} {inside : List Instruction} {e : Fault}
      {s : RunState}
      (hone : Performs a object procedure i ⟨frame, host, packet, n⟩ inside (.error e) s) :
      Runs a object ⟨procedure, block, i :: rest, ⟨frame, host, packet, n + 1⟩⟩
        (i :: inside) (.error e) s
  /-- The next instruction leaves the procedure. -/
  | left {procedure : String} {block rest : Block} {i : Instruction} {frame : Frame}
      {host : Host} {packet : Option Wire.Bits} {n : Nat} {inside : List Instruction} {s : RunState}
      (hone : Performs a object procedure i ⟨frame, host, packet, n⟩ inside (.ok .leave) s) :
      Runs a object ⟨procedure, block, i :: rest, ⟨frame, host, packet, n + 1⟩⟩
        (i :: inside) (.ok .returned) s
  /-- The run goes on behind the next instruction. -/
  | advanced {procedure : String} {block rest : Block} {i : Instruction} {frame : Frame}
      {host : Host} {packet : Option Wire.Bits} {n : Nat} {inside after : List Instruction}
      {r : Except Fault Flow} {s s' : RunState}
      (hone : Performs a object procedure i ⟨frame, host, packet, n⟩ inside (.ok .advance) s)
      (hrest : Runs a object ⟨procedure, block, rest, s⟩ after r s') :
      Runs a object ⟨procedure, block, i :: rest, ⟨frame, host, packet, n + 1⟩⟩
        (i :: inside ++ after) r s'
  /-- The run goes on at a label. -/
  | jumped {procedure : String} {block rest found : Block} {i : Instruction} {label : Label}
      {frame : Frame} {host : Host} {packet : Option Wire.Bits} {n : Nat}
      {inside after : List Instruction} {r : Except Fault Flow} {s s' : RunState}
      (hone : Performs a object procedure i ⟨frame, host, packet, n⟩ inside (.ok (.goto label)) s)
      (hfound : block.from? label = some found)
      (hrest : Runs a object ⟨procedure, block, found, s⟩ after r s') :
      Runs a object ⟨procedure, block, i :: rest, ⟨frame, host, packet, n + 1⟩⟩
        (i :: inside ++ after) r s'
  /-- There is no such label. -/
  | lost {procedure : String} {block rest : Block} {i : Instruction} {label : Label}
      {frame : Frame} {host : Host} {packet : Option Wire.Bits} {n : Nat}
      {inside : List Instruction} {s : RunState}
      (hone : Performs a object procedure i ⟨frame, host, packet, n⟩ inside (.ok (.goto label)) s)
      (hlost : block.from? label = none) :
      Runs a object ⟨procedure, block, i :: rest, ⟨frame, host, packet, n + 1⟩⟩
        (i :: inside) (.error (.unknownLabel label)) s

/-- One instruction of a procedure executes these instructions besides itself, and ends so. -/
inductive Performs (a : Assembly) (object : NetObject) :
    String → Instruction → RunState → List Instruction → Except Fault Next → RunState → Prop
  /-- It does not depend on how procedures and nested blocks are run. -/
  | alone {procedure : String} {i : Instruction} {s s' : RunState} {r : Except Fault Next}
      (h : ∀ enter inner, instruction object procedure enter inner i s = lift r s') :
      Performs a object procedure i s [] r s'
  /-- It calls a procedure. -/
  | call {procedure : String} {i : Instruction} {v : Bool} {m : MethodRef} {args : List Value}
      {s s₁ s' : RunState} {inside : List Instruction} {r : Except Fault Unit}
      (hcall : i.calling? = some (v, m))
      (htaken : popMany procedure m.arity s = .ok (.self :: args) s₁)
      (henter : Enters a object v m args s₁ inside r s') :
      Performs a object procedure i s inside (r.map fun _ => .advance) s'
  /-- It is a region: its body runs, and then its cleanup, whatever the body ended with. -/
  | region {procedure : String} {body cleanup : Block} {s s₁ s₂ : RunState}
      {first last : List Instruction} {ended cleaned : Except Fault Flow}
      (hbody : Runs a object ⟨procedure, body, body, s⟩ first ended s₁)
      (hcleanup : Runs a object ⟨procedure, cleanup, cleanup, s₁⟩ last cleaned s₂) :
      Performs a object procedure (.region body cleanup) s (first ++ last)
        (regionResult ended cleaned) s₂

/-- The procedure of a call executes these instructions, and ends so. -/
inductive Enters (a : Assembly) (object : NetObject) :
    Bool → MethodRef → List Value → RunState → List Instruction → Except Fault Unit → RunState →
      Prop
  /-- There is no such procedure. -/
  | unresolved {v : Bool} {m : MethodRef} {args : List Value} {s : RunState} {e : DeclError}
      (hcallee : a.calleeOf object v m = .error e) :
      Enters a object v m args s [] (.error (.declaration e)) s
  /-- The procedure has no body. -/
  | pending {v : Bool} {m : MethodRef} {args : List Value} {s : RunState} {p : Procedure}
      (hcallee : a.calleeOf object v m = .ok p) (hbody : p.body = none) :
      Enters a object v m args s [] (.error (.pendingBody p.name)) s
  /-- Its code runs in a frame of its own. -/
  | code {v : Bool} {m : MethodRef} {args : List Value} {s s' : RunState} {p : Procedure}
      {body : Body} {inside : List Instruction} {r : Except Fault Flow}
      (hcallee : a.calleeOf object v m = .ok p) (hbody : p.body = some body)
      (hruns : Runs a object (.entry p body args s) inside r s') :
      Enters a object v m args s inside (r.map fun _ => ()) { s' with frame := s.frame }

end

variable {a : Assembly} {object : NetObject}

/-! ### What is executed is what the machine does -/

mutual

/-- What the rules say of a run is what the machine makes of it. -/
theorem Runs.sound {x : Place} {executed : List Instruction} {r : Except Fault Flow}
    {s' : RunState} : a.Runs object x executed r s' → a.outcome object x = lift r s'
  | .done => run_nil _ _ _
  | .spent => run_stop _ _ _ _ _ _ _
  | .failed hone => by
    rw [outcome_cons, bind_apply, Performs.sound hone]
    rfl
  | .left hone => by
    rw [outcome_cons, bind_apply, Performs.sound hone]
    rfl
  | .advanced hone hrest => by
    rw [outcome_cons, bind_apply, Performs.sound hone]
    exact Runs.sound hrest
  | .jumped hone hfound hrest => by
    rw [outcome_cons, bind_apply, Performs.sound hone]
    simp only [lift, proceed, hfound]
    exact Runs.sound hrest
  | .lost hone hlost => by
    rw [outcome_cons, bind_apply, Performs.sound hone]
    simp only [lift, proceed, hlost]
    rfl

theorem Performs.sound {procedure : String} {i : Instruction} {s s' : RunState}
    {executed : List Instruction} {r : Except Fault Next} :
    a.Performs object procedure i s executed r s' → a.perform object procedure i s = lift r s'
  | .alone h => h _ _
  | .call (r := r) hcall htaken henter => by
    rw [perform, instruction_calling hcall htaken, bind_apply, Enters.sound henter]
    cases r <;> rfl
  | .region hbody hcleanup => by
    have hbody := Runs.sound hbody
    have hcleanup := Runs.sound hcleanup
    simp only [outcome] at hbody hcleanup
    obtain ⟨hended, hs₁⟩ := of_eq_lift hbody
    obtain ⟨hcleaned, hs₂⟩ := of_eq_lift hcleanup
    rw [perform, instruction_region, hended, hs₁, hcleaned, hs₂]

theorem Enters.sound {v : Bool} {m : MethodRef} {args : List Value} {s s' : RunState}
    {executed : List Instruction} {r : Except Fault Unit} :
    a.Enters object v m args s executed r s' →
      a.enter object (fun name code => a.run object name code code) v m args s = lift r s'
  | .unresolved hcallee => enter_of_error hcallee _ _
  | .pending hcallee hbody => enter_of_pending hcallee hbody _ _
  | .code (r := r) hcallee hbody hruns => by
    have hran := Runs.sound hruns
    simp only [outcome, Place.entry] at hran
    rw [enter_eq hcallee hbody, hran]
    cases r <;> rfl

end

end Assembly

/-! ### What is executed is paid for -/

namespace RunState

/-- Instructions are paid for: a step was taken for each, and each handed over one thing at
most. -/
abbrev Paid (s s' : RunState) (executed : List Instruction) : Prop :=
  s.Spends s' executed.length executed.length

theorem Paid.append {s s₁ s₂ : RunState} {first last : List Instruction} (h : s.Paid s₁ first)
    (h' : s₁.Paid s₂ last) : s.Paid s₂ (first ++ last) := by
  rw [Paid, List.length_append]
  exact h.trans h'

/-- A step was taken for the instruction, and so were those for what is executed inside it. -/
theorem Spends.paid {frame : Frame} {host : Host} {packet : Option Wire.Bits} {n : Nat}
    {s : RunState} {inside : List Instruction}
    (h : Spends ⟨frame, host, packet, n⟩ s inside.length (inside.length + 1)) (i : Instruction) :
    Paid ⟨frame, host, packet, n + 1⟩ s (i :: inside) :=
  ⟨congrArg (· + 1) h.steps, h.gains⟩

end RunState

namespace Assembly

variable {a : Assembly} {object : NetObject}

mutual

/-- A run takes a step for each instruction that it executes, also in its cleanups. -/
theorem Runs.paid {x : Place} {executed : List Instruction} {r : Except Fault Flow}
    {s' : RunState} : a.Runs object x executed r s' → x.state.Paid s' executed
  | .done | .spent => RunState.spends_refl _
  | .failed hone | .left hone | .lost hone _ => (Performs.spends hone).paid _
  | .advanced hone hrest | .jumped hone _ hrest =>
    ((Performs.spends hone).paid _).append (Runs.paid hrest)

/-- The step for the instruction itself is not among those taken inside it. -/
theorem Performs.spends {procedure : String} {i : Instruction} {s s' : RunState}
    {executed : List Instruction} {r : Except Fault Next} :
    a.Performs object procedure i s executed r s' →
      s.Spends s' executed.length (executed.length + 1)
  | .alone h => by
    have hspent := hands_alone object procedure i s
    rw [Hands, alone, (of_eq_lift (h _ _)).2] at hspent
    exact hspent
  | .call (m := m) hcall htaken henter => by
    have htook := (moves_popMany procedure m.arity).hands 0 s
    rw [Hands, finalState, htaken] at htook
    have hwhole := htook.trans (Enters.paid henter)
    rw [Nat.zero_add] at hwhole
    exact hwhole.mono (Nat.le_succ _)
  | .region hbody hcleanup =>
    ((Runs.paid hbody).append (Runs.paid hcleanup)).mono (Nat.le_succ _)

theorem Enters.paid {v : Bool} {m : MethodRef} {args : List Value} {s s' : RunState}
    {executed : List Instruction} {r : Except Fault Unit} :
    a.Enters object v m args s executed r s' → s.Paid s' executed
  | .unresolved _ | .pending _ _ => RunState.spends_refl _
  | .code _ _ hruns =>
    have hran := Runs.paid hruns
    ⟨hran.steps, hran.gains⟩

end

/-! ### Every run stops -/

/-- The run from a place comes to an end. -/
def Stops (a : Assembly) (object : NetObject) (x : Place) : Prop :=
  ∃ executed r s', a.Runs object x executed r s'

theorem exists_enters {s : RunState} (hlater : ∀ y : Place, y.state.stepsLeft ≤ s.stepsLeft →
      a.Stops object y) (v : Bool) (m : MethodRef) (args : List Value) :
    ∃ executed r s', a.Enters object v m args s executed r s' := by
  cases hcallee : a.calleeOf object v m with
  | error e => exact ⟨_, _, _, .unresolved hcallee⟩
  | ok p =>
    cases hbody : p.body with
    | none => exact ⟨_, _, _, .pending hcallee hbody⟩
    | some body =>
      obtain ⟨inside, r, s', hruns⟩ := hlater (.entry p body args s) (Nat.le_refl _)
      exact ⟨_, _, _, .code hcallee hbody hruns⟩

theorem exists_performs {s : RunState} (hlater : ∀ y : Place, y.state.stepsLeft ≤ s.stepsLeft →
      a.Stops object y) (procedure : String) (i : Instruction) :
    ∃ executed r s', a.Performs object procedure i s executed r s' := by
  by_cases hcalls : ∃ v m args s₁, i.calling? = some (v, m) ∧
      popMany procedure m.arity s = .ok (.self :: args) s₁
  · obtain ⟨v, m, args, s₁, hcall, htaken⟩ := hcalls
    have hentered : ∀ y : Place, y.state.stepsLeft ≤ s₁.stepsLeft → a.Stops object y :=
      fun y hy => hlater y (Nat.le_trans hy (popMany_spends htaken))
    obtain ⟨inside, r, s', henter⟩ := exists_enters hentered v m args
    exact ⟨_, _, _, .call hcall htaken henter⟩
  by_cases hregion : ∃ body cleanup, i = .region body cleanup
  · obtain ⟨body, cleanup, rfl⟩ := hregion
    obtain ⟨first, ended, s₁, hbody⟩ := hlater ⟨procedure, body, body, s⟩ (Nat.le_refl _)
    have hfewer : s₁.stepsLeft ≤ s.stepsLeft := Nat.le.intro hbody.paid.steps
    obtain ⟨last, cleaned, s₂, hcleanup⟩ := hlater ⟨procedure, cleanup, cleanup, s₁⟩ hfewer
    exact ⟨_, _, _, .region hbody hcleanup⟩
  · -- neither procedures nor blocks are run, so it does not matter how they would be
    have hsame : ∀ enter inner, instruction object procedure enter inner i s =
        alone object procedure i s := fun enter inner => instruction_congr
      (fun v m hcall args s₁ htaken => absurd ⟨v, m, args, s₁, hcall, htaken⟩ hcalls)
      (fun body cleanup hi => absurd ⟨body, cleanup, hi⟩ hregion)
    exact ⟨[], _, _, .alone fun enter inner => (hsame enter inner).trans (apply_eq_lift _ s)⟩

/-- However often code jumps back, calls itself and nests regions, its run stops: whatever it leads
to has fewer steps left. -/
theorem stops (a : Assembly) (object : NetObject) (x : Place) : a.Stops object x := by
  induction hsteps : x.state.stepsLeft using Nat.strongRecOn generalizing x with
  | ind steps ih =>
    obtain ⟨procedure, block, rest, ⟨frame, host, packet, left⟩⟩ := x
    cases rest with
    | nil => exact ⟨_, _, _, .done⟩
    | cons i rest =>
      cases left with
      | zero => exact ⟨_, _, _, .spent⟩
      | succ n =>
        have hlater : ∀ y : Place, y.state.stepsLeft ≤ n → a.Stops object y :=
          fun y hy => ih y.state.stepsLeft (hsteps ▸ Nat.lt_succ_of_le hy) y rfl
        obtain ⟨inside, next, s, hone⟩ := exists_performs (s := ⟨frame, host, packet, n⟩) hlater
          procedure i
        have hfewer : s.stepsLeft ≤ n := Nat.le.intro hone.spends.steps
        rcases next with e | (_ | label | _)
        · exact ⟨_, _, _, .failed hone⟩
        · obtain ⟨after, r, s', hrest⟩ := hlater ⟨procedure, block, rest, s⟩ hfewer
          exact ⟨_, _, _, .advanced hone hrest⟩
        · cases hfound : block.from? label with
          | none => exact ⟨_, _, _, .lost hone hfound⟩
          | some found =>
            obtain ⟨after, r, s', hrest⟩ := hlater ⟨procedure, block, found, s⟩ hfewer
            exact ⟨_, _, _, .jumped hone hfound hrest⟩
        · exact ⟨_, _, _, .left hone⟩

end Assembly

/-! ### Errands -/

namespace Errand

/-- An errand executes these instructions, in all procedures and blocks, and ends so, with this
host. -/
inductive Executes (a : Assembly) (host : Host) :
    Errand → List Instruction → Except Fault Unit → Host → Prop
  /-- The object has no such procedure. -/
  | unnamed {object : NetObject} {name : String} {args : List Value} {e : DeclError}
      (hnamed : a.methodNamed object.typeName name = .error e) :
      Executes a host (.call object name args) [] (.error (.declaration e)) host
  /-- A procedure is called, with the whole budget. -/
  | call {object : NetObject} {name : String} {args : List Value} {m : MethodRef}
      {executed : List Instruction} {r : Except Fault Unit} {s : RunState}
      (hnamed : a.methodNamed object.typeName name = .ok m)
      (henter : a.Enters object true m args ⟨⟨[], [], []⟩, host, none, stepBudget⟩ executed r s) :
      Executes a host (.call object name args) executed r s.host
  /-- A receiver runs on a packet, with the whole budget. -/
  | receive {object : NetObject} {reader : MethodRef} {packet : Wire.Bits} {channel : Channel}
      {sender : Option ConnectionId} {executed : List Instruction} {r : Except Fault Unit}
      {s : RunState}
      (henter : a.Enters object false reader (Assembly.receiverArgs reader channel sender)
        ⟨⟨[], [], []⟩, host, some packet, stepBudget⟩ executed r s) :
      Executes a host (.receive object reader packet channel sender) executed r s.host

variable {a : Assembly} {host host' : Host} {e : Errand} {executed : List Instruction}
  {result : Except Fault Unit}

theorem exists_executes (a : Assembly) (host : Host) (e : Errand) :
    ∃ executed result host', e.Executes a host executed result host' := by
  cases e with
  | call object name args =>
    cases hnamed : a.methodNamed object.typeName name with
    | error e => exact ⟨_, _, _, .unnamed hnamed⟩
    | ok m =>
      obtain ⟨executed, r, s, henter⟩ := Assembly.exists_enters
        (fun y _ => a.stops object y) true m args
      exact ⟨_, _, _, .call hnamed henter⟩
  | receive object reader packet channel sender =>
    obtain ⟨executed, r, s, henter⟩ := Assembly.exists_enters
      (fun y _ => a.stops object y) false reader (Assembly.receiverArgs reader channel sender)
    exact ⟨_, _, _, .receive henter⟩

/-- What an errand executes is what the machine does. -/
theorem Executes.run_eq (h : e.Executes a host executed result host') :
    e.run a host = (result, host') := by
  cases h with
  | unnamed hnamed => rw [run, Assembly.call, hnamed]
  | call hnamed henter =>
    rw [run, Assembly.call, hnamed]
    simp only [Assembly.invoke_eq, henter.sound]
    cases result <;> rfl
  | receive henter =>
    rw [run, Assembly.receive, Assembly.invoke_eq, henter.sound]
    cases result <;> rfl

/-- All steps come from the one budget. -/
theorem Executes.within (h : e.Executes a host executed result host') :
    executed.length ≤ stepBudget ∧ host.Gains host' executed.length := by
  have hpaid : ∀ {packet s}, RunState.Paid ⟨⟨[], [], []⟩, host, packet, stepBudget⟩ s executed →
      executed.length ≤ stepBudget ∧ host.Gains s.host executed.length := by
    intro packet s hpaid
    have hsteps : s.stepsLeft + executed.length = stepBudget := hpaid.steps
    exact ⟨by omega, hpaid.gains⟩
  cases h with
  | unnamed => exact ⟨Nat.zero_le _, host.gains_refl⟩
  | call _ henter => exact hpaid henter.paid
  | receive henter => exact hpaid henter.paid

/-- Whatever is called and whatever arrives, in whatever assembly, the run of it stops.  It executes
at most 100000 instructions in all procedures, blocks and cleanups together, and adds no more than
that to the calls sent, warnings, external calls and writers taken. -/
theorem stops_in_budget (a : Assembly) (host : Host) (e : Errand) :
    (∃ executed result host', e.Executes a host executed result host') ∧
    ∀ executed result host', e.Executes a host executed result host' →
      e.run a host = (result, host') ∧ executed.length ≤ 100000 ∧
      ∃ sent warnings externalCalls acquired,
        host'.sent = host.sent ++ sent ∧ host'.warnings = host.warnings ++ warnings ∧
        host'.externalCalls = host.externalCalls ++ externalCalls ∧
        host'.writers.acquired = host.writers.acquired + acquired ∧
        sent.size + warnings.size + externalCalls.size + acquired ≤ executed.length := by
  refine ⟨exists_executes a host e, fun executed result host' h => ?_⟩
  obtain ⟨hlength, hgains⟩ := h.within
  exact ⟨h.run_eq, hlength, hgains⟩

end Errand

namespace Sample

/-- A mill that never stops by itself. -/
def turning : Block := [.mark 0, .jump 0]

/-- A procedure that runs it. -/
def grind : Procedure := { Procedure.declare "Grind" with body := some (.ofCode turning) }

/-- A type that has it. -/
def mill : Assembly := ⟨[⟨"Mill", none, [grind]⟩]⟩

/-- The mill turns as long as there are steps. -/
theorem runs_turning (object : NetObject) (frame : Frame) (host : Host)
    (packet : Option Wire.Bits) (n : Nat) :
    ∃ executed, mill.Runs object ⟨"Grind", turning, turning, ⟨frame, host, packet, n⟩⟩ executed
      (.error (.stepLimit stepBudget)) ⟨frame, host, packet, 0⟩ := by
  induction n using Nat.strongRecOn with
  | ind n ih =>
    match n with
    | 0 => exact ⟨_, .spent⟩
    | 1 => exact ⟨_, .advanced (.alone fun _ _ => rfl) .spent⟩
    | n + 2 =>
      obtain ⟨executed, hruns⟩ := ih n (by omega)
      exact ⟨_, .advanced (.alone fun _ _ => rfl) (.jumped (.alone fun _ _ => rfl) rfl hruns)⟩

end Sample

open Sample in
/-- The mill executes exactly as many instructions as there may be. -/
theorem Errand.stops_in_budget_mill :
    ∃ executed, (Errand.call (.client "Mill" 1) "Grind" []).Executes mill .fresh executed
        (.error (.stepLimit 100000)) .fresh ∧ executed.length = 100000 ∧
      (Errand.call (.client "Mill" 1) "Grind" []).run mill .fresh =
        (.error (.stepLimit 100000), .fresh) := by
  obtain ⟨executed, hruns⟩ := runs_turning (.client "Mill" 1) ⟨[], [], []⟩ .fresh none stepBudget
  have hentry : mill.Runs (.client "Mill" 1)
      (.entry grind (.ofCode turning) [] ⟨⟨[], [], []⟩, .fresh, none, stepBudget⟩) executed
      (.error (.stepLimit stepBudget)) ⟨⟨[], [], []⟩, .fresh, none, 0⟩ := hruns
  have hcallee : mill.calleeOf (.client "Mill" 1) true ⟨"Mill", "Grind", []⟩ = .ok grind := rfl
  have henter := Assembly.Enters.code hcallee rfl hentry
  have hexecutes : (Errand.call (.client "Mill" 1) "Grind" []).Executes mill .fresh executed
      (.error (.stepLimit 100000)) .fresh := .call rfl henter
  obtain ⟨-, hall⟩ := Errand.stops_in_budget mill .fresh (.call (.client "Mill" 1) "Grind" [])
  obtain ⟨hrun, -⟩ := hall _ _ _ hexecutes
  have hsteps : 0 + executed.length = stepBudget := hruns.paid.steps
  exact ⟨executed, hexecutes, (Nat.zero_add _).symm.trans hsteps, hrun⟩

end RpcLoom
