/-
RpcLoom/Proofs/Reaching.lean

The places that a run leads to.

Design.  A place is a suffix of a block with the state that a run has there.
From a place a run leads into the procedure it calls, into the blocks of a
region, and to where it goes on in its own block (`Leads`).  Each of these has
fewer steps left, so what holds of all places a run leads to can be used by
induction on the steps.  Two assemblies in which the calls at all these places
run the same procedures run alike (`outcome_congr`).
-/
import RpcLoom.Proofs.Stepping
import Mathlib.Logic.Relation

namespace RpcLoom

open Relation (ReflTransGen)

/-! ### References in code -/

/-- The procedure an instruction calls, and whether virtually. -/
def Instruction.calling? : Instruction → Option (Bool × MethodRef)
  | .call (.method m) => some (true, m)
  | .call (.base m) => some (false, m)
  | _ => none

theorem Instruction.method?_of_calling? {i : Instruction} {v : Bool} {m : MethodRef}
    (h : i.calling? = some (v, m)) : i.method? = some m := by
  rcases i with _ | _ | _ | _ | _ | _ | callee | _ | _ | _ | _ | _ | _ | _ | _ <;> try cases h
  cases callee <;> cases h <;> rfl

namespace Block

variable {P : String → Prop} {block rest found body cleanup : Block} {i : Instruction}

/-- All references in a block, at any depth, are to names of which something holds. -/
def Names (P : String → Prop) (block : Block) : Prop :=
  ∀ i ∈ nested block, ∀ m ∈ i.method?, P m.name

instance [DecidablePred P] (block : Block) : Decidable (block.Names P) :=
  inferInstanceAs (Decidable (∀ i ∈ nested block, ∀ m ∈ i.method?, P m.name))

theorem names_cons : Names P (i :: rest) ↔ (∀ k ∈ i.nested, ∀ m ∈ k.method?, P m.name) ∧
    Names P rest := by
  rw [Names, nested_cons, List.forall_mem_append]
  rfl

theorem Names.of_suffix (h : block.Names P) (hsuffix : rest <:+ block) : rest.Names P := by
  obtain ⟨before, rfl⟩ := hsuffix
  rw [Names, nested_append, List.forall_mem_append] at h
  exact h.2

theorem Names.of_region (h : Names P (.region body cleanup :: rest)) :
    body.Names P ∧ cleanup.Names P := by
  obtain ⟨h, -⟩ := names_cons.mp h
  rw [Instruction.nested_region, List.forall_mem_cons, List.forall_mem_append] at h
  exact h.2

theorem Names.of_calling? {v : Bool} {m : MethodRef} (h : Names P (i :: rest))
    (hcall : i.calling? = some (v, m)) : P m.name := by
  obtain ⟨h, -⟩ := names_cons.mp h
  apply h i _ m (Instruction.method?_of_calling? hcall)
  cases i <;> simp [Instruction.nested]

/-- A jump goes on with a suffix of its block. -/
theorem suffix_of_from? {label : Label} (h : block.from? label = some found) :
    found <:+ block := by
  induction block with
  | nil => cases h
  | cons i rest ih =>
    unfold from? at h
    cases hrest : from? label rest with
    | some later =>
      rw [hrest] at h
      cases h
      exact (ih hrest).trans (List.suffix_cons i rest)
    | none =>
      rw [hrest] at h
      cases i with
      | mark l =>
        by_cases hl : l = label
        · subst hl
          simp only [if_true] at h
          cases h
          exact List.suffix_rfl
        · simp only [hl, if_false] at h
          cases h
      | _ => cases h

end Block

/-! ### Steps that are spent -/

namespace Exec

theorem popMany_spends {procedure : String} {count : Nat} {args : List Value} {s s' : RunState}
    (h : popMany procedure count s = .ok args s') : s'.stepsLeft ≤ s.stepsLeft := by
  obtain ⟨-, hspent⟩ := (moves_popMany procedure count).agree s (Nat.le_refl _)
  rw [finalState, h] at hspent
  exact hspent

end Exec

namespace Assembly

open Exec

variable {a b : Assembly} {object : NetObject}

/-- Executes one instruction of a procedure, and what it calls. -/
def perform (a : Assembly) (object : NetObject) (procedure : String) (i : Instruction) :
    Exec Next :=
  instruction object procedure (a.enter object fun name code => a.run object name code code)
    (fun code => a.run object procedure code code) i

theorem agree_run_self (n : Nat) (procedure : String) (block rest : Block) :
    Agree n (a.run object procedure block rest) (a.run object procedure block rest) := by
  intro s hs
  exact ⟨rfl, ((agree_run procedure block rest).symm s hs).2⟩

theorem spends_of_perform {procedure : String} {i : Instruction} {next : Next} {s s' : RunState}
    (h : a.perform object procedure i s = .ok next s') : s'.stepsLeft ≤ s.stepsLeft := by
  obtain ⟨-, hspent⟩ := agree_instruction object procedure
    (agree_enter a object fun name code => agree_run_self _ name code code)
    (fun code => agree_run_self _ procedure code code) i s (Nat.le_refl _)
  rw [perform] at h
  rw [finalState, h] at hspent
  exact hspent

theorem run_spends (procedure : String) (block rest : Block) (s : RunState) :
    (finalState (a.run object procedure block rest) s).stepsLeft ≤ s.stepsLeft :=
  (agree_run_self _ procedure block rest s (Nat.le_refl _)).2

/-! ### Single instructions -/

section

variable {procedure : String} {args locals stack : List Value} {host : Host}
  {packet : Option Wire.Bits}

theorem perform_loadSelf {n : Nat} :
    a.perform object procedure .loadSelf ⟨⟨args, locals, stack⟩, host, packet, n⟩ =
      .ok .advance ⟨⟨args, locals, .self :: stack⟩, host, packet, n⟩ := rfl

theorem perform_loadArg {index n : Nat} {v : Value} (h : args[index]? = some v) :
    a.perform object procedure (.loadArg index) ⟨⟨args, locals, stack⟩, host, packet, n⟩ =
      .ok .advance ⟨⟨args, locals, v :: stack⟩, host, packet, n⟩ := by
  rw [perform, instruction, bind_apply, loadArg, bind_apply]
  simp only [get_apply, h]
  rfl

theorem perform_loadLocal {index n : Nat} {v : Value} (h : locals[index]? = some v) :
    a.perform object procedure (.loadLocal index) ⟨⟨args, locals, stack⟩, host, packet, n⟩ =
      .ok .advance ⟨⟨args, locals, v :: stack⟩, host, packet, n⟩ := by
  rw [perform, instruction, bind_apply, loadLocal, bind_apply]
  simp only [get_apply, h]
  rfl

theorem perform_storeLocal {index n : Nat} {v : Value} (h : index < locals.length) :
    a.perform object procedure (.storeLocal index) ⟨⟨args, locals, v :: stack⟩, host, packet, n⟩ =
      .ok .advance ⟨⟨args, locals.set index v, stack⟩, host, packet, n⟩ := by
  rw [perform, instruction, bind_apply, storeLocal_eq h]
  rfl

theorem perform_intrinsic {q : Intrinsic} {n : Nat} (given : List Value) {result : Option Value}
    (hlength : given.length = q.arity) (h : host.answer object q given = .ok (host, result)) :
    a.perform object procedure (.intrinsic q)
        ⟨⟨args, locals, given.reverse ++ stack⟩, host, packet, n⟩ =
      .ok .advance ⟨⟨args, locals, result.toList ++ stack⟩, host, packet, n⟩ := by
  rw [perform, instruction, bind_apply, intrinsic_append given hlength h]
  rfl

theorem perform_warn {text : String} {n : Nat} :
    a.perform object procedure (.warn text) ⟨⟨args, locals, stack⟩, host, packet, n⟩ =
      .ok .advance ⟨⟨args, locals, stack⟩, host.warn text, packet, n⟩ := rfl

theorem perform_acquire {n : Nat} :
    a.perform object procedure (.codec .acquire) ⟨⟨args, locals, stack⟩, host, packet, n⟩ =
      .ok .advance ⟨⟨args, locals, .writer host.writers.acquire.1 :: stack⟩,
        { host with writers := host.writers.acquire.2 }, packet, n⟩ := rfl

theorem perform_jumpIfTrue {label : Label} {b : Bool} {n : Nat} :
    a.perform object procedure (.jumpIfTrue label)
        ⟨⟨args, locals, .bool b :: stack⟩, host, packet, n⟩ =
      .ok (jumpWhen b label) ⟨⟨args, locals, stack⟩, host, packet, n⟩ := rfl

theorem perform_jumpIfFalse {label : Label} {b : Bool} {n : Nat} :
    a.perform object procedure (.jumpIfFalse label)
        ⟨⟨args, locals, .bool b :: stack⟩, host, packet, n⟩ =
      .ok (jumpWhen (!b) label) ⟨⟨args, locals, stack⟩, host, packet, n⟩ := rfl

end

end Assembly

/-! ### Places -/

/-- A suffix of a block of a procedure, and the state that a run has there. -/
structure Place where
  procedure : String
  block : Block
  rest : Block
  state : RunState

namespace Place

/-- Where the run of a procedure begins. -/
def entry (p : Procedure) (body : Body) (args : List Value) (s : RunState) : Place :=
  ⟨p.name, body.code, body.code,
    { s with frame := ⟨args, List.replicate body.locals.length .null, []⟩ }⟩

/-- At a place a procedure is called next; the state is the one in which it is entered. -/
inductive Calls : Place → Bool → MethodRef → List Value → RunState → Prop
  | intro {procedure : String} {block rest : Block} {i : Instruction} {frame : Frame} {host : Host}
      {packet : Option Wire.Bits} {n : Nat} {v : Bool} {m : MethodRef} {args : List Value}
      {s : RunState} (hcall : i.calling? = some (v, m))
      (htaken : Exec.popMany procedure m.arity ⟨frame, host, packet, n⟩ = .ok (.self :: args) s) :
      Calls ⟨procedure, block, i :: rest, ⟨frame, host, packet, n + 1⟩⟩ v m args s

/-- All references at a place are to names of which something holds. -/
def Names (P : String → Prop) (x : Place) : Prop := x.block.Names P ∧ x.rest.Names P

theorem Calls.spends {x : Place} {v : Bool} {m : MethodRef} {args : List Value} {s : RunState}
    (h : x.Calls v m args s) : s.stepsLeft < x.state.stepsLeft := by
  obtain ⟨-, htaken⟩ := h
  exact Nat.lt_succ_of_le (Exec.popMany_spends htaken)

theorem Calls.name {P : String → Prop} {x : Place} {v : Bool} {m : MethodRef} {args : List Value}
    {s : RunState} (h : x.Calls v m args s) (hx : x.Names P) : P m.name := by
  obtain ⟨hcall, -⟩ := h
  exact hx.2.of_calling? hcall

end Place

namespace Assembly

open Exec

variable {a b : Assembly} {object : NetObject} {x y : Place}

/-- What the run from a place comes to. -/
def outcome (a : Assembly) (object : NetObject) (x : Place) : EStateM.Result Fault RunState Flow :=
  a.run object x.procedure x.block x.rest x.state

theorem outcome_cons (procedure : String) (block rest : Block) (i : Instruction) (frame : Frame)
    (host : Host) (packet : Option Wire.Bits) (n : Nat) :
    a.outcome object ⟨procedure, block, i :: rest, ⟨frame, host, packet, n + 1⟩⟩ =
      (a.perform object procedure i >>= proceed (a.run object procedure block) block rest)
        ⟨frame, host, packet, n⟩ :=
  run_cons procedure block rest i frame host packet n

/-- The run from a place goes through another place: where the procedure begins that it calls,
where a block of a region begins, or where it goes on. -/
inductive Leads (a : Assembly) (object : NetObject) : Place → Place → Prop
  | enter {x : Place} {v : Bool} {m : MethodRef} {args : List Value} {s : RunState} {p : Procedure}
      {body : Body} (hcalls : x.Calls v m args s) (hcallee : a.calleeOf object v m = .ok p)
      (hbody : p.body = some body) : Leads a object x (.entry p body args s)
  | body {procedure : String} {block rest body cleanup : Block} {frame : Frame} {host : Host}
      {packet : Option Wire.Bits} {n : Nat} :
      Leads a object ⟨procedure, block, .region body cleanup :: rest, ⟨frame, host, packet, n + 1⟩⟩
        ⟨procedure, body, body, ⟨frame, host, packet, n⟩⟩
  | cleanup {procedure : String} {block rest body cleanup : Block} {frame : Frame} {host : Host}
      {packet : Option Wire.Bits} {n : Nat} :
      Leads a object ⟨procedure, block, .region body cleanup :: rest, ⟨frame, host, packet, n + 1⟩⟩
        ⟨procedure, cleanup, cleanup,
          finalState (a.run object procedure body body) ⟨frame, host, packet, n⟩⟩
  | advance {procedure : String} {block rest : Block} {i : Instruction} {frame : Frame}
      {host : Host} {packet : Option Wire.Bits} {n : Nat} {s : RunState}
      (hdone : a.perform object procedure i ⟨frame, host, packet, n⟩ = .ok .advance s) :
      Leads a object ⟨procedure, block, i :: rest, ⟨frame, host, packet, n + 1⟩⟩
        ⟨procedure, block, rest, s⟩
  | jump {procedure : String} {block rest found : Block} {i : Instruction} {label : Label}
      {frame : Frame} {host : Host} {packet : Option Wire.Bits} {n : Nat} {s : RunState}
      (hdone : a.perform object procedure i ⟨frame, host, packet, n⟩ = .ok (.goto label) s)
      (hfound : block.from? label = some found) :
      Leads a object ⟨procedure, block, i :: rest, ⟨frame, host, packet, n + 1⟩⟩
        ⟨procedure, block, found, s⟩

/-- Wherever a run leads to, fewer steps are left. -/
theorem Leads.spends (h : a.Leads object x y) : y.state.stepsLeft < x.state.stepsLeft := by
  cases h with
  | enter hcalls => exact hcalls.spends
  | body => exact Nat.lt_succ_self _
  | cleanup => exact Nat.lt_succ_of_le (run_spends _ _ _ _)
  | advance hdone => exact Nat.lt_succ_of_le (spends_of_perform hdone)
  | jump hdone => exact Nat.lt_succ_of_le (spends_of_perform hdone)

/-- A run keeps to names of which something holds, if all it enters does. -/
theorem Leads.names {P : String → Prop} (h : a.Leads object x y) (hx : x.Names P)
    (hentered : ∀ v m args s p body, x.Calls v m args s → a.calleeOf object v m = .ok p →
      p.body = some body → body.code.Names P) : y.Names P := by
  cases h with
  | enter hcalls hcallee hbody =>
    have hcode := hentered _ _ _ _ _ _ hcalls hcallee hbody
    exact ⟨hcode, hcode⟩
  | body =>
    obtain ⟨hbody, -⟩ := hx.2.of_region
    exact ⟨hbody, hbody⟩
  | cleanup =>
    obtain ⟨-, hcleanup⟩ := hx.2.of_region
    exact ⟨hcleanup, hcleanup⟩
  | advance => exact ⟨hx.1, (Block.names_cons.mp hx.2).2⟩
  | jump _ hfound => exact ⟨hx.1, hx.1.of_suffix (Block.suffix_of_from? hfound)⟩

end Assembly

/-! ### Runs that agree -/

namespace Exec

variable {object : NetObject} {procedure : String} {s : RunState}

theorem callMethod_congr {m : MethodRef} {enter enter' : List Value → Exec Unit}
    (h : ∀ args s', popMany procedure m.arity s = .ok (.self :: args) s' →
      enter' args s' = enter args s') :
    callMethod procedure m enter' s = callMethod procedure m enter s := by
  rw [callMethod, callMethod, bind_apply, bind_apply]
  cases htaken : popMany procedure m.arity s with
  | error e s' => rfl
  | ok taken s' =>
    rcases taken with _ | ⟨receiver, args⟩
    · rfl
    · cases receiver with
      | self => exact h args s' htaken
      | _ => rfl

/-- An instruction does the same if the procedure that it calls does, and the blocks in it do. -/
theorem instruction_congr {enter enter' : Bool → MethodRef → List Value → Exec Unit}
    {inner inner' : Block → Exec Flow} {i : Instruction}
    (henter : ∀ v m, i.calling? = some (v, m) → ∀ args s',
      popMany procedure m.arity s = .ok (.self :: args) s' → enter' v m args s' = enter v m args s')
    (hinner : ∀ body cleanup, i = .region body cleanup → inner' body s = inner body s ∧
      inner' cleanup (finalState (inner body) s) = inner cleanup (finalState (inner body) s)) :
    instruction object procedure enter' inner' i s =
      instruction object procedure enter inner i s := by
  cases i with
  | call callee =>
    cases callee with
    | method m =>
      rw [instruction, instruction, bind_apply, bind_apply, callMethod_congr (henter true m rfl)]
    | base m =>
      rw [instruction, instruction, bind_apply, bind_apply, callMethod_congr (henter false m rfl)]
    | _ => rfl
  | region body cleanup =>
    obtain ⟨hbody, hcleanup⟩ := hinner body cleanup rfl
    have hfinal : finalState (inner' body) s = finalState (inner body) s := by
      rw [finalState, finalState, hbody]
    rw [instruction_region, instruction_region, hfinal]
    generalize finalState (inner body) s = s' at hcleanup
    simp only [ending, finalState, hbody, hcleanup]
  | _ => rfl

end Exec

namespace Assembly

open Exec

variable {a b : Assembly} {object : NetObject} {x : Place}

/-- A call comes to the same in both assemblies if it runs the same procedure, and that runs
alike. -/
theorem enter_congr {v : Bool} {m : MethodRef} {args : List Value} {s : RunState}
    (hcallee : b.calleeOf object v m = a.calleeOf object v m)
    (hrun : ∀ p body, a.calleeOf object v m = .ok p → p.body = some body →
      b.outcome object (.entry p body args s) = a.outcome object (.entry p body args s)) :
    b.enter object (fun name code => b.run object name code code) v m args s =
      a.enter object (fun name code => a.run object name code code) v m args s := by
  cases hfound : a.calleeOf object v m with
  | error e => rw [enter_of_error (hcallee.trans hfound), enter_of_error hfound]
  | ok p =>
    rw [hfound] at hcallee
    cases hbody : p.body with
    | none => rw [enter_of_pending hcallee hbody, enter_of_pending hfound hbody]
    | some body =>
      obtain ⟨frame, host, packet, n⟩ := s
      have hsame := hrun p body hfound hbody
      simp only [outcome, Place.entry] at hsame
      rw [enter_eq hcallee hbody, enter_eq hfound hbody, hsame]

/-- Two assemblies run alike from a place if the calls at all places that the run leads to run
the same procedures. -/
theorem outcome_congr (h : ∀ y, ReflTransGen (a.Leads object) x y → ∀ v m args s,
      y.Calls v m args s → b.calleeOf object v m = a.calleeOf object v m) :
    b.outcome object x = a.outcome object x := by
  induction hsteps : x.state.stepsLeft using Nat.strongRecOn generalizing x with
  | ind steps ih =>
    have hlater : ∀ y, a.Leads object x y → b.outcome object y = a.outcome object y := by
      intro y hxy
      apply ih y.state.stepsLeft (hsteps ▸ hxy.spends) _ rfl
      intro z hyz
      exact h z (.head hxy hyz)
    have hhere := h x .refl
    obtain ⟨procedure, block, rest, ⟨frame, host, packet, left⟩⟩ := x
    cases rest with
    | nil => rw [outcome, outcome, run_nil, run_nil]
    | cons i rest =>
      cases left with
      | zero => rw [outcome, outcome, run_stop, run_stop]
      | succ n =>
        have hone : b.perform object procedure i ⟨frame, host, packet, n⟩ =
            a.perform object procedure i ⟨frame, host, packet, n⟩ := by
          apply instruction_congr
          · intro v m hcall args s htaken
            have hcalls : Place.Calls ⟨procedure, block, i :: rest, ⟨frame, host, packet, n + 1⟩⟩
                v m args s := .intro hcall htaken
            apply enter_congr (hhere v m args s hcalls)
            intro p body hcallee hbody
            exact hlater _ (.enter hcalls hcallee hbody)
          · rintro body cleanup rfl
            exact ⟨hlater _ .body, hlater _ .cleanup⟩
        rw [outcome_cons, outcome_cons, bind_apply, bind_apply, hone]
        cases hdone : a.perform object procedure i ⟨frame, host, packet, n⟩ with
        | error e s => rfl
        | ok next s =>
          cases next with
          | advance => exact hlater _ (.advance hdone)
          | leave => rfl
          | goto label =>
            simp only [proceed]
            cases hfound : block.from? label with
            | none => rfl
            | some found => exact hlater _ (.jump hdone hfound)

end Assembly

end RpcLoom
