/-
RpcLoom/Proofs/Regions.lean

What a region comes to, and what becomes of faults.

Design.  What a region's body and its cleanup ended with is put together by
`regionResult`: the body's fault comes first, then a return from the body, then
what the cleanup ended with.

So a cleanup's fault is lost if the body returned.  Nothing else loses a fault: going
back through the places that led to a fault, each fails as well, or it stands before
a region whose body returned, and the fault is the cleanup's (`Leads.fails`).

Main results.  `Assembly.runBlock_region` for one region, `Assembly.lost_in_cleanup`
for a whole run.
-/
import RpcLoom.Proofs.Reaching

namespace RpcLoom

open Relation (ReflTransGen)

/-! ### Regions and calls -/

namespace Exec

variable {object : NetObject} {procedure : String}
  {enter : Bool → MethodRef → List Value → Exec Unit} {inner : Block → Exec Flow}
  {i : Instruction} {s s' : RunState}

/-- A region does not jump. -/
theorem regionResult_ne_goto (body cleanup : Except Fault Flow) (label : Label) :
    regionResult body cleanup ≠ .ok (.goto label) := by
  rcases body with _ | (_ | _) <;> rcases cleanup with _ | (_ | _) <;> exact fun h => nomatch h

theorem finalState_region (object : NetObject) (procedure : String)
    (enter : Bool → MethodRef → List Value → Exec Unit) (inner : Block → Exec Flow)
    (body cleanup : Block) (s : RunState) :
    finalState (instruction object procedure enter inner (.region body cleanup)) s =
      finalState (inner cleanup) (finalState (inner body) s) := by
  rw [finalState, instruction_region]
  cases regionResult _ _ <;> rfl

/-- A call does what entering the procedure does. -/
theorem instruction_calling {v : Bool} {m : MethodRef} {args : List Value}
    (hcall : i.calling? = some (v, m))
    (htaken : popMany procedure m.arity s = .ok (.self :: args) s') :
    instruction object procedure enter inner i s =
      (enter v m args >>= fun _ => (pure .advance : Exec Next)) s' := by
  have hmethod : (callMethod procedure m (enter v m) >>= fun _ => (pure .advance : Exec Next)) s =
      (enter v m args >>= fun _ => (pure .advance : Exec Next)) s' := by
    rw [bind_apply, callMethod, bind_apply, htaken, bind_apply]
  cases i with
  | call callee => cases callee <;> cases hcall <;> exact hmethod
  | _ => cases hcall

end Exec

/-- The state after a step was taken from the budget. -/
def RunState.spent (s : RunState) : RunState := { s with stepsLeft := s.stepsLeft - 1 }

namespace Sample

/-- What is done behind a return, and fails: there is nothing to pop. -/
def shutting : Block := [.call (.external "app::shut" 0), .pop]

/-- Code that returns from a region whose cleanup fails. -/
def slam : Procedure :=
  { Procedure.declare "Slam" with body := some (.ofCode [.region [.leave] shutting, .leave]) }

/-- A type that has it. -/
def door : Assembly := ⟨[⟨"Door", none, [slam]⟩]⟩

/-- Before its first step. -/
def ajar : RunState := ⟨⟨[], [], []⟩, .fresh, none, stepBudget⟩

end Sample

namespace Assembly

open Exec

variable {a : Assembly} {object : NetObject} {procedure : String} {block rest body cleanup : Block}
  {x y : Place} {e : Fault}

/-! ### One region -/

/-- What becomes of a region.  Its cleanup runs once, from the state that the body ended in,
however the body ended, and the region ends in the state that the cleanup ends in.  If the body
failed, the region fails with the body's fault.  If the body returned, the region returns, also
if the cleanup failed.  If the body fell through, the region ends as the cleanup does, and the run
goes on after it if the cleanup fell through as well. -/
theorem runBlock_region (a : Assembly) (object : NetObject) (procedure : String)
    (block body cleanup rest : Block) {bound : Nat} {s : RunState} (hleft : 0 < s.stepsLeft)
    (hbound : s.stepsLeft ≤ bound) :
    ∃ ended s₁ cleaned s₂,
      a.runBlock object bound procedure body body s.spent = lift ended s₁ ∧
      a.runBlock object bound procedure cleanup cleanup s₁ = lift cleaned s₂ ∧
      (∀ e, ended = .error e →
        a.runBlock object bound procedure block (.region body cleanup :: rest) s = .error e s₂) ∧
      (ended = .ok .returned →
        a.runBlock object bound procedure block (.region body cleanup :: rest) s =
          .ok .returned s₂) ∧
      (ended = .ok .fellThrough →
        (∀ e, cleaned = .error e →
          a.runBlock object bound procedure block (.region body cleanup :: rest) s =
            .error e s₂) ∧
        (cleaned = .ok .returned →
          a.runBlock object bound procedure block (.region body cleanup :: rest) s =
            .ok .returned s₂) ∧
        (cleaned = .ok .fellThrough →
          a.runBlock object bound procedure block (.region body cleanup :: rest) s =
            a.runBlock object bound procedure block rest s₂)) := by
  obtain ⟨frame, host, packet, left⟩ := s
  obtain ⟨n, rfl⟩ : ∃ n, left = n + 1 := Nat.exists_eq_add_one.mpr hleft
  -- the bound is large enough for every run below, so each of them is a run
  have hrun : ∀ {block rest s}, s.stepsLeft ≤ bound →
      a.runBlock object bound procedure block rest s = a.run object procedure block rest s :=
    fun hs => (agree_run procedure _ _ _ hs).1
  have hspent : ∀ {block r s s'}, s.stepsLeft ≤ bound →
      a.run object procedure block block s = lift r s' → s'.stepsLeft ≤ bound := by
    intro block r s s' hs h
    rw [← (of_eq_lift h).2]
    exact Nat.le_trans (run_spends ..) hs
  have hn : n ≤ bound := Nat.le_of_succ_le hbound
  obtain ⟨ended, s₁, hbody⟩ : ∃ ended s₁, a.run object procedure body body
      ⟨frame, host, packet, n⟩ = lift ended s₁ := ⟨_, _, apply_eq_lift _ _⟩
  obtain ⟨cleaned, s₂, hcleanup⟩ : ∃ cleaned s₂, a.run object procedure cleanup cleanup s₁ =
      lift cleaned s₂ := ⟨_, _, apply_eq_lift _ _⟩
  have hs₁ := hspent hn hbody
  have hregion := run_region_eq block rest frame host packet n hbody hcleanup
  refine ⟨ended, s₁, cleaned, s₂, (hrun hn).trans hbody, (hrun hs₁).trans hcleanup, ?_⟩
  rw [hrun hbound, hregion, hrun (hspent hs₁ hcleanup)]
  refine ⟨fun e hfailed => ?_, fun hreturned => ?_, fun hfell =>
    ⟨fun e hfailed => ?_, fun hreturned => ?_, fun hdone => ?_⟩⟩
  · rw [hfailed]
    rfl
  · rw [hreturned]
    rfl
  · rw [hfell, hfailed]
    rfl
  · rw [hfell, hreturned]
    rfl
  · rw [hfell, hdone]
    rfl

open Sample in
/-- The body of the door's region returns, so the region returns whatever its cleanup ends with. -/
theorem runBlock_region_door :
    0 < ajar.stepsLeft ∧ ajar.stepsLeft ≤ stepBudget ∧
    ∃ s₁ cleaned s₂,
      door.runBlock (.client "Door" 1) stepBudget "Slam" [.leave] [.leave] ajar.spent =
        .ok .returned s₁ ∧
      door.runBlock (.client "Door" 1) stepBudget "Slam" shutting shutting s₁ =
        lift cleaned s₂ ∧
      door.runBlock (.client "Door" 1) stepBudget "Slam" [] [.region [.leave] shutting] ajar =
        .ok .returned s₂ := by
  have hleft : 0 < ajar.stepsLeft := by decide
  have hbound : ajar.stepsLeft ≤ stepBudget := Nat.le_refl _
  obtain ⟨ended, s₁, cleaned, s₂, hbody, hcleanup, -, hreturned, -⟩ :=
    runBlock_region door (.client "Door" 1) "Slam" [] [.leave] shutting [] hleft hbound
  have hended : lift ended s₁ = .ok .returned ajar.spent.spent := hbody.symm
  obtain rfl : ended = .ok .returned := by
    cases ended with
    | error e => cases hended
    | ok flow => cases hended; rfl
  exact ⟨hleft, hbound, s₁, cleaned, s₂, hbody, hcleanup, hreturned rfl⟩

open Sample in
/-- The door is shut after the return, and that this failed is not told. -/
theorem cleanup_fault_lost_door :
    ∃ s₁ s₂, door.runBlock (.client "Door" 1) stepBudget "Slam" [.leave] [.leave] ajar.spent =
        .ok .returned s₁ ∧
      door.runBlock (.client "Door" 1) stepBudget "Slam" shutting shutting s₁ =
        .error (.stackUnderflow "Slam") s₂ ∧
      door.runBlock (.client "Door" 1) stepBudget "Slam" [] [.region [.leave] shutting] ajar =
        .ok .returned s₂ ∧
      door.call (.client "Door" 1) "Slam" [] .fresh =
        (.ok (), Host.fresh.callExternal "app::shut" []) :=
  ⟨_, _, rfl, rfl, rfl, rfl⟩

/-! ### Faults in a run -/

/-- The run from a place fails with a fault. -/
def Fails (a : Assembly) (object : NetObject) (x : Place) (e : Fault) : Prop :=
  ∃ s, a.outcome object x = .error e s

/-- At a place stands a region whose body returns, and the other place is where its cleanup begins
then. -/
inductive ReturnsInto (a : Assembly) (object : NetObject) : Place → Place → Prop
  | intro {procedure : String} {block rest body cleanup : Block} {frame : Frame} {host : Host}
      {packet : Option Wire.Bits} {n : Nat} {s : RunState}
      (hbody : a.run object procedure body body ⟨frame, host, packet, n⟩ = .ok .returned s) :
      ReturnsInto a object
        ⟨procedure, block, .region body cleanup :: rest, ⟨frame, host, packet, n + 1⟩⟩
        ⟨procedure, cleanup, cleanup, s⟩

/-- A run whose first instruction fails fails. -/
theorem fails_of_perform {i : Instruction} {frame : Frame} {host : Host}
    {packet : Option Wire.Bits} {n : Nat} {s : RunState}
    (h : a.perform object procedure i ⟨frame, host, packet, n⟩ = .error e s) :
    a.Fails object ⟨procedure, block, i :: rest, ⟨frame, host, packet, n + 1⟩⟩ e := by
  refine ⟨s, ?_⟩
  rw [outcome, run_cons, bind_apply]
  rw [perform] at h
  rw [h]

/-- A place that leads to a fault fails too, unless the fault is that of a cleanup after a
return. -/
theorem Leads.fails (h : a.Leads object x y) (hy : a.Fails object y e) :
    (∃ e', a.Fails object x e') ∨ a.ReturnsInto object x y := by
  obtain ⟨last, hy⟩ := hy
  rw [outcome] at hy
  cases h with
  | @enter _ v m args s p body hcalls hcallee hbody =>
    obtain ⟨hcall, htaken⟩ := hcalls
    refine .inl ⟨e, fails_of_perform (s := { last with frame := s.frame }) ?_⟩
    obtain ⟨frame, host, packet, n⟩ := s
    rw [perform, instruction_calling hcall htaken, bind_apply, enter_eq hcallee hbody]
    simp only [Place.entry] at hy
    rw [hy]
  | @body procedure block rest body cleanup frame host packet n =>
    have hbody : a.run object procedure body body ⟨frame, host, packet, n⟩ =
      lift (.error e) last := hy
    have hregion := run_region_eq block rest frame host packet n hbody
      (apply_eq_lift (a.run object procedure cleanup cleanup) last)
    exact .inl ⟨e, _, hregion⟩
  | @cleanup procedure block rest body cleanup frame host packet n =>
    cases hbody : a.run object procedure body body ⟨frame, host, packet, n⟩ with
    | error e' s =>
      have hfailed : a.run object procedure body body ⟨frame, host, packet, n⟩ =
        lift (.error e') s := hbody
      have hregion := run_region_eq block rest frame host packet n hfailed
        (apply_eq_lift (a.run object procedure cleanup cleanup) s)
      exact .inl ⟨e', _, hregion⟩
    | ok flow s =>
      have hs : finalState (a.run object procedure body body) ⟨frame, host, packet, n⟩ = s := by
        rw [finalState, hbody]
      rw [hs] at hy ⊢
      cases flow with
      | returned => exact .inr (.intro hbody)
      | fellThrough =>
        have hfell : a.run object procedure body body ⟨frame, host, packet, n⟩ =
          lift (.ok .fellThrough) s := hbody
        have hcleanup : a.run object procedure cleanup cleanup s = lift (.error e) last := hy
        have hregion := run_region_eq block rest frame host packet n hfell hcleanup
        exact .inl ⟨e, _, hregion⟩
  | advance hdone =>
    refine .inl ⟨e, last, ?_⟩
    rw [perform] at hdone
    rw [outcome, run_cons, bind_apply, hdone]
    exact hy
  | jump hdone hfound =>
    refine .inl ⟨e, last, ?_⟩
    rw [perform] at hdone
    rw [outcome, run_cons, bind_apply, hdone]
    simp only [proceed_goto _ hfound]
    exact hy

/-- A fault in a run that does not fail was lost in a cleanup: on the way to it the run came to a
region whose body returned and whose cleanup failed. -/
theorem lost_in_cleanup (hxy : ReflTransGen (a.Leads object) x y) (hy : a.Fails object y e)
    (hx : ∀ e', ¬ a.Fails object x e') :
    ∃ z c e', ReflTransGen (a.Leads object) x z ∧ a.ReturnsInto object z c ∧
      a.Fails object c e' ∧ ReflTransGen (a.Leads object) c y := by
  induction hxy using ReflTransGen.head_induction_on with
  | refl => exact absurd hy (hx e)
  | @head x z hxz hzy ih =>
    by_cases hz : ∃ e', a.Fails object z e'
    · obtain ⟨e', hz⟩ := hz
      obtain ⟨e'', hfails⟩ | hreturns := hxz.fails hz
      · exact absurd hfails (hx e'')
      · exact ⟨x, z, e', .refl, hreturns, hz, hzy⟩
    · obtain ⟨z', c, e', hzz', hc⟩ := ih fun e' he' => hz ⟨e', he'⟩
      exact ⟨z', c, e', .head hxz hzz', hc⟩

end Assembly

end RpcLoom
