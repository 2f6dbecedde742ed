/-
RpcLoom/Proofs/Refusals.lean

A receiver that turns a call away calls nothing.

Design.  A run is quiet from a place if no procedure is called at any place that
it leads to (`Assembly.Quiet`).  Unpacking only goes on (`quiet_unpacking`), and
a check that is not passed ends in a return before the logic is called
(`quiet_server`, `quiet_observers`).  So a receiver that refuses a call enters no
logic, whatever arrives; and the host is at most warned (`TurnsAway`).
-/
import RpcLoom.Proofs.Authority
import RpcLoom.Proofs.Reaching

namespace RpcLoom

open Relation (ReflTransGen)

namespace Assembly

open Exec

variable {a : Assembly} {object : NetObject} {procedure : String} {block rest : Block}
  {i : Instruction} {frame : Frame} {args locals stack : List Value} {host : Host} {codec : Codec}
  {packet : Option Wire.Bits} {x y : Place}

/-! ### Quiet runs -/

/-- The run from a place calls no procedure. -/
def Quiet (a : Assembly) (object : NetObject) (x : Place) : Prop :=
  ∀ y, ReflTransGen (a.Leads object) x y → ∀ v m args s, ¬ y.Calls v m args s

/-- A run is quiet if nothing is called here and it is quiet wherever it goes next. -/
theorem quiet_of_leads (hhere : ∀ v m args s, ¬ x.Calls v m args s)
    (hnext : ∀ y, a.Leads object x y → a.Quiet object y) : a.Quiet object x := by
  intro y hxy
  rcases hxy.cases_head with rfl | ⟨z, hxz, hzy⟩
  · exact hhere
  · exact hnext z hxz y hzy

/-- What an instruction leads to that calls nothing, holds no blocks and does not jump. -/
theorem quiet_advance (hcall : i.calling? = none)
    (hblocks : ∀ body cleanup, i ≠ .region body cleanup)
    (hdone : ∀ n next s, a.perform object procedure i ⟨frame, host, packet, n⟩ = .ok next s →
      next = .advance ∧ a.Quiet object ⟨procedure, block, rest, s⟩) (n : Nat) :
    a.Quiet object ⟨procedure, block, i :: rest, ⟨frame, host, packet, n⟩⟩ := by
  have hhere : ∀ v m args s,
      ¬ Place.Calls ⟨procedure, block, i :: rest, ⟨frame, host, packet, n⟩⟩ v m args s := by
    rintro v m args s ⟨hcalls, -⟩
    cases hcall.symm.trans hcalls
  refine quiet_of_leads hhere fun y hy => ?_
  cases hy with
  | enter hcalls => exact absurd hcalls (hhere _ _ _ _)
  | body => exact absurd rfl (hblocks _ _)
  | cleanup => exact absurd rfl (hblocks _ _)
  | advance hran => exact (hdone _ _ _ hran).2
  | jump hran => cases (hdone _ _ _ hran).1

/-- The same, if it is known how the instruction changes the state. -/
theorem quiet_step {frame' : Frame} {host' : Host} {packet' : Option Wire.Bits}
    (hcall : i.calling? = none) (hblocks : ∀ body cleanup, i ≠ .region body cleanup)
    (hdone : ∀ n, a.perform object procedure i ⟨frame, host, packet, n⟩ =
      .ok .advance ⟨frame', host', packet', n⟩)
    (hnext : ∀ n, a.Quiet object ⟨procedure, block, rest, ⟨frame', host', packet', n⟩⟩) (n : Nat) :
    a.Quiet object ⟨procedure, block, i :: rest, ⟨frame, host, packet, n⟩⟩ := by
  refine quiet_advance hcall hblocks (fun n next s h => ?_) n
  rw [hdone] at h
  cases h
  exact ⟨rfl, hnext n⟩

theorem quiet_leave {s : RunState} : a.Quiet object ⟨procedure, block, .leave :: rest, s⟩ := by
  refine quiet_of_leads ?_ fun y hy => ?_
  · rintro v m args s ⟨hcalls, -⟩
    cases hcalls
  · cases hy with
    | enter hcalls => cases hcalls with | intro hcall => cases hcall
    | advance hran => cases hran
    | jump hran => cases hran

/-! ### Receivers -/

theorem advances_read {proc : CodecProc} {bits : Wire.Bits} {n : Nat} {next : Next}
    {s : RunState} (h : a.perform object procedure (.codec (.read proc))
      ⟨⟨args, locals, .reader :: stack⟩, host, some bits, n⟩ = .ok next s) :
    next = .advance ∧ ∃ v left, s = ⟨⟨args, locals, v :: stack⟩, host, some left, n⟩ := by
  rw [perform, instruction, bind_apply, codecOp_read] at h
  rcases hread : Wire.readField proc.type bits with ⟨e | v, left⟩
  · simp only [hread] at h
    cases h
  · simp only [hread] at h
    cases h
    exact ⟨rfl, v, left, rfl⟩

/-- Unpacking calls nothing. -/
theorem quiet_unpacking (codec : Codec) (types : List TypeRef) (slot : Nat)
    (hnext : ∀ locals bits n, a.Quiet object
      ⟨procedure, block, rest, ⟨⟨.reader :: args, locals, stack⟩, host, some bits, n⟩⟩)
    (hroom : slot + types.length ≤ locals.length) (bits : Wire.Bits) (n : Nat) :
    a.Quiet object ⟨procedure, block, codec.unpackingCode types slot ++ rest,
      ⟨⟨.reader :: args, locals, stack⟩, host, some bits, n⟩⟩ := by
  induction types generalizing slot locals bits n with
  | nil => exact hnext locals bits n
  | cons t types ih =>
    rw [List.length_cons] at hroom
    rw [Codec.unpackingCode, Body.readInto]
    simp only [List.cons_append, List.nil_append]
    refine quiet_step rfl (by simp) (fun n => perform_loadArg rfl) (fun n => ?_) n
    refine quiet_advance rfl (by simp) (fun n next s hdone => ?_) n
    obtain ⟨rfl, v, left, rfl⟩ := advances_read hdone
    refine ⟨rfl, quiet_step rfl (by simp) (fun _ => perform_storeLocal (by omega)) (fun n => ?_) n⟩
    refine ih (slot + 1) ?_ left n
    rw [List.length_set]
    omega

/-- The check of a call to the server calls nothing for whoever does not own the object. -/
theorem quiet_server {c : Contract} {sender : Option ConnectionId}
    (hpolicy : (c.policy .server).requireOwnership = true)
    (hsender : object.ownedByConnection sender = false) {logic : MethodRef} {channel : Value}
    (n : Nat) :
    a.Quiet object ⟨procedure, block, Loom.receiverGuard c .server ++ receiverTail c logic,
      ⟨⟨[.reader, channel, .ofConnection? sender], locals, stack⟩, host, packet, n⟩⟩ := by
  have hask := host.answer_compareOwner object sender
  rw [hsender] at hask
  have hcheck : ∀ n, a.perform object procedure (.intrinsic .compareOwner)
      ⟨⟨[.reader, channel, .ofConnection? sender], locals,
        .ofConnection? sender :: .self :: stack⟩, host, packet, n⟩ = _ :=
    fun n => perform_intrinsic [.self, .ofConnection? sender] rfl hask
  rw [receiverGuard_server hpolicy]
  refine quiet_step rfl (by simp) (fun _ => perform_loadSelf) (fun n => ?_) n
  refine quiet_step rfl (by simp) (fun _ => perform_loadArg rfl) (fun n => ?_) n
  refine quiet_step rfl (by simp) hcheck (fun n => ?_) n
  refine quiet_step rfl (by simp) (fun _ => perform_jumpIfTrue) (fun n => ?_) n
  refine quiet_step rfl (by simp) (fun _ => perform_warn) (fun n => ?_) n
  exact quiet_leave

/-- The check of a call to observers calls nothing where the owner has run it already. -/
theorem quiet_observers {c : Contract} (hpolicy : (c.policy .observers).includeOwner = false)
    (howner : object.isOwner = true) {logic : MethodRef} (n : Nat) :
    a.Quiet object ⟨procedure, block, Loom.receiverGuard c .observers ++ receiverTail c logic,
      ⟨⟨args, locals, stack⟩, host, packet, n⟩⟩ := by
  have hask : host.answer object .isOwner [.self] = .ok (host, some (.bool true)) := by
    rw [← howner]
    rfl
  rw [receiverGuard_observers hpolicy]
  refine quiet_step rfl (by simp) (fun _ => perform_loadSelf) (fun n => ?_) n
  refine quiet_step rfl (by simp) (fun _ => perform_intrinsic [.self] rfl hask) (fun n => ?_) n
  refine quiet_step rfl (by simp) (fun _ => perform_jumpIfFalse) (fun n => ?_) n
  exact quiet_leave

/-- A receiver turns a call away: no procedure is called at any place that its run leads to, and
the host is told something so many times at most. -/
structure TurnsAway (a : Assembly) (object : NetObject) (reader : MethodRef) (channel : Channel)
    (sender : Option ConnectionId) (text : String) (times : Nat) : Prop where
  quiet : ∃ p body, a.calleeOf object false reader = .ok p ∧ p.body = some body ∧
    ∀ bits host, a.Quiet object (.entry p body (receiverArgs reader channel sender)
      ⟨⟨[], [], []⟩, host, some bits, stepBudget⟩)
  dismisses : a.Dismisses object reader channel sender text times

variable {reader logic : MethodRef} {channel : Channel} {sender : Option ConnectionId}
  {p q : Procedure} {body : Body}

/-- A receiver turns a call away whose check does, wherever the unpacking leads to. -/
theorem turnsAway_of_code {text : String} {times : Nat} {types : List TypeRef} {checked : Block}
    (hcallee : a.calleeOf object false reader = .ok p) (hbody : p.body = some body)
    (hcode : body.code = codec.unpackingCode types 0 ++ checked)
    (hlocals : body.locals.length = types.length)
    (hcheck : ∀ host locals packet n,
      let place : Place := ⟨p.name, body.code, checked,
        ⟨⟨receiverArgs reader channel sender, locals, []⟩, host, packet, n⟩⟩
      a.Quiet object place ∧ Dismissed host text times (a.outcome object place)) :
    a.TurnsAway object reader channel sender text times where
  quiet := by
    refine ⟨p, body, hcallee, hbody, fun bits host => ?_⟩
    have hroom : 0 + types.length ≤ (List.replicate body.locals.length Value.null).length := by
      simp [hlocals]
    have hquiet := quiet_unpacking codec types 0
      (fun locals bits n => (hcheck host locals (some bits) n).1) hroom bits stepBudget
    rw [← hcode] at hquiet
    exact hquiet
  dismisses := dismisses_of_code hcallee hbody hcode hlocals
    fun host locals packet n => (hcheck host locals packet n).2

end Assembly

/-! ### Receivers that a weaver made -/

namespace Loom

open Assembly

variable {loom : Loom} {a : Assembly} {object : NetObject} {reader logic : MethodRef}
  {channel : Channel} {sender : Option ConnectionId} {p : Procedure} {c : Contract} {body : Body}

/-- The receiver made for a call to the server that asks for ownership turns away whoever does not
own the object. -/
theorem turnsAway_server (hcodec : loom.codec.Honest) (hkeeps : p.Keeps loom.codec c)
    (hbody : loom.receiverBody p c .server logic = .ok body)
    (hcallee : a.calleeOf object false reader = .ok (p.readerOf .server body))
    (htypes : reader.types = (Receiver.parameters .server).map (·.type))
    (hpolicy : (c.policy .server).requireOwnership = true)
    (hsender : object.ownedByConnection sender = false) :
    a.TurnsAway object reader channel sender Body.notOwnerWarning 1 := by
  obtain ⟨b, hb, hcode, hlocals⟩ := receiverBody_eq loom hcodec hkeeps .server logic
  obtain rfl : b = body := Except.ok.inj (hb.symm.trans hbody)
  rw [receiverCode, List.append_assoc] at hcode
  refine turnsAway_of_code hcallee rfl hcode (by simp [hlocals]) fun host locals packet n => ?_
  have hargs : receiverArgs reader channel sender =
      [.reader, .channel channel, .ofConnection? sender] := by
    simp [receiverArgs, htypes, Receiver.parameters]
  rw [hargs, hcode]
  exact ⟨quiet_server hpolicy hsender n, dismissed_server hpolicy hsender logic _ packet n⟩

/-- The receiver made for a call to observers that leaves out the owner turns the owner away. -/
theorem turnsAway_observers (hcodec : loom.codec.Honest) (hkeeps : p.Keeps loom.codec c)
    (hbody : loom.receiverBody p c .observers logic = .ok body)
    (hcallee : a.calleeOf object false reader = .ok (p.readerOf .observers body))
    (hpolicy : (c.policy .observers).includeOwner = false) (howner : object.isOwner = true)
    (text : String) : a.TurnsAway object reader channel sender text 0 := by
  obtain ⟨b, hb, hcode, hlocals⟩ := receiverBody_eq loom hcodec hkeeps .observers logic
  obtain rfl : b = body := Except.ok.inj (hb.symm.trans hbody)
  rw [receiverCode, List.append_assoc] at hcode
  refine turnsAway_of_code hcallee rfl hcode (by simp [hlocals]) fun host locals packet n => ?_
  rw [hcode]
  exact ⟨quiet_observers hpolicy howner n, dismissed_observers hpolicy howner text logic _ packet n⟩

end Loom

end RpcLoom
