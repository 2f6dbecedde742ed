/-
RpcLoom/Proofs/Turns.lean

Weaving the remote calls of a type, one after the other.

Design.  A turn is the weaving of one call: it makes edits of that call, and it
ends with the call woven or cleared.  Weaving a type is a sequence of turns,
one for each contract of the type, in order (`turns_of_weaveTypeDef`).  In its
turn a call still looks as it did before the first turn, since the turns of the
other calls do not touch it; so all calls of a type can be known beforehand.
-/
import RpcLoom.Proofs.Forwarding

namespace RpcLoom

open Relation (ReflTransGen)

namespace Job

variable {loom : Loom} {j : Job} {t u : TypeDef}

theorem Edits.name_eq (h : j.Edits loom t u) : u.name = t.name := h.grows.name

theorem Edits.base_eq (h : j.Edits loom t u) : u.base = t.base := by
  induction h with
  | refl => rfl
  | tail _ hstep ih => exact hstep.base_eq.trans ih

theorem Edits.outline_eq (h : j.Edits loom t u) : u.outline = t.outline := by
  induction h with
  | refl => rfl
  | tail _ hstep ih => exact hstep.outline_eq.trans ih

theorem Edits.procedure?_eq (h : j.Edits loom t u) {i : ProcedureId} {p : Procedure}
    (hp : t.procedure? i = some p) (hid : i ≠ j.id)
    (hw : ∀ kind, p.origin ≠ .synthesized (j.key (.writer kind))) : u.procedure? i = some p := by
  induction h with
  | refl => exact hp
  | tail _ hstep ih => exact hstep.procedure?_eq ih hid hw

/-- Another call stays as it is. -/
theorem Edits.procedure?_declared (h : j.Edits loom t u) {i : ProcedureId} {p : Procedure}
    (hp : t.procedure? i = some p) (hd : p.isDeclared = true) (hid : i ≠ j.id) :
    u.procedure? i = some p := by
  refine h.procedure?_eq hp hid fun kind ho => ?_
  exact absurd ho (Procedure.origin_ne_of_isDeclared hd _)

end Job

/-- How the turn of a call ends. -/
inductive Fate where
  | woven (triad : Triad) (forwarder : Body)
  | cleared (cause : SynthesisError)

/-- What is left in a type where the turn of a call ended. -/
def Fate.Left (loom : Loom) (j : Job) (t : TypeDef) : Fate → Prop
  | .woven triad b => j.Woven loom t triad b
  | .cleared e => j.Cleared loom t e

/-- A type in the course of weaving after the turn of a call. -/
def TypeWeaving.after (w : TypeWeaving) (loom : Loom) (j : Job) (u : TypeDef) : Fate → TypeWeaving
  | .woven triad _ =>
    { w with
      type := u
      counter := w.counter.assign.2
      registrations := w.registrations ++ [.ofTriad j.rpcId j.id j.contract triad]
      links := w.links ++ (u.logicLink? j.id triad.logic).toList
      log := w.log ++ (j.senders loom).1 }
  | .cleared e =>
    { w with
      type := u
      errors := w.errors ++ [.synthesis e]
      log := w.log ++ (j.senders loom).1 ++ Log.error e.message }

@[simp] theorem TypeWeaving.type_after (w : TypeWeaving) (loom : Loom) (j : Job) (u : TypeDef)
    (f : Fate) : (w.after loom j u f).type = u := by
  cases f <;> rfl

/-- The turn of a call. -/
structure Turn (loom : Loom) (w : TypeWeaving) (j : Job) (f : Fate) (w' : TypeWeaving) :
    Prop where
  here : w.type.procedure? j.id = some j.served
  declared : j.served.isDeclared = true
  keeps : j.served.contract? loom.codec = .ok (some j.contract)
  next : j.rpcId = w.counter.next
  edits : j.Edits loom w.type w'.type
  left : f.Left loom j w'.type
  after : w' = w.after loom j w'.type f

/-- The link of a call is there exactly if its logic is virtual. -/
theorem TypeDef.logicLink?_eq {t : TypeDef} {id l : ProcedureId} {p q : Procedure}
    (hp : t.procedure? id = some p) (hq : t.procedure? l = some q) :
    t.logicLink? id l = if q.isVirtual then some ⟨t.name, l, p.signature⟩ else none := by
  rw [logicLink?, hp, hq]
  rfl

/-- The links after a turn are those before it and, if the call was woven, one for its logic when
that is virtual. -/
theorem Turn.mem_links {loom : Loom} {w w' : TypeWeaving} {j : Job} {f : Fate}
    (h : Turn loom w j f w') {link : LogicLink} :
    link ∈ w'.links ↔ link ∈ w.links ∨ ∃ triad b p, f = .woven triad b ∧
      w'.type.procedure? triad.logic = some p ∧ p.origin = .synthesized (j.key .logic) ∧
      p.isVirtual = true ∧ link = ⟨w.type.name, triad.logic, j.served.signature⟩ := by
  cases f with
  | cleared e =>
    rw [h.after]
    refine ⟨.inl, ?_⟩
    rintro (hold | ⟨_, _, _, hf, -⟩)
    · exact hold
    · cases hf
  | woven triad b =>
    -- the link is made from the call and from the logic that its turn left
    obtain ⟨p, hp, ho⟩ := TypeDef.procedure?_of_findSynthesized? h.left.installed.logic.found
    have hlinks : w'.links = w.links ++ (w'.type.logicLink? j.id triad.logic).toList := by
      rw [h.after]
      rfl
    rw [hlinks, List.mem_append, Option.mem_toList, TypeDef.logicLink?_eq h.left.here hp,
      h.edits.name_eq]
    refine or_congr_right ⟨fun hlink => ?_, ?_⟩
    · by_cases hvirtual : p.isVirtual = true
      · rw [if_pos hvirtual] at hlink
        exact ⟨triad, b, p, rfl, hp, ho, hvirtual, (Option.some.inj hlink).symm⟩
      · rw [if_neg hvirtual] at hlink
        cases hlink
    · rintro ⟨_, _, q, ⟨⟩, hq, -, hvirtual, rfl⟩
      obtain rfl := Option.some.inj (hp.symm.trans hq)
      rw [if_pos hvirtual]
      rfl

/-- One turn after the other. -/
inductive Turns (loom : Loom) : TypeWeaving → List (Job × Fate) → TypeWeaving → Prop
  | nil (w : TypeWeaving) : Turns loom w [] w
  | cons {w w' w'' : TypeWeaving} {j : Job} {f : Fate} {rest : List (Job × Fate)}
      (h : Turn loom w j f w') (hrest : Turns loom w' rest w'') : Turns loom w ((j, f) :: rest) w''

variable {loom : Loom} {w w' : TypeWeaving} {turns : List (Job × Fate)}

/-- The next call takes its turn. -/
theorem turn_of_weaveNext {id : ProcedureId} {c : Contract}
    (h : (id, c) ∈ w.type.contracts loom.codec) :
    ∃ j f, j.id = id ∧ j.contract = c ∧ Turn loom w j f (loom.weaveNext w id c) := by
  obtain ⟨p, hp, hd, hc⟩ := TypeDef.mem_contracts.mp h
  let j : Job := ⟨id, p, c, w.counter.next⟩
  rcases Job.weaveProcedure_cases loom (j := j) hp hd with
    ⟨triad, b, u, hweave, hedits, hleft⟩ | ⟨e, u, hweave, hedits, hleft⟩
  · have hnext : loom.weaveNext w id c = w.after loom j u (.woven triad b) := by
      rw [Loom.weaveNext, hweave]
      rfl
    refine ⟨j, .woven triad b, rfl, rfl, ?_⟩
    rw [hnext]
    exact ⟨hp, hd, hc, rfl, hedits, hleft, rfl⟩
  · have hnext : loom.weaveNext w id c =
        w.after loom j (u.fill id .justLeave) (.cleared e) := by
      rw [Loom.weaveNext, hweave]
      rfl
    refine ⟨j, .cleared e, rfl, rfl, ?_⟩
    rw [hnext]
    exact ⟨hp, hd, hc, rfl, hedits, hleft, rfl⟩

theorem turns_of_foldl (loom : Loom) (w : TypeWeaving) (cs : List (ProcedureId × Contract))
    (h : ∀ x ∈ cs, x ∈ w.type.contracts loom.codec) :
    ∃ turns, Turns loom w turns (cs.foldl (fun w (id, c) => loom.weaveNext w id c) w) ∧
      turns.map (fun x => (x.1.id, x.1.contract)) = cs := by
  induction cs generalizing w with
  | nil => exact ⟨[], .nil w, rfl⟩
  | cons x cs ih =>
    obtain ⟨id, c⟩ := x
    obtain ⟨j, f, rfl, rfl, hturn⟩ := turn_of_weaveNext (h (id, c) (by simp))
    have hsame := TypeDef.contracts_congr hturn.edits.outline_eq loom.codec
    obtain ⟨turns, hturns, hmap⟩ := ih (loom.weaveNext w j.id j.contract)
      (fun x hx => by rw [hsame]; exact h x (by simp [hx]))
    exact ⟨(j, f) :: turns, .cons hturn hturns, by simp [hmap]⟩

namespace Turns

/-- A run taken apart at one of its turns. -/
theorem split {before after : List (Job × Fate)} {x : Job × Fate}
    (h : Turns loom w (before ++ x :: after) w') :
    ∃ w₁ w₂, Turns loom w before w₁ ∧ Turn loom w₁ x.1 x.2 w₂ ∧ Turns loom w₂ after w' := by
  induction before generalizing w with
  | nil =>
    cases h with
    | cons hturn hrest => exact ⟨w, _, .nil w, hturn, hrest⟩
  | cons y before ih =>
    cases h with
    | cons hturn hrest =>
      obtain ⟨w₁, w₂, hbefore, hthis, hafter⟩ := ih hrest
      exact ⟨w₁, w₂, .cons hturn hbefore, hthis, hafter⟩

theorem name_eq (h : Turns loom w turns w') : w'.type.name = w.type.name := by
  induction h with
  | nil => rfl
  | cons hturn _ ih => exact ih.trans hturn.edits.name_eq

theorem base_eq (h : Turns loom w turns w') : w'.type.base = w.type.base := by
  induction h with
  | nil => rfl
  | cons hturn _ ih => exact ih.trans hturn.edits.base_eq

theorem outline_eq (h : Turns loom w turns w') : w'.type.outline = w.type.outline := by
  induction h with
  | nil => rfl
  | cons hturn _ ih => exact ih.trans hturn.edits.outline_eq

/-- A declared procedure that has no turn stays as it is. -/
theorem procedure?_declared (h : Turns loom w turns w') {i : ProcedureId} {p : Procedure}
    (hp : w.type.procedure? i = some p) (hd : p.isDeclared = true)
    (hi : ∀ x ∈ turns, x.1.id ≠ i) : w'.type.procedure? i = some p := by
  induction h with
  | nil => exact hp
  | cons hturn _ ih =>
    refine ih (hturn.edits.procedure?_declared hp hd (hi _ List.mem_cons_self).symm) fun x hx => ?_
    exact hi x (by simp [hx])

theorem declared (h : Turns loom w turns w') {x : Job × Fate} (hx : x ∈ turns) :
    x.1.served.isDeclared = true ∧ x.1.served.contract? loom.codec = .ok (some x.1.contract) := by
  induction h with
  | nil => cases hx
  | cons hturn _ ih =>
    rcases List.mem_cons.mp hx with rfl | hx
    · exact ⟨hturn.declared, hturn.keeps⟩
    · exact ih hx

/-- Before its turn a call looks as it did before the first turn. -/
theorem served_eq (h : Turns loom w turns w') (hids : (turns.map (·.1.id)).Nodup) {x : Job × Fate}
    (hx : x ∈ turns) : w.type.procedure? x.1.id = some x.1.served := by
  induction h with
  | nil => cases hx
  | @cons w w₁ w₂ j f rest hturn hrest ih =>
    rw [List.map_cons, List.nodup_cons] at hids
    rcases List.mem_cons.mp hx with rfl | hx
    · exact hturn.here
    · have hlater := ih hids.2 hx
      have hne : x.1.id ≠ j.id := by
        intro heq
        exact hids.1 (heq ▸ List.mem_map_of_mem (f := fun x => x.1.id) hx)
      -- the call is in the outline, which no turn changes, so it was there before this turn
      have hmem := TypeDef.mem_outline.mpr ⟨_, hlater, (hrest.declared hx).1, rfl⟩
      rw [hturn.edits.outline_eq] at hmem
      obtain ⟨p, hp, hd, -⟩ := TypeDef.mem_outline.mp hmem
      rw [hturn.edits.procedure?_declared hp hd hne] at hlater
      rw [hp, hlater]

/-! ### What a sequence of turns adds -/

end Turns

/-- The registration of a call whose turn ended well. -/
def Fate.registration? (j : Job) : Fate → Option Registration
  | .woven triad _ => some (.ofTriad j.rpcId j.id j.contract triad)
  | .cleared _ => none

/-- Why the turn of a call did not end well. -/
def Fate.error? : Fate → Option WeaveError
  | .woven .. => none
  | .cleared e => some (.synthesis e)

namespace Turns

theorem registrations_eq (h : Turns loom w turns w') :
    w'.registrations = w.registrations ++ turns.filterMap fun x => x.2.registration? x.1 := by
  induction h with
  | nil => simp
  | @cons w w₁ w₂ j f rest hturn _ ih =>
    rw [ih, hturn.after]
    cases f <;> simp [TypeWeaving.after, Fate.registration?]

theorem errors_eq (h : Turns loom w turns w') :
    w'.errors = w.errors ++ turns.filterMap fun x => x.2.error? := by
  induction h with
  | nil => simp
  | @cons w w₁ w₂ j f rest hturn _ ih =>
    rw [ih, hturn.after]
    cases f <;> simp [TypeWeaving.after, Fate.error?]

end Turns

theorem nodup_contracts (t : TypeDef) (codec : Codec) :
    ((t.contracts codec).map (·.1)).Nodup :=
  (t.sorted_contracts codec).imp fun h => Nat.ne_of_lt h

/-- A type whose calls need few enough ids is woven in turns, one for each of its contracts. -/
theorem turns_of_weaveTypeDef {t : TypeDef} {counter : IdCounter} {log : Log}
    (h : loom.weaveTypeDef t counter = (log, .ok w)) :
    counter.fits (t.contracts loom.codec).length = true ∧ log = w.log ∧
      ∃ turns, Turns loom (loom.beginType t counter) turns w ∧
        turns.map (fun x => (x.1.id, x.1.contract)) = t.contracts loom.codec := by
  unfold Loom.weaveTypeDef at h
  by_cases hfits : counter.fits (t.contracts loom.codec).length = true
  · simp only [hfits, if_true, Prod.mk.injEq, Except.ok.injEq] at h
    obtain ⟨rfl, rfl⟩ := h
    obtain ⟨turns, hturns, hmap⟩ := turns_of_foldl loom (loom.beginType t counter)
      (t.contracts loom.codec) fun _ hx => hx
    exact ⟨hfits, rfl, turns, hturns, hmap⟩
  · simp [hfits] at h

/-- A type stays as it is only for want of ids, and by then its refusals have been said. -/
theorem error_of_weaveTypeDef {t : TypeDef} {counter : IdCounter} {log : Log} {e : WeaveError}
    (h : loom.weaveTypeDef t counter = (log, .error e)) :
    log = (loom.beginType t counter).log ∧
      ∃ required allowance, e = .quotaExceeded t.name required allowance := by
  unfold Loom.weaveTypeDef at h
  by_cases hfits : counter.fits (t.contracts loom.codec).length = true
  · simp [hfits] at h
  · simp only [hfits, Bool.false_eq_true, if_false, Prod.mk.injEq, Except.error.injEq] at h
    obtain ⟨rfl, rfl⟩ := h
    exact ⟨rfl, _, _, rfl⟩

theorem Turns.nodup_ids {t : TypeDef}
    (h : turns.map (fun x => (x.1.id, x.1.contract)) = t.contracts loom.codec) :
    (turns.map (·.1.id)).Nodup := by
  have := nodup_contracts t loom.codec
  rw [← h, List.map_map] at this
  exact this

end RpcLoom
