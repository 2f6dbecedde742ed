/-
RpcLoom/Proofs/FirstTurns.lean

The first turn of a signature.

Design.  Logic and receivers are made once for a signature, by its first turn,
and no later turn touches them (`procedure?_generated`).  So if the first call
of a signature is woven, the logic holds its code (`logic_of_first`) and the
receivers are its own (`reader_of_first`), whatever calls of the signature
follow.  Senders are made anew by each turn; a call that shares its signature
with no other keeps all that its turn left (`left_of_sole`).
-/
import RpcLoom.Proofs.Lasting

namespace RpcLoom

/-- The turn of a call is the first of its signature. -/
def FirstTurn (turns : List (Job × Fate)) (x : Job × Fate) : Prop :=
  ∃ before after, turns = before ++ x :: after ∧
    ∀ y ∈ before, y.1.served.signature ≠ x.1.served.signature

/-- The turn of a call is the only one of its signature. -/
def SoleTurn (turns : List (Job × Fate)) (x : Job × Fate) : Prop :=
  ∀ y ∈ turns, y.1.served.signature = x.1.served.signature → y = x

theorem SoleTurn.first {turns : List (Job × Fate)} {x : Job × Fate} (h : SoleTurn turns x)
    (hids : (turns.map (·.1.id)).Nodup) (hx : x ∈ turns) : FirstTurn turns x := by
  obtain ⟨before, after, rfl⟩ := List.append_of_mem hx
  refine ⟨before, after, rfl, fun y hy hsignature => ?_⟩
  obtain rfl := h y (List.mem_append_left _ hy) hsignature
  rw [List.map_append, List.nodup_append] at hids
  exact hids.2.2 y.1.id (List.mem_map_of_mem hy) y.1.id (by simp) rfl

namespace Turns

variable {loom : Loom} {w w' : TypeWeaving} {turns before after : List (Job × Fate)}
  {x : Job × Fate} {j : Job}

/-! ### What stays -/

/-- Logic and receivers stay as they are. -/
theorem procedure?_generated (h : Turns loom w turns w') {i : ProcedureId} {p : Procedure}
    {key : SynthKey} (hp : w.type.procedure? i = some p) (ho : p.origin = .synthesized key)
    (hrole : ∀ kind, key.role ≠ .writer kind) : w'.type.procedure? i = some p := by
  induction h with
  | nil => exact hp
  | cons hturn _ ih =>
    refine ih (hturn.edits.procedure?_eq hp (hturn.stands.ne_of_origin hp ho) fun kind heq => ?_)
    rw [ho] at heq
    exact hrole kind (congrArg SynthKey.role (Origin.synthesized.inj heq))

theorem procedure?_logic (h : Turns loom w turns w') {i : ProcedureId} {p : Procedure}
    {s : Signature} (hp : w.type.procedure? i = some p)
    (ho : p.origin = .synthesized ⟨.logic, s⟩) : w'.type.procedure? i = some p :=
  h.procedure?_generated hp ho fun _ => by simp

theorem links_grow (h : Turns loom w turns w') : w.links ⊆ w'.links := by
  induction h with
  | nil => exact List.Subset.refl _
  | cons hturn _ ih => exact fun link hlink => ih (hturn.mem_links.mpr (.inl hlink))

/-- A call that shares its signature with no other keeps what its turn left. -/
theorem left_of_sole (h : Turns loom w turns w') (hc : w.type.Canonical)
    (hids : (turns.map (·.1.id)).Nodup) (hx : x ∈ turns) (hsole : SoleTurn turns x) :
    x.2.Left loom x.1 w'.type := by
  obtain ⟨before, after, rfl⟩ := List.append_of_mem hx
  obtain ⟨w₁, w₂, hbefore, hturn, hafter⟩ := h.split
  rw [List.map_append, List.map_cons, List.nodup_append, List.nodup_cons] at hids
  have hlater : ∀ y ∈ after,
      y.1.id ≠ x.1.id ∧ y.1.served.signature ≠ x.1.served.signature := by
    intro y hy
    have hid : y.1.id ≠ x.1.id := fun heq =>
      hids.2.1.1 (heq ▸ List.mem_map_of_mem (f := fun y : Job × Fate => y.1.id) hy)
    refine ⟨hid, fun hsignature => hid ?_⟩
    rw [hsole y (by simp [hy]) hsignature]
  have hc₂ := hturn.edits.canonical (hbefore.canonical hc)
  exact (hafter.spares hc₂ hlater).left hturn.declared hturn.left

/-- The logic of a woven call is called by its own name. -/
theorem logicRef_eq (h : Turns loom w turns w') (hc : w.type.Canonical) (hx : x ∈ turns)
    {triad : Triad} {b : Body} (hf : x.2 = .woven triad b) :
    triad.logicRef = (x.1.key .logic).ref w.type.name := by
  obtain ⟨before, after, rfl⟩ := List.append_of_mem hx
  obtain ⟨w₁, w₂, hbefore, hturn, -⟩ := h.split
  have hleft := hturn.left
  rw [hf] at hleft
  rw [hleft.installed.logic.ref_eq (hturn.edits.canonical (hbefore.canonical hc)),
    hturn.edits.name_eq, hbefore.name_eq]

/-! ### What the first turn of a signature makes -/

/-- Nothing was generated for a signature before its first turn. -/
theorem unmade (h : Turns loom w before w') (hfresh : w.type.Fresh) {s : Signature}
    (hfirst : ∀ y ∈ before, y.1.served.signature ≠ s) {i : ProcedureId} {p : Procedure}
    {role : SynthRole} (hp : w'.type.procedure? i = some p) :
    p.origin ≠ .synthesized ⟨role, s⟩ := by
  intro ho
  have hd := Procedure.isDeclared_of_synthesized ho
  obtain ⟨y, hy, hmade⟩ := h.madeFor_of_fresh hfresh hp hd
  obtain ⟨role, horigin⟩ := hmade.origin
  exact hfirst y hy (congrArg SynthKey.signature (Origin.synthesized.inj (horigin.symm.trans ho)))

/-- What the first turn of a signature leaves for a key, it has made. -/
theorem made_of_first (h : Turns loom w before w') (hfresh : w.type.Fresh)
    (hfirst : ∀ y ∈ before, y.1.served.signature ≠ j.served.signature) {f : Fate}
    {w₂ : TypeWeaving} (hturn : Turn loom w' j f w₂) {role : SynthRole} {m : ProcedureId}
    (hfound : w₂.type.findSynthesized? (j.key role) = some m) :
    ∃ p, w₂.type.procedure? m = some p ∧ p.origin = .synthesized (j.key role) ∧
      j.MadeFor loom w.type.name p := by
  obtain ⟨p, hp, ho⟩ := TypeDef.procedure?_of_findSynthesized? hfound
  have hd := Procedure.isDeclared_of_synthesized ho
  rcases hturn.edits.madeFor (h.canonical hfresh.canonical) hturn.stands hp hd with
    hold | ⟨hmade, -⟩
  · exact absurd ho (h.unmade hfresh hfirst hold)
  · exact ⟨p, hp, ho, h.name_eq ▸ hmade⟩

/-- The first turn of a signature, if it ends well, moves the body of the call to the logic, and
leaves a link if the call is virtual. -/
theorem logic_of_first (h : Turns loom w (before ++ x :: after) w') (hfresh : w.type.Fresh)
    (hfirst : ∀ y ∈ before, y.1.served.signature ≠ x.1.served.signature) {triad : Triad}
    {b : Body} (hf : x.2 = .woven triad b) :
    ∃ body, x.1.served.body = some body ∧
      w'.type.findSynthesized? (x.1.key .logic) = some triad.logic ∧
      w'.type.procedure? triad.logic = some (x.1.served.logicOf body) ∧
      (x.1.served.isVirtual = true →
        ⟨w.type.name, triad.logic, x.1.served.signature⟩ ∈ w'.links) := by
  obtain ⟨w₁, w₂, hbefore, hturn, hafter⟩ := h.split
  have hleft := hturn.left
  rw [hf] at hleft
  have hlogic := hleft.installed.logic
  obtain ⟨p, hp, ho, hmade⟩ := hbefore.made_of_first hfresh hfirst hturn hlogic.found
  obtain ⟨-, body, hbody, rfl⟩ := hmade.of_logic ho
  refine ⟨body, hbody, hafter.grows.find hlogic.found, hafter.procedure?_logic hp rfl,
    fun hvirtual => hafter.links_grow (hturn.mem_links.mpr (.inr ?_))⟩
  exact ⟨triad, b, _, hf, hp, rfl, hvirtual, by rw [hbefore.name_eq]⟩

/-- The first turn of a signature, if it ends well, makes the receivers of the call. -/
theorem reader_of_first (h : Turns loom w (before ++ x :: after) w') (hfresh : w.type.Fresh)
    (hfirst : ∀ y ∈ before, y.1.served.signature ≠ x.1.served.signature) {triad : Triad}
    {b : Body} (hf : x.2 = .woven triad b) {kind : Kind}
    (hkind : kind ∈ x.1.contract.kinds.toList) :
    ∃ m body, w'.type.findSynthesized? (x.1.key (.reader kind)) = some m ∧
      w'.type.procedure? m = some (x.1.served.readerOf kind body) ∧
      loom.receiverBody x.1.served x.1.contract kind ((x.1.key .logic).ref w.type.name) =
        .ok body := by
  obtain ⟨w₁, w₂, hbefore, hturn, hafter⟩ := h.split
  have hleft := hturn.left
  rw [hf] at hleft
  obtain ⟨s, -, hreader⟩ := hleft.installed.reader? hkind
  obtain ⟨p, hp, ho, hmade⟩ := hbefore.made_of_first hfresh hfirst hturn hreader.found
  obtain ⟨-, -, body, hbody, rfl⟩ := hmade.of_reader ho
  exact ⟨s.id, body, hafter.grows.find hreader.found,
    hafter.procedure?_generated hp rfl fun _ => by simp, hbody⟩

end Turns

end RpcLoom
