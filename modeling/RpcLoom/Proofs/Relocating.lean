/-
RpcLoom/Proofs/Relocating.lean

Where the code of the calls of a type is after a run in which nothing failed.

Design.  If nothing failed in a type, every annotated procedure had its turn and
was woven (`Flawless`).  The first turn of a signature moves that call's body to
the logic, and no later turn touches the logic (`Flawless.logic`).  Logic that
is virtual leaves a link and other logic does not.  Which signatures a woven
type has logic for can be told before it is woven (`Flawless.offers`): names
tell keys apart, so what has the name of logic was declared under it or is that
logic.
-/
import RpcLoom.Proofs.Names
import RpcLoom.Proofs.WovenCalls

namespace RpcLoom

/-! ### What a type offers -/

namespace TypeDef

/-- The first annotated procedure of a signature. -/
def firstCall? (t : TypeDef) (s : Signature) : Option ProcedureId :=
  (t.remotes.find? (·.2.signature == s)).map (·.1)

/-- Whether calls to the logic for a signature will find something in a type once it is woven:
one of its annotated procedures has the signature, or one of its procedures is called as that
logic is. -/
def offersLogic (t : TypeDef) (s : Signature) : Bool :=
  t.remotes.any (·.2.signature == s) || (t.findSignature? (SynthKey.generated ⟨.logic, s⟩)).isSome

theorem offersLogic_of_firstCall? {t : TypeDef} {s : Signature} {m : ProcedureId}
    (h : t.firstCall? s = some m) : t.offersLogic s = true := by
  obtain ⟨x, hx, -⟩ := Option.map_eq_some_iff.mp h
  have hsig := List.find?_some hx
  have hany : t.remotes.any (·.2.signature == s) = true :=
    List.any_eq_true.mpr ⟨x, List.mem_of_find?_eq_some hx, hsig⟩
  rw [offersLogic, hany, Bool.true_or]

/-- The first annotated procedure of a signature has the signature. -/
theorem procedure?_of_firstCall? {t : TypeDef} {s : Signature} {m : ProcedureId}
    (h : t.firstCall? s = some m) : ∃ q, t.procedure? m = some q ∧ q.signature = s := by
  obtain ⟨x, hx, rfl⟩ := Option.map_eq_some_iff.mp h
  obtain ⟨q, hq, -, -, hhead⟩ := mem_remotes.mp (List.mem_of_find?_eq_some hx)
  refine ⟨q, hq, ?_⟩
  have hsig := List.find?_some hx
  rw [hhead] at hsig
  simpa using hsig

/-- What offers logic without an annotated procedure of the signature declares the logic's name. -/
theorem findSignature?_of_offersLogic {t : TypeDef} {s : Signature} (h : t.offersLogic s = true)
    (hnone : t.firstCall? s = none) :
    ∃ m, t.findSignature? (SynthKey.generated ⟨.logic, s⟩) = some m := by
  have hany : t.remotes.any (·.2.signature == s) = false := by
    rw [firstCall?, Option.map_eq_none_iff, List.find?_eq_none] at hnone
    exact List.any_eq_false.mpr hnone
  rw [offersLogic, hany, Bool.false_or] at h
  exact Option.isSome_iff_exists.mp h

end TypeDef

/-- A key with the name of the logic for a signature is that logic's. -/
theorem SynthKey.eq_of_generated_eq {key other : SynthKey}
    (h : key.generated = other.generated) : key = other :=
  mangledName_inj (congrArg Signature.name h)

/-! ### Turns -/

namespace Turns

variable {loom : Loom} {w w' : TypeWeaving} {turns before after : List (Job × Fate)}
  {x : Job × Fate} {j : Job}

/-- Links stand for virtual logic. -/
theorem links_virtual (h : Turns loom w turns w') {link : LogicLink} (hlink : link ∈ w'.links) :
    link ∈ w.links ∨ ∃ p, w'.type.procedure? link.logic = some p ∧ p.isVirtual = true := by
  induction h with
  | nil => exact .inl hlink
  | @cons w w₁ w₂ j f rest hturn hrest ih =>
    rcases ih hlink with hlink | hfound
    · rcases hturn.mem_links.mp hlink with hlink | ⟨triad, b, p, -, hp, ho, hvirtual, rfl⟩
      · exact .inl hlink
      · -- the logic of this turn is there, and the later turns leave it alone
        exact .inr ⟨p, hrest.procedure?_logic hp ho, hvirtual⟩
    · exact .inr hfound

end Turns

/-! ### Types in which nothing failed -/

/-- Pairs whose first parts are those of a list without repetition, and that all belong to it, are
that list. -/
theorem List.map_eq_of_fst {α β γ : Type} {l : List (α × β)} {xs : List γ} {f : γ → α × β}
    (hl : (l.map (·.1)).Nodup) (hfst : xs.map (fun x => (f x).1) = l.map (·.1))
    (hmem : ∀ x ∈ xs, f x ∈ l) : xs.map f = l := by
  induction xs generalizing l with
  | nil =>
    cases l with
    | nil => rfl
    | cons y l => cases hfst
  | cons x xs ih =>
    cases l with
    | nil => cases hfst
    | cons y l =>
      obtain ⟨hxy, hrest⟩ := List.cons.inj hfst
      obtain ⟨hy, hl⟩ := List.nodup_cons.mp hl
      have hx : f x = y := by
        rcases List.mem_cons.mp (hmem x (by simp)) with hx | hx
        · exact hx
        · exact absurd (hxy ▸ List.mem_map_of_mem (f := fun z => z.1) hx) hy
      rw [List.map_cons, hx, ih hl hrest fun z hz => ?_]
      rcases List.mem_cons.mp (hmem z (by simp [hz])) with hzy | hzl
      · -- a second pair with the same first part
        have hz' : (f z).1 ∈ l.map (·.1) := hrest ▸ List.mem_map_of_mem (f := fun u => (f u).1) hz
        rw [hzy] at hz'
        exact absurd hz' hy
      · exact hzl

/-- Nothing failed in a type: every annotated procedure had its turn and was woven. -/
structure Flawless (loom : Loom) (t : TypeDef) (counter : IdCounter)
    (turns : List (Job × Fate)) (v : TypeWeaving) : Prop where
  went : Turns loom (loom.beginType t counter) turns v
  remotes : turns.map (fun x => (x.1.id, x.1.served.heading)) = t.remotes
  jobs : turns.map (fun x => (x.1.id, x.1.contract)) = t.contracts loom.codec
  woven : ∀ x ∈ turns, ∃ triad b, x.2 = .woven triad b

namespace Flawless

variable {loom : Loom} {t : TypeDef} {counter : IdCounter} {turns : List (Job × Fate)}
  {v : TypeWeaving} {p : Procedure} {m : ProcedureId} {s : Signature}

theorem of_errors {log : Log} (h : loom.weaveTypeDef t counter = (log, .ok v))
    (hok : v.errors = []) : ∃ turns, Flawless loom t counter turns v := by
  obtain ⟨-, -, turns, hturns, hjobs⟩ := turns_of_weaveTypeDef h
  have hids := Turns.nodup_ids hjobs
  have herrors := hturns.errors_eq
  rw [hok, eq_comm, List.append_eq_nil_iff] at herrors
  obtain ⟨hrejected, hcleared⟩ := herrors
  -- an error of the type is a broken rule or a turn that failed, and there is neither
  refine ⟨turns, hturns, List.map_eq_of_fst t.nodup_remotes ?_ fun x hx => ?_, hjobs,
    fun x hx => ?_⟩
  · -- an annotated procedure that breaks no rule has a contract, and so a turn
    have hall : ∀ x ∈ t.remotes, ∃ c, x.2.keeps? loom.codec = some c := by
      rintro ⟨id, q⟩ hq
      have hnone := hrejected
      rw [Loom.beginType, List.map_eq_nil_iff, TypeDef.rejections_eq,
        List.filterMap_eq_nil_iff] at hnone
      have hbreaks := hnone _ hq
      have hremote := (List.mem_filter.mp hq).2
      rcases hc : q.contract? loom.codec with e | _ | c
      · simp [Procedure.breaks?, hc] at hbreaks
      · exact absurd hc (Procedure.contract?_ne_ok_none hremote loom.codec)
      · exact ⟨c, by simp [Procedure.keeps?, hc]⟩
    have hfst : (t.contracts loom.codec).map (·.1) = t.remotes.map (·.1) := by
      rw [TypeDef.contracts_eq]
      generalize t.remotes = l at hall
      induction l with
      | nil => rfl
      | cons x l ih =>
        obtain ⟨c, hc⟩ := hall x (by simp)
        rw [List.filterMap_cons_some (b := (x.1, c)) (by rw [hc]; rfl), List.map_cons,
          List.map_cons, ih fun y hy => hall y (by simp [hy])]
    rw [← hfst, ← hjobs, List.map_map]
    rfl
  · exact hturns.mem_remotes hids hx
  · have hnone := List.filterMap_eq_nil_iff.mp hcleared x hx
    rcases hf : x.2 with ⟨triad, b⟩ | e
    · exact ⟨triad, b, rfl⟩
    · rw [hf] at hnone
      cases hnone

theorem nodup_ids (h : Flawless loom t counter turns v) : (turns.map (·.1.id)).Nodup := by
  have hnodup := t.nodup_remotes
  rw [← h.remotes, List.map_map] at hnodup
  exact hnodup

theorem served_eq (h : Flawless loom t counter turns v) {x : Job × Fate} (hx : x ∈ turns) :
    t.procedure? x.1.id = some x.1.served :=
  h.went.served_eq h.nodup_ids hx

/-- The turn of the first annotated procedure of a signature. -/
theorem first (h : Flawless loom t counter turns v) (hfirst : t.firstCall? s = some m)
    (hp : t.procedure? m = some p) :
    ∃ before x after, turns = before ++ x :: after ∧ x.1.id = m ∧ x.1.served = p ∧
      p.signature = s ∧ ∀ y ∈ before, y.1.served.signature ≠ s := by
  rw [TypeDef.firstCall?, ← h.remotes, List.find?_map, Option.map_map] at hfirst
  obtain ⟨x, hx, rfl⟩ := Option.map_eq_some_iff.mp hfirst
  obtain ⟨hsig, before, after, rfl, hbefore⟩ := List.find?_eq_some_iff_append.mp hx
  have hserved := h.served_eq (x := x) (by simp)
  obtain rfl : x.1.served = p := Option.some.inj (hserved.symm.trans hp)
  exact ⟨before, x, after, rfl, rfl, rfl, by simpa using hsig,
    fun y hy => by simpa using hbefore y hy⟩

/-- The first annotated procedure of a signature has its body in the logic of the signature. -/
theorem logic (h : Flawless loom t counter turns v) (ht : t.Fresh)
    (hfirst : t.firstCall? p.signature = some m) (hp : t.procedure? m = some p) :
    ∃ l body, p.body = some body ∧
      v.type.findSynthesized? ⟨.logic, p.signature⟩ = some l ∧
      v.type.procedure? l = some (p.logicOf body) ∧
      (p.isVirtual = true → ⟨t.name, l, p.signature⟩ ∈ v.links) := by
  obtain ⟨before, x, after, rfl, rfl, rfl, -, hbefore⟩ := h.first hfirst hp
  obtain ⟨triad, b, hf⟩ := h.woven x (by simp)
  obtain ⟨body, hbody, hfound, hlogic, hlink⟩ := h.went.logic_of_first ht hbefore hf
  exact ⟨triad.logic, body, hbody, hfound, hlogic, hlink⟩

theorem links_virtual (h : Flawless loom t counter turns v) {link : LogicLink}
    (hlink : link ∈ v.links) :
    ∃ p, v.type.procedure? link.logic = some p ∧ p.isVirtual = true := by
  rcases h.went.links_virtual hlink with hstart | hfound
  · cases hstart
  · exact hfound

/-- What is called as the logic for a signature is there exactly where logic was offered. -/
theorem offers (h : Flawless loom t counter turns v) (ht : t.Fresh) (s : Signature) :
    (v.type.findSignature? (SynthKey.generated ⟨.logic, s⟩)).isSome = t.offersLogic s := by
  have hc : v.type.Canonical := h.went.canonical ht.canonical
  rw [Bool.eq_iff_iff, TypeDef.offersLogic, Bool.or_eq_true, List.any_eq_true]
  constructor
  · intro hsome
    obtain ⟨i, hi⟩ := Option.isSome_iff_exists.mp hsome
    obtain ⟨p, hp, hsig⟩ := TypeDef.procedure?_of_findSignature? hi
    by_cases hd : p.isDeclared = true
    · -- a declared procedure was there before
      right
      have hmem := TypeDef.mem_outline.mpr ⟨p, hp, hd, rfl⟩
      rw [h.went.outline_eq] at hmem
      obtain ⟨q, hq, -, hhead⟩ := TypeDef.mem_outline.mp hmem
      have hqsig : q.signature = SynthKey.generated ⟨.logic, s⟩ :=
        (Procedure.signature_eq_of_heading_eq hhead).symm.trans hsig
      rw [TypeDef.findSignature?, List.findIdx?_isSome, List.any_eq_true]
      exact ⟨q, List.mem_of_getElem? hq, by simpa using hqsig⟩
    · left
      have hd' := eq_false_of_ne_true hd
      obtain ⟨x, hx, hmade⟩ := h.went.madeFor_of_fresh ht hp hd'
      have hremote := List.mem_map_of_mem (f := fun x => (x.1.id, x.1.served.heading)) hx
      rw [h.remotes] at hremote
      refine ⟨_, hremote, ?_⟩
      obtain ⟨role, ho⟩ := hmade.origin
      have hkey := SynthKey.eq_of_generated_eq ((hc i p _ hp ho).1.symm.trans hsig)
      have hserved : x.1.served.signature = s := congrArg SynthKey.signature hkey
      simpa using hserved
  · rintro (⟨y, hmem, hsig⟩ | hsome)
    · rw [← h.remotes] at hmem
      obtain ⟨x, hx, rfl⟩ := List.mem_map.mp hmem
      have hsig : x.1.served.signature = s := by simpa using hsig
      obtain ⟨triad, b, hf⟩ := h.woven x hx
      obtain ⟨u, hleft, hgrows, -⟩ := h.went.left_behind ht.canonical hx
      rw [hf] at hleft
      have hfound := hc.find (hgrows.find hleft.installed.logic.found)
      have hkey : x.1.key .logic = ⟨.logic, s⟩ := by
        rw [Job.key, hsig]
      rw [hkey] at hfound
      rw [hfound]
      rfl
    · obtain ⟨i, hi⟩ := Option.isSome_iff_exists.mp hsome
      have hprefix := h.went.signatures_prefix ht.canonical
      rw [TypeDef.findSignature?_of_prefix hprefix hi]
      rfl

end Flawless

end RpcLoom
