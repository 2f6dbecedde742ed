/-
RpcLoom/Proofs/Unfailing.lean

Calls that keep the rules are woven.

Design.  A call can only be stuck because the codec breaks a promise, because
its body is gone, or because another procedure is in the place of a generated
one.  Under an honest codec, in a type whose declared procedures have bodies
and leave the generated names to the generated procedures (`TypeDef.Whole`),
none of this happens (`Stuck.unmade`).  So every call that keeps the rules is
registered, and the errors of a type are the rules that the others break
(`errors_weaveTypeDef`).  An assembly whose types derive from none and whose
calls break no rule is woven without an error (`weave_unfailing`).
-/
import RpcLoom.Proofs.Promises
import RpcLoom.Proofs.Relocating
import RpcLoom.Proofs.Settling

namespace RpcLoom

namespace TypeDef

/-- No declared procedure has the signature of a generated one. -/
def LeavesFree (t : TypeDef) : Prop :=
  ∀ x ∈ t.outline, ∀ key : SynthKey, x.2.signature ≠ key.generated

theorem LeavesFree.congr {t u : TypeDef} (h : t.LeavesFree) (houtline : u.outline = t.outline) :
    u.LeavesFree := by
  rw [LeavesFree, houtline]
  exact h

/-- Generated names begin with a word for the part that the procedure plays. -/
theorem leavesFree_of_openings {t : TypeDef}
    (h : ∀ x ∈ t.outline, ∀ role : SynthRole, ¬ role.opening.toList <+: x.2.name.toList) :
    t.LeavesFree := by
  intro x hx key hsig
  have hname : x.2.name = key.mangledName := congrArg Signature.name hsig
  refine h x hx key.role ⟨key.signature.mangled.toList, ?_⟩
  rw [hname, SynthKey.mangledName, String.toList_append]

/-- A procedure that has the signature of a generated one is the generated one. -/
theorem Canonical.not_clashes {t : TypeDef} (hc : t.Canonical) (hfree : t.LeavesFree)
    (key : SynthKey) : ¬ t.Clashes key := by
  intro h
  obtain ⟨i, hi⟩ := Option.isSome_iff_exists.mp h.signed
  obtain ⟨p, hp, hsig⟩ := procedure?_of_findSignature? hi
  cases horigin : p.origin with
  | declared =>
    have hmem := mem_outline.mpr ⟨p, hp, by simp [Procedure.isDeclared, horigin], rfl⟩
    exact hfree _ hmem key hsig
  | synthesized other =>
    obtain rfl := SynthKey.eq_of_generated_eq ((hc i p other hp horigin).1.symm.trans hsig)
    exact findSynthesized?_eq_none.mp h.absent i p hp horigin

/-- A type in which nothing stands in the way of weaving: generated procedures are found where they
should be, no declared one is in the place of a generated one, and no declared body is gone. -/
structure Whole (t : TypeDef) : Prop where
  canonical : t.Canonical
  free : t.LeavesFree
  bodies : ∀ i p, t.procedure? i = some p → p.isDeclared = true → p.body ≠ none

theorem Unwoven.whole {t : TypeDef} (h : t.Unwoven) (hfree : t.LeavesFree) : t.Whole :=
  ⟨h.fresh.canonical, hfree, fun i p hp _ => h.bodies i p hp⟩

end TypeDef

/-! ### Turns -/

namespace Job

variable {loom : Loom} {j : Job} {t : TypeDef} {e : SynthesisError}

/-- Nothing stands in the way of a call that keeps the rules, unless it has no body and no logic. -/
theorem Stuck.unmade (h : Stuck loom j t e) (hcodec : loom.codec.Honest)
    (hkeeps : j.served.Keeps loom.codec j.contract) (hc : t.Canonical) (hfree : t.LeavesFree) :
    t.findSynthesized? (j.key .logic) = none ∧ j.served.body = none := by
  cases h with
  | sender h =>
    obtain ⟨bodies, hbodies⟩ := Loom.senderBodies_ok loom hcodec hkeeps j.rpcId fun _ hk => hk
    cases hbodies.symm.trans h
  | pending _ hnone hbody => exact ⟨hnone, hbody⟩
  | logic _ h => exact (hc.not_clashes hfree _ h).elim
  | @reader _ _ ref _ _ kind _ _ _ _ _ _ h =>
    cases h with
    | body _ hrefused =>
      obtain ⟨body, hmade, -⟩ := Loom.receiverBody_eq loom hcodec hkeeps kind ref
      cases hmade.symm.trans hrefused
    | clash _ h => exact (hc.not_clashes hfree _ h).elim
  | writer _ _ _ _ _ h => exact (hc.not_clashes hfree _ h).elim

end Job

variable {loom : Loom} {w w' : TypeWeaving} {turns : List (Job × Fate)} {t : TypeDef}
  {counter : IdCounter} {log : Log}

/-- The turn of a call that keeps the rules ends with the call woven. -/
theorem Turn.woven {j : Job} {f : Fate} (h : Turn loom w j f w') (hcodec : loom.codec.Honest)
    (hbody : j.served.body ≠ none) (hc : w.type.Canonical) (hfree : w.type.LeavesFree) :
    ∃ triad b, f = .woven triad b := by
  cases f with
  | woven triad b => exact ⟨triad, b, rfl⟩
  | cleared e =>
    have hkeeps := Procedure.keeps_of_contract? h.keeps
    exact absurd (h.left.stuck.unmade hcodec hkeeps (h.edits.canonical hc)
      (hfree.congr h.edits.outline_eq)).2 hbody

theorem Turns.woven (h : Turns loom w turns w') (hcodec : loom.codec.Honest)
    (hbodies : ∀ x ∈ turns, x.1.served.body ≠ none) (hc : w.type.Canonical)
    (hfree : w.type.LeavesFree) : ∀ x ∈ turns, ∃ triad b, x.2 = .woven triad b := by
  induction h with
  | nil => simp
  | @cons w w₁ w₂ j f rest hturn _ ih =>
    intro x hx
    rcases List.mem_cons.mp hx with rfl | hx
    · exact hturn.woven hcodec (hbodies _ List.mem_cons_self) hc hfree
    · exact ih (fun y hy => hbodies y (List.mem_cons_of_mem _ hy)) (hturn.edits.canonical hc)
        (hfree.congr hturn.edits.outline_eq) x hx

namespace Loom

/-- What goes wrong in a type is what its calls do wrong; the others are registered. -/
theorem errors_weaveTypeDef (hcodec : loom.codec.Honest) (ht : t.Whole)
    (h : loom.weaveTypeDef t counter = (log, .ok w)) :
    w.errors = (t.rejections loom.codec).map .rejection ∧
      w.registrations.map (·.procedure) = (t.contracts loom.codec).map (·.1) := by
  obtain ⟨-, -, turns, hturns, hmap⟩ := turns_of_weaveTypeDef h
  have hids := Turns.nodup_ids hmap
  have hwoven := hturns.woven hcodec (fun x hx =>
    ht.bodies _ _ (hturns.served_eq hids hx) (hturns.declared hx).1) ht.canonical ht.free
  constructor
  · rw [hturns.errors_eq, List.filterMap_eq_nil_iff.mpr, List.append_nil]
    · rfl
    · intro x hx
      obtain ⟨triad, b, hf⟩ := hwoven x hx
      rw [hf]
      rfl
  · have hregistered : (turns.filterMap fun x => x.2.registration? x.1).map (·.procedure) =
        turns.map (·.1.id) := by
      rw [List.map_filterMap, ← List.filterMap_eq_map]
      refine List.filterMap_congr fun x hx => ?_
      obtain ⟨triad, b, hf⟩ := hwoven x hx
      rw [hf]
      rfl
    rw [hturns.registrations_eq, ← hmap, List.map_map]
    exact hregistered

end Loom

/-! ### Types that derive from none -/

namespace Assembly

variable {a : Assembly} {i : TypeId}

theorem ancestors_of_root (ht : a.type? i = some t) (hroot : t.base = none) :
    a.ancestors i = .ok [] := by
  rw [ancestors, type, ht]
  show a.climb t.name (a.types.length - 1) [i] t = _
  rw [climb.eq_def]
  simp only [hroot]

theorem eq_nil_of_roots (hroot : ∀ t ∈ a.types, t.base = none) {above : List TypeId}
    (hab : a.ancestors i = .ok above) : above = [] := by
  obtain ⟨t, ht, -⟩ := of_ancestors hab
  exact Except.ok.inj (hab.symm.trans
    (ancestors_of_root ht (hroot t (List.mem_of_getElem? ht))))

theorem hierarchyOrder_of_roots (hroot : ∀ t ∈ a.types, t.base = none) :
    ∃ order, a.hierarchyOrder = .ok order := by
  have hall : ∀ (is seen : List TypeId), (∀ i ∈ is, i < a.types.length) →
      ∃ order, is.foldlM (fun seen i => do
        let chain ← a.chain i
        Except.ok (addNew seen chain.reverse)) seen = .ok order := by
    intro is
    induction is with
    | nil => exact fun seen _ => ⟨seen, rfl⟩
    | cons i is ih =>
      intro seen his
      have hi := his i List.mem_cons_self
      have hchain : a.chain i = .ok [i] := by
        rw [chain, ancestors_of_root (List.getElem?_eq_getElem hi) (hroot _ (List.getElem_mem hi))]
        rfl
      rw [List.foldlM_cons, hchain]
      exact ih _ fun k hk => his k (List.mem_cons_of_mem _ hk)
  exact hall _ [] fun i hi => List.mem_range.mp hi

end Assembly

namespace LogicLink

variable {a : Assembly} {link : LogicLink} {failure : Option LinkError} {links : List LogicLink}
  {failures : List (Option LinkError)}

/-- A link of a type that derives from none has nothing to lead on. -/
theorem SettledIn.none_of_roots (h : link.SettledIn a failure)
    (hroot : ∀ i above, a.ancestors i = .ok above → above = []) : failure = none := by
  obtain ⟨i, above, t, p, hready, hs⟩ := h
  cases hs with
  | quiet => rfl
  | missing _ hany =>
    obtain rfl := hroot i above hready.above
    obtain ⟨x, -, hx⟩ := List.any_eq_true.mp hany
    rw [LogicLink.isBaseCall, Option.any_eq_true] at hx
    obtain ⟨ref, -, href⟩ := hx
    simp [LogicLink.isBaseRef, Assembly.namesOf] at href

theorem failures_of_roots
    (h : List.Forall₂ (fun link failure => link.SettledIn a failure) links failures)
    (hroot : ∀ i above, a.ancestors i = .ok above → above = []) :
    failures.flatMap (·.toList) = [] := by
  induction h with
  | nil => rfl
  | cons hfirst _ ih =>
    rw [List.flatMap_cons, hfirst.none_of_roots hroot, ih]
    rfl

end LogicLink

namespace Loom

variable {a : Assembly}

/-- Types that derive from none, whose calls break no rule and need few enough ids, are woven
without an error. -/
theorem weave_unfailing (hcodec : loom.codec.Honest) (hnames : a.NamesDiffer)
    (hunwoven : ∀ t ∈ a.types, t.Unwoven) (hfree : ∀ t ∈ a.types, t.LeavesFree)
    (hroot : ∀ t ∈ a.types, t.base = none) (hvalid : ∀ t ∈ a.types, t.rejections loom.codec = [])
    (hroom : ∀ t ∈ a.types,
      (t.contracts loom.codec).length ≤ loom.settings.allowance.toNat) :
    (loom.weave (.start a)).2.allErrors = [] := by
  obtain ⟨order, horder⟩ := Assembly.hierarchyOrder_of_roots hroot
  obtain ⟨v, o, failures, b, h⟩ := finished_of_order loom horder hnames fun t ht =>
    (hunwoven t ht).fresh
  obtain ⟨-, hknown⟩ := Assembly.of_hierarchyOrder horder
  -- no type derives from another, so each one counts its ids from zero and has room for them
  have halone : ∀ i ∈ order, ∃ log u, loom.alone a i = (log, .ok u) ∧ u.errors = [] := by
    intro i hi
    obtain ⟨t, above, ht, hab⟩ := hknown i hi
    have hmem : t ∈ a.types := List.mem_of_getElem? ht
    obtain rfl := Assembly.eq_nil_of_roots hroot hab
    obtain ⟨counter, hcounter, ⟨log, e, hweave, -⟩ | ⟨log, u, hweave, hu⟩⟩ :=
      alone_cases loom ht hab
    · have hfits : counter.fits (t.contracts loom.codec).length = true := by
        rw [IdCounter.ofAncestors, hab] at hcounter
        obtain rfl := Except.ok.inj hcounter
        simpa [IdCounter.fits] using hroom t hmem
      rw [weaveTypeDef, if_pos hfits] at hweave
      cases hweave
    · refine ⟨log, u, hu, ?_⟩
      rw [(errors_weaveTypeDef hcodec ((hunwoven t hmem).whole (hfree t hmem)) hweave).1,
        hvalid t hmem]
      rfl
  -- and there is nothing above it that its base calls could be led to
  have hfailures : failures.flatMap (·.toList) = [] :=
    LogicLink.failures_of_roots h.settled fun i above hab => Assembly.eq_nil_of_roots hroot
      ((Assembly.ancestors_congr h.faces_eq i).trans hab)
  have herrors : o.errors = [] := by
    rw [h.gathers.errors, List.filterMap_eq_nil_iff]
    intro i hi
    obtain ⟨log, u, hu, -⟩ := halone i hi
    rw [hu]
    rfl
  have hreports : o.reports.flatMap (·.errors) = [] := by
    rw [h.gathers.reports, List.flatMap_eq_nil_iff]
    intro r hr
    obtain ⟨i, hi, hr⟩ := List.mem_filterMap.mp hr
    obtain ⟨log, u, hu, hnone⟩ := halone i hi
    rw [hu] at hr
    rw [← Option.some.inj hr]
    exact hnone
  rw [h.result, Outcome.allErrors]
  simp only [herrors, hfailures, hreports, List.map_nil, List.append_nil]

end Loom

end RpcLoom
