/-
RpcLoom/Proofs/Settling.lean

What weaving a fresh assembly comes to.

Design.  Whatever a turn left of found procedures and clashes is still there
after the last one (`Turns.left_behind`).  So each link a type leaves stands for
logic that is there, and following all links settles them and leads on nothing
but base calls.  The run therefore gathers what each type comes to alone, and
relinks that (`Finished`).
-/
import RpcLoom.Proofs.Following

namespace RpcLoom

/-! ### What is left behind -/

section

variable {loom : Loom} {w w' : TypeWeaving} {turns : List (Job × Fate)} {t : TypeDef}

/-- What a turn left was left in a type that has only grown since, with the same clashes. -/
theorem Turns.left_behind (h : Turns loom w turns w') (hc : w.type.Canonical) {x : Job × Fate}
    (hx : x ∈ turns) :
    ∃ u, x.2.Left loom x.1 u ∧ u.Grows w'.type ∧ ∀ key, u.Clashes key → w'.type.Clashes key := by
  induction h with
  | nil => cases hx
  | @cons w w₁ w₂ j f rest hturn hrest ih =>
    have hc' := hturn.edits.canonical hc
    rcases List.mem_cons.mp hx with rfl | hx
    · exact ⟨w₁.type, hturn.left, hrest.grows, fun key => hrest.clashes hc'⟩
    · exact ih hc' hx

/-- Every link stands for the logic of a call that was woven. -/
theorem Turns.links_of (h : Turns loom w turns w') {link : LogicLink} (hlink : link ∈ w'.links) :
    link ∈ w.links ∨ ∃ x ∈ turns, ∃ triad b, x.2 = .woven triad b ∧
      link = ⟨w.type.name, triad.logic, x.1.served.signature⟩ := by
  induction h with
  | nil => exact .inl hlink
  | @cons w w₁ w₂ j f rest hturn hrest ih =>
    rcases ih hlink with hlink | ⟨x, hx, triad, b, hf, rfl⟩
    · rcases hturn.mem_links.mp hlink with hlink | ⟨triad, b, _, rfl, -, -, -, rfl⟩
      · exact .inl hlink
      · exact .inr ⟨_, List.mem_cons_self, triad, b, rfl, rfl⟩
    · exact .inr ⟨x, List.mem_cons_of_mem _ hx, triad, b, hf, by rw [hturn.edits.name_eq]⟩

theorem Turns.links_found (h : Turns loom w turns w') (hc : w.type.Canonical) {link : LogicLink}
    (hlink : link ∈ w'.links) :
    link ∈ w.links ∨ link.typeName = w.type.name ∧
      w'.type.findSynthesized? ⟨.logic, link.served⟩ = some link.logic := by
  rcases h.links_of hlink with hlink | ⟨x, hx, triad, b, hf, rfl⟩
  · exact .inl hlink
  · obtain ⟨u, hleft, hgrows, -⟩ := h.left_behind hc hx
    rw [hf] at hleft
    exact .inr ⟨rfl, hgrows.find hleft.installed.logic.found⟩

end

/-! ### The links of all types -/

namespace Weaving

theorem mem_foldl_keepLink {link : LogicLink} (links start : List LogicLink) :
    link ∈ links.foldl keepLink start ↔ link ∈ start ∨ link ∈ links := by
  induction links generalizing start with
  | nil => simp
  | cons first rest ih =>
    rw [List.foldl_cons, ih, keepLink]
    by_cases h : first ∈ start
    · rw [if_pos (by simpa using h), List.mem_cons]
      constructor
      · rintro (hs | hr)
        · exact .inl hs
        · exact .inr (.inr hr)
      · rintro (hs | rfl | hr)
        · exact .inl hs
        · exact .inl h
        · exact .inr hr
    · rw [if_neg (by simpa using h), List.mem_append, List.mem_singleton, List.mem_cons, or_assoc]

theorem nodup_foldl_keepLink (links : List LogicLink) {start : List LogicLink}
    (h : start.Nodup) : (links.foldl keepLink start).Nodup := by
  induction links generalizing start with
  | nil => exact h
  | cons first rest ih =>
    rw [List.foldl_cons]
    apply ih
    rw [keepLink]
    by_cases hin : first ∈ start
    · rw [if_pos (by simpa using hin)]
      exact h
    · rw [if_neg (by simpa using hin), List.nodup_append]
      refine ⟨h, by simp, fun x hx y hy hxy => hin ?_⟩
      rw [List.mem_singleton.mp hy] at hxy
      exact hxy ▸ hx

end Weaving

/-- Links of the same logic are the same link. -/
theorem LogicLink.Ready.eq_of_sameLogic {link other : LogicLink} {a : Assembly} {i k : TypeId}
    {above above' : List TypeId} {t u : TypeDef} {p q : Procedure} (h : link.Ready a i above t p)
    (h' : other.Ready a k above' u q) (hsame : link.SameLogic other) : link = other := by
  obtain ⟨hname, hlogic⟩ := hsame
  obtain ⟨rfl, rfl, rfl, rfl⟩ :=
    h.eq_of_find (hname ▸ h'.find) h'.above h'.type (hlogic ▸ h'.logic)
  have hserved : link.served = other.served := by
    simpa using h.origin.symm.trans h'.origin
  rw [LogicLink.mk.injEq]
  exact ⟨hname, hlogic, hserved⟩

namespace Loom

open Weaving

variable {loom : Loom} {a b : Assembly} {order : List TypeId} {v : Weaving} {o : Outcome}

/-- The links that all types of an assembly leave are ready, and no two are of the same logic. -/
theorem Gathers.allReady (h : loom.Gathers a (.start a) order v o)
    (hknown : ∀ i ∈ order, ∃ t above, a.type? i = some t ∧ a.ancestors i = .ok above)
    (hnames : a.NamesDiffer) (hfresh : ∀ t ∈ a.types, t.Fresh) :
    LogicLink.AllReady v.links v.assembly := by
  have hready : ∀ link ∈ v.links, ∃ i above t p, link.Ready v.assembly i above t p := by
    intro link hlink
    rw [h.links, mem_foldl_keepLink] at hlink
    rcases hlink with hstart | hlink
    · cases hstart
    obtain ⟨i, hi, hlink⟩ := List.mem_flatMap.mp hlink
    obtain ⟨t, above, ht, hab⟩ := hknown i hi
    have hmem : t ∈ a.types := List.mem_of_getElem? ht
    obtain ⟨counter, -, ⟨log, e, -, halone⟩ | ⟨log, u, hu, halone⟩⟩ :=
      alone_cases loom ht hab
    · rw [halone] at hlink
      cases hlink
    rw [halone] at hlink
    obtain ⟨-, -, turns, hturns, -⟩ := turns_of_weaveTypeDef hu
    have hcanonical := (hfresh t hmem).canonical
    rcases hturns.links_found hcanonical hlink with hstart | ⟨hname, hfound⟩
    · cases hstart
    obtain ⟨p, hp, horigin⟩ := TypeDef.procedure?_of_findSynthesized? hfound
    refine ⟨i, above, u.type, p, ?_, h.type?_eq hi ht halone, ?_, hp, horigin, ?_⟩
    · rw [Assembly.find?_congr h.faces, hname]
      exact hnames.find? ht
    · rw [Assembly.ancestors_congr h.faces, hab]
    · exact congrArg Signature.name (hturns.canonical hcanonical _ p _ hp horigin).1
  refine ⟨hready, ?_⟩
  have hnodup : v.links.Nodup := h.links ▸ nodup_foldl_keepLink _ .nil
  refine hnodup.imp_of_mem fun {x y} hx hy hne hsame => hne ?_
  obtain ⟨_, _, _, _, hx⟩ := hready x hx
  obtain ⟨_, _, _, _, hy⟩ := hready y hy
  exact hx.eq_of_sameLogic hy hsame

/-- Weaving a fresh assembly gathers what its types come to, and then leads base calls on. -/
structure Finished (loom : Loom) (a : Assembly) (order : List TypeId) (v : Weaving) (o : Outcome)
    (failures : List (Option LinkError)) (b : Assembly) : Prop where
  ordered : a.hierarchyOrder = .ok order
  gathers : loom.Gathers a (.start a) order v o
  relinked : v.assembly.Relinked b
  settled : List.Forall₂ (fun link failure => link.SettledIn b failure) v.links failures
  result : loom.weave (.start a) =
    ({ v with links := [], assembly := b, log := v.log ++ failures.flatMap LogicLink.said },
      { o with errors := o.errors ++ (failures.flatMap (·.toList)).map .link })

theorem finished_of_order (loom : Loom) (horder : a.hierarchyOrder = .ok order)
    (hnames : a.NamesDiffer) (hfresh : ∀ t ∈ a.types, t.Fresh) :
    ∃ v o failures b, loom.Finished a order v o failures b := by
  obtain ⟨-, hknown⟩ := Assembly.of_hierarchyOrder horder
  obtain ⟨v, o, h, hresult⟩ := loom.weave_of_order (w := .start a) horder
  obtain ⟨failures, b, hfollow, hrelinked, hsettled, -⟩ :=
    LogicLink.followAll_settles (w := { v with links := [] })
      (h.allReady hknown hnames hfresh)
  refine ⟨v, o, failures, b, horder, h, hrelinked, hsettled, ?_⟩
  rw [hresult, show v.linkBases = _ from hfollow]

namespace Finished

variable {failures : List (Option LinkError)}

theorem faces_eq (h : loom.Finished a order v o failures b) : a.faces = b.faces :=
  h.gathers.faces.symm.trans (Assembly.faces_of_bare_eq h.relinked.bare).symm

/-- Every type of the order is what it came to alone, relinked. -/
theorem type? (h : loom.Finished a order v o failures b) {i : TypeId} (hi : i ∈ order) :
    ∃ t above F, a.type? i = some t ∧ a.ancestors i = .ok above ∧ b.type? i = some F ∧
      (becomes t (loom.alone a i).2).Relinked F := by
  obtain ⟨-, hknown⟩ := Assembly.of_hierarchyOrder h.ordered
  obtain ⟨t, above, ht, hab⟩ := hknown i hi
  have htype : v.assembly.type? i = some (becomes t (loom.alone a i).2) := by
    rw [h.gathers.type?, if_pos hi]
    show (a.type? i).map _ = _
    rw [ht]
    rfl
  obtain ⟨F, hF, hrelinked⟩ := h.relinked.types i _ htype
  exact ⟨t, above, F, ht, hab, hF, hrelinked⟩

end Finished

end Loom

end RpcLoom
