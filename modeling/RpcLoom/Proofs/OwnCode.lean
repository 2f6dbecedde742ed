/-
RpcLoom/Proofs/OwnCode.lean

What a run makes of the code of one procedure.

Design.  The links that a type leaves stand for its own virtual logic
(`StandsIn`), one link for each.  So following them leads on the base calls of
that logic once (`led_of_link`) and touches no other procedure.  Where the calls
are led to can be read off the assembly after the run, since links change code
only (`bareAt_weave`).  So it can be said of each procedure of the type what
becomes of its code in a run (`type?_of_woven`).
-/
import RpcLoom.Proofs.Independence
import RpcLoom.Proofs.Relocating

namespace RpcLoom

namespace LogicLink

variable {link other : LogicLink} {links : List LogicLink} {above : List TypeDef} {t : TypeDef}
  {m : ProcedureId} {p : Procedure}

/-! ### One type -/

/-- How following a link changes references, below some types. -/
def leadingBelow (link : LogicLink) (above : List TypeDef) : MethodRef → MethodRef :=
  link.lead (above.map (·.name)) (TypeDef.nearest? above link.wanted)

theorem leading_eq {a : Assembly} {i : TypeId} {is : List TypeId} (hab : a.ancestors i = .ok is)
    (link : LogicLink) : link.leading a i is = link.leadingBelow (a.bareAt is) := by
  rw [leading, leadingBelow, Assembly.findInBase?_eq hab, Assembly.namesOf_eq]
  rfl

/-- Following a link touches no procedure but its logic. -/
theorem procedure?_effect_of_ne (h : link.logic ≠ m) :
    (link.effect above t).1.procedure? m = t.procedure? m := by
  unfold effect
  split
  · rfl
  · split
    · rfl
    · split
      · rfl
      · split
        · rfl
        · show (t.modify link.logic _).procedure? m = _
          rw [TypeDef.procedure?_modify, if_neg h]

/-- Following a link leads on the base calls of its logic. -/
theorem procedure?_effect_self (hp : t.procedure? link.logic = some p)
    (hname : p.name = (⟨.logic, link.served⟩ : SynthKey).mangledName) :
    (link.effect above t).1.procedure? link.logic =
      some { p with body := p.body.map (·.mapMethods (link.leadingBelow above)) } := by
  have hself : ∀ b, p.body = b → { p with body := b } = p := by
    rintro _ rfl
    rfl
  unfold effect
  simp only [hp]
  cases hb : p.body with
  | none =>
    rw [Option.map_none, hself none hb]
    exact hp
  | some body =>
    have hwanted : (⟨p.name, link.served.types⟩ : Signature) = link.wanted := by rw [hname]; rfl
    simp only [hwanted, Option.map_some, leadingBelow]
    by_cases hany : body.nested.any (link.isBaseCall (above.map (·.name))) = true
    · simp only [hany, Bool.not_true, Bool.false_eq_true, if_false]
      cases TypeDef.nearest? above link.wanted with
      | none =>
        rw [body.mapMethods_of_fixed fun _ _ _ _ => lead_none, hself _ hb]
        exact hp
      | some ref =>
        show (t.modify link.logic _).procedure? link.logic = _
        rw [run_mapNestedM, TypeDef.procedure?_modify, if_pos rfl, hp]
        rfl
    · have hquiet := eq_false_of_ne_true hany
      simp only [hquiet, Bool.not_false, if_true]
      rw [mapMethods_of_quiet hquiet, hself _ hb]
      exact hp

/-- A link stands for logic that is in its type. -/
structure StandsIn (link : LogicLink) (t : TypeDef) : Prop where
  name : link.typeName = t.name
  found : t.findSynthesized? ⟨.logic, link.served⟩ = some link.logic

/-- Links of one logic are one link. -/
theorem StandsIn.eq (h : link.StandsIn t) (h' : other.StandsIn t)
    (hlogic : other.logic = link.logic) : other = link := by
  obtain ⟨p, hp, ho⟩ := TypeDef.procedure?_of_findSynthesized? h.found
  obtain ⟨q, hq, ho'⟩ := TypeDef.procedure?_of_findSynthesized? h'.found
  rw [hlogic, hp] at hq
  obtain rfl := Option.some.inj hq
  have hserved : other.served = link.served := by simpa using ho'.symm.trans ho
  rw [LogicLink.mk.injEq]
  exact ⟨h'.name.trans h.name.symm, hlogic, hserved⟩

theorem procedure?_effects_of_ne (h : ∀ link ∈ links, link.logic ≠ m) :
    (effects above links t).1.procedure? m = t.procedure? m := by
  induction links generalizing t with
  | nil => rfl
  | cons link rest ih =>
    have hrest : (effects above (link :: rest) t).1 =
        (effects above rest (link.effect above t).1).1 := rfl
    rw [hrest, ih fun l hl => h l (by simp [hl]), procedure?_effect_of_ne (h link (by simp))]

/-- Following the links of a type leads on the base calls of the logic of each of them, once. -/
theorem procedure?_effects (hnodup : links.Nodup) (hstands : ∀ l ∈ links, l.StandsIn t)
    (hc : t.Canonical) (hlink : link ∈ links) (hp : t.procedure? link.logic = some p) :
    (effects above links t).1.procedure? link.logic =
      some { p with body := p.body.map (·.mapMethods (link.leadingBelow above)) } := by
  have hname : p.name = (⟨.logic, link.served⟩ : SynthKey).mangledName := by
    obtain ⟨q, hq, ho⟩ := TypeDef.procedure?_of_findSynthesized? (hstands link hlink).found
    obtain rfl := Option.some.inj (hp.symm.trans hq)
    exact congrArg Signature.name (hc _ p _ hp ho).1
  have hother : ∀ l ∈ links, l ≠ link → l.logic ≠ link.logic := fun l hl hne hsame =>
    hne ((hstands link hlink).eq (hstands l hl) hsame)
  clear hstands hc
  induction links generalizing t with
  | nil => cases hlink
  | cons first rest ih =>
    obtain ⟨hfirst, hnodup⟩ := List.nodup_cons.mp hnodup
    have hrest : (effects above (first :: rest) t).1 =
        (effects above rest (first.effect above t).1).1 := rfl
    rw [hrest]
    by_cases heq : first = link
    · subst heq
      rw [procedure?_effects_of_ne fun l hl => hother l (by simp [hl]) fun h => hfirst (h ▸ hl)]
      exact procedure?_effect_self hp hname
    · have hne := hother first (by simp) heq
      refine ih hnodup ((List.mem_cons.mp hlink).resolve_left (Ne.symm heq)) ?_
        fun l hl => hother l (by simp [hl])
      rw [procedure?_effect_of_ne hne, hp]

end LogicLink

/-! ### A type with its turns -/

/-- A woven type once its own base calls have been led on, below some types. -/
def TypeWeaving.led (v : TypeWeaving) (above : List TypeDef) : TypeDef :=
  (LogicLink.effects above (v.links.foldl Weaving.keepLink []) v.type).1

namespace TypeWeaving

variable {loom : Loom} {w v : TypeWeaving} {turns : List (Job × Fate)} {above : List TypeDef}
  {m : ProcedureId} {p : Procedure}

theorem bare_led (v : TypeWeaving) (above : List TypeDef) : (v.led above).bare = v.type.bare :=
  LogicLink.bare_effects above _ v.type

theorem name_led (v : TypeWeaving) (above : List TypeDef) : (v.led above).name = v.type.name :=
  TypeDef.name_of_bare_eq (v.bare_led above)

theorem outline_led (v : TypeWeaving) (above : List TypeDef) :
    (v.led above).outline = v.type.outline := by
  rw [← TypeDef.outline_bare, v.bare_led, TypeDef.outline_bare]

theorem bodiless_led (hp : (v.led above).procedure? m = some p) (hbody : p.body = none) :
    v.type.procedure? m = some p :=
  LogicLink.bodiless_effects hp hbody

/-- The links that turns leave stand in the type. -/
theorem standsIn (h : Turns loom w turns v) (hc : w.type.Canonical) (hstart : w.links = [])
    {link : LogicLink} (hlink : link ∈ v.links.foldl Weaving.keepLink []) :
    link.StandsIn v.type := by
  rcases (Weaving.mem_foldl_keepLink v.links []).mp hlink with hnone | hlink
  · cases hnone
  rcases h.links_found hc hlink with hold | ⟨hname, hfound⟩
  · rw [hstart] at hold
    cases hold
  · exact ⟨hname.trans h.name_eq.symm, hfound⟩

/-- What is not logic stays as it is. -/
theorem led_of_not_logic (h : Turns loom w turns v) (hc : w.type.Canonical)
    (hstart : w.links = []) (hp : v.type.procedure? m = some p)
    (ho : ∀ s, p.origin ≠ .synthesized ⟨.logic, s⟩) : (v.led above).procedure? m = some p := by
  rw [led, LogicLink.procedure?_effects_of_ne, hp]
  rintro link hl rfl
  obtain ⟨q, hq, hqo⟩ := TypeDef.procedure?_of_findSynthesized? (standsIn h hc hstart hl).found
  obtain rfl := Option.some.inj (hp.symm.trans hq)
  exact ho _ hqo

/-- Logic that is not virtual stays as it is. -/
theorem led_of_not_virtual (h : Turns loom w turns v) (hstart : w.links = [])
    (hp : v.type.procedure? m = some p) (hvirtual : p.isVirtual = false) :
    (v.led above).procedure? m = some p := by
  rw [led, LogicLink.procedure?_effects_of_ne, hp]
  rintro link hl rfl
  rcases (Weaving.mem_foldl_keepLink v.links []).mp hl with hnone | hl
  · cases hnone
  rcases h.links_virtual hl with hold | ⟨q, hq, hqv⟩
  · rw [hstart] at hold
    cases hold
  · obtain rfl := Option.some.inj (hp.symm.trans hq)
    cases hqv.symm.trans hvirtual

/-- The base calls of logic that has a link are led on. -/
theorem led_of_link (h : Turns loom w turns v) (hc : w.type.Canonical) (hstart : w.links = [])
    {link : LogicLink} (hlink : link ∈ v.links) (hp : v.type.procedure? link.logic = some p) :
    (v.led above).procedure? link.logic =
      some { p with body := p.body.map (·.mapMethods (link.leadingBelow above)) } :=
  LogicLink.procedure?_effects (Weaving.nodup_foldl_keepLink _ .nil)
    (fun _ hl => standsIn h hc hstart hl) (h.canonical hc)
    ((Weaving.mem_foldl_keepLink v.links []).mpr (.inr hlink)) hp

end TypeWeaving

/-! ### A run -/

namespace Loom

open Weaving

variable {w : Weaving} {order above : List TypeId} {i : TypeId} {t : TypeDef}

/-- What the types above a type are without their bodies is not changed by links. -/
theorem bareAt_weave (loom : Loom) (hidle : w.links = [])
    (horder : w.assembly.hierarchyOrder = .ok order) (hnames : w.assembly.NamesDiffer)
    (hab : w.assembly.ancestors i = .ok above) :
    (loom.weave w).1.assembly.bareAt above = loom.wovenAt w.assembly above := by
  obtain ⟨v, o, h, hresult⟩ := loom.weave_of_order horder
  have hbare := LogicLink.bare_followAll (w := { v with links := [] })
    fun link hl => h.sound hidle horder hnames hl
  rw [hresult, ← h.bareAt_above horder hab]
  exact Assembly.bareAt_congr hbare above

/-- What becomes of a type is found where the type was found. -/
theorem has_weave (loom : Loom) (hnames : w.assembly.NamesDiffer)
    (ht : w.assembly.type? i = some t) (hab : w.assembly.ancestors i = .ok above) {u : TypeDef}
    (hu : (loom.weave w).1.assembly.type? i = some u) (hname : u.name = t.name) :
    (loom.weave w).1.assembly.Has u := by
  refine ⟨i, above, ?_, hu, ?_⟩
  · rw [Assembly.find?_congr (loom.faces_weave w), hname]
    exact hnames.find? ht
  · rw [Assembly.ancestors_congr (loom.faces_weave w)]
    exact hab

/-- A type that is woven is left with its own base calls led on. -/
theorem type?_of_woven {loom : Loom} {log : Log} {v : TypeWeaving} (hidle : w.links = [])
    (horder : w.assembly.hierarchyOrder = .ok order) (hnames : w.assembly.NamesDiffer)
    (ht : w.assembly.type? i = some t) (hab : w.assembly.ancestors i = .ok above)
    (halone : loom.alone w.assembly i = (log, .ok v)) :
    (loom.weave w).1.assembly.type? i =
      some (v.led ((loom.weave w).1.assembly.bareAt above)) := by
  rw [loom.type?_weave hidle horder hnames ht hab, loom.bareAt_weave hidle horder hnames hab,
    halone]
  rfl

/-- A type that is not woven stays as it is. -/
theorem type?_of_refused {loom : Loom} {log : Log} {e : WeaveError} (hidle : w.links = [])
    (horder : w.assembly.hierarchyOrder = .ok order) (hnames : w.assembly.NamesDiffer)
    (ht : w.assembly.type? i = some t) (hab : w.assembly.ancestors i = .ok above)
    (halone : loom.alone w.assembly i = (log, .error e)) :
    (loom.weave w).1.assembly.type? i = some t := by
  rw [loom.type?_weave hidle horder hnames ht hab, halone]
  rfl

/-- A type has the table that it comes out with alone. -/
theorem table?_weave (loom : Loom) (hidle : w.links = [])
    (horder : w.assembly.hierarchyOrder = .ok order) (hnames : w.assembly.NamesDiffer)
    (ht : w.assembly.type? i = some t) (hab : w.assembly.ancestors i = .ok above) :
    (loom.weave w).1.table? t.name = tableOf (loom.alone w.assembly i).2 :=
  congrArg Account.table? (loom.told_eq hidle horder hnames ht hab)

/-- A type is reported on as it comes out alone. -/
theorem report?_weave (loom : Loom) (hidle : w.links = [])
    (horder : w.assembly.hierarchyOrder = .ok order) (hnames : w.assembly.NamesDiffer)
    (ht : w.assembly.type? i = some t) (hab : w.assembly.ancestors i = .ok above) :
    (loom.weave w).2.report? t.name = reportOf (loom.alone w.assembly i).2 := by
  have htold := congrArg Account.reports (loom.told_eq hidle horder hnames ht hab)
  have hhead := congrArg List.head? htold
  rw [Account.told, List.head?_filter] at hhead
  rw [Outcome.report?, hhead, Account.due]
  cases reportOf (loom.alone w.assembly i).2 <;> rfl

end Loom

end RpcLoom
