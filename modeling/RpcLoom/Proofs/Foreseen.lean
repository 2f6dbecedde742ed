/-
RpcLoom/Proofs/Foreseen.lean

Weaving goes wrong only as the calls and the hierarchy do.

Design.  A turn leaves a body in every procedure that it touches
(`Turn.bodiless`), and leading base calls on touches generated code alone.  So
a type in which nothing stands in the way of weaving is left in that state by
every run, and with it the whole assembly (`Healthy.weave`): a later run, by the
same weaver or by another, meets what the first one met.  In such a state, and
under an honest codec, the report on a type lists the rules that its calls
break, a whole type fails for want of ids alone, and leading base calls on fails
for want of logic above alone (`Healthy.foreseen`).

Main result.  `Loom.weave_foreseen`: this holds of every run over an assembly
that has been woven any number of times.
-/
import RpcLoom.Proofs.Covering
import RpcLoom.Proofs.ErrorLog
import RpcLoom.Proofs.Independence
import RpcLoom.Proofs.Unfailing

namespace RpcLoom

/-! ### Disorder -/

/-- A failure to put types in an order. -/
inductive DeclError.OfHierarchy : DeclError → Prop
  | orphan (typeName base : String) : OfHierarchy (.baseTypeNotFound typeName base)
  | circle (typeName : String) : OfHierarchy (.inheritanceCycle typeName)

namespace Assembly

variable {a : Assembly} {e : DeclError}

theorem ofHierarchy_of_climb {origin : String} {unmet : Nat} {met : List TypeId} {t : TypeDef}
    (h : a.climb origin unmet met t = .error e) : e.OfHierarchy := by
  induction unmet generalizing met t with
  | zero =>
    unfold climb at h
    split at h
    · cases h
    · split at h
      · cases h
        exact .orphan ..
      · split at h <;> cases h <;> exact .circle _
  | succ unmet ih =>
    unfold climb at h
    split at h
    · cases h
    · split at h
      · cases h
        exact .orphan ..
      next k _ =>
        split at h
        · cases h
          exact .circle _
        · cases hnext : a.type? k with
          | none =>
            simp only [hnext] at h
            cases h
            exact .circle _
          | some next =>
            cases hrest : a.climb origin unmet (k :: met) next with
            | error e' =>
              simp only [hnext, hrest] at h
              cases h
              exact ih hrest
            | ok above =>
              simp only [hnext, hrest] at h
              cases h

/-- Types lack an order only if a base is not declared or bases run in a circle. -/
theorem ofHierarchy_of_order (h : a.hierarchyOrder = .error e) : e.OfHierarchy := by
  have hall : ∀ (is seen : List TypeId), (∀ i ∈ is, i < a.types.length) →
      is.foldlM (fun seen i => do
        let chain ← a.chain i
        Except.ok (addNew seen chain.reverse)) seen = .error e → e.OfHierarchy := by
    intro is
    induction is with
    | nil =>
      intro seen _ h
      cases h
    | cons i is ih =>
      intro seen his h
      have hlt : i < a.types.length := his i (by simp)
      have hi : a.type? i = some a.types[i] := List.getElem?_eq_getElem hlt
      rw [List.foldlM_cons] at h
      cases hab : a.ancestors i with
      | ok above =>
        rw [chain_of_ancestors hab] at h
        exact ih _ (fun k hk => his k (by simp [hk])) h
      | error e' =>
        rw [chain, hab] at h
        cases h
        rw [ancestors, type, hi] at hab
        exact ofHierarchy_of_climb hab
  exact hall _ [] (fun i hi => List.mem_range.mp hi) h

end Assembly

/-! ### Types -/

section

variable {loom : Loom} {j : Job} {t u : TypeDef} {w w' : TypeWeaving} {f : Fate}
  {turns : List (Job × Fate)} {i : ProcedureId} {p : Procedure}

/-- A turn puts a body back wherever it took one out. -/
theorem Turn.bodiless (h : Turn loom w j f w') (hp : w'.type.procedure? i = some p)
    (hbody : p.body = none) : w.type.procedure? i = some p := by
  obtain ⟨b, hhere⟩ : ∃ b, w'.type.procedure? j.id = some (j.served.withBody b) := by
    have hleft := h.left
    cases f with
    | woven triad b => exact ⟨b, hleft.here⟩
    | cleared e => exact ⟨.justLeave, hleft.here⟩
  have hid : i ≠ j.id := by
    rintro rfl
    rw [Option.some.inj (hp.symm.trans hhere)] at hbody
    cases hbody
  rcases h.edits.kept_or_made hp hid with hp | hmade
  · exact hp
  · cases hmade <;> cases hbody

theorem Turns.bodiless (h : Turns loom w turns w') (hp : w'.type.procedure? i = some p)
    (hbody : p.body = none) : w.type.procedure? i = some p := by
  induction h with
  | nil => exact hp
  | cons hturn _ ih => exact hturn.bodiless (ih hp) hbody

theorem Turns.whole (h : Turns loom w turns w') (hw : w.type.Whole) : w'.type.Whole where
  canonical := h.canonical hw.canonical
  free := hw.free.congr h.outline_eq
  bodies i p hp hd hbody := hw.bodies i p (h.bodiless hp hbody) hd hbody

theorem LogicLink.effects_whole (above : List TypeDef) (links : List LogicLink) (ht : t.Whole) :
    (effects above links t).1.Whole where
  canonical := ht.canonical.bare (bare_effects above links t)
  free := ht.free.congr
    (by rw [← TypeDef.outline_bare, bare_effects above links t, TypeDef.outline_bare])
  bodies i p hp hd hbody := ht.bodies i p (bodiless_effects hp hbody) hd hbody

/-- User names are free for declared procedures. -/
theorem TypeDef.leavesFree_of_userNames (h : ∀ p ∈ t.procedures, UserName p.name) :
    t.LeavesFree := by
  refine leavesFree_of_openings fun x hx => ?_
  obtain ⟨p, hp, -, hhead⟩ := mem_outline.mp hx
  rw [hhead]
  exact h p (List.mem_of_getElem? hp)

end

/-! ### Assemblies -/

/-- Only two failures outside the reports are told of a type. -/
theorem WeaveError.eq_of_typeName? (e : WeaveError) (h : e.typeName?.isSome = true) :
    (∃ typeName required allowance, e = .quotaExceeded typeName required allowance) ∨
      ∃ typeName logic, e = .link (.baseLogicNotFound typeName logic) := by
  match e, h with
  | .quotaExceeded typeName required allowance, _ =>
    exact .inl ⟨typeName, required, allowance, rfl⟩
  | .link (.baseLogicNotFound typeName logic), _ => exact .inr ⟨typeName, logic, rfl⟩

/-- A state between two runs, in which nothing stands in the way of weaving any type. -/
structure Weaving.Healthy (w : Weaving) : Prop where
  names : w.assembly.NamesDiffer
  whole : ∀ i t, w.assembly.type? i = some t → t.Whole
  idle : w.links = []

/-- An outcome in which nothing goes wrong but what the calls and the hierarchy do wrong. -/
inductive Outcome.Foreseen (loom : Loom) (a : Assembly) : Outcome → Prop
  /-- The types have no order. -/
  | disorder {e : DeclError} (h : e.OfHierarchy) : Foreseen loom a ⟨[], [.declaration e]⟩
  /-- A type has a report, or needs too many ids.  A report registers the calls that keep the rules
  and lists the rules that the others break; besides, base calls may have no logic above to be led
  to. -/
  | woven {o : Outcome}
      (htypes : ∀ i t, a.type? i = some t → (∃ r ∈ o.reports, r.typeName = t.name) ∨
        ∃ required allowance, .quotaExceeded t.name required allowance ∈ o.errors)
      (hreports : ∀ r ∈ o.reports, ∃ i t, a.type? i = some t ∧ r.typeName = t.name ∧
        r.errors = (t.rejections loom.codec).map .rejection ∧
        r.registrations.map (·.procedure) = (t.contracts loom.codec).map (·.1))
      (herrors : ∀ e ∈ o.errors,
        (∃ typeName required allowance, e = .quotaExceeded typeName required allowance) ∨
          ∃ typeName logic, e = .link (.baseLogicNotFound typeName logic)) : Foreseen loom a o

namespace Loom

open Weaving

variable {loom : Loom}

/-- A type is left whole by its turns. -/
theorem whole_becomes {a : Assembly} {i : TypeId} {t : TypeDef} {above : List TypeId}
    (ht : a.type? i = some t) (hab : a.ancestors i = .ok above) (hwhole : t.Whole) :
    (becomes t (loom.alone a i).2).Whole := by
  obtain ⟨counter, -, ⟨log, e, -, halone⟩ | ⟨log, u, hu, halone⟩⟩ := loom.alone_cases ht hab
  · rw [halone]
    exact hwhole
  · rw [halone]
    obtain ⟨-, -, turns, hturns, -⟩ := turns_of_weaveTypeDef hu
    exact hturns.whole hwhole

/-- The report on a whole type registers the calls that keep the rules, and lists the rules that
the others break. -/
theorem report_of_whole {a : Assembly} {i : TypeId} {t : TypeDef} {above : List TypeId}
    {r : TypeReport} (hcodec : loom.codec.Honest) (ht : a.type? i = some t)
    (hab : a.ancestors i = .ok above) (hwhole : t.Whole)
    (hr : reportOf (loom.alone a i).2 = some r) :
    r.typeName = t.name ∧ r.errors = (t.rejections loom.codec).map .rejection ∧
      r.registrations.map (·.procedure) = (t.contracts loom.codec).map (·.1) := by
  refine ⟨typeName_of_reportOf ht hab hr, ?_⟩
  obtain ⟨counter, -, ⟨log, e, -, halone⟩ | ⟨log, u, hu, halone⟩⟩ := loom.alone_cases ht hab
  · rw [halone] at hr
    cases hr
  · rw [halone] at hr
    rw [← Option.some.inj hr]
    exact errors_weaveTypeDef hcodec hwhole hu

end Loom

namespace Weaving.Healthy

open Weaving

variable {loom : Loom} {w : Weaving}

/-- A run leaves nothing in the way of the next. -/
theorem weave (hw : w.Healthy) (loom : Loom) : (loom.weave w).1.Healthy := by
  cases horder : w.assembly.hierarchyOrder with
  | error e =>
    rw [loom.weave_of_error horder]
    exact ⟨hw.names, hw.whole, hw.idle⟩
  | ok order =>
    have hfaces := loom.faces_weave w
    refine ⟨hw.names.congr hfaces.symm, fun i u hu => ?_, loom.links_weave hw.idle⟩
    rcases Assembly.type?_congr hfaces i with ⟨hnone, -⟩ | ⟨_, t, -, ht, -⟩
    · cases hnone.symm.trans hu
    obtain ⟨above, hab⟩ := Assembly.ancestors_of_hierarchyOrder horder ht
    rw [loom.type?_weave hw.idle horder hw.names ht hab] at hu
    rw [← Option.some.inj hu]
    exact LogicLink.effects_whole _ _ (Loom.whole_becomes ht hab (hw.whole i t ht))

/-- Under an honest codec a run goes wrong only as the calls and the hierarchy do. -/
theorem foreseen (hw : w.Healthy) (hcodec : loom.codec.Honest) :
    (loom.weave w).2.Foreseen loom w.assembly := by
  rcases loom.weave_cases w with ⟨e, he, hresult⟩ | ⟨order, v, o, horder, h, hresult⟩
  · rw [hresult]
    exact .disorder (Assembly.ofHierarchy_of_order he)
  · obtain ⟨-, hknown⟩ := Assembly.of_hierarchyOrder horder
    refine .woven (fun i t ht => ?_) (fun r hr => ?_) fun e he => ?_
    · have hi := Assembly.mem_hierarchyOrder horder ht
      obtain ⟨t', above, ht', hab⟩ := hknown i hi
      obtain rfl := Option.some.inj (ht.symm.trans ht')
      obtain ⟨counter, -, ⟨log, e, he, halone⟩ | ⟨log, u, hu, halone⟩⟩ := loom.alone_cases ht hab
      · obtain ⟨-, required, allowance, rfl⟩ := error_of_weaveTypeDef he
        refine .inr ⟨required, allowance, ?_⟩
        rw [hresult]
        refine List.mem_append_left _ (h.errors ▸ List.mem_filterMap.mpr ⟨i, hi, ?_⟩)
        rw [halone]
        rfl
      · refine .inl ⟨u.report, ?_, ?_⟩
        · rw [hresult]
          refine h.reports ▸ List.mem_filterMap.mpr ⟨i, hi, ?_⟩
          rw [halone]
          rfl
        · exact Loom.typeName_of_reportOf ht hab (by rw [halone]; rfl)
    · rw [hresult] at hr
      rw [show r ∈ o.reports ↔ _ from h.reports ▸ List.mem_filterMap] at hr
      obtain ⟨i, hi, hr⟩ := hr
      obtain ⟨t, above, ht, hab⟩ := hknown i hi
      exact ⟨i, t, ht, Loom.report_of_whole hcodec ht hab (hw.whole i t ht) hr⟩
    · exact e.eq_of_typeName? (loom.typeName?_of_mem_errors hw.idle horder hw.names he)

end Weaving.Healthy

/-- A state that an assembly is in after any number of runs, each of them by any weaver: by one
that goes on from what it knows, or by a new one. -/
inductive Weaving.After (a : Assembly) : Weaving → Prop
  | start : After a (.start a)
  | weave {w : Weaving} (h : After a w) (loom : Loom) : After a (loom.weave w).1
  | afresh {w : Weaving} (h : After a w) : After a (.start w.assembly)

theorem Weaving.After.healthy {a : Assembly} {w : Weaving} (h : Weaving.After a w)
    (hstart : (Weaving.start a).Healthy) : w.Healthy := by
  induction h with
  | start => exact hstart
  | weave _ loom ih => exact ih.weave loom
  | afresh _ ih => exact ⟨ih.names, ih.whole, rfl⟩

/-- Nothing unforeseen happens to declared procedures with bodies and user names under an honest
codec, in the first run and in every later one.  Every report registers the calls that keep the
rules and lists the rules that the others break.  Besides, there is one failure to order the types,
or there are types that need too many ids and base calls without logic above. -/
theorem Loom.weave_foreseen {loom : Loom} {a : Assembly} {w : Weaving}
    (hcodec : loom.codec.Honest) (hnames : a.NamesDiffer) (hunwoven : ∀ t ∈ a.types, t.Unwoven)
    (huser : ∀ t ∈ a.types, ∀ p ∈ t.procedures, UserName p.name) (hafter : Weaving.After a w) :
    (loom.weave w).2.Foreseen loom w.assembly := by
  refine (hafter.healthy ⟨hnames, fun i t ht => ?_, rfl⟩).foreseen hcodec
  have hmem : t ∈ a.types := List.mem_of_getElem? ht
  exact (hunwoven t hmem).whole (TypeDef.leavesFree_of_userNames (huser t hmem))

namespace Sample

/-- The crowd, which was too large for the miser, after a run by the usual weaver. -/
def settledCrowd : Weaving :=
  (loom.weave (.start (miser.weave (.start crowd)).1.assembly)).1

end Sample

open Sample in
/-- In its third run the crowd has two calls registered, and one rule that the third call breaks. -/
theorem Loom.weave_foreseen_crowd :
    Sample.loom.codec.Honest ∧ crowd.NamesDiffer ∧ (∀ t ∈ crowd.types, t.Unwoven) ∧
    (∀ t ∈ crowd.types, ∀ p ∈ t.procedures, UserName p.name) ∧
    Weaving.After crowd settledCrowd ∧
    ((Sample.loom.weave settledCrowd).2.reports.map fun r =>
      (r.registrations.map (·.procedure), r.errors.length)) = [([0, 1], 1)] ∧
    (Sample.loom.weave settledCrowd).2.Foreseen Sample.loom settledCrowd.assembly := by
  have hafter : Weaving.After crowd settledCrowd := .weave (.afresh (.weave .start _)) _
  exact ⟨Codec.honest_standard, by decide, by decide, by decide, hafter, by decide +kernel,
    weave_foreseen Codec.honest_standard (by decide) (by decide) (by decide) hafter⟩

end RpcLoom
