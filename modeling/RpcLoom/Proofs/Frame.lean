/-
RpcLoom/Proofs/Frame.lean

What weaving may change in a type.

Design.  A declared procedure is touched in its own turn alone, and by no link;
a turn that ends well leaves one procedure for each key of its call, since
generated procedures are the first of their signatures.  The code of a call is
moved once, by the first turn of its signature, and is then changed only where
its base calls are led on (`Turns.isLogicOf`).  What is to be said of a type is
collected in `TypeDef.Changed`; a report decides which calls it is said of.

Main result.  `Loom.weave_changes`, for any codec and any outcome.
-/
import RpcLoom.Proofs.BaseCode
import RpcLoom.Proofs.Foreseen
import RpcLoom.Proofs.Histories
import RpcLoom.Proofs.OwnCode

namespace RpcLoom

/-! ### What there is to say -/

/-- Where the code of a procedure of a type calls after a run.  Base calls of a virtual procedure,
those to its own name and parameters on a type above, lead to the nearest logic above; where there
is none, and all other calls, they lead where they led. -/
def Assembly.ledFrom (b : Assembly) (i : TypeId) (p : Procedure) (ref : MethodRef) : MethodRef :=
  let above := (b.ancestors i).toOption.elim [] b.namesOf
  if p.isVirtual && ref.signature == p.signature && above.contains ref.owner then
    ((b.findInBase? i (SynthKey.generated ⟨.logic, p.signature⟩)).toOption.join).getD ref
  else ref

/-- A procedure is the logic of another: it has the parameters, the visibility and the place in the
hierarchy, is neither static nor abstract, and has the code, with references changed. -/
structure Procedure.IsLogicOf (q p : Procedure) (f : MethodRef → MethodRef) : Prop where
  origin : q.origin = .synthesized ⟨.logic, p.signature⟩
  parameters : q.parameters = p.parameters
  visibility : q.modifiers.visibility = p.modifiers.visibility
  isVirtual : q.modifiers.isVirtual = p.modifiers.isVirtual
  isOverride : q.modifiers.isOverride = p.modifiers.isOverride
  isStatic : q.modifiers.isStatic = false
  isAbstract : q.modifiers.isAbstract = false
  code : ∃ body, p.body = some body ∧ q.body = some (body.mapMethods f)

namespace TypeDef

/-- Exactly one procedure of a type was generated for a key. -/
def HoldsOne (t : TypeDef) (key : SynthKey) : Prop :=
  ∃! m, ∃ q, t.procedure? m = some q ∧ q.origin = .synthesized key

/-- A procedure has its generated procedures: one logic, and for each kind one sender and one
receiver. -/
structure HasTriad (u : TypeDef) (p : Procedure) (kinds : KindSet) : Prop where
  logic : u.HoldsOne ⟨.logic, p.signature⟩
  writers : ∀ kind ∈ kinds.toList, u.HoldsOne ⟨.writer kind, p.signature⟩
  readers : ∀ kind ∈ kinds.toList, u.HoldsOne ⟨.reader kind, p.signature⟩

/-- No call that keeps the rules stands before a position and has the signature. -/
def IsFirst (t : TypeDef) (codec : Codec) (m : ProcedureId) (s : Signature) : Prop :=
  ∀ k p c, k < m → t.procedure? k = some p → p.contract? codec = .ok (some c) → p.signature ≠ s

/-- All that a run changes in a type: `b` is the assembly it leaves, and `u` the type there. -/
structure Changed (loom : Loom) (b : Assembly) (i : TypeId) (report? : Option TypeReport)
    (t u : TypeDef) : Prop where
  name_eq : u.name = t.name
  base_eq : u.base = t.base
  /-- Declared procedures stay where they are, and only calls that keep the rules get another
  body. -/
  kept : ∀ m p, t.procedure? m = some p → ∃ q, u.procedure? m = some q ∧ q.heading = p.heading ∧
    ((∃ c, p.contract? loom.codec = .ok (some c)) ∨ q = p)
  /-- All others are generated. -/
  generated : ∀ m q, t.procedures.length ≤ m → u.procedure? m = some q → q.isDeclared = false
  bodies : ∀ m q, u.procedure? m = some q → q.body ≠ none
  unreported : report? = none → u = t
  registered : ∀ report, report? = some report → ∀ r ∈ report.registrations, ∃ p c,
    t.procedure? r.procedure = some p ∧ p.contract? loom.codec = .ok (some c) ∧
      c.kinds = r.kinds ∧ u.HasTriad p r.kinds ∧
      (t.IsFirst loom.codec r.procedure p.signature →
        ∃ l q, u.procedure? l = some q ∧ q.IsLogicOf p (b.ledFrom i p))

theorem Canonical.holdsOne {t : TypeDef} (hc : t.Canonical) {key : SynthKey} {m : ProcedureId}
    (h : t.findSynthesized? key = some m) : t.HoldsOne key := by
  obtain ⟨p, hp, ho⟩ := procedure?_of_findSynthesized? h
  refine ⟨m, ⟨p, hp, ho⟩, ?_⟩
  rintro k ⟨q, hq, hqo⟩
  -- each is the first of one signature
  exact Option.some.inj ((hc k q key hq hqo).2.symm.trans (hc m p key hp ho).2)

theorem HasTriad.bare {t u : TypeDef} {p : Procedure} {kinds : KindSet} (h : t.HasTriad p kinds)
    (hbare : u.bare = t.bare) : u.HasTriad p kinds := by
  have hone : ∀ {key}, t.HoldsOne key → u.HoldsOne key := by
    have hsame : ∀ m key, (∃ q, u.procedure? m = some q ∧ q.origin = .synthesized key) ↔
        ∃ q, t.procedure? m = some q ∧ q.origin = .synthesized key := by
      intro m key
      have hhead : (u.procedure? m).map (·.heading) = (t.procedure? m).map (·.heading) := by
        rw [← procedure?_bare, hbare, procedure?_bare]
      have horigin := congrArg (Option.map Procedure.origin) hhead
      simp only [Option.map_map, Function.comp_def, Procedure.origin_heading] at horigin
      rw [← Option.map_eq_some_iff, horigin, Option.map_eq_some_iff]
    intro key hkey
    simpa only [HoldsOne, hsame] using hkey
  exact ⟨hone h.logic, fun kind hk => hone (h.writers kind hk),
    fun kind hk => hone (h.readers kind hk)⟩

/-- A type that nothing was done to. -/
theorem Unwoven.changed_self {t : TypeDef} (ht : t.Unwoven) (loom : Loom) (b : Assembly)
    (i : TypeId) : t.Changed loom b i none t where
  name_eq := rfl
  base_eq := rfl
  kept _ p hp := ⟨p, hp, rfl, .inr rfl⟩
  generated _ _ hm hq := absurd (lt_of_procedure? hq) (Nat.not_lt.mpr hm)
  bodies := ht.bodies
  unreported _ := rfl
  registered _ h := nomatch h

end TypeDef

/-! ### Turns -/

namespace Turns

variable {loom : Loom} {t : TypeDef} {counter : IdCounter} {v : TypeWeaving}
  {turns before after : List (Job × Fate)} {x : Job × Fate} {triad : Triad} {b : Body}

/-- A call whose turn ended well has its generated procedures. -/
theorem hasTriad (h : Turns loom (loom.beginType t counter) turns v) (ht : t.Fresh)
    (hx : x ∈ turns) (hf : x.2 = .woven triad b) :
    v.type.HasTriad x.1.served x.1.contract.kinds := by
  have hc : v.type.Canonical := h.canonical ht.canonical
  obtain ⟨u, hleft, hgrows, -⟩ := h.left_behind ht.canonical hx
  rw [hf] at hleft
  have hin := hleft.installed
  refine ⟨hc.holdsOne (hgrows.find hin.logic.found), fun kind hkind => ?_, fun kind hkind => ?_⟩
  · obtain ⟨s, body, -, hw, -⟩ := hin.writer? hkind
    exact hc.holdsOne (hgrows.find hw.found)
  · obtain ⟨s, -, hr⟩ := hin.reader? hkind
    exact hc.holdsOne (hgrows.find hr.found)

/-- The code of a call is moved to the logic by the first turn of its signature, and then its base
calls are led on if it is virtual. -/
theorem isLogicOf (h : Turns loom (loom.beginType t counter) (before ++ x :: after) v)
    (ht : t.Fresh) (hfirst : ∀ y ∈ before, y.1.served.signature ≠ x.1.served.signature)
    (hf : x.2 = .woven triad b) {above : List TypeDef} {f : MethodRef → MethodRef}
    (hled : x.1.served.isVirtual = true →
      f = LogicLink.leadingBelow ⟨t.name, triad.logic, x.1.served.signature⟩ above)
    (hstays : x.1.served.isVirtual = false → f = id) :
    ∃ q, (v.led above).procedure? triad.logic = some q ∧ q.IsLogicOf x.1.served f := by
  obtain ⟨body, hbody, hfound, hlogic, hlink⟩ := h.logic_of_first ht hfirst hf
  have hmoved : ∀ body', body' = body.mapMethods f →
      ({ x.1.served.logicOf body with body := some body' } : Procedure).IsLogicOf x.1.served f :=
    fun body' heq => ⟨rfl, rfl, rfl, rfl, rfl, rfl, rfl, body, hbody, by rw [heq]⟩
  cases hvirtual : x.1.served.isVirtual with
  | true =>
    refine ⟨_, TypeWeaving.led_of_link h ht.canonical rfl (hlink hvirtual) hlogic, hmoved _ ?_⟩
    rw [hled hvirtual]
    rfl
  | false =>
    refine ⟨_, TypeWeaving.led_of_not_virtual h rfl hlogic hvirtual, hmoved body ?_⟩
    rw [hstays hvirtual]
    exact (body.mapMethods_of_fixed fun _ _ _ _ => rfl).symm

end Turns

/-- After a run, base calls lead where following their link leads them. -/
theorem Assembly.ledFrom_eq {b : Assembly} {i : TypeId} {above : List TypeId} {p : Procedure}
    (hab : b.ancestors i = .ok above) (hvirtual : p.isVirtual = true) (link : LogicLink)
    (hlink : link.served = p.signature) :
    b.ledFrom i p = link.leadingBelow (b.bareAt above) := by
  funext ref
  rw [← LogicLink.leading_eq hab, LogicLink.leading, LogicLink.lead, LogicLink.isBaseRef,
    LogicLink.wanted, hlink, ledFrom, hab, hvirtual]
  rfl

theorem Assembly.ledFrom_of_not_virtual {b : Assembly} {i : TypeId} {p : Procedure}
    (hvirtual : p.isVirtual = false) : b.ledFrom i p = id := by
  funext ref
  rw [ledFrom, hvirtual]
  rfl

/-! ### Types -/

section

variable {loom : Loom} {b : Assembly} {i : TypeId} {t : TypeDef} {counter : IdCounter}
  {v : TypeWeaving} {turns : List (Job × Fate)} {types : List TypeDef}

/-- A declared procedure keeps all but its body, and the body as well unless it had a turn. -/
theorem Turns.kept (h : Turns loom (loom.beginType t counter) turns v) (ht : t.Fresh)
    (hids : (turns.map (·.1.id)).Nodup) {m : ProcedureId} {p : Procedure}
    (hp : t.procedure? m = some p) :
    ∃ q, (v.led types).procedure? m = some q ∧ q.heading = p.heading ∧
      ((∃ c, p.contract? loom.codec = .ok (some c)) ∨ q = p) := by
  have hd := ht m p hp
  by_cases hturn : ∃ x ∈ turns, x.1.id = m
  · obtain ⟨x, hx, rfl⟩ := hturn
    obtain rfl := Option.some.inj ((h.served_eq hids hx).symm.trans hp)
    have hmem := TypeDef.mem_outline.mpr ⟨_, hp, hd, rfl⟩
    rw [show t.outline = (v.led types).outline from
      h.outline_eq.symm.trans (v.outline_led types).symm] at hmem
    obtain ⟨q, hq, -, hhead⟩ := TypeDef.mem_outline.mp hmem
    exact ⟨q, hq, hhead.symm, .inl ⟨_, (h.declared hx).2⟩⟩
  · have hkept := h.procedure?_declared hp hd fun x hx hid => hturn ⟨x, hx, hid⟩
    refine ⟨p, TypeWeaving.led_of_not_logic h ht.canonical rfl hkept fun s ho => ?_, rfl, .inr rfl⟩
    exact absurd ho (Procedure.origin_ne_of_isDeclared hd _)

/-- The first call of a signature has the first turn of it. -/
theorem Turns.firstTurn (h : Turns loom (loom.beginType t counter) turns v)
    (hmap : turns.map (fun x => (x.1.id, x.1.contract)) = t.contracts loom.codec)
    {x : Job × Fate} (hx : x ∈ turns)
    (hfirst : t.IsFirst loom.codec x.1.id x.1.served.signature) : FirstTurn turns x := by
  have hids := Turns.nodup_ids hmap
  obtain ⟨before, after, rfl⟩ := List.append_of_mem hx
  refine ⟨before, after, rfl, fun y hy => ?_⟩
  have hy' : y ∈ before ++ x :: after := by simp [hy]
  refine hfirst y.1.id _ _ ?_ (h.served_eq hids hy') (h.declared hy').2
  -- turns are taken in the order of positions
  have hsorted := t.sorted_contracts loom.codec
  rw [← hmap, List.map_map, List.map_append, List.pairwise_append] at hsorted
  exact hsorted.2.2 _ (List.mem_map_of_mem hy) _ (List.mem_map_of_mem List.mem_cons_self)

/-- A registered call has its generated procedures, and the first one of a signature has its code
in the logic. -/
theorem Turns.registered (h : Turns loom (loom.beginType t counter) turns v) (ht : t.Fresh)
    (hmap : turns.map (fun x => (x.1.id, x.1.contract)) = t.contracts loom.codec)
    {above : List TypeId} (hab : b.ancestors i = .ok above) {r : Registration}
    (hr : r ∈ v.registrations) : ∃ p c,
    t.procedure? r.procedure = some p ∧ p.contract? loom.codec = .ok (some c) ∧
      c.kinds = r.kinds ∧ (v.led (b.bareAt above)).HasTriad p r.kinds ∧
      (t.IsFirst loom.codec r.procedure p.signature →
        ∃ l q, (v.led (b.bareAt above)).procedure? l = some q ∧
          q.IsLogicOf p (b.ledFrom i p)) := by
  rw [h.registrations_eq] at hr
  rcases List.mem_append.mp hr with hnone | hr
  · cases hnone
  obtain ⟨x, hx, hreg⟩ := List.mem_filterMap.mp hr
  have hids := Turns.nodup_ids hmap
  rcases hf : x.2 with ⟨triad, body⟩ | e
  · rw [hf] at hreg
    obtain rfl := Option.some.inj hreg
    refine ⟨x.1.served, x.1.contract, h.served_eq hids hx, (h.declared hx).2, rfl,
      (h.hasTriad ht hx hf).bare (v.bare_led _), fun hfirst => ?_⟩
    obtain ⟨before, after, rfl, hbefore⟩ := h.firstTurn hmap hx hfirst
    refine ⟨triad.logic, h.isLogicOf ht hbefore hf (fun hvirtual => ?_) fun hvirtual => ?_⟩
    · exact Assembly.ledFrom_eq hab hvirtual _ rfl
    · exact Assembly.ledFrom_of_not_virtual hvirtual
  · rw [hf] at hreg
    cases hreg

/-- What a run changes in a type that was woven. -/
theorem TypeDef.Unwoven.changed (ht : t.Unwoven) {log : Log}
    (hv : loom.weaveTypeDef t counter = (log, .ok v)) {above : List TypeId}
    (hab : b.ancestors i = .ok above) :
    t.Changed loom b i (some v.report) (v.led (b.bareAt above)) := by
  obtain ⟨-, -, turns, hturns, hmap⟩ := turns_of_weaveTypeDef hv
  have hids := Turns.nodup_ids hmap
  have hbare := v.bare_led (b.bareAt above)
  have houtline : (v.led (b.bareAt above)).outline = t.outline :=
    (v.outline_led _).trans hturns.outline_eq
  constructor
  case name_eq => exact (name_of_bare_eq hbare).trans hturns.name_eq
  case base_eq =>
    exact (face_eq_iff.mp (face_of_bare_eq hbare)).2.1.trans hturns.base_eq
  case kept => exact fun m p hp => hturns.kept ht.fresh hids hp
  case generated =>
    intro m q hm hq
    by_contra hd
    have hmem := mem_outline.mpr ⟨q, hq, eq_true_of_ne_false hd, rfl⟩
    rw [houtline] at hmem
    obtain ⟨p, hp, -, -⟩ := mem_outline.mp hmem
    exact absurd (lt_of_procedure? hp) (Nat.not_lt.mpr hm)
  case bodies =>
    intro m q hq hbody
    exact ht.bodies m q (hturns.bodiless (TypeWeaving.bodiless_led hq hbody) hbody) hbody
  case unreported => exact fun h => nomatch h
  case registered =>
    intro report hreport r hr
    obtain rfl := Option.some.inj hreport
    exact hturns.registered ht.fresh hmap hab hr

end

/-- In a run over declared procedures with bodies, whatever its outcome, a type stays as it is if it
is not reported on.  Otherwise it keeps its declared procedures, all but the bodies of calls that
keep the rules, and no body is missing; a registered call has one logic, and one sender and one
receiver for each of its kinds, and the first call of a signature has its code in the logic, with
base calls led on. -/
theorem Loom.weave_changes (loom : Loom) {a : Assembly} (hnames : a.NamesDiffer)
    (hunwoven : ∀ t ∈ a.types, t.Unwoven) {i : TypeId} {t : TypeDef} (ht : a.type? i = some t) :
    ∃ u, (loom.weave (.start a)).1.assembly.type? i = some u ∧
      t.Changed loom (loom.weave (.start a)).1.assembly i
        ((loom.weave (.start a)).2.report? t.name) u := by
  have htu : t.Unwoven := hunwoven t (List.mem_of_getElem? ht)
  cases horder : a.hierarchyOrder with
  | error e =>
    rw [loom.weave_of_error (w := .start a) horder]
    exact ⟨t, ht, htu.changed_self loom _ i⟩
  | ok order =>
    obtain ⟨-, hknown⟩ := Assembly.of_hierarchyOrder horder
    obtain ⟨t', above, ht', hab⟩ := hknown i (Assembly.mem_hierarchyOrder horder ht)
    obtain rfl := Option.some.inj (ht.symm.trans ht')
    rw [loom.report?_weave (w := .start a) rfl horder hnames ht hab]
    obtain ⟨counter, -, ⟨log, e, -, halone⟩ | ⟨log, v, hv, halone⟩⟩ := loom.alone_cases ht hab
    · refine ⟨t, loom.type?_of_refused (w := .start a) rfl horder hnames ht hab halone, ?_⟩
      show t.Changed loom _ i (Weaving.reportOf (loom.alone a i).2) t
      rw [halone]
      exact htu.changed_self loom _ i
    · have hab' : (loom.weave (.start a)).1.assembly.ancestors i = .ok above := by
        rw [Assembly.ancestors_congr (loom.faces_weave (.start a))]
        exact hab
      refine ⟨_, loom.type?_of_woven (w := .start a) rfl horder hnames ht hab halone, ?_⟩
      show t.Changed loom _ i (Weaving.reportOf (loom.alone a i).2) _
      rw [halone]
      exact htu.changed hv hab'

namespace Sample

/-- The last type of the tower. -/
def leaf : TypeDef := ⟨"Leaf", some "Low", [leafHit]⟩

end Sample

open Sample in
/-- The last type of the tower is reported on with one call, and changed in no other way. -/
theorem Loom.weave_changes_tower :
    tower.NamesDiffer ∧ (∀ t ∈ tower.types, t.Unwoven) ∧ tower.type? 3 = some leaf ∧
    ((Sample.loom.weave (.start tower)).2.report? leaf.name).map (·.registrations.length) = some 1 ∧
    ∃ u, (Sample.loom.weave (.start tower)).1.assembly.type? 3 = some u ∧
      leaf.Changed Sample.loom (Sample.loom.weave (.start tower)).1.assembly 3
        ((Sample.loom.weave (.start tower)).2.report? leaf.name) u :=
  ⟨by decide, unwoven_tower, rfl, by decide +kernel,
    weave_changes Sample.loom (by decide) unwoven_tower rfl⟩

/-! ### Calls of one signature -/

namespace Sample

/-- A call that has the signature of another and does something else. -/
def rival : Procedure := { halt with body := some (.recording "app::halt" 0) }

/-- A type that declares both. -/
def rivals : Assembly := ⟨[⟨"Sentry", none, [halt, rival]⟩]⟩

end Sample

open Sample in
/-- Of two calls of one signature both are registered, but the one logic has the code of the first.
What the second one does is lost. -/
theorem Loom.code_lost_rivals :
    rivals.NamesDiffer ∧ (∀ t ∈ rivals.types, t.Unwoven) ∧
    ((Sample.loom.weave (.start rivals)).2.report? "Sentry").map
      (·.registrations.map (·.procedure)) = some [0, 1] ∧
    ∃ u, (Sample.loom.weave (.start rivals)).1.assembly.type? 0 = some u ∧
      ∀ l q f, u.procedure? l = some q → ¬ q.IsLogicOf rival f := by
  have hlogic : ((Sample.loom.weave (.start rivals)).1.assembly.type? 0).map (fun u =>
      u.procedures.all fun q => decide (q.origin = .synthesized ⟨.logic, rival.signature⟩ →
        q.body.map (·.code.length) = some 1)) = some true := by decide +kernel
  obtain ⟨u, hu, hall⟩ := Option.map_eq_some_iff.mp hlogic
  refine ⟨by decide, by decide, by decide +kernel, u, hu, fun l q f hq hmoved => ?_⟩
  have hone := of_decide_eq_true (List.all_eq_true.mp hall q (List.mem_of_getElem? hq))
    hmoved.origin
  -- the second call has two instructions, and changing references keeps their number
  obtain ⟨body, hbody, hcode⟩ := hmoved.code
  obtain rfl := Option.some.inj hbody
  rw [hcode, Option.map_some, Body.mapMethods, Block.mapMethods_eq_map, List.length_map] at hone
  exact absurd hone (by decide)

end RpcLoom
