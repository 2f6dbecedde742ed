/-
RpcLoom/Proofs/ThreeRuns.lean

A type in three runs.

Design.  Take a type of declared procedures with bodies.  It is woven (the first
run), procedures are added, and it is woven again (the second run); or the same
procedures are added first, and it is woven only then (the only run).  `Thrice`
holds what the three runs leave of the type.  The second and the only run begin
with the same calls at the same counter, so their turns match.  Receivers are
those of the first call of a signature, and additions come last, so it does not
matter that the first run made some of them (`receiver_eq`); senders are made anew
(`sender_eq`).  Logic holds the code of the first call as well, but its base calls
are led on by each run that finds them, and only once: where the first run has led
them they stay (`logic_led`).
-/
import RpcLoom.Proofs.Matching

namespace RpcLoom

/-- No type needs too many ids. -/
def Outcome.WithinQuota (o : Outcome) : Prop :=
  ∀ typeName required allowance, .quotaExceeded typeName required allowance ∉ o.errors

/-! ### What one run leaves of a type -/

/-- What a run leaves of a type with enough ids: its turns, the table and the report. -/
structure Loom.Leaves (loom : Loom) (w : Weaving) (i : TypeId) (above : List TypeId) (t : TypeDef)
    (counter : IdCounter) (turns : List (Job × Fate)) (v : TypeWeaving) : Prop where
  ran : loom.Ran t counter turns v
  type : (loom.weave w).1.assembly.type? i =
    some (v.led ((loom.weave w).1.assembly.bareAt above))
  table : (loom.weave w).1.table? t.name = some v.table
  report : (loom.weave w).2.report? t.name = some v.report

namespace Loom

open Weaving

variable {loom : Loom} {w : Weaving} {order above : List TypeId} {i : TypeId} {t : TypeDef}

/-- A type needs no more ids than it may use in a run without a failure to that effect. -/
theorem fits_of_withinQuota (hidle : w.links = [])
    (horder : w.assembly.hierarchyOrder = .ok order) (hnames : w.assembly.NamesDiffer)
    (ht : w.assembly.type? i = some t) (hab : w.assembly.ancestors i = .ok above)
    (hquota : (loom.weave w).2.WithinQuota) {counter : IdCounter}
    (hcounter : IdCounter.ofAncestors w.assembly i loom.settings.allowance = .ok counter) :
    counter.fits (t.contracts loom.codec).length = true := by
  obtain ⟨counter', hcounter', ⟨log, e, he, halone⟩ | ⟨log, v, hv, halone⟩⟩ :=
    loom.alone_cases ht hab
  · -- the failure of a type that is not woven is among those of the run
    obtain ⟨-, required, allowance, rfl⟩ := error_of_weaveTypeDef he
    have htold := congrArg Account.errors (loom.told_eq hidle horder hnames ht hab)
    rw [halone] at htold
    have hmem : WeaveError.quotaExceeded t.name required allowance ∈
        (Account.told (loom.weave w) t.name).errors := by
      rw [htold]
      exact List.mem_append_left _ (List.mem_singleton_self _)
    exact absurd (List.mem_filter.mp hmem).1 (hquota _ _ _)
  · obtain rfl := Except.ok.inj (hcounter.symm.trans hcounter')
    exact (turns_of_weaveTypeDef hv).1

theorem leaves_weave (hcodec : loom.codec.Honest) (hidle : w.links = [])
    (horder : w.assembly.hierarchyOrder = .ok order) (hnames : w.assembly.NamesDiffer)
    (ht : w.assembly.type? i = some t) (hab : w.assembly.ancestors i = .ok above)
    (htidy : t.Tidy) {counter : IdCounter}
    (hcounter : IdCounter.ofAncestors w.assembly i loom.settings.allowance = .ok counter)
    (hfits : counter.fits (t.contracts loom.codec).length = true) :
    ∃ turns v, loom.Leaves w i above t counter turns v := by
  obtain ⟨counter', hcounter', ⟨log, e, he, -⟩ | ⟨log, v, hv, halone⟩⟩ := loom.alone_cases ht hab
  all_goals obtain rfl := Except.ok.inj (hcounter.symm.trans hcounter')
  · simp [weaveTypeDef, hfits] at he
  · obtain ⟨-, -, turns, hturns, hjobs⟩ := turns_of_weaveTypeDef hv
    refine ⟨turns, v, ⟨hturns, hjobs, htidy, hcodec⟩,
      type?_of_woven hidle horder hnames ht hab halone, ?_, ?_⟩
    · rw [loom.table?_weave hidle horder hnames ht hab, halone]
      rfl
    · rw [loom.report?_weave hidle horder hnames ht hab, halone]
      rfl

namespace Ran

variable {counter : IdCounter} {turns : List (Job × Fate)} {v : TypeWeaving}
  {types : List TypeDef} {s : Signature}

/-- The base calls of logic are led on if there is a call for it. -/
theorem generated?_led (h : loom.Ran t counter turns v)
    (hold : (t.generated? ⟨.logic, s⟩).isSome = true →
      (loom.codec.logicFor? t.procedures s).isSome = true) :
    (v.led types).generated? ⟨.logic, s⟩ = (v.type.generated? ⟨.logic, s⟩).map (·.ledBy
      (s.lead (types.map (·.name)) (TypeDef.nearest? types (SynthKey.generated ⟨.logic, s⟩)))) := by
  refine TypeWeaving.generated?_led_logic h.went h.tidy.canonical rfl fun hsome => ?_
  have hcall : (loom.codec.logicFor? t.procedures s).isSome = true := by
    rw [h.logic, Option.isSome_or, Bool.or_eq_true] at hsome
    exact hsome.elim hold id
  rw [Codec.isSome_logicFor?, ← h.shape, List.any_map, List.any_eq_true] at hcall
  obtain ⟨x, hx, hsame⟩ := hcall
  obtain ⟨hwoven, hs⟩ := Bool.and_eq_true_iff.mp hsame
  exact ⟨x, hx, hwoven, (beq_iff_eq.mp hs).symm⟩

end Ran

end Loom

/-! ### A type in three runs -/

/-- What a first run leaves of a type: `t` becomes `u`. -/
structure Loom.FirstRun (loom : Loom) (a : Assembly) (i : TypeId) (above : List TypeId)
    (t u : TypeDef) (firstly : TypeWeaving) : Prop where
  whole : t.Whole
  fresh : t.Fresh
  wholeAfter : u.Whole
  first : ∃ counter turns, loom.Leaves (.start a) i above t counter turns firstly
  after : u = firstly.led ((loom.weave (.start a)).1.assembly.bareAt above)

namespace Loom.FirstRun

variable {loom : Loom} {a : Assembly} {i : TypeId} {above : List TypeId} {t u : TypeDef}
  {firstly : TypeWeaving} (h : loom.FirstRun a i above t u firstly)

include h

theorem name_after : u.name = t.name := by
  obtain ⟨counter, turns, hfirst⟩ := h.first
  rw [h.after]
  exact hfirst.ran.name_led _

theorem outline_after : u.outline = t.outline := by
  obtain ⟨counter, turns, hfirst⟩ := h.first
  rw [h.after]
  exact hfirst.ran.outline_led _

/-- The first run leaves the calls, and all of them have bodies. -/
theorem shape_after : loom.codec.shape u.procedures = loom.codec.shape t.procedures := by
  rw [Codec.shape_of_whole _ h.wholeAfter, Codec.shape_of_whole _ h.whole, h.outline_after]

theorem shape_extend (ps : List Procedure) :
    loom.codec.shape (u.extend ps).procedures = loom.codec.shape (t.extend ps).procedures := by
  show loom.codec.shape (u.procedures ++ ps) = loom.codec.shape (t.procedures ++ ps)
  rw [Codec.shape_append, Codec.shape_append, h.shape_after]

/-- The logic that the first run leaves. -/
theorem logic_after (s : Signature) : u.generated? ⟨.logic, s⟩ =
    (loom.codec.logicFor? t.procedures s).map (·.ledBy
      (s.lead (((loom.weave (.start a)).1.assembly.bareAt above).map (·.name))
        (TypeDef.nearest? ((loom.weave (.start a)).1.assembly.bareAt above)
          (SynthKey.generated ⟨.logic, s⟩)))) := by
  obtain ⟨counter, turns, hfirst⟩ := h.first
  rw [h.after, hfirst.ran.generated?_led fun hsome => by simp [h.fresh.generated?] at hsome,
    hfirst.ran.logic, h.fresh.generated?, Option.none_or]

theorem isSome_logic_after (s : Signature) : (u.generated? ⟨.logic, s⟩).isSome =
    (loom.codec.logicFor? u.procedures s).isSome := by
  rw [h.logic_after, Option.isSome_map, Codec.isSome_logicFor?, ← h.shape_after,
    ← Codec.isSome_logicFor?]

/-- The signature of logic is that of a procedure. -/
theorem exists_signature {s : Signature} (hs : (u.findSynthesized? ⟨.logic, s⟩).isSome = true) :
    ∃ q ∈ u.procedures, q.signature = s := by
  obtain ⟨l, hl⟩ := Option.isSome_iff_exists.mp hs
  obtain ⟨p, hp, -⟩ := TypeDef.procedure?_of_findSynthesized? hl
  have hsome := h.isSome_logic_after s
  rw [TypeDef.generated?_of_find hl hp, Option.isSome_some, eq_comm,
    Option.isSome_iff_exists] at hsome
  obtain ⟨q, hq⟩ := hsome
  obtain ⟨x, hx, hsame, -⟩ := Codec.of_logicFor? hq
  exact ⟨x.1, (Codec.mem_calls.mp hx).1, hsame⟩

/-- The first run takes no signature that a user would choose. -/
theorem untaken {p : Procedure} (huser : UserName p.name)
    (hnew : t.findSignature? p.signature = none) : u.findSignature? p.signature = none := by
  cases hs : u.findSignature? p.signature with
  | none => rfl
  | some k =>
    obtain ⟨q, hq, hsame⟩ := TypeDef.procedure?_of_findSignature? hs
    cases ho : q.origin with
    | declared =>
      -- a declared procedure was there before
      have hmem := TypeDef.mem_outline.mpr ⟨q, hq, by simp [Procedure.isDeclared, ho], rfl⟩
      rw [h.outline_after] at hmem
      obtain ⟨r, hr, -, hhead⟩ := TypeDef.mem_outline.mp hmem
      have hnone := List.findIdx?_eq_none_iff.mp hnew r (List.mem_of_getElem? hr)
      rw [← Procedure.signature_eq_of_heading_eq hhead, hsame] at hnone
      simp at hnone
    | synthesized key =>
      have hname : p.name = key.mangledName :=
        congrArg Signature.name (hsame.symm.trans (h.wholeAfter.canonical k q key hq ho).1)
      refine absurd ?_ (huser key.role)
      rw [hname, SynthKey.mangledName, String.toList_append]
      exact List.prefix_append _ _

end Loom.FirstRun

/-- What three runs leave of a type: a first one, a second one after procedures were added, and the
only one after the same procedures were added. -/
structure Loom.Thrice (loom : Loom) (a b : Assembly) (w : Weaving) (i : TypeId)
    (above : List TypeId) (t : TypeDef) (ps : List Procedure) (u : TypeDef)
    (firstly again once : TypeWeaving) : Prop extends loom.FirstRun a i above t u firstly where
  declared : ∀ p ∈ ps, p.isDeclared = true
  runs : ∃ counter turns turns', loom.Leaves w i above (u.extend ps) counter turns again ∧
    loom.Leaves (.start b) i above (t.extend ps) counter turns' once

namespace Loom.Thrice

variable {loom : Loom} {a b : Assembly} {w : Weaving} {i : TypeId} {above : List TypeId}
  {t u : TypeDef} {ps : List Procedure} {firstly again once : TypeWeaving}
  (h : loom.Thrice a b w i above t ps u firstly again once)

include h

/-- The second run keeps the logic that it finds. -/
theorem logic_again (s : Signature) : again.type.generated? ⟨.logic, s⟩ =
    (u.generated? ⟨.logic, s⟩).or (loom.codec.logicFor? ps s) := by
  obtain ⟨counter, turns, turns', hagain, -⟩ := h.runs
  rw [hagain.ran.logic, TypeDef.generated?_extend u h.declared]
  show Option.or _ (loom.codec.logicFor? (u.procedures ++ ps) s) = _
  rw [Codec.logicFor?_append]
  have hboth := h.isSome_logic_after s
  cases hu : u.generated? ⟨.logic, s⟩ with
  | some q => rfl
  | none =>
    rw [hu, Option.isSome_none, eq_comm, Option.isSome_eq_false_iff, Option.isNone_iff_eq_none]
      at hboth
    rw [hboth, Option.none_or, Option.none_or]

theorem logic_once (s : Signature) : once.type.generated? ⟨.logic, s⟩ =
    (loom.codec.logicFor? t.procedures s).or (loom.codec.logicFor? ps s) := by
  obtain ⟨counter, turns, turns', -, honce⟩ := h.runs
  rw [honce.ran.logic, TypeDef.generated?_extend t h.declared, h.fresh.generated?, Option.none_or]
  exact Codec.logicFor?_append ..

/-- After the second run there is logic for the same signatures as after the only run. -/
theorem isSome_findSignature? (s : Signature) :
    (again.type.findSignature? (SynthKey.generated ⟨.logic, s⟩)).isSome =
      (once.type.findSignature? (SynthKey.generated ⟨.logic, s⟩)).isSome := by
  obtain ⟨counter, turns, turns', hagain, honce⟩ := h.runs
  rw [hagain.ran.isSome_findSignature?, honce.ran.isSome_findSignature?, h.logic_again,
    h.logic_once, h.logic_after, Option.isSome_or, Option.isSome_or, Option.isSome_map]

theorem receiver_eq (kind : Kind) (s : Signature) :
    again.type.generated? ⟨.reader kind, s⟩ = once.type.generated? ⟨.reader kind, s⟩ := by
  obtain ⟨counter, turns, turns', hagain, honce⟩ := h.runs
  obtain ⟨counter', turns₁, hfirst⟩ := h.first
  have hold : u.generated? ⟨.reader kind, s⟩ = (loom.codec.shape t.procedures).findSome?
      (loom.receiverFor? t.name kind s) := by
    rw [h.after, TypeWeaving.generated?_led hfirst.ran.went hfirst.ran.tidy.canonical rfl (by simp),
      hfirst.ran.receiver, h.fresh.generated?, Option.none_or]
  -- the first call decides, whether it had its turn in the first run or has it now
  rw [hagain.ran.receiver, honce.ran.receiver, TypeDef.generated?_extend u h.declared,
    TypeDef.generated?_extend t h.declared, h.fresh.generated?, Option.none_or, hold, h.shape_extend ps]
  show Option.or _ ((loom.codec.shape (t.procedures ++ ps)).findSome?
    (loom.receiverFor? u.name kind s)) = (loom.codec.shape (t.procedures ++ ps)).findSome?
      (loom.receiverFor? t.name kind s)
  rw [Codec.shape_append, List.findSome?_append, List.findSome?_append, h.name_after,
    ← Option.or_assoc, Option.or_self]

theorem sender_eq (kind : Kind) (s : Signature) :
    again.type.generated? ⟨.writer kind, s⟩ = once.type.generated? ⟨.writer kind, s⟩ := by
  obtain ⟨counter, turns, turns', hagain, honce⟩ := h.runs
  obtain ⟨counter', turns₁, hfirst⟩ := h.first
  obtain ⟨made, hmade, hmade', hsome⟩ := hagain.ran.sender honce.ran (h.shape_extend ps) h.name_after kind s
  rw [hmade, hmade', TypeDef.generated?_extend u h.declared, TypeDef.generated?_extend t h.declared,
    h.fresh.generated?]
  cases made with
  | some p => rfl
  | none =>
    -- what no call asks for now, none asked for in the first run
    obtain ⟨made₁, hmade₁, -, hsome₁⟩ := hfirst.ran.sender hfirst.ran rfl rfl kind s
    have hnone : (loom.codec.shape t.procedures).any (s.sentBy kind) = false := by
      have hall : (loom.codec.shape (u.procedures ++ ps)).any (s.sentBy kind) = false := hsome.symm
      rw [Codec.shape_append, List.any_append, Bool.or_eq_false_iff, h.shape_after] at hall
      exact hall.1
    rw [hnone, Option.isSome_eq_false_iff, Option.isNone_iff_eq_none] at hsome₁
    rw [h.after, TypeWeaving.generated?_led hfirst.ran.went hfirst.ran.tidy.canonical rfl (by simp),
      hmade₁, hsome₁, h.fresh.generated?]
    rfl

/-- Of the logic the second run leaves what the only run leaves, but for base calls that the first
run has led on. -/
theorem logic_led {types types' : List TypeDef} (s : Signature)
    (hnames : types.map (·.name) =
      ((loom.weave (.start a)).1.assembly.bareAt above).map (·.name))
    (hnames' : types'.map (·.name) =
      ((loom.weave (.start a)).1.assembly.bareAt above).map (·.name))
    (hnearest : TypeDef.nearest? types (SynthKey.generated ⟨.logic, s⟩) =
      TypeDef.nearest? types' (SynthKey.generated ⟨.logic, s⟩)) :
    ∃ code : Option Procedure,
      (once.led types').generated? ⟨.logic, s⟩ = code.map (·.ledBy
        (s.lead (types'.map (·.name)) (TypeDef.nearest? types' (SynthKey.generated ⟨.logic, s⟩)))) ∧
      (again.led types).generated? ⟨.logic, s⟩ = code.map (·.ledBy (s.lead (types'.map (·.name))
        ((if (u.generated? ⟨.logic, s⟩).isSome then
          TypeDef.nearest? ((loom.weave (.start a)).1.assembly.bareAt above)
            (SynthKey.generated ⟨.logic, s⟩) else none).or
          (TypeDef.nearest? types' (SynthKey.generated ⟨.logic, s⟩))))) := by
  obtain ⟨counter, turns, turns', hagain, honce⟩ := h.runs
  refine ⟨once.type.generated? ⟨.logic, s⟩, honce.ran.generated?_led fun hsome => ?_, ?_⟩
  · simp [TypeDef.generated?_extend t h.declared, h.fresh.generated?] at hsome
  rw [hagain.ran.generated?_led fun hsome => ?hold, hnearest, hnames, hnames', h.logic_again,
    h.logic_once, h.logic_after]
  case hold =>
    rw [TypeDef.generated?_extend u h.declared, h.isSome_logic_after] at hsome
    show (loom.codec.logicFor? (u.procedures ++ ps) s).isSome = true
    rw [Codec.logicFor?_append, Option.isSome_or, hsome, Bool.true_or]
  cases hlogic : loom.codec.logicFor? t.procedures s with
  | none => rfl
  | some q =>
    rw [Option.map_some, Option.some_or, Option.some_or, Option.map_some, Option.map_some,
      Procedure.ledBy_ledBy, Option.isSome_some, if_pos rfl]
    refine congrArg some (congrArg q.ledBy (funext fun ref => ?_))
    refine s.lead_lead _ (fun target htarget hsame => ?_) _ ref
    -- what base calls were led to has the name of logic, and no declared procedure has
    obtain ⟨x, hx, hs, -⟩ := Codec.of_logicFor? hlogic
    obtain ⟨hmem, hd, -⟩ := Codec.mem_calls.mp (show (x.1, x.2) ∈ loom.codec.calls _ from hx)
    obtain ⟨k, hk⟩ := List.getElem?_of_mem hmem
    obtain ⟨v, -, rfl⟩ := Option.map_eq_some_iff.mp htarget
    refine h.whole.free _ (TypeDef.mem_outline.mpr ⟨x.1, hk, hd, rfl⟩) ⟨.logic, s⟩ ?_
    rw [Procedure.signature_heading, hs]
    exact hsame.symm

end Loom.Thrice

end RpcLoom
