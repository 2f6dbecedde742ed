/-
RpcLoom/Proofs/ErrorLog.lean

What is said to have failed, and what is given back.

Design.  Making senders only ever warns, so an error is said where something is
given up and nowhere else.  The errors said while a type is woven are those of
its report (`errorTexts_of_weaveTypeDef`), and those said while links are followed
are the ones given back (`errorTexts_followAll`).  A type that needs too many ids
is the exception: its refused procedures have been spoken of already, and it has
no report to list them in.

Main result.  `Loom.errors_said`: the errors said are those given back and the
refusals in such types, each as often.
-/
import Mathlib.Data.List.Perm.Basic
import RpcLoom.Proofs.Settling
import RpcLoom.Proofs.Faultless

namespace RpcLoom

/-! ### The errors of a log -/

namespace Log

/-- The texts of the errors of a log. -/
def errorTexts (log : Log) : List String := log.errors.map (·.text)

@[simp] theorem errorTexts_nil : errorTexts [] = [] := rfl

@[simp] theorem errorTexts_error (text : String) : (error text).errorTexts = [text] := rfl

@[simp] theorem errorTexts_warning (text : String) : (warning text).errorTexts = [] := rfl

@[simp] theorem errorTexts_append (log log' : Log) :
    (log ++ log').errorTexts = log.errorTexts ++ log'.errorTexts := by
  simp [errorTexts, errors]

@[simp] theorem errorTexts_flatMap {α : Type} (f : α → Log) (xs : List α) :
    errorTexts (xs.flatMap f) = xs.flatMap fun x => (f x).errorTexts := by
  induction xs with
  | nil => rfl
  | cons x xs ih => rw [List.flatMap_cons, errorTexts_append, ih, List.flatMap_cons]

end Log

/-! ### One type -/

section

variable {loom : Loom}

/-- Making a sender says no error. -/
theorem Loom.errorTexts_senderLog (loom : Loom) (p : Procedure) (c : Contract) (kind : Kind) :
    (loom.senderLog p c kind).errorTexts = [] := by
  unfold senderLog
  split
  · rw [Log.errorTexts_flatMap]
    simp
  · rfl

theorem Loom.errorTexts_senderBodies (loom : Loom) (p : Procedure) (c : Contract) (id : RpcId)
    (kinds : List Kind) : (loom.senderBodies p c id kinds).1.errorTexts = [] := by
  induction kinds with
  | nil => rfl
  | cons kind kinds ih =>
    rw [senderBodies]
    cases loom.senderBody p c id kind with
    | error e => exact loom.errorTexts_senderLog p c kind
    | ok b => simp [loom.errorTexts_senderLog, ih]

/-- A turn says an error exactly if it clears its call. -/
theorem Turn.errorTexts_eq {w w' : TypeWeaving} {j : Job} {f : Fate} (h : Turn loom w j f w') :
    w'.log.errorTexts = w.log.errorTexts ++ f.error?.toList.map (·.message) := by
  have hsenders : (j.senders loom).1.errorTexts = [] := loom.errorTexts_senderBodies ..
  rw [h.after]
  cases f with
  | woven triad b => simp [TypeWeaving.after, hsenders, Fate.error?]
  | cleared e => simp [TypeWeaving.after, hsenders, Fate.error?, WeaveError.message]

theorem Turns.errorTexts_eq {w w' : TypeWeaving} {turns : List (Job × Fate)}
    (h : Turns loom w turns w') :
    w'.log.errorTexts =
      w.log.errorTexts ++ (turns.filterMap fun x => x.2.error?).map (·.message) := by
  induction h with
  | nil => simp
  | @cons w w₁ w₂ j f rest hturn _ ih =>
    rw [ih, hturn.errorTexts_eq, List.append_assoc, List.filterMap_cons]
    cases f.error? <;> rfl

/-- Before the first turn the refusals have been said. -/
theorem Loom.errorTexts_beginType (loom : Loom) (t : TypeDef) (counter : IdCounter) :
    (loom.beginType t counter).log.errorTexts = (t.rejections loom.codec).map (·.message) := by
  rw [beginType, Log.errorTexts_flatMap, List.map_eq_flatMap]
  simp

/-- The errors said while a type is woven are those of its report. -/
theorem errorTexts_of_weaveTypeDef {t : TypeDef} {counter : IdCounter} {log : Log}
    {v : TypeWeaving} (h : loom.weaveTypeDef t counter = (log, .ok v)) :
    log.errorTexts = v.errors.map (·.message) := by
  obtain ⟨-, rfl, turns, hturns, -⟩ := turns_of_weaveTypeDef h
  rw [hturns.errorTexts_eq, hturns.errors_eq, loom.errorTexts_beginType, List.map_append]
  simp [Loom.beginType, WeaveError.message]

end

/-! ### Links -/

/-- The errors said while links are followed are those given back. -/
theorem Weaving.errorTexts_followAll (links : List LogicLink) (w : Weaving) :
    (w.followAll links).1.log.errorTexts =
      w.log.errorTexts ++ (w.followAll links).2.map (·.message) := by
  induction links generalizing w with
  | nil => simp [followAll]
  | cons link rest ih =>
    have hfirst : (w.follow link).1.log.errorTexts =
        w.log.errorTexts ++ (w.follow link).2.toList.map (·.message) := by
      unfold follow
      cases link.redirect w.assembly with
      | error e => simp [say]
      | ok r => simp
    show ((w.follow link).1.followAll rest).1.log.errorTexts = w.log.errorTexts ++
      ((w.follow link).2.toList ++ ((w.follow link).1.followAll rest).2).map (·.message)
    rw [ih, hfirst, List.map_append, List.append_assoc]

/-! ### All types -/

namespace Outcome

/-- Whether a type is given back as one that needs too many ids. -/
def exceeded (o : Outcome) (typeName : String) : Bool :=
  o.errors.any fun
    | .quotaExceeded name _ _ => name == typeName
    | _ => false

/-- Why procedures are refused in the types that need too many ids.  No report lists these. -/
def unreported (o : Outcome) (a : Assembly) (codec : Codec) : List Rejection :=
  (a.types.filter (o.exceeded ·.name)).flatMap (·.rejections codec)

theorem exceeded_iff {o : Outcome} {typeName : String} :
    o.exceeded typeName = true ↔
      ∃ required allowance, .quotaExceeded typeName required allowance ∈ o.errors := by
  rw [exceeded, List.any_eq_true]
  constructor
  · rintro ⟨e, he, hname⟩
    cases e with
    | quotaExceeded name required allowance =>
      obtain rfl : name = typeName := by simpa using hname
      exact ⟨required, allowance, he⟩
    | _ => cases hname
  · rintro ⟨required, allowance, he⟩
    exact ⟨_, he, by simp⟩

/-- No failure to lead base calls on is that of a whole type. -/
theorem unreported_failedLinks (o : Outcome) (a : Assembly) (codec : Codec)
    (es : List LinkError) :
    unreported { o with errors := o.errors ++ es.map .link } a codec = o.unreported a codec := by
  have hexceeded : ∀ name, exceeded { o with errors := o.errors ++ es.map .link } name =
      o.exceeded name := by
    intro name
    simp [exceeded, List.any_append, List.any_map, Function.comp_def]
  simp only [unreported, hexceeded]

theorem allErrors_append_perm (o : Outcome) (es : List WeaveError) :
    (allErrors { o with errors := o.errors ++ es }).Perm (o.allErrors ++ es) := by
  rw [allErrors, allErrors, List.append_assoc, List.append_assoc]
  exact List.perm_append_comm.append_left _

end Outcome

/-- The order names every position of the assembly once. -/
theorem Assembly.hierarchyOrder_perm {a : Assembly} {order : List TypeId}
    (h : a.hierarchyOrder = .ok order) : order.Perm (List.range a.types.length) := by
  obtain ⟨hnodup, hknown⟩ := of_hierarchyOrder h
  rw [List.perm_ext_iff_of_nodup hnodup List.nodup_range]
  intro i
  rw [List.mem_range]
  constructor
  · intro hi
    obtain ⟨t, -, ht, -⟩ := hknown i hi
    exact (List.getElem?_eq_some_iff.mp ht).1
  · intro hi
    exact mem_hierarchyOrder h (List.getElem?_eq_getElem hi)

namespace Loom

open Weaving

/-- What failed in a type. -/
def failuresOf : Except WeaveError TypeWeaving → List WeaveError
  | .ok v => v.errors
  | .error e => [e]

/-- What was said of a type without being given back, once it is known what has become of it. -/
def abandoned (t : TypeDef) (codec : Codec) : Except WeaveError TypeWeaving → List Rejection
  | .ok _ => []
  | .error _ => t.rejections codec

variable {loom : Loom} {a : Assembly} {w v : Weaving} {order : List TypeId} {o : Outcome}
  {i : TypeId} {t : TypeDef}

/-- What weaving one type says. -/
theorem errorTexts_alone {above : List TypeId} (ht : a.type? i = some t)
    (hab : a.ancestors i = .ok above) :
    (loom.alone a i).1.errorTexts =
      (abandoned t loom.codec (loom.alone a i).2).map (·.message) ++
        (failuresOf (loom.alone a i).2).map (·.message) := by
  obtain ⟨counter, -, ⟨log, e, he, halone⟩ | ⟨log, v, hv, halone⟩⟩ := alone_cases loom ht hab
  · obtain ⟨rfl, -⟩ := error_of_weaveTypeDef he
    rw [halone]
    simp [loom.errorTexts_beginType, abandoned, failuresOf]
  · rw [halone]
    simp [errorTexts_of_weaveTypeDef hv, abandoned, failuresOf]

/-- The failures of all types are given back. -/
theorem Gathers.failures_perm (h : loom.Gathers a w order v o) :
    (order.flatMap fun i => failuresOf (loom.alone a i).2).Perm o.allErrors := by
  have hsplit : ∀ x, failuresOf x = (errorOf x).toList ++ (reportOf x).toList.flatMap (·.errors) :=
    fun x => by cases x <;> simp [failuresOf, errorOf, reportOf, TypeWeaving.report]
  rw [Outcome.allErrors, h.errors, h.reports]
  simp only [hsplit, List.filterMap_eq_flatMap_toList, List.flatMap_assoc]
  exact (List.flatMap_append_perm order _ _).symm

/-- A type needs too many ids exactly if nothing was woven in it. -/
theorem Gathers.exceeded_iff (h : loom.Gathers a w order v o) (hnames : a.NamesDiffer)
    (horder : a.hierarchyOrder = .ok order) (ht : a.type? i = some t) :
    o.exceeded t.name = true ↔ ∃ e, (loom.alone a i).2 = .error e := by
  obtain ⟨-, hknown⟩ := Assembly.of_hierarchyOrder horder
  rw [Outcome.exceeded_iff, h.errors]
  constructor
  · rintro ⟨required, allowance, he⟩
    obtain ⟨k, hk, herror⟩ := List.mem_filterMap.mp he
    obtain ⟨u, above, hu, hab⟩ := hknown k hk
    obtain ⟨counter, -, ⟨log, e, he, halone⟩ | ⟨log, x, -, halone⟩⟩ := alone_cases loom hu hab
    · obtain ⟨-, required', allowance', rfl⟩ := error_of_weaveTypeDef he
      rw [halone] at herror
      obtain ⟨hname, -⟩ := WeaveError.quotaExceeded.inj (Option.some.inj herror)
      rw [hnames.eq_of_name_eq ht hu hname.symm, halone]
      exact ⟨_, rfl⟩
    · rw [halone] at herror
      cases herror
  · rintro ⟨e, herror⟩
    have hi := Assembly.mem_hierarchyOrder horder ht
    obtain ⟨t', above, ht', hab⟩ := hknown i hi
    obtain rfl := Option.some.inj (ht.symm.trans ht')
    obtain ⟨counter, -, ⟨log, e', he, halone⟩ | ⟨log, x, -, halone⟩⟩ := alone_cases loom ht hab
    · obtain ⟨-, required, allowance, rfl⟩ := error_of_weaveTypeDef he
      exact ⟨required, allowance, List.mem_filterMap.mpr ⟨i, hi, by rw [halone]; rfl⟩⟩
    · rw [halone] at herror
      cases herror

/-- What was said of the types without being given back are the refusals in those that need too
many ids. -/
theorem Gathers.abandoned_perm (h : loom.Gathers a w order v o) (hnames : a.NamesDiffer)
    (horder : a.hierarchyOrder = .ok order) :
    (order.flatMap fun i => (a.type? i).toList.flatMap fun t =>
      abandoned t loom.codec (loom.alone a i).2).Perm (o.unreported a loom.codec) := by
  have hone : ∀ i t, a.type? i = some t → abandoned t loom.codec (loom.alone a i).2 =
      if o.exceeded t.name then t.rejections loom.codec else [] := by
    intro i t ht
    have hiff := h.exceeded_iff hnames horder ht
    cases halone : (loom.alone a i).2 with
    | error e =>
      rw [if_pos (hiff.mpr ⟨e, halone⟩)]
      rfl
    | ok x =>
      rw [if_neg fun hex => ?_]
      · rfl
      · obtain ⟨e, he⟩ := hiff.mp hex
        cases halone.symm.trans he
  refine ((Assembly.hierarchyOrder_perm horder).flatMap_right _).trans (.of_eq ?_)
  -- going through all positions is going through all types
  have htypes : (List.range a.types.length).flatMap (fun i => (a.type? i).toList) = a.types := by
    have hmap : (List.range a.types.length).map a.type? = a.types.map some := by
      refine List.ext_getElem (by simp) fun i hi hi' => ?_
      simp [Assembly.type?]
    rw [← List.flatMap_map (f := a.type?), hmap, List.flatMap_map]
    simp
  calc (List.range a.types.length).flatMap (fun i => (a.type? i).toList.flatMap fun t =>
          abandoned t loom.codec (loom.alone a i).2)
      = (List.range a.types.length).flatMap (fun i => (a.type? i).toList.flatMap fun t =>
          if o.exceeded t.name then t.rejections loom.codec else []) := by
        congr 1
        funext i
        cases ht : a.type? i with
        | none => rfl
        | some t => simp [hone i t ht]
    _ = a.types.flatMap fun t => if o.exceeded t.name then t.rejections loom.codec else [] := by
        rw [← List.flatMap_assoc, htypes]
    _ = o.unreported a loom.codec := by
        rw [Outcome.unreported]
        induction a.types with
        | nil => rfl
        | cons t ts ih =>
          by_cases hex : o.exceeded t.name = true <;> simp [hex, ih]

/-- What is said while types are woven. -/
theorem Gathers.errorTexts_perm (h : loom.Gathers a w order v o) (hnames : a.NamesDiffer)
    (horder : a.hierarchyOrder = .ok order) (hlog : w.log = []) :
    v.log.errorTexts.Perm
      (o.allErrors.map (·.message) ++ (o.unreported a loom.codec).map (·.message)) := by
  obtain ⟨-, hknown⟩ := Assembly.of_hierarchyOrder horder
  have hsaid : v.log.errorTexts = order.flatMap fun i =>
      ((a.type? i).toList.flatMap fun t => abandoned t loom.codec (loom.alone a i).2).map
          (·.message) ++
        (failuresOf (loom.alone a i).2).map (·.message) := by
    rw [h.log, hlog, List.nil_append, Log.errorTexts_flatMap]
    refine List.flatMap_congr fun i hi => ?_
    obtain ⟨t, above, ht, hab⟩ := hknown i hi
    rw [errorTexts_alone ht hab, ht]
    simp
  rw [hsaid]
  refine (List.flatMap_append_perm order _ _).symm.trans (List.perm_append_comm.trans ?_)
  rw [← List.map_flatMap, ← List.map_flatMap]
  exact (h.failures_perm.map _).append ((h.abandoned_perm hnames horder).map _)

/-- The errors said are those given back and, besides them, the refusals in types that need too
many ids.  So they are those given back exactly if there are no such refusals. -/
theorem errors_said (loom : Loom) (w : Weaving) (hnames : w.assembly.NamesDiffer)
    (hlog : w.log = []) :
    (loom.weave w).1.log.errorTexts.Perm
        ((loom.weave w).2.allErrors.map (·.message) ++
          ((loom.weave w).2.unreported w.assembly loom.codec).map (·.message)) ∧
      ((loom.weave w).1.log.errorTexts.Perm ((loom.weave w).2.allErrors.map (·.message)) ↔
        (loom.weave w).2.unreported w.assembly loom.codec = []) := by
  have hperm : (loom.weave w).1.log.errorTexts.Perm
      ((loom.weave w).2.allErrors.map (·.message) ++
        ((loom.weave w).2.unreported w.assembly loom.codec).map (·.message)) := by
    rcases loom.weave_cases w with ⟨e, -, hweave⟩ | ⟨order, v, o, horder, hgathers, hweave⟩
    · have hnone : Outcome.unreported ⟨[], [.declaration e]⟩ w.assembly loom.codec = [] := by
        simp [Outcome.unreported, Outcome.exceeded]
      rw [hweave, hnone]
      simp [say, hlog, Outcome.allErrors, WeaveError.message]
    · have hlinks : v.linkBases.1.log.errorTexts =
          v.log.errorTexts ++ v.linkBases.2.map (·.message) :=
        Weaving.errorTexts_followAll v.links { v with links := [] }
      have hmessages : (v.linkBases.2.map WeaveError.link).map (·.message) =
          v.linkBases.2.map (·.message) := by
        rw [List.map_map]
        rfl
      rw [hweave, hlinks, Outcome.unreported_failedLinks, ← hmessages]
      refine ((hgathers.errorTexts_perm hnames horder hlog).append_right _).trans ?_
      rw [List.append_assoc]
      refine (List.perm_append_comm.append_left _).trans ?_
      rw [← List.append_assoc, ← List.map_append]
      exact ((o.allErrors_append_perm _).symm.map _).append_right _
  refine ⟨hperm, fun h => ?_, fun h => ?_⟩
  · have hlength := hperm.length_eq.symm.trans h.length_eq
    rw [List.length_append, Nat.add_eq_left] at hlength
    exact List.map_eq_nil_iff.mp (List.length_eq_zero_iff.mp hlength)
  · rw [h, List.map_nil, List.append_nil] at hperm
    exact hperm

end Loom

/-! ### Too many calls -/

namespace Sample

/-- A call that gives back a result, which no call to the server may do. -/
def tally : Procedure :=
  { Procedure.declare "Tally" with
    returns := .named "u32"
    attributes := [⟨"ServerRpc", []⟩] }

/-- Two calls to the server, and one that is refused. -/
def crowd : Assembly := ⟨[⟨"Crowd", none, [fire, { fire with name := "Halt" }, tally]⟩]⟩

/-- A weaver that hands out a single id. -/
def miser : Loom := ⟨.standard, { Settings.default with allowance := 1 }⟩

end Sample

/-- The crowd is given back as too large, and besides that only its refusal has been said. -/
theorem Loom.errors_said_crowd :
    (Weaving.start Sample.crowd).assembly.NamesDiffer ∧ (Weaving.start Sample.crowd).log = [] ∧
    (Sample.miser.weave (.start Sample.crowd)).1.log.errorTexts.Perm
      ((Sample.miser.weave (.start Sample.crowd)).2.allErrors.map (·.message) ++
        ((Sample.miser.weave (.start Sample.crowd)).2.unreported Sample.crowd
          Sample.miser.codec).map (·.message)) :=
  ⟨by decide, rfl, (Loom.errors_said Sample.miser (.start Sample.crowd) (by decide) rfl).1⟩

/-- The refusal in the crowd is said and not given back. -/
theorem Loom.refusal_lost_crowd :
    ¬ (Sample.miser.weave (.start Sample.crowd)).1.log.errorTexts.Perm
      ((Sample.miser.weave (.start Sample.crowd)).2.allErrors.map (·.message)) :=
  fun h => absurd h.length_eq (by decide +kernel)

end RpcLoom
