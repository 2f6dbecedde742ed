/-
RpcLoom/Proofs/Regrowth.lean

Weaving, adding procedures and weaving again.

Design.  Types are compared as a run leaves them that weaves them again after
procedures were added, and as the only run leaves them after the same procedures
were added (`Regrown`).  Both runs meet the same faces, so counters begin alike
(`ofAncestors_of_declareAll?`), and what each leaves of a type is known
(`Thrice`).  They leave logic on the same types, so base calls that neither has led
on before are led alike (`nearest?_eq`).

Main result.  `Loom.weave_grown`: the second run leaves of every type what the only
run leaves, but for base calls that the first run has led to the logic on a type
above the one where they should lead now.
-/
import RpcLoom.Proofs.BaseCode
import RpcLoom.Proofs.ThreeRuns

namespace RpcLoom

/-! ### What there is to compare -/

namespace Assembly

/-- The names of the types above a type. -/
def namesAbove (a : Assembly) (i : TypeId) : List String :=
  (a.ancestors i).toOption.elim [] a.namesOf

/-- The logic for a signature on the nearest type above a type that has one. -/
def logicOver? (a : Assembly) (i : TypeId) (s : Signature) : Option MethodRef :=
  (a.findInBase? i (SynthKey.generated ⟨.logic, s⟩)).toOption.join

/-- Where a run that left the assembly has led the base calls of the logic for a signature on a
type, if there is such logic. -/
def ledTo? (a : Assembly) (i : TypeId) (s : Signature) : Option MethodRef :=
  if ((a.type? i).bind (·.generated? ⟨.logic, s⟩)).isSome then a.logicOver? i s else none

end Assembly

/-- The ids that a run gave to procedures of a type, each procedure without its body. -/
def Outcome.ids (o : Outcome) (t : TypeDef) : Option (List (RpcId × Option Procedure)) :=
  (o.report? t.name).map fun r =>
    r.registrations.map fun x => (x.id, (t.procedure? x.procedure).map (·.heading))

/-- How a type that grew between two runs (`u`), the first of which left `early`, compares with the
same type if it grew before its only run (`v`). -/
structure Regrown (early : Assembly) (again once : Weaving × Outcome) (i : TypeId)
    (u v : TypeDef) : Prop where
  name_eq : u.name = v.name
  /-- The same procedures are declared, in the same order. -/
  declared : u.outline.map (·.2) = v.outline.map (·.2)
  /-- They have the same ids. -/
  ids : again.2.ids u = once.2.ids v
  table : again.1.table? u.name = once.1.table? v.name
  /-- Senders and receivers are the same. -/
  stubs : ∀ key : SynthKey, key.role ≠ .logic → u.generated? key = v.generated? key
  /-- Logic holds the same code, with its base calls led to the nearest logic above; but those that
  the first run has led on stay where it led them. -/
  logic : ∀ s : Signature, ∃ code : Option Procedure,
    v.generated? ⟨.logic, s⟩ = code.map
      (·.ledBy (s.lead (early.namesAbove i) (once.1.assembly.logicOver? i s))) ∧
    u.generated? ⟨.logic, s⟩ = code.map (·.ledBy
      (s.lead (early.namesAbove i) ((early.ledTo? i s).or (once.1.assembly.logicOver? i s))))

/-- Logic is the same unless its base calls were led on before logic came nearer. -/
theorem Regrown.logic_eq {early : Assembly} {again once : Weaving × Outcome} {i : TypeId}
    {u v : TypeDef} (h : Regrown early again once i u v) {s : Signature}
    (hstill : early.ledTo? i s = none ∨ early.ledTo? i s = once.1.assembly.logicOver? i s) :
    u.generated? ⟨.logic, s⟩ = v.generated? ⟨.logic, s⟩ := by
  obtain ⟨code, hv, hu⟩ := h.logic s
  have htarget : (early.ledTo? i s).or (once.1.assembly.logicOver? i s) =
      once.1.assembly.logicOver? i s := by
    rcases hstill with hnone | hsame
    · rw [hnone, Option.none_or]
    · rw [hsame, Option.or_self]
  rw [hu, hv, htarget]

/-! ### The types above -/

namespace Assembly

variable {a b c early : Assembly} {i : TypeId} {above : List TypeId} {s : Signature}
  {adds : List (TypeId × Procedure)}

theorem Alike.namesOf (h : a.Alike b) (is : List TypeId) : a.namesOf is = b.namesOf is := by
  refine List.filterMap_congr fun j _ => ?_
  rcases h.type? j with ⟨ha, hb⟩ | ⟨t, u, ha, hb, hname, -⟩
  · rw [ha, hb]
  · rw [ha, hb, Option.map_some, Option.map_some, hname]

theorem namesAbove_eq (hab : a.ancestors i = .ok above) :
    a.namesAbove i = (a.bareAt above).map (·.name) := by
  rw [namesAbove, hab, ← namesOf_eq]
  rfl

theorem logicOver?_eq (hab : a.ancestors i = .ok above) (s : Signature) :
    a.logicOver? i s = TypeDef.nearest? (a.bareAt above) (SynthKey.generated ⟨.logic, s⟩) := by
  rw [logicOver?, findInBase?_eq hab]
  rfl

/-- The nearest type with a procedure is the same if at every position there is such a procedure in
both assemblies or in neither. -/
theorem nearest?_bareAt_congr {is : List TypeId} (h : ∀ j ∈ is, ∃ t u, a.type? j = some t ∧
    b.type? j = some u ∧ t.name = u.name ∧
    (t.findSignature? s).isSome = (u.findSignature? s).isSome) :
    TypeDef.nearest? (a.bareAt is) s = TypeDef.nearest? (b.bareAt is) s := by
  induction is with
  | nil => rfl
  | cons j is ih =>
    obtain ⟨t, u, ht, hu, hname, hsame⟩ := h j (by simp)
    have hrest := ih fun k hk => h k (by simp [hk])
    have hbare : ∀ {d : Assembly} {v : TypeDef}, d.type? j = some v →
        TypeDef.nearest? (d.bareAt (j :: is)) s = if (v.findSignature? s).isSome then
          some ⟨v.name, s.name, s.types⟩ else TypeDef.nearest? (d.bareAt is) s := by
      intro d v hv
      simp only [bareAt, List.filterMap_cons, hv, Option.map_some, TypeDef.nearest?,
        List.find?_cons, TypeDef.findSignature?_bare]
      cases (v.findSignature? s).isSome <;> rfl
    rw [hbare ht, hbare hu, hsame, hname, hrest]

/-- If the same is added to types of the same faces, all counters begin with the same ids. -/
theorem ofAncestors_of_declareAll? (hfaces : early.faces = a.faces)
    (hb : a.declareAll? adds = some b) (hc : early.declareAll? adds = some c)
    (hd : ∀ x ∈ adds, x.2.isDeclared = true) (i : TypeId) (ceiling : UInt32) :
    IdCounter.ofAncestors c i ceiling = IdCounter.ofAncestors b i ceiling := by
  have hcounts : ∀ j, (c.type? j).map (·.remoteCount) = (b.type? j).map (·.remoteCount) := by
    intro j
    rw [(type?_of_declareAll? hc hd j).1, (type?_of_declareAll? hb hd j).1, Option.map_map,
      Option.map_map]
    rcases type?_congr hfaces j with ⟨hu, ht⟩ | ⟨u, t, hu, ht, hface⟩
    · rw [hu, ht]
    · rw [hu, ht, Option.map_some, Option.map_some, Function.comp, Function.comp,
        TypeDef.remoteCount_extend, TypeDef.remoteCount_extend,
        TypeDef.remoteCount_congr (TypeDef.face_eq_iff.mp hface).2.2]
  have hchains : c.ancestors i = b.ancestors i := by
    rw [← (alike_of_declareAll? hc hd).ancestors, (alike_of_faces hfaces).ancestors,
      (alike_of_declareAll? hb hd).ancestors]
  simp only [IdCounter.ofAncestors, hchains, hcounts]

end Assembly

/-! ### All types in three runs -/

/-- Types of declared procedures with bodies (`a`), the same with more declared procedures (`b`), and
what a run leaves of them with as many more (`c`). -/
structure Loom.Grown (loom : Loom) (a b c : Assembly) (adds : List (TypeId × Procedure)) :
    Prop where
  honest : loom.codec.Honest
  names : a.NamesDiffer
  unwoven : ∀ t ∈ a.types, t.Unwoven
  userNames : ∀ t ∈ a.types, ∀ p ∈ t.procedures, UserName p.name
  declared : ∀ x ∈ adds, x.2.isDeclared = true
  newNames : ∀ x ∈ adds, UserName x.2.name
  before : a.declareAll? adds = some b
  after : (loom.weave (.start a)).1.assembly.declareAll? adds = some c
  firstQuota : (loom.weave (.start a)).2.WithinQuota
  onceQuota : (loom.weave (.start b)).2.WithinQuota

namespace Loom

variable {loom : Loom} {a b c : Assembly} {adds : List (TypeId × Procedure)} {w : Weaving}
  {order above : List TypeId} {i : TypeId} {t : TypeDef}

theorem exists_firstRun (hcodec : loom.codec.Honest) (hnames : a.NamesDiffer)
    (hunwoven : ∀ t ∈ a.types, t.Unwoven)
    (huser : ∀ t ∈ a.types, ∀ p ∈ t.procedures, UserName p.name)
    (hquota : (loom.weave (.start a)).2.WithinQuota) (horder : a.hierarchyOrder = .ok order)
    (ht : a.type? i = some t) (hab : a.ancestors i = .ok above) :
    ∃ u firstly, (loom.weave (.start a)).1.assembly.type? i = some u ∧
      loom.FirstRun a i above t u firstly := by
  have hwhole : ∀ i t, a.type? i = some t → t.Whole := fun i t ht =>
    have hmem := List.mem_of_getElem? ht
    (hunwoven t hmem).whole (TypeDef.leavesFree_of_userNames (huser t hmem))
  have hhealthy : (Weaving.start a).Healthy := ⟨hnames, hwhole, rfl⟩
  obtain ⟨counter, hcounter, -⟩ := loom.alone_cases ht hab
  have hfits := fits_of_withinQuota (w := .start a) rfl horder hnames ht hab hquota hcounter
  obtain ⟨turns, v, hleaves⟩ := leaves_weave (w := .start a) hcodec rfl horder hnames ht hab
    (hwhole i t ht).tidy hcounter hfits
  exact ⟨_, v, hleaves.type, hwhole i t ht, (hunwoven t (List.mem_of_getElem? ht)).fresh,
    (hhealthy.weave loom).whole i _ hleaves.type, ⟨counter, turns, hleaves⟩, rfl⟩

namespace Grown

variable (h : loom.Grown a b c adds)

include h

/-! Names and bases are those of `a` throughout. -/

theorem alike_before : a.Alike b :=
  Assembly.alike_of_declareAll? h.before h.declared

theorem alike_after : a.Alike c :=
  (loom.alike_weave (.start a)).trans (Assembly.alike_of_declareAll? h.after h.declared)

theorem alike_again (hw : w.assembly = c) : a.Alike (loom.weave w).1.assembly :=
  (hw ▸ h.alike_after).trans (loom.alike_weave w)

theorem alike_once : a.Alike (loom.weave (.start b)).1.assembly :=
  h.alike_before.trans (loom.alike_weave (.start b))

theorem exists_thrice (hw : w.assembly = c) (hidle : w.links = [])
    (horder : a.hierarchyOrder = .ok order) (ht : a.type? i = some t)
    (hab : a.ancestors i = .ok above) :
    ∃ u firstly again once, (loom.weave (.start a)).1.assembly.type? i = some u ∧
      loom.Thrice a b w i above t (Assembly.addedTo adds i) u firstly again once := by
  obtain ⟨u, firstly, hu, hfirst⟩ :=
    exists_firstRun h.honest h.names h.unwoven h.userNames h.firstQuota horder ht hab
  obtain ⟨hbtype, hbadmits⟩ := Assembly.type?_of_declareAll? h.before h.declared i
  obtain ⟨hctype, hcadmits⟩ := Assembly.type?_of_declareAll? h.after h.declared i
  rw [ht, Option.map_some] at hbtype
  rw [hu, Option.map_some] at hctype
  have hdeclared : ∀ p ∈ Assembly.addedTo adds i, p.isDeclared = true := fun p hp =>
    h.declared _ (Assembly.mem_addedTo.mp hp)
  have huser : ∀ p ∈ Assembly.addedTo adds i, UserName p.name := fun p hp =>
    h.newNames _ (Assembly.mem_addedTo.mp hp)
  have hab' := h.alike_before
  have hac' := h.alike_after
  obtain ⟨counter, hcounter, -⟩ := loom.alone_cases hbtype (hab'.ancestors i ▸ hab)
  have hcounter' : IdCounter.ofAncestors c i loom.settings.allowance = .ok counter := by
    rw [Assembly.ofAncestors_of_declareAll? (loom.faces_weave (.start a)) h.before h.after
      h.declared]
    exact hcounter
  -- the second run needs as many ids as the only run
  have hfits := fits_of_withinQuota (w := .start b) rfl (hab'.hierarchyOrder ▸ horder)
    (hab'.namesDiffer h.names) hbtype (hab'.ancestors i ▸ hab) h.onceQuota hcounter
  obtain ⟨turns', once, honce⟩ := leaves_weave (w := .start b) h.honest rfl
    (hab'.hierarchyOrder ▸ horder) (hab'.namesDiffer h.names) hbtype (hab'.ancestors i ▸ hab)
    (hfirst.whole.tidy_extend (hbadmits t ht) hdeclared huser fun s hs => by
      simp [TypeDef.generated?_eq_none.mp (hfirst.fresh.generated? _)] at hs)
    hcounter hfits
  subst hw
  obtain ⟨turns, again, hagain⟩ := leaves_weave h.honest hidle (hac'.hierarchyOrder ▸ horder)
    (hac'.namesDiffer h.names) hctype (hac'.ancestors i ▸ hab)
    (hfirst.wholeAfter.tidy_extend (hcadmits u hu) hdeclared huser fun s => hfirst.exists_signature)
    hcounter' (by rwa [← Codec.length_shape, hfirst.shape_extend, Codec.length_shape])
  exact ⟨u, firstly, again, once, hu, hfirst, hdeclared, counter, turns, turns', hagain, honce⟩

/-- After the second run and after the only run the nearest logic is on the same types. -/
theorem nearest?_eq (hw : w.assembly = c) (hidle : w.links = [])
    (horder : a.hierarchyOrder = .ok order) (hab : a.ancestors i = .ok above) (s : Signature) :
    TypeDef.nearest? ((loom.weave w).1.assembly.bareAt above) (SynthKey.generated ⟨.logic, s⟩) =
      TypeDef.nearest? ((loom.weave (.start b)).1.assembly.bareAt above)
        (SynthKey.generated ⟨.logic, s⟩) := by
  obtain ⟨_, -, hclimb, -⟩ := Assembly.of_ancestors hab
  refine Assembly.nearest?_bareAt_congr fun j hj => ?_
  obtain ⟨t, ht⟩ : ∃ t, a.type? j = some t := by
    obtain ⟨_, t, _, -, ht, -⟩ := hclimb.of_mem hj
    exact ⟨t, ht⟩
  obtain ⟨abovej, habj⟩ := Assembly.ancestors_of_hierarchyOrder horder ht
  obtain ⟨u, firstly, again, once, -, hthrice⟩ := h.exists_thrice hw hidle horder ht habj
  obtain ⟨counter, turns, turns', hagain, honce⟩ := hthrice.runs
  refine ⟨_, _, hagain.type, honce.type, ?_, ?_⟩
  · rw [hagain.ran.name_led, honce.ran.name_led]
    exact hthrice.name_after
  · rw [again.findSignature?_led, once.findSignature?_led]
    exact hthrice.isSome_findSignature? s

/-- If the types have an order, the second run leaves of each what `Regrown` says. -/
theorem regrown (hw : w.assembly = c) (hidle : w.links = [])
    (horder : a.hierarchyOrder = .ok order) (ht : a.type? i = some t) :
    ∃ u v, (loom.weave w).1.assembly.type? i = some u ∧
      (loom.weave (.start b)).1.assembly.type? i = some v ∧
      Regrown (loom.weave (.start a)).1.assembly (loom.weave w) (loom.weave (.start b)) i u v := by
  obtain ⟨above, hab⟩ := Assembly.ancestors_of_hierarchyOrder horder ht
  obtain ⟨u, firstly, again, once, hu, hthrice⟩ := h.exists_thrice hw hidle horder ht hab
  obtain ⟨counter, turns, turns', hagain, honce⟩ := hthrice.runs
  have hearly : a.Alike (loom.weave (.start a)).1.assembly := loom.alike_weave (.start a)
  have hnamesAt : ∀ {d : Assembly}, a.Alike d → (d.bareAt above).map (·.name) =
      ((loom.weave (.start a)).1.assembly.bareAt above).map (·.name) := fun hd => by
    rw [← Assembly.namesOf_eq, ← Assembly.namesOf_eq, ← hd.namesOf, ← hearly.namesOf]
  have hname : (again.led ((loom.weave w).1.assembly.bareAt above)).name = u.name :=
    hagain.ran.name_led _
  have hname' : (once.led ((loom.weave (.start b)).1.assembly.bareAt above)).name = t.name :=
    honce.ran.name_led _
  have htable : again.table = once.table :=
    hagain.ran.table_eq honce.ran (hthrice.shape_extend _) hthrice.name_after
  refine ⟨_, _, hagain.type, honce.type, ?_⟩
  constructor
  case name_eq => rw [hname, hname', hthrice.name_after]
  case declared =>
    rw [hagain.ran.outline_led, honce.ran.outline_led]
    show ((u.extend _).outline.map _) = ((t.extend _).outline.map _)
    rw [TypeDef.outline_extend u hthrice.declared, TypeDef.outline_extend t hthrice.declared,
      hthrice.outline_after]
  case ids =>
    rw [Outcome.ids, Outcome.ids, hname, hname']
    refine (congrArg (Option.map _) hagain.report).trans
      (.trans (congrArg some ?_) (congrArg (Option.map _) honce.report).symm)
    exact hagain.ran.ids_eq honce.ran (hthrice.shape_extend _) _ _
  case table =>
    rw [hname, hname']
    exact hagain.table.trans ((congrArg some htable).trans honce.table.symm)
  case stubs =>
    rintro ⟨role, s⟩ hrole
    rw [TypeWeaving.generated?_led hagain.ran.went hagain.ran.tidy.canonical rfl hrole,
      TypeWeaving.generated?_led honce.ran.went honce.ran.tidy.canonical rfl hrole]
    cases role with
    | logic => exact absurd rfl hrole
    | reader kind => exact hthrice.receiver_eq kind s
    | writer kind => exact hthrice.sender_eq kind s
  case logic =>
    intro s
    obtain ⟨code, honceCode, hagainCode⟩ := hthrice.logic_led s (hnamesAt (h.alike_again hw))
      (hnamesAt h.alike_once) (h.nearest?_eq hw hidle horder hab s)
    have habEarly := (hearly.ancestors i).symm.trans hab
    refine ⟨code, ?_, ?_⟩
    all_goals rw [Assembly.namesAbove_eq habEarly, ← hnamesAt h.alike_once,
      Assembly.logicOver?_eq ((h.alike_once.ancestors i).symm.trans hab)]
    · exact honceCode
    · rw [Assembly.ledTo?, hu, Option.bind_some, Assembly.logicOver?_eq habEarly]
      exact hagainCode

end Grown

/-- In types without an order nothing is woven. -/
theorem Grown.regrown_of_disorder {e : DeclError} (h : loom.Grown a b c adds)
    (hw : w.assembly = c) (htables : w.tables = []) (horder : a.hierarchyOrder = .error e)
    (ht : a.type? i = some t) :
    ∃ u v, (loom.weave w).1.assembly.type? i = some u ∧
      (loom.weave (.start b)).1.assembly.type? i = some v ∧
      Regrown (loom.weave (.start a)).1.assembly (loom.weave w) (loom.weave (.start b)) i u v := by
  have hafter := h.after
  rw [loom.weave_of_error (w := .start a) horder] at hafter
  obtain rfl : b = c := Option.some.inj (h.before.symm.trans hafter)
  have hdisorder := horder
  rw [h.alike_before.hierarchyOrder] at hdisorder
  have htype := (Assembly.type?_of_declareAll? h.before h.declared i).1
  rw [ht, Option.map_some] at htype
  rw [loom.weave_of_error (w := w) (hw ▸ hdisorder),
    loom.weave_of_error (w := .start b) hdisorder]
  refine ⟨_, _, (congrArg (·.type? i) hw).trans htype, htype, rfl, rfl, rfl, ?_, fun _ _ => rfl,
    fun s => ⟨none, ?_⟩⟩
  · show (w.tables.find? _).map _ = none
    rw [htables]
    rfl
  · have hfresh := (h.unwoven t (List.mem_of_getElem? ht)).fresh
    have hnone : (t.extend (Assembly.addedTo adds i)).generated? ⟨.logic, s⟩ = none := by
      rw [TypeDef.generated?_extend t fun p hp => h.declared _ (Assembly.mem_addedTo.mp hp),
        hfresh.generated?]
    exact ⟨hnone, hnone⟩

/-- Weaving types, adding declared procedures and weaving again, by the same weaver or by a new one,
comes to the same as adding the procedures first and weaving once.  The procedures can be added in
either case.  They have the same ids, the tables are the same, and so are all senders and receivers.
Logic holds the same code, and its base calls lead to the nearest logic above; but base calls that
the first run led on stay where it led them, even if there is nearer logic now. -/
theorem weave_grown (hcodec : loom.codec.Honest) (hnames : a.NamesDiffer)
    (hunwoven : ∀ t ∈ a.types, t.Unwoven)
    (huser : ∀ t ∈ a.types, ∀ p ∈ t.procedures, UserName p.name)
    (hdeclared : ∀ x ∈ adds, x.2.isDeclared = true) (hnew : ∀ x ∈ adds, UserName x.2.name)
    (hadd : a.declareAll? adds = some b) (hfirst : (loom.weave (.start a)).2.WithinQuota)
    (honce : (loom.weave (.start b)).2.WithinQuota) :
    ∃ c, (loom.weave (.start a)).1.assembly.declareAll? adds = some c ∧
      ∀ w, w = { (loom.weave (.start a)).1 with assembly := c } ∨ w = .start c →
        ∀ i t, a.type? i = some t → ∃ u v,
          (loom.weave w).1.assembly.type? i = some u ∧
          (loom.weave (.start b)).1.assembly.type? i = some v ∧
          Regrown (loom.weave (.start a)).1.assembly (loom.weave w) (loom.weave (.start b)) i u v := by
  cases horder : a.hierarchyOrder with
  | error e =>
    have hstays := loom.weave_of_error (w := .start a) horder
    rw [hstays] at hfirst ⊢
    refine ⟨b, hadd, fun w hw i t ht => ?_⟩
    have h : loom.Grown a b b adds := ⟨hcodec, hnames, hunwoven, huser, hdeclared, hnew, hadd,
      by rw [hstays]; exact hadd, by rw [hstays]; exact hfirst, honce⟩
    rw [show ((Weaving.start a).say (Log.error e.message)).assembly =
      (loom.weave (.start a)).1.assembly by rw [hstays]]
    rcases hw with rfl | rfl
    all_goals exact h.regrown_of_disorder rfl rfl horder ht
  | ok order =>
    obtain ⟨-, hknown⟩ := Assembly.of_hierarchyOrder horder
    -- what can be added before the first run can be added after it
    obtain ⟨c, hc⟩ : ∃ c, (loom.weave (.start a)).1.assembly.declareAll? adds = some c := by
      refine Assembly.declareAll?_of_taken hadd hdeclared fun k t ht => ?_
      obtain ⟨_, above, -, hab⟩ := hknown k (Assembly.mem_hierarchyOrder horder ht)
      obtain ⟨u, firstly, hu, hrun⟩ :=
        exists_firstRun hcodec hnames hunwoven huser hfirst horder ht hab
      exact ⟨u, hu, fun p hp => hrun.untaken (hnew _ hp)⟩
    have h : loom.Grown a b c adds :=
      ⟨hcodec, hnames, hunwoven, huser, hdeclared, hnew, hadd, hc, hfirst, honce⟩
    refine ⟨c, hc, fun w hw i t ht => ?_⟩
    rcases hw with rfl | rfl
    · exact h.regrown rfl (loom.links_weave rfl) horder ht
    · exact h.regrown rfl rfl horder ht

end Loom

namespace Sample

/-- Three types, each deriving from the one before.  The second has no procedures yet. -/
def stair : Assembly :=
  ⟨[⟨"Root", none, [rootHit]⟩, ⟨"Mid", some "Root", []⟩, ⟨"Leaf", some "Mid", [midHit]⟩]⟩

/-- What the second type is to have. -/
def landing : List (TypeId × Procedure) := [(1, midHit)]

/-- The stair as the first run leaves it. -/
def wovenStair : Weaving := (loom.weave (.start stair)).1

/-- A reference to the logic of the stair's call on one of its types. -/
def hitLogic (owner : String) : MethodRef := ⟨owner, "RpcLogic___Hit", []⟩

end Sample

open Sample in
/-- The landing can be added to the woven stair, and its last type is woven again as it would be in
one run, but for the base call of the next theorem. -/
theorem Loom.weave_grown_stair :
    Sample.loom.codec.Honest ∧ stair.NamesDiffer ∧ (∀ t ∈ stair.types, t.Unwoven) ∧
    (∀ t ∈ stair.types, ∀ p ∈ t.procedures, UserName p.name) ∧
    (∀ x ∈ landing, x.2.isDeclared = true) ∧ (∀ x ∈ landing, UserName x.2.name) ∧
    (Sample.loom.weave (.start stair)).2.WithinQuota ∧
    ∃ b c u v, stair.declareAll? landing = some b ∧
      (Sample.loom.weave (.start b)).2.WithinQuota ∧
      wovenStair.assembly.declareAll? landing = some c ∧
      (Sample.loom.weave (.start c)).1.assembly.type? 2 = some u ∧
      (Sample.loom.weave (.start b)).1.assembly.type? 2 = some v ∧
      Regrown wovenStair.assembly (Sample.loom.weave (.start c)) (Sample.loom.weave (.start b)) 2
        u v := by
  rw [wovenStair]
  have hfirst : (Sample.loom.weave (.start stair)).2.errors = [] := by decide +kernel
  have honce : ((stair.declareAll? landing).map fun b =>
      (Sample.loom.weave (.start b)).2.errors) = some [] := by decide +kernel
  obtain ⟨b, hadd, honce⟩ := Option.map_eq_some_iff.mp honce
  have hquota : (Sample.loom.weave (.start stair)).2.WithinQuota := by
    simp [Outcome.WithinQuota, hfirst]
  have hquota' : (Sample.loom.weave (.start b)).2.WithinQuota := by
    simp [Outcome.WithinQuota, honce]
  obtain ⟨c, hc, hall⟩ := weave_grown Codec.honest_standard (by decide) (by decide) (by decide)
    (by decide) (by decide) hadd hquota hquota'
  obtain ⟨u, v, hu, hv, hregrown⟩ := hall (.start c) (.inr rfl) 2 _ rfl
  exact ⟨Codec.honest_standard, by decide, by decide, by decide, by decide, by decide, hquota,
    b, c, u, v, hadd, hquota', hc, hu, hv, hregrown⟩

open Sample in
/-- In the only run the base call of the last type is led to the logic of the second.  If the second
type gets its procedure between two runs, the base call stays where the first run led it, and the
logic of the second type is not reached. -/
theorem Loom.base_call_outdated_stair :
    Sample.loom.codec.Honest ∧ stair.NamesDiffer ∧ (∀ t ∈ stair.types, t.Unwoven) ∧
    (∀ t ∈ stair.types, ∀ p ∈ t.procedures, UserName p.name) ∧
    (∀ x ∈ landing, x.2.isDeclared = true) ∧ (∀ x ∈ landing, UserName x.2.name) ∧
    (Sample.loom.weave (.start stair)).2.allErrors = [] ∧
    ∃ b c, stair.declareAll? landing = some b ∧
      wovenStair.assembly.declareAll? landing = some c ∧
      (Sample.loom.weave (.start b)).2.allErrors = [] ∧
      (Sample.loom.weave (.start b)).1.assembly.logicCalls? 2 hit = some [hitLogic "Mid"] ∧
      ∀ w, w = { wovenStair with assembly := c } ∨ w = .start c →
        (Sample.loom.weave w).2.allErrors = [] ∧
        (Sample.loom.weave w).1.assembly.logicCalls? 2 hit = some [hitLogic "Root"] := by
  have honce : ((stair.declareAll? landing).map fun b =>
      ((Sample.loom.weave (.start b)).2.allErrors,
        (Sample.loom.weave (.start b)).1.assembly.logicCalls? 2 hit)) =
      some ([], some [hitLogic "Mid"]) := by decide +kernel
  have hagain : ((wovenStair.assembly.declareAll? landing).map fun c =>
      ([{ wovenStair with assembly := c }, .start c] : List Weaving).map fun w =>
        ((Sample.loom.weave w).2.allErrors,
          (Sample.loom.weave w).1.assembly.logicCalls? 2 hit)) =
      some [([], some [hitLogic "Root"]), ([], some [hitLogic "Root"])] := by decide +kernel
  obtain ⟨b, hb, honce⟩ := Option.map_eq_some_iff.mp honce
  obtain ⟨c, hc, hagain⟩ := Option.map_eq_some_iff.mp hagain
  simp only [List.map_cons, List.map_nil, List.cons.injEq, Prod.mk.injEq] at honce hagain
  refine ⟨Codec.honest_standard, by decide, by decide, by decide, by decide, by decide,
    by decide +kernel, b, c, hb, hc, honce.1, honce.2, fun w hw => ?_⟩
  rcases hw with rfl | rfl
  · exact hagain.1
  · exact hagain.2.1

end RpcLoom
