/-
RpcLoom/Proofs/Steadiness.lean

What every change to a woven assembly keeps.

Design.  Whatever is added or woven, an assembly grows: no type loses its place,
its name or the types above it (`Assembly.Grows`).  A state is steady if every
type backs its table and every link kept for later stands for logic that is there
(`Weaving.Steady`).  Adding procedures or types and leading base calls on let all
types last, so what backed a table goes on backing it (`Steady.of_lasts`).
Weaving a type does not let it last, since senders are made anew; but then it is
given a new table, which it backs, or none (`Steady.absorbs`).
-/
import RpcLoom.Proofs.Carriers

namespace RpcLoom

/-! ### Assemblies that grow -/

namespace Assembly

variable {a b : Assembly} {t u : TypeDef} {i : TypeId}

/-- An assembly keeps the name and the base of every type; more types may follow. -/
def Grows (a b : Assembly) : Prop :=
  ∀ i t, a.type? i = some t → ∃ u, b.type? i = some u ∧ u.name = t.name ∧ u.base = t.base

theorem grows_of_faces (h : a.faces = b.faces) : a.Grows b := by
  intro i t ht
  rcases type?_congr h i with ⟨ha, -⟩ | ⟨t', u, ha, hu, hface⟩
  · cases ha.symm.trans ht
  · obtain rfl := Option.some.inj (ha.symm.trans ht)
    obtain ⟨hname, hbase, -⟩ := TypeDef.face_eq_iff.mp hface
    exact ⟨u, hu, hname.symm, hbase.symm⟩

theorem grows_set (ht : a.type? i = some t) (hname : u.name = t.name) (hbase : u.base = t.base) :
    a.Grows (a.set i u) := by
  intro k v hv
  by_cases hk : i = k
  · subst hk
    obtain rfl := Option.some.inj (ht.symm.trans hv)
    exact ⟨u, type?_set_self ht, hname, hbase⟩
  · exact ⟨v, (type?_set_of_ne a u hk).trans hv, rfl, rfl⟩

theorem type?_append_of_some (ht : a.type? i = some t) (u : TypeDef) :
    (⟨a.types ++ [u]⟩ : Assembly).type? i = some t := by
  obtain ⟨hi, -⟩ := List.getElem?_eq_some_iff.mp ht
  rw [type?, List.getElem?_append_left hi]
  exact ht

theorem grows_append (a : Assembly) (u : TypeDef) : a.Grows ⟨a.types ++ [u]⟩ :=
  fun _ t ht => ⟨t, type?_append_of_some ht u, rfl, rfl⟩

/-- Names lead where they led. -/
theorem Grows.find? (h : a.Grows b) {name : String} (hi : a.find? name = some i) :
    b.find? name = some i := by
  obtain ⟨hlt, hname, hbefore⟩ := List.findIdx?_eq_some_iff_getElem.mp hi
  obtain ⟨u, hu, huname, -⟩ := h i _ (List.getElem?_eq_getElem hlt)
  obtain ⟨hult, rfl⟩ := List.getElem?_eq_some_iff.mp hu
  refine List.findIdx?_eq_some_iff_getElem.mpr ⟨hult, by rw [huname]; exact hname, fun k hk => ?_⟩
  obtain ⟨v, hv, hvname, -⟩ := h k _ (List.getElem?_eq_getElem (Nat.lt_trans hk hlt))
  obtain ⟨hvlt, rfl⟩ := List.getElem?_eq_some_iff.mp hv
  rw [hvname]
  exact hbefore k hk

/-- A walk upwards ends where it ended. -/
theorem Above.grows {l : List TypeId} (habove : a.Above t l) (h : a.Grows b)
    (hbase : u.base = t.base) : b.Above u l := by
  induction habove generalizing u with
  | root hroot => exact .root (hbase.trans hroot)
  | derived hderived hfind hv _ ih =>
    obtain ⟨v, hv', -, hbase'⟩ := h _ _ hv
    exact .derived (hbase.trans hderived) (h.find? hfind) hv' (ih hbase')

/-- A type keeps the types above it. -/
theorem Grows.ancestors (h : a.Grows b) {l : List TypeId} (hl : a.ancestors i = .ok l) :
    b.ancestors i = .ok l := by
  obtain ⟨t, ht, habove⟩ := ancestors_eq_ok_iff.mp hl
  obtain ⟨u, hu, -, hbase⟩ := h i t ht
  exact ancestors_eq_ok_iff.mpr ⟨u, hu, habove.grows h hbase⟩

end Assembly

/-- A link that is ready stays ready while its type grows. -/
theorem LogicLink.Ready.grows {link : LogicLink} {a b : Assembly} {i : TypeId}
    {above : List TypeId} {t u : TypeDef} {p : Procedure} (h : link.Ready a i above t p)
    (hgrows : a.Grows b) (hu : b.type? i = some u) (htu : t.Grows u) (hc : u.Canonical) :
    ∃ q, link.Ready b i above u q := by
  have horigin : (u.procedure? link.logic).map (·.origin) =
      some (.synthesized ⟨.logic, link.served⟩) := by
    obtain ⟨more, hmore⟩ := htu.origins
    have hp : (t.procedures.map (·.origin))[link.logic]? = some p.origin := by
      rw [List.getElem?_map]
      show (t.procedure? link.logic).map (·.origin) = _
      rw [h.logic, Option.map_some]
    have hlt := (List.getElem?_eq_some_iff.mp hp).1
    show (u.procedures[link.logic]?).map (·.origin) = _
    rw [← List.getElem?_map, ← hmore, List.getElem?_append_left hlt, hp, h.origin]
  obtain ⟨q, hq, hqo⟩ := Option.map_eq_some_iff.mp horigin
  exact ⟨q, hgrows.find? h.find, hu, hgrows.ancestors h.above, hq, hqo,
    congrArg Signature.name (hc _ q _ hq hqo).1⟩

/-! ### Steady states -/

/-- The types of an assembly are told apart by their names, generated procedures are found where
they should be, and the annotated procedures of each type differ. -/
structure Assembly.Orderly (a : Assembly) : Prop where
  names : a.NamesDiffer
  canonical : ∀ i t, a.type? i = some t → t.Canonical
  differ : ∀ i t, a.type? i = some t → t.CallsDiffer

/-- Every type backs its table, and every link kept for later is ready. -/
structure Weaving.Steady (w : Weaving) : Prop where
  orderly : w.assembly.Orderly
  links : ∀ link ∈ w.links, ∃ i above t p, link.Ready w.assembly i above t p
  tables : ∀ name table, w.table? name = some table → ∃ i above t,
    w.assembly.find? name = some i ∧ w.assembly.ancestors i = .ok above ∧
      w.assembly.type? i = some t ∧ t.Backs table

namespace Weaving

variable {w : Weaving} {a b : Assembly}

theorem steady_start (hnames : a.NamesDiffer) (hfresh : ∀ t ∈ a.types, t.Fresh)
    (hdiffer : ∀ t ∈ a.types, t.CallsDiffer) : (Weaving.start a).Steady := by
  refine ⟨⟨hnames, fun i t ht => ?_, fun i t ht => ?_⟩,
    fun link hl => absurd hl List.not_mem_nil, fun name table ht => by cases ht⟩
  · exact (hfresh t (List.mem_of_getElem? ht)).canonical
  · exact hdiffer t (List.mem_of_getElem? ht)

/-- A state stays steady where all types last. -/
theorem Steady.of_lasts (h : w.Steady) (hb : b.Orderly) (hgrows : w.assembly.Grows b)
    (hlasts : ∀ i t, w.assembly.type? i = some t → ∃ u, b.type? i = some u ∧ t.Lasts u) :
    { w with assembly := b }.Steady := by
  refine ⟨hb, fun link hl => ?_, fun name table htable => ?_⟩
  · obtain ⟨i, above, t, p, hready⟩ := h.links link hl
    obtain ⟨u, hu, htu⟩ := hlasts i t hready.type
    obtain ⟨q, hq⟩ := hready.grows hgrows hu htu.grows (hb.canonical i u hu)
    exact ⟨i, above, u, q, hq⟩
  · obtain ⟨i, above, t, hi, hab, ht, hbacks⟩ := h.tables name table htable
    obtain ⟨u, hu, htu⟩ := hlasts i t ht
    exact ⟨i, above, u, hgrows.find? hi, hgrows.ancestors hab, hu, hbacks.lasts htu⟩

theorem Steady.say (h : w.Steady) (log : Log) : (w.say log).Steady := ⟨h.orderly, h.links, h.tables⟩

end Weaving

/-! ### Adding procedures and types -/

namespace TypeDef

variable {t : TypeDef} {p : Procedure}

theorem Canonical.declare (h : t.Canonical) (hd : p.isDeclared = true) : (t.push p).Canonical := by
  intro i q key hq ho
  rcases procedure?_push_cases hq with hq | ⟨-, rfl⟩
  · obtain ⟨hsig, hfind⟩ := h i q key hq ho
    have hprefix : t.procedures.map (·.signature) <+: (t.push p).procedures.map (·.signature) := by
      simp [TypeDef.push]
    exact ⟨hsig, findSignature?_of_prefix hprefix hfind⟩
  · exact absurd ho (Procedure.origin_ne_of_isDeclared hd _)

theorem outline_declare (t : TypeDef) (hd : p.isDeclared = true) :
    (t.push p).outline = t.outline ++ [(t.procedures.length, p.heading)] := by
  simp [outline, push, List.zipIdx_append, hd]

theorem CallsDiffer.declare (h : t.CallsDiffer) (hd : p.isDeclared = true)
    (hnew : t.findSignature? p.signature = none) : (t.push p).CallsDiffer := by
  have hother : ∀ s ∈ t.remotes.map (·.2.signature), s ≠ p.signature := by
    intro s hs hsame
    obtain ⟨⟨m, head⟩, hmem, rfl⟩ := List.mem_map.mp hs
    obtain ⟨q, hq, -, -, rfl⟩ := mem_remotes.mp hmem
    have := List.findIdx?_eq_none_iff.mp hnew q (List.mem_of_getElem? hq)
    simp [← hsame] at this
  rw [CallsDiffer, remotes, outline_declare t hd, List.filter_append, List.map_append]
  refine List.nodup_append.mpr ⟨h, ?_, fun s hs s' hs' => ?_⟩
  · exact (List.nodup_singleton _).sublist (List.filter_sublist.map _)
  · obtain ⟨⟨m, head⟩, hmem, rfl⟩ := List.mem_map.mp hs'
    obtain ⟨rfl, rfl⟩ : m = t.procedures.length ∧ head = p.heading := by
      simpa using (List.mem_filter.mp hmem).1
    exact hother s hs

/-- Adding succeeds only for a signature that no procedure has. -/
theorem findSignature?_of_add {t' : TypeDef} {id : ProcedureId} (h : t.add p = .ok (t', id)) :
    t.findSignature? p.signature = none := by
  cases hs : t.findSignature? p.signature with
  | none => rfl
  | some i => simp [add, hs] at h

end TypeDef

theorem Assembly.Orderly.set {a : Assembly} {i : TypeId} {t u : TypeDef} (h : a.Orderly)
    (ht : a.type? i = some t) (hname : u.name = t.name) (hcanonical : u.Canonical)
    (hdiffer : u.CallsDiffer) :
    (a.set i u).Orderly := by
  have hall : ∀ P : TypeDef → Prop, P u → (∀ k v, a.type? k = some v → P v) →
      ∀ k v, (a.set i u).type? k = some v → P v := by
    intro P hu hP k v hv
    by_cases hk : i = k
    · subst hk
      rw [Assembly.type?_set_self ht] at hv
      exact Option.some.inj hv ▸ hu
    · rw [Assembly.type?_set_of_ne a u hk] at hv
      exact hP k v hv
  refine ⟨?_, hall _ hcanonical h.canonical, hall _ hdiffer h.differ⟩
  show ((a.set i u).types.map (·.name)).Nodup
  rw [Assembly.map_types_set _ ht hname]
  exact h.names

namespace Weaving

variable {w : Weaving} {i : TypeId} {t u : TypeDef}

theorem Steady.declare {p : Procedure} {t' : TypeDef} {id : ProcedureId} (h : w.Steady)
    (ht : w.assembly.type? i = some t) (hd : p.isDeclared = true)
    (hadd : t.add p = .ok (t', id)) : { w with assembly := w.assembly.set i t' }.Steady := by
  obtain ⟨rfl, -⟩ := TypeDef.eq_of_add hadd
  refine h.of_lasts (Assembly.Orderly.set h.orderly ht rfl ((h.orderly.canonical i t ht).declare hd)
    ((h.orderly.differ i t ht).declare hd (TypeDef.findSignature?_of_add hadd)))
    (Assembly.grows_set ht rfl rfl) fun k v hv => ?_
  by_cases hk : i = k
  · subst hk
    obtain rfl := Option.some.inj (ht.symm.trans hv)
    exact ⟨_, Assembly.type?_set_self ht, t.lasts_push p⟩
  · exact ⟨v, (Assembly.type?_set_of_ne _ _ hk).trans hv, .refl v⟩

theorem Steady.addType {a : Assembly} (h : w.Steady) (hfresh : t.Fresh) (hdiffer : t.CallsDiffer)
    (hadd : w.assembly.add t = .ok (a, i)) : { w with assembly := a }.Steady := by
  have hnames := h.orderly.names.add hadd
  obtain ⟨-, rfl, -⟩ := Assembly.add_eq_ok_iff.mp hadd
  have hall : ∀ P : TypeDef → Prop, P t → (∀ k v, w.assembly.type? k = some v → P v) →
      ∀ k v, (⟨w.assembly.types ++ [t]⟩ : Assembly).type? k = some v → P v := by
    intro P hP hold k v hv
    rcases List.mem_append.mp (List.mem_of_getElem? hv) with hmem | hmem
    · obtain ⟨k', hk'⟩ := List.mem_iff_getElem?.mp hmem
      exact hold k' v hk'
    · exact List.mem_singleton.mp hmem ▸ hP
  exact h.of_lasts ⟨hnames, hall _ hfresh.canonical h.orderly.canonical,
    hall _ hdiffer h.orderly.differ⟩ (Assembly.grows_append _ t)
    fun k v hv => ⟨v, Assembly.type?_append_of_some hv t, .refl v⟩

/-! ### Weaving -/

/-- What weaving a type comes to is taken up if the type as it becomes backs its table and has the
logic of its links. -/
theorem Steady.absorbs {w' : Weaving} {above : List TypeId}
    {x : Log × Except WeaveError TypeWeaving} (h : w.Steady) (ht : w.assembly.type? i = some t)
    (hab : w.assembly.ancestors i = .ok above) (habsorbs : w.Absorbs i t x w')
    (hface : (becomes t x.2).face = t.face) (hcanonical : (becomes t x.2).Canonical)
    (hgrows : t.Grows (becomes t x.2))
    (hlinks : ∀ link ∈ linksOf x.2, link.typeName = t.name ∧
      (becomes t x.2).findSynthesized? ⟨.logic, link.served⟩ = some link.logic)
    (hbacks : ∀ table, tableOf x.2 = some table → (becomes t x.2).Backs table) : w'.Steady := by
  -- one type has changed, in its generated procedures alone; what is known of the others stays
  obtain ⟨hname, hbase, houtline⟩ := TypeDef.face_eq_iff.mp hface
  have hfind := h.orderly.names.find? ht
  have hrises : w.assembly.Grows w'.assembly := by
    rw [habsorbs.assembly]
    exact Assembly.grows_set ht hname hbase
  have hself : w'.assembly.type? i = some (becomes t x.2) := by
    rw [habsorbs.assembly]
    exact Assembly.type?_set_self ht
  have hother : ∀ {k}, i ≠ k → w'.assembly.type? k = w.assembly.type? k := fun hk => by
    rw [habsorbs.assembly]
    exact Assembly.type?_set_of_ne _ _ hk
  refine ⟨?_, fun link hlink => ?_, fun name table htable => ?_⟩
  · rw [habsorbs.assembly]
    refine h.orderly.set ht hname hcanonical ?_
    rw [TypeDef.CallsDiffer, TypeDef.remotes_congr houtline]
    exact h.orderly.differ i t ht
  · rw [habsorbs.links, mem_foldl_keepLink] at hlink
    rcases hlink with hlink | hlink
    · -- a link kept before
      obtain ⟨k, above', u, p, hready⟩ := h.links link hlink
      by_cases hk : i = k
      · subst hk
        obtain rfl := Option.some.inj (ht.symm.trans hready.type)
        obtain ⟨q, hq⟩ := hready.grows hrises hself hgrows hcanonical
        exact ⟨i, above', _, q, hq⟩
      · obtain ⟨q, hq⟩ := hready.grows hrises ((hother hk).trans hready.type) (.refl u)
          (h.orderly.canonical k u hready.type)
        exact ⟨k, above', u, q, hq⟩
    -- a link that this type has just left
    · obtain ⟨hlinkName, hlogic⟩ := hlinks link hlink
      obtain ⟨p, hp, ho⟩ := TypeDef.procedure?_of_findSynthesized? hlogic
      exact ⟨i, above, _, p, by rw [hlinkName]; exact hrises.find? hfind, hself,
        hrises.ancestors hab, hp, ho, congrArg Signature.name (hcanonical _ p _ hp ho).1⟩
  · rw [habsorbs.table?] at htable
    by_cases hsame : t.name = name
    · rw [if_pos hsame] at htable
      exact ⟨i, above, _, hsame ▸ hrises.find? hfind, hrises.ancestors hab, hself,
        hbacks table htable⟩
    · rw [if_neg hsame] at htable
      obtain ⟨k, above', u, hk, hab', hu, hold⟩ := h.tables name table htable
      -- tables go by names, and names differ, so this is the table of another type
      have hne : i ≠ k := by
        rintro rfl
        obtain rfl := Option.some.inj (ht.symm.trans hu)
        exact hsame (LogicLink.name_of_find? hk ht)
      exact ⟨k, above', u, hrises.find? hk, hrises.ancestors hab', (hother hne).trans hu, hold⟩

end Weaving

/-- Leading base calls on keeps an assembly orderly. -/
theorem Assembly.Orderly.relinked {a b : Assembly} (h : a.Orderly) (hr : a.Relinked b) :
    b.Orderly := by
  have hback : ∀ i u, b.type? i = some u → ∃ t, a.type? i = some t ∧ t.Relinked u := by
    intro i u hu
    have hsame := Assembly.type?_bare_congr hr.bare i
    rw [hu, Option.map_some, eq_comm, Option.map_eq_some_iff] at hsame
    obtain ⟨t, ht, -⟩ := hsame
    obtain ⟨v, hv, htv⟩ := hr.types i t ht
    exact ⟨t, ht, Option.some.inj (hv.symm.trans hu) ▸ htv⟩
  refine ⟨h.names.congr (Assembly.faces_of_bare_eq hr.bare).symm, fun i u hu => ?_,
    fun i u hu => ?_⟩
  · obtain ⟨t, ht, htu⟩ := hback i u hu
    exact htu.canonical (h.canonical i t ht)
  · obtain ⟨t, ht, htu⟩ := hback i u hu
    have houtline : u.outline = t.outline := by
      rw [← TypeDef.outline_bare, htu.bare, TypeDef.outline_bare]
    rw [TypeDef.CallsDiffer, TypeDef.remotes_congr houtline]
    exact h.differ i t ht

namespace Loom

open Weaving

variable {loom : Loom} {w : Weaving}

/-- Weaving a type gives it a table that it backs, or takes its table away. -/
theorem steady_weaveType (loom : Loom) (h : w.Steady) (i : TypeId) :
    (loom.weaveType w i).1.Steady := by
  cases hab : w.assembly.ancestors i with
  | error e =>
    rw [weaveType_of_unknown loom hab]
    exact h.say _
  | ok above =>
    obtain ⟨t, ht, -, -⟩ := Assembly.of_ancestors hab
    obtain ⟨w', hweave, habsorbs⟩ := weaveType_eq loom ht hab
    rw [hweave]
    have hcanonical := h.orderly.canonical i t ht
    obtain ⟨counter, -, ⟨log, e, -, halone⟩ | ⟨log, v, hv, halone⟩⟩ := alone_cases loom ht hab
    · -- the type stays as it is, and has no table any more
      rw [halone] at habsorbs
      exact h.absorbs ht hab habsorbs rfl hcanonical (.refl t)
        (fun link hl => absurd hl List.not_mem_nil) fun table htable => by cases htable
    · rw [halone] at habsorbs
      obtain ⟨-, -, turns, hturns, -⟩ := turns_of_weaveTypeDef hv
      refine h.absorbs ht hab habsorbs (face_weaveTypeDef hv) (hturns.canonical hcanonical)
        hturns.grows (fun link hl => ?_) fun table htable => ?_
      · rcases hturns.links_found hcanonical hl with hstart | hfound
        · cases hstart
        · exact hfound
      · obtain rfl := Option.some.inj htable
        exact backs_weaveTypeDef hv hcanonical (h.orderly.differ i t ht)

theorem steady_weaveTypes (loom : Loom) (h : w.Steady) (is : List TypeId) :
    (loom.weaveTypes w is).1.Steady := by
  induction is generalizing w with
  | nil => exact h
  | cons i rest ih =>
    have hstep : (loom.weaveTypes w (i :: rest)).1 =
        (loom.weaveTypes (loom.weaveType w i).1 rest).1 := by
      rw [weaveTypes]
      rcases loom.weaveType w i with ⟨w', e | report⟩ <;> rfl
    rw [hstep]
    exact ih (loom.steady_weaveType h i)

/-- Following links that are ready lets all types last. -/
theorem steady_followAll {links : List LogicLink} (h : w.Steady)
    (hready : ∀ link ∈ links, ∃ i above t p, link.Ready w.assembly i above t p) :
    (w.followAll links).1.Steady := by
  induction links generalizing w with
  | nil => exact h
  | cons link rest ih =>
    obtain ⟨i, above, t, p, hlink⟩ := hready link (by simp)
    obtain ⟨failure, b, hfollow, hrelinked, -, -⟩ := hlink.follow
    have hfaces := Assembly.faces_of_bare_eq hrelinked.bare
    have hlasts : ∀ k u, w.assembly.type? k = some u → ∃ v, b.type? k = some v ∧ u.Lasts v := by
      intro k u hu
      obtain ⟨v, hv, huv⟩ := hrelinked.types k u hu
      exact ⟨v, hv, huv.lasts⟩
    have hsteady := (h.of_lasts (h.orderly.relinked hrelinked)
      (Assembly.grows_of_faces hfaces.symm) hlasts).say (LogicLink.said failure)
    rw [show (w.followAll (link :: rest)).1 = ((w.follow link).1.followAll rest).1 from rfl,
      hfollow]
    refine ih hsteady fun other hother => ?_
    obtain ⟨i', above', t', p', hother⟩ := hready other (by simp [hother])
    obtain ⟨u, q, hu, -, -⟩ := hother.relinked hrelinked
    exact ⟨i', above', u, q, hu⟩

theorem steady_weave (loom : Loom) (h : w.Steady) : (loom.weave w).1.Steady := by
  cases horder : w.assembly.hierarchyOrder with
  | error e =>
    rw [weave_of_error loom horder]
    exact h.say _
  | ok order =>
    have hwoven := loom.steady_weaveTypes h order
    have hweave : (loom.weave w).1 = (loom.weaveTypes w order).1.linkBases.1 := by
      rw [weave]
      simp only [horder]
    rw [hweave]
    exact steady_followAll
      ⟨hwoven.orderly, fun link hl => absurd hl List.not_mem_nil, hwoven.tables⟩ hwoven.links

end Loom

end RpcLoom
