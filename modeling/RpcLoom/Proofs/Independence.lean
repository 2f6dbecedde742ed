/-
RpcLoom/Proofs/Independence.lean

What becomes of a type depends on the type and on those above it.

Design.  Two assemblies that share a type and the types above it have them at
different places, among different types (`Assembly.Twins`).  The walk upwards
passes the same types in both, so the type begins with the same counter and comes
to the same alone; so does every type above it.  A run gathers what the types come
to alone, and what it keeps of one type can be told by its name.  Links are
followed afterwards, but those of the type see nothing except the types above it.

Main result.  `Loom.weave_account`: both runs give the same account of the type.
-/
import RpcLoom.Proofs.Faultless
import RpcLoom.Proofs.OwnLinks

namespace RpcLoom

/-! ### One type in two assemblies -/

namespace Assembly

variable {a b : Assembly} {i k : TypeId} {t : TypeDef} {l m : List TypeId}

/-- One type at two places, with the same types above it. -/
structure Twins (a b : Assembly) (i k : TypeId) (t : TypeDef) (l m : List TypeId) : Prop where
  left : a.type? i = some t
  right : b.type? k = some t
  aboveLeft : a.Above t l
  aboveRight : b.Above t m
  same : l.map a.type? = m.map b.type?

theorem Above.shared (h : a.Above t l) (hnames : b.NamesDiffer)
    (hshared : ∀ j ∈ l, ∀ u, a.type? j = some u → u ∈ b.types) :
    ∃ m, b.Above t m ∧ l.map a.type? = m.map b.type? := by
  induction h with
  | root h => exact ⟨[], .root h, rfl⟩
  | @derived t u base j l hbase hfind hu _ ih =>
    obtain ⟨m, hm, hsame⟩ := ih fun j hj => hshared j (by simp [hj])
    obtain ⟨k, hk⟩ := List.getElem?_of_mem (hshared j (by simp) u hu)
    have hbase' : b.find? base = some k := by
      rw [← LogicLink.name_of_find? hfind hu]
      exact hnames.find? hk
    refine ⟨k :: m, .derived hbase hbase' hk hm, ?_⟩
    rw [List.map_cons, List.map_cons, hsame, hu]
    exact congrArg (· :: _) hk.symm

namespace Twins

variable {α : Type}

/-- The types above twins are twins. -/
theorem getElem (h : Twins a b i k t l m) {n : Nat} (hl : n < l.length) (hm : n < m.length) :
    ∃ u, Twins a b l[n] m[n] u (l.drop (n + 1)) (m.drop (n + 1)) := by
  have hsplit : ∀ {is : List TypeId} (hn : n < is.length),
      is = is.take n ++ is[n] :: is.drop (n + 1) := fun hn => by simp
  obtain ⟨u, hu, haboveU⟩ := (hsplit hl ▸ h.aboveLeft).of_append
  obtain ⟨u', hu', haboveU'⟩ := (hsplit hm ▸ h.aboveRight).of_append
  have hthis := congrArg (·[n]?) h.same
  simp only [List.getElem?_map, List.getElem?_eq_getElem hl, List.getElem?_eq_getElem hm,
    Option.map_some, hu, hu', Option.some.injEq] at hthis
  subst hthis
  exact ⟨u, hu, hu', haboveU, haboveU', by rw [List.map_drop, List.map_drop, h.same]⟩

/-- What is the same for all twins is the same all the way up. -/
theorem map_eq (h : Twins a b i k t l m) {f g : TypeId → α}
    (hfg : ∀ {j j' u l' m'}, Twins a b j j' u l' m' → f j = g j') : l.map f = m.map g := by
  have hlength : l.length = m.length := by simpa using congrArg List.length h.same
  refine List.ext_getElem (by simpa using hlength) fun n hl hm => ?_
  rw [List.length_map] at hl hm
  obtain ⟨u, hu⟩ := h.getElem hl hm
  simpa using hfg hu

theorem ofAncestors_eq (h : Twins a b i k t l m) (ceiling : UInt32) :
    IdCounter.ofAncestors a i ceiling = IdCounter.ofAncestors b k ceiling := by
  have hcounts := h.map_eq (f := fun j => RpcId.ofCount (((a.type? j).map (·.remoteCount)).getD 0))
    (g := fun j => RpcId.ofCount (((b.type? j).map (·.remoteCount)).getD 0))
    fun hu => by rw [hu.left, hu.right]
  rw [IdCounter.ofAncestors, ancestors_eq_ok_iff.mpr ⟨t, h.left, h.aboveLeft⟩,
    IdCounter.ofAncestors, ancestors_eq_ok_iff.mpr ⟨t, h.right, h.aboveRight⟩]
  simp only [bind, Except.bind, hcounts]

/-- Twins come to the same alone. -/
theorem alone_eq (h : Twins a b i k t l m) (loom : Loom) : loom.alone a i = loom.alone b k := by
  simp only [Loom.alone, h.ofAncestors_eq, type, h.left, h.right]

end Twins

end Assembly

/-! ### What a type leaves -/

/-- The logic of every link that turns leave is there. -/
theorem Turns.links_stand {loom : Loom} {w w' : TypeWeaving} {turns : List (Job × Fate)}
    (h : Turns loom w turns w')
    (hlinks : ∀ link ∈ w.links, link.logic < w.type.procedures.length) :
    ∀ link ∈ w'.links, link.logic < w'.type.procedures.length := by
  induction h with
  | nil => exact hlinks
  | @cons w w₁ w₂ j f rest hturn _ ih =>
    apply ih
    intro link hlink
    rcases hturn.mem_links.mp hlink with hlink | ⟨triad, b, p, -, hp, -, -, rfl⟩
    · have hlength := hturn.edits.grows.origins.length_le
      rw [List.length_map, List.length_map] at hlength
      exact (hlinks link hlink).trans_le hlength
    · exact TypeDef.lt_of_procedure? hp

namespace Loom

open Weaving

variable {loom : Loom} {a : Assembly} {i : TypeId} {t : TypeDef} {above : List TypeId}

theorem typeName_of_reportOf (ht : a.type? i = some t) (hab : a.ancestors i = .ok above)
    {r : TypeReport} (hr : reportOf (loom.alone a i).2 = some r) : r.typeName = t.name := by
  obtain ⟨counter, -, ⟨log, e, -, halone⟩ | ⟨log, v, hv, halone⟩⟩ := alone_cases loom ht hab
  · rw [halone] at hr
    cases hr
  · obtain ⟨-, -, turns, hturns, -⟩ := turns_of_weaveTypeDef hv
    rw [halone] at hr
    rw [← Option.some.inj hr]
    exact hturns.name_eq

theorem quotaExceeded_of_errorOf (ht : a.type? i = some t) (hab : a.ancestors i = .ok above)
    {e : WeaveError} (he : errorOf (loom.alone a i).2 = some e) :
    ∃ required allowance, e = .quotaExceeded t.name required allowance := by
  obtain ⟨counter, -, ⟨log, e', he', halone⟩ | ⟨log, v, -, halone⟩⟩ := alone_cases loom ht hab
  · rw [halone] at he
    obtain ⟨-, required, allowance, rfl⟩ := error_of_weaveTypeDef he'
    exact ⟨required, allowance, (Option.some.inj he).symm⟩
  · rw [halone] at he
    cases he

/-- The links that a type leaves are its own, and their logic is there. -/
theorem linksOf_alone (ht : a.type? i = some t) (hab : a.ancestors i = .ok above)
    {link : LogicLink} (hlink : link ∈ linksOf (loom.alone a i).2) :
    link.typeName = t.name ∧
      ∃ p, (becomes t (loom.alone a i).2).procedure? link.logic = some p := by
  obtain ⟨counter, -, ⟨log, e, -, halone⟩ | ⟨log, v, hv, halone⟩⟩ := alone_cases loom ht hab
  · rw [halone] at hlink
    cases hlink
  · obtain ⟨-, -, turns, hturns, -⟩ := turns_of_weaveTypeDef hv
    rw [halone] at hlink ⊢
    have hstand := hturns.links_stand (fun _ hl => nomatch hl) link hlink
    refine ⟨?_, _, List.getElem?_eq_getElem hstand⟩
    rcases hturns.links_of hlink with hstart | ⟨_, -, _, _, -, rfl⟩
    · cases hstart
    · rfl

end Loom

/-! ### What is kept of a type -/

/-- Keeping links and then asking for some of them is keeping those. -/
theorem Weaving.filter_foldl_keepLink (q : LogicLink → Bool) (links start : List LogicLink) :
    (links.foldl keepLink start).filter q = (links.filter q).foldl keepLink (start.filter q) := by
  induction links generalizing start with
  | nil => rfl
  | cons link rest ih =>
    rw [List.foldl_cons, ih, List.filter_cons]
    by_cases hq : q link = true
    · rw [if_pos hq, List.foldl_cons]
      congr 1
      by_cases hin : link ∈ start
      · simp [keepLink, hin, hq]
      · simp [keepLink, hin, hq]
    · rw [if_neg hq]
      congr 1
      by_cases hin : link ∈ start
      · simp [keepLink, hin]
      · simp [keepLink, hin, hq]

namespace Loom

open Weaving

variable {loom : Loom} {a : Assembly} {w v : Weaving} {order : List TypeId} {o : Outcome}
  {i : TypeId} {t : TypeDef}

/-- Of what all types leave, what is told of one type is what that type leaves. -/
theorem filter_flatMap_order {α : Type} (horder : a.hierarchyOrder = .ok order)
    (hnames : a.NamesDiffer) (ht : a.type? i = some t) {f : TypeId → List α} {q : α → Bool}
    (hq : ∀ {j u above}, a.type? j = some u → a.ancestors j = .ok above →
      ∀ x ∈ f j, q x = (u.name == t.name)) : (order.flatMap f).filter q = f i := by
  obtain ⟨hnodup, hknown⟩ := Assembly.of_hierarchyOrder horder
  have hi := Assembly.mem_hierarchyOrder horder ht
  have hone : ∀ j ∈ order, (f j).filter q = if j = i then f i else [] := by
    intro j hj
    obtain ⟨u, above, hu, hab⟩ := hknown j hj
    by_cases hji : j = i
    · subst hji
      obtain rfl := Option.some.inj (ht.symm.trans hu)
      rw [if_pos rfl, List.filter_eq_self]
      intro x hx
      rw [hq hu hab x hx, beq_self_eq_true]
    · rw [if_neg hji, List.filter_eq_nil_iff]
      intro x hx
      rw [hq hu hab x hx, beq_iff_eq]
      exact fun hname => hji (hnames.eq_of_name_eq hu ht hname)
  rw [List.filter_flatMap, List.flatMap_congr hone]
  obtain ⟨before, after, rfl⟩ := List.append_of_mem hi
  rw [List.nodup_append, List.nodup_cons] at hnodup
  have hnil : ∀ is : List TypeId, i ∉ is →
      (is.flatMap fun j => if j = i then f i else []) = [] := by
    intro is his
    rw [List.flatMap_eq_nil_iff]
    intro j hj
    apply if_neg
    rintro rfl
    exact his hj
  rw [List.flatMap_append, hnil before fun hin => hnodup.2.2 i hin i (by simp) rfl,
    List.flatMap_cons, if_pos rfl, hnil after hnodup.2.1.1, List.nil_append, List.append_nil]

namespace Gathers

theorem filter_reports (h : loom.Gathers a w order v o) (horder : a.hierarchyOrder = .ok order)
    (hnames : a.NamesDiffer) (ht : a.type? i = some t) :
    o.reports.filter (·.typeName == t.name) = (reportOf (loom.alone a i).2).toList := by
  rw [h.reports, List.filterMap_eq_flatMap_toList]
  apply filter_flatMap_order horder hnames ht
  intro j u above hu hab r hr
  rw [typeName_of_reportOf hu hab (Option.mem_toList.mp hr)]

theorem filter_errors (h : loom.Gathers a w order v o) (horder : a.hierarchyOrder = .ok order)
    (hnames : a.NamesDiffer) (ht : a.type? i = some t) :
    o.errors.filter (·.typeName? == some t.name) = (errorOf (loom.alone a i).2).toList := by
  rw [h.errors, List.filterMap_eq_flatMap_toList]
  apply filter_flatMap_order horder hnames ht
  intro j u above hu hab e he
  obtain ⟨required, allowance, rfl⟩ :=
    quotaExceeded_of_errorOf hu hab (Option.mem_toList.mp he)
  rfl

theorem typeName?_of_mem_errors (h : loom.Gathers a w order v o)
    (horder : a.hierarchyOrder = .ok order) {e : WeaveError} (he : e ∈ o.errors) :
    e.typeName?.isSome = true := by
  obtain ⟨-, hknown⟩ := Assembly.of_hierarchyOrder horder
  rw [h.errors] at he
  obtain ⟨j, hj, herror⟩ := List.mem_filterMap.mp he
  obtain ⟨u, above, hu, hab⟩ := hknown j hj
  obtain ⟨required, allowance, rfl⟩ := quotaExceeded_of_errorOf hu hab herror
  rfl

theorem filter_links (h : loom.Gathers a w order v o) (hidle : w.links = [])
    (horder : a.hierarchyOrder = .ok order) (hnames : a.NamesDiffer) (ht : a.type? i = some t) :
    v.links.filter (·.typeName == t.name) =
      (linksOf (loom.alone a i).2).foldl keepLink [] := by
  rw [h.links, hidle, filter_foldl_keepLink, filter_flatMap_order horder hnames ht]
  · rfl
  · intro j u above hu hab link hlink
    rw [(linksOf_alone hu hab hlink).1]

theorem type?_becomes (h : loom.Gathers a w order v o) (hi : i ∈ order)
    (ht : w.assembly.type? i = some t) :
    v.assembly.type? i = some (becomes t (loom.alone a i).2) := by
  rw [h.type?, if_pos hi, ht, Option.map_some]

/-- Every link that was gathered names a type that has its logic. -/
theorem sound (h : loom.Gathers w.assembly w order v o) (hidle : w.links = [])
    (horder : w.assembly.hierarchyOrder = .ok order) (hnames : w.assembly.NamesDiffer)
    {link : LogicLink} (hlink : link ∈ v.links) : link.Sound v.assembly := by
  obtain ⟨-, hknown⟩ := Assembly.of_hierarchyOrder horder
  rw [h.links, hidle, mem_foldl_keepLink] at hlink
  rcases hlink with hstart | hlink
  · cases hstart
  obtain ⟨j, hj, hlink⟩ := List.mem_flatMap.mp hlink
  obtain ⟨u, above, hu, hab⟩ := hknown j hj
  obtain ⟨hname, p, hp⟩ := linksOf_alone hu hab hlink
  refine ⟨j, above, _, p, ?_, ?_, ?_, hp⟩
  · rw [Assembly.find?_congr h.faces, hname]
    exact hnames.find? hu
  · rw [Assembly.ancestors_congr h.faces, hab]
  · exact h.type?_becomes hj hu

end Gathers

end Loom

/-! ### What is told of a type -/

/-- What a run has to tell of a type. -/
structure Account where
  reports : List TypeReport
  /-- What failed for the whole type, or while its base calls were led on. -/
  errors : List WeaveError
  table? : Option DispatchTable
  type? : Option TypeDef

namespace Account

open Weaving

/-- What a run tells of the type of a name. -/
def told (r : Weaving × Outcome) (name : String) : Account where
  reports := r.2.reports.filter (·.typeName == name)
  errors := r.2.errors.filter (·.typeName? == some name)
  table? := r.1.table? name
  type? := (r.1.assembly.find? name).bind r.1.assembly.type?

/-- What there is to tell of a type that comes to `x` alone, below some woven types. -/
def due (t : TypeDef) (x : Except WeaveError TypeWeaving) (above : List TypeDef) : Account :=
  let led := LogicLink.effects above ((linksOf x).foldl keepLink []) (becomes t x)
  ⟨(reportOf x).toList, (errorOf x).toList ++ led.2.map .link, tableOf x, some led.1⟩

end Account

namespace Loom

open Weaving

variable {loom : Loom} {a b : Assembly} {order order' : List TypeId} {i k : TypeId} {t : TypeDef}
  {above l m : List TypeId} {w v : Weaving} {o : Outcome}

/-- What the types at some positions become, without their bodies. -/
def wovenAt (loom : Loom) (a : Assembly) (is : List TypeId) : List TypeDef :=
  is.filterMap fun j => (a.type? j).map fun u => (becomes u (loom.alone a j).2).bare

theorem Gathers.bareAt_above (h : loom.Gathers w.assembly w order v o)
    (horder : w.assembly.hierarchyOrder = .ok order) (hab : w.assembly.ancestors i = .ok above) :
    v.assembly.bareAt above = loom.wovenAt w.assembly above := by
  obtain ⟨_, -, hclimb, -⟩ := Assembly.of_ancestors hab
  rw [Assembly.bareAt, wovenAt]
  apply List.filterMap_congr
  intro j hj
  obtain ⟨_, u, _, -, hu, -⟩ := hclimb.of_mem hj
  rw [h.type?_becomes (Assembly.mem_hierarchyOrder horder hu) hu, hu]
  rfl

/-- Every failure of a run is told of some type. -/
theorem typeName?_of_mem_errors (loom : Loom) (hidle : w.links = [])
    (horder : w.assembly.hierarchyOrder = .ok order) (hnames : w.assembly.NamesDiffer)
    {e : WeaveError} (he : e ∈ (loom.weave w).2.errors) : e.typeName?.isSome = true := by
  obtain ⟨v, o, h, hresult⟩ := loom.weave_of_order horder
  rw [hresult] at he
  rcases List.mem_append.mp he with he | he
  · exact h.typeName?_of_mem_errors horder he
  · obtain ⟨cause, hcause, rfl⟩ := List.mem_map.mp he
    exact LogicLink.typeName?_of_mem_followAll (w := { v with links := [] })
      (fun link hl => h.sound hidle horder hnames hl) hcause

/-- A run tells of a type what is due. -/
theorem told_eq (loom : Loom) (hidle : w.links = [])
    (horder : w.assembly.hierarchyOrder = .ok order) (hnames : w.assembly.NamesDiffer)
    (ht : w.assembly.type? i = some t) (hab : w.assembly.ancestors i = .ok above) :
    Account.told (loom.weave w) t.name =
      .due t (loom.alone w.assembly i).2 (loom.wovenAt w.assembly above) := by
  obtain ⟨hnodup, -⟩ := Assembly.of_hierarchyOrder horder
  have hi := Assembly.mem_hierarchyOrder horder ht
  obtain ⟨v, o, h, hresult⟩ := loom.weave_of_order horder
  have htype := h.type?_becomes hi ht
  have hname : (becomes t (loom.alone w.assembly i).2).name = t.name :=
    (TypeDef.face_eq_iff.mp (face_becomes ht hab)).1
  have hfind : v.assembly.find? t.name = some i := by
    rw [Assembly.find?_congr h.faces]
    exact hnames.find? ht
  obtain ⟨hled, hfailed⟩ := LogicLink.followAll_own (w := { v with links := [] })
    (fun link hl => h.sound hidle horder hnames hl)
    (show v.assembly.find? (becomes t (loom.alone w.assembly i).2).name = some i by
      rw [hname, hfind])
    htype (show v.assembly.ancestors i = .ok above by
      rw [Assembly.ancestors_congr h.faces, hab])
  rw [hname, h.filter_links hidle horder hnames ht, h.bareAt_above horder hab] at hled hfailed
  have htables := (LogicLink.faces_followAll v.links { v with links := [] }).2
  have hfaces := (LogicLink.faces_followAll v.links { v with links := [] }).1
  rw [hresult, Account.told, Account.due, Account.mk.injEq]
  refine ⟨h.filter_reports horder hnames ht, ?_, ?_, ?_⟩
  · rw [List.filter_append, h.filter_errors horder hnames ht, ← hfailed, List.filter_map]
    rfl
  · show (Weaving.linkBases v).1.table? t.name = _
    rw [← h.table?_eq hnodup hnames hi ht]
    simp only [Weaving.table?]
    exact congrArg (fun tables => (tables.find? (·.1 == t.name)).map (·.2)) htables
  · show ((Weaving.linkBases v).1.assembly.find? t.name).bind _ = _
    rw [show (Weaving.linkBases v).1.assembly.find? t.name = some i from
      (Assembly.find?_congr hfaces t.name).trans hfind]
    exact hled

/-- A run keeps what types show to one another. -/
theorem faces_weave (loom : Loom) (w : Weaving) :
    (loom.weave w).1.assembly.faces = w.assembly.faces := by
  rcases loom.weave_cases w with ⟨e, -, hresult⟩ | ⟨order, v, o, -, h, hresult⟩
  · rw [hresult]
    rfl
  · rw [hresult]
    exact (LogicLink.faces_followAll v.links { v with links := [] }).1.trans h.faces

/-- A run leaves no links for later. -/
theorem alike_weave (loom : Loom) (w : Weaving) : w.assembly.Alike (loom.weave w).1.assembly :=
  Assembly.alike_of_faces (loom.faces_weave w).symm

theorem links_weave (loom : Loom) (hidle : w.links = []) : (loom.weave w).1.links = [] := by
  rcases loom.weave_cases w with ⟨e, -, hresult⟩ | ⟨_, v, o, -, -, hresult⟩
  · rw [hresult]
    exact hidle
  · rw [hresult]
    exact LogicLink.links_followAll v.links { v with links := [] }

/-- What becomes of a type in a run. -/
theorem type?_weave (loom : Loom) (hidle : w.links = [])
    (horder : w.assembly.hierarchyOrder = .ok order) (hnames : w.assembly.NamesDiffer)
    (ht : w.assembly.type? i = some t) (hab : w.assembly.ancestors i = .ok above) :
    (loom.weave w).1.assembly.type? i =
      some (LogicLink.effects (loom.wovenAt w.assembly above)
        ((linksOf (loom.alone w.assembly i).2).foldl keepLink [])
        (becomes t (loom.alone w.assembly i).2)).1 := by
  have hfind : (loom.weave w).1.assembly.find? t.name = some i := by
    rw [Assembly.find?_congr (loom.faces_weave w)]
    exact hnames.find? ht
  have htold := congrArg Account.type? (loom.told_eq hidle horder hnames ht hab)
  rw [Account.told, hfind] at htold
  exact htold

/-- Below twins the same types have been woven. -/
theorem wovenAt_eq (loom : Loom) (h : Assembly.Twins a b i k t l m) :
    loom.wovenAt a l = loom.wovenAt b m := by
  have hmap := h.map_eq
    (f := fun j => (a.type? j).map fun u => (becomes u (loom.alone a j).2).bare)
    (g := fun j => (b.type? j).map fun u => (becomes u (loom.alone b j).2).bare)
    fun hu => by rw [hu.left, hu.right, hu.alone_eq loom]
  have hfilter := congrArg (List.filterMap id) hmap
  rw [List.filterMap_map, List.filterMap_map] at hfilter
  exact hfilter

/-- Two assemblies that share a type and the types above it are told the same of the type: one
report, or that it needs too many ids and stays as it is.  Nothing else is told of it but base
calls that could not be led on, and every failure is told of some type. -/
theorem weave_account (loom : Loom) (hnames : a.NamesDiffer) (hnames' : b.NamesDiffer)
    (horder : a.hierarchyOrder = .ok order) (horder' : b.hierarchyOrder = .ok order')
    (ht : a.type? i = some t) (ht' : t ∈ b.types) (hab : a.ancestors i = .ok above)
    (hshared : ∀ j ∈ above, ∀ u, a.type? j = some u → u ∈ b.types) :
    Account.told (loom.weave (.start a)) t.name = .told (loom.weave (.start b)) t.name ∧
      ((∃ (report : TypeReport) (failures : List LinkError),
          (Account.told (loom.weave (.start a)) t.name).reports = [report] ∧
          (Account.told (loom.weave (.start a)) t.name).errors = failures.map .link) ∨
        ∃ required allowance, Account.told (loom.weave (.start a)) t.name =
          ⟨[], [.quotaExceeded t.name required allowance], none, some t⟩) ∧
      ∀ e ∈ (loom.weave (.start a)).2.errors, e.typeName?.isSome = true := by
  obtain ⟨t', htt', habove, -⟩ := Assembly.of_ancestors hab
  obtain rfl := Option.some.inj (ht.symm.trans htt')
  obtain ⟨k, hk⟩ := List.getElem?_of_mem ht'
  obtain ⟨m, hm, hsame⟩ := habove.shared hnames' hshared
  have htwins : Assembly.Twins a b i k t above m := ⟨ht, hk, habove, hm, hsame⟩
  have htold : Account.told (loom.weave (.start a)) t.name =
      .due t (loom.alone a i).2 (loom.wovenAt a above) :=
    loom.told_eq (w := .start a) rfl horder hnames ht hab
  have htold' : Account.told (loom.weave (.start b)) t.name =
      .due t (loom.alone b k).2 (loom.wovenAt b m) :=
    loom.told_eq (w := .start b) rfl horder' hnames' hk
      (Assembly.ancestors_eq_ok_iff.mpr ⟨t, hk, hm⟩)
  refine ⟨?_, ?_, fun e => loom.typeName?_of_mem_errors (w := .start a) rfl horder hnames⟩
  · rw [htold, htold', htwins.alone_eq, loom.wovenAt_eq htwins]
  · rw [htold]
    obtain ⟨counter, -, ⟨log, e, he, halone⟩ | ⟨log, v, -, halone⟩⟩ := alone_cases loom ht hab
    · obtain ⟨-, required, allowance, rfl⟩ := error_of_weaveTypeDef he
      rw [halone]
      exact .inr ⟨required, allowance, rfl⟩
    · rw [halone]
      exact .inl ⟨v.report, _, rfl, rfl⟩

end Loom

/-! ### A chain among other types -/

namespace Sample

/-- The chain in another order, with a type that derives from it and one that does not. -/
def company : Assembly :=
  ⟨[⟨"Captain", some "Leader", [fire, announce]⟩, ⟨"Leader", some "Unit", [announce]⟩,
    ⟨"Beacon", none, [announce]⟩, ⟨"Unit", none, [fire]⟩]⟩

end Sample

/-- The leader of the chain is told the same in the company. -/
theorem Loom.weave_account_company :
    Sample.chain.NamesDiffer ∧ Sample.company.NamesDiffer ∧
    Sample.chain.hierarchyOrder = .ok [0, 1] ∧
    Sample.company.hierarchyOrder = .ok [3, 1, 0, 2] ∧
    Sample.chain.type? 1 = some ⟨"Leader", some "Unit", [Sample.announce]⟩ ∧
    ⟨"Leader", some "Unit", [Sample.announce]⟩ ∈ Sample.company.types ∧
    Sample.chain.ancestors 1 = .ok [0] ∧
    (∀ j ∈ [0], ∀ u, Sample.chain.type? j = some u → u ∈ Sample.company.types) ∧
    Account.told (Sample.loom.weave (.start Sample.chain)) "Leader" =
      .told (Sample.loom.weave (.start Sample.company)) "Leader" := by
  have hmember : ⟨"Leader", some "Unit", [Sample.announce]⟩ ∈ Sample.company.types := by
    simp [Sample.company]
  have hshared : ∀ j ∈ [0], ∀ u, Sample.chain.type? j = some u → u ∈ Sample.company.types := by
    intro j hj u hu
    rw [List.mem_singleton.mp hj] at hu
    rw [← Option.some.inj hu]
    simp [Sample.company]
  have horder : Sample.chain.hierarchyOrder = .ok [0, 1] := by decide
  have horder' : Sample.company.hierarchyOrder = .ok [3, 1, 0, 2] := by decide
  have htype : Sample.chain.type? 1 = some ⟨"Leader", some "Unit", [Sample.announce]⟩ := rfl
  have hab : Sample.chain.ancestors 1 = .ok [0] := by decide
  exact ⟨by decide, by decide, horder, horder', htype, hmember, hab, hshared,
    (Loom.weave_account Sample.loom (by decide) (by decide) horder horder' htype hmember hab
      hshared).1⟩

end RpcLoom
