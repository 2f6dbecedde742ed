/-
RpcLoom/Proofs/Faultless.lean

What an assembly is after a run in which nothing failed.

Design.  `Faultless` collects what is known of such a run: every type came to
what it comes to alone, all calls were woven, and every link was followed.  What
the code of a call has become is then said in terms of the assembly as it was
(`Faultless.keeps`): it is in the logic of the call, with the references changed
that `leading` changes, and these lead to the nearest type above that offers
logic.  In the woven assembly they find that logic (`Faultless.resolve_logic`).
-/
import RpcLoom.Proofs.Leading
import RpcLoom.Proofs.Relocating
import Mathlib.Data.List.Find

namespace RpcLoom

/-! ### The order of weaving -/

namespace Assembly

variable {a : Assembly}

theorem mem_of_foldlM {is seen order : List TypeId}
    (h : is.foldlM (fun seen i => do
      let chain ← a.chain i
      Except.ok (addNew seen chain.reverse)) seen = .ok order) :
    ∀ i, i ∈ seen ∨ i ∈ is → i ∈ order := by
  induction is generalizing seen with
  | nil =>
    obtain rfl : order = seen := by simpa [pure, Except.pure, eq_comm] using h
    intro i hi
    simpa using hi
  | cons k is ih =>
    intro i hi
    rw [List.foldlM_cons] at h
    cases hc : a.chain k with
    | error e => simp [hc, bind, Except.bind] at h
    | ok chain =>
      obtain ⟨above, -, rfl⟩ := of_chain hc
      simp only [hc, bind, Except.bind] at h
      refine ih h i ?_
      rw [addNew, List.mem_append, List.mem_filter, List.mem_reverse, List.mem_cons]
      by_cases hseen : i ∈ seen
      · exact .inl (.inl hseen)
      · rcases hi with hi | hi
        · exact absurd hi hseen
        · rcases List.mem_cons.mp hi with rfl | hi
          · exact .inl (.inr ⟨.inl rfl, by simpa using hseen⟩)
          · exact .inr hi

/-- The order names every type. -/
theorem mem_hierarchyOrder {order : List TypeId} (h : a.hierarchyOrder = .ok order) {i : TypeId}
    {t : TypeDef} (ht : a.type? i = some t) : i ∈ order := by
  refine mem_of_foldlM h i (.inr ?_)
  exact List.mem_range.mpr (List.getElem?_eq_some_iff.mp ht).1

/-- If there is an order, every type has its ancestors. -/
theorem ancestors_of_hierarchyOrder {order : List TypeId} (h : a.hierarchyOrder = .ok order)
    {i : TypeId} {t : TypeDef} (ht : a.type? i = some t) : ∃ above, a.ancestors i = .ok above := by
  obtain ⟨-, hknown⟩ := of_hierarchyOrder h
  obtain ⟨_, above, -, hab⟩ := hknown i (mem_hierarchyOrder h ht)
  exact ⟨above, hab⟩

/-! ### The logic that base calls are led to -/

/-- The nearest of some types that offers logic for a signature. -/
def logicOwner? (a : Assembly) (above : List TypeId) (s : Signature) : Option TypeId :=
  above.find? fun j => (a.type? j).any (·.offersLogic s)

/-- The reference to the logic for a signature on the nearest of some types that offers it. -/
def logicAbove? (a : Assembly) (above : List TypeId) (s : Signature) : Option MethodRef :=
  (a.logicOwner? above s).bind fun j =>
    (a.type? j).map fun t => SynthKey.ref ⟨.logic, s⟩ t.name

/-- What becomes of the references in the code of a call of a type: if the call is virtual, those
to its own signature on a type above are led to the logic above. -/
def leading (a : Assembly) (above : List TypeId) (p : Procedure) (ref : MethodRef) : MethodRef :=
  if p.isVirtual = true ∧ ref.signature = p.signature ∧ ref.owner ∈ a.namesOf above then
    (a.logicAbove? above p.signature).getD ref
  else ref

/-- The code of a procedure of the type at a position is in its logic, at position `l` of the type
in the woven assembly `b`, with its base calls led on. -/
def Keeps (a b : Assembly) (i : TypeId) (p : Procedure) (l : ProcedureId) : Prop :=
  ∃ F above body, b.type? i = some F ∧ a.ancestors i = .ok above ∧ p.body = some body ∧
    F.findSynthesized? ⟨.logic, p.signature⟩ = some l ∧
    F.procedure? l = some (p.logicOf (body.mapMethods (a.leading above p)))

/-- What base calls for a signature that are led to a type end at, position `l` of the type in the
woven assembly `b`: the logic that holds the code of the type's first annotated procedure of the
signature, or else the procedure that the type declares under the name of that logic. -/
def LogicAt (a b : Assembly) (i : TypeId) (t : TypeDef) (s : Signature) (l : ProcedureId) : Prop :=
  (∃ n q, t.firstCall? s = some n ∧ t.procedure? n = some q ∧ a.Keeps b i q l) ∨
    (t.firstCall? s = none ∧ t.findSignature? (SynthKey.generated ⟨.logic, s⟩) = some l)

theorem LogicAt.keeps {b : Assembly} {i : TypeId} {t : TypeDef} {s : Signature} {l n : ProcedureId}
    {q : Procedure} (h : a.LogicAt b i t s l) (hn : t.firstCall? s = some n)
    (hq : t.procedure? n = some q) : a.Keeps b i q l := by
  rcases h with ⟨n', q', hn', hq', hkeeps⟩ | ⟨hnone, -⟩
  · obtain rfl := Option.some.inj (hn.symm.trans hn')
    obtain rfl := Option.some.inj (hq.symm.trans hq')
    exact hkeeps
  · cases hn.symm.trans hnone

theorem leading_of_not_virtual {above : List TypeId} {p : Procedure} (h : p.isVirtual ≠ true)
    (ref : MethodRef) : a.leading above p ref = ref :=
  if_neg fun hall => h hall.1

/-- The first type where something is found is the first one that has it. -/
theorem map_fst_firstWith (find? : TypeDef → Option ProcedureId) (is : List TypeId) :
    (a.firstWith find? is).map (·.1) =
      is.find? fun j => (a.type? j).any fun t => (find? t).isSome := by
  induction is with
  | nil => rfl
  | cons i is ih =>
    rw [firstWith, List.findSome?_cons, List.find?_cons]
    cases ht : a.type? i with
    | none => exact ih
    | some t =>
      cases hid : find? t with
      | none =>
        simp only [Option.bind_eq_bind, Option.bind_some, hid, Option.bind_none, Option.any_some,
          Option.isSome_none]
        exact ih
      | some id => simp [hid, Option.any]

theorem firstWith_eq_some {find? : TypeDef → Option ProcedureId} {is : List TypeId} {i : TypeId}
    {id : ProcedureId} (h : a.firstWith find? is = some (i, id)) :
    ∃ t, a.type? i = some t ∧ find? t = some id := by
  obtain ⟨k, -, hk⟩ := List.exists_of_findSome?_eq_some h
  obtain ⟨t, ht, hk⟩ := Option.bind_eq_some_iff.mp hk
  obtain ⟨id', hid, heq⟩ := Option.bind_eq_some_iff.mp hk
  obtain ⟨rfl, rfl⟩ := Prod.mk.inj (Option.some.inj heq)
  exact ⟨t, ht, hid⟩

/-- What a reference leads to is the first procedure of its signature in its type. -/
theorem of_resolve {ref : MethodRef} {i : TypeId} {n : ProcedureId}
    (h : a.resolve ref = .ok (i, n)) :
    ∃ u q, a.type? i = some u ∧ u.findSignature? ref.signature = some n ∧
      u.procedure? n = some q ∧ q.signature = ref.signature := by
  unfold resolve at h
  cases ho : a.find ref.owner with
  | error e => simp [ho, bind, Except.bind] at h
  | ok owner =>
    cases hc : a.chain owner with
    | error e => simp [ho, hc, bind, Except.bind] at h
    | ok chain =>
      simp only [ho, hc, bind, Except.bind] at h
      cases hf : a.firstWith (·.findSignature? ref.signature) chain with
      | none => simp [hf] at h
      | some found =>
        simp only [hf, Except.ok.injEq] at h
        subst h
        obtain ⟨u, hu, hn⟩ := firstWith_eq_some hf
        obtain ⟨q, hq, hsig⟩ := TypeDef.procedure?_of_findSignature? hn
        exact ⟨u, q, hu, hn, hq, hsig⟩

end Assembly

/-! ### Runs in which nothing failed -/

namespace Loom

open Weaving

/-- Nothing failed while an assembly was woven; `w` is the state before base calls were led on. -/
structure Faultless (loom : Loom) (a : Assembly) (w : Weaving) : Prop where
  names : a.NamesDiffer
  fresh : ∀ t ∈ a.types, t.Fresh
  faces : a.faces = w.assembly.faces
  types : ∀ i t, a.type? i = some t → ∃ above counter turns v, a.ancestors i = .ok above ∧
    Flawless loom t counter turns v ∧ w.assembly.type? i = some v.type ∧
    v.links ⊆ w.links ∧ v.report ∈ (loom.weave (.start a)).2.reports ∧
    ∃ F, loom.Reported a v.report t F counter turns v
  virtual : ∀ link ∈ w.links, ∃ i p, w.assembly.find? link.typeName = some i ∧
    LogicLink.procedureAt w.assembly i link.logic = some p ∧ p.isVirtual = true
  ready : LogicLink.AllReady w.links w.assembly
  followed : (({ w with links := [] } : Weaving).followAll w.links).1.assembly =
    (loom.weave (.start a)).1.assembly
  unfailing : (({ w with links := [] } : Weaving).followAll w.links).2 = []

variable {loom : Loom} {a : Assembly} {w : Weaving}

section Gathered

variable {order : List TypeId} {o : Outcome} {i : TypeId} {t : TypeDef}

/-- If no type failed and no report lists an error, then every type was woven without any. -/
theorem Gathers.flawless (h : loom.Gathers a (.start a) order w o)
    (horder : a.hierarchyOrder = .ok order) (herrors : o.errors = [])
    (hreports : ∀ r ∈ o.reports, r.errors = []) (ht : a.type? i = some t) :
    ∃ above counter turns v log, a.ancestors i = .ok above ∧
      Flawless loom t counter turns v ∧ loom.alone a i = (log, .ok v) := by
  have hi := Assembly.mem_hierarchyOrder horder ht
  obtain ⟨-, hknown⟩ := Assembly.of_hierarchyOrder horder
  obtain ⟨t', above, ht', hab⟩ := hknown i hi
  obtain rfl := Option.some.inj (ht.symm.trans ht')
  obtain ⟨counter, -, ⟨log, e, -, halone⟩ | ⟨log, v, hv, halone⟩⟩ := alone_cases loom ht hab
  · rw [h.errors, List.filterMap_eq_nil_iff] at herrors
    have hnone := herrors i hi
    rw [halone] at hnone
    cases hnone
  · have hmem : v.report ∈ o.reports := by
      rw [h.reports]
      exact List.mem_filterMap.mpr ⟨i, hi, by rw [halone]; rfl⟩
    obtain ⟨turns, hturns⟩ := Flawless.of_errors hv (hreports _ hmem)
    exact ⟨above, counter, turns, v, log, hab, hturns, halone⟩

/-- If every type was woven without errors, every link stands for virtual logic. -/
theorem Gathers.virtual (h : loom.Gathers a (.start a) order w o)
    (horder : a.hierarchyOrder = .ok order) (hnames : a.NamesDiffer)
    (hfresh : ∀ t ∈ a.types, t.Fresh) (herrors : o.errors = [])
    (hreports : ∀ r ∈ o.reports, r.errors = []) {link : LogicLink} (hlink : link ∈ w.links) :
    ∃ i p, w.assembly.find? link.typeName = some i ∧
      LogicLink.procedureAt w.assembly i link.logic = some p ∧ p.isVirtual = true := by
  obtain ⟨-, hknown⟩ := Assembly.of_hierarchyOrder horder
  rw [h.links, mem_foldl_keepLink] at hlink
  rcases hlink with hstart | hlink
  · cases hstart
  obtain ⟨i, hi, hlink⟩ := List.mem_flatMap.mp hlink
  obtain ⟨t, -, ht, -⟩ := hknown i hi
  obtain ⟨above, counter, turns, v, log, hab, hturns, hv⟩ :=
    h.flawless horder herrors hreports ht
  rw [hv] at hlink
  obtain ⟨p, hp, hvirtual⟩ := hturns.links_virtual hlink
  have hname : link.typeName = t.name := by
    rcases hturns.went.links_found (hfresh t (List.mem_of_getElem? ht)).canonical hlink with
      hstart | ⟨hname, -⟩
    · cases hstart
    · exact hname
  refine ⟨i, p, ?_, ?_, hvirtual⟩
  · rw [hname, Assembly.find?_congr h.faces]
    exact hnames.find? ht
  · rw [LogicLink.procedureAt, h.type?_eq hi ht hv, Option.bind_some, hp]

/-- If every type was woven without errors, each one is reported, its links are kept, and but for
its base calls it is in the woven assembly what it came to alone. -/
theorem Gathers.reported (h : loom.Gathers a (.start a) order w o)
    (horder : a.hierarchyOrder = .ok order) (hnames : a.NamesDiffer) (herrors : o.errors = [])
    (hreports : ∀ r ∈ o.reports, r.errors = [])
    (hresult : loom.weave (.start a) =
      (w.linkBases.1, { o with errors := o.errors ++ w.linkBases.2.map .link }))
    (hrelinked : w.assembly.Relinked (loom.weave (.start a)).1.assembly)
    (ht : a.type? i = some t) :
    ∃ above counter turns v, a.ancestors i = .ok above ∧
      Flawless loom t counter turns v ∧ w.assembly.type? i = some v.type ∧
      v.links ⊆ w.links ∧ v.report ∈ (loom.weave (.start a)).2.reports ∧
      ∃ F, loom.Reported a v.report t F counter turns v := by
  obtain ⟨hnodup, -⟩ := Assembly.of_hierarchyOrder horder
  obtain ⟨above, counter, turns, v, log, hab, hturns, hv⟩ :=
    h.flawless horder herrors hreports ht
  have hi := Assembly.mem_hierarchyOrder horder ht
  have htype := h.type?_eq hi ht hv
  have hname : v.type.name = t.name := hturns.went.name_eq
  have hmem : v.report ∈ (loom.weave (.start a)).2.reports := by
    rw [hresult]
    show v.report ∈ o.reports
    rw [h.reports]
    exact List.mem_filterMap.mpr ⟨i, hi, by rw [hv]; rfl⟩
  obtain ⟨F, hF, hrelink⟩ := hrelinked.types i _ htype
  have hfaces : (loom.weave (.start a)).1.assembly.faces = a.faces :=
    (Assembly.faces_of_bare_eq hrelinked.bare).trans h.faces
  refine ⟨above, counter, turns, v, hab, hturns, htype, fun link hlink => ?_, hmem, F,
    List.mem_of_getElem? ht, hname, ⟨i, above, ?_, hF, ?_⟩, hturns.went, hturns.jobs, hrelink,
    rfl, ?_⟩
  · rw [h.links, mem_foldl_keepLink]
    exact .inr (List.mem_flatMap.mpr ⟨i, hi, by rw [hv]; exact hlink⟩)
  · rw [hrelink.name_eq, hname, Assembly.find?_congr hfaces]
    exact hnames.find? ht
  · rw [Assembly.ancestors_congr hfaces, hab]
  · -- following links leaves the tables alone
    rw [hresult]
    show w.linkBases.1.table? v.type.name = _
    rw [Weaving.table?, show w.linkBases.1.tables = w.tables from
      (LogicLink.faces_followAll w.links { w with links := [] }).2, ← Weaving.table?, hname,
      h.table?_eq hnodup hnames hi ht, hv]
    rfl

end Gathered

theorem faultless_of_errors (hnames : a.NamesDiffer) (hfresh : ∀ t ∈ a.types, t.Fresh)
    (hok : (loom.weave (.start a)).2.allErrors = []) : ∃ w, loom.Faultless a w := by
  rcases loom.weave_cases (.start a) with ⟨e, -, h⟩ | ⟨order, w, o, horder, hgathers, h⟩
  · rw [h] at hok
    cases hok
  have horder : a.hierarchyOrder = .ok order := horder
  have hgathers : loom.Gathers a (.start a) order w o := hgathers
  obtain ⟨-, hknown⟩ := Assembly.of_hierarchyOrder horder
  rw [h, Outcome.allErrors, List.append_eq_nil_iff, List.append_eq_nil_iff,
    List.map_eq_nil_iff] at hok
  obtain ⟨⟨herrors, hlinks⟩, hreports⟩ := hok
  have hready := hgathers.allReady hknown hnames hfresh
  have hreports := List.flatMap_eq_nil_iff.mp hreports
  have hrelinked : w.assembly.Relinked (loom.weave (.start a)).1.assembly := by
    obtain ⟨failures, b, hfollow, hrelinked, -, -⟩ :=
      LogicLink.followAll_settles (w := { w with links := [] }) hready
    rw [h, show w.linkBases = _ from hfollow]
    exact hrelinked
  exact ⟨w, hnames, hfresh, hgathers.faces.symm,
    fun i t ht => hgathers.reported horder hnames herrors hreports h hrelinked ht,
    fun link hlink => hgathers.virtual horder hnames hfresh herrors hreports hlink, hready,
    by rw [h]; rfl, hlinks⟩

namespace Faultless

variable {i : TypeId} {t : TypeDef} {above : List TypeId} {p : Procedure} {m : ProcedureId}

/-- The types above a type are types of the assembly. -/
theorem type_of_mem (hab : a.ancestors i = .ok above) {j : TypeId} (hj : j ∈ above) :
    ∃ u, a.type? j = some u := by
  obtain ⟨t, -, habove, -⟩ := Assembly.of_ancestors hab
  obtain ⟨-, u, -, -, hu, -⟩ := habove.of_mem hj
  exact ⟨u, hu⟩

theorem names_eq (h : loom.Faultless a w) (j : TypeId) :
    (w.assembly.type? j).map (·.name) = (a.type? j).map (·.name) := by
  have := congrArg (·[j]?) (Assembly.names_congr h.faces)
  simpa [Assembly.type?] using this.symm

theorem namesOf_eq (h : loom.Faultless a w) (is : List TypeId) :
    w.assembly.namesOf is = a.namesOf is := by
  simp only [Assembly.namesOf, h.names_eq]

/-- A link asks for the logic on the nearest type above that offers it. -/
theorem findInBase?_eq (h : loom.Faultless a w) (hab : a.ancestors i = .ok above)
    (s : Signature) :
    w.assembly.findInBase? i (SynthKey.generated ⟨.logic, s⟩) = .ok (a.logicAbove? above s) := by
  have howner : (w.assembly.firstWith
      (·.findSignature? (SynthKey.generated ⟨.logic, s⟩)) above).map (·.1) =
        a.logicOwner? above s := by
    rw [Assembly.map_fst_firstWith, Assembly.logicOwner?]
    apply List.find?_congr
    intro j hj
    obtain ⟨u, hu⟩ := type_of_mem hab hj
    obtain ⟨_, _, _, v, -, hflawless, hv, -⟩ := h.types j u hu
    rw [hv, hu]
    exact hflawless.offers (h.fresh u (List.mem_of_getElem? hu)) s
  have habw : w.assembly.ancestors i = .ok above := by
    rw [← Assembly.ancestors_congr h.faces, hab]
  rw [Assembly.findInBase?, habw]
  show Except.ok _ = _
  rw [Assembly.logicAbove?, ← howner, Option.bind_map]
  congr 2
  funext found
  obtain ⟨j, id⟩ := found
  have hname := congrArg (Option.map fun name : String => SynthKey.ref ⟨.logic, s⟩ name)
    (h.names_eq j)
  rw [Option.map_map, Option.map_map] at hname
  exact hname

theorem leading_eq (h : loom.Faultless a w) (hab : a.ancestors i = .ok above)
    (hvirtual : p.isVirtual = true) (l : ProcedureId) :
    LogicLink.leading ⟨t.name, l, p.signature⟩ w.assembly i above = a.leading above p := by
  funext ref
  have hwanted : LogicLink.wanted ⟨t.name, l, p.signature⟩ =
      SynthKey.generated ⟨.logic, p.signature⟩ := rfl
  rw [LogicLink.leading, hwanted, h.findInBase?_eq hab, h.namesOf_eq, LogicLink.lead,
    Assembly.leading]
  simp [LogicLink.isBaseRef, hvirtual, Except.toOption]

/-- Links to logic of the same place stand for virtual logic. -/
theorem unlinked (h : loom.Faultless a w) {l : ProcedureId} {q : Procedure}
    (hq : LogicLink.procedureAt w.assembly i l = some q) (hvirtual : q.isVirtual ≠ true) :
    ∀ link ∈ w.links, ¬ (w.assembly.find? link.typeName = some i ∧ link.logic = l) := by
  rintro link hlink ⟨hfind, rfl⟩
  obtain ⟨k, r, hk, hr, hrv⟩ := h.virtual link hlink
  obtain rfl := Option.some.inj (hfind.symm.trans hk)
  obtain rfl := Option.some.inj (hq.symm.trans hr)
  exact hvirtual hrv

/-- The first annotated procedure of a signature has its code in the logic of the signature. -/
theorem keeps (h : loom.Faultless a w) (ht : a.type? i = some t)
    (hfirst : t.firstCall? p.signature = some m) (hp : t.procedure? m = some p) :
    ∃ l, a.Keeps (loom.weave (.start a)).1.assembly i p l := by
  obtain ⟨above, counter, turns, v, hab, hflawless, hv, hlinks, -, -⟩ := h.types i t ht
  obtain ⟨l, body, hbody, hfound, hlogic, hlink⟩ :=
    hflawless.logic (h.fresh t (List.mem_of_getElem? ht)) hfirst hp
  have hat : LogicLink.procedureAt w.assembly i l = some (p.logicOf body) := by
    rw [LogicLink.procedureAt, hv, Option.bind_some, hlogic]
  obtain ⟨failures, b, hfollow, hrelinked, -, hcode⟩ :=
    LogicLink.followAll_settles (w := { w with links := [] }) h.ready
  have hb : (loom.weave (.start a)).1.assembly = b := by rw [← h.followed, hfollow]
  obtain ⟨F, hF, hrelink⟩ := hrelinked.types i _ hv
  refine ⟨l, F, above, body, hb ▸ hF, hab, hbody, ?_, ?_⟩
  · rw [hrelink.findSynthesized?_eq, hfound]
  suffices hsame : LogicLink.procedureAt b i l =
      some (p.logicOf (body.mapMethods (a.leading above p))) by
    rw [LogicLink.procedureAt, hF, Option.bind_some] at hsame
    exact hsame
  by_cases hvirtual : p.isVirtual = true
  · -- the link of the logic was followed
    have hready : LogicLink.Ready ⟨t.name, l, p.signature⟩ w.assembly i above v.type
        (p.logicOf body) := by
      refine ⟨?_, hv, ?_, hlogic, rfl, rfl⟩
      · rw [← Assembly.find?_congr h.faces]
        exact h.names.find? ht
      · rw [← Assembly.ancestors_congr h.faces, hab]
    have hled := LogicLink.followAll_code (w := { w with links := [] }) h.ready h.unfailing
      (hlinks (hlink hvirtual)) hready
    rw [h.followed, hb] at hled
    rw [hled, show ({ w with links := [] } : Weaving).assembly = w.assembly from rfl,
      h.leading_eq hab hvirtual l]
    rfl
  · -- nothing leads the calls of this logic on
    rw [hcode i l (h.unlinked hat hvirtual), show ({ w with links := [] } : Weaving).assembly =
      w.assembly from rfl, hat, Body.mapMethods_of_fixed]
    intro x _ ref _
    exact Assembly.leading_of_not_virtual hvirtual ref

/-- Weaving keeps what the types see of each other. -/
theorem faces_eq (h : loom.Faultless a w) :
    a.faces = (loom.weave (.start a)).1.assembly.faces := by
  obtain ⟨failures, b, hfollow, hrelinked, -, -⟩ :=
    LogicLink.followAll_settles (w := { w with links := [] }) h.ready
  rw [← h.followed, hfollow]
  exact h.faces.trans (Assembly.faces_of_bare_eq hrelinked.bare).symm

/-- What a type has become stands where the type stood. -/
theorem type?_eq (h : loom.Faultless a w) (ht : a.type? i = some t) {r : TypeReport}
    {F : TypeDef} {counter : IdCounter} {turns : List (Job × Fate)} {v : TypeWeaving}
    (hreported : loom.Reported a r t F counter turns v) :
    (loom.weave (.start a)).1.assembly.type? i = some F := by
  obtain ⟨k, above, hfind, hF, -⟩ := hreported.has
  rw [hreported.name_eq, ← Assembly.find?_congr h.faces_eq, h.names.find? ht] at hfind
  rw [Option.some.inj hfind]
  exact hF

/-- The reference to the logic above leads to the nearest type that offers it, and there to the
logic of its first call of the signature, or to what is declared in its place. -/
theorem resolve_logic (h : loom.Faultless a w) (hab : a.ancestors i = .ok above)
    {s : Signature} {k : TypeId} (howner : a.logicOwner? above s = some k) :
    ∃ u l, a.type? k = some u ∧
      (loom.weave (.start a)).1.assembly.resolve (SynthKey.ref ⟨.logic, s⟩ u.name) =
        .ok (k, l) ∧
      a.LogicAt (loom.weave (.start a)).1.assembly k u s l := by
  obtain ⟨u, hu⟩ := type_of_mem hab (List.mem_of_find?_eq_some howner)
  have hoffers := List.find?_some howner
  rw [hu, Option.any_some] at hoffers
  obtain ⟨above', counter, turns, v, hab', hflawless, hv, -, -, F, hreported⟩ := h.types k u hu
  have hfresh := h.fresh u (List.mem_of_getElem? hu)
  have hfound := hoffers
  rw [← hflawless.offers hfresh s] at hfound
  obtain ⟨l, hl⟩ := Option.isSome_iff_exists.mp hfound
  have hlF : F.findSignature? (SynthKey.generated ⟨.logic, s⟩) = some l := by
    rw [← TypeDef.findSignature?_bare, hreported.relinked.bare, TypeDef.findSignature?_bare, hl]
  have hF := h.type?_eq hu hreported
  have hfind : (loom.weave (.start a)).1.assembly.find? u.name = some k := by
    rw [← Assembly.find?_congr h.faces_eq]
    exact h.names.find? hu
  have habF : (loom.weave (.start a)).1.assembly.ancestors k = .ok above' := by
    rw [← Assembly.ancestors_congr h.faces_eq, hab']
  refine ⟨u, l, hu, (Assembly.resolve_eq_ok_iff hfind (Assembly.chain_of_ancestors habF)).mpr
    (Assembly.firstWith_cons_of_some hF hlF above'), ?_⟩
  cases hn : u.firstCall? s with
  | some n =>
    obtain ⟨q, hq, hsig⟩ := TypeDef.procedure?_of_firstCall? hn
    obtain ⟨l', hkeeps⟩ := h.keeps hu (hsig.symm ▸ hn) hq
    obtain ⟨F', above₁, body, hF', hab₁, hbody, hheld, hcode⟩ := hkeeps
    obtain rfl := Option.some.inj (hF.symm.trans hF')
    -- generated procedures are the first of their signatures, so both searches end at one place
    have hcanonical : F.Canonical := hreported.relinked.canonical (hreported.canonical hfresh)
    have hl' := hcanonical.find hheld
    rw [hsig, hlF] at hl'
    obtain rfl := Option.some.inj hl'
    exact .inl ⟨n, q, hn, hq, F, above₁, body, hF', hab₁, hbody, hheld, hcode⟩
  | none =>
    -- without a call of the signature, what has the name of its logic was declared
    obtain ⟨m, hm⟩ := TypeDef.findSignature?_of_offersLogic hoffers hn
    have hmF := TypeDef.findSignature?_of_prefix (hreported.signatures_prefix hfresh) hm
    obtain rfl : l = m := Option.some.inj (hlF.symm.trans hmF)
    exact .inr ⟨hn, hm⟩

end Faultless

end Loom

end RpcLoom
