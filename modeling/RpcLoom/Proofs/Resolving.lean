/-
RpcLoom/Proofs/Resolving.lean

Finding the procedures of a woven type.

Design.  A search that starts at a type ends there if the type itself has what
is looked for.  Generated procedures are the first of their signatures, so the
references in generated code lead to them.  `Reported` collects what is known of
a type with a report: how its calls were woven, turn by turn, and what the type
is in the assembly once base calls were led on.
-/
import RpcLoom.Proofs.Allocation
import RpcLoom.Proofs.Settling
import RpcLoom.Run.Machine

namespace RpcLoom

/-! ### Searches that end where they start -/

/-- A type is in an assembly where its name leads, and so are all types above it. -/
def Assembly.Has (a : Assembly) (t : TypeDef) : Prop :=
  ∃ i above, a.find? t.name = some i ∧ a.type? i = some t ∧ a.ancestors i = .ok above

namespace Assembly

variable {a : Assembly} {t : TypeDef} {id : ProcedureId} {p : Procedure}

theorem Has.procedureFor (h : a.Has t) {s : Signature} (hid : t.findSignature? s = some id)
    (hp : t.procedure? id = some p) : a.procedureFor ⟨t.name, s.name, s.types⟩ = .ok p := by
  obtain ⟨i, above, hi, ht, hab⟩ := h
  rw [Assembly.procedureFor, resolve_own hi ht hab hid]
  simp only [bind, Except.bind, type, ht, TypeDef.procedure, hp]

/-- A call to a type's own procedure runs it, if it is not virtual or the object is of the
type. -/
theorem Has.calleeOf (h : a.Has t) {s : Signature} (hid : t.findSignature? s = some id)
    (hp : t.procedure? id = some p) {object : NetObject} {isVirtualCall : Bool}
    (hown : isVirtualCall = false ∨ object.typeName = t.name) :
    a.calleeOf object isVirtualCall ⟨t.name, s.name, s.types⟩ = .ok p := by
  have hfound := h.procedureFor hid hp
  rw [Assembly.calleeOf, hfound]
  show (if (isVirtualCall && p.isVirtual) = true then
    a.procedureFor ⟨object.typeName, s.name, s.types⟩ else .ok p) = _
  rcases hown with rfl | hown
  · rfl
  · rw [hown, hfound]
    exact ite_self _

theorem Has.methodNamed (h : a.Has t) {name : String} (hid : t.findName? name = some id)
    (hp : t.procedure? id = some p) :
    a.methodNamed t.name name = .ok ⟨t.name, name, p.types⟩ := by
  obtain ⟨i, above, hi, ht, hab⟩ := h
  have hchain := chain_of_ancestors hab
  have hfirst : a.firstWith (·.findName? name) (i :: above) = some (i, id) :=
    firstWith_cons_of_some ht hid above
  rw [Assembly.methodNamed]
  simp only [find, hi, hchain, bind, Except.bind, hfirst, Option.bind, ht, hp]

end Assembly

namespace TypeDef

variable {t u : TypeDef}

theorem Relinked.canonical (h : t.Relinked u) (hc : t.Canonical) : u.Canonical := hc.bare h.bare

theorem Relinked.findSynthesized?_eq (h : t.Relinked u) (key : SynthKey) :
    u.findSynthesized? key = t.findSynthesized? key := by
  rw [← findSynthesized?_bare, h.bare, findSynthesized?_bare]

theorem Relinked.name_eq (h : t.Relinked u) : u.name = t.name := name_of_bare_eq h.bare

end TypeDef

/-! ### A type with a report -/

/-- How a type with a report was woven, and what it is in the woven assembly. -/
structure Loom.Reported (loom : Loom) (a : Assembly) (r : TypeReport) (t F : TypeDef)
    (counter : IdCounter) (turns : List (Job × Fate)) (v : TypeWeaving) : Prop where
  mem : t ∈ a.types
  named : r.typeName = t.name
  has : (loom.weave (.start a)).1.assembly.Has F
  went : Turns loom (loom.beginType t counter) turns v
  jobs : turns.map (fun x => (x.1.id, x.1.contract)) = t.contracts loom.codec
  relinked : v.type.Relinked F
  report : v.report = r
  table : (loom.weave (.start a)).1.table? r.typeName = some v.table

namespace Loom

variable {loom : Loom} {a : Assembly} {r : TypeReport} {t F : TypeDef} {counter : IdCounter}
  {turns : List (Job × Fate)} {v : TypeWeaving}

theorem reported (hnames : a.NamesDiffer) (hfresh : ∀ t ∈ a.types, t.Fresh)
    (hr : r ∈ (loom.weave (.start a)).2.reports) :
    ∃ t F counter turns v, loom.Reported a r t F counter turns v := by
  cases horder : a.hierarchyOrder with
  | error e =>
    rw [weave_of_error loom (w := .start a) horder] at hr
    cases hr
  | ok order =>
    obtain ⟨w, o, failures, b, h⟩ := loom.finished_of_order horder hnames hfresh
    obtain ⟨hnodup, -⟩ := Assembly.of_hierarchyOrder horder
    have hreports : (loom.weave (.start a)).2.reports = o.reports := by rw [h.result]
    rw [hreports, h.gathers.reports] at hr
    obtain ⟨i, hi, hreport⟩ := List.mem_filterMap.mp hr
    obtain ⟨t, above, F, ht, hab, hF, hrelinked⟩ := h.type? hi
    have htable := h.gathers.table?_eq hnodup hnames hi ht
    obtain ⟨counter, -, ⟨log, e, -, halone⟩ | ⟨log, v, hv, halone⟩⟩ := alone_cases loom ht hab
    · rw [halone] at hreport
      cases hreport
    rw [halone] at hreport htable hrelinked
    obtain rfl : v.report = r := Option.some.inj hreport
    obtain ⟨-, -, turns, hturns, hjobs⟩ := turns_of_weaveTypeDef hv
    have hname : v.type.name = t.name := hturns.name_eq
    have hFname : F.name = t.name := hrelinked.name_eq.trans hname
    refine ⟨t, F, counter, turns, v, List.mem_of_getElem? ht, hname, ?_, hturns, hjobs, hrelinked,
      rfl, ?_⟩
    · rw [h.result]
      refine ⟨i, above, ?_, hF, ?_⟩
      · rw [hFname, ← Assembly.find?_congr h.faces_eq]
        exact hnames.find? ht
      · rw [← Assembly.ancestors_congr h.faces_eq, hab]
    · rw [h.result]
      show w.table? v.type.name = _
      rw [hname, htable]
      rfl

namespace Reported

theorem name_eq (h : loom.Reported a r t F counter turns v) : F.name = t.name :=
  h.relinked.name_eq.trans h.went.name_eq

/-- Every registration is of a call that was woven in its turn. -/
theorem registration (h : loom.Reported a r t F counter turns v) {reg : Registration}
    (hreg : reg ∈ r.registrations) : ∃ x ∈ turns, ∃ triad b,
      x.2 = .woven triad b ∧ reg = .ofTriad x.1.rpcId x.1.id x.1.contract triad := by
  rw [← h.report] at hreg
  have hmem : reg ∈ v.registrations := hreg
  rw [h.went.registrations_eq] at hmem
  rcases List.mem_append.mp hmem with hstart | hmem
  · cases hstart
  obtain ⟨x, hx, hreg⟩ := List.mem_filterMap.mp hmem
  cases hf : x.2 with
  | cleared e =>
    rw [hf] at hreg
    cases hreg
  | woven triad b =>
    rw [hf] at hreg
    exact ⟨x, hx, triad, b, hf, (Option.some.inj hreg).symm⟩

/-- Whoever was woven in its turn is registered. -/
theorem mem_registrations (h : loom.Reported a r t F counter turns v) {x : Job × Fate}
    (hx : x ∈ turns) {triad : Triad} {b : Body} (hf : x.2 = .woven triad b) :
    Registration.ofTriad x.1.rpcId x.1.id x.1.contract triad ∈ r.registrations := by
  rw [← h.report]
  show _ ∈ v.registrations
  rw [h.went.registrations_eq]
  refine List.mem_append_right _ (List.mem_filterMap.mpr ⟨x, hx, ?_⟩)
  rw [hf]
  rfl

/-- A woven call is installed in what its type came to. -/
theorem installed (h : loom.Reported a r t F counter turns v) (ht : t.Fresh) {x : Job × Fate}
    (hx : x ∈ turns) {triad : Triad} {b : Body} (hf : x.2 = .woven triad b) :
    ∃ u, x.1.Woven loom u triad b ∧ u.Grows v.type := by
  obtain ⟨u, hleft, hgrows, -⟩ := h.went.left_behind ht.canonical hx
  rw [hf] at hleft
  exact ⟨u, hleft, hgrows⟩

/-- The handlers of a woven call are for its kinds, each with the receiver of its key. -/
theorem mem_handlers (h : loom.Reported a r t F counter turns v) (ht : t.Fresh) {x : Job × Fate}
    (hx : x ∈ turns) {triad : Triad} {b : Body} (hf : x.2 = .woven triad b) {kind : Kind}
    {ref : MethodRef} {policy : Policy} :
    (∃ id, (⟨kind, id, ref, policy⟩ : Handler) ∈
      (Registration.ofTriad x.1.rpcId x.1.id x.1.contract triad).handlers) ↔
    kind ∈ x.1.contract.kinds.toList ∧ ref = (x.1.key (.reader kind)).ref t.name ∧
      policy = x.1.contract.policy kind := by
  obtain ⟨u, hwoven, hgrows⟩ := h.installed ht hx hf
  have hname : u.name = t.name := hgrows.name.symm.trans h.went.name_eq
  have hall := hwoven.installed.handlers
  rw [hname] at hall
  constructor
  · rintro ⟨id, hmem⟩
    have hmem' := List.mem_map_of_mem (f := fun h : Handler => (h.kind, h.readerRef, h.policy)) hmem
    rw [hall] at hmem'
    obtain ⟨k, hk, heq⟩ := List.mem_map.mp hmem'
    simp only [Prod.mk.injEq] at heq
    obtain ⟨rfl, rfl, rfl⟩ := heq
    exact ⟨hk, rfl, rfl⟩
  · rintro ⟨hkind, rfl, rfl⟩
    have hmem := List.mem_map_of_mem (f := fun kind =>
      (kind, (x.1.key (.reader kind)).ref t.name, x.1.contract.policy kind)) hkind
    rw [← hall] at hmem
    obtain ⟨⟨k, id, ref, policy⟩, hmem, heq⟩ := List.mem_map.mp hmem
    simp only [Prod.mk.injEq] at heq
    obtain ⟨rfl, rfl, rfl⟩ := heq
    exact ⟨id, hmem⟩

/-- What a type's table gives for a kind and an id: the receiver of the call that was woven
under the id, if it goes out as that kind. -/
theorem get?_iff (h : loom.Reported a r t F counter turns v) (hnames : a.NamesDiffer)
    (ht : t.Fresh) (hr : r ∈ (loom.weave (.start a)).2.reports) {kind : Kind} {id : RpcId}
    {entry : DispatchEntry} :
    v.table.get? kind id = some entry ↔
      ∃ x ∈ turns, ∃ triad b, x.2 = .woven triad b ∧ x.1.rpcId = id ∧
        kind ∈ x.1.contract.kinds.toList ∧
        entry = ⟨(x.1.key (.reader kind)).ref t.name, x.1.contract.runLocally,
          x.1.contract.policy kind⟩ := by
  obtain ⟨i, u, above, hplaced⟩ := placed_of_report (w := .start a) hnames hr
  obtain ⟨table, htable, hallocated⟩ := hplaced.allocated
  obtain rfl : v.table = table := Option.some.inj (h.table.symm.trans htable)
  rw [DispatchTable.get?_eq_some_iff hallocated.distinct, hallocated.entries.mem_iff,
    List.mem_flatMap]
  constructor
  · rintro ⟨reg, hreg, hmem⟩
    obtain ⟨x, hx, triad, b, hf, rfl⟩ := h.registration hreg
    obtain ⟨⟨k, reader, ref, policy⟩, hhandler, heq⟩ := List.mem_map.mp hmem
    simp only [Handler.entry, Prod.mk.injEq, CallKey.mk.injEq] at heq
    obtain ⟨⟨rfl, rfl⟩, rfl⟩ := heq
    obtain ⟨hkind, rfl, rfl⟩ := (h.mem_handlers ht hx hf).mp ⟨reader, hhandler⟩
    exact ⟨x, hx, triad, b, hf, rfl, hkind, rfl⟩
  · rintro ⟨x, hx, triad, b, hf, rfl, hkind, rfl⟩
    obtain ⟨reader, hhandler⟩ := (h.mem_handlers ht hx hf).mpr ⟨hkind, rfl, rfl⟩
    exact ⟨_, h.mem_registrations hx hf, List.mem_map.mpr ⟨_, hhandler, rfl⟩⟩

theorem canonical (h : loom.Reported a r t F counter turns v) (ht : t.Fresh) :
    v.type.Canonical :=
  h.went.canonical ht.canonical

/-- A procedure found for a key is called by the key's reference. -/
theorem calleeOf (h : loom.Reported a r t F counter turns v) (ht : t.Fresh) {key : SynthKey}
    {id : ProcedureId} {p : Procedure} (hid : v.type.findSynthesized? key = some id)
    (hp : F.procedure? id = some p) {object : NetObject} {isVirtualCall : Bool}
    (hown : isVirtualCall = false ∨ object.typeName = t.name) :
    (loom.weave (.start a)).1.assembly.calleeOf object isVirtualCall (key.ref t.name) =
      .ok p := by
  rw [← h.relinked.findSynthesized?_eq] at hid
  have hsig := (h.relinked.canonical (h.canonical ht)).find hid
  rw [← h.name_eq] at hown ⊢
  exact h.has.calleeOf hsig hp hown

/-- A receiver that is found was made for a call of the same signature. -/
theorem receiver (h : loom.Reported a r t F counter turns v) (ht : t.Fresh) {j : Job}
    {kind : Kind} {id : ProcedureId}
    (hid : v.type.findSynthesized? (j.key (.reader kind)) = some id) :
    ∃ x ∈ turns, ∃ body, x.1.served.signature = j.served.signature ∧
      kind ∈ x.1.contract.kinds.toList ∧
      loom.receiverBody x.1.served x.1.contract kind ((x.1.key .logic).ref t.name) = .ok body ∧
      F.procedure? id = some (x.1.served.readerOf kind body) := by
  obtain ⟨p, hp, ho⟩ := TypeDef.procedure?_of_findSynthesized? hid
  have hd := Procedure.isDeclared_of_synthesized ho
  obtain ⟨x, hx, hmade⟩ := h.went.madeFor_of_fresh ht hp hd
  have hF : F.procedure? id = some p := by
    refine h.relinked.kept id p hp (.inl fun s hs => ?_)
    rw [ho, Origin.synthesized.injEq] at hs
    cases congrArg SynthKey.role hs
  obtain ⟨hsignature, hkind, body, hbody, rfl⟩ := hmade.of_reader ho
  exact ⟨x, hx, body, hsignature, hkind, hbody, hF⟩

end Reported

end Loom

end RpcLoom
