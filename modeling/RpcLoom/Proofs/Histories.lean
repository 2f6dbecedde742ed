/-
RpcLoom/Proofs/Histories.lean

Tables and senders agree after any sequence of changes.

Design.  Between two runs procedures and types may be added, and a run may weave
one type or all of them (`Loom.Step`).  Every step keeps a state steady, so every
state that steps lead to is (`Step.steady`, `steady_of_steps`).  In a steady state
an entry of a table belongs to one annotated procedure of its type: the receiver
that the entry names was generated for one signature, and one annotated procedure
has it.  Two annotated procedures of one signature would share their sender, which
can send but one of their two ids.
-/
import Mathlib.Logic.Relation
import RpcLoom.Proofs.Steadiness

namespace RpcLoom

open Relation (ReflTransGen)

/-! ### Steps -/

/-- One change to an assembly and to what is known of it. -/
inductive Loom.Step (loom : Loom) : Weaving → Weaving → Prop
  /-- A declared procedure is added to a type. -/
  | declare {w : Weaving} {i : TypeId} {t t' : TypeDef} {p : Procedure} {id : ProcedureId}
      (ht : w.assembly.type? i = some t) (hp : p.isDeclared = true)
      (h : t.add p = .ok (t', id)) : Step loom w { w with assembly := w.assembly.set i t' }
  /-- A type of declared procedures is added. -/
  | addType {w : Weaving} {t : TypeDef} {a : Assembly} {i : TypeId} (hfresh : t.Fresh)
      (hdiffer : t.CallsDiffer) (h : w.assembly.add t = .ok (a, i)) :
      Step loom w { w with assembly := a }
  /-- One type is woven. -/
  | weaveType (w : Weaving) (i : TypeId) : Step loom w (loom.weaveType w i).1
  /-- All types are woven. -/
  | weave (w : Weaving) : Step loom w (loom.weave w).1

namespace Loom

variable {loom : Loom} {a : Assembly} {w w' : Weaving}

theorem Step.steady (hstep : loom.Step w w') (h : w.Steady) : w'.Steady := by
  cases hstep with
  | declare ht hp hadd => exact h.declare ht hp hadd
  | addType hfresh hdiffer hadd => exact h.addType hfresh hdiffer hadd
  | weaveType i => exact loom.steady_weaveType h i
  | weave => exact loom.steady_weave h

theorem steady_of_steps (hsteps : ReflTransGen loom.Step w w') (h : w.Steady) : w'.Steady := by
  induction hsteps with
  | refl => exact h
  | tail _ hstep ih => exact hstep.steady ih

end Loom

/-! ### Owners of entries -/

namespace Assembly

/-- A declared procedure owns an entry of its type's table: the entry leads to the receiver
generated for the procedure, and the procedure forwards to the sender generated for it, which
sends calls of the entry's kind under the entry's id. -/
structure Owns (a : Assembly) (i : TypeId) (t : TypeDef) (kind : Kind) (id : RpcId)
    (entry : DispatchEntry) (m : ProcedureId) (p : Procedure) : Prop where
  here : t.procedure? m = some p
  declared : p.isDeclared = true
  reader : ∃ r, t.findSynthesized? ⟨.reader kind, p.signature⟩ = some r ∧
    a.resolve entry.reader = .ok (i, r)
  writer : ∃ w q b ref, t.findSynthesized? ⟨.writer kind, p.signature⟩ = some w ∧
    t.procedure? w = some q ∧ q.body = some b ∧ b.Sends kind id ∧
    a.resolve ref = .ok (i, w) ∧ p.ForwardsTo ref

variable {a : Assembly} {i : TypeId} {t : TypeDef} {kind : Kind} {id : RpcId}
  {entry : DispatchEntry} {m m' : ProcedureId} {p p' : Procedure}

/-- Whoever owns an entry has the signature that its receiver was generated for. -/
theorem Owns.signature_eq (h : a.Owns i t kind id entry m p)
    (h' : a.Owns i t kind id entry m' p') : p'.signature = p.signature := by
  obtain ⟨r, hr, hresolve⟩ := h.reader
  obtain ⟨r', hr', hresolve'⟩ := h'.reader
  obtain rfl : r = r' :=
    congrArg Prod.snd (Except.ok.inj (hresolve.symm.trans hresolve'))
  obtain ⟨q, hq, ho⟩ := TypeDef.procedure?_of_findSynthesized? hr
  obtain ⟨q', hq', ho'⟩ := TypeDef.procedure?_of_findSynthesized? hr'
  obtain rfl := Option.some.inj (hq.symm.trans hq')
  exact congrArg SynthKey.signature (Origin.synthesized.inj (ho'.symm.trans ho))

end Assembly

namespace TypeDef

variable {t : TypeDef} {m m' : ProcedureId} {p p' : Procedure}

/-- Annotated procedures that differ are told apart by their signatures. -/
theorem CallsDiffer.eq_of_signature (h : t.CallsDiffer) (hp : t.procedure? m = some p)
    (hd : p.isDeclared = true) (hr : p.isRemote = true) (hp' : t.procedure? m' = some p')
    (hd' : p'.isDeclared = true) (hr' : p'.isRemote = true)
    (hsig : p'.signature = p.signature) : m' = m := by
  have hmem : (m, p.heading) ∈ t.remotes := mem_remotes.mpr ⟨p, hp, hd, hr, rfl⟩
  have hmem' : (m', p'.heading) ∈ t.remotes := mem_remotes.mpr ⟨p', hp', hd', hr', rfl⟩
  exact congrArg Prod.fst (List.inj_on_of_nodup_map h hmem' hmem hsig)

/-- A carried call owns its entry, wherever the type is found by its name. -/
theorem Carries.owns {a : Assembly} {i : TypeId} {above : List TypeId} {kind : Kind} {id : RpcId}
    {entry : DispatchEntry} (h : t.Carries kind id m p) (hi : a.find? t.name = some i)
    (ht : a.type? i = some t) (hab : a.ancestors i = .ok above) (hc : t.Canonical)
    (hentry : entry.reader = (⟨.reader kind, p.signature⟩ : SynthKey).ref t.name) :
    a.Owns i t kind id entry m p := by
  obtain ⟨r, hr⟩ := h.reader
  obtain ⟨w, q, b, hw, hq, hb, hsends⟩ := h.writer
  refine ⟨h.here, h.declared, ⟨r, hr, ?_⟩, w, q, b, _, hw, hq, hb, hsends, ?_, h.forwards⟩
  · rw [hentry]
    exact Assembly.resolve_own hi ht hab (hc.find hr)
  · exact Assembly.resolve_own hi ht hab (hc.find hw)

end TypeDef

namespace Loom

variable {loom : Loom} {a : Assembly} {w : Weaving}

/-- Tables and senders agree.  Whatever was added and woven, in whatever order, every entry of
every table belongs to one annotated procedure of the type: the entry leads to the procedure's own
receiver, and the procedure forwards to its own sender, which sends this kind of call under this
id.  Any other declared procedure that owns the entry has the same signature and is not annotated,
and entries under different ids have different owners. -/
theorem tables_owned (loom : Loom) (hnames : a.NamesDiffer) (hfresh : ∀ t ∈ a.types, t.Fresh)
    (hdiffer : ∀ t ∈ a.types, t.CallsDiffer) (hsteps : ReflTransGen loom.Step (.start a) w)
    {name : String} {table : DispatchTable} (htable : w.table? name = some table) :
    ∃ i t, w.assembly.find? name = some i ∧ w.assembly.type? i = some t ∧
      (∀ kind id entry, table.get? kind id = some entry → ∃ m p,
        w.assembly.Owns i t kind id entry m p ∧ p.isRemote = true ∧
        ∀ m' p', w.assembly.Owns i t kind id entry m' p' →
          p'.signature = p.signature ∧ (p'.isRemote = true → m' = m)) ∧
      ∀ kind id entry kind' id' entry' m p, table.get? kind id = some entry →
        table.get? kind' id' = some entry' → w.assembly.Owns i t kind id entry m p →
        w.assembly.Owns i t kind' id' entry' m p → id = id' := by
  have hsteady := steady_of_steps hsteps (Weaving.steady_start hnames hfresh hdiffer)
  obtain ⟨i, above, t, hfind, hab, ht, rs, rfl, hnodup, hall⟩ :=
    hsteady.tables name table htable
  have hname : w.assembly.find? t.name = some i := by
    rw [LogicLink.name_of_find? hfind ht]
    exact hfind
  have hcalls := hsteady.orderly.differ i t ht
  -- an entry is owned by the procedure of a registration
  have howned : ∀ {kind id entry},
      (DispatchTable.ofRegistrations rs).get? kind id = some entry → ∃ r ∈ rs, ∃ p, r.id = id ∧
        p.isRemote = true ∧ w.assembly.Owns i t kind id entry r.procedure p := by
    intro kind id entry hget
    obtain ⟨r, hr, handler, hhandler, rfl, rfl, hentry⟩ :=
      DispatchTable.of_get?_ofRegistrations hget
    obtain ⟨p, hremote, hp⟩ := hall r hr
    obtain ⟨href, hcarries⟩ := hp handler hhandler
    exact ⟨r, hr, p, rfl, hremote, hcarries.owns hname ht hab
      (hsteady.orderly.canonical i t ht) (hentry.symm.trans href)⟩
  refine ⟨i, t, hfind, ht, fun kind id entry hget => ?_, ?_⟩
  · obtain ⟨r, -, p, -, hremote, howns⟩ := howned hget
    refine ⟨r.procedure, p, howns, hremote, fun m' p' howns' => ?_⟩
    have hsig := howns.signature_eq howns'
    exact ⟨hsig, fun hremote' => hcalls.eq_of_signature howns.here howns.declared hremote
      howns'.here howns'.declared hremote' hsig⟩
  · intro kind id entry kind' id' entry' m p hget hget' howns howns'
    obtain ⟨r, hr, q, rfl, hremote, hq⟩ := howned hget
    obtain ⟨r', hr', q', rfl, hremote', hq'⟩ := howned hget'
    -- both registrations are of the annotated procedure of the owner's signature
    have hsig := (howns'.signature_eq hq').trans (howns.signature_eq hq).symm
    have hsame : r'.procedure = r.procedure := hcalls.eq_of_signature hq.here hq.declared hremote
      hq'.here hq'.declared hremote' hsig
    rw [List.inj_on_of_nodup_map hnodup hr hr' hsame.symm]

end Loom

/-! ### A chain that grows, and a type with twins -/

/-- The assembly with one more declared procedure in the type at a position. -/
def Assembly.declare? (a : Assembly) (i : TypeId) (p : Procedure) : Option Assembly := do
  let t ← a.type? i
  let (t', _) ← (t.add p).toOption
  some (a.set i t')

theorem Loom.step_of_declare? {loom : Loom} {w : Weaving} {i : TypeId} {p : Procedure}
    {b : Assembly} (hp : p.isDeclared = true) (h : w.assembly.declare? i p = some b) :
    loom.Step w { w with assembly := b } := by
  obtain ⟨t, ht, h⟩ := Option.bind_eq_some_iff.mp h
  obtain ⟨⟨t', id⟩, hadd, h⟩ := Option.bind_eq_some_iff.mp h
  obtain rfl := Option.some.inj h
  suffices hok : t.add p = .ok (t', id) from .declare ht hp hok
  cases hadded : t.add p with
  | error e => simp [hadded, Except.toOption] at hadd
  | ok added =>
    rw [hadded] at hadd
    rw [Option.some.inj hadd]

namespace Sample

/-- A call without arguments. -/
def halt : Procedure := { Procedure.declare "Halt" with attributes := [⟨"ServerRpc", []⟩] }

/-- The chain, woven, and then with one more call in its first type. -/
def grown : Weaving :=
  let w := (loom.weave (.start chain)).1
  { w with assembly := (w.assembly.declare? 0 halt).getD chain }

theorem steps_grown : ReflTransGen loom.Step (.start chain) grown := by
  have hsome : ((loom.weave (.start chain)).1.assembly.declare? 0 halt).isSome = true := by
    decide +kernel
  obtain ⟨b, hb⟩ := Option.isSome_iff_exists.mp hsome
  have hgrown : grown = { (loom.weave (.start chain)).1 with assembly := b } := by
    rw [grown, hb]
    rfl
  rw [hgrown]
  exact (ReflTransGen.single (Loom.Step.weave _)).tail (Loom.step_of_declare? (by decide) hb)

/-- A type that has the same call twice. -/
def twice : Assembly := ⟨[⟨"Sentry", none, [halt, halt]⟩]⟩

end Sample

open Sample in
/-- Once the second type of the grown chain is woven again, its call has a later id, and the entry
for it belongs to the call. -/
theorem Loom.tables_owned_grown :
    ∃ w table, chain.NamesDiffer ∧ (∀ t ∈ chain.types, t.Fresh) ∧
      (∀ t ∈ chain.types, t.CallsDiffer) ∧ ReflTransGen Sample.loom.Step (.start chain) w ∧
      w.table? "Leader" = some table ∧ table.ids .observers = [2] ∧
      ∃ i t, w.assembly.find? "Leader" = some i ∧ w.assembly.type? i = some t ∧
        (∀ kind id entry, table.get? kind id = some entry → ∃ m p,
          w.assembly.Owns i t kind id entry m p ∧ p.isRemote = true ∧
          ∀ m' p', w.assembly.Owns i t kind id entry m' p' →
            p'.signature = p.signature ∧ (p'.isRemote = true → m' = m)) ∧
        ∀ kind id entry kind' id' entry' m p, table.get? kind id = some entry →
          table.get? kind' id' = some entry' → w.assembly.Owns i t kind id entry m p →
          w.assembly.Owns i t kind' id' entry' m p → id = id' := by
  have hunwoven : ∀ t ∈ chain.types, t.Unwoven := by decide
  have hsteps := steps_grown.tail (Loom.Step.weaveType _ 1)
  have hids : ((Sample.loom.weaveType grown 1).1.table? "Leader").map (·.ids .observers) =
      some [2] := by decide +kernel
  obtain ⟨table, htable, hids⟩ := Option.map_eq_some_iff.mp hids
  exact ⟨_, table, by decide, fun t ht => (hunwoven t ht).fresh, by decide, hsteps, htable, hids,
    tables_owned Sample.loom (by decide) (fun t ht => (hunwoven t ht).fresh) (by decide) hsteps
      htable⟩

open Sample in
/-- Of two annotated procedures of one signature both have an id, but their one sender sends the
second.  Nothing owns the entry under the first. -/
theorem Loom.tables_unowned_twice :
    twice.NamesDiffer ∧ (∀ t ∈ twice.types, t.Unwoven) ∧
    ReflTransGen Sample.loom.Step (.start twice) (Sample.loom.weave (.start twice)).1 ∧
    ∃ table t entry, (Sample.loom.weave (.start twice)).1.table? "Sentry" = some table ∧
      (Sample.loom.weave (.start twice)).1.assembly.type? 0 = some t ∧
      table.get? .server 0 = some entry ∧
      ∀ m p, ¬ (Sample.loom.weave (.start twice)).1.assembly.Owns 0 t .server 0 entry m p := by
  have hsender : ((Sample.loom.weave (.start twice)).1.assembly.type? 0).map (fun t =>
      t.procedures.all fun q =>
        decide (q.body.map (fun b => b.nested.filterMap (·.id?)) ≠ some [0])) = some true := by
    decide +kernel
  have hentry : (((Sample.loom.weave (.start twice)).1.table? "Sentry").bind
      (·.get? .server 0)).isSome = true := by decide +kernel
  obtain ⟨t, ht, hsender⟩ := Option.map_eq_some_iff.mp hsender
  obtain ⟨entry, hentry⟩ := Option.isSome_iff_exists.mp hentry
  obtain ⟨table, htable, hentry⟩ := Option.bind_eq_some_iff.mp hentry
  refine ⟨by decide, by decide, .single (.weave _), table, t, entry, htable, ht, hentry,
    fun m p howns => ?_⟩
  -- an owner would have a sender that sends the id of the entry and no other, and there is none
  obtain ⟨w, q, b, ref, -, hq, hb, hsends, -, -⟩ := howns.writer
  have hother := List.all_eq_true.mp hsender q (List.mem_of_getElem? hq)
  rw [hb, Option.map_some, hsends.ids] at hother
  simp at hother

end RpcLoom
