/-
RpcLoom/Proofs/Reannotating.lean

Annotations that are changed between two runs.

Design.  A run makes a receiver unless it is there, and leaves those that are
there as they are (`TypeDef.Receiving`).  So a receiver checks what the calls of
its signature and kind asked for in the run that made it, while its entry in the
table records what they ask for now.  Both are one and the same for a receiver
that the last run made.

Main result.  `Loom.weave_enforces`: after any change of annotations and a second
run, the receiver of every entry turns away whoever the calls kept out that it
was made for.
-/
import RpcLoom.Proofs.Carriers
import RpcLoom.Proofs.OwnCode
import RpcLoom.Proofs.Refusals

namespace RpcLoom

/-! ### Other annotations -/

namespace TypeDef

/-- A type whose declared procedures have other attributes. -/
def annotate (t : TypeDef) (edit : ProcedureId → List Attribute) : TypeDef :=
  { t with
    procedures := t.procedures.mapIdx fun m p =>
      if p.isDeclared then { p with attributes := edit m } else p }

variable {t : TypeDef} {edit : ProcedureId → List Attribute} {m : ProcedureId} {p : Procedure}

theorem procedure?_annotate (t : TypeDef) (edit : ProcedureId → List Attribute)
    (m : ProcedureId) : (t.annotate edit).procedure? m =
      (t.procedure? m).map fun p => if p.isDeclared then { p with attributes := edit m } else p :=
  List.getElem?_mapIdx

/-- Generated procedures stay as they are. -/
theorem procedure?_annotate_of_generated (hp : t.procedure? m = some p)
    (hd : p.isDeclared = false) : (t.annotate edit).procedure? m = some p := by
  rw [procedure?_annotate, hp, Option.map_some, hd]
  rfl

/-- What does not depend on attributes is the same for all procedures. -/
theorem map_annotate {α : Type} (g : Procedure → α)
    (hg : ∀ (p : Procedure) as, g { p with attributes := as } = g p) :
    (t.annotate edit).procedures.map g = t.procedures.map g := by
  apply List.ext_getElem?
  intro m
  have hm := congrArg (Option.map g) (procedure?_annotate t edit m)
  rw [Option.map_map] at hm
  rw [List.getElem?_map, List.getElem?_map]
  refine hm.trans (congrArg (Option.map · t.procedures[m]?) (funext fun p => ?_))
  show g (if p.isDeclared then _ else _) = g p
  split
  · exact hg p _
  · rfl

theorem findSignature?_annotate (t : TypeDef) (edit : ProcedureId → List Attribute)
    (s : Signature) : (t.annotate edit).findSignature? s = t.findSignature? s := by
  rw [findSignature?_eq, findSignature?_eq, map_annotate _ fun _ _ => rfl]

theorem findSynthesized?_annotate (t : TypeDef) (edit : ProcedureId → List Attribute)
    (key : SynthKey) : (t.annotate edit).findSynthesized? key = t.findSynthesized? key := by
  rw [findSynthesized?_eq, findSynthesized?_eq, map_annotate _ fun _ _ => rfl]

theorem Canonical.annotate (h : t.Canonical) (edit : ProcedureId → List Attribute) :
    (t.annotate edit).Canonical := by
  intro m q key hq ho
  rw [procedure?_annotate, Option.map_eq_some_iff] at hq
  obtain ⟨p, hp, rfl⟩ := hq
  have hsame : (if p.isDeclared then { p with attributes := edit m } else p).origin = p.origin ∧
      (if p.isDeclared then { p with attributes := edit m } else p).signature = p.signature := by
    split <;> exact ⟨rfl, rfl⟩
  rw [hsame.1] at ho
  rw [hsame.2, findSignature?_annotate]
  exact h m p key hp ho

end TypeDef

namespace Assembly

/-- An assembly whose declared procedures have other attributes. -/
def annotate (a : Assembly) (edit : TypeId → ProcedureId → List Attribute) : Assembly :=
  ⟨a.types.mapIdx fun i t => t.annotate (edit i)⟩

variable {a : Assembly} {edit : TypeId → ProcedureId → List Attribute}

theorem type?_annotate (a : Assembly) (edit : TypeId → ProcedureId → List Attribute)
    (i : TypeId) : (a.annotate edit).type? i = (a.type? i).map (·.annotate (edit i)) :=
  List.getElem?_mapIdx

theorem alike_annotate (a : Assembly) (edit : TypeId → ProcedureId → List Attribute) :
    a.Alike (a.annotate edit) := by
  apply List.ext_getElem?
  intro i
  have hi := congrArg (Option.map fun t => (t.name, t.base)) (type?_annotate a edit i)
  rw [Option.map_map] at hi
  rw [List.getElem?_map, List.getElem?_map]
  exact hi.symm

end Assembly

/-! ### Receivers and runs -/

/-- A type declares a call of a kind and a signature that keeps the rules. -/
structure TypeDef.HasCall (t : TypeDef) (codec : Codec) (kind : Kind) (s : Signature)
    (p : Procedure) (c : Contract) : Prop where
  mem : p ∈ t.procedures
  declared : p.isDeclared = true
  signature : p.signature = s
  keeps : p.contract? codec = .ok (some c)
  kind : kind ∈ c.kinds.toList

/-- What a run makes of the receivers of a type: those that are there stay, and the others are made
for calls that the type declares. -/
structure TypeDef.Receiving (loom : Loom) (t u : TypeDef) : Prop where
  name_eq : u.name = t.name
  canonical : u.Canonical
  receiver : ∀ kind s m, u.findSynthesized? ⟨.reader kind, s⟩ = some m →
    (t.findSynthesized? ⟨.reader kind, s⟩ = some m ∧ u.procedure? m = t.procedure? m) ∨
    (t.findSynthesized? ⟨.reader kind, s⟩ = none ∧ ∃ p c logic body,
      t.HasCall loom.codec kind s p c ∧ loom.receiverBody p c kind logic = .ok body ∧
      u.procedure? m = some (p.readerOf kind body))

theorem TypeDef.Receiving.refl {loom : Loom} {t : TypeDef} (hc : t.Canonical) :
    t.Receiving loom t :=
  ⟨rfl, hc, fun _ _ _ hm => .inl ⟨hm, rfl⟩⟩

section

variable {loom : Loom} {t : TypeDef} {counter : IdCounter} {v : TypeWeaving}
  {turns : List (Job × Fate)}

/-- A call that had its turn is declared in the type. -/
theorem Turns.hasCall (h : Turns loom (loom.beginType t counter) turns v)
    (hids : (turns.map (·.1.id)).Nodup) {x : Job × Fate} (hx : x ∈ turns) {kind : Kind}
    (hkind : kind ∈ x.1.contract.kinds.toList) :
    t.HasCall loom.codec kind x.1.served.signature x.1.served x.1.contract := by
  obtain ⟨hd, hkeeps⟩ := h.declared hx
  exact ⟨List.mem_of_getElem? (h.served_eq hids hx), hd, rfl, hkeeps, hkind⟩

theorem Turns.receiving (h : Turns loom (loom.beginType t counter) turns v) (hc : t.Canonical)
    (hids : (turns.map (·.1.id)).Nodup) (above : List TypeDef) :
    t.Receiving loom (v.led above) where
  name_eq := (v.name_led above).trans h.name_eq
  canonical := (h.canonical hc).bare (v.bare_led above)
  receiver kind s m hm := by
    rw [← TypeDef.findSynthesized?_bare, v.bare_led, TypeDef.findSynthesized?_bare] at hm
    obtain ⟨q, hq, ho⟩ := TypeDef.procedure?_of_findSynthesized? hm
    have hled : (v.led above).procedure? m = some q := by
      refine TypeWeaving.led_of_not_logic h hc rfl hq fun s hs => ?_
      cases congrArg SynthKey.role (Origin.synthesized.inj (ho.symm.trans hs))
    rw [hled]
    cases hold : t.findSynthesized? ⟨.reader kind, s⟩ with
    | some k =>
      obtain rfl : k = m := Option.some.inj ((h.grows.find hold).symm.trans hm)
      obtain ⟨p, hp, hpo⟩ := TypeDef.procedure?_of_findSynthesized? hold
      have hkept := h.procedure?_generated hp hpo fun _ => by simp
      exact .inl ⟨rfl, hq.symm.trans (hkept.trans hp.symm)⟩
    | none =>
      refine .inr ⟨rfl, ?_⟩
      have hd := Procedure.isDeclared_of_synthesized ho
      rcases h.madeFor hc hq hd with hstart | ⟨x, hx, hmade⟩
      · exact absurd ho (TypeDef.findSynthesized?_eq_none.mp hold m q hstart)
      obtain ⟨rfl, hkind, body, hbody, rfl⟩ := hmade.of_reader ho
      exact ⟨_, _, _, body, h.hasCall hids hx hkind, hbody, rfl⟩

end

namespace Loom

variable {loom : Loom} {w : Weaving} {i : TypeId} {t : TypeDef}

/-- What a run makes of the receivers of a type. -/
theorem receiving_weave (loom : Loom) (hidle : w.links = []) (hnames : w.assembly.NamesDiffer)
    (ht : w.assembly.type? i = some t) (hc : t.Canonical) :
    ∃ u, (loom.weave w).1.assembly.type? i = some u ∧ t.Receiving loom u := by
  cases horder : w.assembly.hierarchyOrder with
  | error e =>
    rw [loom.weave_of_error horder]
    exact ⟨t, ht, .refl hc⟩
  | ok order =>
    obtain ⟨above, hab⟩ := Assembly.ancestors_of_hierarchyOrder horder ht
    obtain ⟨counter, -, ⟨log, e, -, halone⟩ | ⟨log, v, hv, halone⟩⟩ := loom.alone_cases ht hab
    · exact ⟨t, type?_of_refused hidle horder hnames ht hab halone, .refl hc⟩
    · obtain ⟨-, -, turns, hturns, hmap⟩ := turns_of_weaveTypeDef hv
      exact ⟨_, type?_of_woven hidle horder hnames ht hab halone,
        hturns.receiving hc (Turns.nodup_ids hmap) _⟩

/-- An entry of a table is for a call that the type declares, and leads to a receiver that is
there. -/
theorem entry_weave {order above : List TypeId} (hidle : w.links = [])
    (horder : w.assembly.hierarchyOrder = .ok order) (hnames : w.assembly.NamesDiffer)
    (ht : w.assembly.type? i = some t) (hab : w.assembly.ancestors i = .ok above)
    (hc : t.Canonical) {table : DispatchTable}
    (htable : (loom.weave w).1.table? t.name = some table) {kind : Kind} {id : RpcId}
    {entry : DispatchEntry} (hget : table.get? kind id = some entry) :
    ∃ p c u m, t.HasCall loom.codec kind p.signature p c ∧
      entry = ⟨(⟨.reader kind, p.signature⟩ : SynthKey).ref t.name, c.runLocally, c.policy kind⟩ ∧
      (loom.weave w).1.assembly.type? i = some u ∧
      u.findSynthesized? ⟨.reader kind, p.signature⟩ = some m := by
  rw [loom.table?_weave hidle horder hnames ht hab] at htable
  obtain ⟨counter, -, ⟨log, e, -, halone⟩ | ⟨log, v, hv, halone⟩⟩ := loom.alone_cases ht hab
  · rw [halone] at htable
    cases htable
  rw [halone] at htable
  obtain rfl := Option.some.inj htable
  obtain ⟨-, -, turns, hturns, hmap⟩ := turns_of_weaveTypeDef hv
  obtain ⟨r, hr, handler, hhandler, -, rfl, rfl⟩ := DispatchTable.handler_of_get? hget
  rw [hturns.registrations_eq] at hr
  rcases List.mem_append.mp hr with hnone | hr
  · cases hnone
  obtain ⟨x, hx, hreg⟩ := List.mem_filterMap.mp hr
  obtain ⟨x', hleft, hgrows, -⟩ := hturns.left_behind hc hx
  rcases hf : x.2 with ⟨triad, body⟩ | e
  · rw [hf] at hreg hleft
    obtain rfl := Option.some.inj hreg
    have hmem := List.mem_map_of_mem (f := fun h : Handler => (h.kind, h.readerRef, h.policy))
      hhandler
    rw [hleft.installed.handlers] at hmem
    obtain ⟨kind, hkind, heq⟩ := List.mem_map.mp hmem
    simp only [Prod.mk.injEq] at heq
    obtain ⟨rfl, href, hpolicy⟩ := heq
    obtain ⟨s, -, hreader⟩ := hleft.installed.reader? hkind
    refine ⟨x.1.served, x.1.contract, _, s.id, hturns.hasCall (Turns.nodup_ids hmap) hx hkind, ?_,
      type?_of_woven hidle horder hnames ht hab halone, ?_⟩
    · rw [← href, ← hpolicy, hgrows.name.symm.trans hturns.name_eq]
      rfl
    · rw [← TypeDef.findSynthesized?_bare, v.bare_led, TypeDef.findSynthesized?_bare]
      exact hgrows.find hreader.found
  · rw [hf] at hreg
    cases hreg

end Loom

/-! ### Enforcing -/

/-- A receiver enforces what the calls of a signature and a kind ask for that a type declares. -/
structure Assembly.Enforces (a : Assembly) (codec : Codec) (t : TypeDef) (kind : Kind)
    (s : Signature) (reader : MethodRef) : Prop where
  /-- If they all ask for ownership, whoever does not own the object is turned away. -/
  server : kind = .server →
    (∀ p c, t.HasCall codec .server s p c → (c.policy .server).requireOwnership = true) →
    ∀ object channel sender, sender = none ∨ sender ≠ object.owner →
      a.TurnsAway object reader channel sender Body.notOwnerWarning 1
  /-- If they all leave out the owner, the owner is turned away. -/
  observers : kind = .observers →
    (∀ p c, t.HasCall codec .observers s p c → (c.policy .observers).includeOwner = false) →
    ∀ object channel sender, object.isOwner = true →
      a.TurnsAway object reader channel sender Body.notOwnerWarning 0

/-- A receiver that was made for a call of a type enforces what the calls of the type ask for. -/
theorem Assembly.enforces_of_made {loom : Loom} {a : Assembly} {t : TypeDef} {kind : Kind}
    {s : Signature} {p : Procedure} {c : Contract} {reader logic : MethodRef} {body : Body}
    (hcodec : loom.codec.Honest) (hcall : t.HasCall loom.codec kind s p c)
    (hbody : loom.receiverBody p c kind logic = .ok body)
    (hcallee : ∀ object, a.calleeOf object false reader = .ok (p.readerOf kind body))
    (htypes : reader.types = (Receiver.parameters kind).map (·.type)) :
    a.Enforces loom.codec t kind s reader := by
  have hkeeps := Procedure.keeps_of_contract? hcall.keeps
  constructor
  · rintro rfl hpolicy object channel sender hsender
    exact Loom.turnsAway_server hcodec hkeeps hbody (hcallee object) htypes (hpolicy p c hcall)
      (NetObject.ownedByConnection_of_ne hsender)
  · rintro rfl hpolicy object channel sender howner
    exact Loom.turnsAway_observers hcodec hkeeps hbody (hcallee object) (hpolicy p c hcall) howner _

/-- In two runs, with other annotations in the second, a receiver enforces what the calls ask for in
the run that made it. -/
theorem TypeDef.Receiving.enforces {loom : Loom} {a : Assembly} {t u v : TypeDef}
    {edit : ProcedureId → List Attribute} (hcodec : loom.codec.Honest)
    (hfirst : t.Receiving loom u) (ht : t.Fresh) (hsecond : (u.annotate edit).Receiving loom v)
    (hhas : a.Has v) {kind : Kind} {s : Signature} {m : ProcedureId}
    (hm : v.findSynthesized? ⟨.reader kind, s⟩ = some m) :
    a.Enforces loom.codec
      (if (u.findSynthesized? ⟨.reader kind, s⟩).isSome then t else u.annotate edit) kind s
      ((⟨.reader kind, s⟩ : SynthKey).ref v.name) := by
  have hcallee : ∀ {q}, v.procedure? m = some q → ∀ object,
      a.calleeOf object false ((⟨.reader kind, s⟩ : SynthKey).ref v.name) = .ok q :=
    fun hq _ => hhas.calleeOf (hsecond.canonical.find hm) hq (.inl rfl)
  rcases hsecond.receiver kind s m hm with
    ⟨hold, hkept⟩ | ⟨hnone, q, c, logic, body, hmade, hbody, hq⟩
  · rw [findSynthesized?_annotate] at hold
    rw [if_pos (by rw [hold]; rfl)]
    rcases hfirst.receiver kind s m hold with
      ⟨hstart, -⟩ | ⟨-, q, c, logic, body, hmade, hbody, hq⟩
    · obtain ⟨q, hq, ho⟩ := procedure?_of_findSynthesized? hstart
      have hd := ht m q hq
      exact absurd ho (Procedure.origin_ne_of_isDeclared hd _)
    · refine Assembly.enforces_of_made hcodec hmade hbody (hcallee ?_) rfl
      rw [hkept]
      exact procedure?_annotate_of_generated hq rfl
  · rw [findSynthesized?_annotate] at hnone
    rw [if_neg (by rw [hnone]; simp)]
    exact Assembly.enforces_of_made hcodec hmade hbody (hcallee hq) rfl

/-- After a change of annotations and a second run, by the same weaver or by a new one, every entry
of a table records what its call asks for now; but its receiver enforces what the calls asked for
in the run that made it, which is the first one if the receiver was there after it. -/
theorem Loom.weave_enforces (settings : Settings) {a : Assembly} (hnames : a.NamesDiffer)
    (hfresh : ∀ t ∈ a.types, t.Fresh) (edit : TypeId → ProcedureId → List Attribute)
    {w : Weaving}
    (hw : let first := (Loom.weave ⟨.standard, settings⟩ (.start a)).1
      w = { first with assembly := first.assembly.annotate edit } ∨
        w = .start (first.assembly.annotate edit))
    {i : TypeId} {t : TypeDef} (ht : a.type? i = some t) {table : DispatchTable}
    (htable : (Loom.weave ⟨.standard, settings⟩ w).1.table? t.name = some table) {kind : Kind}
    {id : RpcId} {entry : DispatchEntry} (hget : table.get? kind id = some entry) :
    ∃ u p c, (Loom.weave ⟨.standard, settings⟩ (.start a)).1.assembly.type? i = some u ∧
      (u.annotate (edit i)).HasCall .standard kind p.signature p c ∧
      entry.policy = c.policy kind ∧
      (Loom.weave ⟨.standard, settings⟩ w).1.assembly.Enforces .standard
        (if (u.findSynthesized? ⟨.reader kind, p.signature⟩).isSome then t
          else u.annotate (edit i))
        kind p.signature entry.reader := by
  have hfresh' : t.Fresh := hfresh t (List.mem_of_getElem? ht)
  obtain ⟨u, hu, hfirst⟩ := receiving_weave ⟨.standard, settings⟩ (w := .start a) rfl hnames ht
    hfresh'.canonical
  have hassembly : w.assembly =
      (Loom.weave ⟨.standard, settings⟩ (.start a)).1.assembly.annotate edit := by
    rcases hw with rfl | rfl <;> rfl
  have hidle : w.links = [] := by
    rcases hw with rfl | rfl
    · exact Loom.links_weave _ (w := .start a) rfl
    · rfl
  have halike : a.Alike w.assembly := by
    rw [hassembly]
    exact (Loom.alike_weave _ (.start a)).trans (Assembly.alike_annotate _ edit)
  have hnames' := halike.namesDiffer hnames
  have ht' : w.assembly.type? i = some (u.annotate (edit i)) := by
    rw [hassembly, Assembly.type?_annotate, hu]
    rfl
  have hc' := hfirst.canonical.annotate (edit i)
  have hname : (u.annotate (edit i)).name = t.name := hfirst.name_eq
  cases horder : w.assembly.hierarchyOrder with
  | error e =>
    -- without an order neither run has made a table
    have hnone : w.tables = [] := by
      rcases hw with rfl | rfl
      · rw [Loom.weave_of_error _ (w := .start a) (halike.hierarchyOrder.trans horder)]
        rfl
      · rfl
    rw [Loom.weave_of_error _ horder] at htable
    have hlook : w.table? t.name = some table := htable
    rw [Weaving.table?, hnone] at hlook
    cases hlook
  | ok order =>
    obtain ⟨-, hknown⟩ := Assembly.of_hierarchyOrder horder
    obtain ⟨_, above, hthere, hab⟩ := hknown i (Assembly.mem_hierarchyOrder horder ht')
    obtain rfl := Option.some.inj (ht'.symm.trans hthere)
    rw [← hname] at htable
    obtain ⟨p, c, v, m, hcall, rfl, hv, hm⟩ :=
      entry_weave hidle horder hnames' ht' hab hc' htable hget
    obtain ⟨_, hv', hsecond⟩ := receiving_weave ⟨.standard, settings⟩ hidle hnames' ht' hc'
    obtain rfl := Option.some.inj (hv.symm.trans hv')
    have hhas := Loom.has_weave _ hnames' ht' hab hv hsecond.name_eq
    refine ⟨u, p, c, hu, hcall, rfl, ?_⟩
    rw [← hsecond.name_eq]
    exact hfirst.enforces Codec.honest_standard hfresh' hsecond hhas hm

namespace Sample

/-- Two calls of the gate, the first of them for everybody. -/
def lodge : Assembly :=
  ⟨[⟨"Lodge", none,
    [{ fire with attributes := [⟨"ServerRpc", [("RequireOwnership", .bool false)]⟩] }, notify]⟩]⟩

/-- The woven lodge, once both are calls to the server for the owner alone. -/
def guardedLodge : Weaving :=
  let first := (loom.weave (.start lodge)).1
  { first with assembly := first.assembly.annotate fun _ _ => [⟨"ServerRpc", []⟩] }

end Sample

open Sample in
/-- The second call of the guarded lodge gets its receiver in the second run, and this receiver
turns away whoever does not own the object. -/
theorem Loom.weave_enforces_lodge :
    lodge.NamesDiffer ∧ (∀ t ∈ lodge.types, t.Fresh) ∧
    ∃ table entry, (Sample.loom.weave guardedLodge).1.table? "Lodge" = some table ∧
      table.get? .server 1 = some entry ∧ entry.policy.requireOwnership = true ∧
      ∃ u p c, (Sample.loom.weave (.start lodge)).1.assembly.type? 0 = some u ∧
        (u.annotate fun _ => [⟨"ServerRpc", []⟩]).HasCall .standard .server p.signature p c ∧
        entry.policy = c.policy .server ∧
        (Sample.loom.weave guardedLodge).1.assembly.Enforces .standard
          (if (u.findSynthesized? ⟨.reader .server, p.signature⟩).isSome then
            ⟨"Lodge", none, [{ fire with
              attributes := [⟨"ServerRpc", [("RequireOwnership", .bool false)]⟩] }, notify]⟩
            else u.annotate fun _ => [⟨"ServerRpc", []⟩])
          .server p.signature entry.reader := by
  have hunwoven : ∀ t ∈ lodge.types, t.Unwoven := by decide
  have hsome : (((Sample.loom.weave guardedLodge).1.table? "Lodge").bind fun table =>
      (table.get? .server 1).map (·.policy.requireOwnership)) = some true := by decide +kernel
  obtain ⟨table, htable, hsome⟩ := Option.bind_eq_some_iff.mp hsome
  obtain ⟨entry, hget, hpolicy⟩ := Option.map_eq_some_iff.mp hsome
  exact ⟨by decide, fun t ht => (hunwoven t ht).fresh, table, entry, htable, hget, hpolicy,
    weave_enforces .default (by decide) (fun t ht => (hunwoven t ht).fresh)
      (fun _ _ => [⟨"ServerRpc", []⟩]) (.inl rfl) (i := 0) rfl htable hget⟩

open Sample in
/-- The first call of the guarded lodge has kept its receiver.  Its entry asks for ownership, but the
receiver lets in whoever sends the call, and runs the user's code. -/
theorem Loom.guard_outdated_lodge :
    lodge.NamesDiffer ∧ (∀ t ∈ lodge.types, t.Fresh) ∧
    ∃ table entry, (Sample.loom.weave guardedLodge).1.table? "Lodge" = some table ∧
      table.get? .server 0 = some entry ∧ entry.policy.requireOwnership = true ∧
      ((Sample.loom.weave guardedLodge).1.assembly.receive (.server "Lodge" (some 7)) entry.reader
        (List.replicate 32 false) .reliable (some 8) .fresh).2.1.externalCalls =
          #[⟨"app::fire", [.u32 0]⟩] ∧
      ∀ text times, ¬ (Sample.loom.weave guardedLodge).1.assembly.TurnsAway
        (.server "Lodge" (some 7)) entry.reader .reliable (some 8) text times := by
  have hunwoven : ∀ t ∈ lodge.types, t.Unwoven := by decide
  have hsome : (((Sample.loom.weave guardedLodge).1.table? "Lodge").bind fun table =>
      (table.get? .server 0).map fun entry => (entry.policy.requireOwnership,
        ((Sample.loom.weave guardedLodge).1.assembly.receive (.server "Lodge" (some 7)) entry.reader
          (List.replicate 32 false) .reliable (some 8) .fresh).2.1.externalCalls)) =
      some (true, #[⟨"app::fire", [.u32 0]⟩]) := by decide +kernel
  obtain ⟨table, htable, hsome⟩ := Option.bind_eq_some_iff.mp hsome
  obtain ⟨entry, hget, hsome⟩ := Option.map_eq_some_iff.mp hsome
  obtain ⟨hpolicy, hcalls⟩ := Prod.mk.inj hsome
  refine ⟨by decide, fun t ht => (hunwoven t ht).fresh, table, entry, htable, hget, hpolicy, hcalls,
    fun text times h => ?_⟩
  rcases hrun : (Sample.loom.weave guardedLodge).1.assembly.receive (.server "Lodge" (some 7))
    entry.reader (List.replicate 32 false) .reliable (some 8) .fresh with ⟨result, host, left⟩
  rw [hrun] at hcalls
  -- a host that is at most warned has made no calls
  rcases (h.dismisses _ _ _ _ _ hrun).2 with rfl | rfl <;> cases hcalls

end RpcLoom
