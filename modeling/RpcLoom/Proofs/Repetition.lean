/-
RpcLoom/Proofs/Repetition.lean

Weaving twice is weaving once.

Design.  The links a type leaves stand for logic that is there
(`Turns.links_of`), so following them settles each of them and leads on nothing
but base calls.  Such a type spares all its calls, and what each type comes to
alone is the same again (`Repeats`).  Both runs gather the same logs, reports,
tables and links, and following the links a second time changes nothing.

Two annotated procedures of one signature share their generated procedures, and
then the second run may find a reader that the first had yet to make; so the
calls of a type are to differ (`CallsDiffer`).
-/
import RpcLoom.Proofs.Allocation
import RpcLoom.Proofs.Settling

namespace RpcLoom

/-- The annotated procedures of a type have different signatures. -/
def TypeDef.CallsDiffer (t : TypeDef) : Prop := (t.remotes.map (·.2.signature)).Nodup

instance (t : TypeDef) : Decidable t.CallsDiffer :=
  inferInstanceAs (Decidable (t.remotes.map (·.2.signature)).Nodup)

/-! ### Turns of calls that differ -/

section

variable {loom : Loom} {w w' : TypeWeaving} {turns : List (Job × Fate)} {t : TypeDef}

theorem Turns.mem_remotes (h : Turns loom w turns w') (hids : (turns.map (·.1.id)).Nodup)
    {x : Job × Fate} (hx : x ∈ turns) : (x.1.id, x.1.served.heading) ∈ w.type.remotes := by
  obtain ⟨hd, hc⟩ := h.declared hx
  refine TypeDef.mem_remotes.mpr ⟨x.1.served, h.served_eq hids hx, hd, ?_, rfl⟩
  by_contra hr
  rw [Procedure.contract?, if_pos (by simpa using hr)] at hc
  cases hc

theorem Turns.apart (h : Turns loom w turns w') (hids : (turns.map (·.1.id)).Nodup)
    (hdiffer : w.type.CallsDiffer) : Apart turns := by
  have hne : turns.Pairwise fun x y => x.1.id ≠ y.1.id := List.pairwise_map.mp hids
  refine hne.imp_of_mem fun {x y} hx hy hxy => ⟨Ne.symm hxy, fun hs => hxy ?_⟩
  have := List.inj_on_of_nodup_map hdiffer (h.mem_remotes hids hx) (h.mem_remotes hids hy) hs.symm
  exact congrArg Prod.fst this

end

/-! ### One type again -/

namespace Loom

open Weaving

variable {loom : Loom} {a b : Assembly} {i : TypeId} {t F : TypeDef}

/-- A type whose calls need too many ids needs too many again. -/
theorem weaveTypeDef_refused {counter : IdCounter} {log : Log} {e : WeaveError}
    (h : loom.weaveTypeDef t counter = (log, .error e)) (hname : F.name = t.name)
    (houtline : F.outline = t.outline) : loom.weaveTypeDef F counter = (log, .error e) := by
  unfold weaveTypeDef at h ⊢
  rw [TypeDef.contracts_congr houtline, hname]
  have hlog : (loom.beginType F counter).log = (loom.beginType t counter).log := by
    simp only [beginType, TypeDef.rejections_congr houtline]
  by_cases hfits : counter.fits (t.contracts loom.codec).length = true
  · simp [hfits] at h
  · simpa [hfits, hlog] using h

/-- A woven type whose calls differ is woven again as before, also when base calls were led on. -/
theorem weaveTypeDef_relinked {counter : IdCounter} {log : Log} {v : TypeWeaving}
    (h : loom.weaveTypeDef t counter = (log, .ok v)) (ht : t.Unwoven) (hdiffer : t.CallsDiffer)
    (hF : v.type.Relinked F) (houtline : F.outline = t.outline) :
    loom.weaveTypeDef F counter = (log, .ok { v with type := F }) := by
  obtain ⟨-, -, turns, hturns, hmap⟩ := turns_of_weaveTypeDef h
  have hids := Turns.nodup_ids hmap
  refine weaveTypeDef_again h hturns hmap ht.fresh.canonical (hturns.apart hids hdiffer)
    (fun x hx => ?_) (fun x _ => hF.spares x.1) houtline
  exact ht.bodies _ _ (hturns.served_eq hids hx)

/-- What a type comes to in one assembly it comes to in another, and it stays as it is there. -/
structure Repeats (loom : Loom) (a b : Assembly) (i : TypeId) : Prop where
  log : (loom.alone b i).1 = (loom.alone a i).1
  links : linksOf (loom.alone b i).2 = linksOf (loom.alone a i).2
  table : tableOf (loom.alone b i).2 = tableOf (loom.alone a i).2
  report : reportOf (loom.alone b i).2 = reportOf (loom.alone a i).2
  error : errorOf (loom.alone b i).2 = errorOf (loom.alone a i).2
  stays : (b.type? i).map (becomes · (loom.alone b i).2) = b.type? i

theorem repeats_alone {above : List TypeId} (ht : a.type? i = some t)
    (hab : a.ancestors i = .ok above) (hunwoven : t.Unwoven) (hdiffer : t.CallsDiffer)
    (hfaces : a.faces = b.faces) (hF : b.type? i = some F)
    (hrelink : (becomes t (loom.alone a i).2).Relinked F) : loom.Repeats a b i := by
  have habF : b.ancestors i = .ok above := by rw [← Assembly.ancestors_congr hfaces, hab]
  have hface : F.face = t.face :=
    (TypeDef.face_of_bare_eq hrelink.bare).trans (face_becomes ht hab)
  obtain ⟨hname, -, houtline⟩ := TypeDef.face_eq_iff.mp hface
  obtain ⟨counter, hcounter, hcases⟩ := alone_cases loom ht hab
  have hcounterF : IdCounter.ofAncestors b i loom.settings.allowance = .ok counter := by
    rw [← Assembly.ofAncestors_congr hfaces, hcounter]
  rcases hcases with ⟨log, e, hweave, halone⟩ | ⟨log, v, hweave, halone⟩
  · have haloneF : loom.alone b i = (log ++ Log.error e.message, .error e) := by
      rw [alone_eq hF hcounterF, weaveTypeDef_refused hweave hname houtline]
    have hsame : loom.alone b i = loom.alone a i := haloneF.trans halone.symm
    refine ⟨by rw [hsame], by rw [hsame], by rw [hsame], by rw [hsame], by rw [hsame], ?_⟩
    rw [haloneF, hF]
    rfl
  · rw [halone] at hrelink
    have hagain := weaveTypeDef_relinked hweave hunwoven hdiffer hrelink houtline
    have haloneF : loom.alone b i = (log, .ok { v with type := F }) := by
      rw [alone_eq hF hcounterF, hagain]
    have hsame : F.name = v.type.name := TypeDef.name_of_bare_eq hrelink.bare
    refine ⟨?_, ?_, ?_, ?_, ?_, ?_⟩
    all_goals rw [haloneF]
    · rw [halone]
    · rw [halone]
      rfl
    · rw [halone]
      rfl
    · rw [halone]
      show some (⟨F.name, v.registrations, v.errors⟩ : TypeReport) = _
      rw [hsame]
      rfl
    · rw [halone]
      rfl
    · rw [hF]
      rfl

end Loom

/-! ### The whole assembly -/

/-- The state with nothing said. -/
def Weaving.silent (w : Weaving) : Weaving := { w with log := [] }

/-- Two runs end alike: the same types down to every body, the same outcome, the same tables, and
the same things said. -/
structure SameRun (x y : Weaving × Outcome) : Prop where
  assembly : x.1.assembly = y.1.assembly
  outcome : x.2 = y.2
  table? : ∀ name, x.1.table? name = y.1.table? name
  log : x.1.log = y.1.log

/-- The last of several choices does not depend on where the search starts, if there is one. -/
theorem foldl_ite_congr {α β : Type} {is : List α} {P : α → Prop} [DecidablePred P]
    {g : α → β} (h : ∃ i ∈ is, P i) (x y : β) :
    is.foldl (fun z i => if P i then g i else z) x =
      is.foldl (fun z i => if P i then g i else z) y := by
  induction is generalizing x y with
  | nil => simp at h
  | cons i rest ih =>
    rw [List.foldl_cons, List.foldl_cons]
    by_cases hi : P i
    · rw [if_pos hi, if_pos hi]
    · rw [if_neg hi, if_neg hi]
      refine ih ?_ x y
      simpa [hi] using h

theorem foldl_ite_of_forall_not {α β : Type} {is : List α} {P : α → Prop} [DecidablePred P]
    {g : α → β} (h : ∀ i ∈ is, ¬ P i) (x : β) :
    is.foldl (fun z i => if P i then g i else z) x = x := by
  induction is with
  | nil => rfl
  | cons i rest ih =>
    rw [List.foldl_cons, if_neg (h i (by simp))]
    exact ih fun k hk => h k (by simp [hk])

namespace Loom

open Weaving

variable {loom : Loom} {a b : Assembly} {order : List TypeId} {v w w' : Weaving} {o o' : Outcome}

/-- A table is given anew to every type of the order, and the others never had one. -/
theorem Gathers.table?_again (h : loom.Gathers a (.start a) order v o)
    (hrepeats : ∀ i ∈ order, loom.Repeats a b i) (hfaces : a.faces = b.faces)
    (h' : loom.Gathers b w order w' o') {name : String}
    (hold : w.table? name = none ∨ w.table? name = v.table? name) :
    w'.table? name = v.table? name := by
  have hname : ∀ i, (b.type? i).map (·.name) = (a.type? i).map (·.name) := by
    intro i
    have := congrArg (·[i]?) (Assembly.names_congr hfaces)
    simpa [Assembly.type?] using this.symm
  -- both runs give out the tables of the same order
  have hsteps : w'.table? name = order.foldl (fun table i =>
      if (a.type? i).map (·.name) = some name then tableOf (loom.alone a i).2 else table)
      (w.table? name) := by
    rw [h'.table?]
    apply List.foldl_ext
    intro table i hi
    rw [hname, (hrepeats i hi).table]
  have hfirst := h.table? name
  rw [hsteps]
  by_cases hsome : ∃ i ∈ order, (a.type? i).map (·.name) = some name
  · rw [hfirst]
    exact foldl_ite_congr hsome _ _
  · have hnone : ∀ i ∈ order, ¬ (a.type? i).map (·.name) = some name :=
      fun i hi hn => hsome ⟨i, hi, hn⟩
    rw [foldl_ite_of_forall_not hnone] at hfirst ⊢
    rcases hold with ht | ht
    · rw [ht, hfirst]
      rfl
    · exact ht

/-- Where each type repeats, what is gathered is gathered again, and no type changes. -/
theorem Gathers.again (h : loom.Gathers a (.start a) order v o)
    (hrepeats : ∀ i ∈ order, loom.Repeats a b i) (hfaces : a.faces = b.faces)
    (h' : loom.Gathers b w order w' o') (hw : w.assembly = b) (hlinks : w.links = [])
    (hlog : w.log = [])
    (htables : ∀ name, w.table? name = none ∨ w.table? name = v.table? name) :
    w'.assembly = b ∧ w'.links = v.links ∧ w'.log = v.log ∧ o' = o ∧
      ∀ name, w'.table? name = v.table? name := by
  refine ⟨?_, ?_, ?_, ?_, fun name => ?_⟩
  · have htypes : w'.assembly.types = b.types := by
      apply List.ext_getElem?
      intro i
      show w'.assembly.type? i = b.type? i
      rw [h'.type?, hw]
      by_cases hi : i ∈ order
      · rw [if_pos hi]
        exact (hrepeats i hi).stays
      · rw [if_neg hi]
    exact congrArg Assembly.mk htypes
  · rw [h'.links, h.links, hlinks, List.flatMap_congr fun i hi => (hrepeats i hi).links]
    rfl
  · rw [h'.log, h.log, hlog, List.flatMap_congr fun i hi => (hrepeats i hi).log]
    rfl
  · have hreports : o'.reports = o.reports := by
      rw [h'.reports, h.reports]
      exact List.filterMap_congr fun i hi => (hrepeats i hi).report
    have herrors : o'.errors = o.errors := by
      rw [h'.errors, h.errors]
      exact List.filterMap_congr fun i hi => (hrepeats i hi).error
    rw [Outcome.mk.injEq]
    exact ⟨hreports, herrors⟩
  · exact h.table?_again hrepeats hfaces h' (htables name)

/-- Weaving what was woven, from a state that has said nothing and whose tables are none or those
of the first run, ends as the first run did. -/
theorem sameRun_of_woven (hnames : a.NamesDiffer) (hunwoven : ∀ t ∈ a.types, t.Unwoven)
    (hdiffer : ∀ t ∈ a.types, t.CallsDiffer)
    (hw : w.assembly = (loom.weave (.start a)).1.assembly) (hlinks : w.links = [])
    (hlog : w.log = [])
    (htables : ∀ name, w.table? name = none ∨
      w.table? name = (loom.weave (.start a)).1.table? name) :
    SameRun (loom.weave w) (loom.weave (.start a)) := by
  rcases horder : a.hierarchyOrder with e | order
  · have hfirst := weave_of_error loom (w := .start a) horder
    rw [hfirst] at hw htables ⊢
    have hsecond := weave_of_error loom (w := w) (e := e)
      (by rw [hw]; exact horder)
    rw [hsecond]
    refine ⟨hw, rfl, fun name => ?_, ?_⟩
    · rcases htables name with ht | ht
      · exact ht
      · exact ht
    · show w.log ++ _ = [] ++ _
      rw [hlog]
  · obtain ⟨v, o, failures, b, h⟩ :=
      loom.finished_of_order horder hnames fun t ht => (hunwoven t ht).fresh
    rw [h.result] at hw htables ⊢
    have hfaces := h.faces_eq
    -- each type alone does what it did before, so the second run gathers what the first one did
    have hrepeats : ∀ i ∈ order, loom.Repeats a b i := by
      intro i hi
      obtain ⟨t, above, F, ht, hab, hF, hrelinked⟩ := h.type? hi
      have hmem : t ∈ a.types := List.mem_of_getElem? ht
      exact repeats_alone ht hab (hunwoven t hmem) (hdiffer t hmem) hfaces hF hrelinked
    have hb : w.assembly = b := hw
    have horderb : w.assembly.hierarchyOrder = .ok order := by
      rw [hb, ← Assembly.hierarchyOrder_congr hfaces, horder]
    obtain ⟨v', o', h', hsecond⟩ := loom.weave_of_order horderb
    rw [hb] at h'
    obtain ⟨hassembly, hlinks', hlog', rfl, htable⟩ :=
      h.gathers.again hrepeats hfaces h' hb hlinks hlog htables
    have hsettled' : List.Forall₂ (fun link failure => link.SettledIn v'.assembly failure) v.links
        failures := by
      rw [hassembly]
      exact h.settled
    have hagain := LogicLink.followAll_again (w := { v' with links := [] }) hsettled'
    have hbases' : v'.linkBases = _ := (congrArg _ hlinks').trans hagain
    rw [hbases'] at hsecond
    rw [hsecond]
    refine ⟨hassembly, rfl, htable, ?_⟩
    show v'.log ++ _ = v.log ++ _
    rw [hlog']

/-- Weaving is idempotent.  Weaving a woven assembly again, in the state that was left with
nothing said or anew, ends as the first run did and changes nothing. -/
theorem weave_again (loom : Loom) (a : Assembly) (hnames : a.NamesDiffer)
    (hunwoven : ∀ t ∈ a.types, t.Unwoven) (hdiffer : ∀ t ∈ a.types, t.CallsDiffer) :
    SameRun (loom.weave (loom.weave (.start a)).1.silent) (loom.weave (.start a)) ∧
      SameRun (loom.weave (.start (loom.weave (.start a)).1.assembly))
        (loom.weave (.start a)) := by
  constructor
  · refine sameRun_of_woven hnames hunwoven hdiffer rfl ?_ rfl fun _ => .inr rfl
    show (loom.weave (.start a)).1.links = []
    rcases loom.weave_cases (.start a) with ⟨e, -, h⟩ | ⟨order, v, o, -, -, h⟩
    · rw [h]
      rfl
    · rw [h]
      exact LogicLink.links_followAll v.links _
  · exact sameRun_of_woven hnames hunwoven hdiffer rfl rfl rfl fun _ => .inl rfl

/-- The chain of two types is woven as before when it is woven again. -/
theorem weave_again_chain :
    Sample.chain.NamesDiffer ∧ (∀ t ∈ Sample.chain.types, t.Unwoven) ∧
    (∀ t ∈ Sample.chain.types, t.CallsDiffer) ∧
    SameRun (Sample.loom.weave (Sample.loom.weave (.start Sample.chain)).1.silent)
      (Sample.loom.weave (.start Sample.chain)) :=
  ⟨by decide, by decide, by decide,
    (weave_again Sample.loom Sample.chain (by decide) (by decide) (by decide)).1⟩

end Loom

/-! ### Calls that do not differ -/

namespace Sample

/-- A call that sends its argument along. -/
def ping : Procedure :=
  { Procedure.declare "Ping" with
    parameters := [.plain "who" .connection]
    attributes := [⟨"ServerRpc", []⟩]
    body := some (.recording "app::first" 1) }

/-- A call of the same signature whose argument is the caller. -/
def pong : Procedure :=
  { ping with
    parameters := [⟨"who", .connection, true, false⟩]
    body := some (.recording "app::second" 1) }

/-- A type with both calls. -/
def twins : Assembly := ⟨[⟨"Twins", none, [ping, pong]⟩]⟩

/-- A weaver whose codec promises and writes connections, but cannot read them. -/
def boaster : Loom := ⟨.ofLists [.connection] [.connection] [], .default⟩

end Sample

/-- Of two calls of one signature, the first is refused its reader in the first run and finds
that of the second call in the second run. -/
theorem Loom.weave_again_twins :
    Sample.twins.NamesDiffer ∧ (∀ t ∈ Sample.twins.types, t.Unwoven) ∧
    ¬ SameRun (Sample.boaster.weave (Sample.boaster.weave (.start Sample.twins)).1.silent)
      (Sample.boaster.weave (.start Sample.twins)) := by
  refine ⟨by decide, by decide, fun h => ?_⟩
  have hreports := congrArg (fun o => o.reports.map (·.registrations.length)) h.outcome
  exact absurd hreports (by decide +kernel)

end RpcLoom
