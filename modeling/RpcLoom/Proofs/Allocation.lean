/-
RpcLoom/Proofs/Allocation.lean

Ids go to the remote calls of a hierarchy without gaps and without conflict.

Design.  The ids of a type are counted turn by turn from the counter it begins
with (`Turns.ids`).  That counter stands behind every id the types above may
need, so the ids of a type and of a type above it are disjoint, whatever failed
in either.  Each annotated procedure is registered or has an error, which is that
of its contract or that of its turn (`Fates`), and the table holds an entry for
each registration and each of its kinds.

Nothing is assumed of the weaver or of what was woven before; only that no two
types share their name.
-/
import RpcLoom.Proofs.TableEntries
import RpcLoom.Proofs.Following

namespace RpcLoom

/-! ### What is claimed of a report -/

/-- A registration says how a procedure of a type is called. -/
def Registration.Serves (r : Registration) (codec : Codec) (t : TypeDef) : Prop :=
  ∃ p c, t.procedure? r.procedure = some p ∧ p.isDeclared = true ∧
    p.contract? codec = .ok (some c) ∧ r.kinds = c.kinds ∧ r.runLocally = c.runLocally ∧
    r.handlers.map (fun h => (h.kind, h.readerRef, h.policy)) =
      c.kinds.toList.map fun kind =>
        (kind, (⟨.reader kind, p.signature⟩ : SynthKey).ref t.name, c.policy kind)

/-- The turn of an annotated procedure of a type fails for a cause, after the turns of those that
are declared before it. -/
def Loom.TurnFails (loom : Loom) (t : TypeDef) (id : ProcedureId) (cause : SynthesisError) : Prop :=
  ∃ counter before after w w' j,
    t.contracts loom.codec =
      before.map (fun x => (x.1.id, x.1.contract)) ++ (id, j.contract) :: after ∧
    Turns loom (loom.beginType t counter) before w ∧ j.id = id ∧ Turn loom w j (.cleared cause) w'

/-- Every annotated procedure of a type is registered or has one error, and nothing else is.
Registrations are in the order of declaration; whoever breaks a rule has that as the error, and
other errors are of procedures whose turn failed. -/
def TypeReport.Accounts (r : TypeReport) (loom : Loom) (t : TypeDef) : Prop :=
  ∃ fates : List (ProcedureId × Option WeaveError),
    fates.map (·.1) = t.remotes.map (·.1) ∧
    r.registrations.map (·.procedure) = (fates.filter (·.2.isNone)).map (·.1) ∧
    r.errors.Perm (fates.filterMap (·.2)) ∧
    (∀ id p rejection, (id, p) ∈ t.remotes → p.contract? loom.codec = .error rejection →
      (id, some (.rejection rejection)) ∈ fates) ∧
    ∀ id e, (id, some e) ∈ fates →
      (∃ p rejection, (id, p) ∈ t.remotes ∧ p.contract? loom.codec = .error rejection ∧
        e = .rejection rejection) ∨
      ∃ cause, loom.TurnFails t id cause ∧ e = .synthesis cause

/-! ### Turn by turn -/

section

variable {loom : Loom} {w w' : TypeWeaving} {turns : List (Job × Fate)} {j : Job} {f : Fate}

theorem IdCounter.toNat_next_assign {c : IdCounter} (h : c.next.toNat + 1 < UInt32.size) :
    c.assign.2.next.toNat = c.next.toNat + 1 :=
  toNat_add_one_of_lt h

/-- Ids are handed out one after the other. -/
theorem Turns.ids (h : Turns loom w turns w')
    (hroom : w.counter.next.toNat + turns.length < UInt32.size) {n : Nat} {r : Registration}
    (hr : (turns.filterMap fun x => x.2.registration? x.1)[n]? = some r) :
    r.id.toNat = w.counter.next.toNat + n := by
  induction h generalizing n with
  | nil => cases hr
  | @cons w w₁ w₂ j f rest hturn _ ih =>
    rw [List.length_cons] at hroom
    have hafter := hturn.after
    cases f with
    | woven triad b =>
      have hnext : w₁.counter.next.toNat = w.counter.next.toNat + 1 := by
        rw [hafter]
        exact IdCounter.toNat_next_assign (by omega)
      cases n with
      | zero =>
        obtain rfl : Registration.ofTriad j.rpcId j.id j.contract triad = r := by
          simpa [Fate.registration?] using hr
        show j.rpcId.toNat = _
        rw [hturn.next, Nat.add_zero]
      | succ n =>
        have := ih (by omega) (n := n) (by simpa [Fate.registration?] using hr)
        omega
    | cleared e =>
      have hnext : w₁.counter = w.counter := by rw [hafter]; rfl
      rw [← hnext] at hroom ⊢
      exact ih (by omega) (by simpa [Fate.registration?] using hr)

/-- The handlers of a registration are those of the contract. -/
theorem Job.Installed.handlers {t : TypeDef} {triad : Triad} (h : j.Installed loom t triad) :
    (Registration.ofTriad j.rpcId j.id j.contract triad).handlers.map
        (fun h => (h.kind, h.readerRef, h.policy)) =
      j.contract.kinds.toList.map fun kind =>
        (kind, (j.key (.reader kind)).ref t.name, j.contract.policy kind) := by
  have hall : ∀ kinds : List Kind, (∀ kind ∈ kinds, kind ∈ j.contract.kinds.toList) →
      (kinds.filterMap fun kind => (triad.reader? kind).map fun stub =>
        (⟨kind, stub.id, stub.ref, j.contract.policy kind⟩ : Handler)).map
          (fun h => (h.kind, h.readerRef, h.policy)) =
        kinds.map fun kind =>
          (kind, (j.key (.reader kind)).ref t.name, j.contract.policy kind) := by
    intro kinds
    induction kinds with
    | nil => intro _; rfl
    | cons kind kinds ih =>
      intro hmem
      obtain ⟨s, hs, hreader⟩ := h.reader? (hmem kind (by simp))
      rw [List.filterMap_cons_some (by rw [hs]; rfl), List.map_cons, List.map_cons,
        ih fun k hk => hmem k (by simp [hk]), ← hreader.ref]
  exact hall _ fun _ hk => hk

/-- Every registration serves its procedure as that was before the first turn. -/
theorem Turns.serves (h : Turns loom w turns w') (hids : (turns.map (·.1.id)).Nodup)
    {r : Registration} (hr : r ∈ turns.filterMap fun x => x.2.registration? x.1) :
    r.Serves loom.codec w.type := by
  obtain ⟨x, hx, hreg⟩ := List.mem_filterMap.mp hr
  obtain ⟨hd, hc⟩ := h.declared hx
  have hhere := h.served_eq hids hx
  have hhandlers : r.handlers.map (fun h => (h.kind, h.readerRef, h.policy)) =
      x.1.contract.kinds.toList.map fun kind =>
        (kind, (x.1.key (.reader kind)).ref w.type.name, x.1.contract.policy kind) := by
    -- handlers are of the turn alone, so the induction is on the turns before it
    clear hids hhere hr hd hc
    induction h with
    | nil => cases hx
    | @cons w w₁ w₂ j f rest hturn hrest ih =>
      rcases List.mem_cons.mp hx with rfl | hx
      · cases f with
        | cleared e => cases hreg
        | woven triad b =>
          obtain rfl := Option.some.inj hreg
          rw [← hturn.edits.name_eq]
          exact hturn.left.installed.handlers
      · rw [← hturn.edits.name_eq]
        exact ih hx
  rcases hf : x.2 with ⟨triad, b⟩ | e
  · rw [hf] at hreg
    obtain rfl := Option.some.inj hreg
    exact ⟨x.1.served, x.1.contract, hhere, hd, hc, rfl, rfl, hhandlers⟩
  · rw [hf] at hreg
    cases hreg

/-! ### Nothing is lost -/

/-- What became of each of some annotated procedures: nothing that is said, or an error.  Some of
them break a rule, and the others had a turn. -/
structure Fates (codec : Codec) (remotes : List (ProcedureId × Procedure))
    (turns : List (Job × Fate)) (fates : List (ProcedureId × Option WeaveError)) : Prop where
  ids : fates.map (·.1) = remotes.map (·.1)
  registered : (turns.filterMap fun x => x.2.registration? x.1).map (·.procedure) =
    (fates.filter (·.2.isNone)).map (·.1)
  errors : ((remotes.filterMap fun x => x.2.breaks? codec).map WeaveError.rejection ++
    turns.filterMap fun x => x.2.error?).Perm (fates.filterMap (·.2))
  rejected : ∀ id p rejection, (id, p) ∈ remotes → p.contract? codec = .error rejection →
    (id, some (.rejection rejection)) ∈ fates
  failed : ∀ id e, (id, some e) ∈ fates →
    (∃ p rejection, (id, p) ∈ remotes ∧ p.contract? codec = .error rejection ∧
      e = .rejection rejection) ∨
    ∃ x ∈ turns, x.1.id = id ∧ x.2.error? = some e

namespace Fates

variable {codec : Codec} {remotes : List (ProcedureId × Procedure)} {id : ProcedureId}
  {p : Procedure} {fates : List (ProcedureId × Option WeaveError)}

/-- A procedure that breaks a rule has no turn. -/
theorem reject (h : Fates codec remotes turns fates) {r : Rejection}
    (hc : p.contract? codec = .error r) :
    Fates codec ((id, p) :: remotes) turns ((id, some (.rejection r)) :: fates) where
  ids := by simp [h.ids]
  registered := by simpa using h.registered
  errors := by
    rw [List.filterMap_cons_some (b := r) (by simp [Procedure.breaks?, hc])]
    exact h.errors.cons _
  rejected := by
    intro i q rej hmem hrej
    rcases List.mem_cons.mp hmem with he | hmem
    · obtain ⟨rfl, rfl⟩ := Prod.mk.inj he
      rw [hc] at hrej
      cases hrej
      exact List.mem_cons_self
    · exact List.mem_cons_of_mem _ (h.rejected i q rej hmem hrej)
  failed := by
    intro i e hmem
    rcases List.mem_cons.mp hmem with he | hmem
    · obtain ⟨rfl, hfate⟩ := Prod.mk.inj he
      exact .inl ⟨p, r, List.mem_cons_self, hc, Option.some.inj hfate⟩
    · refine (h.failed i e hmem).imp_left ?_
      rintro ⟨q, rej, hq, hrej⟩
      exact ⟨q, rej, List.mem_cons_of_mem _ hq, hrej⟩

/-- A procedure with a contract has its own turn, with its own fate. -/
theorem take (h : Fates codec remotes turns fates) (f : Fate)
    (hc : p.contract? codec = .ok (some j.contract)) :
    Fates codec ((j.id, p) :: remotes) ((j, f) :: turns) ((j.id, f.error?) :: fates) where
  ids := by simp [h.ids]
  registered := by
    cases f with
    | woven triad b => exact congrArg (j.id :: ·) h.registered
    | cleared e => exact h.registered
  errors := by
    rw [List.filterMap_cons_none (by simp [Procedure.breaks?, hc])]
    cases f with
    | woven triad b => simpa [Fate.error?] using h.errors
    | cleared e => exact List.perm_middle.trans (h.errors.cons (WeaveError.synthesis e))
  rejected := by
    intro i q rej hmem hrej
    rcases List.mem_cons.mp hmem with he | hmem
    · obtain ⟨rfl, rfl⟩ := Prod.mk.inj he
      cases hc.symm.trans hrej
    · exact List.mem_cons_of_mem _ (h.rejected i q rej hmem hrej)
  failed := by
    intro i e hmem
    rcases List.mem_cons.mp hmem with he | hmem
    · obtain ⟨rfl, hfate⟩ := Prod.mk.inj he
      exact .inr ⟨(j, f), List.mem_cons_self, rfl, hfate.symm⟩
    · refine (h.failed i e hmem).imp ?_ ?_
      · rintro ⟨q, rej, hq, hrej⟩
        exact ⟨q, rej, List.mem_cons_of_mem _ hq, hrej⟩
      · rintro ⟨x, hx, hfate⟩
        exact ⟨x, List.mem_cons_of_mem _ hx, hfate⟩

/-- Rejections and turns together account for a list of annotated procedures. -/
theorem of_turns (codec : Codec) (hremote : ∀ x ∈ remotes, x.2.isRemote = true)
    (hmap : turns.map (fun x => (x.1.id, x.1.contract)) =
      remotes.filterMap fun x => (x.2.keeps? codec).map (x.1, ·)) :
    ∃ fates, Fates codec remotes turns fates := by
  induction remotes generalizing turns with
  | nil =>
    obtain rfl : turns = [] := by simpa using hmap
    exact ⟨[], rfl, rfl, .refl _, by simp, by simp⟩
  | cons x rest ih =>
    obtain ⟨id, p⟩ := x
    have hrest : ∀ y ∈ rest, y.2.isRemote = true := fun y hy => hremote y (by simp [hy])
    rcases hc : p.contract? codec with r | _ | c
    · rw [List.filterMap_cons_none (by simp [Procedure.keeps?, hc])] at hmap
      obtain ⟨fates, h⟩ := ih hrest hmap
      exact ⟨_, h.reject hc⟩
    · exact absurd hc (Procedure.contract?_ne_ok_none (hremote (id, p) (by simp)) codec)
    · -- a contract, and the next turn is the procedure's own
      rw [List.filterMap_cons_some (b := (id, c)) (by simp [Procedure.keeps?, hc])] at hmap
      cases turns with
      | nil => cases hmap
      | cons y turns =>
        obtain ⟨j, f⟩ := y
        rw [List.map_cons] at hmap
        obtain ⟨hhead, htail⟩ := List.cons.inj hmap
        obtain ⟨rfl, rfl⟩ := Prod.mk.inj hhead
        obtain ⟨fates, h⟩ := ih hrest htail
        exact ⟨_, h.take f hc⟩

end Fates

/-! ### One type -/

/-- What is settled about the ids of one woven type, which begin at `start`. -/
structure TypeReport.Allocated (r : TypeReport) (loom : Loom) (t : TypeDef) (start : Nat)
    (table : DispatchTable) : Prop where
  name : r.typeName = t.name
  accounts : r.Accounts loom t
  ids : ∀ n reg, r.registrations[n]? = some reg → reg.id.toNat = start + n
  count : r.registrations.length ≤ t.remotes.length
  below : ∀ reg ∈ r.registrations, reg.id.toNat < loom.settings.allowance.toNat
  serves : ∀ reg ∈ r.registrations, reg.Serves loom.codec t
  entries : table.entries.Perm (r.registrations.flatMap (·.entries))
  distinct : (table.entries.map (·.1)).Nodup

/-- Registrations that are counted have different ids. -/
theorem Registration.nodup_ids {rs : List Registration} {start : Nat}
    (h : ∀ n r, rs[n]? = some r → r.id.toNat = start + n) : (rs.map (·.id)).Nodup := by
  have hcount : (rs.map (·.id)).map UInt32.toNat = List.range' start rs.length := by
    refine List.ext_getElem (by simp) fun n hn _ => ?_
    rw [List.getElem_map, List.getElem_map, List.getElem_range', Nat.one_mul]
    exact h n _ (List.getElem?_eq_getElem (by simpa using hn))
  exact List.Nodup.of_map UInt32.toNat (hcount ▸ List.nodup_range')

/-- The handlers of a registration that serves a call are for different kinds. -/
theorem Registration.Serves.nodup_kinds {r : Registration} {codec : Codec} {t : TypeDef}
    (h : r.Serves codec t) : (r.handlers.map (·.kind)).Nodup := by
  obtain ⟨p, c, -, -, -, -, -, hhandlers⟩ := h
  have hkinds := congrArg (List.map fun x => x.1) hhandlers
  rw [List.map_map, List.map_map] at hkinds
  rw [show r.handlers.map (·.kind) = c.kinds.toList by simpa [Function.comp_def] using hkinds]
  exact c.kinds.nodup_toList

/-- A turn that did not end well fails for what is given as its error. -/
theorem Turns.turnFails {t : TypeDef} {counter : IdCounter} {v : TypeWeaving}
    (h : Turns loom (loom.beginType t counter) turns v)
    (hmap : turns.map (fun x => (x.1.id, x.1.contract)) = t.contracts loom.codec)
    {x : Job × Fate} (hx : x ∈ turns) {e : WeaveError} (he : x.2.error? = some e) :
    ∃ cause, loom.TurnFails t x.1.id cause ∧ e = .synthesis cause := by
  obtain ⟨before, after, rfl⟩ := List.append_of_mem hx
  obtain ⟨w, w', hbefore, hturn, -⟩ := h.split
  rw [List.map_append, List.map_cons] at hmap
  cases hf : x.2 with
  | woven triad b =>
    rw [hf] at he
    cases he
  | cleared cause =>
    rw [hf] at he hturn
    exact ⟨cause, ⟨counter, before, _, w, w', x.1, hmap.symm, hbefore, rfl, hturn⟩,
      (Option.some.inj he).symm⟩

/-- Whatever the turns of a type come to, its report accounts for all its annotated procedures. -/
theorem Turns.accounts {t : TypeDef} {counter : IdCounter} {v : TypeWeaving}
    (h : Turns loom (loom.beginType t counter) turns v)
    (hmap : turns.map (fun x => (x.1.id, x.1.contract)) = t.contracts loom.codec) :
    v.report.Accounts loom t := by
  obtain ⟨fates, hfates⟩ := Fates.of_turns loom.codec
    (fun x hx => (List.mem_filter.mp hx).2) (hmap.trans (t.contracts_eq loom.codec))
  refine ⟨fates, hfates.ids, ?_, ?_, hfates.rejected,
    fun id e hfate => (hfates.failed id e hfate).imp_right ?_⟩
  · show v.registrations.map (·.procedure) = _
    rw [h.registrations_eq, ← hfates.registered]
    rfl
  · show v.errors.Perm _
    rw [h.errors_eq]
    show ((t.rejections loom.codec).map WeaveError.rejection ++ _).Perm _
    rw [TypeDef.rejections_eq]
    exact hfates.errors
  · rintro ⟨x, hx, rfl, he⟩
    exact h.turnFails hmap hx he

theorem TypeDef.length_contracts_le (t : TypeDef) (codec : Codec) :
    (t.contracts codec).length ≤ t.remotes.length := by
  rw [contracts_eq]
  exact List.length_filterMap_le _ _

theorem Loom.allocated_weaveTypeDef {t : TypeDef} {counter : IdCounter} {log : Log}
    {v : TypeWeaving} {start : Nat} (h : loom.weaveTypeDef t counter = (log, .ok v))
    (hstart : counter.next.toNat = min start 4294967295)
    (hceiling : counter.ceiling = loom.settings.allowance) :
    v.report.Allocated loom t start v.table := by
  obtain ⟨hfits, -, turns, hturns, hmap⟩ := turns_of_weaveTypeDef h
  have hlength : turns.length = (t.contracts loom.codec).length := by
    rw [← hmap, List.length_map]
  have hfits' : counter.next.toNat + turns.length ≤ loom.settings.allowance.toNat := by
    rw [hlength, ← hceiling]
    simpa [IdCounter.fits] using hfits
  have hmax := loom.settings.allowance.toNat_lt
  have hregs : v.registrations = turns.filterMap fun x => x.2.registration? x.1 := by
    simpa [Loom.beginType] using hturns.registrations_eq
  have hcount : v.registrations.length ≤ turns.length := hregs ▸ List.length_filterMap_le _ _
  -- the turns of a type fit under its ceiling, so its ids are counted without wrapping
  have hids : ∀ n reg, v.registrations[n]? = some reg →
      reg.id.toNat = start + n ∧ reg.id.toNat < loom.settings.allowance.toNat := by
    intro n reg hreg
    obtain ⟨hn, -⟩ := List.getElem?_eq_some_iff.mp hreg
    have hid := hturns.ids (w := loom.beginType t counter)
      (Nat.lt_of_le_of_lt hfits' hmax) (hregs ▸ hreg)
    rw [show (loom.beginType t counter).counter = counter from rfl] at hid
    omega
  have hserves : ∀ reg ∈ v.registrations, reg.Serves loom.codec t := fun reg hreg =>
    hturns.serves (Turns.nodup_ids hmap) (hregs ▸ hreg)
  have hkeys : ((v.registrations.flatMap (·.entries)).map (·.1)).Nodup :=
    DispatchTable.nodup_keys (Registration.nodup_ids fun n reg hreg => (hids n reg hreg).1)
      fun reg hreg => (hserves reg hreg).nodup_kinds
  have htable := DispatchTable.entries_ofRegistrations hkeys
  refine ⟨hturns.name_eq, hturns.accounts hmap, fun n reg hreg => (hids n reg hreg).1, ?_,
    fun reg hreg => ?_, hserves, htable, (htable.map _).nodup_iff.mpr hkeys⟩
  · exact Nat.le_trans hcount (hlength ▸ t.length_contracts_le loom.codec)
  · obtain ⟨n, hn⟩ := List.mem_iff_getElem?.mp hreg
    exact (hids n reg hn).2

end

/-! ### A whole assembly -/

/-- What is settled about a report: the type it is about, the types above, and that the ids
begin behind all ids that those may need. -/
structure TypeReport.Placed (r : TypeReport) (loom : Loom) (w w' : Weaving) (i : TypeId)
    (t : TypeDef) (above : List TypeId) : Prop where
  found : w.assembly.find? r.typeName = some i
  type : w.assembly.type? i = some t
  chain : w.assembly.ancestors i = .ok above
  kept : ∃ t', w'.assembly.type? i = some t' ∧ t'.remotes = t.remotes
  allocated : ∃ table, w'.table? r.typeName = some table ∧
    r.Allocated loom t (above.map w.assembly.idsOf).sum table

theorem Loom.placed_of_report {loom : Loom} {w : Weaving} (hnames : w.assembly.NamesDiffer)
    {r : TypeReport} (hr : r ∈ (loom.weave w).2.reports) :
    ∃ i t above, r.Placed loom w (loom.weave w).1 i t above := by
  rcases loom.weave_cases w with ⟨e, -, h⟩ | ⟨order, v, o, horder, hgather, h⟩
  · rw [h] at hr
    cases hr
  · rw [h] at hr ⊢
    obtain ⟨hnodup, hknown⟩ := Assembly.of_hierarchyOrder horder
    rw [show ({ o with errors := o.errors ++ v.linkBases.2.map .link } : Outcome).reports =
      o.reports from rfl, hgather.reports] at hr
    obtain ⟨i, hi, hreport⟩ := List.mem_filterMap.mp hr
    obtain ⟨t, above, ht, habove⟩ := hknown i hi
    obtain ⟨counter, hcounter, ⟨log, e, -, halone⟩ | ⟨log, u, hu, halone⟩⟩ :=
      Loom.alone_cases loom ht habove
    · rw [halone] at hreport
      cases hreport
    · rw [halone] at hreport
      obtain rfl := Option.some.inj hreport
      obtain ⟨above', habove', hceiling, hnext⟩ := Assembly.of_ofAncestors hcounter
      obtain rfl := Except.ok.inj (habove.symm.trans habove')
      have hallocated := Loom.allocated_weaveTypeDef hu hnext hceiling
      have hname : u.report.typeName = t.name := hallocated.name
      obtain ⟨hfaces, htables⟩ := LogicLink.faces_followAll v.links { v with links := [] }
      refine ⟨i, t, above, ⟨hname ▸ hnames.find? ht, ht, habove, ?_, u.table, ?_, hallocated⟩⟩
      · have hsame : w.assembly.faces = v.linkBases.1.assembly.faces :=
          (hfaces.trans hgather.faces).symm
        obtain ⟨hnone, -⟩ | ⟨t₁, t', ht₁, ht', hface⟩ := Assembly.type?_congr hsame i
        · cases ht.symm.trans hnone
        · obtain rfl := Option.some.inj (ht.symm.trans ht₁)
          exact ⟨t', ht', TypeDef.remotes_congr (TypeDef.face_eq_iff.mp hface).2.2.symm⟩
      · have htable := hgather.table?_eq hnodup hnames hi ht
        rw [halone] at htable
        rw [hname, ← show v.table? t.name = some u.table from htable, Weaving.table?,
          Weaving.linkBases, htables]
        rfl

/-- Weaving allocates ids: every report is placed, and no two types of one chain share an id. -/
theorem Loom.weave_allocates (loom : Loom) (w : Weaving) (hnames : w.assembly.NamesDiffer) :
    (∀ r ∈ (loom.weave w).2.reports,
      ∃ i t above, r.Placed loom w (loom.weave w).1 i t above) ∧
    ∀ r ∈ (loom.weave w).2.reports, ∀ s ∈ (loom.weave w).2.reports, ∀ i k above,
      w.assembly.find? r.typeName = some i → w.assembly.find? s.typeName = some k →
      w.assembly.ancestors i = .ok above → k ∈ above →
      ∀ x ∈ r.registrations, ∀ y ∈ s.registrations, x.id ≠ y.id := by
  refine ⟨fun r hr => placed_of_report hnames hr, ?_⟩
  intro r hr s hs i k above hi hk habove hmem x hx y hy
  obtain ⟨i', t, above', hr⟩ := placed_of_report hnames hr
  obtain ⟨k', u, aboveK, hs⟩ := placed_of_report hnames hs
  obtain rfl := Option.some.inj (hi.symm.trans hr.found)
  obtain rfl := Option.some.inj (hk.symm.trans hs.found)
  obtain rfl := Except.ok.inj (habove.symm.trans hr.chain)
  obtain ⟨_, -, hr'⟩ := hr.allocated
  obtain ⟨_, -, hs'⟩ := hs.allocated
  -- the ids of the type above lie before its own share, and the type below begins behind it
  obtain ⟨before, rfl⟩ := Assembly.ancestors_of_mem habove hmem hs.chain
  have hshare : w.assembly.idsOf k = u.remotes.length := Assembly.idsOf_eq hs.type
  obtain ⟨m, hm⟩ := List.mem_iff_getElem?.mp hx
  obtain ⟨n, hn⟩ := List.mem_iff_getElem?.mp hy
  have hxid := hr'.ids m x hm
  have hyid := hs'.ids n y hn
  have hlt : n < s.registrations.length := (List.getElem?_eq_some_iff.mp hn).1
  have hcount := hs'.count
  rw [List.map_append, List.sum_append, List.map_cons, List.sum_cons] at hxid
  intro heq
  rw [heq] at hxid
  omega

/-! ### A chain of two types -/

namespace Sample

/-- A call to the server. -/
def fire : Procedure :=
  { Procedure.declare "Fire" with
    parameters := [.plain "count" (.named "u32")]
    attributes := [⟨"ServerRpc", []⟩]
    body := some (.recording "app::fire" 1) }

/-- A call to one observer, or to all of them. -/
def announce : Procedure :=
  { Procedure.declare "Announce" with
    parameters := [.plain "target" .connection, .plain "text" (.named "String")]
    attributes := [⟨"ObserversRpc", []⟩, ⟨"TargetRpc", []⟩]
    body := some (.recording "app::announce" 2) }

/-- A type, and one that derives from it. -/
def chain : Assembly := ⟨[⟨"Unit", none, [fire]⟩, ⟨"Leader", some "Unit", [announce]⟩]⟩

/-- The usual weaver. -/
def loom : Loom := ⟨.standard, .default⟩

end Sample

/-- In the chain both types have a report, and the ids of one follow those of the other. -/
theorem Loom.weave_allocates_chain :
    (Weaving.start Sample.chain).assembly.NamesDiffer ∧
    ((Sample.loom.weave (.start Sample.chain)).2.reports.map fun r =>
      r.registrations.map (·.id)) = [[0], [1]] ∧
    ∀ r ∈ (Sample.loom.weave (.start Sample.chain)).2.reports, ∃ i t above,
      r.Placed Sample.loom (.start Sample.chain)
        (Sample.loom.weave (.start Sample.chain)).1 i t above :=
  ⟨by decide, by decide +kernel,
    (Loom.weave_allocates Sample.loom (.start Sample.chain) (by decide)).1⟩

end RpcLoom
