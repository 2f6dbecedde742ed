/-
RpcLoom/Proofs/Atomicity.lean

A type is woven whole, or it stays as it is.

Design.  After the first change to a type, weaving it goes on looking things up:
a call that is to be cleared, the logic and the receivers that have just been
brought in.  `weaveTypeChecked` lets each of these look-ups fail, and then stops
with the type as far as it has come.  None of them ever fails, whatever the type
holds beforehand (`weaveTypeChecked_eq`), since the turn of a call leaves behind
what is looked up after it.  So a type fails before its first change, and a type
whose ancestors are known fails only for want of ids (`weaveTypeChecked_atomic`).
Calls above a type are counted up to the largest id, and so the type may be woven
where they are more than that (`quota_missed_legion`).
-/
import RpcLoom.Proofs.ErrorLog

namespace RpcLoom

/-! ### Weaving that looks before it goes on -/

/-- What receives the calls of one kind, or what to say if nothing does. -/
def Triad.handlerChecked (triad : Triad) (c : Contract) (kind : Kind) :
    Except SynthesisError Handler :=
  match triad.reader? kind with
  | some stub => .ok ⟨kind, stub.id, stub.ref, c.policy kind⟩
  | none => .error (.incompleteTriad triad.logicRef.name kind.tag)

/-- The registration of a procedure under an id, or what to say if a kind has no receiver. -/
def Registration.checked (id : RpcId) (procedure : ProcedureId) (c : Contract) (triad : Triad) :
    Except SynthesisError Registration := do
  let handlers ← c.kinds.toList.mapM (triad.handlerChecked c)
  .ok ⟨id, procedure, c.kinds, c.runLocally, handlers⟩

/-- The link of a woven procedure, if its logic is virtual, or what to say if one of them is not
there. -/
def TypeDef.linkChecked (t : TypeDef) (id logic : ProcedureId) :
    Except DeclError (Option LogicLink) := do
  let l ← t.procedure logic
  if l.isVirtual then
    let p ← t.procedure id
    .ok (some ⟨t.name, logic, p.signature⟩)
  else
    .ok none

namespace Loom

/-- Weaves one remote call, and stops where something is not there. -/
def weaveNextChecked (loom : Loom) (id : ProcedureId) (c : Contract) :
    EStateM WeaveError TypeWeaving Unit := fun w =>
  match loom.weaveProcedure w.type id c w.counter.next with
  | (log, .error e t) =>
    match t.procedure id with
    | .error cause => .error (.declaration cause) { w with type := t, log := w.log ++ log }
    | .ok _ =>
      .ok ()
        { w with
          type := t.modify id (·.withBody .justLeave)
          errors := w.errors ++ [.synthesis e]
          log := w.log ++ log ++ Log.error e.message }
  | (log, .ok triad t) =>
    let (rpcId, counter) := w.counter.assign
    let w := { w with type := t, counter, log := w.log ++ log }
    match t.linkChecked id triad.logic with
    | .error cause => .error (.declaration cause) w
    | .ok link? =>
      let w := { w with links := w.links ++ link?.toList }
      match Registration.checked rpcId id c triad with
      | .error cause => .error (.synthesis cause) w
      | .ok r => .ok () { w with registrations := w.registrations ++ [r] }

/-- Weaves remote calls one by one, and stops where something is not there. -/
def weaveAllChecked (loom : Loom) (cs : List (ProcedureId × Contract)) :
    EStateM WeaveError TypeWeaving Unit :=
  cs.forM fun (id, c) => loom.weaveNextChecked id c

end Loom

/-- The state of weaving with a type as far as it has come. -/
def Weaving.taking (w : Weaving) (i : TypeId) (v : TypeWeaving) : Weaving :=
  v.links.foldl addLink { w with assembly := w.assembly.set i v.type }

namespace Loom

/-- Weaves a type known by its position and its definition, and stops where something is not
there; what was changed by then stays changed. -/
def weaveKnownTypeChecked (loom : Loom) (w : Weaving) (i : TypeId) (t : TypeDef)
    (counter : IdCounter) : Weaving × Except WeaveError TypeReport :=
  let contracts := t.contracts loom.codec
  let start := loom.beginType t counter
  if counter.fits contracts.length then
    match loom.weaveAllChecked contracts start with
    | .error e v => (((w.taking i v).say v.log).say (Log.error e.message), .error e)
    | .ok () v => (((w.taking i v).setTable t.name v.table).say v.log, .ok v.report)
  else
    let required := counter.next.addCapped (.ofCount contracts.length)
    let e := .quotaExceeded t.name required counter.ceiling
    (((w.dropTable t.name).say start.log).say (Log.error e.message), .error e)

/-- Weaves one type, and stops where something is not there. -/
def weaveTypeChecked (loom : Loom) (w : Weaving) (i : TypeId) :
    Weaving × Except WeaveError TypeReport :=
  let found := do
    let counter ← IdCounter.ofAncestors w.assembly i loom.settings.allowance
    let t ← w.assembly.type i
    .ok (t, counter)
  match found with
  | .error e => (w.say (Log.error e.message), .error (.declaration e))
  | .ok (t, counter) => loom.weaveKnownTypeChecked w i t counter

end Loom

/-! ### Nothing is missing -/

/-- A triad with a receiver for every kind is registered. -/
theorem Registration.checked_eq {c : Contract} {triad : Triad}
    (h : ∀ kind ∈ c.kinds.toList, ∃ stub, triad.reader? kind = some stub) (id : RpcId)
    (procedure : ProcedureId) :
    checked id procedure c triad = .ok (.ofTriad id procedure c triad) := by
  have hall : ∀ kinds : List Kind, (∀ kind ∈ kinds, ∃ stub, triad.reader? kind = some stub) →
      kinds.mapM (triad.handlerChecked c) = .ok (kinds.filterMap fun kind =>
        (triad.reader? kind).map fun stub => ⟨kind, stub.id, stub.ref, c.policy kind⟩) := by
    intro kinds hkinds
    induction kinds with
    | nil => rfl
    | cons kind rest ih =>
      obtain ⟨stub, hstub⟩ := hkinds kind List.mem_cons_self
      rw [List.mapM_cons, ih fun k hk => hkinds k (List.mem_cons_of_mem kind hk),
        List.filterMap_cons, hstub, Triad.handlerChecked, hstub]
      rfl
  rw [checked, hall _ h]
  rfl

/-- Where a procedure and its logic are there, so is the link. -/
theorem TypeDef.linkChecked_eq {t : TypeDef} {id logic : ProcedureId} {p l : Procedure}
    (hp : t.procedure? id = some p) (hl : t.procedure? logic = some l) :
    t.linkChecked id logic = .ok (t.logicLink? id logic) := by
  simp only [linkChecked, logicLink?, procedure, hp, hl, bind, Except.bind, Option.bind]
  split <;> rfl

namespace Loom

variable {loom : Loom} {w : TypeWeaving}

/-- The turn of a call leaves all that is looked up after it. -/
theorem weaveNextChecked_eq {id : ProcedureId} {c : Contract}
    (h : (id, c) ∈ w.type.contracts loom.codec) :
    loom.weaveNextChecked id c w = .ok () (loom.weaveNext w id c) := by
  obtain ⟨p, hp, hd, -⟩ := TypeDef.mem_contracts.mp h
  let j : Job := ⟨id, p, c, w.counter.next⟩
  rcases Job.weaveProcedure_cases loom (j := j) hp hd with
    ⟨triad, b, u, hweave, -, hleft⟩ | ⟨e, u, hweave, -, hleft⟩
  · obtain ⟨l, hl, -⟩ := hleft.installed.logic.named
    have hlink : u.linkChecked id triad.logic = .ok (u.logicLink? id triad.logic) :=
      TypeDef.linkChecked_eq hleft.here hl
    have hregister : Registration.checked w.counter.next id c triad = .ok (.ofTriad _ id c triad) :=
      Registration.checked_eq (fun _ hk => (hleft.installed.reader? hk).imp fun _ hs => hs.1) _ id
    change loom.weaveProcedure w.type id c w.counter.next = _ at hweave
    simp only [weaveNextChecked, weaveNext, hweave, hlink, hregister, IdCounter.assign]
  · have hfilled := hleft.here
    rw [TypeDef.fill, TypeDef.procedure?_modify, if_pos rfl, Option.map_eq_some_iff] at hfilled
    obtain ⟨q, hq, -⟩ := hfilled
    have hhere : u.procedure id = .ok q := by
      rw [TypeDef.procedure, show u.procedure? id = some q from hq]
    change loom.weaveProcedure w.type id c w.counter.next = _ at hweave
    simp only [weaveNextChecked, weaveNext, hweave, hhere]

theorem weaveAllChecked_eq {cs : List (ProcedureId × Contract)}
    (h : ∀ x ∈ cs, x ∈ w.type.contracts loom.codec) :
    loom.weaveAllChecked cs w = .ok () (cs.foldl (fun w (id, c) => loom.weaveNext w id c) w) := by
  induction cs generalizing w with
  | nil => rfl
  | cons x cs ih =>
    obtain ⟨id, c⟩ := x
    have hx := h (id, c) List.mem_cons_self
    -- the next calls are still calls of the type, since a turn leaves its outline as it is
    obtain ⟨j, f, rfl, rfl, hturn⟩ := turn_of_weaveNext hx
    have hsame := TypeDef.contracts_congr hturn.edits.outline_eq loom.codec
    have hrest := ih (w := loom.weaveNext w j.id j.contract)
      fun y hy => by rw [hsame]; exact h y (List.mem_cons_of_mem _ hy)
    rw [List.foldl_cons, ← hrest]
    show EStateM.bind (loom.weaveNextChecked j.id j.contract)
      (fun _ => loom.weaveAllChecked cs) w = _
    rw [EStateM.bind, weaveNextChecked_eq hx]

/-- Nothing that is looked up while a type is woven is missing, whatever the type holds. -/
theorem weaveTypeChecked_eq (loom : Loom) (w : Weaving) (i : TypeId) :
    loom.weaveTypeChecked w i = loom.weaveType w i := by
  have hknown : loom.weaveKnownTypeChecked w i = loom.weaveKnownType w i := by
    funext t counter
    have hall : loom.weaveAllChecked (t.contracts loom.codec) (loom.beginType t counter) = _ :=
      weaveAllChecked_eq fun _ hx => hx
    rw [weaveKnownTypeChecked, weaveKnownType, weaveTypeDef]
    by_cases hfits : counter.fits (t.contracts loom.codec).length = true
    · simp only [hall, if_pos hfits]
      rfl
    · simp only [if_neg hfits]
  rw [weaveTypeChecked, hknown]
  rfl

end Loom

/-! ### A type that fails -/

namespace Loom

open Weaving

variable {w : Weaving} {i : TypeId} {t : TypeDef} {above : List TypeId}

/-- A type that fails stays as it is, and so does all that is kept of the others. -/
theorem weaveType_of_error {loom : Loom} {e : WeaveError}
    (h : (loom.weaveType w i).2 = .error e) :
    (loom.weaveType w i).1.assembly = w.assembly ∧ (loom.weaveType w i).1.links = w.links ∧
      ∀ name, (∀ t, w.assembly.type? i = some t → t.name ≠ name) →
        (loom.weaveType w i).1.table? name = w.table? name := by
  cases hab : w.assembly.ancestors i with
  | error cause =>
    rw [weaveType_of_unknown loom hab]
    exact ⟨rfl, rfl, fun _ _ => rfl⟩
  | ok above =>
    obtain ⟨t, ht, -, -⟩ := Assembly.of_ancestors hab
    obtain ⟨w', hweave, habsorbs⟩ := weaveType_eq loom ht hab
    rw [hweave] at h ⊢
    cases halone : (loom.alone w.assembly i).2 with
    | ok v =>
      rw [halone] at h
      cases h
    | error cause =>
      refine ⟨?_, ?_, fun name hname => ?_⟩
      · rw [habsorbs.assembly, halone]
        exact Assembly.set_self ht
      · rw [habsorbs.links, halone]
        rfl
      · rw [habsorbs.table?, if_neg (hname t ht)]

/-- How many ids a type and the types above it need. -/
def needs (loom : Loom) (a : Assembly) (t : TypeDef) (above : List TypeId) : Nat :=
  (above.map a.idsOf).sum + (t.contracts loom.codec).length

/-- Whether a type and the types above it need too many ids.  Those above are counted up to the
largest id only, so alone they never need more than the largest allowance. -/
def Overruns (loom : Loom) (a : Assembly) (t : TypeDef) (above : List TypeId) : Prop :=
  loom.settings.allowance.toNat <
    min (above.map a.idsOf).sum 4294967295 + (t.contracts loom.codec).length

/-- Up to the largest id, and for every other allowance, what is needed decides. -/
theorem overruns_iff {loom : Loom} {a : Assembly}
    (h : (above.map a.idsOf).sum ≤ 4294967295 ∨ loom.settings.allowance ≠ 4294967295) :
    loom.Overruns a t above ↔ loom.settings.allowance.toNat < loom.needs a t above := by
  have hlt := loom.settings.allowance.toNat_lt
  have hmax : loom.settings.allowance ≠ 4294967295 →
      loom.settings.allowance.toNat ≠ 4294967295 := fun hne heq => hne (UInt32.toNat_inj.mp heq)
  rw [Overruns, needs]
  rcases h with h | h
  · omega
  · have := hmax h
    omega

/-- A type whose ancestors are known fails for want of ids, and then has no table; or it does not
fail. -/
theorem weaveType_of_known (loom : Loom) (ht : w.assembly.type? i = some t)
    (hab : w.assembly.ancestors i = .ok above) :
    (loom.Overruns w.assembly t above ∧ (loom.weaveType w i).1.table? t.name = none ∧
      ∃ required : UInt32, required.toNat = min (loom.needs w.assembly t above) 4294967295 ∧
        (loom.weaveType w i).2 =
          .error (.quotaExceeded t.name required loom.settings.allowance)) ∨
    (¬ loom.Overruns w.assembly t above ∧ ∃ report, (loom.weaveType w i).2 = .ok report) := by
  obtain ⟨w', hweave, habsorbs⟩ := weaveType_eq loom ht hab
  obtain ⟨counter, hc⟩ := Assembly.ofAncestors_of_ancestors hab loom.settings.allowance
  obtain ⟨above', hab', hceiling, hnext⟩ := Assembly.of_ofAncestors hc
  obtain rfl := Except.ok.inj (hab.symm.trans hab')
  have hfits : counter.fits (t.contracts loom.codec).length = true ↔
      ¬ loom.Overruns w.assembly t above := by
    rw [IdCounter.fits, decide_eq_true_iff, hnext, hceiling, Overruns, Nat.not_lt]
  have halone := alone_eq ht hc
  rw [weaveTypeDef] at halone
  rw [hweave]
  by_cases h : counter.fits (t.contracts loom.codec).length = true
  · rw [if_pos h] at halone
    rw [halone]
    exact .inr ⟨hfits.mp h, _, rfl⟩
  · rw [if_neg h] at halone
    rw [halone] at habsorbs ⊢
    refine .inl ⟨not_not.mp (mt hfits.mpr h), ?_,
      counter.next.addCapped (.ofCount (t.contracts loom.codec).length), ?_, ?_⟩
    · rw [habsorbs.table?, if_pos rfl]
      rfl
    · rw [RpcId.addCapped, Assembly.toNat_ofCount, Assembly.toNat_ofCount, hnext, needs]
      omega
    · rw [← hceiling]
      rfl

/-- Whether a type is given back as needing too many ids. -/
def ExceedsQuota (loom : Loom) (w : Weaving) (i : TypeId) (t : TypeDef) : Prop :=
  ∃ required, (loom.weaveTypeChecked w i).2 =
    .error (.quotaExceeded t.name required loom.settings.allowance)

/-- A type that fails is not woven at all: no type changes, no link is kept, and no other type gets
another table.  A type whose ancestors are all declared, and none of them itself, fails exactly if
it and they need more ids than they may use; then it has no table. -/
theorem weaveTypeChecked_atomic (loom : Loom) (w : Weaving) (i : TypeId) :
    (∀ e, (loom.weaveTypeChecked w i).2 = .error e →
      (loom.weaveTypeChecked w i).1.assembly = w.assembly ∧
      (loom.weaveTypeChecked w i).1.links = w.links ∧
      ∀ name, (∀ t, w.assembly.type? i = some t → t.name ≠ name) →
        (loom.weaveTypeChecked w i).1.table? name = w.table? name) ∧
    ∀ t above, w.assembly.type? i = some t → w.assembly.Above t above →
      (loom.ExceedsQuota w i t ↔ loom.Overruns w.assembly t above) ∧
      ((above.map w.assembly.idsOf).sum ≤ 4294967295 ∨ loom.settings.allowance ≠ 4294967295 →
        (loom.ExceedsQuota w i t ↔
          loom.settings.allowance.toNat < loom.needs w.assembly t above)) ∧
      (loom.ExceedsQuota w i t → (loom.weaveTypeChecked w i).1.table? t.name = none) ∧
      (¬ loom.ExceedsQuota w i t → ∃ report, (loom.weaveTypeChecked w i).2 = .ok report) := by
  simp only [ExceedsQuota, weaveTypeChecked_eq]
  refine ⟨fun e => weaveType_of_error, fun t above ht habove => ?_⟩
  have hab := Assembly.ancestors_eq_ok_iff.mpr ⟨t, ht, habove⟩
  rcases weaveType_of_known loom ht hab with ⟨hover, htable, required, -, herror⟩ |
    ⟨hfits, report, hok⟩
  · have hfails : ∃ required, (loom.weaveType w i).2 =
        .error (.quotaExceeded t.name required loom.settings.allowance) := ⟨required, herror⟩
    exact ⟨iff_of_true hfails hover, fun h => iff_of_true hfails ((overruns_iff h).mp hover),
      fun _ => htable, fun h => absurd hfails h⟩
  · have hwoven : ¬ ∃ required, (loom.weaveType w i).2 =
        .error (.quotaExceeded t.name required loom.settings.allowance) := by
      rintro ⟨required, herror⟩
      cases hok.symm.trans herror
    exact ⟨iff_of_false hwoven hfits, fun h => iff_of_false hwoven (mt (overruns_iff h).mpr hfits),
      fun h => absurd h hwoven, fun _ => ⟨report, hok⟩⟩

end Loom

/-! ### A type woven before -/

namespace Sample

/-- The crowd after it has been woven by a weaver with ids enough. -/
def wovenCrowd : Weaving := (loom.weave (.start crowd)).1

end Sample

/-- Woven again by a weaver with a single id, the crowd keeps all its procedures and loses its
table. -/
theorem Loom.weaveTypeChecked_atomic_crowd :
    (Sample.wovenCrowd.table? "Crowd").isSome = true ∧
    (∃ t, Sample.wovenCrowd.assembly.type? 0 = some t ∧ Sample.wovenCrowd.assembly.Above t [] ∧
      t.name = "Crowd" ∧ Sample.miser.ExceedsQuota Sample.wovenCrowd 0 t) ∧
    (Sample.miser.weaveTypeChecked Sample.wovenCrowd 0).1.assembly = Sample.wovenCrowd.assembly ∧
    (Sample.miser.weaveTypeChecked Sample.wovenCrowd 0).1.table? "Crowd" = none := by
  obtain ⟨hkeeps, hfails⟩ := Loom.weaveTypeChecked_atomic Sample.miser Sample.wovenCrowd 0
  have ht : ∃ t, Sample.wovenCrowd.assembly.type? 0 = some t ∧ t.base = none ∧
      t.name = "Crowd" ∧ Sample.miser.Overruns Sample.wovenCrowd.assembly t [] := by
    refine ⟨_, rfl, ?_⟩
    unfold Loom.Overruns
    decide +kernel
  obtain ⟨t, ht, hroot, hname, hover⟩ := ht
  have habove : Sample.wovenCrowd.assembly.Above t [] := .root hroot
  obtain ⟨hiff, -, htable, -⟩ := hfails t [] ht habove
  have hquota := hiff.mpr hover
  have ⟨required, herror⟩ := hquota
  refine ⟨by decide +kernel, ⟨t, ht, habove, hname, hquota⟩, (hkeeps _ herror).1, ?_⟩
  rw [← hname]
  exact htable hquota

/-! ### More calls than ids -/

namespace Sample

/-- A remote call with a name of so many letters. -/
def recruit (n : Nat) : Procedure :=
  { Procedure.declare (.ofList (List.replicate n 'r')) with attributes := [⟨"ServerRpc", []⟩] }

/-- A type without calls that derives from the legion. -/
def camp : TypeDef := ⟨"Camp", some "Legion", []⟩

/-- A type with so many remote calls, and the camp. -/
def legion (n : Nat) : Assembly := ⟨[⟨"Legion", none, (List.range n).map recruit⟩, camp]⟩

/-- A weaver that hands out all ids there are. -/
def spender : Loom := ⟨.standard, { Settings.default with allowance := 4294967295 }⟩

/-- The calls of the legion are as different as types want them to be. -/
theorem legion_differ (n : Nat) :
    ∀ t ∈ (legion n).types, t.Fresh ∧ (t.procedures.map (·.signature)).Nodup := by
  have hrecruits : (((List.range n).map recruit).map (·.signature)).Nodup := by
    rw [List.map_map]
    refine List.nodup_range.map_on fun i _ j _ h => ?_
    have hname : List.replicate i 'r' = List.replicate j 'r' :=
      String.ofList_injective (congrArg Signature.name h)
    simpa using congrArg List.length hname
  intro t ht
  obtain rfl | rfl : t = _ ∨ t = _ := by simpa [legion] using ht
  · refine ⟨fun i p hp => ?_, hrecruits⟩
    obtain ⟨k, -, rfl⟩ := List.mem_map.mp (List.mem_of_getElem? hp)
    rfl
  · exact ⟨fun i p hp => (by cases hp), List.nodup_nil⟩

theorem above_camp (n : Nat) : (legion n).Above camp [0] :=
  .derived rfl rfl rfl (.root rfl)

theorem idsOf_legion (n : Nat) : ([0].map (legion n).idsOf).sum = n := by
  have hall : ∀ p ∈ (List.range n).map recruit, (p.isDeclared && p.isRemote) = true := by
    intro p hp
    obtain ⟨k, -, rfl⟩ := List.mem_map.mp hp
    rfl
  rw [List.map_singleton, List.sum_singleton]
  show ((List.range n).map recruit).countP _ = n
  rw [List.countP_eq_length.mpr hall, List.length_map, List.length_range]

end Sample

open Sample in
/-- With one call more than there are ids, the camp and the legion need more of them than they may
use, and the camp is woven all the same: calls above a type are counted up to the largest id. -/
theorem Loom.quota_missed_legion :
    (∀ t ∈ (legion 4294967296).types, t.Fresh ∧ (t.procedures.map (·.signature)).Nodup) ∧
    (legion 4294967296).type? 1 = some camp ∧ (legion 4294967296).Above camp [0] ∧
    spender.settings.allowance.toNat < spender.needs (legion 4294967296) camp [0] ∧
    ¬ spender.ExceedsQuota (.start (legion 4294967296)) 1 camp := by
  have habove := above_camp 4294967296
  refine ⟨legion_differ _, rfl, habove, ?_, ?_⟩
  · rw [needs, idsOf_legion]
    decide
  · rintro ⟨required, herror⟩
    have hab : (legion 4294967296).ancestors 1 = .ok [0] :=
      Assembly.ancestors_eq_ok_iff.mpr ⟨camp, rfl, habove⟩
    rw [weaveTypeChecked_eq] at herror
    rcases weaveType_of_known (w := .start (legion 4294967296)) spender rfl hab with
      ⟨hover, -⟩ | ⟨-, report, hok⟩
    · -- the calls above count for no more than the largest id
      have hcontracts : camp.contracts spender.codec = [] := rfl
      have hceiling : spender.settings.allowance.toNat = 4294967295 := rfl
      rw [Overruns, hcontracts, hceiling, List.length_nil] at hover
      omega
    · cases hok.symm.trans herror

end RpcLoom
