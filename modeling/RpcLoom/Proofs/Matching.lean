/-
RpcLoom/Proofs/Matching.lean

Runs whose turns match.

Design.  In a type that is tidy exactly the calls that have a body are woven, so
what a run does there can be read off the calls (`Ran`).  Turns match if they
are for the same call, body apart, under the same id, and end alike.  Runs that
begin at the same counter with the same calls match turn by turn (`Ran.matched`).
Whatever does not depend on bodies is then the same: ids, entries of the table,
senders and receivers.
-/
import RpcLoom.Proofs.Growth

namespace RpcLoom

/-- The turns of a tidy type in a run. -/
structure Loom.Ran (loom : Loom) (t : TypeDef) (counter : IdCounter) (turns : List (Job × Fate))
    (v : TypeWeaving) : Prop where
  went : Turns loom (loom.beginType t counter) turns v
  jobs : turns.map (fun x => (x.1.id, x.1.contract)) = t.contracts loom.codec
  tidy : t.Tidy
  honest : loom.codec.Honest

/-- The calls of a type are those it has contracts for. -/
theorem TypeDef.calls_eq (t : TypeDef) (codec : Codec) : codec.calls t.procedures =
    (t.contracts codec).filterMap fun x => (t.procedure? x.1).map (·, x.2) := by
  have hcontracts : t.contracts codec =
      t.declared.filterMap fun x => (x.2.keeps? codec).map (x.1, ·) := by
    rw [contracts]
    refine List.filterMap_congr fun x _ => ?_
    rcases hc : x.2.contract? codec with r | _ | c <;> simp [Procedure.keeps?, hc]
  have hall : ∀ (ps : List Procedure) (k : Nat),
      (∀ i p, ps[i]? = some p → t.procedure? (k + i) = some p) → codec.calls ps =
        ((((ps.zipIdx k).filter (·.1.isDeclared)).map fun x => (x.2, x.1)).filterMap
          fun x => (x.2.keeps? codec).map (x.1, ·)).filterMap
            fun x => (t.procedure? x.1).map (·, x.2) := by
    intro ps
    induction ps with
    | nil => intro k _; rfl
    | cons p ps ih =>
      intro k hps
      have hp : t.procedure? k = some p := hps 0 p rfl
      have hrest := ih (k + 1) fun i q hq => by
        rw [Nat.add_right_comm]
        exact hps (i + 1) q hq
      rw [Codec.calls] at hrest ⊢
      by_cases hd : p.isDeclared = true
      · cases hc : p.keeps? codec <;> simp [hd, hc, hp, hrest]
      · simp [hd, hrest]
  rw [hcontracts]
  exact hall t.procedures 0 fun i p hp => by rwa [Nat.zero_add]

/-- A type has as many calls as contracts. -/
theorem Codec.length_shape (codec : Codec) (t : TypeDef) :
    (codec.shape t.procedures).length = (t.contracts codec).length := by
  rw [shape, List.length_map, t.calls_eq, List.filterMap_length_eq_length]
  rintro ⟨id, c⟩ hmem
  obtain ⟨p, hp, -⟩ := TypeDef.mem_contracts.mp hmem
  rw [hp]
  rfl

namespace Loom.Ran

variable {loom : Loom} {t : TypeDef} {counter : IdCounter} {turns : List (Job × Fate)}
  {v : TypeWeaving} {x : Job × Fate} {above : List TypeDef}

theorem served_eq (h : loom.Ran t counter turns v) (hx : x ∈ turns) :
    t.procedure? x.1.id = some x.1.served :=
  h.went.served_eq (Turns.nodup_ids h.jobs) hx

theorem calls (h : loom.Ran t counter turns v) :
    turns.map (fun x => (x.1.served, x.1.contract)) = loom.codec.calls t.procedures := by
  rw [t.calls_eq, ← h.jobs, List.filterMap_map, ← List.filterMap_eq_map]
  refine List.filterMap_congr fun x hx => ?_
  show _ = (t.procedure? x.1.id).map (·, x.1.contract)
  rw [h.served_eq hx]
  rfl

/-- A call is woven if it has a body, and cleared otherwise. -/
theorem isWoven (h : loom.Ran t counter turns v) (hx : x ∈ turns) :
    x.2.isWoven = x.1.served.body.isSome := by
  obtain ⟨before, after, rfl⟩ := List.append_of_mem hx
  obtain ⟨w₁, w₂, hbefore, hturn, hafter⟩ := h.went.split
  have hc := hbefore.canonical h.tidy.canonical
  have hleft := hturn.left
  cases hf : x.2 with
  | cleared e =>
    rw [hf] at hleft
    have hunmade := hleft.stuck.unmade h.honest (Procedure.keeps_of_contract? hturn.keeps)
      (hturn.edits.canonical hc)
      ((h.tidy.free.congr hbefore.outline_eq).congr hturn.edits.outline_eq)
    rw [hunmade.2]
    rfl
  | woven triad b =>
    rw [hf] at hleft
    cases hbody : x.1.served.body with
    | some body => rfl
    | none =>
      -- the logic was made for another call of the signature, and there is none
      have hd := (h.went.declared hx).1
      obtain ⟨hnone, hlone⟩ := h.tidy.gaps _ _ (h.served_eq hx) hd hbody
      obtain ⟨p, hp, ho⟩ := TypeDef.procedure?_of_findSynthesized? hleft.installed.logic.found
      rcases h.went.madeFor h.tidy.canonical (hafter.procedure?_logic hp ho)
        (Procedure.isDeclared_of_synthesized ho) with hold | ⟨y, hy, hmade⟩
      · exact absurd ho (TypeDef.findSynthesized?_eq_none.mp hnone _ p hold)
      · obtain ⟨hsame, made, hmadeBody, -⟩ := hmade.of_logic ho
        have hid := hlone _ _ (h.served_eq hy) (h.went.declared hy).1 hsame
        have hserved := h.served_eq hy
        rw [hid, h.served_eq hx] at hserved
        rw [← Option.some.inj hserved, hbody] at hmadeBody
        cases hmadeBody

/-- Logic that is there stays, and otherwise the first call of a signature has it. -/
theorem logic (h : loom.Ran t counter turns v) (s : Signature) :
    v.type.generated? ⟨.logic, s⟩ =
      (t.generated? ⟨.logic, s⟩).or (loom.codec.logicFor? t.procedures s) := by
  rw [h.went.generated?_first h.honest h.tidy.canonical h.tidy.free fun _ => by simp,
    Codec.logicFor?, ← h.calls, List.findSome?_map]
  have hyields : turns.map (fun x => x.2.yield? loom t.name x.1 ⟨.logic, s⟩) =
      turns.map fun x => if s = x.1.served.signature then x.1.served.body.map x.1.served.logicOf
        else none := by
    refine List.map_congr_left fun x hx => ?_
    rw [Fate.yield?, h.isWoven hx, Job.yield?]
    cases hbody : x.1.served.body with
    | none => simp
    | some body => rfl
  have hfirst := congrArg (List.findSome? id) hyields
  rw [List.findSome?_map, List.findSome?_map] at hfirst
  exact congrArg (Option.or _) hfirst

theorem canonical (h : loom.Ran t counter turns v) : v.type.Canonical :=
  h.went.canonical h.tidy.canonical

/-- The logic of a signature is found by its name, and nothing else is. -/
theorem isSome_findSignature? (h : loom.Ran t counter turns v) (s : Signature) :
    (v.type.findSignature? (SynthKey.generated ⟨.logic, s⟩)).isSome =
      (v.type.generated? ⟨.logic, s⟩).isSome := by
  have hfree := h.tidy.free.congr h.went.outline_eq
  cases hi : v.type.findSynthesized? ⟨.logic, s⟩ with
  | some i =>
    obtain ⟨p, hp, -⟩ := TypeDef.procedure?_of_findSynthesized? hi
    rw [h.canonical.find hi, TypeDef.generated?_of_find hi hp]
    rfl
  | none =>
    rw [TypeDef.generated?_eq_none.mpr hi]
    cases hs : v.type.findSignature? (SynthKey.generated ⟨.logic, s⟩) with
    | none => rfl
    | some k => exact (h.canonical.not_clashes hfree _ ⟨hi, by rw [hs]; rfl⟩).elim

end Loom.Ran

/-! ### Turns that match -/

/-- Turns for the same call, body apart, under the same id, that end alike. -/
structure Matched (x y : Job × Fate) : Prop where
  heading : x.1.served.heading = y.1.served.heading
  contract : x.1.contract = y.1.contract
  rpcId : x.1.rpcId = y.1.rpcId
  isWoven : x.2.isWoven = y.2.isWoven

/-- What matching turns have for a key is the same, except for the code of logic. -/
theorem Matched.yield?_eq {x y : Job × Fate} (h : Matched x y) (loom : Loom) (owner : String)
    {key : SynthKey} (hrole : key.role ≠ .logic) :
    x.2.yield? loom owner x.1 key = y.2.yield? loom owner y.1 key := by
  obtain ⟨⟨i, p, c, id⟩, f⟩ := x
  obtain ⟨⟨k, q, c', id'⟩, g⟩ := y
  obtain ⟨hhead, rfl, rfl, hwoven⟩ := h
  obtain ⟨role, s⟩ := key
  rw [Fate.yield?, Fate.yield?, hwoven]
  cases role with
  | logic => exact absurd rfl hrole
  | reader kind | writer kind =>
    -- neither looks at the body of the call
    simp only at hhead
    rw [Procedure.eq_of_heading_eq hhead]
    rfl

theorem TypeWeaving.counter_after (w : TypeWeaving) (loom : Loom) (j : Job) (u : TypeDef)
    (f : Fate) :
    (w.after loom j u f).counter = if f.isWoven then w.counter.assign.2 else w.counter := by
  cases f <;> rfl

/-- Runs with the same counter whose turns are for the same calls and end alike match. -/
theorem Turns.matched {loom : Loom} {w w' v v' : TypeWeaving} {turns turns' : List (Job × Fate)}
    (h : Turns loom w turns v) (h' : Turns loom w' turns' v') (hcounter : w.counter = w'.counter)
    (hsame : turns.map (fun x => (x.1.served.heading, x.1.contract, x.2.isWoven)) =
      turns'.map fun x => (x.1.served.heading, x.1.contract, x.2.isWoven)) :
    List.Forall₂ Matched turns turns' := by
  induction h generalizing w' turns' with
  | nil =>
    obtain rfl := List.map_eq_nil_iff.mp hsame.symm
    exact .nil
  | @cons w w₁ w₂ j f rest hturn _ ih =>
    cases h' with
    | nil => cases hsame
    | @cons w' w₁' w₂' j' f' rest' hturn' hrest' =>
      obtain ⟨hhead, hrest⟩ := List.cons.inj hsame
      simp only [Prod.mk.injEq] at hhead
      obtain ⟨hheading, hcontract, hwoven⟩ := hhead
      refine .cons ⟨hheading, hcontract, ?_, hwoven⟩ (ih hrest' ?_ hrest)
      · rw [hturn.next, hturn'.next, hcounter]
      · -- an id is used up exactly if a call is woven
        rw [hturn.after, hturn'.after, TypeWeaving.counter_after, TypeWeaving.counter_after, hwoven,
          hcounter]

/-- What depends on matching turns alike is the same. -/
theorem Matched.map_eq {α : Type} {turns turns' : List (Job × Fate)} {f : Job × Fate → α}
    (h : List.Forall₂ Matched turns turns') (hf : ∀ x y, Matched x y → f x = f y) :
    turns.map f = turns'.map f := by
  induction h with
  | nil => rfl
  | cons hxy _ ih => rw [List.map_cons, List.map_cons, hf _ _ hxy, ih]

/-! ### What a run registers -/

/-- The entries of a call in the table of its type. -/
def Job.entries (j : Job) (owner : String) : List (CallKey × DispatchEntry) :=
  j.contract.kinds.toList.map fun kind =>
    (⟨kind, j.rpcId⟩, ⟨(j.key (.reader kind)).ref owner, j.contract.runLocally,
      j.contract.policy kind⟩)

theorem Matched.entries_eq {x y : Job × Fate} (h : Matched x y) (owner : String) :
    x.1.entries owner = y.1.entries owner := by
  have hkey : ∀ role, x.1.key role = y.1.key role := fun role => by
    rw [Job.key, Job.key, Procedure.signature_eq_of_heading_eq h.heading]
  rw [Job.entries, Job.entries, h.contract, h.rpcId]
  simp only [hkey]

namespace Loom.Ran

variable {loom : Loom} {t t' : TypeDef} {counter : IdCounter} {turns turns' : List (Job × Fate)}
  {v v' : TypeWeaving} {x : Job × Fate} {above above' : List TypeDef}

theorem registrations_eq (h : loom.Ran t counter turns v) :
    v.registrations = turns.filterMap fun x => x.2.registration? x.1 := by
  rw [h.went.registrations_eq]
  rfl

theorem name_led (h : loom.Ran t counter turns v) (above : List TypeDef) :
    (v.led above).name = t.name :=
  (v.name_led above).trans h.went.name_eq

theorem outline_led (h : loom.Ran t counter turns v) (above : List TypeDef) :
    (v.led above).outline = t.outline :=
  (v.outline_led above).trans h.went.outline_eq

/-- A declared procedure keeps its heading. -/
theorem heading_led (h : loom.Ran t counter turns v) (hx : x ∈ turns) (above : List TypeDef) :
    ((v.led above).procedure? x.1.id).map (·.heading) = some x.1.served.heading := by
  have hmem := TypeDef.mem_outline.mpr ⟨_, h.served_eq hx, (h.went.declared hx).1, rfl⟩
  rw [← h.outline_led above] at hmem
  obtain ⟨q, hq, -, hhead⟩ := TypeDef.mem_outline.mp hmem
  rw [hq, hhead]
  rfl

/-- The ids of the procedures that a run registers. -/
theorem ids (h : loom.Ran t counter turns v) (above : List TypeDef) :
    (v.registrations.map fun r =>
        (r.id, ((v.led above).procedure? r.procedure).map (·.heading))) =
      (turns.map fun x => if x.2.isWoven then some (x.1.rpcId, some x.1.served.heading)
        else none).filterMap id := by
  rw [h.registrations_eq, List.map_filterMap, List.filterMap_map]
  refine List.filterMap_congr fun x hx => ?_
  have hhead := h.heading_led hx above
  rcases hf : x.2 with ⟨triad, b⟩ | e
  · simp only [Fate.registration?, Option.map_some, Function.comp, hf, Fate.isWoven, if_true, id]
    exact congrArg (fun head => some (x.1.rpcId, head)) hhead
  · simp [Fate.registration?, Fate.isWoven, hf]

/-- The entries that a run asks for. -/
theorem entries (h : loom.Ran t counter turns v) :
    v.registrations.flatMap (·.entries) =
      (turns.map fun x => if x.2.isWoven then x.1.entries t.name else []).flatten := by
  rw [h.registrations_eq, List.filterMap_eq_flatMap_toList, List.flatMap_assoc,
    ← List.flatMap_def]
  refine List.flatMap_congr fun x hx => ?_
  obtain ⟨u, hleft, hgrows, -⟩ := h.went.left_behind h.tidy.canonical hx
  rcases hf : x.2 with ⟨triad, b⟩ | e
  · rw [hf] at hleft
    have hname : u.name = t.name := hgrows.name.symm.trans h.went.name_eq
    simp only [Fate.registration?, Option.toList_some, List.flatMap_singleton, Fate.isWoven,
      if_true]
    have hhandlers := congrArg (List.map fun y : Kind × MethodRef × Policy =>
      ((⟨y.1, x.1.rpcId⟩, ⟨y.2.1, x.1.contract.runLocally, y.2.2⟩) : CallKey × DispatchEntry))
      hleft.installed.handlers
    rw [List.map_map, List.map_map, hname] at hhandlers
    exact hhandlers
  · simp [Fate.registration?, Fate.isWoven]

theorem shape (h : loom.Ran t counter turns v) :
    turns.map (fun x => (x.1.served.heading, x.1.contract, x.2.isWoven)) =
      loom.codec.shape t.procedures := by
  rw [Codec.shape, ← h.calls, List.map_map]
  exact List.map_congr_left fun x hx => by rw [h.isWoven hx]; rfl

theorem matched (h : loom.Ran t counter turns v) (h' : loom.Ran t' counter turns' v')
    (hcalls : loom.codec.shape t.procedures = loom.codec.shape t'.procedures) :
    List.Forall₂ Matched turns turns' :=
  h.went.matched h'.went rfl (by rw [h.shape, h'.shape, hcalls])

/-- Matching runs hand out the same ids. -/
theorem ids_eq (h : loom.Ran t counter turns v) (h' : loom.Ran t' counter turns' v')
    (hcalls : loom.codec.shape t.procedures = loom.codec.shape t'.procedures)
    (above above' : List TypeDef) :
    (v.registrations.map fun r =>
        (r.id, ((v.led above).procedure? r.procedure).map (·.heading))) =
      v'.registrations.map fun r =>
        (r.id, ((v'.led above').procedure? r.procedure).map (·.heading)) := by
  rw [h.ids, h'.ids, Matched.map_eq (h.matched h' hcalls) fun x y hxy => by
    rw [hxy.isWoven, hxy.rpcId, hxy.heading]]

/-- Matching runs build the same table. -/
theorem table_eq (h : loom.Ran t counter turns v) (h' : loom.Ran t' counter turns' v')
    (hcalls : loom.codec.shape t.procedures = loom.codec.shape t'.procedures)
    (hname : t.name = t'.name) : v.table = v'.table := by
  refine DispatchTable.ofRegistrations_congr ?_
  rw [h.entries, h'.entries, hname, Matched.map_eq (h.matched h' hcalls) fun x y hxy => by
    rw [hxy.isWoven, hxy.entries_eq]]

end Loom.Ran

/-! ### Receivers and senders -/

/-- The receiver for a call of which only the shape is seen. -/
def Loom.receiverFor? (loom : Loom) (owner : String) (kind : Kind) (s : Signature)
    (x : Procedure × Contract × Bool) : Option Procedure :=
  if x.2.2 then Job.yield? loom owner ⟨0, x.1, x.2.1, 0⟩ ⟨.reader kind, s⟩ else none

/-- Whether there is a sender of a kind for a call of which only the shape is seen. -/
def Signature.sentBy (s : Signature) (kind : Kind) (x : Procedure × Contract × Bool) : Bool :=
  x.2.2 && s == x.1.signature && x.2.1.kinds.contains kind

namespace Loom.Ran

variable {loom : Loom} {t t' : TypeDef} {counter : IdCounter} {turns turns' : List (Job × Fate)}
  {v v' : TypeWeaving} {x : Job × Fate}

/-- Receivers that are there stay, and otherwise the first call decides. -/
theorem receiver (h : loom.Ran t counter turns v) (kind : Kind) (s : Signature) :
    v.type.generated? ⟨.reader kind, s⟩ = (t.generated? ⟨.reader kind, s⟩).or
      ((loom.codec.shape t.procedures).findSome? (loom.receiverFor? t.name kind s)) := by
  rw [h.went.generated?_first h.honest h.tidy.canonical h.tidy.free fun _ => by simp, ← h.shape,
    List.findSome?_map]
  rfl

/-- Under an honest codec a sender is made whenever one is asked for. -/
theorem isSome_yield? (h : loom.Ran t counter turns v) (hx : x ∈ turns) (kind : Kind)
    (s : Signature) : (x.2.yield? loom t.name x.1 ⟨.writer kind, s⟩).isSome =
      s.sentBy kind (x.1.served.heading, x.1.contract, x.2.isWoven) := by
  have hkeeps := Procedure.keeps_of_contract? (h.went.declared hx).2
  rw [Fate.yield?, Job.yield?, Signature.sentBy, Procedure.signature_heading]
  cases x.2.isWoven with
  | false => rfl
  | true =>
    by_cases hs : s = x.1.served.signature
    · by_cases hkind : kind ∈ x.1.contract.kinds.toList
      · obtain ⟨body, hbody, -⟩ := loom.senderBody_eq h.honest hkeeps hkind x.1.rpcId
        simp [hs, hkind, hbody, Except.toOption, KindSet.contains]
      · simp [hs, hkind, KindSet.contains]
    · simp [hs]

/-- Matching runs make the same senders, which take the place of those that are there. -/
theorem sender (h : loom.Ran t counter turns v) (h' : loom.Ran t' counter turns' v')
    (hcalls : loom.codec.shape t.procedures = loom.codec.shape t'.procedures)
    (hname : t.name = t'.name) (kind : Kind) (s : Signature) :
    ∃ made : Option Procedure,
      v.type.generated? ⟨.writer kind, s⟩ = made.or (t.generated? ⟨.writer kind, s⟩) ∧
      v'.type.generated? ⟨.writer kind, s⟩ = made.or (t'.generated? ⟨.writer kind, s⟩) ∧
      made.isSome = (loom.codec.shape t.procedures).any (s.sentBy kind) := by
  refine ⟨_, h.went.generated?_last h.honest h.tidy.canonical h.tidy.free kind s, ?_, ?_⟩
  · have hyields := Matched.map_eq (h.matched h' hcalls) fun x y hxy =>
      show x.2.yield? loom t.name x.1 ⟨.writer kind, s⟩ = _ from hxy.yield?_eq loom t.name (by simp)
    have hlast := congrArg (fun l => l.reverse.findSome? id) hyields
    simp only [← List.map_reverse, List.findSome?_map] at hlast
    rw [h'.went.generated?_last h.honest h'.tidy.canonical h'.tidy.free kind s]
    refine congrArg (Option.or · _) (Eq.trans ?_ hlast.symm)
    show (turns'.reverse.findSome? fun x => x.2.yield? loom t'.name x.1 ⟨.writer kind, s⟩) = _
    rw [← hname]
    rfl
  · have hasks := congrArg (List.any · id) (List.map_congr_left fun x hx =>
      h.isSome_yield? (x := x) hx kind s)
    rw [List.any_map, List.any_map] at hasks
    rw [← h.shape, List.any_map, List.isSome_findSome?, List.any_reverse]
    exact hasks

end Loom.Ran

end RpcLoom
