/-
RpcLoom/Proofs/Generated.lean

What a run leaves under a key.

Design.  What the turn of a call has for a key does not depend on the type it
meets (`Fate.yield?`).  A turn leaves logic and receivers that are there, and
puts its senders in the place of those that are there (`Turn.generated?_kept`,
`Turn.generated?_writer`).  So over a run the first turn that has something for
a key decides on logic and receivers, and the last one on senders.  Following
the links of a run then leads on the base calls of all virtual logic that a turn
of the run was for (`generated?_led_logic`), and touches nothing else.
-/
import RpcLoom.Proofs.OwnCode
import RpcLoom.Proofs.Unfailing

namespace RpcLoom

namespace TypeDef

/-- The procedure generated for a key. -/
def generated? (t : TypeDef) (key : SynthKey) : Option Procedure :=
  (t.findSynthesized? key).bind t.procedure?

variable {t u : TypeDef} {key : SynthKey} {p : Procedure} {i : ProcedureId}

theorem generated?_eq_some :
    t.generated? key = some p ↔ ∃ i, t.findSynthesized? key = some i ∧ t.procedure? i = some p :=
  Option.bind_eq_some_iff

theorem generated?_eq_none : t.generated? key = none ↔ t.findSynthesized? key = none := by
  rw [generated?, Option.bind_eq_none_iff]
  constructor
  · intro h
    cases hi : t.findSynthesized? key with
    | none => rfl
    | some i =>
      obtain ⟨p, hp, -⟩ := procedure?_of_findSynthesized? hi
      cases hp.symm.trans (h i hi)
  · intro h i hi
    cases hi.symm.trans h

theorem generated?_of_find (hi : t.findSynthesized? key = some i) (hp : t.procedure? i = some p) :
    t.generated? key = some p := by
  rw [generated?, hi, Option.bind_some, hp]

theorem origin_of_generated? (h : t.generated? key = some p) : p.origin = .synthesized key := by
  obtain ⟨i, hi, hp⟩ := generated?_eq_some.mp h
  obtain ⟨q, hq, ho⟩ := procedure?_of_findSynthesized? hi
  obtain rfl := Option.some.inj (hp.symm.trans hq)
  exact ho

theorem Fresh.generated? (h : t.Fresh) (key : SynthKey) : t.generated? key = none := by
  rw [generated?_eq_none, findSynthesized?_eq_none]
  intro i p hp ho
  have hd := h i p hp
  exact absurd ho (Procedure.origin_ne_of_isDeclared hd _)

/-- Whatever comes from a key stands for it. -/
theorem Canonical.generated? (hc : t.Canonical) (hp : t.procedure? i = some p)
    (ho : p.origin = .synthesized key) : t.generated? key = some p := by
  cases hi : t.findSynthesized? key with
  | none => exact absurd ho (findSynthesized?_eq_none.mp hi i p hp)
  | some k =>
    obtain ⟨q, hq, hqo⟩ := procedure?_of_findSynthesized? hi
    -- both are the first of one signature
    obtain rfl : k = i := Option.some.inj ((hc k q key hq hqo).2.symm.trans (hc i p key hp ho).2)
    exact generated?_of_find hi hp

end TypeDef

/-! ### What a turn has for a key -/

/-- What a call of the type `owner` has for a key. -/
def Job.yield? (loom : Loom) (owner : String) (j : Job) (key : SynthKey) : Option Procedure :=
  if key.signature = j.served.signature then
    match key.role with
    | .logic => j.served.body.map j.served.logicOf
    | .reader kind =>
      if kind ∈ j.contract.kinds.toList then
        (loom.receiverBody j.served j.contract kind ((j.key .logic).ref owner)).toOption.map
          (j.served.readerOf kind)
      else none
    | .writer kind =>
      if kind ∈ j.contract.kinds.toList then
        (loom.senderBody j.served j.contract j.rpcId kind).toOption.map (j.served.writerOf kind)
      else none
  else none

/-- Whether a turn ended with its call woven. -/
def Fate.isWoven : Fate → Bool
  | .woven .. => true
  | .cleared _ => false

/-- What the turn of a call has for a key: nothing if the call was cleared. -/
def Fate.yield? (loom : Loom) (owner : String) (j : Job) (key : SynthKey) (f : Fate) :
    Option Procedure :=
  if f.isWoven then j.yield? loom owner key else none

namespace Job

variable {loom : Loom} {j : Job} {t : TypeDef} {key : SynthKey} {p : Procedure} {owner : String}

/-- What was made for a call is what the call has for the key. -/
theorem MadeFor.yield? (h : j.MadeFor loom owner p) (ho : p.origin = .synthesized key) :
    j.yield? loom owner key = some p := by
  cases h with
  | logic hbody =>
    obtain rfl : (⟨.logic, j.served.signature⟩ : SynthKey) = key := Origin.synthesized.inj ho
    rw [Job.yield?, if_pos rfl, hbody]
    rfl
  | @reader kind body hkind hbody =>
    obtain rfl : (⟨.reader kind, j.served.signature⟩ : SynthKey) = key := Origin.synthesized.inj ho
    rw [Job.yield?, if_pos rfl]
    simp only [if_pos hkind, hbody]
    rfl
  | @writer kind body hbody hkind =>
    obtain rfl : (⟨.writer kind, j.served.signature⟩ : SynthKey) = key := Origin.synthesized.inj ho
    rw [Job.yield?, if_pos rfl]
    simp only [if_pos hkind, hbody]
    rfl

/-- What a call has for a key is found once the call is installed. -/
theorem Installed.find {triad : Triad} (h : Installed loom j t triad)
    (hy : j.yield? loom owner key = some p) : ∃ i, t.findSynthesized? key = some i := by
  obtain ⟨role, s⟩ := key
  rw [yield?] at hy
  split at hy
  next hs =>
    obtain rfl : s = j.served.signature := hs
    cases role with
    | logic => exact ⟨_, h.logic.found⟩
    | reader kind =>
      by_cases hkind : kind ∈ j.contract.kinds.toList
      · obtain ⟨stub, -, hreader⟩ := h.reader? hkind
        exact ⟨_, hreader.found⟩
      · simp only [if_neg hkind] at hy
        cases hy
    | writer kind =>
      by_cases hkind : kind ∈ j.contract.kinds.toList
      · obtain ⟨stub, body, -, hwriter, -⟩ := h.writer? hkind
        exact ⟨_, hwriter.found⟩
      · simp only [if_neg hkind] at hy
        cases hy
  next => cases hy

end Job

/-! ### Turns -/

section

variable {loom : Loom} {w w' : TypeWeaving} {turns : List (Job × Fate)} {j : Job} {f : Fate}
  {key : SynthKey} {p : Procedure} {i : ProcedureId}

/-- A generated procedure was there before the turn of a call, or the turn has it for its key. -/
theorem Turn.yield? (h : Turn loom w j f w') (hcodec : loom.codec.Honest)
    (hc : w.type.Canonical) (hfree : w.type.LeavesFree) (hp : w'.type.procedure? i = some p)
    (ho : p.origin = .synthesized key) :
    w.type.procedure? i = some p ∨ f.yield? loom w.type.name j key = some p := by
  have hd := Procedure.isDeclared_of_synthesized ho
  rcases h.edits.madeFor hc h.stands hp hd with hold | ⟨hmade, l, hl⟩
  · exact .inl hold
  cases f with
  | woven triad b => exact .inr (hmade.yield? ho)
  | cleared e =>
    -- a call is cleared for want of a body, and then it has no logic
    have hunmade := h.left.stuck.unmade hcodec (Procedure.keeps_of_contract? h.keeps)
      (h.edits.canonical hc) (hfree.congr h.edits.outline_eq)
    cases hl.symm.trans hunmade.1

/-- A turn that has nothing for a key leaves what is there. -/
theorem Turn.generated?_of_none (h : Turn loom w j f w') (hcodec : loom.codec.Honest)
    (hc : w.type.Canonical) (hfree : w.type.LeavesFree)
    (hy : f.yield? loom w.type.name j key = none) :
    w'.type.generated? key = w.type.generated? key := by
  have hold : ∀ {i p}, w'.type.procedure? i = some p → p.origin = .synthesized key →
      w.type.procedure? i = some p := fun hp ho =>
    (h.yield? hcodec hc hfree hp ho).resolve_right fun hsome => nomatch hy.symm.trans hsome
  cases hp' : w'.type.generated? key with
  | some p =>
    obtain ⟨i, -, hp⟩ := TypeDef.generated?_eq_some.mp hp'
    have ho := TypeDef.origin_of_generated? hp'
    rw [hc.generated? (hold hp ho) ho]
  | none =>
    cases hi : w.type.findSynthesized? key with
    | none => exact (TypeDef.generated?_eq_none.mpr hi).symm
    | some i =>
      have hfound := h.edits.grows.find hi
      cases hfound.symm.trans (TypeDef.generated?_eq_none.mp hp')

/-- A turn leaves logic and receivers that are there. -/
theorem Turn.generated?_kept (h : Turn loom w j f w') (hcodec : loom.codec.Honest)
    (hc : w.type.Canonical) (hfree : w.type.LeavesFree) (hrole : ∀ kind, key.role ≠ .writer kind) :
    w'.type.generated? key =
      (w.type.generated? key).or (f.yield? loom w.type.name j key) := by
  cases hold : w.type.generated? key with
  | some p =>
    obtain ⟨i, hi, hp⟩ := TypeDef.generated?_eq_some.mp hold
    have ho := TypeDef.origin_of_generated? hold
    have hrun : Turns loom w [(j, f)] w' := .cons h (.nil w')
    exact TypeDef.generated?_of_find (h.edits.grows.find hi) (hrun.procedure?_generated hp ho hrole)
  | none =>
    rw [Option.none_or]
    cases hy : f.yield? loom w.type.name j key with
    | none => rw [h.generated?_of_none hcodec hc hfree hy, hold]
    | some p =>
      cases f with
      | cleared e => cases hy
      | woven triad b =>
        obtain ⟨i, hi⟩ := h.left.installed.find hy
        obtain ⟨q, hq, ho⟩ := TypeDef.procedure?_of_findSynthesized? hi
        rcases h.yield? hcodec hc hfree hq ho with hwas | hnew
        · exact absurd ho (TypeDef.findSynthesized?_eq_none.mp
            (TypeDef.generated?_eq_none.mp hold) i q hwas)
        · rw [TypeDef.generated?_of_find hi hq, ← hnew]
          exact hy

/-- A turn puts its senders in the place of those that are there. -/
theorem Turn.generated?_writer (h : Turn loom w j f w') (hcodec : loom.codec.Honest)
    (hc : w.type.Canonical) (hfree : w.type.LeavesFree) {kind : Kind} {s : Signature} :
    w'.type.generated? ⟨.writer kind, s⟩ =
      (f.yield? loom w.type.name j ⟨.writer kind, s⟩).or
        (w.type.generated? ⟨.writer kind, s⟩) := by
  cases hy : f.yield? loom w.type.name j ⟨.writer kind, s⟩ with
  | none => rw [h.generated?_of_none hcodec hc hfree hy, Option.none_or]
  | some p =>
    cases f with
    | cleared e => cases hy
    | woven triad b =>
      simp only [Fate.yield?, Fate.isWoven, if_true, Job.yield?] at hy
      split at hy
      next hs =>
        obtain rfl : s = j.served.signature := hs
        by_cases hkind : kind ∈ j.contract.kinds.toList
        · obtain ⟨stub, body, -, hwriter, hbody⟩ := h.left.installed.writer? hkind
          rw [if_pos hkind, hbody] at hy
          exact (TypeDef.generated?_of_find hwriter.found hwriter.current).trans hy
        · rw [if_neg hkind] at hy
          cases hy
      next => cases hy

namespace Turns

/-- Over a run the first turn that has something for a key decides on logic and receivers. -/
theorem generated?_first (h : Turns loom w turns w') (hcodec : loom.codec.Honest)
    (hc : w.type.Canonical) (hfree : w.type.LeavesFree) (hrole : ∀ kind, key.role ≠ .writer kind) :
    w'.type.generated? key = (w.type.generated? key).or
      (turns.findSome? fun x => x.2.yield? loom w.type.name x.1 key) := by
  induction h with
  | nil => simp
  | cons hturn _ ih =>
    rw [ih (hturn.edits.canonical hc) (hfree.congr hturn.edits.outline_eq),
      hturn.generated?_kept hcodec hc hfree hrole, hturn.edits.name_eq, List.findSome?_cons,
      Option.or_assoc]
    congr 1
    split <;> simp [*]

/-- Over a run the last turn that has a sender for a key decides on it. -/
theorem generated?_last (h : Turns loom w turns w') (hcodec : loom.codec.Honest)
    (hc : w.type.Canonical) (hfree : w.type.LeavesFree) (kind : Kind) (s : Signature) :
    w'.type.generated? ⟨.writer kind, s⟩ =
      (turns.reverse.findSome? fun x => x.2.yield? loom w.type.name x.1 ⟨.writer kind, s⟩).or
        (w.type.generated? ⟨.writer kind, s⟩) := by
  induction h with
  | nil => simp
  | cons hturn _ ih =>
    rw [ih (hturn.edits.canonical hc) (hfree.congr hturn.edits.outline_eq),
      hturn.generated?_writer hcodec hc hfree, hturn.edits.name_eq, List.reverse_cons,
      List.findSome?_append, Option.or_assoc]
    congr 1
    simp

end Turns

end

/-! ### Base calls -/

/-- Where a reference leads if the calls to a signature on some types are led to `target`. -/
def Signature.lead (s : Signature) (above : List String) (target : Option MethodRef)
    (ref : MethodRef) : MethodRef :=
  if ref.signature == s && above.contains ref.owner then target.getD ref else ref

/-- A virtual procedure with its references changed, and any other as it is. -/
def Procedure.ledBy (p : Procedure) (f : MethodRef → MethodRef) : Procedure :=
  if p.isVirtual then { p with body := p.body.map (·.mapMethods f) } else p

/-- Changing the references of a procedure twice is changing them once. -/
theorem Procedure.ledBy_ledBy (p : Procedure) (f g : MethodRef → MethodRef) :
    (p.ledBy f).ledBy g = p.ledBy fun ref => g (f ref) := by
  by_cases hvirtual : p.isVirtual = true
  · have hstill : ({ p with body := p.body.map (·.mapMethods f) } : Procedure).isVirtual = true :=
      hvirtual
    rw [ledBy, ledBy, if_pos hvirtual, if_pos hstill, ledBy, if_pos hvirtual, Option.map_map]
    simp only [Function.comp_def, Body.mapMethods_mapMethods]
  · rw [show p.ledBy f = p from if_neg hvirtual, ledBy, ledBy, if_neg hvirtual, if_neg hvirtual]

/-- A call that was led on is not led on again. -/
theorem Signature.lead_lead (s : Signature) (above : List String) {first : Option MethodRef}
    (hled : ∀ ref, first = some ref → ref.signature ≠ s) (second : Option MethodRef)
    (ref : MethodRef) :
    s.lead above second (s.lead above first ref) = s.lead above (first.or second) ref := by
  by_cases hbase : (ref.signature == s && above.contains ref.owner) = true
  · cases first with
    | none => rw [lead, lead, if_pos hbase, Option.getD_none, if_pos hbase, Option.none_or, lead,
        if_pos hbase]
    | some target =>
      have hnot : (target.signature == s && above.contains target.owner) = false := by
        simp [hled target rfl]
      rw [show s.lead above (some target) ref = target from if_pos hbase, lead, hnot,
        Option.some_or, lead, if_pos hbase]
      rfl
  · have hsame : ∀ target, s.lead above target ref = ref := fun _ => if_neg hbase
    rw [hsame, hsame, hsame]

namespace TypeWeaving

variable {loom : Loom} {w v : TypeWeaving} {turns : List (Job × Fate)} {above : List TypeDef}
  {key : SynthKey} {s : Signature} {p : Procedure} {i : ProcedureId}

theorem findSynthesized?_led (v : TypeWeaving) (above : List TypeDef) (key : SynthKey) :
    (v.led above).findSynthesized? key = v.type.findSynthesized? key := by
  rw [← TypeDef.findSynthesized?_bare, v.bare_led, TypeDef.findSynthesized?_bare]

theorem findSignature?_led (v : TypeWeaving) (above : List TypeDef) (s : Signature) :
    (v.led above).findSignature? s = v.type.findSignature? s := by
  rw [← TypeDef.findSignature?_bare, v.bare_led, TypeDef.findSignature?_bare]

/-- Senders and receivers make no base calls that are led on. -/
theorem generated?_led (h : Turns loom w turns v) (hc : w.type.Canonical) (hstart : w.links = [])
    (hrole : key.role ≠ .logic) : (v.led above).generated? key = v.type.generated? key := by
  rw [TypeDef.generated?, findSynthesized?_led, TypeDef.generated?]
  cases hi : v.type.findSynthesized? key with
  | none => rfl
  | some i =>
    obtain ⟨p, hp, ho⟩ := TypeDef.procedure?_of_findSynthesized? hi
    rw [Option.bind_some, Option.bind_some, hp, led_of_not_logic h hc hstart hp fun s hs => ?_]
    exact hrole (congrArg SynthKey.role (Origin.synthesized.inj (ho.symm.trans hs)))

/-- A turn that wove a call leaves a link to its logic, if that is virtual. -/
theorem mem_links_of_turn (h : Turns loom w turns v) {x : Job × Fate}
    (hx : x ∈ turns) (hwoven : x.2.isWoven = true)
    (hi : v.type.findSynthesized? (x.1.key .logic) = some i) (hp : v.type.procedure? i = some p)
    (hvirtual : p.isVirtual = true) : ⟨v.type.name, i, x.1.served.signature⟩ ∈ v.links := by
  obtain ⟨before, after, rfl⟩ := List.append_of_mem hx
  obtain ⟨w₁, w₂, hbefore, hturn, hafter⟩ := h.split
  cases hf : x.2 with
  | cleared e =>
    rw [hf] at hwoven
    cases hwoven
  | woven triad b =>
    have hleft := hturn.left
    rw [hf] at hleft
    -- the logic is where it was after the turn, and still the same
    have hfound := hleft.installed.logic.found
    obtain rfl : triad.logic = i := Option.some.inj ((hafter.grows.find hfound).symm.trans hi)
    obtain ⟨q, hq, ho⟩ := TypeDef.procedure?_of_findSynthesized? hfound
    obtain rfl := Option.some.inj ((hafter.procedure?_logic hq ho).symm.trans hp)
    rw [hafter.name_eq, hturn.edits.name_eq]
    exact hafter.links_grow (hturn.mem_links.mpr (.inr ⟨triad, b, q, hf, hq, ho, hvirtual, rfl⟩))

/-- The base calls of virtual logic are led on if a turn of the run was for it. -/
theorem generated?_led_logic (h : Turns loom w turns v) (hc : w.type.Canonical)
    (hstart : w.links = []) (hturn : (v.type.generated? ⟨.logic, s⟩).isSome = true →
      ∃ x ∈ turns, x.2.isWoven = true ∧ x.1.served.signature = s) :
    (v.led above).generated? ⟨.logic, s⟩ = (v.type.generated? ⟨.logic, s⟩).map (·.ledBy
      (s.lead (above.map (·.name)) (TypeDef.nearest? above (SynthKey.generated ⟨.logic, s⟩)))) := by
  cases hp : v.type.generated? ⟨.logic, s⟩ with
  | none =>
    rw [Option.map_none, TypeDef.generated?_eq_none, findSynthesized?_led]
    exact TypeDef.generated?_eq_none.mp hp
  | some p =>
    rw [hp] at hturn
    obtain ⟨x, hx, hwoven, rfl⟩ := hturn rfl
    obtain ⟨i, hi, hp⟩ := TypeDef.generated?_eq_some.mp hp
    rw [Option.map_some]
    refine TypeDef.generated?_of_find ((findSynthesized?_led v above _).trans hi) ?_
    by_cases hvirtual : p.isVirtual = true
    · have hlink := mem_links_of_turn h hx hwoven hi hp hvirtual
      rw [Procedure.ledBy, if_pos hvirtual]
      exact led_of_link h hc hstart hlink hp
    · rw [Procedure.ledBy, if_neg hvirtual]
      exact led_of_not_virtual h hstart hp (eq_false_of_ne_true hvirtual)

end TypeWeaving

end RpcLoom
