/-
RpcLoom/Proofs/Redirecting.lean

Leading base calls on changes the base calls and nothing else.

Design.  The code of a logic is walked twice, once to see whether it has base
calls and once to change them.  Both walks visit the same instructions, so the
calls that are changed are the calls that are counted.  They are led to the
first type above that has what is looked for, and since that goes by another
name than the served procedure, none of them is a base call afterwards.  Types
above a type are looked up by their faces, which no change of code alters; so
looking again, in the changed assembly, finds the same types and no calls.
-/
import RpcLoom.Proofs.Leading

namespace RpcLoom

/-! ### The nearest type above -/

/-- A type has a procedure of a signature. -/
def TypeDef.HasSignature (t : TypeDef) (s : Signature) : Prop := ∃ p ∈ t.procedures, p.signature = s

namespace Assembly

variable {a : Assembly} {i : TypeId} {above : List TypeId} {s : Signature} {u : TypeDef}

/-- One of some types has a procedure of a signature. -/
def Offers (a : Assembly) (above : List TypeId) (s : Signature) : Prop :=
  ∃ j ∈ above, ∃ u, a.type? j = some u ∧ u.HasSignature s

/-- The first of some types that has a procedure of a signature. -/
def NearestWith (a : Assembly) (above : List TypeId) (s : Signature) (u : TypeDef) : Prop :=
  ∃ before j after, above = before ++ j :: after ∧ a.type? j = some u ∧ u.HasSignature s ∧
    ¬ a.Offers before s

theorem hasSignature_iff : u.HasSignature s ↔ ∃ id, u.findSignature? s = some id := by
  rw [← Option.isSome_iff_exists]
  simp [TypeDef.findSignature?, TypeDef.HasSignature]

/-- A search passes over the types that have nothing of what is looked for. -/
theorem not_offers_of_firstWith (h : a.firstWith (·.findSignature? s) above = none) :
    ¬ a.Offers above s := by
  rintro ⟨j, hj, u, hu, hhas⟩
  obtain ⟨id, hid⟩ := hasSignature_iff.mp hhas
  have hnone := List.findSome?_eq_none_iff.mp h j hj
  simp [hu, hid] at hnone

/-- A search that finds something ends at the nearest type that has it. -/
theorem nearestWith_of_firstWith {j : TypeId} {id : ProcedureId}
    (h : a.firstWith (·.findSignature? s) above = some (j, id)) :
    ∃ u, a.type? j = some u ∧ a.NearestWith above s u := by
  obtain ⟨before, k, after, rfl, hk, hbefore⟩ := List.findSome?_eq_some_iff.mp h
  cases hu : a.type? k with
  | none => simp [hu] at hk
  | some u =>
    cases hid : u.findSignature? s with
    | none => simp [hu, hid] at hk
    | some id' =>
      obtain ⟨rfl, -⟩ : k = j ∧ id' = id := by simpa [hu, hid] using hk
      refine ⟨u, hu, before, k, after, rfl, hu, hasSignature_iff.mpr ⟨id', hid⟩, ?_⟩
      exact not_offers_of_firstWith (List.findSome?_eq_none_iff.mpr hbefore)

theorem NearestWith.offers (h : a.NearestWith above s u) : a.Offers above s := by
  obtain ⟨before, j, after, rfl, hu, hhas, -⟩ := h
  exact ⟨j, by simp, u, hu, hhas⟩

/-- The search among the types above ends at the nearest one that has what is looked for. -/
theorem findInBase?_cases (hab : a.ancestors i = .ok above) (s : Signature) :
    (∃ u, a.NearestWith above s u ∧ a.findInBase? i s = .ok (some ⟨u.name, s.name, s.types⟩)) ∨
    (¬ a.Offers above s ∧ a.findInBase? i s = .ok none) := by
  rw [findInBase?, hab]
  simp only [bind, Except.bind]
  cases hfound : a.firstWith (·.findSignature? s) above with
  | none => exact .inr ⟨not_offers_of_firstWith hfound, rfl⟩
  | some found =>
    obtain ⟨u, hu, hnearest⟩ := nearestWith_of_firstWith hfound
    exact .inl ⟨u, hnearest, by simp [hu]⟩

end Assembly

/-! ### Base calls -/

namespace LogicLink

variable {link : LogicLink} {a b : Assembly} {i : TypeId} {above : List TypeId} {t u : TypeDef}
  {p : Procedure} {names : List String} {ref target : MethodRef} {body : Body}

/-- A reference names the procedure that a link serves, on one of some types. -/
def Base (link : LogicLink) (names : List String) (ref : MethodRef) : Prop :=
  ref.name = link.served.name ∧ ref.types = link.served.types ∧ ref.owner ∈ names

instance (link : LogicLink) (names : List String) (ref : MethodRef) :
    Decidable (link.Base names ref) :=
  inferInstanceAs (Decidable (_ ∧ _ ∧ _))

/-- How many calls in a procedure's code, at any depth, are base calls of a link. -/
def baseCalls (link : LogicLink) (names : List String) (p : Procedure) : Nat :=
  ((p.body.map (·.nested)).getD []).countP fun x => x.method?.any fun ref => link.Base names ref

/-- A body whose base calls go to another procedure, in the form they had. -/
def ledTo (link : LogicLink) (names : List String) (target : MethodRef) (body : Body) : Body :=
  body.mapMethods fun ref => if link.Base names ref then target else ref

theorem isBaseRef_eq : link.isBaseRef names ref = decide (link.Base names ref) := by
  rw [Bool.eq_iff_iff, decide_eq_true_iff]
  obtain ⟨typeName, logic, name, types⟩ := link
  simp [isBaseRef, Base, MethodRef.signature, and_assoc]

theorem exists_body (h : 0 < link.baseCalls names p) : ∃ body, p.body = some body := by
  cases hbody : p.body with
  | none => simp [baseCalls, hbody] at h
  | some body => exact ⟨body, rfl⟩

theorem baseCalls_eq (h : p.body = some body) :
    link.baseCalls names p = body.nested.countP (link.isBaseCall names) := by
  rw [baseCalls, h]
  refine List.countP_congr fun x _ => ?_
  simp only [isBaseCall, ← isBaseRef_eq]

theorem ledTo_eq (link : LogicLink) (names : List String) (target : MethodRef) (body : Body) :
    body.mapMethods (link.lead names (some target)) = link.ledTo names target body := by
  refine congrArg body.mapMethods (funext fun ref => ?_)
  simp only [lead, isBaseRef_eq, decide_eq_true_iff, Option.getD_some]

theorem method?_mapMethods (f : MethodRef → MethodRef) (x : Instruction) :
    (x.mapMethods f).method? = x.method?.map f := by
  cases x with
  | call callee => cases callee <;> simp [Callee.mapMethod, Instruction.method?]
  | _ => simp [Instruction.mapMethods, Instruction.method?]

/-- Calls that are led to another name are no base calls any more. -/
theorem baseCalls_ledTo (hname : target.name ≠ link.served.name) (p : Procedure)
    (body : Body) :
    link.baseCalls names (p.withBody (link.ledTo names target body)) = 0 := by
  rw [baseCalls_eq rfl, List.countP_eq_zero]
  intro x hx
  rw [ledTo, Body.nested_mapMethods] at hx
  obtain ⟨y, -, rfl⟩ := List.mem_map.mp hx
  rw [isBaseCall, method?_mapMethods, Option.any_map]
  cases y.method? with
  | none => simp
  | some ref =>
    simp only [Option.any_some, isBaseRef_eq, decide_eq_true_iff]
    split
    next => exact fun h => hname h.1
    next h => exact h

/-! ### One link -/

/-- A link whose type is there with all types above it, and whose logic is there under another name
than the procedure it serves. -/
structure Placed (link : LogicLink) (a : Assembly) (i : TypeId) (above : List TypeId)
    (t : TypeDef) (p : Procedure) : Prop where
  find : a.find? link.typeName = some i
  type : a.type? i = some t
  above : a.Above t above
  logic : t.procedure? link.logic = some p
  renamed : p.name ≠ link.served.name

namespace Placed

theorem ancestors (h : link.Placed a i above t p) : a.ancestors i = .ok above :=
  Assembly.ancestors_eq_ok_iff.mpr ⟨t, h.type, h.above⟩

/-- The first walk sees whether there are base calls, and the second one changes them. -/
theorem redirect_eq (h : link.Placed a i above t p) (hbody : p.body = some body)
    {found : Option MethodRef}
    (hfound : a.findInBase? i ⟨p.name, link.served.types⟩ = .ok found) :
    link.redirect a =
      if link.baseCalls (a.namesOf above) p = 0 then .ok (a, 0)
      else
        match found with
        | none => .error (.baseLogicNotFound link.typeName p.name)
        | some target =>
          .ok (a.set i (t.fill link.logic (link.ledTo (a.namesOf above) target body)),
            link.baseCalls (a.namesOf above) p) := by
  rw [redirect]
  simp only [Assembly.find, h.find, h.ancestors, Assembly.type, h.type, TypeDef.procedure, h.logic,
    hbody, hfound, Except.mapError, bind, Except.bind, run_mapNestedM, ledTo_eq]
  have hnames : (above.filterMap fun j => (a.type? j).map (·.name)) = a.namesOf above := rfl
  rw [hnames, baseCalls_eq hbody]
  by_cases hnone : body.nested.countP (link.isBaseCall (a.namesOf above)) = 0
  · have hany : body.nested.any (link.isBaseCall (a.namesOf above)) = false := by
      simpa using List.countP_eq_zero.mp hnone
    rw [if_pos hnone, hany]
    rfl
  · have hany : body.nested.any (link.isBaseCall (a.namesOf above)) = true := by
      simpa using List.countP_pos_iff.mp (Nat.pos_of_ne_zero hnone)
    rw [if_neg hnone, hany]
    cases found <;> rfl

/-- A link stays placed when the code of its logic changes. -/
theorem fill (h : link.Placed a i above t p) (body : Body) :
    link.Placed (a.set i (t.fill link.logic body)) i above (t.fill link.logic body)
        (p.withBody body) ∧
      (a.set i (t.fill link.logic body)).namesOf above = a.namesOf above := by
  have hbare : a.bare = (a.set i (t.fill link.logic body)).bare :=
    (Assembly.map_types_set _ h.type (TypeDef.bare_fill ..)).symm
  have hfaces := Assembly.faces_of_bare_eq hbare
  have htype := Assembly.type?_set_self (t := t.fill link.logic body) h.type
  refine ⟨⟨?_, htype, ?_, ?_, h.renamed⟩, Assembly.namesOf_congr hbare.symm above⟩
  · rw [← Assembly.find?_congr hfaces, h.find]
  · have hab := h.ancestors
    rw [Assembly.ancestors_congr hfaces] at hab
    obtain ⟨t', ht', habove⟩ := Assembly.ancestors_eq_ok_iff.mp hab
    rwa [← Option.some.inj (htype.symm.trans ht')] at habove
  · rw [TypeDef.fill, TypeDef.procedure?_modify, if_pos rfl, h.logic, Option.map_some]

/-- Without base calls nothing is done. -/
theorem redirect_of_baseCalls (h : link.Placed a i above t p)
    (hnone : link.baseCalls (a.namesOf above) p = 0) : link.redirect a = .ok (a, 0) := by
  cases hbody : p.body with
  | none =>
    rw [redirect]
    simp only [Assembly.find, h.find, h.ancestors, Assembly.type, h.type, TypeDef.procedure,
      h.logic, hbody, Except.mapError, bind, Except.bind]
  | some body =>
    obtain ⟨u, -, hfound⟩ | ⟨-, hfound⟩ :=
      Assembly.findInBase?_cases h.ancestors ⟨p.name, link.served.types⟩
    · rw [h.redirect_eq hbody hfound, if_pos hnone]
    · rw [h.redirect_eq hbody hfound, if_pos hnone]

end Placed

/-- Leading the base calls of a link on does what there is to do, and no more: without base calls
nothing; with base calls and logic above, exactly they are led to the nearest such logic, and a
second time there are none; and without logic above it fails and leaves everything as it is. -/
theorem redirect_exact (h : link.Placed a i above t p) :
    (link.baseCalls (a.namesOf above) p = 0 → link.redirect a = .ok (a, 0)) ∧
    (0 < link.baseCalls (a.namesOf above) p → a.Offers above ⟨p.name, link.served.types⟩ →
      ∃ u body b, a.NearestWith above ⟨p.name, link.served.types⟩ u ∧ p.body = some body ∧
        b = a.set i (t.modify link.logic fun q =>
          q.withBody (link.ledTo (a.namesOf above) ⟨u.name, p.name, link.served.types⟩ body)) ∧
        link.redirect a = .ok (b, link.baseCalls (a.namesOf above) p) ∧
        link.redirect b = .ok (b, 0)) ∧
    (0 < link.baseCalls (a.namesOf above) p → ¬ a.Offers above ⟨p.name, link.served.types⟩ →
      link.redirect a = .error (.baseLogicNotFound link.typeName p.name) ∧
      ∀ w : Weaving, w.assembly = a → (w.follow link).1.assembly = a) := by
  refine ⟨h.redirect_of_baseCalls, fun hsome hoffers => ?_, fun hsome hnone => ?_⟩
  · obtain ⟨body, hbody⟩ := exists_body hsome
    obtain ⟨u, hnearest, hfound⟩ | ⟨hnot, -⟩ :=
      Assembly.findInBase?_cases h.ancestors ⟨p.name, link.served.types⟩
    · refine ⟨u, body, _, hnearest, hbody, rfl, ?_, ?_⟩
      · rw [h.redirect_eq hbody hfound, if_neg (Nat.ne_of_gt hsome)]
        rfl
      · obtain ⟨hplaced, hnames⟩ := h.fill
          (link.ledTo (a.namesOf above) ⟨u.name, p.name, link.served.types⟩ body)
        refine hplaced.redirect_of_baseCalls ?_
        rw [hnames, baseCalls_ledTo h.renamed]
    · exact absurd hoffers hnot
  · obtain ⟨body, hbody⟩ := exists_body hsome
    obtain ⟨u, hnearest, -⟩ | ⟨-, hfound⟩ :=
      Assembly.findInBase?_cases h.ancestors ⟨p.name, link.served.types⟩
    · exact absurd hnearest.offers hnone
    · have herror : link.redirect a = .error (.baseLogicNotFound link.typeName p.name) := by
        rw [h.redirect_eq hbody hfound, if_neg (Nat.ne_of_gt hsome)]
      refine ⟨herror, fun w hw => ?_⟩
      rw [Weaving.follow, hw, herror]
      exact hw

end LogicLink

namespace Sample

/-- Code with two base calls, one of them in a cleanup and virtual. -/
def creak : Procedure :=
  { Procedure.declare "Creak" with
    body := some (.ofCode
      [.region [.loadSelf, .call (.base ⟨"Floor", "Step", []⟩)]
        [.loadSelf, .call (.method ⟨"Floor", "Step", []⟩)], .leave]) }

/-- The type that has it. -/
def attic : TypeDef := ⟨"Attic", some "Floor", [creak]⟩

/-- That type and one above it, which has a procedure of the same name. -/
def house : Assembly :=
  ⟨[⟨"Floor", none, [Procedure.declare "Step", Procedure.declare "Creak"]⟩, attic]⟩

/-- The link from the code to the procedure that it serves. -/
def creakLink : LogicLink := ⟨"Attic", 0, ⟨"Step", []⟩⟩

theorem placed_creakLink : creakLink.Placed house 1 [0] attic creak where
  find := by decide +kernel
  type := rfl
  above := .derived rfl (by decide +kernel) rfl (.root rfl)
  logic := rfl
  renamed := by decide

end Sample

open Sample in
/-- Both base calls of the attic are led on. -/
theorem LogicLink.redirect_exact_attic :
    creakLink.Placed house 1 [0] attic creak ∧
    0 < creakLink.baseCalls (house.namesOf [0]) creak ∧ house.Offers [0] ⟨"Creak", []⟩ ∧
    ∃ u body b, house.NearestWith [0] ⟨"Creak", []⟩ u ∧ creak.body = some body ∧
      b = house.set 1 (attic.modify 0 fun q =>
        q.withBody (creakLink.ledTo ["Floor"] ⟨u.name, "Creak", []⟩ body)) ∧
      creakLink.redirect house = .ok (b, 2) ∧ creakLink.redirect b = .ok (b, 0) := by
  have hsome : 0 < creakLink.baseCalls (house.namesOf [0]) creak := by decide +kernel
  have hoffers : house.Offers [0] ⟨"Creak", []⟩ :=
    ⟨0, by simp, _, rfl, Procedure.declare "Creak", by simp, rfl⟩
  exact ⟨placed_creakLink, hsome, hoffers, (redirect_exact placed_creakLink).2.1 hsome hoffers⟩

end RpcLoom
