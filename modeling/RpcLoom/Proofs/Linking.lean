/-
RpcLoom/Proofs/Linking.lean

Leading base calls on changes the code of logic and nothing else, once.

Design.  A type without its bodies is bare.  Look-ups along chains do not see
bodies, so every question that leading base calls asks has the same answer
before and after (`findInBase?_congr`).  A link is ready if it stands for the
logic generated for its procedure.  Following a ready link settles it: following
it again in the assembly that results, or in any that differs from it elsewhere
only, gives the same failure or changes nothing.
-/
import RpcLoom.Proofs.BaseCalls
import RpcLoom.Proofs.Locality

namespace RpcLoom

/-! ### Types without bodies -/

/-- Code that calls no procedure of the assembly. -/
def Procedure.Plain (p : Procedure) : Prop :=
  ∀ body, p.body = some body → ∀ x ∈ body.nested, x.method? = none

namespace TypeDef

/-- A type without the bodies of its procedures. -/
def bare (t : TypeDef) : TypeDef := { t with procedures := t.procedures.map (·.heading) }

variable {t u : TypeDef}

theorem outline_bare (t : TypeDef) : t.bare.outline = t.outline := by
  rw [outline, outline, bare, List.zipIdx_map, List.filterMap_map]
  rfl

theorem name_of_bare_eq (h : t.bare = u.bare) : t.name = u.name := by
  show t.bare.name = u.bare.name
  rw [h]

theorem face_of_bare_eq (h : t.bare = u.bare) : t.face = u.face := by
  refine face_eq_iff.mpr ⟨name_of_bare_eq h, ?_, ?_⟩
  · show t.bare.base = u.bare.base
    rw [h]
  · rw [← outline_bare, h, outline_bare]

theorem procedure?_bare (t : TypeDef) (i : ProcedureId) :
    t.bare.procedure? i = (t.procedure? i).map (·.heading) := by
  simp [procedure?, bare]

theorem findSignature?_bare (t : TypeDef) (s : Signature) :
    t.bare.findSignature? s = t.findSignature? s := by
  rw [findSignature?_eq, findSignature?_eq, bare, List.map_map]
  rfl

theorem findSynthesized?_bare (t : TypeDef) (key : SynthKey) :
    t.bare.findSynthesized? key = t.findSynthesized? key := by
  rw [findSynthesized?_eq, findSynthesized?_eq, bare, List.map_map]
  rfl

theorem bare_fill (t : TypeDef) (i : ProcedureId) (b : Body) : (t.fill i b).bare = t.bare := by
  rw [bare, bare, TypeDef.mk.injEq]
  exact ⟨rfl, rfl, map_procedures_modify Procedure.heading fun _ _ => rfl⟩

/-- Whether generated procedures are found where they should be does not depend on any body. -/
theorem Canonical.bare (hc : t.Canonical) (h : u.bare = t.bare) : u.Canonical := by
  intro i p key hp ho
  have hq := procedure?_bare t i
  rw [← h, procedure?_bare, hp, Option.map_some, eq_comm, Option.map_eq_some_iff] at hq
  obtain ⟨q, hq, hhead⟩ := hq
  have horigin : q.origin = p.origin := by rw [← q.origin_heading, hhead, p.origin_heading]
  have hsig : q.signature = p.signature := by
    show q.heading.signature = p.heading.signature
    rw [hhead]
  obtain ⟨h₁, h₂⟩ := hc i q key hq (horigin.trans ho)
  refine ⟨hsig ▸ h₁, ?_⟩
  rw [← findSignature?_bare, h, findSignature?_bare]
  exact h₂

/-- A type after base calls were led on: only logic with base calls has other code. -/
structure Relinked (t u : TypeDef) : Prop where
  bare : u.bare = t.bare
  kept : ∀ i p, t.procedure? i = some p →
    (∀ s, p.origin ≠ .synthesized ⟨.logic, s⟩) ∨ p.Plain → u.procedure? i = some p

theorem Relinked.refl (t : TypeDef) : t.Relinked t := ⟨rfl, fun _ _ h _ => h⟩

theorem Relinked.trans {v : TypeDef} (h : t.Relinked u) (h' : u.Relinked v) : t.Relinked v :=
  ⟨h'.bare.trans h.bare, fun i p hp ho => h'.kept i p (h.kept i p hp ho) ho⟩

/-- Leading base calls on spares every call. -/
theorem Relinked.spares (h : t.Relinked u) (j : Job) : j.Spares t u := by
  have hother : ∀ {i p key}, t.procedure? i = some p → p.origin = .synthesized key →
      key.role ≠ .logic → u.procedure? i = some p := by
    intro i p key hp ho hrole
    refine h.kept i p hp (.inl fun s hs => hrole ?_)
    rw [ho, Origin.synthesized.injEq] at hs
    rw [hs]
  refine ⟨name_of_bare_eq h.bare, fun role => ?_, fun s hs => ?_, fun p hp hd => ?_,
    fun i p kind hp ho => hother hp ho (by simp [Job.key]), fun i p hp _ => ?_⟩
  · rw [← findSynthesized?_bare, h.bare, findSynthesized?_bare]
  · rw [← findSignature?_bare, h.bare, findSignature?_bare]
    exact hs
  · refine h.kept _ p hp (.inl fun s ho => ?_)
    exact absurd ho (Procedure.origin_ne_of_isDeclared hd _)
  · have := procedure?_bare u i
    rw [h.bare, procedure?_bare, hp, Option.map_some, eq_comm, Option.map_eq_some_iff] at this
    exact this

end TypeDef

/-! ### Assemblies without bodies -/

namespace Assembly

variable {a b : Assembly}

/-- The types of an assembly without their bodies. -/
def bare (a : Assembly) : List TypeDef := a.types.map (·.bare)

theorem faces_of_bare_eq (h : a.bare = b.bare) : a.faces = b.faces := by
  have hface : ∀ t : TypeDef, t.face = t.bare.face := fun t =>
    TypeDef.face_of_bare_eq (by simp [TypeDef.bare, Procedure.heading])
  have hfaces : ∀ c : Assembly, c.faces = c.bare.map (·.face) := fun c => by
    rw [faces, bare, List.map_map]
    exact List.map_congr_left fun t _ => hface t
  rw [hfaces, hfaces, h]

theorem type?_bare_congr (h : a.bare = b.bare) (i : TypeId) :
    (a.type? i).map (·.bare) = (b.type? i).map (·.bare) := by
  have := congrArg (·[i]?) h
  simpa [bare, type?] using this

/-- The names of the types at some positions. -/
def namesOf (a : Assembly) (is : List TypeId) : List String :=
  is.filterMap fun j => (a.type? j).map (·.name)

theorem namesOf_congr (h : a.bare = b.bare) (is : List TypeId) : a.namesOf is = b.namesOf is := by
  have hname : ∀ j, (a.type? j).map (·.name) = (b.type? j).map (·.name) := fun j => by
    have := congrArg (Option.map TypeDef.name) (type?_bare_congr h j)
    simpa [Option.map_map, Function.comp_def, TypeDef.bare] using this
  simp only [namesOf, hname]

/-- Whether a type above has a procedure of a signature does not depend on any body. -/
theorem findInBase?_congr (h : a.bare = b.bare) (i : TypeId) (s : Signature) :
    a.findInBase? i s = b.findInBase? i s := by
  have hname : ∀ j, ((a.type? j).map fun t => (⟨t.name, s.name, s.types⟩ : MethodRef)) =
      (b.type? j).map fun t => (⟨t.name, s.name, s.types⟩ : MethodRef) := fun j => by
    have := congrArg (Option.map fun t : TypeDef => (⟨t.name, s.name, s.types⟩ : MethodRef))
      (type?_bare_congr h j)
    simpa [Option.map_map, Function.comp_def, TypeDef.bare] using this
  have hfind : ∀ j, (a.type? j).bind (·.findSignature? s) =
      (b.type? j).bind (·.findSignature? s) := fun j => by
    have := congrArg (Option.bind · (·.findSignature? s)) (type?_bare_congr h j)
    simpa [Option.bind_map, Function.comp_def, TypeDef.findSignature?_bare] using this
  have hfirst := firstWith_congr hfind
  simp only [findInBase?, ancestors_congr (faces_of_bare_eq h), hfirst, hname]

end Assembly

/-- An assembly after base calls were led on. -/
structure Assembly.Relinked (a b : Assembly) : Prop where
  bare : b.bare = a.bare
  types : ∀ i t, a.type? i = some t → ∃ u, b.type? i = some u ∧ t.Relinked u

theorem Assembly.Relinked.refl (a : Assembly) : a.Relinked a :=
  ⟨rfl, fun _ t ht => ⟨t, ht, .refl t⟩⟩

theorem Assembly.Relinked.trans {a b c : Assembly} (h : a.Relinked b) (h' : b.Relinked c) :
    a.Relinked c := by
  refine ⟨h'.bare.trans h.bare, fun i t ht => ?_⟩
  obtain ⟨u, hu, htu⟩ := h.types i t ht
  obtain ⟨v, hv, huv⟩ := h'.types i u hu
  exact ⟨v, hv, htu.trans huv⟩

namespace LogicLink

variable {link : LogicLink} {a b : Assembly} {i : TypeId} {above : List TypeId} {t : TypeDef}
  {p : Procedure}

/-! ### Links of generated logic -/

/-- A link stands for the logic generated for its procedure. -/
structure Ready (link : LogicLink) (a : Assembly) (i : TypeId) (above : List TypeId)
    (t : TypeDef) (p : Procedure) : Prop where
  find : a.find? link.typeName = some i
  type : a.type? i = some t
  above : a.ancestors i = .ok above
  logic : t.procedure? link.logic = some p
  origin : p.origin = .synthesized ⟨.logic, link.served⟩
  name : p.name = (⟨.logic, link.served⟩ : SynthKey).mangledName

/-- What a ready link stands for is found from its name and its position. -/
theorem Ready.eq_of_find {k : TypeId} {above' : List TypeId} {u : TypeDef} {q : Procedure}
    (h : link.Ready a i above t p) (hfind : a.find? link.typeName = some k)
    (habove : a.ancestors k = .ok above') (hu : a.type? k = some u)
    (hq : u.procedure? link.logic = some q) : k = i ∧ above' = above ∧ u = t ∧ q = p := by
  obtain rfl : k = i := Option.some.inj (hfind.symm.trans h.find)
  obtain rfl : u = t := Option.some.inj (hu.symm.trans h.type)
  exact ⟨rfl, Except.ok.inj (habove.symm.trans h.above), rfl,
    Option.some.inj (hq.symm.trans h.logic)⟩

/-- What a link asks the types above for. -/
def wanted (link : LogicLink) : Signature :=
  ⟨(⟨.logic, link.served⟩ : SynthKey).mangledName, link.served.types⟩

/-- The code of a link's logic has no base calls. -/
def Quiet (link : LogicLink) (a : Assembly) (above : List TypeId) (p : Procedure) : Prop :=
  ∀ body, p.body = some body → body.nested.any (link.isBaseCall (a.namesOf above)) = false

theorem findInBase?_ok (h : a.ancestors i = .ok above) (s : Signature) :
    ∃ found, a.findInBase? i s = .ok found := by
  rw [Assembly.findInBase?, h]
  exact ⟨_, rfl⟩

/-- What following a ready link asks, and what it does. -/
theorem redirect_eq (h : link.Ready a i above t p) {body : Body} {found : Option MethodRef}
    (hb : p.body = some body) (hf : a.findInBase? i link.wanted = .ok found) :
    link.redirect a =
      if !body.nested.any (link.isBaseCall (a.namesOf above)) then .ok (a, 0)
      else
        match found with
        | none => .error (.baseLogicNotFound link.typeName link.wanted.name)
        | some ref =>
          let (body, patched) := (body.mapNestedM (link.retarget (a.namesOf above) ref)).run 0
          .ok (a.set i (t.modify link.logic (·.withBody body)), patched) := by
  rw [wanted] at hf
  rw [redirect]
  simp only [Assembly.find, h.find, h.above, Assembly.type, h.type, TypeDef.procedure, h.logic,
    Except.mapError, bind, Except.bind, h.name, hb, hf]
  cases found <;> rfl

theorem redirect_of_quiet (h : link.Ready a i above t p) (hq : link.Quiet a above p) :
    link.redirect a = .ok (a, 0) := by
  cases hb : p.body with
  | none =>
    rw [redirect]
    simp only [Assembly.find, h.find, h.above, Assembly.type, h.type, TypeDef.procedure, h.logic,
      Except.mapError, bind, Except.bind, hb]
  | some body =>
    obtain ⟨found, hf⟩ := findInBase?_ok h.above link.wanted
    rw [redirect_eq h hb hf, hq body hb]
    rfl

/-- The logic found above is not the procedure that is served. -/
theorem isBaseRef_wanted {ref : MethodRef} (names : List String)
    (h : a.findInBase? i link.wanted = .ok (some ref)) : link.isBaseRef names ref = false := by
  have hsig : ref.signature = link.wanted := by
    unfold Assembly.findInBase? at h
    cases hab : a.ancestors i with
    | error e => simp [hab, bind, Except.bind] at h
    | ok is =>
      simp only [hab, bind, Except.bind, Except.ok.injEq, Option.bind_eq_some_iff,
        Option.map_eq_some_iff] at h
      obtain ⟨_, -, t, -, rfl⟩ := h
      rfl
  have hne : ref.signature ≠ link.served := by
    rw [hsig]
    intro he
    exact SynthKey.mangledName_ne ⟨.logic, link.served⟩ (congrArg Signature.name he)
  simp [isBaseRef, hne]

/-- A base call that has been led to a logic is none to the call any more, so code that was led on
leaves nothing for a second pass. -/
theorem Quiet.of_led {ref : MethodRef} (h : a.findInBase? i link.wanted = .ok (some ref))
    {body : Body} (hbody : p.body =
      some ((body.mapNestedM (link.retarget (a.namesOf above) ref)).run 0).1) :
    link.Quiet a above p := by
  intro c hc
  obtain rfl := Option.some.inj (hbody.symm.trans hc)
  rw [List.any_eq_false]
  intro x hx
  simp [nested_led_block (isBaseRef_wanted (a.namesOf above) h) body.code 0 x hx]

theorem Quiet.congr {q : Procedure} (h : link.Quiet a above p) (hbare : b.bare = a.bare)
    (hbody : q.body = p.body) : link.Quiet b above q := by
  rw [Quiet, Assembly.namesOf_congr hbare above, hbody]
  exact h

/-- Following a link again changes nothing, or fails in the given way. -/
inductive Settled (link : LogicLink) (a : Assembly) (i : TypeId) (above : List TypeId)
    (p : Procedure) : Option LinkError → Prop
  | quiet (h : link.Quiet a above p) : Settled link a i above p none
  | missing {body : Body} (hb : p.body = some body)
      (hany : body.nested.any (link.isBaseCall (a.namesOf above)) = true)
      (hf : a.findInBase? i link.wanted = .ok none) :
      Settled link a i above p (some (.baseLogicNotFound link.typeName link.wanted.name))

theorem Settled.redirect {failure : Option LinkError} (hs : link.Settled a i above p failure)
    (h : link.Ready a i above t p) :
    link.redirect a =
      match failure with
      | none => .ok (a, 0)
      | some e => .error e := by
  cases hs with
  | quiet hq => exact redirect_of_quiet h hq
  | missing hb hany hf =>
    rw [redirect_eq h hb hf, hany]
    rfl

theorem Settled.congr {failure : Option LinkError} {q : Procedure}
    (hs : link.Settled a i above p failure) (hbare : b.bare = a.bare) (hbody : q.body = p.body) :
    link.Settled b i above q failure := by
  cases hs with
  | quiet hq => exact .quiet (hq.congr hbare hbody)
  | missing hb hany hf =>
    exact .missing (hbody.trans hb) (by rw [Assembly.namesOf_congr hbare above]; exact hany)
      (by rw [Assembly.findInBase?_congr hbare]; exact hf)

/-- A link that is ready stays ready. -/
theorem Ready.relinked (h : link.Ready a i above t p) (hr : a.Relinked b) :
    ∃ u q, link.Ready b i above u q ∧ t.Relinked u ∧ q.heading = p.heading := by
  obtain ⟨u, hu, htu⟩ := hr.types i t h.type
  have hfaces := Assembly.faces_of_bare_eq hr.bare
  have hq := TypeDef.procedure?_bare u link.logic
  rw [htu.bare, TypeDef.procedure?_bare, h.logic, Option.map_some, eq_comm,
    Option.map_eq_some_iff] at hq
  obtain ⟨q, hq, hhead⟩ := hq
  refine ⟨u, q, ⟨?_, hu, ?_, hq, ?_, ?_⟩, htu, hhead⟩
  · rw [Assembly.find?_congr hfaces, h.find]
  · rw [Assembly.ancestors_congr hfaces, h.above]
  · rw [← q.origin_heading, hhead, p.origin_heading, h.origin]
  · have hname : q.heading.name = p.heading.name := by rw [hhead]
    exact hname.trans h.name

/-- The logic of a ready link with other code. -/
theorem Ready.fill (h : link.Ready a i above t p) {body : Body} (hb : p.body = some body)
    (hany : body.nested.any (link.isBaseCall (a.namesOf above)) = true) (b : Body) :
    a.Relinked (a.set i (t.fill link.logic b)) := by
  have hnot : ¬ p.Plain := by
    intro hplain
    obtain ⟨x, hx, hcall⟩ := List.any_eq_true.mp hany
    rw [isBaseCall, hplain body hb x hx] at hcall
    cases hcall
  have htype : t.Relinked (t.fill link.logic b) := by
    refine ⟨TypeDef.bare_fill t _ b, fun k q hq ho => ?_⟩
    have hne : link.logic ≠ k := by
      rintro rfl
      obtain rfl := Option.some.inj (h.logic.symm.trans hq)
      rcases ho with ho | ho
      · exact ho _ h.origin
      · exact hnot ho
    rw [TypeDef.fill, TypeDef.procedure?_modify, if_neg hne, hq]
  refine ⟨?_, fun k u hu => ?_⟩
  · exact Assembly.map_types_set _ h.type (TypeDef.bare_fill ..)
  · by_cases hk : i = k
    · subst hk
      obtain rfl := Option.some.inj (h.type.symm.trans hu)
      exact ⟨_, Assembly.type?_set_self h.type, htype⟩
    · exact ⟨u, (Assembly.type?_set_of_ne _ _ hk).trans hu, .refl u⟩

/-! ### Following links -/

/-- The procedure at a position of the type at a position. -/
def procedureAt (a : Assembly) (i : TypeId) (id : ProcedureId) : Option Procedure :=
  (a.type? i).bind (·.procedure? id)

/-- Two links have the same logic. -/
def SameLogic (link other : LogicLink) : Prop :=
  link.typeName = other.typeName ∧ link.logic = other.logic

theorem name_of_find? {name : String} (h : a.find? name = some i) (ht : a.type? i = some t) :
    t.name = name := by
  obtain ⟨hi, hname, -⟩ := List.findIdx?_eq_some_iff_getElem.mp h
  obtain ⟨hi', rfl⟩ := List.getElem?_eq_some_iff.mp ht
  simpa using hname

theorem Ready.procedureAt (h : link.Ready a i above t p) :
    LogicLink.procedureAt a i link.logic = some p := by
  rw [LogicLink.procedureAt, h.type, Option.bind_some, h.logic]

/-- Filling a procedure leaves the code of all others. -/
theorem procedureAt_set_fill (ht : a.type? i = some t) (id : ProcedureId) (body : Body)
    {k : TypeId} {l : ProcedureId} (hkl : ¬ (k = i ∧ l = id)) :
    procedureAt (a.set i (t.fill id body)) k l = procedureAt a k l := by
  rw [procedureAt, procedureAt]
  by_cases hk : k = i
  · subst hk
    have hl : id ≠ l := fun hl => hkl ⟨rfl, hl.symm⟩
    rw [Assembly.type?_set_self ht, ht, Option.bind_some, Option.bind_some, TypeDef.fill,
      TypeDef.procedure?_modify, if_neg hl]
  · rw [Assembly.type?_set_of_ne _ _ (Ne.symm hk)]

/-- A link is ready, and following it changes nothing, or fails in the given way. -/
def SettledIn (link : LogicLink) (a : Assembly) (failure : Option LinkError) : Prop :=
  ∃ i above t p, link.Ready a i above t p ∧ link.Settled a i above p failure

/-- What is said of a failure. -/
def said (failure : Option LinkError) : Log :=
  match failure with
  | none => []
  | some e => Log.error e.message

/-- Following a link that is settled changes nothing, and a failure is said. -/
theorem Settled.follow {w : Weaving} {failure : Option LinkError}
    (hs : link.Settled w.assembly i above p failure) (h : link.Ready w.assembly i above t p) :
    w.follow link = ({ w with log := w.log ++ said failure }, failure) := by
  rw [Weaving.follow, hs.redirect h]
  cases failure with
  | none => simp only [said, List.append_nil]
  | some e => rfl

/-- Following a link that is ready settles it, and changes no other code. -/
theorem Ready.follow {w : Weaving} (h : link.Ready w.assembly i above t p) :
    ∃ failure b, w.follow link =
        ({ w with assembly := b, log := w.log ++ said failure }, failure) ∧
      w.assembly.Relinked b ∧ link.SettledIn b failure ∧
      ∀ k l, ¬ (k = i ∧ l = link.logic) →
        LogicLink.procedureAt b k l = LogicLink.procedureAt w.assembly k l := by
  by_cases hq : link.Quiet w.assembly above p
  · exact ⟨none, w.assembly, (Settled.quiet hq).follow h, .refl _, ⟨i, above, t, p, h, .quiet hq⟩,
      fun _ _ _ => rfl⟩
  -- some base call is to be led on: to the logic above, if there is one
  · obtain ⟨body, hb, hany⟩ : ∃ body, p.body = some body ∧
        body.nested.any (link.isBaseCall (w.assembly.namesOf above)) = true := by
      simpa [Quiet] using hq
    obtain ⟨found, hf⟩ := findInBase?_ok h.above link.wanted
    cases found with
    | none =>
      have hs := Settled.missing hb hany hf
      exact ⟨_, w.assembly, hs.follow h, .refl _, ⟨i, above, t, p, h, hs⟩, fun _ _ _ => rfl⟩
    | some ref =>
      let body' := ((body.mapNestedM
        (link.retarget (w.assembly.namesOf above) ref)).run 0).1
      have hrelink := h.fill hb hany body'
      have hcode : w.follow link =
          ({ w with assembly := w.assembly.set i (t.fill link.logic body') }, none) := by
        rw [Weaving.follow, redirect_eq h hb hf, hany]
        rfl
      obtain ⟨u, q, hready, -, -⟩ := h.relinked hrelink
      have hu : u = t.fill link.logic body' :=
        Option.some.inj (hready.type.symm.trans (Assembly.type?_set_self h.type))
      have hqbody : q.body = some body' := by
        have := hready.logic
        rw [hu, TypeDef.fill, TypeDef.procedure?_modify, if_pos rfl, h.logic] at this
        rw [← Option.some.inj this]
        rfl
      have hquiet : link.Quiet (w.assembly.set i (t.fill link.logic body')) above q :=
        (Quiet.of_led hf hqbody).congr hrelink.bare rfl
      exact ⟨none, _, by rw [hcode, said, List.append_nil], hrelink,
        ⟨i, above, u, q, hready, .quiet hquiet⟩,
        fun _ _ hkl => procedureAt_set_fill h.type link.logic body' hkl⟩

end LogicLink

end RpcLoom
