/-
RpcLoom/Proofs/Growth.lean

Types and assemblies to which procedures are added.

Design.  Procedures come in at the end of their types, and adding fails only for
a signature that is taken (`declare?_eq_some_iff`).  Generated procedures take
none that a user would choose.  So what can be added to some types can be added to
the same types once they are woven (`declareAll?_of_taken`), and in both it comes
to the same: the same procedures follow those that are there
(`type?_of_declareAll?`).  What is read from declared procedures, such as the
calls and their contracts, is then what was read before, and more.
-/
import RpcLoom.Proofs.Foreseen
import RpcLoom.Proofs.Generated
import RpcLoom.Proofs.Histories

namespace RpcLoom

/-! ### Types -/

namespace TypeDef

/-- A type with more procedures at the end. -/
def extend (t : TypeDef) (ps : List Procedure) : TypeDef :=
  { t with procedures := t.procedures ++ ps }

/-- Procedures may be added to a type: they have different signatures, and none that is taken. -/
structure Admits (t : TypeDef) (ps : List Procedure) : Prop where
  differ : (ps.map (·.signature)).Nodup
  new : ∀ p ∈ ps, t.findSignature? p.signature = none

variable {t u : TypeDef} {ps : List Procedure} {p : Procedure} {i : ProcedureId} {s : Signature}
  {key : SynthKey}

@[simp] theorem extend_nil (t : TypeDef) : t.extend [] = t := by
  simp [extend]

theorem extend_push (t : TypeDef) (p : Procedure) (ps : List Procedure) :
    (t.push p).extend ps = t.extend (p :: ps) := by
  simp [extend, push]

theorem findSignature?_push_eq_none : (t.push p).findSignature? s = none ↔
    t.findSignature? s = none ∧ p.signature ≠ s := by
  simp [findSignature?, push, List.findIdx?_append]

theorem Admits.push (h : (t.push p).Admits ps) (hnew : t.findSignature? p.signature = none) :
    t.Admits (p :: ps) := by
  refine ⟨List.nodup_cons.mpr ⟨fun hmem => ?_, h.differ⟩, fun q hq => ?_⟩
  · obtain ⟨q, hq, hsame⟩ := List.mem_map.mp hmem
    exact (findSignature?_push_eq_none.mp (h.new q hq)).2 hsame.symm
  · rcases List.mem_cons.mp hq with rfl | hq
    · exact hnew
    · exact (findSignature?_push_eq_none.mp (h.new q hq)).1

theorem procedure?_extend_cases (h : (t.extend ps).procedure? i = some p) :
    t.procedure? i = some p ∨ t.procedures.length ≤ i ∧
      ps[i - t.procedures.length]? = some p := by
  rcases Nat.lt_or_ge i t.procedures.length with hi | hi
  · left
    rw [procedure?, extend, List.getElem?_append_left hi] at h
    exact h
  · right
    rw [procedure?, extend, List.getElem?_append_right hi] at h
    exact ⟨hi, h⟩

theorem procedure?_extend (h : t.procedure? i = some p) : (t.extend ps).procedure? i = some p := by
  rw [procedure?, extend, List.getElem?_append_left (lt_of_procedure? h)]
  exact h

/-! ### What is declared -/

/-- Declared procedures come after those that are declared already. -/
theorem outline_extend (t : TypeDef) (hd : ∀ p ∈ ps, p.isDeclared = true) :
    (t.extend ps).outline.map (·.2) = t.outline.map (·.2) ++ ps.map (·.heading) := by
  induction ps generalizing t with
  | nil => simp
  | cons p ps ih =>
    rw [← extend_push, ih (t.push p) fun q hq => hd q (by simp [hq]),
      outline_declare t (hd p (by simp))]
    simp

theorem remoteCount_extend (t : TypeDef) (ps : List Procedure) :
    (t.extend ps).remoteCount =
      t.remoteCount + ps.countP fun p => p.isDeclared && p.isRemote := by
  simp [remoteCount, extend, List.countP_append]

/-- Nothing that is declared is generated for a key. -/
theorem findSynthesized?_extend (t : TypeDef) (hd : ∀ p ∈ ps, p.isDeclared = true)
    (key : SynthKey) : (t.extend ps).findSynthesized? key = t.findSynthesized? key := by
  have hnone : ps.findIdx? (·.origin == .synthesized key) = none := by
    rw [List.findIdx?_eq_none_iff]
    intro p hp
    have := hd p hp
    simp only [Procedure.isDeclared, beq_iff_eq] at this
    simp [this]
  rw [findSynthesized?, extend, List.findIdx?_append, hnone]
  simp [findSynthesized?]

theorem generated?_extend (t : TypeDef) (hd : ∀ p ∈ ps, p.isDeclared = true) (key : SynthKey) :
    (t.extend ps).generated? key = t.generated? key := by
  rw [generated?, findSynthesized?_extend t hd, generated?]
  cases hi : t.findSynthesized? key with
  | none => rfl
  | some i =>
    obtain ⟨p, hp, -⟩ := procedure?_of_findSynthesized? hi
    rw [Option.bind_some, Option.bind_some, hp, procedure?_extend hp]

theorem Canonical.extend (h : t.Canonical) (hd : ∀ p ∈ ps, p.isDeclared = true) :
    (t.extend ps).Canonical := by
  induction ps generalizing t with
  | nil =>
    rw [extend_nil]
    exact h
  | cons p ps ih =>
    rw [← extend_push]
    exact ih (h.declare (hd p (by simp))) fun q hq => hd q (by simp [hq])

theorem LeavesFree.extend (h : t.LeavesFree) (hd : ∀ p ∈ ps, p.isDeclared = true)
    (huser : ∀ p ∈ ps, UserName p.name) : (t.extend ps).LeavesFree := by
  intro x hx key hsig
  have hmem : x.2 ∈ (t.extend ps).outline.map (·.2) := List.mem_map_of_mem hx
  rw [outline_extend t hd] at hmem
  rcases List.mem_append.mp hmem with hold | hnew
  · obtain ⟨y, hy, hyx⟩ := List.mem_map.mp hold
    exact h y hy key (hyx ▸ hsig)
  · obtain ⟨p, hp, hpx⟩ := List.mem_map.mp hnew
    have hname : p.name = key.mangledName := by
      rw [← hpx] at hsig
      exact congrArg Signature.name hsig
    refine huser p hp key.role ⟨key.signature.mangled.toList, ?_⟩
    rw [hname, SynthKey.mangledName, String.toList_append]

/-! ### Types with gaps -/

/-- A type in which nothing stands in the way of weaving but procedures without a body, none of
which shares its signature or finds a logic in its place. -/
structure Tidy (t : TypeDef) : Prop where
  canonical : t.Canonical
  free : t.LeavesFree
  gaps : ∀ i p, t.procedure? i = some p → p.isDeclared = true → p.body = none →
    t.findSynthesized? ⟨.logic, p.signature⟩ = none ∧
      ∀ k q, t.procedure? k = some q → q.isDeclared = true → q.signature = p.signature → k = i

theorem Whole.tidy (ht : t.Whole) : t.Tidy :=
  ⟨ht.canonical, ht.free, fun i p hp hd hbody => absurd hbody (ht.bodies i p hp hd)⟩

/-- Procedures with or without bodies may be added to a type in which nothing stands in the way. -/
theorem Whole.tidy_extend (ht : t.Whole) (hadmits : t.Admits ps)
    (hd : ∀ p ∈ ps, p.isDeclared = true) (huser : ∀ p ∈ ps, UserName p.name)
    (hlogic : ∀ s, (t.findSynthesized? ⟨.logic, s⟩).isSome = true →
      ∃ q ∈ t.procedures, q.signature = s) : (t.extend ps).Tidy where
  canonical := ht.canonical.extend hd
  free := ht.free.extend hd huser
  gaps i p hp hdecl hbody := by
    -- the procedure is a new one, so its signature is not that of an old one
    rcases procedure?_extend_cases hp with hold | ⟨hi, hnew⟩
    · exact absurd hbody (ht.bodies i p hold hdecl)
    have hfresh := hadmits.new p (List.mem_of_getElem? hnew)
    rw [findSignature?, List.findIdx?_eq_none_iff] at hfresh
    constructor
    · rw [findSynthesized?_extend t hd]
      cases hl : t.findSynthesized? ⟨.logic, p.signature⟩ with
      | none => rfl
      | some l =>
        obtain ⟨q, hq, hsame⟩ := hlogic p.signature (by rw [hl]; rfl)
        simpa [hsame] using hfresh q hq
    · intro k q hq _ hsame
      rcases procedure?_extend_cases hq with hold | ⟨hk, hnew'⟩
      · simpa [hsame] using hfresh q (List.mem_of_getElem? hold)
      · have hget : (ps.map (·.signature))[k - t.procedures.length]? =
            (ps.map (·.signature))[i - t.procedures.length]? := by
          rw [List.getElem?_map, List.getElem?_map, hnew, hnew', Option.map_some, Option.map_some,
            hsame]
        have hlt : k - t.procedures.length < (ps.map (·.signature)).length := by
          rw [List.length_map]
          exact (List.getElem?_eq_some_iff.mp hnew').1
        have hoffset := (List.getElem?_inj hlt hadmits.differ).mp hget
        calc k = k - t.procedures.length + t.procedures.length := (Nat.sub_add_cancel hk).symm
          _ = i - t.procedures.length + t.procedures.length := by rw [hoffset]
          _ = i := Nat.sub_add_cancel hi

end TypeDef

/-! ### Calls -/

/-- The declared procedures among some that keep the rules of remote calls, with their contracts,
in order. -/
def Codec.calls (codec : Codec) (ps : List Procedure) : List (Procedure × Contract) :=
  ps.filterMap fun p => if p.isDeclared then (p.keeps? codec).map (p, ·) else none

/-- The logic of the first call of a signature. -/
def Codec.logicFor? (codec : Codec) (ps : List Procedure) (s : Signature) : Option Procedure :=
  (codec.calls ps).findSome? fun x => if s = x.1.signature then x.1.body.map x.1.logicOf else none

namespace Codec

variable {codec : Codec} {ps qs : List Procedure} {s : Signature} {p : Procedure} {c : Contract}

theorem calls_append (codec : Codec) (ps qs : List Procedure) :
    codec.calls (ps ++ qs) = codec.calls ps ++ codec.calls qs :=
  List.filterMap_append

theorem mem_calls : (p, c) ∈ codec.calls ps ↔
    p ∈ ps ∧ p.isDeclared = true ∧ p.keeps? codec = some c := by
  simp only [calls, List.mem_filterMap, Option.ite_none_right_eq_some, Option.map_eq_some_iff,
    Prod.mk.injEq]
  constructor
  · rintro ⟨q, hq, hd, c', hc, rfl, rfl⟩
    exact ⟨hq, hd, hc⟩
  · rintro ⟨hp, hd, hc⟩
    exact ⟨p, hp, hd, c, hc, rfl, rfl⟩

theorem logicFor?_append (codec : Codec) (ps qs : List Procedure) (s : Signature) :
    codec.logicFor? (ps ++ qs) s = (codec.logicFor? ps s).or (codec.logicFor? qs s) := by
  rw [logicFor?, calls_append, List.findSome?_append]
  rfl

/-- Logic is made for a call. -/
theorem of_logicFor? {q : Procedure} (h : codec.logicFor? ps s = some q) :
    ∃ x ∈ codec.calls ps, x.1.signature = s ∧ ∃ body, x.1.body = some body ∧
      q = x.1.logicOf body := by
  obtain ⟨x, hx, hq⟩ := List.exists_of_findSome?_eq_some h
  by_cases hs : s = x.1.signature
  · rw [if_pos hs] at hq
    obtain ⟨body, hbody, rfl⟩ := Option.map_eq_some_iff.mp hq
    exact ⟨x, hx, hs.symm, body, hbody, rfl⟩
  · rw [if_neg hs] at hq
    cases hq

/-- The headings of calls and their contracts are read from an outline. -/
theorem map_calls (codec : Codec) (t : TypeDef) :
    (codec.calls t.procedures).map (fun x => (x.1.heading, x.2)) =
      t.outline.filterMap fun x => (x.2.keeps? codec).map (x.2, ·) := by
  have hall : ∀ (ps : List Procedure) (k : Nat),
      (codec.calls ps).map (fun x => (x.1.heading, x.2)) =
        ((ps.zipIdx k).filterMap fun x =>
          if x.1.isDeclared then some (x.2, x.1.heading) else none).filterMap
            fun x => (x.2.keeps? codec).map (x.2, ·) := by
    intro ps
    induction ps with
    | nil => intro k; rfl
    | cons p ps ih =>
      intro k
      have hkeeps : p.heading.keeps? codec = p.keeps? codec := rfl
      have hih := ih (k + 1)
      simp only [calls] at hih
      by_cases hd : p.isDeclared = true
      · cases hc : p.keeps? codec <;> simp [calls, hd, hc, hkeeps, hih]
      · simp [calls, hd, hih]
  exact hall t.procedures 0

/-- What is seen of the calls without their bodies, but for whether there is one. -/
def shape (codec : Codec) (ps : List Procedure) : List (Procedure × Contract × Bool) :=
  (codec.calls ps).map fun x => (x.1.heading, x.2, x.1.body.isSome)

theorem shape_append (codec : Codec) (ps qs : List Procedure) :
    codec.shape (ps ++ qs) = codec.shape ps ++ codec.shape qs := by
  rw [shape, calls_append, List.map_append]
  rfl

/-- In a type whose declared procedures have bodies all calls have one. -/
theorem shape_of_whole (codec : Codec) {t : TypeDef} (ht : t.Whole) : codec.shape t.procedures =
    (t.outline.filterMap fun x => (x.2.keeps? codec).map (x.2, ·)).map
      fun x => (x.1, x.2, true) := by
  rw [← codec.map_calls, List.map_map, shape]
  refine List.map_congr_left fun x hx => ?_
  obtain ⟨hp, hd, -⟩ := mem_calls.mp (show (x.1, x.2) ∈ codec.calls t.procedures from hx)
  obtain ⟨i, hi⟩ := List.getElem?_of_mem hp
  rw [Option.isSome_iff_ne_none.mpr (ht.bodies i x.1 hi hd)]
  rfl

/-- Of the logic for a signature only the code is not seen. -/
theorem isSome_logicFor? (codec : Codec) (ps : List Procedure) (s : Signature) :
    (codec.logicFor? ps s).isSome =
      (codec.shape ps).any fun x => x.2.2 && s == x.1.signature := by
  rw [logicFor?, shape, List.any_map]
  induction codec.calls ps with
  | nil => rfl
  | cons x rest ih =>
    rw [List.findSome?_cons, List.any_cons, ← ih]
    by_cases hs : s = x.1.signature
    · cases hbody : x.1.body <;> simp [hs, hbody]
    · simp [hs]

end Codec

/-! ### Assemblies -/

namespace Assembly

/-- The assembly with more declared procedures, each in the type at a position, added in order. -/
def declareAll? (a : Assembly) (adds : List (TypeId × Procedure)) : Option Assembly :=
  adds.foldlM (fun a x => a.declare? x.1 x.2) a

/-- The procedures that are added to the type at a position. -/
def addedTo (adds : List (TypeId × Procedure)) (i : TypeId) : List Procedure :=
  adds.filterMap fun x => if x.1 = i then some x.2 else none

variable {a b c : Assembly} {adds : List (TypeId × Procedure)} {i : TypeId} {p : Procedure}

theorem mem_addedTo : p ∈ addedTo adds i ↔ (i, p) ∈ adds := by
  simp only [addedTo, List.mem_filterMap, Option.ite_none_right_eq_some, Option.some.injEq,
    Prod.exists]
  constructor
  · rintro ⟨k, q, hmem, rfl, rfl⟩
    exact hmem
  · intro h
    exact ⟨i, p, h, rfl, rfl⟩

/-- A declared procedure can be added wherever its signature is not taken. -/
theorem declare?_eq_some_iff (hd : p.isDeclared = true) : a.declare? i p = some b ↔
    ∃ t, a.type? i = some t ∧ t.findSignature? p.signature = none ∧ b = a.set i (t.push p) := by
  have horigin : p.origin = .declared := by simpa [Procedure.isDeclared] using hd
  have hadd : ∀ t : TypeDef, t.add p = if (t.findSignature? p.signature).isSome then
      .error (.duplicateSignature t.name p.signature.text) else .ok (t.push p, t.procedures.length) :=
    fun t => by
      rw [TypeDef.add, horigin]
      rfl
  constructor
  · intro h
    obtain ⟨t, ht, h⟩ := Option.bind_eq_some_iff.mp h
    refine ⟨t, ht, ?_⟩
    rw [hadd] at h
    cases hs : t.findSignature? p.signature with
    | none =>
      rw [hs] at h
      exact ⟨rfl, (Option.some.inj h).symm⟩
    | some k =>
      rw [hs] at h
      cases h
  · rintro ⟨t, ht, hs, rfl⟩
    rw [declare?, ht, Option.bind_eq_bind, Option.bind_some, hadd, hs]
    rfl

/-- Procedures are added one after the other, each to what the ones before it left. -/
theorem declareAll?_cons_eq_some_iff {x : TypeId × Procedure} (hd : x.2.isDeclared = true) :
    a.declareAll? (x :: adds) = some b ↔
      ∃ t, a.type? x.1 = some t ∧ t.findSignature? x.2.signature = none ∧
        (a.set x.1 (t.push x.2)).declareAll? adds = some b := by
  rw [declareAll?, List.foldlM_cons, Option.bind_eq_bind, Option.bind_eq_some_iff]
  constructor
  · rintro ⟨_, hfirst, hrest⟩
    obtain ⟨t, ht, hnew, rfl⟩ := (declare?_eq_some_iff hd).mp hfirst
    exact ⟨t, ht, hnew, hrest⟩
  · rintro ⟨t, ht, hnew, hrest⟩
    exact ⟨_, (declare?_eq_some_iff hd).mpr ⟨t, ht, hnew, rfl⟩, hrest⟩

theorem addedTo_cons (i : TypeId) (x : TypeId × Procedure) :
    addedTo (x :: adds) i = if x.1 = i then x.2 :: addedTo adds i else addedTo adds i := by
  rw [addedTo, List.filterMap_cons]
  by_cases hx : x.1 = i <;> simp [hx, addedTo]

theorem type?_set_eq {t u : TypeDef} (ht : a.type? i = some t) (k : TypeId) :
    (a.set i u).type? k = if i = k then some u else a.type? k := by
  by_cases hk : i = k
  · subst hk
    rw [type?_set_self ht, if_pos rfl]
  · rw [type?_set_of_ne _ _ hk, if_neg hk]

/-- Every type is followed by what is added to it. -/
theorem type?_of_declareAll? (h : a.declareAll? adds = some b)
    (hd : ∀ x ∈ adds, x.2.isDeclared = true) (k : TypeId) :
    b.type? k = (a.type? k).map (·.extend (addedTo adds k)) ∧
      ∀ t, a.type? k = some t → t.Admits (addedTo adds k) := by
  induction adds generalizing a with
  | nil =>
    obtain rfl := Option.some.inj h
    refine ⟨?_, fun t _ => ⟨List.nodup_nil, fun p hp => nomatch hp⟩⟩
    cases a.type? k <;> simp [addedTo]
  | cons x adds ih =>
    obtain ⟨t, ht, hnew, hrest⟩ := (declareAll?_cons_eq_some_iff (hd x (by simp))).mp h
    obtain ⟨htype, hadmits⟩ := ih hrest fun y hy => hd y (by simp [hy])
    rw [type?_set_eq ht] at htype hadmits
    rw [addedTo_cons]
    by_cases hk : x.1 = k
    · subst hk
      simp only [if_true] at htype hadmits ⊢
      refine ⟨?_, fun t' ht' => ?_⟩
      · rw [htype, ht, Option.map_some, Option.map_some, TypeDef.extend_push]
      · obtain rfl := Option.some.inj (ht.symm.trans ht')
        exact (hadmits _ rfl).push hnew
    · simp only [if_neg hk] at htype hadmits ⊢
      exact ⟨htype, hadmits⟩

/-- What can be added to some types can be added to others in which nothing more is taken. -/
theorem declareAll?_of_taken (h : a.declareAll? adds = some b)
    (hd : ∀ x ∈ adds, x.2.isDeclared = true)
    (hsame : ∀ k t, a.type? k = some t → ∃ u, c.type? k = some u ∧ ∀ p, (k, p) ∈ adds →
      t.findSignature? p.signature = none → u.findSignature? p.signature = none) :
    ∃ d, c.declareAll? adds = some d := by
  induction adds generalizing a c with
  | nil => exact ⟨c, rfl⟩
  | cons x adds ih =>
    obtain ⟨t, ht, hnew, hrest⟩ := (declareAll?_cons_eq_some_iff (hd x (by simp))).mp h
    obtain ⟨u, hu, hfree⟩ := hsame x.1 t ht
    obtain ⟨d, hrest'⟩ := ih (c := c.set x.1 (u.push x.2)) hrest
      (fun y hy => hd y (by simp [hy])) fun k t' ht' => by
        rw [type?_set_eq ht] at ht'
        rw [type?_set_eq hu]
        by_cases hk : x.1 = k
        · subst hk
          rw [if_pos rfl] at ht' ⊢
          obtain rfl := Option.some.inj ht'
          refine ⟨_, rfl, fun p hp hnone => ?_⟩
          obtain ⟨hnone, hne⟩ := TypeDef.findSignature?_push_eq_none.mp hnone
          exact TypeDef.findSignature?_push_eq_none.mpr ⟨hfree p (by simp [hp]) hnone, hne⟩
        · rw [if_neg hk] at ht' ⊢
          obtain ⟨u', hu', hfree'⟩ := hsame k t' ht'
          exact ⟨u', hu', fun p hp => hfree' p (by simp [hp])⟩
    exact ⟨d, (declareAll?_cons_eq_some_iff (hd x (by simp))).mpr
      ⟨u, hu, hfree x.2 (by simp) hnew, hrest'⟩⟩

/-- No type gets another name or another base. -/
theorem alike_of_declareAll? (h : a.declareAll? adds = some b)
    (hd : ∀ x ∈ adds, x.2.isDeclared = true) : a.Alike b := by
  apply List.ext_getElem?
  intro k
  have hk := congrArg (Option.map fun t : TypeDef => (t.name, t.base))
    (type?_of_declareAll? h hd k).1
  rw [Option.map_map] at hk
  rw [List.getElem?_map, List.getElem?_map]
  exact hk.symm

end Assembly

end RpcLoom
