/-
RpcLoom/Proofs/Mishaps.lean

A call that fails does not disturb the others.

Design.  The run over a type is compared with the run over the same type in which
the failing call carries no remote annotation.  Both go through the annotated
procedures in order, and the failing call has its turn in the first run only.  This
turn takes no id, and it makes procedures of its own signature alone, or none, so it
leaves the type abreast of what it was.  Every other call then meets types that are
abreast, and the same counter, and so it ends in both runs in the same way
(`Loom.comes_weaveRemotes`).  Base calls are led on for the same logic in both runs.

Main result.  `Loom.failure_apart`: but for a call that may share its logic with
another one of its signature, a failure leaves the other calls of the type alone.
-/
import RpcLoom.Proofs.Abreast
import RpcLoom.Proofs.Repetition

namespace RpcLoom

open TypeDef (Abreast)

/-! ### What is claimed -/

namespace Procedure

/-- A procedure without its remote annotations. -/
def stripped (p : Procedure) : Procedure :=
  { p with attributes := p.attributes.filter fun x => ( Annotation.ofAttribute? x).isNone }

theorem isRemote_stripped (p : Procedure) : p.stripped.isRemote = false := by
  have hnone : p.stripped.annotations = [] := by
    rw [annotations, stripped, List.filterMap_filter, List.filterMap_eq_nil_iff]
    intro x _
    cases Annotation.ofAttribute? x <;> simp
  rw [isRemote, hnone]
  rfl

end Procedure

/-- A type in which one procedure carries no remote annotations. -/
def TypeDef.strip (t : TypeDef) (m : ProcedureId) : TypeDef := t.modify m Procedure.stripped

/-- How it ended for an annotated procedure. -/
inductive Ending where
  /-- It broke a rule. -/
  | refused (rejection : Rejection)
  /-- It kept the rules, but not all that it needs could be generated. -/
  | failed (cause : SynthesisError)
  | registered (registration : Registration)

namespace Ending

def registration? : Ending → Option Registration
  | .registered r => some r
  | _ => none

def refusal? : Ending → Option WeaveError
  | .refused r => some (.rejection r)
  | _ => none

def failure? : Ending → Option WeaveError
  | .failed e => some (.synthesis e)
  | _ => none

/-- An ending is one of the procedure at its position. -/
structure Of (codec : Codec) (x : ProcedureId × Procedure) (y : ProcedureId × Ending) : Prop where
  id : y.1 = x.1
  refused : ∀ r, y.2 = .refused r ↔ x.2.contract? codec = .error r
  registered : ∀ r, y.2 = .registered r → r.procedure = x.1

end Ending

/-- A report tells how it ended for each annotated procedure of a type. -/
structure TypeReport.Records (r : TypeReport) (codec : Codec) (t : TypeDef)
    (endings : List (ProcedureId × Ending)) : Prop where
  each : List.Forall₂ (Ending.Of codec) t.remotes endings
  registrations : r.registrations = endings.filterMap (·.2.registration?)
  errors : r.errors = endings.filterMap (·.2.refusal?) ++ endings.filterMap (·.2.failure?)

/-- Two registrations differ at most in where the receivers stand. -/
structure Registration.Matches (r s : Registration) : Prop where
  id : r.id = s.id
  procedure : r.procedure = s.procedure
  kinds : r.kinds = s.kinds
  runLocally : r.runLocally = s.runLocally
  handlers : r.handlers.map (fun h => (h.kind, h.readerRef, h.policy)) =
    s.handlers.map fun h => (h.kind, h.readerRef, h.policy)

/-- Two endings are the same, but for where receivers stand. -/
inductive Ending.Matches : Ending → Ending → Prop
  | refused (r : Rejection) : Matches (.refused r) (.refused r)
  | failed (e : SynthesisError) : Matches (.failed e) (.failed e)
  | registered {r s : Registration} (h : r.Matches s) : Matches (.registered r) (.registered s)

/-- Whatever weaving a procedure makes, no other call of the type can take it for its own: the
procedure is refused, or nothing is made of it since an argument cannot be packed, or no other call
that keeps the rules has its signature. -/
inductive TypeDef.SetApart (t : TypeDef) (codec : Codec) (m : ProcedureId) (p : Procedure) : Prop
  | refused {r : Rejection} (h : p.contract? codec = .error r)
  | unwritable {c : Contract} (h : p.contract? codec = .ok (some c)) {x : Nat × Parameter}
      (hx : x ∈ c.layout.fields p.parameters) (hw : codec.writerFor x.2.type = none)
  | alone (h : ∀ k q c, k ≠ m → t.procedure? k = some q → q.isDeclared = true →
      q.contract? codec = .ok (some c) → q.signature ≠ p.signature)

/-- What two runs, with a call and without it, have in common for the other procedures. -/
structure TypeDef.Undisturbed (t : TypeDef) (codec : Codec) (m : ProcedureId) (r r' : TypeReport)
    (u u' : TypeDef) : Prop where
  endings : ∃ es es', r.Records codec t es ∧ r'.Records codec (t.strip m) es' ∧
    (∃ e, (m, e) ∈ es ∧ e.registration? = none) ∧
    List.Forall₂ (fun x y => x.1 = y.1 ∧ x.2.Matches y.2) (es.filter (·.1 ≠ m)) es'
  generated : ∀ k q c role, k ≠ m → t.procedure? k = some q → q.isDeclared = true →
    q.contract? codec = .ok (some c) →
    u.generated? ⟨role, q.signature⟩ = u'.generated? ⟨role, q.signature⟩
  declared : ∀ k q, k ≠ m → q.isDeclared = true →
    (u.procedure? k = some q ↔ u'.procedure? k = some q)

/-! ### The type without the annotations -/

namespace TypeDef

variable {t : TypeDef} {m k : ProcedureId} {p : Procedure}

theorem procedure?_strip_of_ne (t : TypeDef) (hk : k ≠ m) :
    (t.strip m).procedure? k = t.procedure? k := by
  rw [strip, procedure?_modify, if_neg (Ne.symm hk)]

theorem Fresh.strip (ht : t.Fresh) (m : ProcedureId) : (t.strip m).Fresh := by
  intro k p hp
  obtain ⟨q, hq, rfl | ⟨-, rfl⟩⟩ := procedure?_modify_cases hp
  · exact ht k p hq
  · exact ht k q hq

theorem Fresh.abreast_strip (ht : t.Fresh) (S : Signature → Prop) (m : ProcedureId) :
    Abreast S m t (t.strip m) :=
  (abreast_modify (f := Procedure.stripped) ht.canonical (fun p hp => ht m p hp) (fun _ => rfl)
    fun _ => rfl).symm

theorem mem_remotes_strip {x : ProcedureId × Procedure} :
    x ∈ (t.strip m).remotes ↔ x ∈ t.remotes ∧ x.1 ≠ m := by
  obtain ⟨k, h⟩ := x
  rw [mem_remotes, mem_remotes]
  by_cases hk : k = m
  · subst hk
    constructor
    · rintro ⟨p, hp, -, hr, -⟩
      rw [strip, procedure?_modify, if_pos rfl, Option.map_eq_some_iff] at hp
      obtain ⟨q, -, rfl⟩ := hp
      cases q.isRemote_stripped.symm.trans hr
    · rintro ⟨-, hne⟩
      exact absurd rfl hne
  · rw [procedure?_strip_of_ne t hk]
    exact ⟨fun h => ⟨h, hk⟩, fun h => h.1⟩

/-- All other annotated procedures are as they were. -/
theorem remotes_strip (t : TypeDef) (m : ProcedureId) :
    (t.strip m).remotes = t.remotes.filter (·.1 ≠ m) := by
  have hsorted : ∀ u : TypeDef, u.remotes.Pairwise fun x y => x.1 < y.1 := fun u =>
    List.pairwise_map.mp (u.outline_sorted.sublist (List.filter_sublist.map _))
  have hnodup : ∀ u : TypeDef, u.remotes.Nodup := fun u => u.nodup_remotes.of_map _
  have hperm : (t.strip m).remotes.Perm (t.remotes.filter (·.1 ≠ m)) := by
    rw [List.perm_ext_iff_of_nodup (hnodup _) ((hnodup t).filter _)]
    intro x
    rw [mem_remotes_strip, List.mem_filter, decide_eq_true_eq]
  refine hperm.eq_of_pairwise ?_ (hsorted _) ((hsorted t).filter _)
  intro x y _ _ hxy hyx
  exact absurd (Nat.lt_trans hxy hyx) (Nat.lt_irrefl _)

/-- Without a body no contract is added. -/
theorem length_contracts_strip_le (t : TypeDef) (m : ProcedureId) (codec : Codec) :
    ((t.strip m).contracts codec).length ≤ (t.contracts codec).length := by
  rw [contracts_eq, contracts_eq, remotes_strip]
  exact (List.filter_sublist.filterMap _).length_le

theorem mem_contracts_of_keeps {codec : Codec} {x : ProcedureId × Procedure} {c : Contract}
    (hx : x ∈ t.remotes) (hc : x.2.keeps? codec = some c) : (x.1, c) ∈ t.contracts codec := by
  rw [contracts_eq, List.mem_filterMap]
  exact ⟨x, hx, by rw [hc, Option.map_some]⟩

end TypeDef

/-! ### From ending to ending -/

/-- Annotated procedures of a type have come to their endings. -/
structure TypeWeaving.Comes (codec : Codec) (w : TypeWeaving)
    (remotes : List (ProcedureId × Procedure)) (endings : List (ProcedureId × Ending))
    (w' : TypeWeaving) : Prop where
  each : List.Forall₂ (Ending.Of codec) remotes endings
  registrations : w'.registrations = w.registrations ++ endings.filterMap (·.2.registration?)
  errors : w'.errors = w.errors ++ endings.filterMap (·.2.failure?)

namespace TypeWeaving.Comes

variable {codec : Codec} {w w' w'' : TypeWeaving} {rs rs' : List (ProcedureId × Procedure)}
  {es es' : List (ProcedureId × Ending)}

theorem nil (codec : Codec) (w : TypeWeaving) : Comes codec w [] [] w :=
  ⟨.nil, by simp, by simp⟩

theorem append (h : Comes codec w rs es w') (h' : Comes codec w' rs' es' w'') :
    Comes codec w (rs ++ rs') (es ++ es') w'' := by
  refine ⟨List.rel_append h.each h'.each, ?_, ?_⟩
  · rw [h'.registrations, h.registrations, List.filterMap_append, List.append_assoc]
  · rw [h'.errors, h.errors, List.filterMap_append, List.append_assoc]

/-- The rules that are broken are those of the refusals. -/
theorem refusals_eq (h : List.Forall₂ (Ending.Of codec) rs es) :
    es.filterMap (·.2.refusal?) = (rs.filterMap fun x => x.2.breaks? codec).map .rejection := by
  induction h with
  | nil => rfl
  | @cons x y rs es hxy _ ih =>
    have hthis : y.2.refusal? = (x.2.breaks? codec).map WeaveError.rejection := by
      rw [Procedure.breaks?]
      cases hc : x.2.contract? codec with
      | error r => rw [(hxy.refused r).mpr hc]; rfl
      | ok c =>
        cases hy : y.2 with
        | refused r => cases hc.symm.trans ((hxy.refused r).mp hy)
        | failed e => rfl
        | registered reg => rfl
    rw [List.filterMap_cons, List.filterMap_cons, hthis, ih]
    cases x.2.breaks? codec <;> rfl

theorem exists_ending (h : List.Forall₂ (Ending.Of codec) rs es) {x : ProcedureId × Procedure}
    (hx : x ∈ rs) : ∃ e, (x.1, e) ∈ es := by
  induction h with
  | nil => cases hx
  | @cons x' y rs es hxy _ ih =>
    rcases List.mem_cons.mp hx with rfl | hx
    · exact ⟨y.2, hxy.id ▸ List.mem_cons_self⟩
    · obtain ⟨e, he⟩ := ih hx
      exact ⟨e, List.mem_cons_of_mem _ he⟩

/-- A registration is that of the procedure that ended with it. -/
theorem procedure_eq (h : List.Forall₂ (Ending.Of codec) rs es) {y : ProcedureId × Ending}
    (hy : y ∈ es) {r : Registration} (hr : y.2.registration? = some r) : r.procedure = y.1 := by
  induction h with
  | nil => cases hy
  | @cons x y' rs es hxy _ ih =>
    rcases List.mem_cons.mp hy with rfl | hy
    · obtain ⟨k, e⟩ := y
      cases e with
      | registered r' =>
        obtain rfl := Option.some.inj hr
        exact (hxy.registered r' rfl).trans hxy.id.symm
      | _ => cases hr
    · exact ih hy

end TypeWeaving.Comes

/-- What was registered was registered in both runs. -/
theorem Ending.registrations_match {es es' : List (ProcedureId × Ending)}
    (h : List.Forall₂ (fun x y => x.1 = y.1 ∧ x.2.Matches y.2) es es') :
    List.Forall₂ Registration.Matches (es.filterMap (·.2.registration?))
      (es'.filterMap (·.2.registration?)) := by
  refine List.rel_filterMap (fun x y hxy => ?_) h
  obtain ⟨k, e⟩ := x
  obtain ⟨k', e'⟩ := y
  cases hxy.2 with
  | refused | failed => exact .none
  | registered h => exact .some h

namespace Loom

variable {loom : Loom} {t : TypeDef} {w x : TypeWeaving} {S : Signature → Prop}
  {m id : ProcedureId} {p : Procedure} {c : Contract}

/-- Weaves an annotated procedure, if it keeps the rules. -/
def weaveRemote (loom : Loom) (w : TypeWeaving) (x : ProcedureId × Procedure) : TypeWeaving :=
  match x.2.keeps? loom.codec with
  | some c => loom.weaveNext w x.1 c
  | none => w

/-- Weaving the contracts of a type is going through its annotated procedures. -/
theorem foldl_contracts (loom : Loom) (t : TypeDef) (w : TypeWeaving) :
    (t.contracts loom.codec).foldl (fun w (id, c) => loom.weaveNext w id c) w =
      t.remotes.foldl loom.weaveRemote w := by
  rw [TypeDef.contracts_eq, List.foldl_filterMap]
  refine List.foldl_ext _ _ _ fun w x _ => ?_
  rw [weaveRemote]
  cases x.2.keeps? loom.codec <;> rfl

theorem comes_of_refused {y : ProcedureId × Procedure} {r : Rejection}
    (hc : y.2.contract? loom.codec = .error r) (w : TypeWeaving) :
    loom.weaveRemote w y = w ∧ w.Comes loom.codec [y] [(y.1, .refused r)] w := by
  have hkeeps : y.2.keeps? loom.codec = none := by rw [Procedure.keeps?, hc]
  refine ⟨by rw [weaveRemote, hkeeps], .cons ⟨rfl, fun r' => ?_, fun _ hr => by cases hr⟩ .nil,
    ?_, ?_⟩
  · rw [hc]
    simp
  · simp [Ending.registration?]
  · simp [Ending.failure?]

/-- A call that keeps the rules comes to be registered, or fails and takes no id. -/
theorem comes_of_kept {y : ProcedureId × Procedure}
    (hc : y.2.contract? loom.codec = .ok (some c)) (w : TypeWeaving) :
    (∃ log triad u, loom.weaveProcedure w.type y.1 c w.counter.next = (log, .ok triad u) ∧
      (loom.weaveRemote w y).type = u ∧ (loom.weaveRemote w y).counter = w.counter.assign.2 ∧
      w.Comes loom.codec [y] [(y.1, .registered (.ofTriad w.counter.next y.1 c triad))]
        (loom.weaveRemote w y)) ∨
    (∃ log e u, loom.weaveProcedure w.type y.1 c w.counter.next = (log, .error e u) ∧
      (loom.weaveRemote w y).type = u.fill y.1 .justLeave ∧
      (loom.weaveRemote w y).counter = w.counter ∧
      w.Comes loom.codec [y] [(y.1, .failed e)] (loom.weaveRemote w y)) := by
  have hkeeps : y.2.keeps? loom.codec = some c := by rw [Procedure.keeps?, hc]
  rw [weaveRemote, hkeeps]
  simp only [weaveNext]
  rcases hweave : loom.weaveProcedure w.type y.1 c w.counter.next with ⟨log, ⟨triad, u⟩ | ⟨e, u⟩⟩
  · refine .inl ⟨log, triad, u, rfl, rfl, rfl, .cons ⟨rfl, ?_, ?_⟩ .nil, ?_, ?_⟩
    · simp [hc]
    · rintro _ ⟨⟩
      rfl
    · rfl
    · simp [Ending.failure?]
  · refine .inr ⟨log, e, u, rfl, rfl, rfl, .cons ⟨rfl, ?_, fun _ hr => by cases hr⟩ .nil, ?_, ?_⟩
    · simp [hc]
    · simp [Ending.registration?]
    · rfl

/-- Registrations stay. -/
theorem registrations_weaveRemotes (loom : Loom) (rs : List (ProcedureId × Procedure))
    (w : TypeWeaving) : w.registrations <+: (rs.foldl loom.weaveRemote w).registrations := by
  induction rs generalizing w with
  | nil => exact List.prefix_rfl
  | cons y rs ih =>
    have hfirst : w.registrations <+: (loom.weaveRemote w y).registrations := by
      rw [weaveRemote]
      split
      · rw [weaveNext]
        split
        · exact List.prefix_rfl
        · exact List.prefix_append _ _
      · exact List.prefix_rfl
    exact hfirst.trans (ih _)

theorem outline_weaveRemote (loom : Loom) {y : ProcedureId × Procedure}
    (hy : y ∈ w.type.remotes) : (loom.weaveRemote w y).type.outline = w.type.outline := by
  rw [weaveRemote]
  cases hc : y.2.keeps? loom.codec with
  | none => rfl
  | some c =>
    obtain ⟨j, f, -, -, hturn⟩ := turn_of_weaveNext (TypeDef.mem_contracts_of_keeps hy hc)
    exact hturn.edits.outline_eq

end Loom

theorem Triad.Matches.registration {a b : Triad} (h : a.Matches b) (id : RpcId)
    (procedure : ProcedureId) (c : Contract) :
    (Registration.ofTriad id procedure c a).Matches (.ofTriad id procedure c b) := by
  refine ⟨rfl, rfl, rfl, rfl, ?_⟩
  rw [Registration.ofTriad, Registration.ofTriad, List.map_filterMap, List.map_filterMap]
  refine List.filterMap_congr fun kind _ => ?_
  rcases Stub.find?_matches h.readers kind with ⟨ha, hb⟩ | ⟨s, s', ha, hb, hs⟩
  · rw [Triad.reader?, ha, Triad.reader?, hb]
  · rw [Triad.reader?, ha, Triad.reader?, hb, Option.map_some, Option.map_some, Option.map_some,
      Option.map_some, hs.ref]

namespace Loom

variable {loom : Loom} {t : TypeDef} {w x : TypeWeaving} {S : Signature → Prop}
  {m : ProcedureId} {y : ProcedureId × Procedure}

/-- Another annotated procedure ends in both types in the same way. -/
theorem comes_weaveRemote (h : Abreast S m w.type x.type) (hcounter : w.counter = x.counter)
    (hy : y ∈ w.type.remotes) (hid : y.1 ≠ m)
    (hS : ∀ c, y.2.contract? loom.codec = .ok (some c) → S y.2.signature) :
    ∃ e e', e.Matches e' ∧ w.Comes loom.codec [y] [(y.1, e)] (loom.weaveRemote w y) ∧
      x.Comes loom.codec [y] [(y.1, e')] (loom.weaveRemote x y) ∧
      Abreast S m (loom.weaveRemote w y).type (loom.weaveRemote x y).type ∧
      (loom.weaveRemote w y).counter = (loom.weaveRemote x y).counter := by
  obtain ⟨p, hp, hd, hr, hhead⟩ := TypeDef.mem_remotes.mp hy
  rcases hc : y.2.contract? loom.codec with r | _ | c
  · obtain ⟨hw, hcomes⟩ := comes_of_refused hc w
    obtain ⟨hx, hcomes'⟩ := comes_of_refused hc x
    rw [hw, hx]
    exact ⟨_, _, .refused r, hcomes, hcomes', h, hcounter⟩
  · refine absurd hc (Procedure.contract?_ne_ok_none ?_ loom.codec)
    rw [hhead]
    exact hr
  · have hsig : y.2.signature = p.signature := by rw [hhead]; rfl
    have hstep := h.weaveProcedure loom (j := ⟨y.1, p, c, w.counter.next⟩) hid hp hd
      (hsig ▸ hS c hc)
    simp only at hstep
    rcases comes_of_kept hc w with
      ⟨_, triad, u, hweave, htype, hcount, hcomes⟩ | ⟨_, e, u, hweave, htype, hcount, hcomes⟩ <;>
      rcases comes_of_kept hc x with
        ⟨_, triad', u', hweave', htype', hcount', hcomes'⟩ |
        ⟨_, e', u', hweave', htype', hcount', hcomes'⟩ <;>
      rw [hweave] at hstep <;> rw [hcounter, hweave'] at hstep
    · obtain ⟨hmatch, habreast, -⟩ := hstep
      refine ⟨_, _, .registered (hmatch.registration _ y.1 c), hcomes, ?_, ?_, ?_⟩
      · rw [hcounter]
        exact hcomes'
      · rw [htype, htype']
        exact habreast
      · rw [hcount, hcount', hcounter]
    · cases hstep
    · cases hstep
    · cases hstep with
      | error _ hleft =>
        refine ⟨_, _, .failed e, hcomes, hcomes', ?_, ?_⟩
        · rw [htype, htype']
          exact hleft.1.fill hid hleft.2 .justLeave
        · rw [hcount, hcount', hcounter]

/-- An annotated procedure that is not registered takes no id. -/
theorem comes_of_mishap (hy : y.2.isRemote = true)
    (hfailed : ∀ r ∈ (loom.weaveRemote w y).registrations, r.procedure ≠ y.1) :
    ∃ e : Ending, e.registration? = none ∧
      w.Comes loom.codec [y] [(y.1, e)] (loom.weaveRemote w y) ∧
      (loom.weaveRemote w y).counter = w.counter := by
  rcases hc : y.2.contract? loom.codec with r | _ | c
  · obtain ⟨hw, hcomes⟩ := comes_of_refused hc w
    rw [hw]
    exact ⟨_, rfl, hcomes, rfl⟩
  · exact absurd hc (Procedure.contract?_ne_ok_none hy loom.codec)
  · rcases comes_of_kept hc w with
      ⟨_, triad, u, -, -, -, hcomes⟩ | ⟨_, e, u, -, -, hcount, hcomes⟩
    · refine absurd rfl (hfailed (.ofTriad w.counter.next y.1 c triad) ?_)
      rw [hcomes.registrations]
      exact List.mem_append_right _ (List.mem_singleton_self _)
    · exact ⟨_, rfl, hcomes, hcount⟩

/-- Going through annotated procedures, with the one that fails and without it, the others come to
the same endings, and the types stay abreast. -/
theorem comes_weaveRemotes
    (hS : ∀ y ∈ t.remotes, y.1 ≠ m → ∀ c, y.2.contract? loom.codec = .ok (some c) →
      S y.2.signature)
    (hown : ∀ w : TypeWeaving, w.type.Canonical → w.type.outline = t.outline → ∀ y ∈ t.remotes,
      y.1 = m → Abreast S m (loom.weaveRemote w y).type w.type)
    (rs : List (ProcedureId × Procedure)) (hrs : ∀ y ∈ rs, y ∈ t.remotes)
    (houtline : w.type.outline = t.outline) (h : Abreast S m w.type x.type)
    (hcounter : w.counter = x.counter)
    (hfailed : ∀ r ∈ (rs.foldl loom.weaveRemote w).registrations, r.procedure ≠ m) :
    ∃ es es', w.Comes loom.codec rs es (rs.foldl loom.weaveRemote w) ∧
      x.Comes loom.codec (rs.filter (·.1 ≠ m)) es'
        ((rs.filter (·.1 ≠ m)).foldl loom.weaveRemote x) ∧
      List.Forall₂ (fun e e' => e.1 = e'.1 ∧ e.2.Matches e'.2) (es.filter (·.1 ≠ m)) es' ∧
      Abreast S m (rs.foldl loom.weaveRemote w).type
        ((rs.filter (·.1 ≠ m)).foldl loom.weaveRemote x).type := by
  induction rs generalizing w x with
  | nil => exact ⟨[], [], .nil _ w, .nil _ x, .nil, h⟩
  | cons y rs ih =>
    have hy := hrs y (by simp)
    have hyw : y ∈ w.type.remotes := by rw [TypeDef.remotes_congr houtline]; exact hy
    have hrest : ∀ z ∈ rs, z ∈ t.remotes := fun z hz => hrs z (by simp [hz])
    have houtline' := (outline_weaveRemote loom hyw).trans houtline
    by_cases hm : y.1 = m
    · -- the failing procedure has its turn in the first run only
      have hthis : ∀ r ∈ (loom.weaveRemote w y).registrations, r.procedure ≠ y.1 := fun r hr =>
        hm ▸ hfailed r ((registrations_weaveRemotes loom rs _).subset hr)
      obtain ⟨e, -, hcomes, hcount⟩ :=
        comes_of_mishap (List.mem_filter.mp hy).2 hthis
      have habreast := (hown w h.left houtline y hy hm).trans h
      obtain ⟨es, es', hes, hes', hmatch, hfinal⟩ :=
        ih hrest houtline' habreast (hcount.trans hcounter) hfailed
      rw [List.filter_cons_of_neg (by simpa using hm)]
      refine ⟨(y.1, e) :: es, es', hcomes.append hes, hes', ?_, hfinal⟩
      rw [List.filter_cons_of_neg (by simpa using hm)]
      exact hmatch
    · obtain ⟨e, e', hthis, hcomes, hcomes', habreast, hcount⟩ :=
        comes_weaveRemote h hcounter hyw hm (hS y hy hm)
      obtain ⟨es, es', hes, hes', hmatch, hfinal⟩ := ih hrest houtline' habreast hcount hfailed
      rw [List.filter_cons_of_pos (by simpa using hm)]
      refine ⟨(y.1, e) :: es, (y.1, e') :: es', hcomes.append hes, hcomes'.append hes', ?_, hfinal⟩
      rw [List.filter_cons_of_pos (by simpa using hm)]
      exact .cons ⟨rfl, hthis⟩ hmatch

end Loom

/-! ### A call that is set apart -/

/-- A computation ends in an error. -/
def Fails {ε α : Type} (x : Except ε α) : Prop := ∃ e, x = .error e

namespace Fails

variable {α β ε : Type}

theorem bind {x : Except ε α} (h : Fails x) (f : α → Except ε β) : Fails (x >>= f) := by
  obtain ⟨e, rfl⟩ := h
  exact ⟨e, rfl⟩

theorem mapM {f : α → Except ε β} {as : List α} {a : α} (ha : a ∈ as) (h : Fails (f a)) :
    Fails (as.mapM f) := by
  induction as with
  | nil => cases ha
  | cons b as ih =>
    rw [List.mapM_cons]
    cases hb : f b with
    | error e => exact ⟨e, rfl⟩
    | ok y =>
      rcases List.mem_cons.mp ha with rfl | ha
      · obtain ⟨e, he⟩ := h
        cases he.symm.trans hb
      · exact (ih ha).bind _

end Fails

namespace Job

variable {loom : Loom} {j : Job} {t : TypeDef}

/-- No sender is made for a call with an argument that cannot be packed. -/
theorem senders_of_unwritable (loom : Loom) {x : Nat × Parameter}
    (hx : x ∈ j.contract.layout.fields j.served.parameters)
    (hw : loom.codec.writerFor x.2.type = none) : Fails (j.senders loom).2 := by
  have hpacking : ∀ writer, Fails (loom.packing j.served
      (j.contract.layout.fields j.served.parameters) writer) := by
    intro writer
    refine Fails.bind (Fails.mapM hx ?_) _
    exact ⟨.missingWriter j.served.name x.2.type.text, by simp only [hw]⟩
  cases hs : (j.senders loom).2 with
  | error e => exact ⟨e, rfl⟩
  | ok bodies =>
    obtain ⟨hkinds, hmade⟩ := Loom.senderBodies_spec hs
    cases bodies with
    | nil => exact absurd hkinds.symm j.contract.kinds.toList_ne_nil
    | cons b bodies =>
      have hnone : Fails (loom.senderBody j.served j.contract j.rpcId b.1) :=
        (hpacking _).bind _
      obtain ⟨e, he⟩ := hnone
      cases he.symm.trans (hmade b (by simp))

/-- Where no sender is made, nothing is. -/
theorem weaveProcedure_of_unsent (hj : t.procedure? j.id = some j.served)
    (hs : Fails (j.senders loom).2) :
    ∃ e, loom.weaveProcedure t j.id j.contract j.rpcId = ((j.senders loom).1, .error e t) := by
  obtain ⟨e, he⟩ := hs
  exact ⟨e, by rw [Loom.weaveProcedure, synthesize_eq hj, he]⟩

end Job

namespace TypeDef

variable {loom : Loom} {t : TypeDef} {m : ProcedureId} {p : Procedure}

/-- Where a type looks the same, an annotated procedure is there and is as it was but for its
body. -/
theorem heading_of_outline {u : TypeDef} (houtline : u.outline = t.outline)
    (hp : t.procedure? m = some p) {y : ProcedureId × Procedure} (hy : y ∈ t.remotes)
    (hm : y.1 = m) : y.2 = p.heading ∧
      ∃ q, u.procedure? m = some q ∧ q.isDeclared = true ∧ q.heading = p.heading := by
  subst hm
  obtain ⟨r, hr, -, -, hrhead⟩ := mem_remotes.mp hy
  obtain rfl := Option.some.inj (hp.symm.trans hr)
  rw [← remotes_congr houtline] at hy
  obtain ⟨q, hq, hd, -, hqhead⟩ := mem_remotes.mp hy
  exact ⟨hrhead, q, hq, hd, hqhead.symm.trans hrhead⟩

/-- The turn of a call that is set apart is not seen by the other calls. -/
theorem SetApart.scope (h : t.SetApart loom.codec m p) (hp : t.procedure? m = some p) :
    ∃ S : Signature → Prop,
      (∀ y ∈ t.remotes, y.1 ≠ m → ∀ c, y.2.contract? loom.codec = .ok (some c) →
        S y.2.signature) ∧
      ∀ w : TypeWeaving, w.type.Canonical → w.type.outline = t.outline → ∀ y ∈ t.remotes,
        y.1 = m → Abreast S m (loom.weaveRemote w y).type w.type := by
  cases h with
  | @refused r hc =>
    refine ⟨fun _ => True, fun _ _ _ _ _ => trivial, fun w hcanon houtline y hy hm => ?_⟩
    obtain ⟨hy, -⟩ := heading_of_outline houtline hp hy hm
    have hy' : y.2.contract? loom.codec = .error r := by rw [hy]; exact hc
    rw [(Loom.comes_of_refused hy' w).1]
    exact .refl hcanon
  | @unwritable c hc x hx hw =>
    refine ⟨fun _ => True, fun _ _ _ _ _ => trivial, fun w hcanon houtline y hy hm => ?_⟩
    obtain ⟨hy, q, hq, hd, hhead⟩ := heading_of_outline houtline hp hy hm
    subst hm
    have hy' : y.2.keeps? loom.codec = some c := by
      rw [hy, Procedure.keeps?, Procedure.contract?_heading, hc]
    have hqx : x ∈ c.layout.fields q.parameters := by
      show x ∈ c.layout.fields q.heading.parameters
      rw [hhead]
      exact hx
    obtain ⟨e, he⟩ := Job.weaveProcedure_of_unsent (j := ⟨y.1, q, c, w.counter.next⟩) hq
      (Job.senders_of_unwritable loom hqx hw)
    have htype : (loom.weaveRemote w y).type = w.type.fill y.1 .justLeave := by
      simp only at he
      rw [Loom.weaveRemote, hy']
      simp only [Loom.weaveNext, he]
      rfl
    rw [htype]
    refine abreast_modify hcanon (fun r hr => ?_) (fun _ => rfl) fun _ => rfl
    obtain rfl := Option.some.inj (hq.symm.trans hr)
    exact hd
  | alone halone =>
    refine ⟨fun s => s ≠ p.signature, fun y hy hm c hc => ?_, fun w hcanon houtline y hy hm => ?_⟩
    · obtain ⟨q, hq, hd, -, hhead⟩ := mem_remotes.mp hy
      rw [hhead] at hc ⊢
      exact halone y.1 q c hm hq hd hc
    · rw [Loom.weaveRemote]
      cases hc : y.2.keeps? loom.codec with
      | none => exact .refl hcanon
      | some c =>
        obtain ⟨-, q, hq, -, hhead⟩ := heading_of_outline houtline hp hy hm
        have hyw : y ∈ w.type.remotes := by rw [remotes_congr houtline]; exact hy
        obtain ⟨j, f, hj, -, hturn⟩ := turn_of_weaveNext (mem_contracts_of_keeps hyw hc)
        obtain rfl : j.id = m := hj.trans hm
        obtain rfl : q = j.served := Option.some.inj (hq.symm.trans hturn.here)
        refine hturn.edits.abreast hcanon hturn.stands fun hne => hne ?_
        exact Procedure.signature_eq_of_heading_eq hhead

end TypeDef

/-! ### One type -/

namespace TypeReport.Records

variable {codec : Codec} {t t' : TypeDef} {r r' : TypeReport} {m : ProcedureId}
  {es es' : List (ProcedureId × Ending)}

/-- A procedure that no registration is of ended with none. -/
theorem unregistered (h : r.Records codec t es) (hm : ∀ reg ∈ r.registrations, reg.procedure ≠ m)
    {y : ProcedureId × Ending} (hy : y ∈ es) (hym : y.1 = m) : y.2.registration? = none := by
  cases hr : y.2.registration? with
  | none => rfl
  | some reg =>
    refine absurd ((TypeWeaving.Comes.procedure_eq h.each hy hr).trans hym) (hm reg ?_)
    rw [h.registrations]
    exact List.mem_filterMap.mpr ⟨y, hy, hr⟩

/-- Two reports register the same procedures if all endings match but that of such a procedure. -/
theorem procedures_eq (h : r.Records codec t es) (h' : r'.Records codec t' es')
    (hm : ∀ reg ∈ r.registrations, reg.procedure ≠ m)
    (hmatch : List.Forall₂ (fun x y => x.1 = y.1 ∧ x.2.Matches y.2) (es.filter (·.1 ≠ m)) es') :
    r.registrations.map (·.procedure) = r'.registrations.map (·.procedure) := by
  have hfilter : r.registrations = (es.filter (·.1 ≠ m)).filterMap (·.2.registration?) := by
    rw [h.registrations, List.filterMap_filter]
    refine List.filterMap_congr fun y hy => ?_
    by_cases hym : y.1 = m
    · rw [h.unregistered hm hy hym]
      simp [hym]
    · simp [hym]
  have hall := (Ending.registrations_match hmatch).imp fun _ _ hr => hr.procedure
  rw [hfilter, h'.registrations, ← List.forall₂_eq_eq_eq, List.forall₂_map_left_iff,
    List.forall₂_map_right_iff]
  exact hall

end TypeReport.Records

namespace TypeWeaving

variable {loom : Loom} {t : TypeDef} {counter : IdCounter} {v w : TypeWeaving}
  {es : List (ProcedureId × Ending)}

/-- A report records the endings that its type has come to. -/
theorem Comes.records (h : (loom.beginType t counter).Comes loom.codec t.remotes es v) :
    v.report.Records loom.codec t es := by
  refine ⟨h.each, ?_, ?_⟩
  · rw [report, h.registrations]
    rfl
  · rw [report, h.errors, refusals_eq h.each, ← TypeDef.rejections_eq]
    rfl

/-- A call that was woven is registered. -/
theorem woven_iff_registered {turns : List (Job × Fate)}
    (h : Turns loom (loom.beginType t counter) turns v)
    (hids : (turns.map (·.1.id)).Nodup) (s : Signature) :
    (∃ x ∈ turns, x.2.isWoven = true ∧ x.1.served.signature = s) ↔
      ∃ k ∈ v.registrations.map (·.procedure), ∃ q, t.procedure? k = some q ∧
        q.signature = s := by
  have hregistered : v.registrations = turns.filterMap fun x => x.2.registration? x.1 := by
    rw [h.registrations_eq]
    rfl
  rw [hregistered]
  constructor
  · rintro ⟨⟨j, f⟩, hx, hwoven, hs⟩
    cases f with
    | cleared => cases hwoven
    | woven triad b =>
      have hmem : Registration.ofTriad j.rpcId j.id j.contract triad ∈
          turns.filterMap fun x => x.2.registration? x.1 := List.mem_filterMap.mpr ⟨_, hx, rfl⟩
      exact ⟨j.id, List.mem_map.mpr ⟨_, hmem, rfl⟩, j.served, h.served_eq hids hx, hs⟩
  · rintro ⟨k, hk, q, hq, hs⟩
    obtain ⟨r, hr, rfl⟩ := List.mem_map.mp hk
    obtain ⟨⟨j, f⟩, hx, hreg⟩ := List.mem_filterMap.mp hr
    cases f with
    | cleared => cases hreg
    | woven triad b =>
      obtain rfl := Option.some.inj hreg
      obtain rfl := Option.some.inj ((h.served_eq hids hx).symm.trans hq)
      exact ⟨_, hx, rfl, hs⟩

variable {turns turns' : List (Job × Fate)} {w' v' : TypeWeaving} {s : Signature}

/-- Logic that no call that was woven has stays as it is. -/
theorem generated?_led_of_unwoven (h : Turns loom w turns v) (hc : w.type.Canonical)
    (hstart : w.links = []) (hnone : ∀ x ∈ turns, x.2.isWoven = true → x.1.served.signature ≠ s)
    (above : List TypeDef) :
    (v.led above).generated? ⟨.logic, s⟩ = v.type.generated? ⟨.logic, s⟩ := by
  rw [TypeDef.generated?, findSynthesized?_led, TypeDef.generated?]
  cases hi : v.type.findSynthesized? ⟨.logic, s⟩ with
  | none => rfl
  | some i =>
    rw [Option.bind_some, Option.bind_some, led]
    refine LogicLink.procedure?_effects_of_ne fun link hl => ?_
    rintro rfl
    -- its link would be that of a call that was woven
    have hstands := (standsIn h hc hstart hl).found
    obtain ⟨p, hp, ho⟩ := TypeDef.procedure?_of_findSynthesized? hi
    obtain ⟨q, hq, hqo⟩ := TypeDef.procedure?_of_findSynthesized? hstands
    obtain rfl := Option.some.inj (hp.symm.trans hq)
    have hserved : link.served = s :=
      congrArg SynthKey.signature (Origin.synthesized.inj (hqo.symm.trans ho))
    rcases (Weaving.mem_foldl_keepLink v.links []).mp hl with hl | hl
    · cases hl
    · rcases h.links_of hl with hl | ⟨x, hx, triad, b, hf, rfl⟩
      · rw [hstart] at hl
        cases hl
      · exact hnone x hx (by rw [hf]; rfl) hserved

/-- Base calls are led on alike where the same logic belongs to calls that were woven. -/
theorem generated?_led_congr (h : Turns loom w turns v) (hc : w.type.Canonical)
    (hstart : w.links = []) (h' : Turns loom w' turns' v') (hc' : w'.type.Canonical)
    (hstart' : w'.links = [])
    (hwoven : (∃ x ∈ turns, x.2.isWoven = true ∧ x.1.served.signature = s) ↔
      ∃ x ∈ turns', x.2.isWoven = true ∧ x.1.served.signature = s)
    {role : SynthRole} (hgen : v.type.generated? ⟨role, s⟩ = v'.type.generated? ⟨role, s⟩)
    (above : List TypeDef) :
    (v.led above).generated? ⟨role, s⟩ = (v'.led above).generated? ⟨role, s⟩ := by
  by_cases hrole : role = .logic
  · subst hrole
    by_cases hx : ∃ x ∈ turns, x.2.isWoven = true ∧ x.1.served.signature = s
    · rw [generated?_led_logic h hc hstart fun _ => hx,
        generated?_led_logic h' hc' hstart' fun _ => hwoven.mp hx, hgen]
    · have hnone : ∀ x ∈ turns, x.2.isWoven = true → x.1.served.signature ≠ s :=
        fun x hmem hw hs => hx ⟨x, hmem, hw, hs⟩
      have hnone' : ∀ x ∈ turns', x.2.isWoven = true → x.1.served.signature ≠ s :=
        fun x hmem hw hs => hx (hwoven.mpr ⟨x, hmem, hw, hs⟩)
      rw [generated?_led_of_unwoven h hc hstart hnone,
        generated?_led_of_unwoven h' hc' hstart' hnone', hgen]
  · rw [generated?_led h hc hstart hrole, generated?_led h' hc' hstart' hrole, hgen]

/-- Declared procedures make no base calls that are led on. -/
theorem procedure?_led_declared (h : Turns loom w turns v) (hc : w.type.Canonical)
    (hstart : w.links = []) {above : List TypeDef} {k : ProcedureId} {q : Procedure}
    (hd : q.isDeclared = true) :
    (v.led above).procedure? k = some q ↔ v.type.procedure? k = some q := by
  have hstays : ∀ {p : Procedure}, v.type.procedure? k = some p → p.isDeclared = true →
      (v.led above).procedure? k = some p := by
    intro p hp hpd
    refine led_of_not_logic h hc hstart hp fun s ho => ?_
    exact absurd ho (Procedure.origin_ne_of_isDeclared hpd _)
  refine ⟨fun hq => ?_, fun hq => hstays hq hd⟩
  -- the procedure was declared before, so it is the same
  have hmem := TypeDef.mem_outline.mpr ⟨q, hq, hd, rfl⟩
  rw [outline_led] at hmem
  obtain ⟨p, hp, hpd, -⟩ := TypeDef.mem_outline.mp hmem
  obtain rfl := Option.some.inj ((hstays hp hpd).symm.trans hq)
  exact hp

end TypeWeaving

namespace Loom

variable {loom : Loom} {t : TypeDef} {m : ProcedureId} {p : Procedure} {counter : IdCounter}
  {log : Log} {v : TypeWeaving}

/-- A type whose calls need few enough ids is woven by going through its annotated procedures. -/
theorem weaveTypeDef_eq_ok_iff : loom.weaveTypeDef t counter = (log, .ok v) ↔
    counter.fits (t.contracts loom.codec).length = true ∧
      v = t.remotes.foldl loom.weaveRemote (loom.beginType t counter) ∧ log = v.log := by
  unfold weaveTypeDef
  simp only [foldl_contracts]
  by_cases hfits : counter.fits (t.contracts loom.codec).length = true
  · simp only [hfits, if_true, Prod.mk.injEq, Except.ok.injEq, true_and]
    constructor
    · rintro ⟨rfl, rfl⟩
      exact ⟨rfl, rfl⟩
    · rintro ⟨rfl, rfl⟩
      exact ⟨rfl, rfl⟩
  · simp [hfits]

/-- With a call that fails and is set apart, and without it, a type is woven alike. -/
theorem undisturbed_weaveTypeDef (ht : t.Fresh) (hp : t.procedure? m = some p)
    (hremote : p.isRemote = true) (hapart : t.SetApart loom.codec m p)
    (h : loom.weaveTypeDef t counter = (log, .ok v))
    (hfailed : ∀ r ∈ v.registrations, r.procedure ≠ m) :
    ∃ log' v', loom.weaveTypeDef (t.strip m) counter = (log', .ok v') ∧
      ∀ above, t.Undisturbed loom.codec m v.report v'.report (v.led above) (v'.led above) := by
  obtain ⟨hfits, hv, -⟩ := weaveTypeDef_eq_ok_iff.mp h
  obtain ⟨S, hS, hown⟩ := hapart.scope hp
  rw [hv] at hfailed
  obtain ⟨es, es', hes, hes', hmatch, habreast⟩ := comes_weaveRemotes
    (w := loom.beginType t counter) (x := loom.beginType (t.strip m) counter) hS hown t.remotes
    (fun _ hy => hy) rfl (ht.abreast_strip S m) rfl hfailed
  rw [← TypeDef.remotes_strip] at hes' habreast
  rw [← hv] at hfailed hes habreast
  have hfits' := IdCounter.fits_of_le hfits (t.length_contracts_strip_le m loom.codec)
  have h' := weaveTypeDef_eq_ok_iff.mpr ⟨hfits', rfl, rfl⟩
  refine ⟨_, _, h', fun above => ?_⟩
  generalize hv' : (t.strip m).remotes.foldl loom.weaveRemote
    (loom.beginType (t.strip m) counter) = v' at h' hes' habreast ⊢
  have hrecords := hes.records
  have hrecords' := hes'.records
  obtain ⟨-, -, turns, hturns, hmap⟩ := turns_of_weaveTypeDef h
  obtain ⟨-, -, turns', hturns', hmap'⟩ := turns_of_weaveTypeDef h'
  have hids := Turns.nodup_ids hmap
  have hids' := Turns.nodup_ids hmap'
  -- the failing call is not among the registered ones, so these are the same in both runs
  have hprocedures : v.registrations.map (·.procedure) = v'.registrations.map (·.procedure) :=
    hrecords.procedures_eq hrecords' hfailed hmatch
  have hwoven : ∀ s, (∃ x ∈ turns, x.2.isWoven = true ∧ x.1.served.signature = s) ↔
      ∃ x ∈ turns', x.2.isWoven = true ∧ x.1.served.signature = s := by
    intro s
    rw [TypeWeaving.woven_iff_registered hturns hids,
      TypeWeaving.woven_iff_registered hturns' hids', ← hprocedures]
    refine exists_congr fun k => and_congr_right fun hk => ?_
    obtain ⟨r, hr, rfl⟩ := List.mem_map.mp hk
    rw [TypeDef.procedure?_strip_of_ne t (hfailed r hr)]
  have hc := ht.canonical
  have hc' := (ht.strip m).canonical
  constructor
  case endings =>
    obtain ⟨e, he⟩ := TypeWeaving.Comes.exists_ending hes.each
      (TypeDef.mem_remotes.mpr ⟨p, hp, ht m p hp, hremote, rfl⟩)
    exact ⟨es, es', hrecords, hrecords', ⟨e, he, hrecords.unregistered hfailed he rfl⟩, hmatch⟩
  case generated =>
    intro k q c role hk hq hd hkeeps
    have hmem : (k, q.heading) ∈ t.remotes := by
      refine TypeDef.mem_remotes.mpr ⟨q, hq, hd, ?_, rfl⟩
      by_contra hr
      rw [Procedure.contract?_of_not_isRemote (eq_false_of_ne_true hr)] at hkeeps
      cases hkeeps
    exact TypeWeaving.generated?_led_congr hturns hc rfl hturns' hc' rfl (hwoven _)
      (habreast.generated ⟨role, q.signature⟩ (hS _ hmem hk c hkeeps)) above
  case declared =>
    intro k q hk hd
    rw [TypeWeaving.procedure?_led_declared hturns hc rfl hd,
      TypeWeaving.procedure?_led_declared hturns' hc' rfl hd, habreast.declared k q hk hd]

end Loom

/-! ### Below a type that changes -/

namespace Assembly

variable {a : Assembly} {i : TypeId} {t u : TypeDef} {above : List TypeId}

theorem alike_set (ht : a.type? i = some t) (hname : u.name = t.name) (hbase : u.base = t.base) :
    a.Alike (a.set i u) :=
  (map_types_set _ ht (by rw [hname, hbase])).symm

/-- The types above one that changes are what they were, and so are those above them. -/
theorem twins_set (ht : a.type? i = some t) (hname : u.name = t.name) (hbase : u.base = t.base)
    (habove : a.Above t above) {j : TypeId} (hj : j ∈ above) :
    ∃ v rest, Twins a (a.set i u) j j v rest rest := by
  have hne : ∀ k ∈ above, i ≠ k := by
    rintro k hk rfl
    exact habove.not_mem ht hk
  obtain ⟨before, v, rest, habove', hv, hrest⟩ := habove.of_mem hj
  have hv' : (a.set i u).type? j = some v := (type?_set_of_ne a u (hne j hj)).trans hv
  have hancestors := ancestors_eq_ok_iff.mpr ⟨v, hv, hrest⟩
  rw [(alike_set ht hname hbase).ancestors, ancestors_eq_ok_iff] at hancestors
  obtain ⟨v', hv'', hrest'⟩ := hancestors
  obtain rfl := Option.some.inj (hv'.symm.trans hv'')
  refine ⟨v, rest, hv, hv', hrest, hrest', List.map_congr_left fun k hk => ?_⟩
  exact (type?_set_of_ne a u (hne k (by simp [habove', hk]))).symm

/-- The ids of a type begin where they began. -/
theorem ofAncestors_set (ht : a.type? i = some t) (hname : u.name = t.name)
    (hbase : u.base = t.base) (habove : a.Above t above) (ceiling : UInt32) :
    IdCounter.ofAncestors (a.set i u) i ceiling = IdCounter.ofAncestors a i ceiling := by
  have hab := ancestors_eq_ok_iff.mpr ⟨t, ht, habove⟩
  have hab' := (alike_set ht hname hbase).ancestors i ▸ hab
  have hcounts : above.map (fun j => RpcId.ofCount
      ((((a.set i u).type? j).map (·.remoteCount)).getD 0)) =
      above.map fun j => RpcId.ofCount (((a.type? j).map (·.remoteCount)).getD 0) := by
    refine List.map_congr_left fun j hj => ?_
    obtain ⟨v, rest, htwins⟩ := twins_set ht hname hbase habove hj
    rw [htwins.left, htwins.right]
  rw [IdCounter.ofAncestors, hab', IdCounter.ofAncestors, hab]
  simp only [bind, Except.bind, hcounts]

/-- The types above are woven alike. -/
theorem wovenAt_set (loom : Loom) (ht : a.type? i = some t) (hname : u.name = t.name)
    (hbase : u.base = t.base) (habove : a.Above t above) :
    loom.wovenAt (a.set i u) above = loom.wovenAt a above := by
  refine List.filterMap_congr fun j hj => ?_
  obtain ⟨v, rest, htwins⟩ := twins_set ht hname hbase habove hj
  rw [htwins.left, htwins.right, htwins.alone_eq loom]

end Assembly

namespace Loom

section

variable {w : Weaving} {order above : List TypeId} {i : TypeId} {t : TypeDef}
  {counter : IdCounter} {log : Log} {v : TypeWeaving}

/-- A type that is woven is reported on, and its base calls are led to the types above. -/
theorem reported_of_woven (loom : Loom) (hidle : w.links = [])
    (hnames : w.assembly.NamesDiffer) (horder : w.assembly.hierarchyOrder = .ok order)
    (ht : w.assembly.type? i = some t) (hab : w.assembly.ancestors i = .ok above)
    (hcounter : IdCounter.ofAncestors w.assembly i loom.settings.allowance = .ok counter)
    (hweave : loom.weaveTypeDef t counter = (log, .ok v)) :
    (loom.weave w).2.report? t.name = some v.report ∧
      (loom.weave w).1.assembly.type? i = some (v.led (loom.wovenAt w.assembly above)) := by
  have halone : loom.alone w.assembly i = (log, .ok v) := by
    rw [alone_eq ht hcounter, hweave]
  constructor
  · rw [loom.report?_weave hidle horder hnames ht hab, halone]
    rfl
  · rw [loom.type?_weave hidle horder hnames ht hab, halone]
    rfl

/-- A type with a report was woven. -/
theorem woven_of_report (loom : Loom) (hidle : w.links = []) (hnames : w.assembly.NamesDiffer)
    (ht : w.assembly.type? i = some t) {r : TypeReport}
    (hr : (loom.weave w).2.report? t.name = some r) :
    ∃ order above counter log v, w.assembly.hierarchyOrder = .ok order ∧
      w.assembly.ancestors i = .ok above ∧
      IdCounter.ofAncestors w.assembly i loom.settings.allowance = .ok counter ∧
      loom.weaveTypeDef t counter = (log, .ok v) ∧ r = v.report := by
  cases horder : w.assembly.hierarchyOrder with
  | error e =>
    rw [loom.weave_of_error horder] at hr
    cases hr
  | ok order =>
    obtain ⟨above, hab⟩ := Assembly.ancestors_of_hierarchyOrder horder ht
    rw [loom.report?_weave hidle horder hnames ht hab] at hr
    obtain ⟨counter, hcounter, ⟨log, e, -, halone⟩ | ⟨log, v, hweave, halone⟩⟩ :=
      loom.alone_cases ht hab
    · rw [halone] at hr
      cases hr
    · rw [halone] at hr
      exact ⟨order, above, counter, log, v, rfl, hab, hcounter, hweave,
        (Option.some.inj hr).symm⟩

end

/-- A call that fails does not disturb the others.  If an annotated procedure of a type with a
report was not registered and is set apart, then in the run in which it carries no annotations the
other procedures of the type have the same errors and registrations, with the same references to
receivers, and the same procedures are generated for them under the same names. -/
theorem failure_apart (loom : Loom) {a : Assembly} (hnames : a.NamesDiffer) {i : TypeId}
    {t : TypeDef} (ht : a.type? i = some t) (hfresh : t.Fresh) {m : ProcedureId} {p : Procedure}
    (hp : t.procedure? m = some p) (hremote : p.isRemote = true) {r : TypeReport}
    (hr : (loom.weave (.start a)).2.report? t.name = some r)
    (hfailed : ∀ reg ∈ r.registrations, reg.procedure ≠ m)
    (hapart : t.SetApart loom.codec m p) :
    ∃ (r' : TypeReport) (u u' : TypeDef),
      (loom.weave (.start (a.set i (t.strip m)))).2.report? t.name = some r' ∧
      (loom.weave (.start a)).1.assembly.type? i = some u ∧
      (loom.weave (.start (a.set i (t.strip m)))).1.assembly.type? i = some u' ∧
      t.Undisturbed loom.codec m r r' u u' := by
  obtain ⟨order, above, counter, log, v, horder, hab, hcounter, hweave, rfl⟩ :=
    loom.woven_of_report (w := .start a) rfl hnames ht hr
  obtain ⟨log', v', hweave', hsame⟩ :=
    undisturbed_weaveTypeDef hfresh hp hremote hapart hweave hfailed
  obtain ⟨-, htype⟩ :=
    loom.reported_of_woven (w := .start a) rfl hnames horder ht hab hcounter hweave
  -- the other assembly has the same order and the same types above the type
  obtain ⟨t', ht', habove, -⟩ := Assembly.of_ancestors hab
  obtain rfl := Option.some.inj (ht.symm.trans ht')
  have halike := Assembly.alike_set (u := t.strip m) ht rfl rfl
  have hcounter' := (Assembly.ofAncestors_set (u := t.strip m) ht rfl rfl habove _).trans hcounter
  obtain ⟨hr', htype'⟩ := loom.reported_of_woven (w := .start (a.set i (t.strip m))) rfl
    (halike.namesDiffer hnames) (halike.hierarchyOrder ▸ horder) (Assembly.type?_set_self ht)
    (halike.ancestors i ▸ hab) hcounter' hweave'
  have hwoven := Assembly.wovenAt_set (u := t.strip m) loom ht rfl rfl habove
  refine ⟨v'.report, _, _, hr', htype, htype', ?_⟩
  rw [show loom.wovenAt (Weaving.start (a.set i (t.strip m))).assembly above = _ from hwoven]
  exact hsame _

end Loom

/-! ### Two failures -/

namespace Sample

/-- A type with a call that no receiver can be made for, and one that needs nothing to be read. -/
def booth : TypeDef := ⟨"Booth", none, [ping, { pong with name := "Pong" }]⟩

/-- The type of the twins. -/
def pair : TypeDef := ⟨"Twins", none, [ping, pong]⟩

end Sample

open Sample in
/-- In the booth the first call fails when its code has been moved already, and the second one is
registered as it is without the first. -/
theorem Loom.failure_apart_booth :
    (⟨[booth]⟩ : Assembly).NamesDiffer ∧ booth.Fresh ∧ booth.procedure? 0 = some ping ∧
    ping.isRemote = true ∧ booth.SetApart boaster.codec 0 ping ∧
    ∃ r, (boaster.weave (.start ⟨[booth]⟩)).2.report? booth.name = some r ∧
      r.registrations.map (·.procedure) = [1] ∧
      ∃ r' u u',
        (boaster.weave (.start ((⟨[booth]⟩ : Assembly).set 0 (booth.strip 0)))).2.report?
          booth.name = some r' ∧
        (boaster.weave (.start ⟨[booth]⟩)).1.assembly.type? 0 = some u ∧
        (boaster.weave (.start ((⟨[booth]⟩ : Assembly).set 0 (booth.strip 0)))).1.assembly.type? 0 =
          some u' ∧
        booth.Undisturbed boaster.codec 0 r r' u u' := by
  have hnames : (⟨[booth]⟩ : Assembly).NamesDiffer := by decide
  have hunwoven : booth.Unwoven := by decide
  have hremote : ping.isRemote = true := by decide
  have hapart : booth.SetApart boaster.codec 0 ping := by
    refine .alone fun k q c hk hq _ _ => ?_
    match k, hk, hq with
    | 1, _, hq =>
      obtain rfl := Option.some.inj hq
      decide
  have hreport : ((boaster.weave (.start ⟨[booth]⟩)).2.report? booth.name).map
      (·.registrations.map (·.procedure)) = some [1] := by decide +kernel
  obtain ⟨r, hr, hregistered⟩ := Option.map_eq_some_iff.mp hreport
  have hfailed : ∀ reg ∈ r.registrations, reg.procedure ≠ 0 := by
    intro reg hreg h0
    have hmem := List.mem_map_of_mem (f := (·.procedure)) hreg
    rw [hregistered, h0] at hmem
    exact absurd hmem (by decide)
  exact ⟨hnames, hunwoven.fresh, rfl, hremote, hapart, r, hr, hregistered,
    failure_apart boaster hnames rfl hunwoven.fresh rfl hremote hr hfailed hapart⟩

open Sample in
/-- Of the twins the first call fails too, but the second one takes the logic that it leaves for its
own.  Without the first call the logic has the code of the second. -/
theorem Loom.failure_shared_twins :
    twins.NamesDiffer ∧ twins.type? 0 = some pair ∧ pair.Unwoven ∧
    pair.procedure? 0 = some ping ∧ ping.isRemote = true ∧ pair.procedure? 1 = some pong ∧
    ((boaster.weave (.start twins)).2.report? pair.name).map
      (fun r => (r.registrations.map (·.procedure), r.errors)) =
        some ([1], [.synthesis (.missingReader "Ping" "NetworkConnection")]) ∧
    ((boaster.weave (.start (twins.set 0 (pair.strip 0)))).2.report? pair.name).map
      (fun r => (r.registrations.map (·.procedure), r.errors)) = some ([1], []) ∧
    (((boaster.weave (.start twins)).1.assembly.type? 0).bind
      (·.generated? ⟨.logic, pong.signature⟩)).bind (·.body) =
        some (.recording "app::first" 1) ∧
    (((boaster.weave (.start (twins.set 0 (pair.strip 0)))).1.assembly.type? 0).bind
      (·.generated? ⟨.logic, pong.signature⟩)).bind (·.body) =
        some (.recording "app::second" 1) :=
  ⟨by decide, rfl, by decide, rfl, by decide, rfl, by decide +kernel, by decide +kernel, rfl, rfl⟩

namespace Sample

/-- Two calls of one signature, and a procedure that has the name of a sender of the second one. -/
def hall : TypeDef :=
  ⟨"Hall", none, [{ ping with attributes := [⟨"ObserversRpc", []⟩] },
    { ping with attributes := [⟨"ObserversRpc", []⟩, ⟨"TargetRpc", []⟩] },
    { ping with
      name := (⟨.writer .target, ping.signature⟩ : SynthKey).mangledName
      attributes := [] }]⟩

/-- The code of the sender that the calls share, from a weaver that can do all with connections. -/
def hallSender? (t : TypeDef) : Option (List Instruction) := do
  let loom : Loom := ⟨.ofLists [.connection] [.connection] [.connection], .default⟩
  let woven ← (loom.weave (.start ⟨[t]⟩)).1.assembly.type? 0
  let sender ← woven.generated? ⟨.writer .observers, ping.signature⟩
  let body ← sender.body
  return body.nested

end Sample

-- an earlier call is not safe either: the second one fails when the sender has become its own
open Sample in
example : (hallSender? hall).map (·.length) ≠ (hallSender? (hall.strip 1)).map (·.length) := by
  decide +kernel

end RpcLoom
