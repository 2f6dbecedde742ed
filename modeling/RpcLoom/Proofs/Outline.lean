/-
RpcLoom/Proofs/Outline.lean

What a type says about itself before weaving and after.

Design.  The outline of a type lists its declared procedures at their
positions, without their bodies.  Everything that is judged before a type is
woven (which procedures are remote, which contracts they keep, which rules they
break, how many ids they may need) can be read from the outline.  Weaving moves
bodies and appends or replaces generated procedures, and neither is seen in an
outline; so a type is judged the same before weaving, after it, and after any
number of repetitions.
-/
import RpcLoom.Weave.TypeWeaving

namespace RpcLoom

/-- A procedure without its body. -/
def Procedure.heading (p : Procedure) : Procedure := { p with body := none }

namespace Procedure

@[simp] theorem heading_withBody (p : Procedure) (b : Body) :
    (p.withBody b).heading = p.heading := rfl

@[simp] theorem signature_heading (p : Procedure) : p.heading.signature = p.signature := rfl

@[simp] theorem origin_heading (p : Procedure) : p.heading.origin = p.origin := rfl

@[simp] theorem isDeclared_heading (p : Procedure) : p.heading.isDeclared = p.isDeclared := rfl

@[simp] theorem isRemote_heading (p : Procedure) : p.heading.isRemote = p.isRemote := rfl

@[simp] theorem contract?_heading (p : Procedure) (codec : Codec) :
    p.heading.contract? codec = p.contract? codec := rfl

/-- Two procedures of one heading differ in their bodies alone. -/
theorem eq_of_heading_eq {p q : Procedure} (h : p.heading = q.heading) :
    p = { q with body := p.body } := by
  obtain ⟨n, ps, gs, r, as, m, b, o⟩ := p
  obtain ⟨n', ps', gs', r', as', m', b', o'⟩ := q
  simp only [heading, Procedure.mk.injEq] at h ⊢
  obtain ⟨rfl, rfl, rfl, rfl, rfl, rfl, -, rfl⟩ := h
  simp

theorem signature_eq_of_heading_eq {p q : Procedure} (h : p.heading = q.heading) :
    p.signature = q.signature := by
  rw [← signature_heading p, h, signature_heading]

/-- A procedure that is no remote call has no contract. -/
theorem contract?_of_not_isRemote {p : Procedure} (h : p.isRemote = false) (codec : Codec) :
    p.contract? codec = .ok none := by
  simp [contract?, h]

/-- A remote call keeps a contract or breaks a rule. -/
theorem contract?_ne_ok_none {p : Procedure} (h : p.isRemote = true) (codec : Codec) :
    p.contract? codec ≠ .ok none := by
  intro hc
  unfold contract? at hc
  simp only [h, Bool.not_true, Bool.false_eq_true, if_false] at hc
  cases hk : KindSet.ofKinds? (p.annotations.map (·.kind)) with
  | none => simp [hk] at hc
  | some kinds =>
    simp only [hk] at hc
    repeat' split at hc
    all_goals simp at hc

/-- The contract a procedure keeps, if it keeps one. -/
def keeps? (p : Procedure) (codec : Codec) : Option Contract :=
  match p.contract? codec with
  | .ok c => c
  | .error _ => none

/-- The rule a procedure breaks, if it breaks one. -/
def breaks? (p : Procedure) (codec : Codec) : Option Rejection :=
  match p.contract? codec with
  | .ok _ => none
  | .error r => some r

end Procedure

namespace TypeDef

/-- The declared procedures of a type without their bodies, with their positions, in order. -/
def outline (t : TypeDef) : List (ProcedureId × Procedure) :=
  t.procedures.zipIdx.filterMap fun (p, id) =>
    if p.isDeclared then some (id, p.heading) else none

/-- The declared procedures annotated as remote calls, in order. -/
def remotes (t : TypeDef) : List (ProcedureId × Procedure) := t.outline.filter (·.2.isRemote)

theorem mem_outline {t : TypeDef} {id : ProcedureId} {h : Procedure} :
    (id, h) ∈ t.outline ↔
      ∃ p, t.procedure? id = some p ∧ p.isDeclared = true ∧ h = p.heading := by
  simp only [outline, List.mem_filterMap, Prod.exists]
  constructor
  · rintro ⟨p, i, hmem, hp⟩
    split at hp
    next hd =>
      obtain ⟨rfl, rfl⟩ : i = id ∧ p.heading = h := by simpa using hp
      exact ⟨p, List.mk_mem_zipIdx_iff_getElem?.mp hmem, hd, rfl⟩
    next => cases hp
  · rintro ⟨p, hp, hd, rfl⟩
    exact ⟨p, id, List.mk_mem_zipIdx_iff_getElem?.mpr hp, by simp [hd]⟩

theorem declared_map_heading (t : TypeDef) :
    t.declared.map (fun (id, p) => (id, p.heading)) = t.outline := by
  simp only [declared, outline, List.map_map]
  generalize t.procedures.zipIdx = l
  induction l with
  | nil => rfl
  | cons x rest ih =>
    obtain ⟨p, id⟩ := x
    by_cases hp : p.isDeclared <;> simp_all

/-- The positions in an outline go up. -/
theorem outline_sorted (t : TypeDef) : (t.outline.map (·.1)).Pairwise (· < ·) := by
  have hall : ∀ (l : List Procedure) (k : Nat),
      (((l.zipIdx k).filterMap fun (p, id) =>
        if p.isDeclared then some (id, p.heading) else none).map (·.1)).Pairwise (· < ·) := by
    intro l
    induction l with
    | nil => intro k; simp
    | cons p rest ih =>
      intro k
      by_cases hp : p.isDeclared
      · simp only [List.zipIdx_cons, List.filterMap_cons, hp, if_true, List.map_cons,
          List.pairwise_cons]
        refine ⟨fun i hi => ?_, ih (k + 1)⟩
        simp only [List.mem_map, List.mem_filterMap, Prod.exists] at hi
        obtain ⟨_, _, ⟨q, j, hmem, hq⟩, rfl⟩ := hi
        have hj := List.le_snd_of_mem_zipIdx hmem
        split at hq
        · obtain ⟨rfl, -⟩ := by simpa using hq
          exact hj
        · cases hq
      · simpa [hp] using ih (k + 1)
  exact hall t.procedures 0

theorem nodup_outline (t : TypeDef) : (t.outline.map (·.1)).Nodup :=
  t.outline_sorted.imp fun h => Nat.ne_of_lt h

theorem mem_remotes {t : TypeDef} {id : ProcedureId} {h : Procedure} :
    (id, h) ∈ t.remotes ↔
      ∃ p, t.procedure? id = some p ∧ p.isDeclared = true ∧ p.isRemote = true ∧ h = p.heading := by
  simp only [remotes, List.mem_filter, mem_outline]
  constructor
  · rintro ⟨⟨p, hp, hd, rfl⟩, hr⟩
    exact ⟨p, hp, hd, hr, rfl⟩
  · rintro ⟨p, hp, hd, hr, rfl⟩
    exact ⟨⟨p, hp, hd, rfl⟩, hr⟩

theorem nodup_remotes (t : TypeDef) : (t.remotes.map (·.1)).Nodup :=
  t.nodup_outline.sublist (List.filter_sublist.map _)

/-! ### What is read from an outline -/

/-- Whatever is nothing for procedures without remote annotations can be read from the others. -/
theorem filterMap_remotes {β : Type} (t : TypeDef) (f : ProcedureId × Procedure → Option β)
    (h : ∀ x, x.2.isRemote = false → f x = none) :
    t.remotes.filterMap f = t.outline.filterMap f := by
  rw [remotes, List.filterMap_filter]
  congr 1
  funext x
  cases hr : x.2.isRemote with
  | true => rfl
  | false => exact (h x hr).symm

theorem contracts_eq (t : TypeDef) (codec : Codec) :
    t.contracts codec = t.remotes.filterMap fun x => (x.2.keeps? codec).map (x.1, ·) := by
  rw [filterMap_remotes t _ fun x hr => by
      rw [Procedure.keeps?, Procedure.contract?_of_not_isRemote hr, Option.map_none],
    contracts, ← declared_map_heading, List.filterMap_map]
  congr 1
  funext x
  obtain ⟨id, p⟩ := x
  rcases hc : p.contract? codec with r | _ | c <;> simp [Procedure.keeps?, hc]

/-- Contracts stand in the order of the positions of their procedures. -/
theorem sorted_contracts (t : TypeDef) (codec : Codec) :
    ((t.contracts codec).map (·.1)).Pairwise (· < ·) := by
  have hremotes : (t.remotes.map (·.1)).Pairwise (· < ·) :=
    t.outline_sorted.sublist (List.filter_sublist.map _)
  rw [contracts_eq]
  refine hremotes.sublist ?_
  induction t.remotes with
  | nil => exact .slnil
  | cons x rest ih =>
    rw [List.filterMap_cons, List.map_cons]
    cases x.2.keeps? codec with
    | none => exact ih.cons _
    | some c => exact ih.cons_cons _

theorem rejections_eq (t : TypeDef) (codec : Codec) :
    t.rejections codec = t.remotes.filterMap fun x => x.2.breaks? codec := by
  rw [filterMap_remotes t _ fun x hr => by
      rw [Procedure.breaks?, Procedure.contract?_of_not_isRemote hr],
    rejections, ← declared_map_heading, List.filterMap_map]
  congr 1
  funext x
  obtain ⟨id, p⟩ := x
  cases hc : p.contract? codec <;> simp [Procedure.breaks?, hc]

theorem remoteCount_eq (t : TypeDef) : t.remoteCount = t.remotes.length := by
  have hall : ∀ (l : List Procedure) (k : Nat),
      l.countP (fun p => p.isDeclared && p.isRemote) =
        (((l.zipIdx k).filterMap fun (p, id) =>
          if p.isDeclared then some (id, p.heading) else none).filter (·.2.isRemote)).length := by
    intro l
    induction l with
    | nil => intro k; rfl
    | cons p rest ih =>
      intro k
      by_cases hp : p.isDeclared <;> by_cases hr : p.isRemote <;>
        simp [hp, hr, ih (k + 1)]
  exact hall t.procedures 0

theorem mem_contracts {t : TypeDef} {codec : Codec} {id : ProcedureId} {c : Contract} :
    (id, c) ∈ t.contracts codec ↔
      ∃ p, t.procedure? id = some p ∧ p.isDeclared = true ∧ p.contract? codec = .ok (some c) := by
  have hd : (id, c) ∈ t.contracts codec ↔ ∃ p, (id, p) ∈ t.outline ∧
      p.contract? codec = .ok (some c) := by
    rw [contracts, ← declared_map_heading]
    simp only [List.mem_filterMap, List.mem_map, Prod.exists]
    constructor
    · rintro ⟨i, p, hmem, hp⟩
      split at hp
      next c' hc =>
        obtain ⟨rfl, rfl⟩ : i = id ∧ c' = c := by simpa using hp
        exact ⟨p.heading, ⟨i, p, hmem, rfl⟩, hc⟩
      next => cases hp
    · rintro ⟨_, ⟨i, p, hmem, heq⟩, hc⟩
      obtain ⟨rfl, rfl⟩ := by simpa using heq
      exact ⟨i, p, hmem, by simp_all⟩
  rw [hd]
  constructor
  · rintro ⟨_, hmem, hc⟩
    obtain ⟨p, hp, hdecl, rfl⟩ := mem_outline.mp hmem
    exact ⟨p, hp, hdecl, hc⟩
  · rintro ⟨p, hp, hdecl, hc⟩
    exact ⟨p.heading, mem_outline.mpr ⟨p, hp, hdecl, rfl⟩, hc⟩

/-- Types of one outline are judged alike. -/
theorem remotes_congr {t u : TypeDef} (h : t.outline = u.outline) : t.remotes = u.remotes := by
  rw [remotes, h, remotes]

theorem contracts_congr {t u : TypeDef} (h : t.outline = u.outline) (codec : Codec) :
    t.contracts codec = u.contracts codec := by
  rw [contracts_eq, contracts_eq, remotes_congr h]

theorem rejections_congr {t u : TypeDef} (h : t.outline = u.outline) (codec : Codec) :
    t.rejections codec = u.rejections codec := by
  rw [rejections_eq, rejections_eq, remotes_congr h]

theorem remoteCount_congr {t u : TypeDef} (h : t.outline = u.outline) :
    t.remoteCount = u.remoteCount := by
  rw [remoteCount_eq, remoteCount_eq, remotes_congr h]

/-! ### What an outline does not see -/

/-- A change of a declared procedure's body, or of a generated procedure, is not seen. -/
theorem outline_modify {t : TypeDef} {id : ProcedureId} {f : Procedure → Procedure}
    (hdecl : ∀ p, t.procedure? id = some p → (f p).isDeclared = p.isDeclared)
    (hhead : ∀ p, t.procedure? id = some p → p.isDeclared = true → (f p).heading = p.heading) :
    (t.modify id f).outline = t.outline := by
  have hall : ∀ (l : List Procedure) (i k : Nat),
      (∀ p, l[i]? = some p → (f p).isDeclared = p.isDeclared) →
      (∀ p, l[i]? = some p → p.isDeclared = true → (f p).heading = p.heading) →
      (((l.modify i f).zipIdx k).filterMap fun (p, id) =>
        if p.isDeclared then some (id, p.heading) else none) =
      ((l.zipIdx k).filterMap fun (p, id) =>
        if p.isDeclared then some (id, p.heading) else none) := by
    intro l
    induction l with
    | nil => intro i k _ _; simp
    | cons p rest ih =>
      intro i k h₁ h₂
      cases i with
      | zero =>
        have e₁ := h₁ p (by simp)
        have e₂ := h₂ p (by simp)
        by_cases hp : p.isDeclared
        · simp [e₁, hp, e₂ hp]
        · simp [e₁, hp]
      | succ i =>
        have := ih i (k + 1) (fun q hq => h₁ q (by simpa using hq))
          (fun q hq => h₂ q (by simpa using hq))
        by_cases hp : p.isDeclared <;> simp [hp, this]
  exact hall t.procedures id 0 hdecl hhead

/-- A generated procedure at the end is not seen. -/
theorem outline_append (t : TypeDef) {p : Procedure} (h : p.isDeclared = false) :
    ({ t with procedures := t.procedures ++ [p] } : TypeDef).outline = t.outline := by
  simp [outline, List.zipIdx_append, h]

end TypeDef

end RpcLoom
