/-
RpcLoom/Proofs/Installing.lean

How the procedures generated for a remote call come into its type.

Design.  Each step of the installation (logic, receiver, sender) has one lemma
that lists its outcomes: the procedure is there already, it is added, or it
cannot be added.  Only two things can stand in the way: the codec does not
provide what a body needs, or a procedure of the generated signature, which
comes from elsewhere, is in the type (`Clashes`).  All that follows about an
installation, successful or not, is put together from these three lemmas.
-/
import Mathlib.Data.List.Forall2
import RpcLoom.Proofs.Edits

namespace RpcLoom

open Relation (ReflTransGen)

/-! ### Sequences of edits -/

namespace TypeEdit

variable {α β : Type}

/-- The type an edit ends in, with a result or without. -/
def final : EStateM.Result SynthesisError TypeDef α → TypeDef
  | .ok _ t => t
  | .error _ t => t

@[simp] theorem final_ok (a : α) (t : TypeDef) : final (.ok a t) = t := rfl

@[simp] theorem final_error (e : SynthesisError) (t : TypeDef) :
    final (.error e t : EStateM.Result SynthesisError TypeDef α) = t := rfl

theorem bind_eq (x : TypeEdit α) (f : α → TypeEdit β) (t : TypeDef) :
    (x >>= f) t =
      match x t with
      | .ok a t' => f a t'
      | .error e t' => .error e t' := by
  show EStateM.bind x f t = _
  unfold EStateM.bind
  cases x t <;> rfl

theorem bind_of_ok {x : TypeEdit α} {a : α} {t t' : TypeDef} (h : x t = .ok a t')
    (f : α → TypeEdit β) : (x >>= f) t = f a t' := by
  rw [bind_eq, h]

theorem bind_of_error {x : TypeEdit α} {e : SynthesisError} {t t' : TypeDef}
    (h : x t = .error e t') (f : α → TypeEdit β) : (x >>= f) t = .error e t' := by
  rw [bind_eq, h]

@[simp] theorem pure_eq (a : α) (t : TypeDef) : (pure a : TypeEdit α) t = .ok a t := rfl

/-- A list of edits begins with its first one. -/
theorem mapM_cons_eq (f : α → TypeEdit β) (a : α) (as : List α) (t : TypeDef) :
    ((a :: as).mapM f) t =
      match f a t with
      | .error e t' => .error e t'
      | .ok b t' =>
        match (as.mapM f) t' with
        | .error e t'' => .error e t''
        | .ok bs t'' => .ok (b :: bs) t'' := by
  rw [List.mapM_cons, bind_eq]
  cases f a t with
  | error e t' => rfl
  | ok b t' =>
    simp only [bind_eq]
    cases (as.mapM f) t' <;> rfl

@[simp] theorem mapM_nil_eq (f : α → TypeEdit β) (t : TypeDef) :
    (([] : List α).mapM f) t = .ok [] t := rfl

/-- What every edit of a list keeps, the whole list keeps. -/
theorem inv_mapM {I : TypeDef → Prop} {f : α → TypeEdit β} (as : List α)
    (hf : ∀ a ∈ as, ∀ t, I t → I (final (f a t))) {t : TypeDef} (ht : I t) :
    I (final ((as.mapM f) t)) := by
  induction as generalizing t with
  | nil => exact ht
  | cons a as ih =>
    have hfirst := hf a (by simp) t ht
    rw [mapM_cons_eq]
    cases h : f a t with
    | error e t' =>
      rw [h] at hfirst
      exact hfirst
    | ok b t' =>
      rw [h, final_ok] at hfirst
      have hrest := ih (fun a' ha' => hf a' (by simp [ha'])) hfirst
      simp only
      cases h' : (as.mapM f) t' <;> rw [h'] at hrest <;> exact hrest

/-- Either all edits of a list succeed, or one of them is the first to fail.  `H` is what a
successful edit leaves behind and the later ones keep. -/
theorem mapM_cases {P : TypeDef → Prop} {H : TypeDef → α → β → Prop} {f : α → TypeEdit β}
    (as : List α)
    (hstep : ∀ a ∈ as, ∀ t, P t → P (final (f a t)) ∧ ∀ b t', f a t = .ok b t' → H t' a b)
    (hkeep : as.Pairwise fun a a' => ∀ t b, P t → H t a b → H (final (f a' t)) a b)
    {t : TypeDef} (ht : P t) :
    (∃ bs t', (as.mapM f) t = .ok bs t' ∧ P t' ∧ List.Forall₂ (H t') as bs) ∨
    (∃ e t', (as.mapM f) t = .error e t' ∧ P t' ∧ ∃ before a after bs t₁,
      as = before ++ a :: after ∧ P t₁ ∧ f a t₁ = .error e t' ∧
        List.Forall₂ (H t') before bs) := by
  induction as generalizing t with
  | nil => exact .inl ⟨[], t, rfl, ht, .nil⟩
  | cons a as ih =>
    obtain ⟨hP, hH⟩ := hstep a (by simp) t ht
    obtain ⟨hlater, hkeep⟩ := List.pairwise_cons.mp hkeep
    rw [mapM_cons_eq]
    cases hfirst : f a t with
    | error e t' =>
      rw [hfirst] at hP
      exact .inr ⟨e, t', rfl, hP, [], a, as, [], t, rfl, ht, hfirst, .nil⟩
    | ok b t₁ =>
      rw [hfirst, final_ok] at hP
      -- what the first edit left is still there after the others
      have hstays : H (final ((as.mapM f) t₁)) a b := by
        have := inv_mapM (I := fun u => P u ∧ H u a b) (f := f) as
          (fun a' ha' u hu =>
            ⟨(hstep a' (by simp [ha']) u hu.1).1, hlater a' ha' u b hu.1 hu.2⟩)
          (t := t₁) ⟨hP, hH b t₁ hfirst⟩
        exact this.2
      simp only
      rcases ih (fun a' ha' => hstep a' (by simp [ha'])) hkeep hP with
        ⟨bs, t', hrest, hP', hall⟩ | ⟨e, t', hrest, hP', before, a', after, bs, t₂, rfl, h⟩
      · rw [hrest] at hstays ⊢
        exact .inl ⟨b :: bs, t', rfl, hP', .cons hstays hall⟩
      · rw [hrest] at hstays ⊢
        exact .inr ⟨e, t', rfl, hP', a :: before, a', after, b :: bs, t₂, rfl, h.1, h.2.1,
          .cons hstays h.2.2⟩

/-- Edits that change nothing, one after the other. -/
theorem mapM_of_forall₂ {f : α → TypeEdit β} {as : List α} {bs : List β} {t : TypeDef}
    (h : List.Forall₂ (fun a b => f a t = .ok b t) as bs) : (as.mapM f) t = .ok bs t := by
  induction h with
  | nil => rfl
  | cons hfirst _ ih => rw [mapM_cons_eq, hfirst]; simp only [ih]

/-- Edits that change nothing up to one that fails. -/
theorem mapM_of_error {f : α → TypeEdit β} {before : List α} (after : List α) {bs : List β} {a : α}
    {e : SynthesisError} {t t' : TypeDef}
    (h : List.Forall₂ (fun a b => f a t = .ok b t) before bs) (ha : f a t = .error e t') :
    ((before ++ a :: after).mapM f) t = .error e t' := by
  induction h with
  | nil => rw [List.nil_append, mapM_cons_eq, ha]
  | cons hfirst _ ih => rw [List.cons_append, mapM_cons_eq, hfirst]; simp only [ih]

end TypeEdit

/-! ### What can stand in the way -/

namespace TypeDef

/-- A procedure that comes from elsewhere has the signature that the one generated for a key
would have. -/
structure Clashes (t : TypeDef) (key : SynthKey) : Prop where
  absent : t.findSynthesized? key = none
  signed : (t.findSignature? key.generated).isSome = true

theorem Clashes.not_lacks {t : TypeDef} {key : SynthKey} (h : t.Clashes key) : ¬ t.Lacks key := by
  intro hl
  have := h.signed
  rw [hl.unsigned] at this
  cases this

/-- What is said of a clash. -/
def clash (t : TypeDef) (key : SynthKey) : SynthesisError :=
  .declaration (.duplicateSignature t.name key.generated.text)

theorem findSynthesized?_clear (t : TypeDef) (id : ProcedureId) (key : SynthKey) :
    (t.clear id).findSynthesized? key = t.findSynthesized? key := by
  rw [findSynthesized?_eq, findSynthesized?_eq]
  exact congrArg _ (Job.origins_modify fun _ _ => rfl)

theorem findSignature?_clear (t : TypeDef) (id : ProcedureId) (s : Signature) :
    (t.clear id).findSignature? s = t.findSignature? s := by
  rw [findSignature?_eq, findSignature?_eq]
  exact congrArg _ (Job.signatures_modify fun _ _ => rfl)

theorem Lacks.clear {t : TypeDef} {key : SynthKey} (h : t.Lacks key) (id : ProcedureId) :
    (t.clear id).Lacks key :=
  ⟨by rw [findSignature?_clear]; exact h.unsigned, by rw [findSynthesized?_clear]; exact h.absent⟩

/-- Where nothing is generated for a key yet, adding works or there is a clash. -/
theorem add_cases {t : TypeDef} {p : Procedure} {key : SynthKey}
    (horigin : p.origin = .synthesized key) (hsig : p.signature = key.generated)
    (hnone : t.findSynthesized? key = none) :
    (t.Lacks key ∧ TypeEdit.add p t = .ok t.procedures.length (t.push p)) ∨
      (t.Clashes key ∧ TypeEdit.add p t = .error (t.clash key) t) := by
  cases hs : t.findSignature? key.generated with
  | none =>
    refine .inl ⟨⟨hs, hnone⟩, ?_⟩
    simp only [TypeEdit.add, add_of_lacks horigin hsig ⟨hs, hnone⟩]
  | some i =>
    refine .inr ⟨⟨hnone, by simp [hs]⟩, ?_⟩
    simp [TypeEdit.add, add, hsig, hs, clash]

end TypeDef

namespace TypeEdit

theorem procedure_of_some {id : ProcedureId} {t : TypeDef} {p : Procedure}
    (h : t.procedure? id = some p) : procedure id t = .ok p t := by
  simp [procedure, TypeDef.procedure, h]

theorem findSynthesized?_apply (key : SynthKey) (t : TypeDef) :
    findSynthesized? key t = .ok (t.findSynthesized? key) t := rfl

end TypeEdit

/-! ### The outcomes of each step -/

/-- The reference to the procedure generated for a key on a type. -/
def SynthKey.ref (key : SynthKey) (owner : String) : MethodRef :=
  ⟨owner, key.generated.name, key.generated.types⟩

namespace TypeEdit

variable {t : TypeDef}

theorem takeBody_eq {id : ProcedureId} {p : Procedure} (hid : t.procedure? id = some p) :
    takeBody id t =
      match p.body with
      | none => .error (.bodyPending p.name) t
      | some body => .ok body (t.clear id) := by
  rw [takeBody, bind_of_ok (procedure_of_some hid)]
  cases p.body <;> rfl

theorem relocateLogic_eq {id : ProcedureId} {p : Procedure} (hid : t.procedure? id = some p) :
    relocateLogic id t =
      match t.findSynthesized? ⟨.logic, p.signature⟩ with
      | some l => .ok l t
      | none => (takeBody id >>= fun body => add (p.logicOf body)) t := by
  rw [relocateLogic, bind_of_ok (procedure_of_some hid), bind_of_ok (findSynthesized?_apply _ t)]
  cases t.findSynthesized? ⟨.logic, p.signature⟩ <;> rfl

/-- The logic is there, or it takes the body, or it cannot. -/
theorem relocateLogic_cases {id : ProcedureId} {p : Procedure} (hid : t.procedure? id = some p) :
    (∃ l, t.findSynthesized? ⟨.logic, p.signature⟩ = some l ∧ relocateLogic id t = .ok l t) ∨
    (t.findSynthesized? ⟨.logic, p.signature⟩ = none ∧ p.body = none ∧
      relocateLogic id t = .error (.bodyPending p.name) t) ∨
    (∃ body, p.body = some body ∧ t.Lacks ⟨.logic, p.signature⟩ ∧
      relocateLogic id t = .ok t.procedures.length ((t.clear id).push (p.logicOf body))) ∨
    (∃ body, p.body = some body ∧ t.Clashes ⟨.logic, p.signature⟩ ∧
      relocateLogic id t = .error (t.clash ⟨.logic, p.signature⟩) (t.clear id)) := by
  rw [relocateLogic_eq hid]
  cases hl : t.findSynthesized? ⟨.logic, p.signature⟩ with
  | some l => exact .inl ⟨l, rfl, rfl⟩
  | none =>
    have htake := takeBody_eq hid
    cases hb : p.body with
    | none =>
      rw [hb] at htake
      exact .inr (.inl ⟨rfl, rfl, bind_of_error htake _⟩)
    | some body =>
      rw [hb] at htake
      simp only
      rw [bind_of_ok htake]
      have hnone : (t.clear id).findSynthesized? ⟨.logic, p.signature⟩ = none := by
        rw [TypeDef.findSynthesized?_clear, hl]
      rcases TypeDef.add_cases (p := p.logicOf body) rfl rfl hnone with ⟨h, hadd⟩ | ⟨h, hadd⟩
      · refine .inr (.inr (.inl ⟨body, rfl, ⟨?_, hl⟩, ?_⟩))
        · rw [← TypeDef.findSignature?_clear t id]; exact h.unsigned
        · rw [hadd]; simp [TypeDef.clear]
      · refine .inr (.inr (.inr ⟨body, rfl, ⟨hl, ?_⟩, hadd⟩))
        rw [← TypeDef.findSignature?_clear t id]; exact h.signed

theorem ensureReader_eq (loom : Loom) (p : Procedure) (c : Contract) (logic : MethodRef)
    (kind : Kind) :
    let key : SynthKey := ⟨.reader kind, p.signature⟩
    ensureReader loom p c logic kind t =
      match t.findSynthesized? key with
      | some i => .ok ⟨kind, i, key.ref logic.owner⟩ t
      | none =>
        match loom.receiverBody p c kind logic with
        | .error e => .error e t
        | .ok body =>
          (add (p.readerOf kind body) >>= fun i => pure ⟨kind, i, key.ref logic.owner⟩) t := by
  intro key
  rw [ensureReader, bind_of_ok (findSynthesized?_apply _ t)]
  cases t.findSynthesized? key with
  | some i => rfl
  | none => cases loom.receiverBody p c kind logic <;> rfl

/-- The receiver is there, or its body cannot be made, or it is added, or there is a clash. -/
theorem ensureReader_cases (loom : Loom) (p : Procedure) (c : Contract) (logic : MethodRef)
    (kind : Kind) :
    let key : SynthKey := ⟨.reader kind, p.signature⟩
    (∃ i, t.findSynthesized? key = some i ∧
      ensureReader loom p c logic kind t = .ok ⟨kind, i, key.ref logic.owner⟩ t) ∨
    (t.findSynthesized? key = none ∧ ∃ e, loom.receiverBody p c kind logic = .error e ∧
      ensureReader loom p c logic kind t = .error e t) ∨
    (∃ body, loom.receiverBody p c kind logic = .ok body ∧ t.Lacks key ∧
      ensureReader loom p c logic kind t =
        .ok ⟨kind, t.procedures.length, key.ref logic.owner⟩ (t.push (p.readerOf kind body))) ∨
    (∃ body, loom.receiverBody p c kind logic = .ok body ∧ t.Clashes key ∧
      ensureReader loom p c logic kind t = .error (t.clash key) t) := by
  intro key
  rw [ensureReader_eq]
  cases hk : t.findSynthesized? key with
  | some i => exact .inl ⟨i, rfl, rfl⟩
  | none =>
    cases hb : loom.receiverBody p c kind logic with
    | error e => exact .inr (.inl ⟨rfl, e, rfl, rfl⟩)
    | ok body =>
      rcases TypeDef.add_cases (p := p.readerOf kind body) rfl rfl hk with ⟨h, hadd⟩ | ⟨h, hadd⟩
      · exact .inr (.inr (.inl ⟨body, rfl, h, bind_of_ok hadd _⟩))
      · exact .inr (.inr (.inr ⟨body, rfl, h, bind_of_error hadd _⟩))

theorem installWriter_eq (owner : String) (p : Procedure) (kind : Kind) (body : Body) :
    let key : SynthKey := ⟨.writer kind, p.signature⟩
    installWriter owner p kind body t =
      match t.findSynthesized? key with
      | some i =>
        (replace i (p.writerOf kind body) >>= fun _ => pure ⟨kind, i, key.ref owner⟩) t
      | none => (add (p.writerOf kind body) >>= fun i => pure ⟨kind, i, key.ref owner⟩) t := by
  intro key
  rw [installWriter, bind_of_ok (findSynthesized?_apply _ t)]
  cases t.findSynthesized? key <;> rfl

/-- The sender takes the place of an earlier one, or it is added, or there is a clash. -/
theorem installWriter_cases (owner : String) (p : Procedure) (kind : Kind) (body : Body) :
    let key : SynthKey := ⟨.writer kind, p.signature⟩
    (∃ i, t.findSynthesized? key = some i ∧
      installWriter owner p kind body t =
        .ok ⟨kind, i, key.ref owner⟩ (t.modify i fun _ => p.writerOf kind body)) ∨
    (t.Lacks key ∧ installWriter owner p kind body t =
      .ok ⟨kind, t.procedures.length, key.ref owner⟩ (t.push (p.writerOf kind body))) ∨
    (t.Clashes key ∧ installWriter owner p kind body t = .error (t.clash key) t) := by
  intro key
  rw [installWriter_eq]
  cases hk : t.findSynthesized? key with
  | some i =>
    obtain ⟨old, hold, horigin⟩ := TypeDef.procedure?_of_findSynthesized? hk
    have hrep : t.replace i (p.writerOf kind body) =
        .ok (t.modify i fun _ => p.writerOf kind body, old) :=
      TypeDef.replace_eq_ok_iff.mpr ⟨hold, horigin, rfl⟩
    refine .inl ⟨i, rfl, ?_⟩
    simp [bind_eq, replace, hrep, key]
  | none =>
    rcases TypeDef.add_cases (p := p.writerOf kind body) rfl rfl hk with ⟨h, hadd⟩ | ⟨h, hadd⟩
    · exact .inr (.inl ⟨h, bind_of_ok hadd _⟩)
    · exact .inr (.inr ⟨h, bind_of_error hadd _⟩)

end TypeEdit

end RpcLoom
