/-
RpcLoom/Proofs/Edits.lean

Everything that weaving one remote call can do to its type.

Design.  Weaving a call is a program over the type with several ways to fail,
and what it did before it failed stays done.  `Edit` lists the single changes
it can make: the call's own body is moved out or replaced, the logic takes that
body, a receiver or a sender is added where there is none, a sender takes the
place of an earlier one.  `Job.weaveProcedure_cases` says that there are no others,
however it ends.  Whatever must survive weaving is then shown for one edit and
follows for every run.

Three things survive every edit: the outline (`Edit.outline_eq`), the origin
of every procedure at its position (`Edit.origins_prefix`), and every procedure
that is neither the call itself nor one of its senders (`Edit.procedure?_eq`).
-/
import Mathlib.Logic.Relation
import RpcLoom.Proofs.Outline

namespace RpcLoom

open Relation (ReflTransGen)

/-! ### The procedures generated for a key -/

/-- The signature of the procedure generated for a key. -/
def SynthKey.generated (key : SynthKey) : Signature where
  name := key.mangledName
  types :=
    match key.role with
    | .reader kind => (Receiver.parameters kind).map (·.type)
    | .writer _ | .logic => key.signature.types

/-- The logic procedure that takes the body of a procedure. -/
def Procedure.logicOf (p : Procedure) (body : Body) : Procedure :=
  .synthesize ⟨.logic, p.signature⟩ (TypeEdit.logicModifiers p.modifiers) p.parameters body

/-- The receiver of a procedure for one kind of call. -/
def Procedure.readerOf (p : Procedure) (kind : Kind) (body : Body) : Procedure :=
  .synthesize ⟨.reader kind, p.signature⟩ .hidden (Receiver.parameters kind) body

/-- The sender of a procedure for one kind of call. -/
def Procedure.writerOf (p : Procedure) (kind : Kind) (body : Body) : Procedure :=
  .synthesize ⟨.writer kind, p.signature⟩ .hidden p.parameters body

@[simp] theorem Procedure.origin_synthesize (key : SynthKey) (m : Modifiers)
    (ps : List Parameter) (b : Body) :
    (Procedure.synthesize key m ps b).origin = .synthesized key := rfl

@[simp] theorem Procedure.isDeclared_synthesize (key : SynthKey) (m : Modifiers)
    (ps : List Parameter) (b : Body) :
    (Procedure.synthesize key m ps b).isDeclared = false := rfl

@[simp] theorem Procedure.signature_logicOf (p : Procedure) (b : Body) :
    (p.logicOf b).signature = SynthKey.generated ⟨.logic, p.signature⟩ := rfl

@[simp] theorem Procedure.signature_readerOf (p : Procedure) (kind : Kind) (b : Body) :
    (p.readerOf kind b).signature = SynthKey.generated ⟨.reader kind, p.signature⟩ := rfl

@[simp] theorem Procedure.signature_writerOf (p : Procedure) (kind : Kind) (b : Body) :
    (p.writerOf kind b).signature = SynthKey.generated ⟨.writer kind, p.signature⟩ := rfl

namespace TypeDef

/-- The type with one more procedure at the end. -/
def push (t : TypeDef) (p : Procedure) : TypeDef := { t with procedures := t.procedures ++ [p] }

/-- The type with the body of one procedure moved out. -/
def clear (t : TypeDef) (id : ProcedureId) : TypeDef := t.modify id fun p => { p with body := none }

/-- The type with a body put into one procedure. -/
def fill (t : TypeDef) (id : ProcedureId) (body : Body) : TypeDef := t.modify id (·.withBody body)

/-- Nothing stands in the way of generating a procedure for a key. -/
structure Lacks (t : TypeDef) (key : SynthKey) : Prop where
  unsigned : t.findSignature? key.generated = none
  absent : t.findSynthesized? key = none

theorem procedure?_push_of_lt {t : TypeDef} {i : Nat} (h : i < t.procedures.length)
    (p : Procedure) : (t.push p).procedure? i = t.procedure? i := by
  simp [procedure?, push, List.getElem?_append_left h]

@[simp] theorem procedure?_push_length (t : TypeDef) (p : Procedure) :
    (t.push p).procedure? t.procedures.length = some p := by
  simp [procedure?, push]

theorem lt_of_procedure? {t : TypeDef} {i : Nat} {p : Procedure}
    (h : t.procedure? i = some p) : i < t.procedures.length :=
  (List.getElem?_eq_some_iff.mp h).1

/-- Nothing is generated for a key exactly if no procedure comes from it. -/
theorem findSynthesized?_eq_none {t : TypeDef} {key : SynthKey} :
    t.findSynthesized? key = none ↔
      ∀ i p, t.procedure? i = some p → p.origin ≠ .synthesized key := by
  rw [findSynthesized?, List.findIdx?_eq_none_iff]
  simp only [beq_eq_false_iff_ne]
  constructor
  · intro h i p hp
    exact h p (List.mem_of_getElem? hp)
  · intro h p hp
    obtain ⟨i, hi⟩ := List.mem_iff_getElem?.mp hp
    exact h i p hi

/-- A position found for a key holds a procedure that comes from it. -/
theorem procedure?_of_findSynthesized? {t : TypeDef} {key : SynthKey} {i : ProcedureId}
    (h : t.findSynthesized? key = some i) :
    ∃ p, t.procedure? i = some p ∧ p.origin = .synthesized key := by
  obtain ⟨hi, hp, -⟩ := List.findIdx?_eq_some_iff_getElem.mp h
  exact ⟨t.procedures[i], List.getElem?_eq_getElem hi, by simpa using hp⟩

theorem procedure?_of_findSignature? {t : TypeDef} {s : Signature} {i : ProcedureId}
    (h : t.findSignature? s = some i) :
    ∃ p, t.procedure? i = some p ∧ p.signature = s := by
  obtain ⟨hi, hp, -⟩ := List.findIdx?_eq_some_iff_getElem.mp h
  exact ⟨t.procedures[i], List.getElem?_eq_getElem hi, by simpa using hp⟩

/-- Looking for a key looks at origins alone. -/
theorem findSynthesized?_eq (t : TypeDef) (key : SynthKey) :
    t.findSynthesized? key =
      (t.procedures.map (·.origin)).findIdx? (· == .synthesized key) := by
  rw [findSynthesized?, List.findIdx?_map]
  rfl

/-- Looking for a signature looks at signatures alone. -/
theorem findSignature?_eq (t : TypeDef) (s : Signature) :
    t.findSignature? s = (t.procedures.map (·.signature)).findIdx? (· == s) := by
  rw [findSignature?, List.findIdx?_map]
  rfl

theorem findSynthesized?_of_prefix {t u : TypeDef}
    (h : t.procedures.map (·.origin) <+: u.procedures.map (·.origin)) {key : SynthKey}
    {i : ProcedureId} (hi : t.findSynthesized? key = some i) :
    u.findSynthesized? key = some i := by
  rw [findSynthesized?_eq] at hi ⊢
  obtain ⟨more, hmore⟩ := h
  rw [← hmore, List.findIdx?_append, hi, Option.some_or]

theorem findSignature?_of_prefix {t u : TypeDef}
    (h : t.procedures.map (·.signature) <+: u.procedures.map (·.signature)) {s : Signature}
    {i : ProcedureId} (hi : t.findSignature? s = some i) : u.findSignature? s = some i := by
  rw [findSignature?_eq] at hi ⊢
  obtain ⟨more, hmore⟩ := h
  rw [← hmore, List.findIdx?_append, hi, Option.some_or]

/-- Adding a procedure generated for a key succeeds exactly where the key lacks one. -/
theorem add_of_lacks {t : TypeDef} {p : Procedure} {key : SynthKey}
    (horigin : p.origin = .synthesized key) (hsig : p.signature = key.generated)
    (h : t.Lacks key) : t.add p = .ok (t.push p, t.procedures.length) := by
  simp [add, hsig, h.unsigned, h.absent, horigin, push]

end TypeDef

/-! ### The single changes -/

/-- The remote call that is woven: its position, the procedure as it was, what is asked of it,
and the id it is woven under. -/
structure Job where
  id : ProcedureId
  served : Procedure
  contract : Contract
  rpcId : RpcId

namespace Job

/-- The key of a procedure generated for the call. -/
def key (j : Job) (role : SynthRole) : SynthKey := ⟨role, j.served.signature⟩

/-- The logic of the call is in a type, and generated code calls it by a reference. -/
structure HasLogic (j : Job) (t : TypeDef) (logic : ProcedureId) (ref : MethodRef) : Prop where
  found : t.findSynthesized? (j.key .logic) = some logic
  named : ∃ q, t.procedure? logic = some q ∧ ref = ⟨t.name, q.name, j.served.types⟩

/-- One change that weaving the call may make to its type. -/
inductive Edit (loom : Loom) (j : Job) : TypeDef → TypeDef → Prop
  /-- The call's own body is moved out. -/
  | clear (t : TypeDef) : Edit loom j t (t.clear j.id)
  /-- The call gets another body. -/
  | fill (t : TypeDef) (body : Body) : Edit loom j t (t.fill j.id body)
  /-- The logic takes the call's body. -/
  | logic {t : TypeDef} {body : Body} (hid : t.procedure? j.id = some j.served)
      (hbody : j.served.body = some body) (hnew : t.Lacks (j.key .logic)) :
      Edit loom j t ((t.clear j.id).push (j.served.logicOf body))
  /-- A receiver is added. -/
  | reader {t : TypeDef} {kind : Kind} {logic : ProcedureId} {ref : MethodRef} {body : Body}
      (hkind : kind ∈ j.contract.kinds.toList) (hlogic : j.HasLogic t logic ref)
      (hbody : loom.receiverBody j.served j.contract kind ref = .ok body)
      (hnew : t.Lacks (j.key (.reader kind))) : Edit loom j t (t.push (j.served.readerOf kind body))
  /-- A sender is added. -/
  | writer {t : TypeDef} {kind : Kind} {body : Body}
      (hbody : loom.senderBody j.served j.contract j.rpcId kind = .ok body)
      (hnew : t.Lacks (j.key (.writer kind))) (hkind : kind ∈ j.contract.kinds.toList)
      {logic : ProcedureId} {ref : MethodRef} (hlogic : j.HasLogic t logic ref) :
      Edit loom j t (t.push (j.served.writerOf kind body))
  /-- A sender takes the place of an earlier one. -/
  | rewriter {t : TypeDef} {kind : Kind} {body : Body} {i : ProcedureId}
      (hbody : loom.senderBody j.served j.contract j.rpcId kind = .ok body)
      (hold : t.findSynthesized? (j.key (.writer kind)) = some i)
      (hkind : kind ∈ j.contract.kinds.toList) {logic : ProcedureId} {ref : MethodRef}
      (hlogic : j.HasLogic t logic ref) :
      Edit loom j t (t.modify i fun _ => j.served.writerOf kind body)

/-- Any number of changes. -/
abbrev Edits (loom : Loom) (j : Job) : TypeDef → TypeDef → Prop := ReflTransGen (j.Edit loom)

variable {loom : Loom} {j : Job} {t u : TypeDef}

/-! ### What one change keeps -/

theorem Edit.name_eq (h : j.Edit loom t u) : u.name = t.name := by
  cases h <;> rfl

theorem Edit.base_eq (h : j.Edit loom t u) : u.base = t.base := by
  cases h <;> rfl

theorem outline_clear (t : TypeDef) (id : ProcedureId) : (t.clear id).outline = t.outline :=
  TypeDef.outline_modify (fun _ _ => rfl) (fun _ _ _ => rfl)

theorem outline_fill (t : TypeDef) (id : ProcedureId) (b : Body) :
    (t.fill id b).outline = t.outline :=
  TypeDef.outline_modify (fun _ _ => rfl) (fun _ _ _ => rfl)

theorem Edit.outline_eq (h : j.Edit loom t u) : u.outline = t.outline := by
  cases h with
  | clear => exact outline_clear _ _
  | fill => exact outline_fill _ _ _
  | logic => exact (TypeDef.outline_append _ rfl).trans (outline_clear _ _)
  | reader => exact TypeDef.outline_append _ rfl
  | writer => exact TypeDef.outline_append _ rfl
  | rewriter hbody hold =>
    obtain ⟨p, hp, horigin⟩ := TypeDef.procedure?_of_findSynthesized? hold
    have hgen := Procedure.isDeclared_of_synthesized horigin
    refine TypeDef.outline_modify (fun q hq => ?_) (fun q hq hd => ?_)
    · obtain rfl := Option.some.inj (hp.symm.trans hq)
      rw [hgen]; rfl
    · obtain rfl := Option.some.inj (hp.symm.trans hq)
      rw [hgen] at hd; cases hd

theorem origins_modify {t : TypeDef} {i : ProcedureId} {f : Procedure → Procedure}
    (h : ∀ p, t.procedure? i = some p → (f p).origin = p.origin) :
    (t.modify i f).procedures.map (·.origin) = t.procedures.map (·.origin) :=
  TypeDef.map_procedures_modify Procedure.origin h

theorem signatures_modify {t : TypeDef} {i : ProcedureId} {f : Procedure → Procedure}
    (h : ∀ p, t.procedure? i = some p → (f p).signature = p.signature) :
    (t.modify i f).procedures.map (·.signature) = t.procedures.map (·.signature) :=
  TypeDef.map_procedures_modify Procedure.signature h

theorem Edit.origins_prefix (h : j.Edit loom t u) :
    t.procedures.map (·.origin) <+: u.procedures.map (·.origin) := by
  have hclear : (t.clear j.id).procedures.map (·.origin) = t.procedures.map (·.origin) :=
    origins_modify fun _ _ => rfl
  cases h with
  | clear => exact hclear ▸ List.prefix_rfl
  | fill body =>
    have : (t.fill j.id body).procedures.map (·.origin) = t.procedures.map (·.origin) :=
      origins_modify fun _ _ => rfl
    exact this ▸ List.prefix_rfl
  | logic => simp [TypeDef.push, hclear]
  | reader => simp [TypeDef.push]
  | writer => simp [TypeDef.push]
  | rewriter hbody hold =>
    obtain ⟨p, hp, horigin⟩ := TypeDef.procedure?_of_findSynthesized? hold
    refine (origins_modify fun q hq => ?_) ▸ List.prefix_rfl
    obtain rfl := Option.some.inj (hp.symm.trans hq)
    exact horigin.symm

/-- A procedure that is neither the call itself nor one of its senders stays as it is. -/
theorem Edit.procedure?_eq (h : j.Edit loom t u) {i : ProcedureId} {p : Procedure}
    (hp : t.procedure? i = some p) (hid : i ≠ j.id)
    (hw : ∀ kind, p.origin ≠ .synthesized (j.key (.writer kind))) : u.procedure? i = some p := by
  have hlt := TypeDef.lt_of_procedure? hp
  cases h with
  | clear => simp [TypeDef.clear, TypeDef.procedure?_modify, hid.symm, hp]
  | fill => simp [TypeDef.fill, TypeDef.procedure?_modify, hid.symm, hp]
  | logic =>
    rw [TypeDef.procedure?_push_of_lt (by simpa [TypeDef.clear] using hlt)]
    simp [TypeDef.clear, TypeDef.procedure?_modify, hid.symm, hp]
  | reader => rw [TypeDef.procedure?_push_of_lt hlt, hp]
  | writer => rw [TypeDef.procedure?_push_of_lt hlt, hp]
  | @rewriter kind _ k _ hold =>
    obtain ⟨q, hq, horigin⟩ := TypeDef.procedure?_of_findSynthesized? hold
    have hne : k ≠ i := by
      rintro rfl
      obtain rfl := Option.some.inj (hq.symm.trans hp)
      exact hw kind horigin
    simp [TypeDef.procedure?_modify, hne, hp]

/-- The call itself keeps everything but its body. -/
theorem Edit.heading_eq (h : j.Edit loom t u) {p : Procedure} (hp : t.procedure? j.id = some p)
    (hd : p.isDeclared = true) : ∃ q, u.procedure? j.id = some q ∧ q.heading = p.heading := by
  have hlt := TypeDef.lt_of_procedure? hp
  cases h with
  | clear =>
    exact ⟨{ p with body := none }, by simp [TypeDef.clear, TypeDef.procedure?_modify, hp], rfl⟩
  | fill body =>
    exact ⟨p.withBody body, by simp [TypeDef.fill, TypeDef.procedure?_modify, hp], rfl⟩
  | logic =>
    refine ⟨{ p with body := none }, ?_, rfl⟩
    rw [TypeDef.procedure?_push_of_lt (by simpa [TypeDef.clear] using hlt)]
    simp [TypeDef.clear, TypeDef.procedure?_modify, hp]
  | reader => exact ⟨p, by rw [TypeDef.procedure?_push_of_lt hlt, hp], rfl⟩
  | writer => exact ⟨p, by rw [TypeDef.procedure?_push_of_lt hlt, hp], rfl⟩
  | @rewriter kind _ k _ hold =>
    obtain ⟨q, hq, horigin⟩ := TypeDef.procedure?_of_findSynthesized? hold
    have hne : k ≠ j.id := by
      rintro rfl
      obtain rfl := Option.some.inj (hq.symm.trans hp)
      exact absurd horigin (Procedure.origin_ne_of_isDeclared hd _)
    exact ⟨p, by simp [TypeDef.procedure?_modify, hne, hp], rfl⟩

end Job

end RpcLoom
