/-
RpcLoom/Proofs/CallWeaving.lean

What each step of weaving a remote call leaves in its type.

Design.  `HasLogic`, `HasReader` and `HasWriter` say of a type that it holds
the logic, a receiver or a sender of a call, and where.  A step that succeeds
leaves what it is for, a step that fails says why it cannot, and neither makes
a change but those of `Job.Edit`.  Later steps of the same call keep what
earlier ones left.
-/
import RpcLoom.Proofs.Installing

namespace RpcLoom

open Relation (ReflTransGen)

/-! ### Types that grow -/

namespace TypeDef

/-- A type keeps its name, and every procedure its position and origin; more may follow. -/
structure Grows (t u : TypeDef) : Prop where
  name : u.name = t.name
  origins : t.procedures.map (·.origin) <+: u.procedures.map (·.origin)

theorem Grows.refl (t : TypeDef) : t.Grows t := ⟨rfl, List.prefix_rfl⟩

theorem Grows.trans {t u v : TypeDef} (h : t.Grows u) (h' : u.Grows v) : t.Grows v :=
  ⟨h'.name.trans h.name, h.origins.trans h'.origins⟩

theorem Grows.find {t u : TypeDef} (h : t.Grows u) {key : SynthKey} {i : ProcedureId}
    (hi : t.findSynthesized? key = some i) : u.findSynthesized? key = some i :=
  findSynthesized?_of_prefix h.origins hi

/-- The position just behind a type is found for the key of what is added there. -/
theorem findSynthesized?_push {t : TypeDef} {p : Procedure} {key : SynthKey}
    (horigin : p.origin = .synthesized key) (hnone : t.findSynthesized? key = none) :
    (t.push p).findSynthesized? key = some t.procedures.length := by
  rw [findSynthesized?_eq] at hnone ⊢
  simp [push, List.findIdx?_append, hnone, horigin]

end TypeDef

namespace Job

variable {loom : Loom} {j : Job} {t u : TypeDef}

theorem Edit.grows (h : j.Edit loom t u) : t.Grows u := ⟨h.name_eq, h.origins_prefix⟩

theorem Edits.grows (h : j.Edits loom t u) : t.Grows u := by
  induction h with
  | refl => exact .refl t
  | tail _ hstep ih => exact ih.trans hstep.grows

/-- The call is declared where it says. -/
structure Stands (j : Job) (t : TypeDef) : Prop where
  declared : j.served.isDeclared = true
  here : ∃ q, t.procedure? j.id = some q ∧ q.heading = j.served.heading

theorem Edit.stands (h : j.Edit loom t u) (hj : j.Stands t) : j.Stands u := by
  obtain ⟨hd, q, hq, hhead⟩ := hj
  have hqd : q.isDeclared = true := by
    rw [← q.isDeclared_heading, hhead, Procedure.isDeclared_heading, hd]
  obtain ⟨r, hr, hr'⟩ := h.heading_eq hq hqd
  exact ⟨hd, r, hr, hr'.trans hhead⟩

theorem Edits.stands (h : j.Edits loom t u) (hj : j.Stands t) : j.Stands u := by
  induction h with
  | refl => exact hj
  | tail _ hstep ih => exact hstep.stands ih

/-- A generated procedure is not the call itself. -/
theorem Stands.ne_of_origin (hj : j.Stands t) {i : ProcedureId} {p : Procedure} {key : SynthKey}
    (hp : t.procedure? i = some p) (horigin : p.origin = .synthesized key) : i ≠ j.id := by
  rintro rfl
  obtain ⟨hd, q, hq, hhead⟩ := hj
  obtain rfl := Option.some.inj (hp.symm.trans hq)
  have : p.isDeclared = true := by
    rw [← p.isDeclared_heading, hhead, Procedure.isDeclared_heading, hd]
  exact absurd horigin (Procedure.origin_ne_of_isDeclared this _)

/-- The logic of a call stays where it is. -/
theorem HasLogic.edit {l : ProcedureId} {ref : MethodRef} (h : j.HasLogic t l ref)
    (hj : j.Stands t) (he : j.Edit loom t u) : j.HasLogic u l ref := by
  obtain ⟨q, hq, href⟩ := h.named
  obtain ⟨q', hq', horigin⟩ := TypeDef.procedure?_of_findSynthesized? h.found
  obtain rfl := Option.some.inj (hq.symm.trans hq')
  refine ⟨he.grows.find h.found, q, ?_, by rw [href, he.name_eq]⟩
  refine he.procedure?_eq hq (hj.ne_of_origin hq horigin) fun kind => ?_
  rw [horigin]
  simp [key]

theorem HasLogic.edits {l : ProcedureId} {ref : MethodRef} (h : j.HasLogic t l ref)
    (hj : j.Stands t) (he : j.Edits loom t u) : j.HasLogic u l ref := by
  induction he with
  | refl => exact h
  | tail hs hstep ih => exact ih.edit (Edits.stands hs hj) hstep

/-- The receiver of a call for a kind is in a type, as a stub says. -/
structure HasReader (j : Job) (t : TypeDef) (kind : Kind) (s : Stub) : Prop where
  serves : s.kind = kind
  found : t.findSynthesized? (j.key (.reader kind)) = some s.id
  ref : s.ref = (j.key (.reader kind)).ref t.name

/-- The sender of a call with a given body is in a type, as a stub says. -/
structure HasWriter (j : Job) (t : TypeDef) (writer : Kind × Body) (s : Stub) : Prop where
  serves : s.kind = writer.1
  found : t.findSynthesized? (j.key (.writer writer.1)) = some s.id
  ref : s.ref = (j.key (.writer writer.1)).ref t.name
  current : t.procedure? s.id = some (j.served.writerOf writer.1 writer.2)

theorem HasReader.grows {kind : Kind} {s : Stub} (h : j.HasReader t kind s) (hg : t.Grows u) :
    j.HasReader u kind s :=
  ⟨h.serves, hg.find h.found, by rw [h.ref, hg.name]⟩

/-- Why a receiver cannot be added to a type. -/
inductive ReaderRefused (loom : Loom) (j : Job) (ref : MethodRef) (t : TypeDef) (kind : Kind) :
    SynthesisError → Prop
  /-- Its body cannot be made. -/
  | body {e : SynthesisError} (hnone : t.findSynthesized? (j.key (.reader kind)) = none)
      (hbody : loom.receiverBody j.served j.contract kind ref = .error e) :
      ReaderRefused loom j ref t kind e
  /-- Another procedure is in its place. -/
  | clash {body : Body} (hbody : loom.receiverBody j.served j.contract kind ref = .ok body)
      (hclash : t.Clashes (j.key (.reader kind))) :
      ReaderRefused loom j ref t kind (t.clash (j.key (.reader kind)))

/-! ### Each step makes edits -/

open TypeEdit

theorem relocateLogic_edits (loom : Loom) (hj : t.procedure? j.id = some j.served) :
    j.Edits loom t (final (relocateLogic j.id t)) := by
  rcases relocateLogic_cases hj with
    ⟨l, -, h⟩ | ⟨-, -, h⟩ | ⟨body, hbody, hnew, h⟩ | ⟨body, -, -, h⟩ <;> rw [h]
  · exact .refl
  · exact .refl
  · exact .single (.logic hj hbody hnew)
  · exact .single (.clear t)

theorem ensureReader_edits {logic : ProcedureId} {ref : MethodRef} {kind : Kind}
    (hkind : kind ∈ j.contract.kinds.toList) (hlogic : j.HasLogic t logic ref) :
    j.Edits loom t (final (ensureReader loom j.served j.contract ref kind t)) := by
  rcases ensureReader_cases loom j.served j.contract ref kind with
    ⟨i, -, h⟩ | ⟨-, e, -, h⟩ | ⟨body, hbody, hnew, h⟩ | ⟨body, -, -, h⟩ <;> rw [h]
  · exact .refl
  · exact .refl
  · exact .single (.reader hkind hlogic hbody hnew)
  · exact .refl

theorem ensureReader_grows (loom : Loom) (p : Procedure) (c : Contract) (logic : MethodRef)
    (kind : Kind) (t : TypeDef) : t.Grows (final (ensureReader loom p c logic kind t)) := by
  have hpush : ∀ q, t.Grows (t.push q) := fun q => ⟨rfl, by simp [TypeDef.push]⟩
  rcases ensureReader_cases (t := t) loom p c logic kind with
    ⟨i, -, h⟩ | ⟨-, e, -, h⟩ | ⟨body, -, -, h⟩ | ⟨body, -, -, h⟩ <;> rw [h]
  · exact .refl t
  · exact .refl t
  · exact hpush _
  · exact .refl t

theorem installWriter_edits {kind : Kind} {body : Body} {logic : ProcedureId} {ref : MethodRef}
    (hbody : loom.senderBody j.served j.contract j.rpcId kind = .ok body)
    (hkind : kind ∈ j.contract.kinds.toList) (hlogic : j.HasLogic t logic ref) (owner : String) :
    j.Edits loom t (final (installWriter owner j.served kind body t)) := by
  rcases installWriter_cases owner j.served kind body with
    ⟨i, hold, h⟩ | ⟨hnew, h⟩ | ⟨-, h⟩ <;> rw [h]
  · exact .single (.rewriter hbody hold hkind hlogic)
  · exact .single (.writer hbody hnew hkind hlogic)
  · exact .refl

theorem installWriter_grows (owner : String) (p : Procedure) (kind : Kind) (body : Body)
    (t : TypeDef) : t.Grows (final (installWriter owner p kind body t)) := by
  rcases installWriter_cases (t := t) owner p kind body with
    ⟨i, hold, h⟩ | ⟨-, h⟩ | ⟨-, h⟩ <;> rw [h]
  · obtain ⟨q, hq, horigin⟩ := TypeDef.procedure?_of_findSynthesized? hold
    refine ⟨rfl, (origins_modify fun r hr => ?_) ▸ List.prefix_rfl⟩
    obtain rfl := Option.some.inj (hq.symm.trans hr)
    exact horigin.symm
  · exact ⟨rfl, by simp [TypeDef.push]⟩
  · exact .refl t

/-! ### What each step leaves -/

theorem hasReader_of_ensureReader {ref : MethodRef} {kind : Kind} {s : Stub}
    (howner : ref.owner = t.name)
    (h : ensureReader loom j.served j.contract ref kind t = .ok s u) : j.HasReader u kind s := by
  rcases ensureReader_cases loom j.served j.contract ref kind with
    ⟨i, hi, h'⟩ | ⟨-, e, -, h'⟩ | ⟨body, -, hnew, h'⟩ | ⟨body, -, -, h'⟩ <;> rw [h'] at h
  · cases h
    exact ⟨rfl, hi, by rw [howner]; rfl⟩
  · cases h
  · cases h
    exact ⟨rfl, TypeDef.findSynthesized?_push rfl hnew.absent, by rw [howner]; rfl⟩
  · cases h

theorem readerRefused_of_ensureReader {ref : MethodRef} {kind : Kind} {e : SynthesisError}
    (h : ensureReader loom j.served j.contract ref kind t = .error e u) :
    u = t ∧ ReaderRefused loom j ref t kind e := by
  rcases ensureReader_cases loom j.served j.contract ref kind with
    ⟨i, -, h'⟩ | ⟨hnone, e, hbody, h'⟩ | ⟨body, -, -, h'⟩ | ⟨body, hbody, hclash, h'⟩ <;>
    rw [h'] at h <;> cases h
  · exact ⟨rfl, .body hnone hbody⟩
  · exact ⟨rfl, .clash hbody hclash⟩

theorem hasWriter_of_installWriter {kind : Kind} {body : Body} {s : Stub}
    (h : installWriter t.name j.served kind body t = .ok s u) :
    j.HasWriter u (kind, body) s := by
  rcases installWriter_cases t.name j.served kind body with
    ⟨i, hold, h'⟩ | ⟨hnew, h'⟩ | ⟨-, h'⟩ <;> rw [h'] at h <;> cases h
  · obtain ⟨q, hq, horigin⟩ := TypeDef.procedure?_of_findSynthesized? hold
    refine ⟨rfl, ?_, rfl, by simp [TypeDef.procedure?_modify, hq]⟩
    rw [TypeDef.findSynthesized?_eq, origins_modify, ← TypeDef.findSynthesized?_eq]
    · exact hold
    · intro p hp
      obtain rfl := Option.some.inj (hq.symm.trans hp)
      exact horigin.symm
  · exact ⟨rfl, TypeDef.findSynthesized?_push rfl hnew.absent, rfl,
      TypeDef.procedure?_push_length _ _⟩

theorem clashes_of_installWriter {owner : String} {kind : Kind} {body : Body}
    {e : SynthesisError} (h : installWriter owner j.served kind body t = .error e u) :
    u = t ∧ t.Clashes (j.key (.writer kind)) ∧ e = t.clash (j.key (.writer kind)) := by
  rcases installWriter_cases owner j.served kind body with
    ⟨i, -, h'⟩ | ⟨-, h'⟩ | ⟨hclash, h'⟩ <;> rw [h'] at h <;> cases h
  exact ⟨rfl, hclash, rfl⟩

/-- A sender stays as it is while one for another kind is brought in. -/
theorem HasWriter.kept {writer other : Kind × Body} {s : Stub} {owner : String}
    (h : j.HasWriter t writer s) (hne : writer.1 ≠ other.1) :
    j.HasWriter (final (installWriter owner j.served other.1 other.2 t)) writer s := by
  have hgrow := installWriter_grows owner j.served other.1 other.2 t
  refine ⟨h.serves, hgrow.find h.found, by rw [h.ref, hgrow.name], ?_⟩
  rcases installWriter_cases owner j.served other.1 other.2 with
    ⟨i, hold, h'⟩ | ⟨-, h'⟩ | ⟨-, h'⟩ <;> rw [h', final]
  · obtain ⟨q, hq, horigin⟩ := TypeDef.procedure?_of_findSynthesized? hold
    have hi : i ≠ s.id := by
      rintro rfl
      obtain rfl := Option.some.inj (hq.symm.trans h.current)
      simp [Procedure.writerOf, Procedure.synthesize] at horigin
      exact hne horigin
    rw [TypeDef.procedure?_modify, if_neg hi]
    exact h.current
  · rw [TypeDef.procedure?_push_of_lt (TypeDef.lt_of_procedure? h.current)]
    exact h.current
  · exact h.current

end Job

end RpcLoom
