/-
RpcLoom/Proofs/Covering.lean

What weaving leaves in the sight of code that names no generated procedure.

Design.  Generated procedures stand behind the declared ones and have names that
begin with an opening, so a search for any other name ends where it did before
(`TypeDef.Covers`).  What it finds has the heading it had, and also the code if
it is no remote call.  A woven assembly therefore answers a call with such a
name as the assembly did, virtual or not, unless a remote call is what answers.
-/
import RpcLoom.Proofs.Faultless
import RpcLoom.Proofs.WovenCalls

namespace RpcLoom

/-! ### Names that are not generated -/

/-- The parts that generated procedures play. -/
def SynthRole.all : List SynthRole :=
  .logic :: Kind.all.flatMap fun kind => [.writer kind, .reader kind]

theorem SynthRole.mem_all (role : SynthRole) : role ∈ SynthRole.all := by
  cases role with
  | logic => exact List.mem_cons_self
  | writer kind =>
    exact List.mem_cons_of_mem _ (List.mem_flatMap.mpr ⟨kind, kind.mem_all, by simp⟩)
  | reader kind =>
    exact List.mem_cons_of_mem _ (List.mem_flatMap.mpr ⟨kind, kind.mem_all, by simp⟩)

/-- A name that does not begin as generated names do. -/
def UserName (name : String) : Prop :=
  ∀ role : SynthRole, ¬ role.opening.toList <+: name.toList

instance (name : String) : Decidable (UserName name) :=
  decidable_of_iff (∀ role ∈ SynthRole.all, ¬ role.opening.toList <+: name.toList)
    ⟨fun h role => h role role.mem_all, fun h role _ => h role⟩

theorem SynthKey.not_userName (key : SynthKey) : ¬ UserName key.mangledName := by
  intro h
  refine h key.role ⟨key.signature.mangled.toList, ?_⟩
  rw [SynthKey.mangledName, String.toList_append]

/-! ### Types -/

namespace TypeDef

variable {t u : TypeDef}

/-- A type that has grown by generated procedures, and in which only remote calls have other
code. -/
structure Covers (t u : TypeDef) : Prop where
  name : u.name = t.name
  signatures : ∃ more, u.procedures.map (·.signature) = t.procedures.map (·.signature) ++ more ∧
    ∀ s ∈ more, ¬ UserName s.name
  kept : ∀ id p, t.procedure? id = some p → ∃ q, u.procedure? id = some q ∧
    q.heading = p.heading ∧ (p.isRemote = false → q = p)

theorem Covers.refl (t : TypeDef) : t.Covers t :=
  ⟨rfl, ⟨[], by rw [List.append_nil], by simp⟩, fun _ p hp => ⟨p, hp, rfl, fun _ => rfl⟩⟩

/-- Nothing that is looked for by a name of the user's is found among what has been added. -/
theorem Covers.findIdx?_eq (h : t.Covers u) {q : Signature → Bool}
    (hq : ∀ s, q s = true → UserName s.name) :
    (u.procedures.map (·.signature)).findIdx? q = (t.procedures.map (·.signature)).findIdx? q := by
  obtain ⟨more, hmore, hnames⟩ := h.signatures
  have hnone : more.findIdx? q = none := by
    rw [List.findIdx?_eq_none_iff]
    exact fun s hs => eq_false_of_ne_true fun hfound => hnames s hs (hq s hfound)
  rw [hmore, List.findIdx?_append, hnone, Option.map_none, Option.or_none]

theorem Covers.findSignature?_eq (h : t.Covers u) {s : Signature} (hs : UserName s.name) :
    u.findSignature? s = t.findSignature? s := by
  rw [TypeDef.findSignature?_eq, TypeDef.findSignature?_eq]
  exact h.findIdx?_eq fun x hx => eq_of_beq hx ▸ hs

theorem Covers.findName?_eq (h : t.Covers u) {name : String} (hn : UserName name) :
    u.findName? name = t.findName? name := by
  rw [TypeDef.findName?_eq, TypeDef.findName?_eq]
  exact h.findIdx?_eq fun x hx => eq_of_beq hx ▸ hn

/-- Whatever a type of declared procedures grows by is generated, and so are its names. -/
theorem Fresh.covers (ht : t.Fresh) (hface : u.face = t.face) (hcanonical : u.Canonical)
    (hfront : t.procedures.map (·.signature) <+: u.procedures.map (·.signature))
    (hkept : ∀ id p, t.procedure? id = some p → p.isRemote = false → u.procedure? id = some p) :
    t.Covers u := by
  obtain ⟨hname, -, houtline⟩ := face_eq_iff.mp hface
  obtain ⟨more, hmore⟩ := hfront
  refine ⟨hname, ⟨more, hmore.symm, ?_⟩, ?_⟩
  · intro s hs
    obtain ⟨k, hk⟩ := List.mem_iff_getElem?.mp hs
    have hbehind : (u.procedures.map (·.signature))[t.procedures.length + k]? = some s := by
      rw [← hmore, ← List.length_map (f := Procedure.signature),
        List.getElem?_append_right (Nat.le_add_right _ _), Nat.add_sub_cancel_left, hk]
    rw [List.getElem?_map, Option.map_eq_some_iff] at hbehind
    obtain ⟨p, hp, rfl⟩ := hbehind
    cases horigin : p.origin with
    | synthesized key =>
      obtain ⟨hsignature, -⟩ := hcanonical _ p key hp horigin
      rw [hsignature]
      exact key.not_userName
    | declared =>
      have hmem := mem_outline.mpr ⟨p, hp, by simp [Procedure.isDeclared, horigin], rfl⟩
      rw [houtline] at hmem
      obtain ⟨q, hq, -, -⟩ := mem_outline.mp hmem
      exact absurd (lt_of_procedure? hq) (Nat.not_lt.mpr (Nat.le_add_right _ _))
  · intro id p hp
    have hmem := mem_outline.mpr ⟨p, hp, ht id p hp, rfl⟩
    rw [← houtline] at hmem
    obtain ⟨q, hq, -, hheading⟩ := mem_outline.mp hmem
    refine ⟨q, hq, hheading.symm, fun hremote => ?_⟩
    exact Option.some.inj (hq.symm.trans (hkept id p hp hremote))

/-- Leading base calls on changes no declared procedure. -/
theorem Covers.relinked {v : TypeDef} (h : t.Covers u) (ht : t.Fresh) (hrelinked : u.Relinked v) :
    t.Covers v := by
  refine ⟨hrelinked.name_eq.trans h.name, ?_, ?_⟩
  · rw [hrelinked.signatures_eq]
    exact h.signatures
  · intro id p hp
    obtain ⟨q, hq, hheading, hkept⟩ := h.kept id p hp
    have hdeclared : q.isDeclared = true := by
      rw [← q.isDeclared_heading, hheading]
      exact ht id p hp
    refine ⟨q, hrelinked.kept id q hq (.inl fun s horigin => ?_), hheading, hkept⟩
    exact absurd horigin (Procedure.origin_ne_of_isDeclared hdeclared _)

end TypeDef

/-! ### Assemblies -/

namespace Assembly

variable {a b : Assembly} {m : MethodRef} {i : TypeId} {id : ProcedureId} {object : NetObject}
  {isVirtualCall : Bool}

theorem of_procedureFor {p : Procedure} (h : a.procedureFor m = .ok p) :
    ∃ t ∈ a.types, p ∈ t.procedures ∧ p.name = m.name := by
  rw [procedureFor] at h
  cases hfound : a.resolve m with
  | error e =>
    rw [hfound] at h
    cases h
  | ok found =>
    obtain ⟨t, q, ht, -, hq, hsignature⟩ := of_resolve hfound
    simp only [hfound, bind, Except.bind, type, ht, TypeDef.procedure, hq] at h
    obtain rfl := Except.ok.inj h
    exact ⟨t, List.mem_of_getElem? ht, List.mem_of_getElem? hq, congrArg Signature.name hsignature⟩

/-- Whatever a call runs is a procedure of a type, and has the name that was called. -/
theorem of_calleeOf {p : Procedure} (h : a.calleeOf object isVirtualCall m = .ok p) :
    ∃ t ∈ a.types, p ∈ t.procedures ∧ p.name = m.name := by
  rw [calleeOf] at h
  cases hfound : a.procedureFor m with
  | error e =>
    rw [hfound] at h
    cases h
  | ok q =>
    simp only [hfound, bind, Except.bind] at h
    by_cases hoverride : (isVirtualCall && q.isVirtual) = true
    · rw [if_pos hoverride] at h
      obtain ⟨t, ht, hmem, hname⟩ := of_procedureFor h
      exact ⟨t, ht, hmem, hname⟩
    · rw [if_neg hoverride] at h
      obtain rfl := Except.ok.inj h
      exact of_procedureFor hfound

/-- The reference by a name to a procedure at a place. -/
def refAt (a : Assembly) (name : String) (found : TypeId × ProcedureId) : Option MethodRef :=
  (a.type? found.1).bind fun t => (t.procedure? found.2).map fun p => ⟨t.name, name, p.types⟩

theorem methodNamed_of_refAt (a : Assembly) (typeName name : String) :
    a.methodNamed typeName name = (do
      let owner ← a.find typeName
      let chain ← a.chain owner
      ((a.firstWith (·.findName? name) chain).bind (a.refAt name)).elim
        (.error (.methodNotFound typeName name)) .ok) := by
  rw [methodNamed]
  refine congrArg _ (funext fun owner => congrArg _ (funext fun chain => ?_))
  cases a.firstWith (·.findName? name) chain with
  | none => rfl
  | some found =>
    obtain ⟨i, id⟩ := found
    simp only [Option.bind_some, refAt, bind]
    cases a.type? i with
    | none => rfl
    | some t =>
      simp only [Option.bind_some]
      cases t.procedure? id <;> rfl

theorem name_of_methodNamed {typeName name : String} (h : a.methodNamed typeName name = .ok m) :
    m.name = name := by
  rw [methodNamed_of_refAt] at h
  cases howner : a.find typeName with
  | error e =>
    rw [howner] at h
    cases h
  | ok owner =>
    cases hchain : a.chain owner with
    | error e =>
      simp only [howner, hchain, bind, Except.bind] at h
      cases h
    | ok chain =>
      simp only [howner, hchain, bind, Except.bind] at h
      cases href : (a.firstWith (·.findName? name) chain).bind (a.refAt name) with
      | none =>
        rw [href] at h
        cases h
      | some ref =>
        rw [href] at h
        cases h
        obtain ⟨found, -, href⟩ := Option.bind_eq_some_iff.mp href
        obtain ⟨t, -, href⟩ := Option.bind_eq_some_iff.mp href
        obtain ⟨p, -, rfl⟩ := Option.map_eq_some_iff.mp href
        rfl

/-- An assembly whose types have grown by generated procedures, and in which only remote calls have
other code. -/
structure Covers (a b : Assembly) : Prop where
  faces : a.faces = b.faces
  types : ∀ i t, a.type? i = some t → ∃ u, b.type? i = some u ∧ t.Covers u

theorem Covers.refl (a : Assembly) : a.Covers a :=
  ⟨rfl, fun _ t ht => ⟨t, ht, .refl t⟩⟩

namespace Covers

theorem firstWith_eq (h : a.Covers b) {find? : TypeDef → Option ProcedureId}
    (hfind : ∀ t u, t.Covers u → find? u = find? t) (is : List TypeId) :
    b.firstWith find? is = a.firstWith find? is := by
  apply firstWith_congr
  intro i
  rcases type?_congr h.faces i with ⟨ha, hb⟩ | ⟨t, u, ht, hu, -⟩
  · rw [ha, hb]
  · obtain ⟨u', hu', hcovers⟩ := h.types i t ht
    obtain rfl := Option.some.inj (hu.symm.trans hu')
    rw [ht, hu, Option.bind_some, Option.bind_some, hfind t u hcovers]

theorem resolve_eq (h : a.Covers b) (hm : UserName m.name) : b.resolve m = a.resolve m := by
  have hfirst : ∀ is, b.firstWith (·.findSignature? m.signature) is =
      a.firstWith (·.findSignature? m.signature) is :=
    h.firstWith_eq fun t u hcovers => hcovers.findSignature?_eq hm
  simp only [resolve, find, find?_congr h.faces, chain_congr h.faces, hfirst]

/-- Both assemblies know nothing that a reference stands for, or both know a procedure. -/
theorem procedureFor_cases (h : a.Covers b) (hm : UserName m.name) :
    (∃ e, a.procedureFor m = .error e ∧ b.procedureFor m = .error e) ∨
      ∃ p q, a.procedureFor m = .ok p ∧ b.procedureFor m = .ok q ∧ q.heading = p.heading ∧
        (p.isRemote = false → q = p) := by
  rw [procedureFor, procedureFor, h.resolve_eq hm]
  cases hfound : a.resolve m with
  | error e => exact .inl ⟨e, rfl, rfl⟩
  | ok found =>
    obtain ⟨t, p, ht, -, hp, -⟩ := of_resolve hfound
    obtain ⟨u, hu, hcovers⟩ := h.types _ t ht
    obtain ⟨q, hq, hheading, hkept⟩ := hcovers.kept _ p hp
    refine .inr ⟨p, q, ?_, ?_, hheading, hkept⟩
    · simp only [bind, Except.bind, type, ht, TypeDef.procedure, hp]
    · simp only [bind, Except.bind, type, hu, TypeDef.procedure, hq]

/-- A call runs what it ran before, unless that is a remote call. -/
theorem calleeOf_eq (h : a.Covers b) (hm : UserName m.name)
    (hlocal : ∀ p, a.calleeOf object isVirtualCall m = .ok p → p.isRemote = false) :
    b.calleeOf object isVirtualCall m = a.calleeOf object isVirtualCall m := by
  rw [calleeOf] at hlocal
  rw [calleeOf, calleeOf]
  rcases h.procedureFor_cases hm with ⟨e, ha, hb⟩ | ⟨p, q, ha, hb, hheading, hkept⟩
  · rw [ha, hb]
    rfl
  have hvirtual : q.isVirtual = p.isVirtual := by
    show q.heading.isVirtual = p.heading.isVirtual
    rw [hheading]
  simp only [ha, bind, Except.bind] at hlocal
  simp only [ha, hb, bind, Except.bind, hvirtual]
  by_cases hoverride : (isVirtualCall && p.isVirtual) = true
  · -- what is found first may be remote, as long as the override is not
    simp only [hoverride, if_true] at hlocal ⊢
    have hname : UserName ({ m with owner := object.typeName } : MethodRef).name := hm
    rcases h.procedureFor_cases hname with ⟨e, ha, hb⟩ | ⟨p, q, ha, hb, -, hkept⟩
    · rw [ha, hb]
    · rw [ha, hb, hkept (hlocal p ha)]
  · simp only [hoverride, Bool.false_eq_true, if_false] at hlocal ⊢
    rw [hkept (hlocal p rfl)]

/-- A name on a type leads to what it led to. -/
theorem methodNamed_eq (h : a.Covers b) (typeName : String) {name : String}
    (hn : UserName name) : b.methodNamed typeName name = a.methodNamed typeName name := by
  have hsame : ∀ is, (b.firstWith (·.findName? name) is).bind (b.refAt name) =
      (a.firstWith (·.findName? name) is).bind (a.refAt name) := by
    intro is
    rw [h.firstWith_eq fun t u hcovers => hcovers.findName?_eq hn]
    cases hfound : a.firstWith (·.findName? name) is with
    | none => rfl
    | some found =>
      obtain ⟨t, ht, hid⟩ := firstWith_eq_some hfound
      obtain ⟨hlt, -, -⟩ := List.findIdx?_eq_some_iff_getElem.mp hid
      have hp : t.procedure? found.2 = some t.procedures[found.2] := List.getElem?_eq_getElem hlt
      obtain ⟨u, hu, hcovers⟩ := h.types _ t ht
      obtain ⟨q, hq, hheading, -⟩ := hcovers.kept _ _ hp
      have htypes : q.types = t.procedures[found.2].types := by
        show q.heading.types = Procedure.types (Procedure.heading _)
        rw [hheading]
      simp only [refAt, Option.bind_some, ht, hu, hp, hq, Option.map_some, htypes, hcovers.name]
  simp only [methodNamed_of_refAt, find, find?_congr h.faces, chain_congr h.faces, hsame]

end Covers

end Assembly

/-! ### Weaving -/

namespace Loom

open Weaving (becomes)

variable {a : Assembly}

/-- What a type comes to alone covers it. -/
theorem covers_becomes (loom : Loom) {i : TypeId} {t : TypeDef} {above : List TypeId}
    (ht : a.type? i = some t) (hab : a.ancestors i = .ok above) (hfresh : t.Fresh) :
    t.Covers (becomes t (loom.alone a i).2) := by
  have hface : (becomes t (loom.alone a i).2).face = t.face := face_becomes ht hab
  obtain ⟨counter, -, ⟨log, e, -, halone⟩ | ⟨log, v, hv, halone⟩⟩ := alone_cases loom ht hab
  · rw [halone]
    exact .refl t
  rw [halone] at hface ⊢
  obtain ⟨-, -, turns, hturns, hjobs⟩ := turns_of_weaveTypeDef hv
  refine hfresh.covers hface (hturns.canonical hfresh.canonical)
    (hturns.signatures_prefix hfresh.canonical) ?_
  intro id p hp hlocal
  apply hturns.procedure?_declared hp (hfresh id p hp)
  -- a procedure with a turn has a contract, so it is a remote call
  rintro x hx rfl
  have hserved := hturns.served_eq (Turns.nodup_ids hjobs) hx
  obtain rfl : p = x.1.served := Option.some.inj (hp.symm.trans hserved)
  obtain ⟨-, hcontract⟩ := hturns.declared hx
  rw [Procedure.contract?_of_not_isRemote hlocal] at hcontract
  cases hcontract

/-- Weaving an assembly of declared procedures gives one that covers it, whatever comes of it. -/
theorem covers_weave (loom : Loom) (hnames : a.NamesDiffer) (hfresh : ∀ t ∈ a.types, t.Fresh) :
    a.Covers (loom.weave (.start a)).1.assembly := by
  cases horder : a.hierarchyOrder with
  | error e =>
    rw [weave_of_error loom (w := .start a) horder]
    exact .refl a
  | ok order =>
    obtain ⟨v, o, failures, b, h⟩ := loom.finished_of_order horder hnames hfresh
    rw [h.result]
    refine ⟨h.faces_eq, ?_⟩
    intro i t ht
    obtain ⟨t', above, F, ht', hab, hF, hrelinked⟩ :=
      h.type? (Assembly.mem_hierarchyOrder horder ht)
    obtain rfl := Option.some.inj (ht.symm.trans ht')
    have htfresh := hfresh t (List.mem_of_getElem? ht)
    exact ⟨F, hF, (loom.covers_becomes ht hab htfresh).relinked htfresh hrelinked⟩

end Loom

end RpcLoom
