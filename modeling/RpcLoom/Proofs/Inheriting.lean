/-
RpcLoom/Proofs/Inheriting.lean

Types without procedures hand every search on.

Design.  A search for a procedure goes through a chain and passes over the types
that have none.  So if the types between two others are empty, and the lower one
is too, whatever is found from the upper one is found from the lower one
(`Inherits`), by signature and by name, and calls run the same procedures on
objects of either.  Weaving gives procedures only to types that have some, so
inheriting can be told before (`Faultless.inherits`).
-/
import RpcLoom.Proofs.Faultless

namespace RpcLoom

namespace Assembly

variable {a : Assembly} {name base : String} {p : Procedure} {ref : MethodRef}
  {object : NetObject}

/-- The types of a list have no procedures. -/
def Vacant (a : Assembly) (is : List TypeId) : Prop :=
  ∀ i ∈ is, ∀ t, a.type? i = some t → t.procedures = []

/-- From one name on, the chain passes over types without procedures until it comes to the type
of the other name. -/
def Inherits (a : Assembly) (name base : String) : Prop :=
  ∃ i before k after, a.find? name = some i ∧ a.chain i = .ok (before ++ k :: after) ∧
    a.Vacant before ∧ a.find? base = some k ∧ a.chain k = .ok (k :: after)

/-- A search passes over types without procedures. -/
theorem firstWith_append {find? : TypeDef → Option ProcedureId} {before : List TypeId}
    (hfind : ∀ t : TypeDef, t.procedures = [] → find? t = none) (hbefore : a.Vacant before)
    (rest : List TypeId) : a.firstWith find? (before ++ rest) = a.firstWith find? rest := by
  have hnone : a.firstWith find? before = none := by
    rw [firstWith, List.findSome?_eq_none_iff]
    intro i hi
    cases ht : a.type? i with
    | none => rfl
    | some t =>
      show (find? t).bind (fun id => some (i, id)) = none
      rw [hfind t (hbefore i hi t ht), Option.bind_none]
  rw [firstWith, firstWith, List.findSome?_append, ← firstWith, hnone, Option.none_or]

theorem Inherits.resolve (h : a.Inherits name base) {n : String} {types : List TypeRef}
    {found : TypeId × ProcedureId} (hfound : a.resolve ⟨base, n, types⟩ = .ok found) :
    a.resolve ⟨name, n, types⟩ = .ok found := by
  obtain ⟨i, before, k, after, hi, hchain, hbefore, hk, hlater⟩ := h
  have hpassed : a.firstWith (·.findSignature? ⟨n, types⟩) (before ++ k :: after) =
      a.firstWith (·.findSignature? ⟨n, types⟩) (k :: after) :=
    firstWith_append (fun t ht => by rw [TypeDef.findSignature?, ht]; rfl) hbefore (k :: after)
  have hfirst := (resolve_eq_ok_iff hk hlater).mp hfound
  exact (resolve_eq_ok_iff hi hchain).mpr (hpassed.trans hfirst)

theorem Inherits.procedureFor (h : a.Inherits name base) {n : String} {types : List TypeRef}
    (hp : a.procedureFor ⟨base, n, types⟩ = .ok p) : a.procedureFor ⟨name, n, types⟩ = .ok p := by
  rw [Assembly.procedureFor] at hp ⊢
  cases hfound : a.resolve ⟨base, n, types⟩ with
  | error e => simp [hfound, bind, Except.bind] at hp
  | ok found =>
    rw [hfound] at hp
    rw [h.resolve hfound]
    exact hp

/-- A call on an object of the one type runs what it runs on an object of the other. -/
theorem Inherits.calleeOf (h : a.Inherits object.typeName base) {isVirtualCall : Bool}
    (hp : a.calleeOf { object with typeName := base } isVirtualCall ref = .ok p) :
    a.calleeOf object isVirtualCall ref = .ok p := by
  rw [Assembly.calleeOf] at hp ⊢
  cases hfound : a.procedureFor ref with
  | error e => simp [hfound, bind, Except.bind] at hp
  | ok q =>
    simp only [hfound, bind, Except.bind] at hp ⊢
    by_cases hvirtual : (isVirtualCall && q.isVirtual) = true
    · rw [if_pos hvirtual] at hp ⊢
      exact h.procedureFor hp
    · rw [if_neg hvirtual] at hp ⊢
      exact hp

theorem Inherits.methodNamed (h : a.Inherits name base) {n : String}
    (href : a.methodNamed base n = .ok ref) : a.methodNamed name n = .ok ref := by
  obtain ⟨i, before, k, after, hi, hchain, hbefore, hk, hlater⟩ := h
  have hpassed : a.firstWith (·.findName? n) (before ++ k :: after) =
      a.firstWith (·.findName? n) (k :: after) :=
    firstWith_append (fun t ht => by rw [TypeDef.findName?, ht]; rfl) hbefore (k :: after)
  rw [Assembly.methodNamed] at href ⊢
  simp only [find, hk, hlater, bind, Except.bind] at href
  simp only [find, hi, hchain, bind, Except.bind, hpassed]
  split at href
  next ref' hfound => exact href
  next => cases href

end Assembly

namespace Loom.Faultless

variable {loom : Loom} {a : Assembly} {w : Weaving} {i k : TypeId} {t u : TypeDef}
  {before after : List TypeId}

/-- A type without procedures stays without. -/
theorem procedures_eq_nil (h : loom.Faultless a w) (ht : a.type? i = some t)
    (hnone : t.procedures = []) {F : TypeDef}
    (hF : (loom.weave (.start a)).1.assembly.type? i = some F) : F.procedures = [] := by
  obtain ⟨above, counter, turns, v, -, hflawless, -, -, -, F', hreported⟩ := h.types i t ht
  obtain rfl := Option.some.inj (hF.symm.trans (h.type?_eq ht hreported))
  have hturns : turns = [] := by
    have hremotes := hflawless.remotes
    rw [show t.remotes = [] by simp [TypeDef.remotes, TypeDef.outline, hnone]]
      at hremotes
    exact List.map_eq_nil_iff.mp hremotes
  have hv : v.type = t := by
    have hwent := hreported.went
    rw [hturns] at hwent
    cases hwent
    rfl
  have hlength := congrArg List.length hreported.relinked.signatures_eq
  rw [hv, List.length_map, List.length_map, hnone] at hlength
  exact List.eq_nil_of_length_eq_zero hlength

/-- What a type inherits before a run it inherits afterwards. -/
theorem inherits (h : loom.Faultless a w) (ht : a.type? i = some t)
    (hchain : a.chain i = .ok (before ++ k :: after)) (hbefore : a.Vacant before)
    (hu : a.type? k = some u) :
    (loom.weave (.start a)).1.assembly.Inherits t.name u.name := by
  obtain ⟨above, -, -, -, habove, -⟩ := h.types k u hu
  obtain rfl := Assembly.ancestors_eq_of_chain hchain habove
  refine ⟨i, before, k, after, ?_, ?_, fun j hj F hF => ?_, ?_, ?_⟩
  · rw [← Assembly.find?_congr h.faces_eq]
    exact h.names.find? ht
  · rw [← Assembly.chain_congr h.faces_eq, hchain]
  · rcases Assembly.type?_congr h.faces_eq j with ⟨-, hnone⟩ | ⟨t', u', ht', hu', -⟩
    · cases hF.symm.trans hnone
    · exact h.procedures_eq_nil ht' (hbefore j hj t' ht') hF
  · rw [← Assembly.find?_congr h.faces_eq]
    exact h.names.find? hu
  · rw [← Assembly.chain_congr h.faces_eq]
    exact Assembly.chain_of_ancestors habove

end Loom.Faultless

end RpcLoom
