/-
RpcLoom/Proofs/WovenCalls.lean

What a woven call and its parts are in the woven assembly.

Design.  A call whose name no other procedure of its type has shares its
signature with no other call, so what its turn left is still there in the end
(`Reported.woven`).  Names and signatures are found where they were declared,
since generated procedures stand behind the declared ones.  So a call by name
runs the forwarder, and the forwarder's references lead to the sender and the
logic.  The logic and the receivers belong to the first call of a signature, so
for them it is enough that no call before has the signature.
-/
import RpcLoom.Proofs.FirstTurns
import RpcLoom.Proofs.Repetition
import RpcLoom.Proofs.Resolving

namespace RpcLoom

/-! ### Names that differ -/

namespace TypeDef

/-- The procedures of a type have different names. -/
def NamesDiffer (t : TypeDef) : Prop := (t.procedures.map (·.name)).Nodup

instance (t : TypeDef) : Decidable t.NamesDiffer :=
  inferInstanceAs (Decidable (t.procedures.map (·.name)).Nodup)

variable {t u : TypeDef} {i k : ProcedureId} {p q : Procedure}

theorem NamesDiffer.eq_of_name (h : t.NamesDiffer) (hp : t.procedure? i = some p)
    (hq : t.procedure? k = some q) (hname : p.name = q.name) : i = k := by
  have hi : i < (t.procedures.map (·.name)).length := by
    rw [List.length_map]
    exact (List.getElem?_eq_some_iff.mp hp).1
  apply (List.getElem?_inj hi h).mp
  rw [List.getElem?_map, List.getElem?_map]
  show (t.procedure? i).map (·.name) = (t.procedure? k).map (·.name)
  rw [hp, hq, Option.map_some, Option.map_some, hname]

/-- No other procedure of a type has the name of the one at a position. -/
def NamedAlone (t : TypeDef) (i : ProcedureId) : Prop :=
  ∀ k p q, t.procedure? i = some p → t.procedure? k = some q → q.name = p.name → k = i

theorem NamesDiffer.namedAlone (h : t.NamesDiffer) (i : ProcedureId) : t.NamedAlone i :=
  fun _ _ _ hp hq hname => h.eq_of_name hq hp hname

/-- Looking for a name looks at signatures alone. -/
theorem findName?_eq (t : TypeDef) (name : String) :
    t.findName? name = (t.procedures.map (·.signature)).findIdx? (·.name == name) := by
  rw [findName?, List.findIdx?_map]
  rfl

theorem NamedAlone.findName? (h : t.NamedAlone i) (hp : t.procedure? i = some p) :
    t.findName? p.name = some i := by
  obtain ⟨hi, hget⟩ := List.getElem?_eq_some_iff.mp hp
  rw [TypeDef.findName?, List.findIdx?_eq_some_iff_getElem]
  refine ⟨hi, by simp [hget], fun k hk hname => ?_⟩
  have hk' : t.procedure? k = some t.procedures[k] := List.getElem?_eq_getElem (by omega)
  exact absurd (h k p _ hp hk' (by simpa using hname)) (Nat.ne_of_lt hk)

theorem NamedAlone.findSignature? (h : t.NamedAlone i) (hp : t.procedure? i = some p) :
    t.findSignature? p.signature = some i := by
  obtain ⟨hi, hget⟩ := List.getElem?_eq_some_iff.mp hp
  rw [TypeDef.findSignature?, List.findIdx?_eq_some_iff_getElem]
  refine ⟨hi, by simp [hget], fun k hk hsignature => ?_⟩
  have hk' : t.procedure? k = some t.procedures[k] := List.getElem?_eq_getElem (by omega)
  have hsame : t.procedures[k].signature = p.signature := by simpa using hsignature
  exact absurd (h k p _ hp hk' (congrArg Signature.name hsame)) (Nat.ne_of_lt hk)

theorem findName?_of_prefix
    (h : t.procedures.map (·.signature) <+: u.procedures.map (·.signature)) {name : String}
    (hi : t.findName? name = some i) : u.findName? name = some i := by
  rw [findName?_eq] at hi ⊢
  obtain ⟨more, hmore⟩ := h
  rw [← hmore, List.findIdx?_append, hi, Option.some_or]

end TypeDef

theorem Turns.signatures_prefix {loom : Loom} {w w' : TypeWeaving} {turns : List (Job × Fate)}
    (h : Turns loom w turns w') (hc : w.type.Canonical) :
    w.type.procedures.map (·.signature) <+: w'.type.procedures.map (·.signature) := by
  induction h with
  | nil => exact List.prefix_rfl
  | cons hturn _ ih =>
    exact (hturn.edits.signatures_prefix hc).trans (ih (hturn.edits.canonical hc))

theorem TypeDef.Relinked.signatures_eq {t u : TypeDef} (h : t.Relinked u) :
    u.procedures.map (·.signature) = t.procedures.map (·.signature) := by
  have hbare : ∀ v : TypeDef, v.bare.procedures.map (·.signature) =
      v.procedures.map (·.signature) := by
    intro v
    rw [TypeDef.bare, List.map_map]
    rfl
  rw [← hbare u, h.bare, hbare t]

/-! ### Code that only records -/

theorem Block.nested_of_flat {code : Block} (h : ∀ i ∈ code, i.nested = [i]) :
    Block.nested code = code := by
  induction code with
  | nil => rfl
  | cons i code ih =>
    rw [Block.nested_cons, h i (by simp), ih fun k hk => h k (by simp [hk])]
    rfl

/-- Recording code calls nothing in the assembly. -/
theorem Procedure.plain_recording {p : Procedure} {symbol : String} {arity : Nat}
    (h : p.body = some (.recording symbol arity)) : p.Plain := by
  intro body hbody i hi
  obtain rfl := Option.some.inj (h.symm.trans hbody)
  have hcode : ∀ i ∈ (Body.recording symbol arity).code, i.nested = [i] ∧ i.method? = none := by
    intro i hi
    rcases List.mem_append.mp hi with hi | hi
    · obtain ⟨k, -, rfl⟩ := List.mem_map.mp hi
      exact ⟨by simp [Instruction.nested], rfl⟩
    · rcases List.mem_pair.mp hi with rfl | rfl <;> exact ⟨by simp [Instruction.nested], rfl⟩
  rw [Body.nested, Block.nested_of_flat fun i hi => (hcode i hi).1] at hi
  exact (hcode i hi).2

/-! ### The parts of a woven call -/

namespace Loom.Reported

variable {loom : Loom} {a : Assembly} {r : TypeReport} {t F : TypeDef} {counter : IdCounter}
  {turns : List (Job × Fate)} {v : TypeWeaving} {x : Job × Fate} {triad : Triad} {b : Body}
  {object : NetObject} {kind : Kind}

theorem signatures_prefix (h : loom.Reported a r t F counter turns v) (ht : t.Fresh) :
    t.procedures.map (·.signature) <+: F.procedures.map (·.signature) := by
  rw [h.relinked.signatures_eq]
  exact h.went.signatures_prefix ht.canonical

theorem served (h : loom.Reported a r t F counter turns v) (hx : x ∈ turns) :
    t.procedure? x.1.id = some x.1.served :=
  h.went.served_eq (Turns.nodup_ids h.jobs) hx

/-- A call whose name is its own shares its signature with no other call. -/
theorem soleTurn (h : loom.Reported a r t F counter turns v) (hx : x ∈ turns)
    (halone : t.NamedAlone x.1.id) : SoleTurn turns x := by
  intro y hy hsignature
  have hid : y.1.id = x.1.id :=
    halone _ _ _ (h.served hx) (h.served hy) (congrArg Signature.name hsignature)
  exact List.inj_on_of_nodup_map (Turns.nodup_ids h.jobs) hy hx hid

theorem firstTurn (h : loom.Reported a r t F counter turns v) (hx : x ∈ turns)
    (halone : t.NamedAlone x.1.id) : FirstTurn turns x :=
  (h.soleTurn hx halone).first (Turns.nodup_ids h.jobs) hx

/-- A woven call is woven in the end. -/
theorem woven (h : loom.Reported a r t F counter turns v) (ht : t.Fresh) (hx : x ∈ turns)
    (halone : t.NamedAlone x.1.id) (hf : x.2 = .woven triad b) : x.1.Woven loom F triad b := by
  have hleft := (h.relinked.spares x.1).left (h.went.declared hx).1
    (h.went.left_of_sole ht.canonical (Turns.nodup_ids h.jobs) hx (h.soleTurn hx halone))
  rw [hf] at hleft
  exact hleft

/-- A call by name runs the forwarder. -/
theorem methodNamed (h : loom.Reported a r t F counter turns v) (ht : t.Fresh) (hx : x ∈ turns)
    (halone : t.NamedAlone x.1.id) (hf : x.2 = .woven triad b) :
    (loom.weave (.start a)).1.assembly.methodNamed t.name x.1.served.name =
      .ok ⟨t.name, x.1.served.name, x.1.served.types⟩ := by
  have hfound := TypeDef.findName?_of_prefix (h.signatures_prefix ht)
    (halone.findName? (h.served hx))
  have hnamed := h.has.methodNamed hfound (h.woven ht hx halone hf).here
  rw [h.name_eq] at hnamed
  exact hnamed

theorem calleeOf_forwarder (h : loom.Reported a r t F counter turns v) (ht : t.Fresh)
    (hx : x ∈ turns) (halone : t.NamedAlone x.1.id) (hf : x.2 = .woven triad b)
    (hobject : object.typeName = t.name) :
    (loom.weave (.start a)).1.assembly.calleeOf object true
      ⟨t.name, x.1.served.name, x.1.served.types⟩ = .ok (x.1.served.withBody b) := by
  have hfound := TypeDef.findSignature?_of_prefix (h.signatures_prefix ht)
    (halone.findSignature? (h.served hx))
  rw [← h.name_eq] at hobject ⊢
  exact h.has.calleeOf hfound (h.woven ht hx halone hf).here (.inr hobject)

/-- The reference of the forwarder leads to the sender of the call. -/
theorem sender (h : loom.Reported a r t F counter turns v) (ht : t.Fresh) (hx : x ∈ turns)
    (halone : t.NamedAlone x.1.id) (hf : x.2 = .woven triad b)
    (hobject : object.typeName = t.name) (hkind : kind ∈ x.1.contract.kinds.toList) :
    ∃ ref body, triad.writerRef x.1.served.name kind = .ok ref ∧
      ref.types = x.1.served.types ∧
      loom.senderBody x.1.served x.1.contract x.1.rpcId kind = .ok body ∧
      (loom.weave (.start a)).1.assembly.calleeOf object true ref =
        .ok (x.1.served.writerOf kind body) := by
  have hwoven := h.woven ht hx halone hf
  obtain ⟨s, body, hs, hwriter, hbody⟩ := hwoven.installed.writer? hkind
  refine ⟨_, body, hwoven.installed.writerRef kind hkind _, rfl, hbody, ?_⟩
  have hfound := hwriter.found
  rw [h.relinked.findSynthesized?_eq] at hfound
  rw [h.name_eq]
  exact h.calleeOf ht hfound hwriter.current (.inr hobject)

/-- The triad names the logic of a woven call. -/
theorem logicRef (h : loom.Reported a r t F counter turns v) (ht : t.Fresh) (hx : x ∈ turns)
    (hf : x.2 = .woven triad b) : triad.logicRef = (x.1.key .logic).ref t.name :=
  h.went.logicRef_eq ht.canonical hx hf

/-- The reference to the logic leads to what holds the body of the first call of the signature. -/
theorem logic (h : loom.Reported a r t F counter turns v) (ht : t.Fresh) (hx : x ∈ turns)
    (hfirst : FirstTurn turns x) (hf : x.2 = .woven triad b)
    (hobject : object.typeName = t.name) {symbol : String} {arity : Nat}
    (hbody : x.1.served.body = some (.recording symbol arity)) :
    (loom.weave (.start a)).1.assembly.calleeOf object true triad.logicRef =
      .ok (x.1.served.logicOf (.recording symbol arity)) := by
  rw [h.logicRef ht hx hf]
  obtain ⟨before, after, rfl, hbefore⟩ := hfirst
  obtain ⟨body, hbody', hfound, hp, -⟩ := h.went.logic_of_first ht hbefore hf
  obtain rfl := Option.some.inj (hbody.symm.trans hbody')
  have hplain : (x.1.served.logicOf (.recording symbol arity)).Plain :=
    Procedure.plain_recording rfl
  exact h.calleeOf ht hfound (h.relinked.kept _ _ hp (.inr hplain)) (.inr hobject)

/-- The table's reference leads to the receiver of the first call of the signature. -/
theorem reader (h : loom.Reported a r t F counter turns v) (ht : t.Fresh)
    (hfirst : FirstTurn turns x) (hf : x.2 = .woven triad b)
    (hkind : kind ∈ x.1.contract.kinds.toList) :
    ∃ body, loom.receiverBody x.1.served x.1.contract kind ((x.1.key .logic).ref t.name) =
        .ok body ∧
      ∀ object, (loom.weave (.start a)).1.assembly.calleeOf object false
        ((x.1.key (.reader kind)).ref t.name) = .ok (x.1.served.readerOf kind body) := by
  obtain ⟨before, after, rfl, hbefore⟩ := hfirst
  obtain ⟨m, body, hfound, hp, hbody⟩ := h.went.reader_of_first ht hbefore hf hkind
  refine ⟨body, hbody, fun object => h.calleeOf ht hfound ?_ (.inl rfl)⟩
  refine h.relinked.kept _ _ hp (.inl fun s hs => ?_)
  cases congrArg SynthKey.role (Origin.synthesized.inj hs)

end Loom.Reported

end RpcLoom
