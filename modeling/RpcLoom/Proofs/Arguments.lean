/-
RpcLoom/Proofs/Arguments.lean

What becomes of the arguments of a remote call.

Design.  A role says what an argument is replaced by on the receiving side: what
travels arrives as it was sent, the others stand for the channel, the caller and
the connection there.  The fields that are sent are those of the travelling
positions in order (`values_payload`), and a receiver that loads an argument for
each role comes back to the order in which the procedure declares them.
-/
import Mathlib.Data.List.Forall2
import RpcLoom.Proofs.Promises
import RpcLoom.Wire.Field

namespace RpcLoom

/-! ### Arguments of the declared types -/

/-- Whether a parameter of a type takes a value. -/
def TypeRef.takes : TypeRef → Value → Bool
  | .channel, .channel _ => true
  | .connection, .connection _ => true
  | .connection, .null => true
  | .named name, v => (Wire.Scalar.ofName? name).any (·.admits v)
  | _, _ => false

theorem TypeRef.takes_channel {v : Value} (h : TypeRef.takes .channel v = true) :
    ∃ c, v = .channel c := by
  cases v with
  | channel c => exact ⟨c, rfl⟩
  | _ => cases h

theorem TypeRef.takes_connection {v : Value} (h : TypeRef.takes .connection v = true) :
    ∃ id, v = .ofConnection? id := by
  cases v with
  | connection id => exact ⟨some id, rfl⟩
  | null => exact ⟨none, rfl⟩
  | _ => cases h

/-- Whatever the codec of the wire format promises to write, it writes. -/
theorem TypeRef.check_of_takes {type : TypeRef} {v : Value} (h : type.takes v = true)
    (hpromised : Codec.standard.hasSerializer type = true) : Wire.check type v = .ok () := by
  cases type with
  | named name =>
    change (Wire.Scalar.ofName? name).any (·.admits v) = true at h
    rw [Option.any_eq_true] at h
    obtain ⟨s, hs, hadmits⟩ := h
    rw [Wire.check]
    simp only [hs, hadmits, if_true]
  | _ => cases hpromised

/-- Arguments of the types of parameters. -/
def Procedure.Takes (p : Procedure) (args : List Value) : Prop :=
  List.Forall₂ (fun x v => x.type.takes v = true) p.parameters args

instance (p : Procedure) (args : List Value) : Decidable (p.Takes args) :=
  inferInstanceAs (Decidable (List.Forall₂ _ _ _))

theorem Procedure.Takes.at {p : Procedure} {args : List Value} (h : p.Takes args) {i : Nat}
    {x : Parameter} (hx : p.parameters[i]? = some x) :
    ∃ v, args[i]? = some v ∧ x.type.takes v = true := by
  obtain ⟨hi, rfl⟩ := List.getElem?_eq_some_iff.mp hx
  have hi' : i < args.length := h.length_eq ▸ hi
  exact ⟨args[i], List.getElem?_eq_getElem hi', h.get hi hi'⟩

/-! ### What travels -/

namespace Layout

/-- The values that travel. -/
def values : List Role → List Value → List Value
  | .serialized :: roles, v :: args => v :: values roles args
  | _ :: roles, _ :: args => values roles args
  | _, _ => []

/-- The fields of the parameters that travel, with the values they have among arguments. -/
def payload (fields : List (Nat × Parameter)) (args : List Value) : List Field :=
  fields.filterMap fun x => args[x.1]?.map fun v => (x.2.type, v)

theorem types_payload {fields : List (Nat × Parameter)} {args : List Value}
    (h : ∀ x ∈ fields, ∃ v, args[x.1]? = some v) :
    (payload fields args).map (·.1) = fields.map (·.2.type) := by
  induction fields with
  | nil => rfl
  | cons x fields ih =>
    obtain ⟨v, hv⟩ := h x (by simp)
    rw [payload, List.filterMap_cons_some (by rw [hv]; rfl), List.map_cons, List.map_cons,
      ← payload, ih fun y hy => h y (by simp [hy])]

theorem values_payload (l : Layout) (ps : List Parameter) (args : List Value)
    (hroles : l.roles.length = ps.length) (hargs : args.length = ps.length) :
    (payload (l.fields ps) args).map (·.2) = values l.roles args := by
  -- positions are counted from the front, so the walk carries along what it has passed
  have hwalk : ∀ (roles : List Role) (before rest : List Parameter) (passed left : List Value),
      passed.length = before.length → roles.length = rest.length → left.length = rest.length →
      (payload ((((roles.zipIdx before.length).filter (·.1 == .serialized)).map (·.2)).filterMap
        fun i => (before ++ rest)[i]?.map fun x => (i, x)) (passed ++ left)).map (·.2) =
        values roles left := by
    intro roles
    induction roles with
    | nil =>
      intro before rest passed left _ hrest hleft
      rfl
    | cons role roles ih =>
      intro before rest passed left hpassed hrest hleft
      obtain ⟨x, rest, rfl⟩ := List.exists_cons_of_length_eq_add_one hrest.symm
      obtain ⟨v, left, rfl⟩ := List.exists_cons_of_length_eq_add_one hleft
      have hlater := ih (before ++ [x]) rest (passed ++ [v]) left (by simp [hpassed])
        (by simpa using hrest) (by simpa using hleft)
      rw [List.length_append, List.length_singleton, List.append_assoc, List.append_assoc,
        List.singleton_append, List.singleton_append] at hlater
      have hx : (before ++ x :: rest)[before.length]? = some x := by simp
      have hv : (passed ++ v :: left)[before.length]? = some v := by simp [← hpassed]
      rw [List.zipIdx_cons]
      cases role with
      | serialized =>
        rw [List.filter_cons_of_pos (by rfl), List.map_cons, List.filterMap_cons_some
          (by rw [hx]; rfl), payload, List.filterMap_cons_some (by rw [hv]; rfl), List.map_cons,
          ← payload, hlater, values]
      | _ =>
        rw [List.filter_cons_of_neg (by simp), hlater]
        rfl
  exact hwalk l.roles [] ps [] args rfl hroles hargs

theorem length_values (roles : List Role) (args : List Value) (h : args.length = roles.length) :
    (values roles args).length = roles.count .serialized := by
  induction roles generalizing args with
  | nil => rfl
  | cons role roles ih =>
    obtain ⟨v, args, rfl⟩ := List.exists_cons_of_length_eq_add_one h
    have hrest := ih args (by simpa using h)
    cases role with
    | serialized => rw [values, List.length_cons, hrest, List.count_cons_self]
    | _ =>
      rw [List.count_cons_of_ne (by simp), ← hrest]
      rfl

/-- As many fields travel as there are serialized positions. -/
theorem length_fields (l : Layout) (ps : List Parameter) (h : l.roles.length = ps.length) :
    (l.fields ps).length = l.roles.count .serialized := by
  have hlength : (List.replicate ps.length Value.null).length = ps.length := by simp
  have hargs : ∀ x ∈ l.fields ps, ∃ v, (List.replicate ps.length Value.null)[x.1]? = some v := by
    intro x hx
    obtain ⟨-, hparameter⟩ := mem_fields.mp hx
    have hlt := (List.getElem?_eq_some_iff.mp hparameter).1
    exact ⟨.null, by simp [hlt]⟩
  have htypes := congrArg List.length (types_payload hargs)
  have hvalues := congrArg List.length (values_payload l ps _ h hlength)
  rw [List.length_map, List.length_map] at htypes
  rw [List.length_map, length_values _ _ (hlength.trans h.symm)] at hvalues
  rw [← htypes, hvalues]

theorem count_assign (role : Role) (index? : Option Nat) (roles : List Role) :
    roles.count .serialized ≤ (assign role index? roles).count .serialized + 1 := by
  cases index? with
  | none => exact Nat.le_succ _
  | some i =>
    rw [assign]
    by_cases hi : i < roles.length
    · rw [List.count_set hi]
      split <;> split <;> omega
    · rw [List.set_eq_of_length_le (by omega)]
      exact Nat.le_succ _

theorem length_fields_le (l : Layout) (ps : List Parameter) :
    (l.fields ps).length ≤ l.roles.length := by
  calc (l.fields ps).length ≤ l.serialized.length := List.length_filterMap_le ..
    _ ≤ l.roles.zipIdx.length := by
      rw [serialized, List.length_map]
      exact List.length_filter_le ..
    _ = l.roles.length := List.length_zipIdx

/-- All parameters travel but three at most. -/
theorem length_le_count (kinds : KindSet) (ps : List Parameter) :
    ps.length ≤ (ofParameters kinds ps).roles.count .serialized + 3 := by
  have h₁ := count_assign .target (targetIndex? kinds ps) (List.replicate ps.length .serialized)
  have h₂ := count_assign .caller (callerIndex? kinds ps)
    (assign .target (targetIndex? kinds ps) (List.replicate ps.length .serialized))
  have h₃ := count_assign .channel (channelIndex? kinds ps)
    (assign .caller (callerIndex? kinds ps)
      (assign .target (targetIndex? kinds ps) (List.replicate ps.length .serialized)))
  rw [List.count_replicate_self] at h₁
  simp only [ofParameters]
  omega

end Layout

/-- The argument that arrives for an argument in a role. -/
def Role.arriving (channel : Channel) (sender own : Option ConnectionId) : Role → Value → Value
  | .serialized, v => v
  | .channel, _ => .channel channel
  | .caller, _ => .ofConnection? sender
  | .target, _ => .ofConnection? own

/-- The arguments that arrive for the arguments of a call. -/
def Layout.arriving (l : Layout) (channel : Channel) (sender own : Option ConnectionId)
    (args : List Value) : List Value :=
  List.zipWith (Role.arriving channel sender own) l.roles args

/-! ### Arguments under a contract -/

namespace Procedure.Keeps

variable {p : Procedure} {c : Contract} {args : List Value}

theorem length_roles {codec : Codec} (h : p.Keeps codec c) :
    c.layout.roles.length = p.parameters.length := by
  rw [h.layout, Layout.length_roles_ofParameters]

/-- The parameters that travel have arguments, and those can be written. -/
theorem at_field (h : p.Keeps .standard c) (hargs : p.Takes args) {x : Nat × Parameter}
    (hx : x ∈ c.layout.fields p.parameters) :
    ∃ v, args[x.1]? = some v ∧ Wire.check x.2.type v = .ok () := by
  obtain ⟨-, hparameter⟩ := Layout.mem_fields.mp hx
  obtain ⟨v, hv, htakes⟩ := hargs.at hparameter
  exact ⟨v, hv, TypeRef.check_of_takes htakes (h.promised x hx)⟩

theorem check_payload (h : p.Keeps .standard c) (hargs : p.Takes args) {f : Field}
    (hf : f ∈ Layout.payload (c.layout.fields p.parameters) args) :
    Wire.check f.1 f.2 = .ok () := by
  obtain ⟨x, hx, hfield⟩ := List.mem_filterMap.mp hf
  obtain ⟨v, hv, hcheck⟩ := h.at_field hargs hx
  rw [hv, Option.map_some, Option.some.injEq] at hfield
  rw [← hfield]
  exact hcheck

theorem values_payload (h : p.Keeps .standard c) (hargs : p.Takes args) :
    (Layout.payload (c.layout.fields p.parameters) args).map (·.2) =
      Layout.values c.layout.roles args :=
  Layout.values_payload c.layout p.parameters args h.length_roles hargs.length_eq.symm

theorem types_payload (h : p.Keeps .standard c) (hargs : p.Takes args) :
    (Layout.payload (c.layout.fields p.parameters) args).map (·.1) =
      (c.layout.fields p.parameters).map (·.2.type) :=
  Layout.types_payload fun _ hx =>
    let ⟨v, hv, _⟩ := h.at_field hargs hx
    ⟨v, hv⟩

theorem length_payload (h : p.Keeps .standard c) (hargs : p.Takes args) :
    (Layout.payload (c.layout.fields p.parameters) args).length =
      (c.layout.fields p.parameters).length := by
  simpa using congrArg List.length (h.types_payload hargs)

theorem length_parameters_le (h : p.Keeps .standard c) (hargs : p.Takes args) :
    p.parameters.length ≤ (c.layout.fields p.parameters).length + 3 := by
  have hvalues := congrArg List.length (h.values_payload hargs)
  have hlength : args.length = c.layout.roles.length :=
    hargs.length_eq.symm.trans h.length_roles.symm
  rw [List.length_map, h.length_payload hargs, Layout.length_values _ _ hlength] at hvalues
  rw [hvalues, h.layout]
  exact Layout.length_le_count c.kinds p.parameters

theorem at_channel (h : p.Keeps .standard c) (hargs : p.Takes args) {i : Nat}
    (hi : c.layout.position? .channel = some i) :
    ∃ channel, args[i]? = some (.channel channel) := by
  obtain ⟨hlt, hrole, -⟩ := List.findIdx?_eq_some_iff_getElem.mp hi
  have hat : c.layout.roles[i]? = some .channel := by
    rw [List.getElem?_eq_getElem hlt]
    simpa using hrole
  rw [h.layout] at hat
  obtain ⟨x, hx, htype⟩ := Layout.parameter_of_role hat
  obtain ⟨v, hv, htakes⟩ := hargs.at hx
  rw [show x.type = .channel from htype] at htakes
  obtain ⟨channel, rfl⟩ := TypeRef.takes_channel htakes
  exact ⟨channel, hv⟩

theorem at_target (h : p.Keeps .standard c) (hargs : p.Takes args)
    (hkind : c.kinds.contains .target = true) :
    ∃ id, args[0]? = some (.ofConnection? id) := by
  have hfront := h.target hkind
  cases hps : p.parameters with
  | nil => simp [hps] at hfront
  | cons x rest =>
    have hx : p.parameters[0]? = some x := by rw [hps]; rfl
    obtain ⟨v, hv, htakes⟩ := hargs.at hx
    have htype : x.type = .connection := by simpa [hps, TypeRef.isConnection] using hfront
    rw [htype] at htakes
    obtain ⟨id, rfl⟩ := TypeRef.takes_connection htakes
    exact ⟨id, hv⟩

/-- Only calls to the server have a caller among their parameters. -/
theorem server_of_caller {codec : Codec} (h : p.Keeps codec c)
    (hcaller : .caller ∈ c.layout.roles) : c.kinds = .single .server := by
  obtain ⟨i, hi⟩ := List.mem_iff_getElem?.mp hcaller
  rw [h.layout] at hi
  obtain ⟨x, -, hserver, -⟩ := Layout.parameter_of_role hi
  exact hserver

end Procedure.Keeps

end RpcLoom
