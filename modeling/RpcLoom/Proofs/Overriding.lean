/-
RpcLoom/Proofs/Overriding.lean

Chains of overrides, and what their logic does.

Design.  In a chain of overrides some types have one procedure, a call to the
server that records its arguments and then calls the one it overrides, and the
other types have none (`Overrides`).  Weaving moves each body to a logic and
leads its base call to the nearest logic above, past the types that have none.
So each logic records and then runs the logic above it, and by induction along
the chain it runs all of them (`Faultless.records`).  The steps are counted
exactly: a logic with one above it takes two loads of every argument, and the
last one takes a single load.
-/
import RpcLoom.Proofs.BaseCode
import RpcLoom.Proofs.Expense
import RpcLoom.Proofs.Inheriting

namespace RpcLoom

/-! ### Code of overrides -/

/-- A host that was handed arguments under several symbols, one after the other. -/
def Host.recorded (h : Host) (symbols : List String) (args : List Value) : Host :=
  { h with externalCalls := h.externalCalls ++ (symbols.map fun s => ⟨s, args⟩).toArray }

theorem Host.recorded_nil (h : Host) (args : List Value) : h.recorded [] args = h := by
  simp [recorded]

theorem Host.recorded_cons (h : Host) (symbol : String) (symbols : List String)
    (args : List Value) :
    h.recorded (symbol :: symbols) args = (h.callExternal symbol args).recorded symbols args := by
  rw [recorded, recorded, callExternal]
  congr 1
  apply Array.toList_inj.mp
  simp

section

variable {f : MethodRef → MethodRef}

theorem Block.mapMethods_loads (arity : Nat) (rest : Block) :
    Block.mapMethods f ((List.range arity).map .loadArg ++ rest) =
      (List.range arity).map .loadArg ++ Block.mapMethods f rest := by
  rw [Block.mapMethods_eq_map, Block.mapMethods_eq_map, List.map_append, List.map_map]
  rfl

theorem Block.mapMethods_recordingCode (symbol : String) (arity : Nat) (rest : Block) :
    Block.mapMethods f (recordingCode symbol arity rest) =
      recordingCode symbol arity (Block.mapMethods f rest) := by
  rw [recordingCode, Block.mapMethods_loads, Block.mapMethods_cons, Instruction.mapMethods_call]
  rfl

/-- A base call stays one when it is led elsewhere. -/
theorem Block.mapMethods_baseCall {ref : MethodRef} (h : (f ref).types = ref.types) :
    Block.mapMethods f (Body.baseCall ref).code = (Body.baseCall (f ref)).code := by
  have hself : Instruction.loadSelf.mapMethods f = .loadSelf := by simp [Instruction.mapMethods]
  have hleave : Instruction.leave.mapMethods f = .leave := by simp [Instruction.mapMethods]
  show Block.mapMethods f (.loadSelf :: ((List.range ref.types.length).map .loadArg ++
    [.call (.base ref), .leave])) = .loadSelf :: ((List.range (f ref).types.length).map .loadArg ++
      [.call (.base (f ref)), .leave])
  rw [Block.mapMethods_cons, hself, Block.mapMethods_loads, h, Block.mapMethods_cons,
    Block.mapMethods_cons, Instruction.mapMethods_call, hleave, Block.mapMethods_nil]
  rfl

end

namespace Assembly

variable {a : Assembly} {object : NetObject} {procedure : String} {block rest : Block}
  {args locals stack : List Value} {host host' : Host} {packet packet' : Option Wire.Bits}
  {n cost : Nat} {p q : Procedure} {body next : Body} {symbol : String}

/-- An override records its arguments and then does what the procedure does that it calls. -/
theorem completes_override {ref : MethodRef} (hbody : p.body = some body)
    (hcode : body.code = recordingCode symbol args.length (Body.baseCall ref).code)
    (hlength : args.length = ref.types.length) (hcallee : a.calleeOf object false ref = .ok q)
    (h : a.Completes object q args (host.callExternal symbol args) packet host' packet' cost) :
    a.Completes object p args host packet host' packet' (cost + (2 * args.length + 4)) := by
  refine ⟨body, hbody, fun n => ⟨.returned,
    ⟨args, List.replicate body.locals.length .null, []⟩, ?_⟩⟩
  have hsteps : cost + (2 * args.length + 4) + n =
      cost + (n + 1) + 1 + args.length + 1 + 1 + args.length := by omega
  rw [hcode, hsteps]
  refine run_recordingCode.trans ?_
  show a.run object p.name _ (.loadSelf :: ((List.range ref.types.length).map .loadArg ++
    [.call (.base ref), .leave])) _ = _
  rw [run_loadSelf, ← hlength, run_loadArgs, run_base args hlength hcallee h, run_leave]

theorem Costs.recordingCode {k : Nat} (h : a.Costs object rest k) (symbol : String)
    (arity : Nat) : a.Costs object (recordingCode symbol arity rest) (k + 1 + arity) :=
  (h.cons (i := .call (.external symbol arity)) rfl).loads arity

theorem costs_last (hcode : body.code = recordingCode symbol args.length [.leave])
    (a : Assembly) (object : NetObject) : a.Costs object body.code (args.length + 2) := by
  rw [hcode]
  exact ((costs_cons a object .leave []).recordingCode symbol args.length).le (by omega)

theorem costs_override {ref : MethodRef}
    (hcode : body.code = recordingCode symbol args.length (Body.baseCall ref).code)
    (hlength : args.length = ref.types.length) (hcallee : a.calleeOf object false ref = .ok q)
    (hnext : q.body = some next) (h : a.Costs object next.code cost) :
    a.Costs object body.code (cost + (2 * args.length + 4)) := by
  have hbase := (((costs_cons a object .leave []).base hcallee hnext h).loads
    args.length).cons (i := .loadSelf) rfl
  rw [hlength] at hbase
  rw [hcode]
  exact (hbase.recordingCode symbol args.length).le (by omega)

end Assembly

/-! ### Chains of overrides -/

/-- The only procedure of a type is a virtual call to the server, and all its arguments travel. -/
structure TypeDef.Declares (t : TypeDef) (s : Signature) (p : Procedure) : Prop where
  only : t.procedures = [p]
  signature : p.signature = s
  kinds : p.annotations.map (·.kind) = [.server]
  virtual : p.isVirtual = true
  travels : ∀ x ∈ p.parameters, Codec.standard.hasSerializer x.type = true

namespace TypeDef.Declares

variable {t : TypeDef} {s : Signature} {p : Procedure}

theorem here (h : t.Declares s p) : t.procedure? 0 = some p := by
  rw [TypeDef.procedure?, h.only]
  rfl

theorem isRemote (h : t.Declares s p) : p.isRemote = true := by
  rw [Procedure.isRemote, Bool.not_eq_true', List.isEmpty_eq_false_iff]
  intro hnone
  have hkinds := h.kinds
  rw [hnone] at hkinds
  cases hkinds

theorem firstCall? (h : t.Declares s p) (ht : t.Fresh) : t.firstCall? s = some 0 := by
  have hfound : t.findSignature? p.signature = some 0 := by
    rw [TypeDef.findSignature?, h.only]
    simp
  rw [← h.signature]
  exact TypeDef.firstCall?_of_findSignature? ht h.here hfound h.isRemote

end TypeDef.Declares

theorem TypeDef.offersLogic_of_vacant {t : TypeDef} (h : t.procedures = []) (s : Signature) :
    t.offersLogic s = false := by
  simp [offersLogic, remotes, outline, findSignature?, h]

/-- A chain of overrides of a signature, nearest type first, and the symbols that the bodies
record under.  The last type has a body that records its arguments.  A type before it has a body
that records them and then calls the procedure on the type right above, or it has no procedures. -/
inductive Assembly.Overrides (a : Assembly) (s : Signature) : List TypeId → List String → Prop
  | last {i : TypeId} {t : TypeDef} {p : Procedure} {body : Body} {symbol : String}
      (ht : a.type? i = some t) (hp : t.Declares s p) (hbody : p.body = some body)
      (hcode : body.code = recordingCode symbol s.types.length [.leave]) :
      Overrides a s [i] [symbol]
  | overriding {i : TypeId} {is : List TypeId} {t : TypeDef} {p : Procedure} {body : Body}
      {symbol base : String} {symbols : List String}
      (ht : a.type? i = some t) (hbase : t.base = some base) (hp : t.Declares s p)
      (hbody : p.body = some body)
      (hcode : body.code = recordingCode symbol s.types.length
        (Body.baseCall ⟨base, s.name, s.types⟩).code)
      (h : Overrides a s is symbols) : Overrides a s (i :: is) (symbol :: symbols)
  | passed {i : TypeId} {is : List TypeId} {t : TypeDef} {symbols : List String}
      (ht : a.type? i = some t) (hnone : t.procedures = []) (h : Overrides a s is symbols) :
      Overrides a s (i :: is) symbols

theorem Assembly.Overrides.exists_cons {a : Assembly} {s : Signature} {is : List TypeId}
    {symbols : List String} (h : a.Overrides s is symbols) : ∃ i above, is = i :: above := by
  cases h with
  | last | overriding | passed => exact ⟨_, _, rfl⟩

/-- The nearest type of a chain that declares a call: the types before it have no procedures, and
`after` are the types behind it. -/
structure Assembly.Nearest (a : Assembly) (s : Signature) (is : List TypeId) (k : TypeId)
    (after : List TypeId) (t : TypeDef) (p : Procedure) : Prop where
  split : ∃ before, is = before ++ k :: after ∧ a.Vacant before
  type : a.type? k = some t
  declares : t.Declares s p

namespace Assembly.Nearest

variable {a : Assembly} {s : Signature} {is after : List TypeId} {i k : TypeId} {t u : TypeDef}
  {p : Procedure}

theorem here (ht : a.type? k = some t) (hp : t.Declares s p) :
    a.Nearest s (k :: after) k after t p :=
  ⟨⟨[], rfl, by simp [Vacant]⟩, ht, hp⟩

theorem passed (h : a.Nearest s is k after t p) (hu : a.type? i = some u)
    (hnone : u.procedures = []) : a.Nearest s (i :: is) k after t p := by
  obtain ⟨before, rfl, hbefore⟩ := h.split
  refine ⟨⟨i :: before, rfl, fun j hj v hv => ?_⟩, h.type, h.declares⟩
  rcases List.mem_cons.mp hj with rfl | hj
  · rw [← Option.some.inj (hu.symm.trans hv)]
    exact hnone
  · exact hbefore j hj v hv

/-- It is where the logic for the signature is looked for. -/
theorem logicOwner? (h : a.Nearest s is k after t p) (ht : t.Fresh) :
    a.logicOwner? is s = some k := by
  obtain ⟨before, rfl, hbefore⟩ := h.split
  rw [Assembly.logicOwner?, List.find?_eq_some_iff_append]
  refine ⟨?_, before, after, rfl, fun j hj => ?_⟩
  · rw [h.type, Option.any_some]
    exact TypeDef.offersLogic_of_firstCall? (h.declares.firstCall? ht)
  · cases hu : a.type? j with
    | none => rfl
    | some u =>
      rw [Option.any_some, TypeDef.offersLogic_of_vacant (hbefore j hj u hu)]
      rfl

end Assembly.Nearest

namespace Loom.Faultless

variable {loom : Loom} {a : Assembly} {w : Weaving} {s : Signature} {is : List TypeId}
  {symbols : List String} {args : List Value} {i : TypeId} {above : List TypeId}

/-- The types above a type are those above the one right above it, and that one. -/
theorem ancestors_next (h : loom.Faultless a w) {k : TypeId} {after : List TypeId}
    (hab : a.ancestors i = .ok (k :: after)) : a.ancestors k = .ok after := by
  obtain ⟨u, hu⟩ := type_of_mem hab List.mem_cons_self
  obtain ⟨above, -, -, -, habove, -⟩ := h.types k u hu
  have hchain : a.chain i = .ok ([i] ++ k :: after) := Assembly.chain_of_ancestors hab
  rw [Assembly.ancestors_eq_of_chain hchain habove, habove]

/-- The name of the type right above a type is among the names of the types above it. -/
theorem base_mem_namesOf {t : TypeDef} (ht : a.type? i = some t) {base : String}
    (hbase : t.base = some base) (hab : a.ancestors i = .ok above) : base ∈ a.namesOf above := by
  obtain ⟨t', ht', habove, -⟩ := Assembly.of_ancestors hab
  obtain rfl := Option.some.inj (ht.symm.trans ht')
  cases habove with
  | root hnone => cases hbase.symm.trans hnone
  | @derived _ u _ k l hbase' hfind hu hl =>
    obtain rfl := Option.some.inj (hbase.symm.trans hbase')
    refine List.mem_filterMap.mpr ⟨k, List.mem_cons_self, ?_⟩
    rw [hu, Option.map_some, LogicLink.name_of_find? hfind hu]

/-- In the woven assembly the logic of the nearest override of a chain records its arguments under
all symbols of the chain, the nearest first.  It takes `cost` steps, and no run of it that ends
well takes fewer. -/
def Records (loom : Loom) (a : Assembly) (s : Signature) (is : List TypeId)
    (symbols : List String) (args : List Value) : Prop :=
  ∃ k after t p body cost, a.Nearest s is k after t p ∧ a.ancestors k = .ok after ∧
    p.body = some body ∧ cost + (args.length + 2) = (2 * args.length + 4) * symbols.length ∧
    (∀ object host packet, (loom.weave (.start a)).1.assembly.Completes object
      (p.logicOf (body.mapMethods (a.leading after p))) args host packet
      (host.recorded symbols args) packet cost) ∧
    ∀ object, (loom.weave (.start a)).1.assembly.Costs object
      (body.mapMethods (a.leading after p)).code cost

/-- The base call of an override is led to the logic of the nearest override above it. -/
theorem leading_base (h : loom.Faultless a w) {t u : TypeDef} {p q : Procedure} {k : TypeId}
    {after : List TypeId} {base : String} (ht : a.type? i = some t) (hbase : t.base = some base)
    (hp : t.Declares s p) (hab : a.ancestors i = .ok is) (hnear : a.Nearest s is k after u q) :
    a.leading is p ⟨base, s.name, s.types⟩ = SynthKey.ref ⟨.logic, s⟩ u.name := by
  have howner := hnear.logicOwner? (h.fresh u (List.mem_of_getElem? hnear.type))
  rw [Assembly.leading, if_pos ⟨hp.virtual, hp.signature.symm, base_mem_namesOf ht hbase hab⟩,
    Assembly.logicAbove?, hp.signature, howner, Option.bind_some, hnear.type]
  rfl

/-- Such a call runs that logic, whatever object it is made on: it is not a virtual call. -/
theorem calleeOf_logicAbove (h : loom.Faultless a w) {u : TypeDef} {q : Procedure} {k : TypeId}
    {after : List TypeId} {next : Body} (hab : a.ancestors i = .ok is)
    (hnear : a.Nearest s is k after u q) (hafter : a.ancestors k = .ok after)
    (hnext : q.body = some next) (object : NetObject) :
    (loom.weave (.start a)).1.assembly.calleeOf object false (SynthKey.ref ⟨.logic, s⟩ u.name) =
      .ok (q.logicOf (next.mapMethods (a.leading after q))) := by
  have hfresh := h.fresh u (List.mem_of_getElem? hnear.type)
  obtain ⟨u', l, hu', hresolve, hlogicAt⟩ := h.resolve_logic hab (hnear.logicOwner? hfresh)
  obtain rfl := Option.some.inj (hnear.type.symm.trans hu')
  obtain ⟨F, after', next', hF, hafter', hnext', -, hlogic⟩ :=
    hlogicAt.keeps (hnear.declares.firstCall? hfresh) hnear.declares.here
  obtain rfl := Except.ok.inj (hafter.symm.trans hafter')
  obtain rfl := Option.some.inj (hnext.symm.trans hnext')
  rw [Assembly.calleeOf, Assembly.procedureFor, hresolve]
  simp only [bind, Except.bind, Assembly.type, hF, TypeDef.procedure, hlogic]
  rfl

/-- The induction is on the chain from its far end: a logic records its own symbol, and its base
call runs the logic of the nearest override above it. -/
theorem records (h : loom.Faultless a w) (hall : a.Overrides s is symbols)
    (hlength : args.length = s.types.length) (his : is = i :: above)
    (hab : a.ancestors i = .ok above) : Records loom a s is symbols args := by
  induction hall generalizing i above with
  | @last i' t p body symbol ht hp hbody hcode =>
    obtain ⟨rfl, rfl⟩ := List.cons.inj his
    refine ⟨i', [], t, p, body, args.length + 2, .here ht hp, hab, hbody,
      by rw [List.length_singleton]; omega, ?_⟩
    -- the last of the chain makes no base call, so its code moves as it stands
    have hlogic : (body.mapMethods (a.leading [] p)).code =
        recordingCode symbol args.length [.leave] := by
      rw [Body.mapMethods, hcode, ← hlength, Block.mapMethods_recordingCode,
        Block.mapMethods_cons, Block.mapMethods_nil]
      simp [Instruction.mapMethods]
    refine ⟨fun object host packet => ?_, Assembly.costs_last hlogic _⟩
    rw [Host.recorded_cons]
    exact Assembly.completes_last rfl hlogic object host packet
  | @passed i' is t symbols ht hnone hrest ih =>
    obtain ⟨rfl, rfl⟩ := List.cons.inj his
    obtain ⟨j, rest, rfl⟩ := hrest.exists_cons
    -- a type without procedures has no logic either: the nearest override is the one above it
    obtain ⟨k, after, u, p, body, cost, hnear, hrecords⟩ := ih rfl (h.ancestors_next hab)
    exact ⟨k, after, u, p, body, cost, hnear.passed ht hnone, hrecords⟩
  | @overriding i' is t p body symbol base symbols ht hbase hp hbody hcode hrest ih =>
    obtain ⟨rfl, rfl⟩ := List.cons.inj his
    obtain ⟨j, rest, rfl⟩ := hrest.exists_cons
    obtain ⟨k, after, u, q, next, cost, hnear, habove, hnext, hcost, hruns, hcosts⟩ :=
      ih rfl (h.ancestors_next hab)
    refine ⟨i', j :: rest, t, p, body, cost + (2 * args.length + 4), .here ht hp, hab, hbody,
      by rw [List.length_cons, Nat.mul_succ]; omega, ?_⟩
    have hled := h.leading_base ht hbase hp hab hnear
    have hcallee := h.calleeOf_logicAbove hab hnear habove hnext
    -- so the code is the same but for where its base call leads
    have hlogicCode : (body.mapMethods (a.leading (j :: rest) p)).code =
          recordingCode symbol args.length
            (Body.baseCall (SynthKey.ref ⟨.logic, s⟩ u.name)).code := by
      rw [Body.mapMethods, hcode, ← hlength, Block.mapMethods_recordingCode,
        Block.mapMethods_baseCall (by rw [hled]; rfl), hled]
    refine ⟨fun object host packet => ?_, fun object =>
      Assembly.costs_override hlogicCode hlength (hcallee object) rfl (hcosts object)⟩
    rw [Host.recorded_cons]
    exact Assembly.completes_override rfl hlogicCode hlength (hcallee object)
      (hruns object _ packet)

end Loom.Faultless

end RpcLoom
