/-
RpcLoom/Proofs/Leading.lean

What leading base calls on makes of a body.

Design.  Leading calls on is a change of method references: the code keeps its
shape, and each instruction names another procedure if it named the one that the
logic serves on a type above.  So the instructions of the changed body are those
of the old one, place for place, each with its reference changed
(`nested_mapMethods`).  Following a link without failure makes that change in
the logic of the link (`Ready.follow_code`), and following many links makes it
in the logic of each (`followAll_code`), since none of them disturbs another.
-/
import RpcLoom.Proofs.Following

namespace RpcLoom

/-! ### Other procedures in the place of those that are called -/

/-- The procedure a callee names, changed; other callees stay as they are. -/
def Callee.mapMethod (f : MethodRef → MethodRef) : Callee → Callee
  | .method ref => .method (f ref)
  | .base ref => .base (f ref)
  | callee => callee

mutual

/-- An instruction in which every procedure that is called is changed, at any depth. -/
def Instruction.mapMethods (f : MethodRef → MethodRef) : Instruction → Instruction
  | .call callee => .call (callee.mapMethod f)
  | .region body cleanup => .region (Block.mapMethods f body) (Block.mapMethods f cleanup)
  | i => i

/-- A block in which every procedure that is called is changed, at any depth. -/
def Block.mapMethods (f : MethodRef → MethodRef) : List Instruction → List Instruction
  | [] => []
  | i :: rest => i.mapMethods f :: Block.mapMethods f rest

end

/-- A body in which every procedure that is called is changed, at any depth. -/
def Body.mapMethods (f : MethodRef → MethodRef) (b : Body) : Body :=
  { b with code := Block.mapMethods f b.code }

section

variable {f : MethodRef → MethodRef}

@[simp] theorem Block.mapMethods_nil : Block.mapMethods f [] = [] := by
  simp [Block.mapMethods]

@[simp] theorem Block.mapMethods_cons (i : Instruction) (rest : Block) :
    Block.mapMethods f (i :: rest) = i.mapMethods f :: Block.mapMethods f rest := by
  simp [Block.mapMethods]

theorem Block.mapMethods_eq_map (b : Block) :
    Block.mapMethods f b = b.map (·.mapMethods f) := by
  induction b with
  | nil => simp
  | cons i rest ih => simp [ih]

@[simp] theorem Instruction.mapMethods_call (callee : Callee) :
    (call callee).mapMethods f = call (callee.mapMethod f) := by
  simp [Instruction.mapMethods]

@[simp] theorem Instruction.mapMethods_region (body cleanup : Block) :
    (region body cleanup).mapMethods f =
      region (Block.mapMethods f body) (Block.mapMethods f cleanup) := by
  simp [Instruction.mapMethods]

mutual

/-- The instructions of a changed instruction are those of the old one, each changed. -/
theorem Instruction.nested_mapMethods (i : Instruction) :
    (i.mapMethods f).nested = i.nested.map (·.mapMethods f) := by
  cases i with
  | region body cleanup =>
    rw [Instruction.mapMethods_region, Instruction.nested_region, Instruction.nested_region,
      List.map_cons, List.map_append, Block.nested_mapMethods body,
      Block.nested_mapMethods cleanup, Instruction.mapMethods_region]
  | call callee => cases callee <;> simp [Callee.mapMethod, Instruction.nested]
  | _ => simp [Instruction.mapMethods, Instruction.nested]

theorem Block.nested_mapMethods (b : List Instruction) :
    Block.nested (Block.mapMethods f b) = (Block.nested b).map (·.mapMethods f) := by
  cases b with
  | nil => simp
  | cons i rest =>
    rw [Block.mapMethods_cons, Block.nested_cons, Block.nested_cons, List.map_append,
      Instruction.nested_mapMethods i, Block.nested_mapMethods rest]

end

/-- The instructions of a changed body are those of the old one, place for place, each changed. -/
theorem Body.nested_mapMethods (b : Body) :
    (b.mapMethods f).nested = b.nested.map (·.mapMethods f) :=
  Block.nested_mapMethods b.code

mutual

theorem Instruction.mapMethods_of_fixed (i : Instruction)
    (h : ∀ x ∈ i.nested, ∀ ref, x.method? = some ref → f ref = ref) : i.mapMethods f = i := by
  cases i with
  | region body cleanup =>
    rw [Instruction.nested_region] at h
    rw [Instruction.mapMethods_region,
      Block.mapMethods_of_fixed body fun x hx => h x (by simp [hx]),
      Block.mapMethods_of_fixed cleanup fun x hx => h x (by simp [hx])]
  | call callee =>
    cases callee with
    | method ref =>
      have hfix : f ref = ref := h (.call (.method ref)) (by simp [Instruction.nested]) ref rfl
      rw [Instruction.mapMethods_call, Callee.mapMethod, hfix]
    | base ref =>
      have hfix : f ref = ref := h (.call (.base ref)) (by simp [Instruction.nested]) ref rfl
      rw [Instruction.mapMethods_call, Callee.mapMethod, hfix]
    | intrinsic _ | codec _ | external _ _ => simp [Callee.mapMethod]
  | _ => simp [Instruction.mapMethods]

theorem Block.mapMethods_of_fixed (b : List Instruction)
    (h : ∀ x ∈ Block.nested b, ∀ ref, x.method? = some ref → f ref = ref) :
    Block.mapMethods f b = b := by
  cases b with
  | nil => simp
  | cons i rest =>
    rw [Block.nested_cons] at h
    rw [Block.mapMethods_cons, Instruction.mapMethods_of_fixed i fun x hx => h x (by simp [hx]),
      Block.mapMethods_of_fixed rest fun x hx => h x (by simp [hx])]

end

mutual

theorem Instruction.mapMethods_mapMethods (g : MethodRef → MethodRef) (i : Instruction) :
    (i.mapMethods f).mapMethods g = i.mapMethods fun ref => g (f ref) := by
  cases i with
  | region body cleanup =>
    rw [Instruction.mapMethods_region, Instruction.mapMethods_region, Instruction.mapMethods_region,
      Block.mapMethods_mapMethods g body, Block.mapMethods_mapMethods g cleanup]
  | call callee => cases callee <;> simp [Callee.mapMethod]
  | _ => simp [Instruction.mapMethods]

theorem Block.mapMethods_mapMethods (g : MethodRef → MethodRef) (b : List Instruction) :
    Block.mapMethods g (Block.mapMethods f b) = Block.mapMethods (fun ref => g (f ref)) b := by
  cases b with
  | nil => simp
  | cons i rest =>
    rw [Block.mapMethods_cons, Block.mapMethods_cons, Block.mapMethods_cons,
      Instruction.mapMethods_mapMethods g i, Block.mapMethods_mapMethods g rest]

end

/-- Changing references twice is changing them once. -/
theorem Body.mapMethods_mapMethods (g : MethodRef → MethodRef) (b : Body) :
    (b.mapMethods f).mapMethods g = b.mapMethods fun ref => g (f ref) :=
  congrArg (fun code => { b with code }) (Block.mapMethods_mapMethods g b.code)

/-- Code in which no reference changes stays as it is. -/
theorem Body.mapMethods_of_fixed (b : Body)
    (h : ∀ x ∈ b.nested, ∀ ref, x.method? = some ref → f ref = ref) : b.mapMethods f = b := by
  rw [mapMethods, Block.mapMethods_of_fixed b.code h]

end

/-! ### Leading on as a change of references -/

namespace LogicLink

variable {link : LogicLink} {a b : Assembly} {i : TypeId} {above : List TypeId} {t : TypeDef}
  {p : Procedure} {names : List String} {ref : MethodRef}

/-- What becomes of a reference when base calls are led on to `target`. -/
def lead (link : LogicLink) (names : List String) (target : Option MethodRef)
    (ref : MethodRef) : MethodRef :=
  if link.isBaseRef names ref then target.getD ref else ref

theorem lead_of_not {target : Option MethodRef} (h : link.isBaseRef names ref = false) :
    link.lead names target ref = ref := by
  rw [lead, if_neg (by simp [h])]

@[simp] theorem lead_none : link.lead names none ref = ref := by
  rw [lead, Option.getD_none, ite_self]

/-- An instruction without blocks is led on as its reference is. -/
theorem led_of_leaf {target : MethodRef} {x : Instruction}
    (hleaf : ∀ b c, x ≠ .region b c) :
    link.led names target x = x.mapMethods (link.lead names (some target)) := by
  cases x with
  | region b c => exact absurd rfl (hleaf b c)
  | call callee =>
    cases callee with
    | method r | base r =>
      by_cases h : link.isBaseRef names r = true <;>
        simp [led, isBaseCall, Instruction.method?, Instruction.withMethod, Callee.mapMethod, lead,
          h]
    | intrinsic _ | codec _ | external _ _ =>
      rw [Instruction.mapMethods_call]
      simp [led, isBaseCall, Instruction.method?, Callee.mapMethod]
  | _ => simp [led, isBaseCall, Instruction.method?, Instruction.mapMethods]

mutual

/-- An instruction is led on as its references are, and its base calls are counted. -/
theorem run_retarget_instruction (target : MethodRef) (x : Instruction) (n : Nat) :
    (x.mapNestedM (link.retarget names target)).run n =
      (x.mapMethods (link.lead names (some target)),
        n + x.nested.countP (link.isBaseCall names)) := by
  cases x with
  | region body cleanup =>
    have hregion : link.isBaseCall names (.region (Block.mapMethods
        (link.lead names (some target)) body) (Block.mapMethods
        (link.lead names (some target)) cleanup)) = false := rfl
    have hold : link.isBaseCall names (.region body cleanup) = false := rfl
    rw [Instruction.mapNestedM, run_bind_of (run_retarget_block target body n),
      run_bind_of (run_retarget_block target cleanup _), run_retarget, led, hregion,
      Instruction.mapMethods_region, Instruction.nested_region, List.countP_cons, hold,
      List.countP_append]
    simp [Nat.add_assoc]
  | _ =>
    simp only [Instruction.mapNestedM, Instruction.nested, List.countP_singleton]
    rw [run_retarget, led_of_leaf (by simp)]

theorem run_retarget_block (target : MethodRef) (b : List Instruction) (n : Nat) :
    (Block.mapNestedM (link.retarget names target) b).run n =
      (Block.mapMethods (link.lead names (some target)) b,
        n + (Block.nested b).countP (link.isBaseCall names)) := by
  cases b with
  | nil =>
    rw [Block.mapNestedM, Block.mapMethods_nil]
    rfl
  | cons x rest =>
    rw [Block.mapNestedM, run_bind_of (run_retarget_instruction target x n),
      run_bind_of (run_retarget_block target rest _), Block.mapMethods_cons, Block.nested_cons,
      List.countP_append, ← Nat.add_assoc]
    rfl

end

/-- What leading base calls on makes of a body, and how many there were. -/
theorem run_mapNestedM (target : MethodRef) (b : Body) :
    (b.mapNestedM (link.retarget names target)).run 0 =
      (b.mapMethods (link.lead names (some target)), b.nested.countP (link.isBaseCall names)) := by
  rw [Body.mapNestedM, run_bind_of (run_retarget_block target b.code 0), Nat.zero_add]
  rfl

/-- Code without base calls stays as it is wherever they are led to. -/
theorem mapMethods_of_quiet {target : Option MethodRef} {body : Body}
    (h : body.nested.any (link.isBaseCall names) = false) :
    body.mapMethods (link.lead names target) = body := by
  refine body.mapMethods_of_fixed fun x hx ref href => lead_of_not ?_
  have hx := List.any_eq_false.mp h x hx
  rw [isBaseCall, href] at hx
  simpa using hx

/-! ### Following links -/

/-- How following a link changes references. -/
def leading (link : LogicLink) (a : Assembly) (i : TypeId) (above : List TypeId) :
    MethodRef → MethodRef :=
  link.lead (a.namesOf above) ((a.findInBase? i link.wanted).toOption.join)

theorem leading_congr (h : a.bare = b.bare) (link : LogicLink) (i : TypeId)
    (above : List TypeId) : link.leading a i above = link.leading b i above := by
  rw [leading, Assembly.namesOf_congr h, Assembly.findInBase?_congr h, leading]

/-- Following a ready link without failure leads on the base calls of its logic. -/
theorem Ready.follow_code {w : Weaving} (h : link.Ready w.assembly i above t p)
    (hok : (w.follow link).2 = none) :
    LogicLink.procedureAt (w.follow link).1.assembly i link.logic =
      some { p with body := p.body.map (·.mapMethods (link.leading w.assembly i above)) } := by
  cases hb : p.body with
  | none =>
    have hquiet : link.Quiet w.assembly above p := fun body hbody => by
      cases hb.symm.trans hbody
    rw [Weaving.follow, redirect_of_quiet h hquiet, Option.map_none, ← hb]
    exact h.procedureAt
  | some body =>
    obtain ⟨found, hf⟩ := findInBase?_ok h.above link.wanted
    rw [LogicLink.leading, hf, Option.map_some]
    show _ = some (p.withBody (body.mapMethods (link.lead (w.assembly.namesOf above) found)))
    have hself : p.withBody body = p := by rw [Procedure.withBody, ← hb]
    -- a base call with no logic above it is a failure, and a body without base calls stays as it is
    by_cases hany : body.nested.any (link.isBaseCall (w.assembly.namesOf above)) = true
    · cases found with
      | none =>
        rw [Weaving.follow, redirect_eq h hb hf, hany] at hok
        cases hok
      | some target =>
        rw [Weaving.follow, redirect_eq h hb hf, hany]
        show LogicLink.procedureAt (w.assembly.set i (t.modify link.logic (·.withBody
          ((body.mapNestedM (link.retarget (w.assembly.namesOf above) target)).run 0).1))) i
            link.logic = _
        rw [run_mapNestedM, LogicLink.procedureAt, Assembly.type?_set_self h.type, Option.bind_some,
          TypeDef.procedure?_modify, if_pos rfl, h.logic, Option.map_some]
    · have hquiet := eq_false_of_ne_true hany
      rw [Weaving.follow, redirect_eq h hb hf, hquiet, mapMethods_of_quiet hquiet, hself]
      exact h.procedureAt

theorem followAll_cons (w : Weaving) (link : LogicLink) (rest : List LogicLink) :
    (w.followAll (link :: rest)).1 = ((w.follow link).1.followAll rest).1 ∧
      (w.followAll (link :: rest)).2 =
        (w.follow link).2.toList ++ ((w.follow link).1.followAll rest).2 := ⟨rfl, rfl⟩

/-- Following links of different logic without failure leads on the base calls of the logic of
each of them. -/
theorem followAll_code {links : List LogicLink} {w : Weaving} (h : AllReady links w.assembly)
    (hok : (w.followAll links).2 = []) (hlink : link ∈ links)
    (hready : link.Ready w.assembly i above t p) :
    procedureAt (w.followAll links).1.assembly i link.logic =
      some { p with body := p.body.map (·.mapMethods (link.leading w.assembly i above)) } := by
  induction links generalizing w t p with
  | nil => cases hlink
  | cons first rest ih =>
    obtain ⟨hdiffer, hrest⟩ := List.pairwise_cons.mp h.differ
    obtain ⟨i', above', t', p', hfirst⟩ := h.ready first (by simp)
    obtain ⟨failure, b, hfollow, hrelink, -, hcode⟩ := hfirst.follow
    have hb : (w.follow first).1.assembly = b := by rw [hfollow]
    have hallready : AllReady rest (w.follow first).1.assembly :=
      ⟨fun other ho => by
        obtain ⟨k, l, u, q, hother⟩ := h.ready other (by simp [ho])
        obtain ⟨u', q', hother', -, -⟩ := hother.relinked hrelink
        exact ⟨k, l, u', q', hb ▸ hother'⟩, hrest⟩
    obtain ⟨hstep, herrors⟩ := followAll_cons w first rest
    rw [herrors, List.append_eq_nil_iff, Option.toList_eq_nil_iff] at hok
    rw [hstep]
    rcases List.mem_cons.mp hlink with rfl | hlink
    · -- the links that follow have logic of their own
      obtain ⟨failures, c, hall, -, -, hkeep⟩ := followAll_settles hallready
      have hstays : procedureAt ((w.follow link).1.followAll rest).1.assembly i link.logic =
          procedureAt (w.follow link).1.assembly i link.logic := by
        rw [hall]
        refine hkeep i link.logic fun other ho hsame => hdiffer other ho ⟨?_, hsame.2.symm⟩
        rw [hb, Assembly.find?_congr (Assembly.faces_of_bare_eq hrelink.bare)] at hsame
        rw [← name_of_find? hready.find hready.type, ← name_of_find? hsame.1 hready.type]
      rw [hstays]
      exact hready.follow_code hok.1
    · -- what went before did not touch this logic
      obtain ⟨u, q, hready', -, -⟩ := hready.relinked hrelink
      have hsame : procedureAt b i link.logic = procedureAt w.assembly i link.logic := by
        refine hcode i link.logic fun heq => hdiffer link hlink ⟨?_, heq.2.symm⟩
        obtain rfl := heq.1
        rw [← name_of_find? hfirst.find hfirst.type, ← name_of_find? hready.find hfirst.type]
      rw [hready'.procedureAt, hready.procedureAt] at hsame
      obtain rfl := Option.some.inj hsame
      rw [← hb] at hready'
      rw [ih hallready hok.2 hlink hready', hb, leading_congr hrelink.bare]

end LogicLink

end RpcLoom
