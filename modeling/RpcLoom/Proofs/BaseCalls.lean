/-
RpcLoom/Proofs/BaseCalls.lean

Code whose base calls were led on has no base calls left.

Design.  Leading base calls on replaces method references and nothing else.
The new reference names logic, not the procedure that the logic serves: a
generated name is longer than the name it is made from.  So no instruction, at
any depth, still calls the served procedure on a type above, and leading the
calls on a second time finds nothing.
-/
import RpcLoom.Weave.BaseCall

namespace RpcLoom

/-! ### Generated names -/

theorem Text.le_length_escapeChars (cs : List Char) : cs.length ≤ (escapeChars cs).length := by
  induction cs with
  | nil => exact Nat.le_refl 0
  | cons c cs ih =>
    have hc : 1 ≤ (escapeChar c).length := by
      unfold escapeChar
      split <;> simp
    rw [escapeChars_cons, List.length_append, List.length_cons]
    omega

/-- A generated name is not the name it is made from. -/
theorem SynthKey.mangledName_ne (key : SynthKey) : key.mangledName ≠ key.signature.name := by
  intro h
  have hlen := congrArg (fun s => s.toList.length) h
  have hopen : 1 ≤ key.role.opening.toList.length := by
    cases key.role <;> simp [SynthRole.opening]
  have hname := Text.le_length_escapeChars key.signature.name.toList
  simp only [mangledName, Signature.mangled, String.toList_append, List.length_append,
    Text.toList_escape] at hlen
  omega

namespace LogicLink

variable {link : LogicLink} {above : List String} {ref : MethodRef}

/-! ### One instruction -/

/-- An instruction after base calls were led on. -/
def led (link : LogicLink) (above : List String) (ref : MethodRef) (i : Instruction) :
    Instruction :=
  if link.isBaseCall above i then i.withMethod ref else i

/-- An instruction is led on and counted if it is a base call. -/
theorem run_retarget (link : LogicLink) (above : List String) (ref : MethodRef) (i : Instruction)
    (n : Nat) :
    (link.retarget above ref i).run n =
      (link.led above ref i, n + if link.isBaseCall above i = true then 1 else 0) := by
  rw [retarget, led]
  by_cases h : link.isBaseCall above i = true
  · rw [if_pos h, if_pos h, if_pos h]
    rfl
  · rw [if_neg h, if_neg h, if_neg h]
    rfl

theorem isBaseCall_withMethod (href : link.isBaseRef above ref = false) (i : Instruction)
    (h : link.isBaseCall above i = true) : link.isBaseCall above (i.withMethod ref) = false := by
  cases i with
  | call callee =>
    cases callee with
    | method m | base m => exact href
    | intrinsic _ | codec _ | external _ _ => cases h
  | _ => cases h

theorem isBaseCall_led (href : link.isBaseRef above ref = false) (i : Instruction) :
    link.isBaseCall above (link.led above ref i) = false := by
  by_cases h : link.isBaseCall above i = true
  · rw [led, if_pos h]
    exact isBaseCall_withMethod href i h
  · rw [led, if_neg h]
    simpa using h

/-- An instruction without blocks is led on as a whole. -/
theorem nested_led_leaf (href : link.isBaseRef above ref = false) {i : Instruction} {n : Nat}
    (hmap : i.mapNestedM (link.retarget above ref) = link.retarget above ref i)
    (hleaf : (link.led above ref i).nested = [link.led above ref i]) :
    ∀ x ∈ ((i.mapNestedM (link.retarget above ref)).run n).1.nested,
      link.isBaseCall above x = false := by
  rw [hmap, run_retarget, hleaf]
  intro x hx
  rw [List.mem_singleton.mp hx]
  exact isBaseCall_led href i

/-! ### Whole blocks -/

theorem run_bind_of {α β : Type} {x : StateM Nat α} {n m : Nat} {a : α} (h : x.run n = (a, m))
    (f : α → StateM Nat β) : (x >>= f).run n = (f a).run m := by
  show (f (x.run n).1).run (x.run n).2 = _
  rw [h]

mutual

theorem nested_led_instruction (href : link.isBaseRef above ref = false) (i : Instruction)
    (n : Nat) :
    ∀ x ∈ ((i.mapNestedM (link.retarget above ref)).run n).1.nested,
      link.isBaseCall above x = false := by
  cases i with
  | region body cleanup =>
    have hbody := nested_led_block href body n
    rcases hb : (Block.mapNestedM (link.retarget above ref) body).run n with ⟨body', n₁⟩
    have hcleanup := nested_led_block href cleanup n₁
    rcases hc : (Block.mapNestedM (link.retarget above ref) cleanup).run n₁ with ⟨cleanup', n₂⟩
    have hrun : ((Instruction.region body cleanup).mapNestedM (link.retarget above ref)).run n =
        (.region body' cleanup', n₂) := by
      rw [Instruction.mapNestedM, run_bind_of hb, run_bind_of hc]
      exact run_retarget link above ref (.region body' cleanup') n₂
    rw [hrun, Instruction.nested_region]
    rw [hb] at hbody
    rw [hc] at hcleanup
    intro x hx
    rcases List.mem_cons.mp hx with rfl | hx
    · rfl
    · rcases List.mem_append.mp hx with hx | hx
      · exact hbody x hx
      · exact hcleanup x hx
  | call callee =>
    refine nested_led_leaf href (by simp only [Instruction.mapNestedM]) ?_
    unfold led
    split
    · cases callee <;> simp [Instruction.nested, Instruction.withMethod]
    · simp [Instruction.nested]
  | _ =>
    exact nested_led_leaf href (by simp only [Instruction.mapNestedM])
      (by simp [led, isBaseCall, Instruction.method?, Instruction.nested])

theorem nested_led_block (href : link.isBaseRef above ref = false) (b : List Instruction)
    (n : Nat) :
    ∀ x ∈ Block.nested ((Block.mapNestedM (link.retarget above ref) b).run n).1,
      link.isBaseCall above x = false := by
  cases b with
  | nil =>
    have hrun : (Block.mapNestedM (link.retarget above ref) []).run n = ([], n) := by
      rw [Block.mapNestedM]
      rfl
    rw [hrun, Block.nested_nil]
    exact fun x hx => nomatch hx
  | cons i rest =>
    have hfirst := nested_led_instruction href i n
    rcases hi : (i.mapNestedM (link.retarget above ref)).run n with ⟨i', n₁⟩
    have hrest := nested_led_block href rest n₁
    rcases hr : (Block.mapNestedM (link.retarget above ref) rest).run n₁ with ⟨rest', n₂⟩
    have hrun : (Block.mapNestedM (link.retarget above ref) (i :: rest)).run n =
        (i' :: rest', n₂) := by
      rw [Block.mapNestedM, run_bind_of hi, run_bind_of hr]
      rfl
    rw [hrun, Block.nested_cons]
    rw [hi] at hfirst
    rw [hr] at hrest
    intro x hx
    rcases List.mem_append.mp hx with hx | hx
    · exact hfirst x hx
    · exact hrest x hx

end

end LogicLink

end RpcLoom
