/-
RpcLoom/Proofs/SentIds.lean

What generated senders send, read off their code.

Design.  Code sends calls of a kind under an id if there is one place in it where
anything is sent, if that is done by the intrinsic of the kind, and if its
operands begin with the id; no other id is loaded anywhere (`Body.Sends`).
Whatever the codec and the settings are, a sender that can be made at all is such
code for its own kind and for the id it was made with (`Body.sends_sender`).
-/
import RpcLoom.Proofs.Promises

namespace RpcLoom

/-- The intrinsic that sends calls of a kind. -/
def Kind.sender : Kind → Intrinsic
  | .server => .sendServer
  | .observers => .sendObservers
  | .target => .sendTarget

/-- The kind of call that an intrinsic sends. -/
def Intrinsic.sends? : Intrinsic → Option Kind
  | .sendServer => some .server
  | .sendObservers => some .observers
  | .sendTarget => some .target
  | _ => none

namespace Instruction

/-- The kind of call that an instruction sends. -/
def sends? : Instruction → Option Kind
  | .call (.intrinsic i) => i.sends?
  | _ => none

/-- The id that an instruction loads. -/
def id? : Instruction → Option RpcId
  | .loadConst (.u32 id) => some id
  | _ => none

/-- An instruction neither sends anything nor loads an id. -/
def Silent (x : Instruction) : Prop := x.sends? = none ∧ x.id? = none

end Instruction

/-- Code that neither sends anything nor loads an id, at any depth. -/
def Block.Silent (b : Block) : Prop := ∀ x ∈ Block.nested b, x.Silent

/-- Code that sends in one place: a call of this kind under this id. -/
structure Body.Sends (b : Body) (kind : Kind) (id : RpcId) : Prop where
  sends : ∃ before writer channel last after,
    b.nested = before ++ ([.loadSelf, .loadConst (.u32 id), .loadLocal writer,
      .loadLocal channel] ++ last ++ [.intrinsic kind.sender]) ++ after ∧
    4 + last.length = kind.sender.arity ∧ ∀ x ∈ before ++ last ++ after, x.Silent

/-- The only id in such code is the one it sends. -/
theorem Body.Sends.ids {b : Body} {kind : Kind} {id : RpcId} (h : b.Sends kind id) :
    b.nested.filterMap (·.id?) = [id] := by
  obtain ⟨before, writer, channel, last, after, hcode, -, hsilent⟩ := h.sends
  have hnone : ∀ l : List Instruction, (∀ x ∈ l, x ∈ before ++ last ++ after) →
      l.filterMap (·.id?) = [] := fun l hl =>
    List.filterMap_eq_nil_iff.mpr fun x hx => (hsilent x (hl x hx)).2
  simp only [hcode, List.filterMap_append, hnone before (by simp +contextual),
    hnone last (by simp +contextual), hnone after (by simp +contextual)]
  cases kind <;> rfl

/-! ### Silent code -/

namespace Block

theorem silent_nil : Silent [] := by
  intro x hx
  simp at hx

theorem Silent.append {b c : Block} (hb : b.Silent) (hc : c.Silent) : Silent (b ++ c) := by
  intro x hx
  rw [nested_append, List.mem_append] at hx
  exact hx.elim (hb x) (hc x)

theorem silent_flatten {bs : List Block} (h : ∀ b ∈ bs, b.Silent) : Silent bs.flatten := by
  induction bs with
  | nil => exact silent_nil
  | cons b bs ih =>
    rw [List.flatten_cons]
    exact (h b (by simp)).append (ih fun c hc => h c (by simp [hc]))

/-- Whatever a list of steps has made was made by one of them. -/
theorem exists_of_mapM {ε α β : Type} {f : α → Except ε β} {as : List α} {bs : List β}
    (h : as.mapM f = .ok bs) {b : β} (hb : b ∈ bs) : ∃ a ∈ as, f a = .ok b := by
  induction as generalizing bs with
  | nil =>
    obtain rfl : bs = [] := by simpa [pure, Except.pure, eq_comm] using h
    cases hb
  | cons a as ih =>
    rw [List.mapM_cons] at h
    cases hfirst : f a with
    | error e => simp [hfirst, bind, Except.bind] at h
    | ok b' =>
      cases hrest : as.mapM f with
      | error e => simp [hfirst, hrest, bind, Except.bind] at h
      | ok rest =>
        obtain rfl : b' :: rest = bs := by
          simpa [hfirst, hrest, bind, Except.bind, pure, Except.pure] using h
        rcases List.mem_cons.mp hb with rfl | hb
        · exact ⟨a, by simp, hfirst⟩
        · obtain ⟨a', ha', hmade⟩ := ih hrest hb
          exact ⟨a', by simp [ha'], hmade⟩

end Block

namespace Loom

variable {loom : Loom} {p : Procedure} {c : Contract} {kind : Kind} {id : RpcId}

/-- Packing sends nothing, whatever the codec gives. -/
theorem silent_packing {fields : List (Nat × Parameter)} {writer : Nat} {code : Block}
    (h : loom.packing p fields writer = .ok code) : code.Silent := by
  obtain ⟨blocks, hblocks, hcode⟩ := of_bind h
  obtain rfl := Except.ok.inj hcode
  refine Block.silent_flatten fun b hb => ?_
  obtain ⟨⟨i, x⟩, -, hmade⟩ := Block.exists_of_mapM hblocks hb
  simp only at hmade
  split at hmade
  next proc _ =>
    obtain rfl := Except.ok.inj hmade
    intro y hy
    simp only [Block.nested_cons, Block.nested_nil, Instruction.nested, List.mem_append,
      List.mem_singleton, List.not_mem_nil, or_false] at hy
    rcases hy with rfl | rfl | rfl <;> exact ⟨rfl, rfl⟩
  next => cases hmade

/-- The checks of a sender send nothing. -/
theorem silent_senderGuard (loom : Loom) (c : Contract) (kind : Kind) :
    (loom.senderGuard c kind).code.Silent := by
  have hrequire : ∀ (b : Body) (i : Intrinsic) (text : String), b.code.Silent → i.sends? = none →
      (b.require (Body.askSelf i) text).code.Silent := by
    intro b i text hb hi
    refine hb.append fun x hx => ?_
    simp only [Body.askSelf, Block.nested_append, Block.nested_cons, Block.nested_nil,
      Instruction.nested, List.mem_append, List.mem_singleton, List.not_mem_nil, or_false] at hx
    rcases hx with (rfl | rfl) | rfl | rfl | rfl | rfl
    all_goals first | exact ⟨hi, rfl⟩ | exact ⟨rfl, rfl⟩
  rw [senderGuard]
  split
  · cases kind with
    | server =>
      rw [Body.guardSender]
      refine hrequire _ _ _ ?_ rfl
      split
      · exact hrequire _ _ _ Block.silent_nil rfl
      · exact Block.silent_nil
    | observers => exact hrequire _ _ _ Block.silent_nil rfl
    | target => exact hrequire _ _ _ Block.silent_nil rfl
  · exact Block.silent_nil

/-- The operands of what sends begin with the object, the id, the writer and the channel. -/
theorem of_sending {writer channel : Nat} {code : Block}
    (h : sending p c kind id writer channel = .ok code) :
    ∃ last, code = [.loadSelf, .loadConst (.u32 id), .loadLocal writer, .loadLocal channel] ++
        last ++ [.intrinsic kind.sender] ∧
      4 + last.length = kind.sender.arity ∧ Block.nested last = last ∧ ∀ x ∈ last, x.Silent := by
  unfold sending at h
  cases kind with
  | server =>
    obtain rfl := Except.ok.inj h
    exact ⟨[], rfl, rfl, Block.nested_nil, fun x hx => absurd hx List.not_mem_nil⟩
  | observers =>
    obtain rfl := Except.ok.inj h
    refine ⟨[.loadConst (.bool (c.policy .observers).bufferLast)], rfl, rfl, ?_, fun x hx => ?_⟩
    · simp [Instruction.nested]
    · rw [List.mem_singleton.mp hx]
      exact ⟨rfl, rfl⟩
  | target =>
    simp only at h
    split at h
    next i _ =>
      obtain rfl := Except.ok.inj h
      refine ⟨[.loadArg i], rfl, rfl, by simp [Instruction.nested], fun x hx => ?_⟩
      rw [List.mem_singleton.mp hx]
      exact ⟨rfl, rfl⟩
    next => cases h

end Loom

/-- A sender sends calls of its own kind under the id it was made with. -/
theorem Body.sends_sender {loom : Loom} {p : Procedure} {c : Contract} {kind : Kind} {id : RpcId}
    {b : Body} (h : loom.senderBody p c id kind = .ok b) : b.Sends kind id := by
  have hlocals := loom.locals_senderGuard c kind
  rw [Loom.senderGuard] at hlocals
  unfold Loom.senderBody at h
  simp only [declareLocal, hlocals, List.length_nil, List.nil_append, List.length_singleton] at h
  obtain ⟨packing, hpacking, h⟩ := of_bind h
  obtain ⟨sending, hsending, h⟩ := of_bind h
  obtain rfl := Except.ok.inj h
  obtain ⟨last, hcode, harity, hflat, hlast⟩ := Loom.of_sending hsending
  have hguard := loom.silent_senderGuard c kind
  have hpack := Loom.silent_packing hpacking
  have hchannel : ∃ i, loom.channelOperand c = i ∧ i.nested = [i] ∧ i.Silent := by
    unfold Loom.channelOperand
    split <;> exact ⟨_, rfl, by simp [Instruction.nested], rfl, rfl⟩
  obtain ⟨i, hi, hnested, hsilent⟩ := hchannel
  -- the sending stands in the region, behind the packing
  refine ⟨Block.nested (loom.senderGuard c kind).code ++
    [i, .storeLocal 0, .codec .acquire, .storeLocal 1,
      .region (packing ++ sending) [.loadLocal 1, .codec .release]] ++ Block.nested packing,
    1, 0, last, [.loadLocal 1, .codec .release, .leave], ?_, harity, fun x hx => ?_⟩
  · show Block.nested ((loom.senderGuard c kind).code ++ _) = _
    rw [Block.nested_append, hi, hcode]
    simp only [Block.nested_cons, Block.nested_nil, Block.nested_append,
      hnested, hflat, List.append_assoc, List.cons_append, List.nil_append, Instruction.nested]
  · simp only [List.mem_append, List.mem_cons, List.not_mem_nil, or_false] at hx
    rcases hx with (((hx | hx) | hx) | hx) | hx
    · exact hguard x hx
    · rcases hx with rfl | rfl | rfl | rfl | rfl
      · exact hsilent
      all_goals exact ⟨rfl, rfl⟩
    · exact hpack x hx
    · exact hlast x hx
    · rcases hx with rfl | rfl | rfl <;> exact ⟨rfl, rfl⟩

end RpcLoom
