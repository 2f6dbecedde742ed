/-
RpcLoom/Code/Body.lean

Executable bodies, and how they are built up.

Design.  A body carries its own supply of labels: the next one is above every
label it was made from, so a label drawn from it occurs nowhere in it until the
32 bits of a label are used up, and then the numbers begin again at zero.  Each
operation gives back a new body, and with it what was declared or drawn.
-/
import RpcLoom.Code.Instruction
import RpcLoom.Code.Codec

namespace RpcLoom

/-- Ties one instruction to a place in the source text. -/
structure SequencePoint where
  offset : Nat
  line : Nat
  column : Nat
  deriving DecidableEq, Inhabited

/-- What links a body to its source text. -/
structure DebugInfo where
  points : List SequencePoint
  scope : Option String
  deriving DecidableEq, Inhabited

/-- A body without any link to source text. -/
def DebugInfo.none : DebugInfo := ⟨[], Option.none⟩

/-- The executable body of a procedure. -/
structure Body where
  code : Block
  locals : List TypeRef
  debug : DebugInfo
  nextLabel : Label
  deriving Inhabited

namespace Body

/-- A body without instructions. -/
def empty : Body := ⟨[], [], .none, 0⟩

/-- A body of given instructions; new labels are counted from the highest of theirs. -/
def ofCode (code : Block) : Body :=
  ⟨code, [], .none, (Block.highestLabel? code).elim 0 (· + 1)⟩

/-- A body that does nothing but return. -/
def justLeave : Body := ofCode [.leave]

/-- Declares a local: its index, and the body that has it. -/
def declareLocal (b : Body) (type : TypeRef) : Nat × Body :=
  (b.locals.length, { b with locals := b.locals ++ [type] })

/-- Draws a label: the label, and the body that goes on from it.  The count has the 32 bits of a
label; behind the last of them it is at zero again. -/
def newLabel (b : Body) : Label × Body :=
  (b.nextLabel, { b with nextLabel := b.nextLabel + 1 })

/-- Adds instructions at the end. -/
def emit (b : Body) (code : Block) : Body := { b with code := b.code ++ code }

/-- Links a body to source text. -/
def withDebug (b : Body) (debug : DebugInfo) : Body := { b with debug }

/-- The instructions that read one value by `proc` from the reader in argument `arg` into a
local. -/
def readInto (arg : Nat) (proc : CodecProc) (slot : Nat) : Block :=
  [.loadArg arg, .codec (.read proc), .storeLocal slot]

/-- Declares a local for a value of a type and gives the instructions that read it, which are
not added; nothing if the codec cannot read the type.  This is the usual way, and the only one
that codecs have here. -/
def createRead? (b : Body) (codec : Codec) (arg : Nat) (type : TypeRef) :
    Option (Nat × Block × Body) :=
  (codec.readerFor type).map fun proc =>
    let (slot, b) := b.declareLocal type
    (slot, readInto arg proc slot, b)

/-- Every instruction at any depth, each before those inside it. -/
def nested (b : Body) : List Instruction := Block.nested b.code

/-- Replaces every instruction at any depth, each after those inside it. -/
def mapNestedM {m : Type → Type} [Monad m] (b : Body) (f : Instruction → m Instruction) :
    m Body := do
  let code ← Block.mapNestedM f b.code
  pure { b with code }

/-- Hands every argument to the external procedure `symbol` and returns. -/
def recording (symbol : String) (arity : Nat) : Body :=
  ofCode ((List.range arity).map .loadArg ++ [.call (.external symbol arity), .leave])

/-- Calls a base implementation with every argument and returns. -/
def baseCall (ref : MethodRef) : Body :=
  ofCode (.loadSelf :: (List.range ref.types.length).map .loadArg ++
    [.call (.base ref), .leave])

@[simp] theorem code_emit (b : Body) (code : Block) : (b.emit code).code = b.code ++ code := rfl

@[simp] theorem nextLabel_emit (b : Body) (code : Block) :
    (b.emit code).nextLabel = b.nextLabel := rfl

@[simp] theorem locals_emit (b : Body) (code : Block) : (b.emit code).locals = b.locals := rfl

@[simp] theorem code_declareLocal (b : Body) (type : TypeRef) :
    (b.declareLocal type).2.code = b.code := rfl

@[simp] theorem locals_declareLocal (b : Body) (type : TypeRef) :
    (b.declareLocal type).2.locals = b.locals ++ [type] := rfl

@[simp] theorem code_newLabel (b : Body) : b.newLabel.2.code = b.code := rfl

@[simp] theorem locals_newLabel (b : Body) : b.newLabel.2.locals = b.locals := rfl

end Body

end RpcLoom
