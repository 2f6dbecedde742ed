/-
RpcLoom/Weave/Settings.lean

What a weaver is set up with.
-/
import RpcLoom.Code.Codec

namespace RpcLoom

/-- The choices that are open when weaving. -/
structure Settings where
  /-- Whether senders check the authority of the calling side. -/
  guards : Bool
  /-- How many ids a type and the types above it may use together. -/
  allowance : UInt32
  /-- The channel of calls that do not choose one. -/
  channel : Channel
  deriving DecidableEq

/-- Guards on, the largest sixteen-bit number of ids, and the reliable channel. -/
def Settings.default : Settings := ⟨true, 65535, .reliable⟩

/-- A weaver: what can be serialized, and the choices made. -/
structure Loom where
  codec : Codec
  settings : Settings

end RpcLoom
