/-
RpcLoom/Code/Codec.lean

What the host can serialize.

Design.  A codec answers three questions about a type, and nothing ties the
answers together: it may promise a type it cannot write or read.  The built-in
codec answers all three alike for the five scalar types of the wire format.

How a value is read into a local is a question with a usual answer, which follows
from the procedure that reads the type (`Body.createRead?`).  A host may answer it
in another way; here every codec keeps to the usual one.
-/
import RpcLoom.Code.Instruction

namespace RpcLoom

/-- What a host answers about the types of parameters. -/
structure Codec where
  /-- Whether values of the type can be sent. -/
  hasSerializer : TypeRef → Bool
  /-- The procedure that writes values of the type. -/
  writerFor : TypeRef → Option CodecProc
  /-- The procedure that reads values of the type. -/
  readerFor : TypeRef → Option CodecProc

namespace Codec

/-- The procedure that writes values of a type, by the usual name. -/
def writeProc (t : TypeRef) : CodecProc := ⟨"Write<" ++ t.text ++ ">", t⟩

/-- The procedure that reads values of a type, by the usual name. -/
def readProc (t : TypeRef) : CodecProc := ⟨"Read<" ++ t.text ++ ">", t⟩

/-- The codec that promises, writes and reads the listed types. -/
def ofLists (promised written read : List TypeRef) : Codec where
  hasSerializer t := promised.contains t
  writerFor t := if written.contains t then some (writeProc t) else none
  readerFor t := if read.contains t then some (readProc t) else none

/-- The types of the wire format. -/
def scalars : List TypeRef :=
  [.named "bool", .named "u32", .named "i32", .named "f32", .named "String"]

/-- The codec of the wire format. -/
def standard : Codec := ofLists scalars scalars scalars

end Codec

end RpcLoom
