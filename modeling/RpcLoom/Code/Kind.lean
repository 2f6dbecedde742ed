/-
RpcLoom/Code/Kind.lean

Directions of remote calls, the sets of them one procedure may have, and the
channels they travel on.

Design.  A procedure is sent in one direction, or both to all observers and to
one target; no other combination exists, so a `KindSet` has no other value.
Kinds are ordered as they are listed here.
-/
namespace RpcLoom

/-- Direction and audience of a remote call. -/
inductive Kind where
  /-- From a client to the server. -/
  | server
  /-- From the server to every observer of the object. -/
  | observers
  /-- From the server to one connection. -/
  | target
  deriving DecidableEq, Inhabited

namespace Kind

/-- Every kind, in order. -/
def all : List Kind := [.server, .observers, .target]

/-- The position of a kind in the order. -/
def rank : Kind → Nat
  | .server => 0
  | .observers => 1
  | .target => 2

/-- The word for a kind, as it appears in generated names. -/
def tag : Kind → String
  | .server => "Server"
  | .observers => "Observers"
  | .target => "Target"

/-- The ending an annotation's name may carry. -/
def attributeEnding : List Char := "Attribute".toList

/-- The text after the last dot. -/
def afterLastDot (cs : List Char) : List Char :=
  (cs.reverse.takeWhile (· != '.')).reverse

/-- A text without the ending `Attribute`, if it has it. -/
def withoutEnding (cs : List Char) : List Char :=
  if attributeEnding.isSuffixOf cs then cs.take (cs.length - attributeEnding.length) else cs

/-- The kind an annotation stands for: its name may be qualified and may end in `Attribute`. -/
def ofAttributeName? (name : String) : Option Kind :=
  match String.ofList (afterLastDot (withoutEnding name.toList)) with
  | "ServerRpc" => some .server
  | "ObserversRpc" => some .observers
  | "TargetRpc" => some .target
  | _ => none

theorem mem_all (k : Kind) : k ∈ all := by cases k <;> simp [all]

theorem rank_injective {j k : Kind} (h : j.rank = k.rank) : j = k := by
  cases j <;> cases k <;> simp_all [rank]

end Kind

/-- The kinds one procedure is sent as. -/
inductive KindSet where
  | single (kind : Kind)
  | observersAndTarget
  deriving DecidableEq

namespace KindSet

/-- The set of the kinds a procedure is annotated with, if they may stand together. -/
def ofKinds? : List Kind → Option KindSet
  | [k] => some (.single k)
  | [.observers, .target] | [.target, .observers] => some .observersAndTarget
  | _ => none

/-- The members, observers before target. -/
def toList : KindSet → List Kind
  | .single k => [k]
  | .observersAndTarget => [.observers, .target]

/-- Whether a kind is a member. -/
def contains (s : KindSet) (k : Kind) : Bool := s.toList.contains k

/-- Whether the set is the direction from client to server. -/
def isServer (s : KindSet) : Bool := s == .single .server

theorem toList_ne_nil (s : KindSet) : s.toList ≠ [] := by cases s <;> simp [toList]

theorem nodup_toList (s : KindSet) : s.toList.Nodup := by cases s <;> simp [toList]

/-- The members of a set make up the set. -/
theorem ofKinds?_toList (s : KindSet) : ofKinds? s.toList = some s := by
  cases s <;> rfl

end KindSet

/-- How the transport carries a call. -/
inductive Channel where
  | reliable
  | unreliable
  deriving DecidableEq, Inhabited

/-- The word for a channel. -/
def Channel.tag : Channel → String
  | .reliable => "Reliable"
  | .unreliable => "Unreliable"

/-- The number a call is sent under. -/
abbrev RpcId := UInt32

/-- The number of a connection. -/
abbrev ConnectionId := UInt32

end RpcLoom
