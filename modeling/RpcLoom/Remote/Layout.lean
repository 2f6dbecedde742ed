/-
RpcLoom/Remote/Layout.lean

What each parameter of a remote call is for.

Design.  Most parameters travel in the packet.  Three places may be taken by
something else: the first by the connection a targeted call goes to, the last
by the channel, and on calls to the server the last by the calling connection,
which then lets the channel stand right before it.
-/
import RpcLoom.Code.Kind
import RpcLoom.Decl.Procedure

namespace RpcLoom

/-- What a parameter of a remote call is for. -/
inductive Role where
  /-- Its value travels in the packet. -/
  | serialized
  /-- It chooses the channel. -/
  | channel
  /-- It is the connection the call goes to. -/
  | target
  /-- It is the connection the call came from. -/
  | caller
  deriving DecidableEq

/-- The word for a role. -/
def Role.tag : Role → String
  | .serialized => "Serialized"
  | .channel => "ChannelSelector"
  | .target => "TargetConnection"
  | .caller => "CallerConnection"

/-- The roles of a procedure's parameters, in order. -/
structure Layout where
  roles : List Role
  deriving DecidableEq

namespace Layout

/-- Whether a parameter can be the calling connection. -/
def isCaller (p : Parameter) : Bool := p.type.isConnection && p.hasDefault

/-- The position of the calling connection: the last one, on calls to the server. -/
def callerIndex? (kinds : KindSet) (ps : List Parameter) : Option Nat :=
  match ps.getLast? with
  | some p => if kinds.isServer && isCaller p then some (ps.length - 1) else none
  | none => none

/-- The position of the channel: the last one, or the one before a calling connection. -/
def channelIndex? (kinds : KindSet) (ps : List Parameter) : Option Nat :=
  match ps.reverse with
  | [] => none
  | last :: before =>
    if last.type.isChannel then some (ps.length - 1)
    else
      match before with
      | [] => none
      | previous :: _ =>
        if (callerIndex? kinds ps).isSome && previous.type.isChannel then some (ps.length - 2)
        else none

/-- The position of the connection a targeted call goes to: the first one. -/
def targetIndex? (kinds : KindSet) (ps : List Parameter) : Option Nat :=
  match ps with
  | p :: _ => if kinds.contains .target && p.type.isConnection then some 0 else none
  | [] => none

/-- Gives a role to a position, if there is one. -/
def assign (role : Role) (index? : Option Nat) (roles : List Role) : List Role :=
  match index? with
  | some i => roles.set i role
  | none => roles

/-- The roles of parameters under a set of kinds. -/
def ofParameters (kinds : KindSet) (ps : List Parameter) : Layout where
  roles :=
    assign .channel (channelIndex? kinds ps) <|
      assign .caller (callerIndex? kinds ps) <|
        assign .target (targetIndex? kinds ps) <|
          List.replicate ps.length .serialized

/-- The positions of the parameters that travel in the packet, in order. -/
def serialized (l : Layout) : List Nat :=
  (l.roles.zipIdx.filter (·.1 == .serialized)).map (·.2)

/-- The first position of a role. -/
def position? (l : Layout) (role : Role) : Option Nat := l.roles.findIdx? (· == role)

/-- The parameters that travel in the packet, with their positions. -/
def fields (l : Layout) (ps : List Parameter) : List (Nat × Parameter) :=
  l.serialized.filterMap fun i => ps[i]?.map fun p => (i, p)

@[simp] theorem length_assign (role : Role) (index? : Option Nat) (roles : List Role) :
    (assign role index? roles).length = roles.length := by
  cases index? <;> simp [assign]

@[simp] theorem length_roles_ofParameters (kinds : KindSet) (ps : List Parameter) :
    (ofParameters kinds ps).roles.length = ps.length := by
  simp [ofParameters]

end Layout

end RpcLoom
