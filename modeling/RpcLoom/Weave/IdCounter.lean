/-
RpcLoom/Weave/IdCounter.lean

Numbering the remote calls of a hierarchy.

Design.  A type's own ids begin after one id for every procedure of the types
above it that is annotated as a remote call, whether or not that procedure is
refused.  So ids of a type never depend on the types below it, and no two types
of one chain share an id.  Counts stop at the largest id instead of passing it.
-/
import RpcLoom.Remote.Contract
import RpcLoom.Decl.Assembly

namespace RpcLoom

/-- A number of procedures as a count of ids, at most the largest id. -/
def RpcId.ofCount (n : Nat) : RpcId := .ofNat (min n 4294967295)

/-- The sum of two counts, at most the largest id. -/
def RpcId.addCapped (a b : RpcId) : RpcId := .ofCount (a.toNat + b.toNat)

/-- The next id of a hierarchy, and the number of ids it may use. -/
structure IdCounter where
  next : RpcId
  ceiling : UInt32
  deriving DecidableEq

namespace IdCounter

/-- The counter at which a type's own ids begin. -/
def ofAncestors (a : Assembly) (i : TypeId) (ceiling : UInt32) :
    Except DeclError IdCounter := do
  let above ← a.ancestors i
  let counts := above.map fun j => RpcId.ofCount (((a.type? j).map (·.remoteCount)).getD 0)
  .ok ⟨counts.foldl RpcId.addCapped 0, ceiling⟩

/-- Whether so many more ids may be used. -/
def fits (c : IdCounter) (more : Nat) : Bool := c.next.toNat + more ≤ c.ceiling.toNat

theorem fits_of_le {c : IdCounter} {fewer more : Nat} (h : c.fits more = true)
    (hle : fewer ≤ more) : c.fits fewer = true := by
  rw [fits, decide_eq_true_iff] at h ⊢
  omega

/-- Hands out the next id. -/
def assign (c : IdCounter) : RpcId × IdCounter := (c.next, { c with next := c.next + 1 })

end IdCounter

end RpcLoom
