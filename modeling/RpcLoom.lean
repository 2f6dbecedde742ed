import RpcLoom.Run.Delivery
import RpcLoom.Weave.Weaving
import RpcLoom.Proofs.Allocation
import RpcLoom.Proofs.Repetition
import RpcLoom.Proofs.Resolving
import RpcLoom.Proofs.Stepping
import RpcLoom.Proofs.Promises
import RpcLoom.Proofs.Authority
import RpcLoom.Proofs.Framing
import RpcLoom.Proofs.Arguments
import RpcLoom.Proofs.Senders
import RpcLoom.Proofs.Forwards
import RpcLoom.Proofs.RoundTrip
import RpcLoom.Proofs.Names
import RpcLoom.Proofs.BaseCode
import RpcLoom.Proofs.Histories
import RpcLoom.Proofs.OverrideTrip
import RpcLoom.Proofs.ErrorLog
import RpcLoom.Proofs.Independence
import RpcLoom.Proofs.Alignment
import RpcLoom.Proofs.Transparency
import RpcLoom.Proofs.Frame
import RpcLoom.Proofs.Reannotating
import RpcLoom.Proofs.Regrowth
import RpcLoom.Proofs.Atomicity
import RpcLoom.Proofs.CallEffects
import RpcLoom.Proofs.ReceiptEffects
import RpcLoom.Proofs.Pooling
import RpcLoom.Proofs.BaseFirst
import RpcLoom.Proofs.Grammar
import RpcLoom.Proofs.Redirecting
import RpcLoom.Proofs.Mishaps
import RpcLoom.Proofs.Packing
import RpcLoom.Proofs.Handles
import RpcLoom.Proofs.Regions
import RpcLoom.Proofs.Arenas
import RpcLoom.Proofs.Labels
import RpcLoom.Proofs.Ancestry
import RpcLoom.Proofs.KeyIndex
import RpcLoom.Proofs.Stopping
