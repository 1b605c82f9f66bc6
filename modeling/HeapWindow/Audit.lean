import HeapWindow.FirstFit

/-!
# Audits

An audit accepts a heap whose free blocks can all be reached and do not overlap. In address order
it is enough to compare neighbours.
-/

namespace HeapWindow
namespace FirstFit

def inAddressOrder (nodes : List Node) : List Node :=
  nodes.mergeSort fun a b => decide (a.addr ≤ b.addr)

/-- The first of the blocks that begins before the one in front of it stops. -/
def firstOverlap? : List Node → Option Node
  | a :: b :: rest => if b.addr.toNat < a.stop then some b else firstOverlap? (b :: rest)
  | _ => none

/-- The number of free blocks, if the links between them are in order. -/
def audit (h : FirstFit) : Except Fault Nat :=
  let w := h.walk
  match w.broken with
  | some a => .error (.brokenChain a)
  | none =>
    match firstOverlap? (inAddressOrder w.nodes) with
    | some n => .error (.brokenChain n.addr)
    | none => .ok w.nodes.length

end FirstFit
end HeapWindow
