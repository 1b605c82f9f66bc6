import HeapWindow.Arena
import HeapWindow.Extent
import HeapWindow.Run

/-!
# Leases of an arena

What a client of an arena can ask for, and what it was given since the arena was last rewound.
Nothing is asked of its requests but that it writes inside memory.
-/

namespace HeapWindow

open Rounding

namespace Arena

inductive Request
  | allocate (n : UInt32)
  | allocateZeroed (count size : UInt32)
  | release (p : Addr)
  | rewind
  /-- The client itself writes bytes from `a` on. -/
  | write (a : Addr) (bytes : List UInt8)
  deriving DecidableEq

namespace Request

/-- Does what is asked. Only an allocation answers with an address. -/
def perform : Request → Action Arena (Option Addr)
  | allocate n => some <$> Arena.allocate n
  | allocateZeroed count size => some <$> Arena.allocateZeroed count size
  | release p => (fun _ => none) <$> Arena.release p
  | rewind => (fun _ => none) <$> Arena.rewind
  | write a bytes => (fun _ => none) <$> onMemory (Memory.store a bytes.toArray.toVector)

/-- The bytes that are asked for, as an exact number. -/
def wanted : Request → Nat
  | allocate n => n.toNat
  | allocateZeroed count size => count.toNat * size.toNat
  | _ => 0

end Request

end Arena

/-- An arena, and the extents it gave out since it was last rewound, the oldest first. -/
structure Leasing where
  arena : Arena
  leases : List Extent

namespace Leasing

def fresh (a : Arena) : Leasing := ⟨a, []⟩

def step (l : Leasing) (r : Arena.Request) : Leasing :=
  let o := r.perform.run l.arena
  { arena := o.state
    leases := match r, o.result with
      | .rewind, _ => []
      | r, .ok (some p) => l.leases ++ [⟨p.toNat, p.toNat + (r.wanted + 3) / 4 * 4⟩]
      | _, _ => l.leases }

def after (l : Leasing) (rs : List Arena.Request) : Leasing := rs.foldl step l

def answers : Leasing → List Arena.Request → List (Except Fault (Option Addr))
  | _, [] => []
  | l, r :: rs => (r.perform.run l.arena).result :: answers (l.step r) rs

end Leasing
end HeapWindow
