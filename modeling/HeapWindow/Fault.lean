import HeapWindow.Hex
import HeapWindow.Window

/-!
# Faults

Every operation that cannot be carried out says why. The text shown to a reader is computed from
the cause alone.
-/

namespace HeapWindow

inductive Fault
  /-- There is no room for `requested` bytes: no more than `available` are free in one piece. -/
  | outOfMemory (requested available : UInt32)
  | badWindow (window : Window) (flaw : Window.Flaw)
  /-- Some of the `len` bytes from `addr` on are not in memory. -/
  | outOfBounds (addr : Addr) (len : UInt32)
  /-- No block has its payload at `addr`. -/
  | notABlock (addr : Addr)
  /-- The block with its payload at `addr` is already free. -/
  | alreadyFree (addr : Addr)
  /-- The list of free blocks cannot be followed at `addr`. -/
  | brokenChain (addr : Addr)
  | requestTooLarge
  deriving DecidableEq

namespace Fault

def message : Fault → String
  | outOfMemory requested available =>
    "out of memory: requested " ++ requested.toNat.repr ++ " bytes, " ++
      available.toNat.repr ++ " available"
  | badWindow window flaw =>
    "invalid heap region " ++ Hex.address window.start ++ "+" ++ Hex.size window.size ++ ": " ++
      flaw.message
  | outOfBounds addr len =>
    "access of " ++ len.toNat.repr ++ " bytes at " ++ Hex.address addr ++
      " is outside the heap region"
  | notABlock addr => "invalid free of " ++ Hex.address addr
  | alreadyFree addr => "double free of " ++ Hex.address addr
  | brokenChain addr => "free list corrupted at " ++ Hex.address addr
  | requestTooLarge => "allocation size overflows the 32-bit address space"

end Fault

namespace Window

def check (w : Window) : Except Fault Unit :=
  match w.flaw? with
  | none => .ok ()
  | some flaw => .error (.badWindow w flaw)

end Window
end HeapWindow
