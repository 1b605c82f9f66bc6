import HeapWindow.Rounding

/-!
# Windows

A window is the stretch of the address space that one heap is given. Zero is the null link, so
no window starts there; headers are read a word at a time, so it starts on a word; and its first
address past the last byte is itself a 32-bit address.
-/

namespace HeapWindow

open Rounding

/-- The addresses from `start` on, `size` of them. -/
structure Window where
  start : Addr
  size : UInt32
  deriving DecidableEq

namespace Window

/-- The window of a machine that keeps its code below and its stack above. -/
def standard : Window := ⟨0x20000, 0x60000⟩

/-- The first address past the window, wrapping past the top. -/
def stop (w : Window) : Addr := w.start + w.size

inductive Flaw
  | nullStart | unalignedStart | pastTop | noRoomForHeader
  /-- A condition that only the caller knows of. -/
  | other (reason : String)
  deriving DecidableEq

def Flaw.message : Flaw → String
  | nullStart => "region may not start at the null address"
  | unalignedStart => "start is not 4-byte aligned"
  | pastTop => "region extends past the 32-bit address space"
  | noRoomForHeader => "region too small for a block header"
  | other reason => reason

/-- The first flaw that makes a window unusable as memory. -/
def flaw? (w : Window) : Option Flaw :=
  if w.start = 0 then some .nullStart
  else if ¬ Aligned w.start then some .unalignedStart
  else if UInt32.size ≤ w.start.toNat + w.size.toNat then some .pastTop
  else none

theorem flaw?_eq_none_iff {w : Window} :
    w.flaw? = none ↔
      w.start ≠ 0 ∧ Aligned w.start ∧ w.start.toNat + w.size.toNat < UInt32.size := by
  unfold flaw?
  split
  · simp [*]
  · split
    · simp [*]
    · split <;> simp_all

end Window
end HeapWindow
