import HeapWindow.Memory

/-!
# Allocators

What every heap offers: memory that can be read and written in place, blocks handed out and
taken back, and a count of the bytes that are left.
-/

namespace HeapWindow

/-- A value that owns the memory of one window. -/
class Backed (η : Type) where
  ofWindow {σ : Type} : Window → Action σ η
  memory : η → Memory
  onMemory {α : Type} : Action Memory α → Action η α

class Allocator (η : Type) extends Backed η where
  /-- The address of that many bytes, which are from now on in use. -/
  allocate : UInt32 → Action η Addr
  release : Addr → Action η Unit
  remaining : η → UInt32

instance : Backed Memory where
  ofWindow w := Action.ask fun _ => Memory.ofWindow w
  memory := id
  onMemory := id

end HeapWindow
