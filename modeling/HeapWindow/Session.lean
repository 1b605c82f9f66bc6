import HeapWindow.Allocator

/-!
# Sessions

A session works on one heap, which it can set aside and come back to, or replace by a fresh one.
-/

namespace HeapWindow

/-- A heap, and the copy of it that was set aside last. -/
structure Session (η : Type) where
  heap : η
  saved : Option η

namespace Session

variable {η α : Type}

def onHeap : Action η α → Action (Session η) α :=
  Action.on fun ⟨heap, saved⟩ => (heap, fun heap => ⟨heap, saved⟩)

/-- Replaces the heap by a fresh one, if the window can hold one. -/
def rebind [Backed η] (w : Window) : Action (Session η) Unit := do
  let heap ← Backed.ofWindow w
  Action.modify fun s => { s with heap }

def save : Action (Session η) Unit := Action.modify fun s => { s with saved := some s.heap }

def restore : Action (Session η) Unit :=
  Action.modify fun s => { s with heap := s.saved.getD s.heap }

def sameMemory [Backed η] (s : Session η) : Bool :=
  s.saved.any fun saved => Backed.memory saved = Backed.memory s.heap

end Session
end HeapWindow
