import HeapWindow.Allocator

/-!
# Arenas

An arena hands out its memory from the start to the end and keeps only the address that comes
next. A single request cannot be taken back; rewinding takes back all of them at once.
-/

namespace HeapWindow

open Rounding

structure Arena where
  memory : Memory
  /-- The address that is handed out next. -/
  cursor : Addr
  deriving DecidableEq

namespace Arena

variable {σ α : Type}

def ofWindow (w : Window) : Action σ Arena := do
  let m ← Backed.ofWindow w
  Action.record (.arenaOpened m.start m.size)
  pure ⟨m, m.start⟩

theorem run_ofWindow (w : Window) (s : σ) :
    (ofWindow w).run s =
      match Memory.ofWindow w with
      | .error fault => ⟨.error fault, s, []⟩
      | .ok m => ⟨.ok ⟨m, m.start⟩, s, [.arenaOpened m.start m.size]⟩ := by
  cases hm : Memory.ofWindow w <;> simp [ofWindow, Backed.ofWindow, hm, Action.run_bind]

def onMemory : Action Memory α → Action Arena α :=
  Action.on fun ⟨m, cursor⟩ => (m, fun m => ⟨m, cursor⟩)

@[simp] theorem run_onMemory (x : Action Memory α) (a : Arena) :
    (onMemory x).run a =
      ⟨(x.run a.memory).result, ⟨(x.run a.memory).state, a.cursor⟩, (x.run a.memory).events⟩ :=
  rfl

def remaining (a : Arena) : UInt32 := a.memory.stop - a.cursor

def used (a : Arena) : UInt32 := a.cursor - a.memory.start

def capacity (a : Arena) : UInt32 := a.memory.size

/-- Hands out the next `n` bytes and the padding behind them. -/
def allocate (n : UInt32) : Action Arena Addr := do
  let need ← Action.ofOption .requestTooLarge (roundUp? n)
  let room ← Action.gets remaining
  if room < need then
    Action.record (.arenaFull need room)
    Action.fail (.outOfMemory need room)
  else
    let addr ← Action.gets cursor
    Action.modify fun a => { a with cursor := a.cursor + need }
    Action.record (.arenaAdvanced addr need)
    pure addr

theorem run_allocate (n : UInt32) (a : Arena) :
    (allocate n).run a =
      match roundUp? n with
      | none => ⟨.error .requestTooLarge, a, []⟩
      | some need =>
        if a.remaining < need then
          ⟨.error (.outOfMemory need a.remaining), a, [.arenaFull need a.remaining]⟩
        else
          ⟨.ok a.cursor, { a with cursor := a.cursor + need }, [.arenaAdvanced a.cursor need]⟩ := by
  cases hn : roundUp? n with
  | none => simp [allocate, hn, Action.run_bind]
  | some need =>
    simp only [allocate, hn, Action.run_bind, Action.run_ofOption_some, Action.run_gets]
    split <;> rfl

/-- Hands out room for `count` items of `size` bytes and clears them, but not the padding. -/
def allocateZeroed (count size : UInt32) : Action Arena Addr := do
  let total ← Action.ofOption .requestTooLarge
    (if count.toNat * size.toNat < UInt32.size then some (count * size) else none)
  let addr ← allocate total
  onMemory (Memory.fill addr total 0)
  pure addr

theorem run_allocateZeroed (count size : UInt32) (a : Arena) :
    (allocateZeroed count size).run a =
      if count.toNat * size.toNat < UInt32.size then
        match (allocate (count * size)).run a with
        | ⟨.error fault, b, events⟩ => ⟨.error fault, b, events⟩
        | ⟨.ok addr, b, events⟩ =>
          match (Memory.fill addr (count * size) 0).run b.memory with
          | ⟨.error fault, m, more⟩ => ⟨.error fault, { b with memory := m }, events ++ more⟩
          | ⟨.ok (), m, more⟩ => ⟨.ok addr, { b with memory := m }, events ++ more⟩
      else ⟨.error .requestTooLarge, a, []⟩ := by
  unfold allocateZeroed
  split
  · rw [Action.run_bind_ok (Action.run_ofOption_some _ _ _)]
    cases h : (allocate (count * size)).run a with
    | mk result b events =>
      cases result with
      | error fault =>
        rw [Action.run_bind_error h]
        rfl
      | ok addr =>
        rw [Action.run_bind_ok h, Action.run_bind, run_onMemory]
        cases hf : (Memory.fill addr (count * size) 0).run b.memory with
        | mk result m more => cases result <;> simp [hf]
  · rw [Action.run_bind_error (Action.run_ofOption_none _ _)]

/-- A single block cannot be taken back. -/
def release (_ : Addr) : Action Arena Unit := pure ()

def rewind : Action Arena Unit := do
  let used ← Action.gets used
  Action.record (.arenaRewound used)
  Action.modify fun a => { a with cursor := a.memory.start }

instance : Allocator Arena where
  ofWindow := ofWindow
  memory := memory
  onMemory := onMemory
  allocate := allocate
  release := release
  remaining := remaining

end Arena
end HeapWindow
