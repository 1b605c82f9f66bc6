import HeapWindow.Journal

/-!
# Replays

The events of a first-fit heap are enough to know its free blocks. A replay keeps the list of
them and the size of every block handed out, and learns nothing but what the events say.
-/

namespace HeapWindow

/-- What can be known from the events so far. -/
structure Replay where
  /-- The free blocks in order: the address of the header and the size of the payload. -/
  free : List (Addr × UInt32)
  /-- The blocks handed out, the latest first. -/
  sizes : List (Addr × UInt32)
  deriving DecidableEq

namespace Replay

def empty : Replay := ⟨[], []⟩

def apply (r : Replay) : Event → Replay
  | .chainOpened start size => ⟨[(start, size)], []⟩
  | .blockSplit addr size rest restSize =>
    ⟨r.free.map fun e => if e.1 = addr then (rest, restSize) else e, (addr, size) :: r.sizes⟩
  | .blockTaken addr size => ⟨r.free.filter fun e => e.1 ≠ addr, (addr, size) :: r.sizes⟩
  | .blockReleased addr => { r with free := (addr, (r.sizes.lookup addr).getD 0) :: r.free }
  | _ => r

/-- What is known after the events, the oldest first. -/
def run (r : Replay) (events : List Event) : Replay := events.foldl apply r

theorem run_append (r : Replay) (before after : List Event) :
    r.run (before ++ after) = (r.run before).run after := by
  simp [run]

/-- A failed request leaves no trace in the list. -/
theorem apply_debug {r : Replay} {e : Event} (h : e.level = .debug)
    (hs : ∀ start size, e ≠ .chainOpened start size) : r.apply e = r := by
  cases e with
  | chainOpened start size => exact absurd rfl (hs start size)
  | arenaOpened | arenaFull | arenaRewound | chainFull => rfl
  | arenaAdvanced | blockSplit | blockTaken | blockReleased => cases h

end Replay
end HeapWindow
