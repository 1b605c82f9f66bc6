import HeapWindow.Rounding

/-!
# The journal

A heap reports what it does as a sequence of events. Each event carries the numbers that matter
to a reader, so that the list of free blocks can be followed from the events alone.
-/

namespace HeapWindow

inductive Level
  | debug | trace
  deriving DecidableEq

def Level.name : Level → String
  | debug => "DEBUG"
  | trace => "TRACE"

inductive Event
  | arenaOpened (start : Addr) (size : UInt32)
  | arenaFull (requested remaining : UInt32)
  | arenaAdvanced (addr : Addr) (size : UInt32)
  | arenaRewound (reclaimed : UInt32)
  /-- One free block holds the whole window; `size` counts its payload. -/
  | chainOpened (start : Addr) (size : UInt32)
  | chainFull (requested available : UInt32)
  /-- A block kept `size` bytes and left its place in the chain to the rest of it. -/
  | blockSplit (addr : Addr) (size : UInt32) (rest : Addr) (restSize : UInt32)
  | blockTaken (addr : Addr) (size : UInt32)
  | blockReleased (addr : Addr)
  deriving DecidableEq

namespace Event

def level : Event → Level
  | arenaOpened .. | arenaFull .. | arenaRewound .. | chainOpened .. | chainFull .. => .debug
  | arenaAdvanced .. | blockSplit .. | blockTaken .. | blockReleased .. => .trace

def message : Event → String
  | arenaOpened .. => "bump allocator initialized"
  | arenaFull .. => "bump allocator out of memory"
  | arenaAdvanced .. => "bump alloc"
  | arenaRewound .. => "bump allocator reset"
  | chainOpened .. => "free-list allocator initialized"
  | chainFull .. => "free-list allocator out of memory"
  | blockSplit .. => "split free block"
  | blockTaken .. => "took whole free block"
  | blockReleased .. => "freed block"

/-- The numbers of an event under the names they are reported by. -/
def fields : Event → List (String × UInt32)
  | arenaOpened start size | chainOpened start size => [("start", start), ("size", size)]
  | arenaFull requested remaining => [("requested", requested), ("remaining", remaining)]
  | arenaRewound reclaimed => [("reclaimed", reclaimed)]
  | chainFull requested available => [("requested", requested), ("available", available)]
  | arenaAdvanced addr size | blockTaken addr size => [("addr", addr), ("size", size)]
  | blockSplit addr size rest restSize =>
    [("addr", addr), ("size", size), ("remainder_addr", rest), ("remainder_size", restSize)]
  | blockReleased addr => [("addr", addr)]

end Event
end HeapWindow
