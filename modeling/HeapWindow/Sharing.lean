import HeapWindow.Arena
import HeapWindow.Extent
import HeapWindow.FirstFit
import HeapWindow.Run

/-!
# Sharing a heap

Several threads own parts of one heap. A turn is a thread and what it does, and a run is a list
of turns, so a fact about every run is a fact about every interleaving of the threads. A thread may
go by the answers it was given; what it did in a run is a list of moves all the same. What it does
without giving way is several turns of it in a row.
-/

namespace HeapWindow

/-- What a thread does when it is its turn. -/
inductive Move
  | allocate (n : UInt32)
  | release (p : Addr)
  | write (a : Addr) (bytes : List UInt8)
  deriving DecidableEq

def Move.perform {η : Type} [Allocator η] : Move → Action η (Option Addr)
  | allocate n => some <$> Allocator.allocate n
  | release p => (fun _ => none) <$> Allocator.release p
  | write a bytes => (fun _ => none) <$> Backed.onMemory (Memory.store a bytes.toArray.toVector)

/-- An address that a thread was given for `n` bytes. -/
structure Holding where
  thread : Nat
  addr : Addr
  n : UInt32
  deriving DecidableEq

/-- What a heap promises of the parts that it gives out. -/
structure Terms (η : Type) where
  /-- How many bytes in front of an address go with it. -/
  header : Nat
  /-- How many bytes from an address on may be used. -/
  room : η → Holding → Nat
  /-- Whether a part that is given back is owned no longer. -/
  returnable : Bool

namespace Terms

variable {η : Type}

/-- All addresses that go with a holding. -/
def lot (T : Terms η) (heap : η) (k : Holding) : Extent :=
  ⟨k.addr.toNat - T.header, k.addr.toNat + T.room heap k⟩

def InPayload (T : Terms η) (heap : η) (k : Holding) (x : Nat) : Prop :=
  k.addr.toNat ≤ x ∧ x < k.addr.toNat + T.room heap k

end Terms

/-- An arena gives out whole words for good. -/
def Arena.terms : Terms Arena where
  header := 0
  room _ k := (k.n.toNat + 3) / 4 * 4
  returnable := false

def FirstFit.terms : Terms FirstFit where
  header := 8
  room h k :=
    match h.payloadSize k.addr with
    | .ok size => size.toNat
    | .error _ => 0
  returnable := true

structure Sharing (η : Type) where
  heap : η
  /-- What the threads own, the latest first. -/
  holdings : List Holding

namespace Sharing

variable {η : Type} (T : Terms η)

def fresh (heap : η) : Sharing η := ⟨heap, []⟩

def step [Allocator η] (s : Sharing η) (turn : Nat × Move) : Sharing η :=
  let o := turn.2.perform.run s.heap
  { heap := o.state
    holdings := match turn.2, o.result with
      | .allocate n, .ok (some p) => ⟨turn.1, p, n⟩ :: s.holdings
      | .release p, .ok _ =>
        if T.returnable then s.holdings.eraseP fun k => k.thread = turn.1 ∧ k.addr = p
        else s.holdings
      | _, _ => s.holdings }

def after [Allocator η] (s : Sharing η) (turns : List (Nat × Move)) : Sharing η :=
  turns.foldl (step T) s

/-- A thread gives back only what it owns, and writes only into what it owns. -/
def Allows (s : Sharing η) (turn : Nat × Move) : Prop :=
  match turn.2 with
  | .allocate _ => True
  | .release p => p = 0 ∨ ∃ k ∈ s.holdings, k.thread = turn.1 ∧ k.addr = p
  | .write a bytes => ∃ k ∈ s.holdings, k.thread = turn.1 ∧ k.addr.toNat ≤ a.toNat ∧
      a.toNat + bytes.length ≤ k.addr.toNat + T.room s.heap k

instance (s : Sharing η) : ∀ turn, Decidable (s.Allows T turn)
  | (_, .allocate _) => isTrue trivial
  | (i, .release p) =>
    inferInstanceAs (Decidable (p = 0 ∨ ∃ k ∈ s.holdings, k.thread = i ∧ k.addr = p))
  | (i, .write a bytes) =>
    inferInstanceAs (Decidable (∃ k ∈ s.holdings, k.thread = i ∧ k.addr.toNat ≤ a.toNat ∧
      a.toNat + bytes.length ≤ k.addr.toNat + T.room s.heap k))

end Sharing
end HeapWindow
