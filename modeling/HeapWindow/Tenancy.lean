import HeapWindow.Audit
import HeapWindow.Extent
import HeapWindow.Run

/-!
# Tenancies

A tenancy is a heap together with what its client may rely on: the addresses it holds, and all
those it was ever given. The requests of a well-behaved client are singled out by a predicate, so
that a fact about every run of such requests can be stated and proved by induction along it.
-/

namespace HeapWindow

inductive Request
  | allocate (n : UInt32)
  | release (p : Addr)
  | releaseOnce (p : Addr)
  /-- The client itself writes bytes from `a` on. -/
  | write (a : Addr) (bytes : List UInt8)
  deriving DecidableEq

namespace Request

/-- Does what is asked. Only an allocation answers with an address. -/
def perform : Request → Action FirstFit (Option Addr)
  | allocate n => some <$> FirstFit.allocate n
  | release p => (fun _ => none) <$> FirstFit.release p
  | releaseOnce p => (fun _ => none) <$> FirstFit.releaseOnce p
  | write a bytes =>
    (fun _ => none) <$> FirstFit.onMemory (Memory.store a bytes.toArray.toVector)

/-- The heap is asked, and not only its memory written to. -/
def IsCall : Request → Prop
  | write .. => False
  | _ => True

instance : DecidablePred IsCall := fun r => by cases r <;> unfold IsCall <;> infer_instance

end Request

structure Tenancy where
  heap : FirstFit
  /-- The addresses that the client holds, the latest first. -/
  live : List Addr
  /-- The addresses that the client was ever given, the latest first. -/
  issued : List Addr

namespace Tenancy

def fresh (h : FirstFit) : Tenancy := ⟨h, [], []⟩

def liveAfter (live : List Addr) : Request → Except Fault (Option Addr) → List Addr
  | .allocate _, .ok (some p) => p :: live
  | .release p, .ok _ | .releaseOnce p, .ok _ => live.erase p
  | _, _ => live

def step (t : Tenancy) (r : Request) : Tenancy :=
  let o := r.perform.run t.heap
  { heap := o.state
    live := liveAfter t.live r o.result
    issued := match o.result with
      | .ok (some p) => p :: t.issued
      | _ => t.issued }

def after (t : Tenancy) (rs : List Request) : Tenancy := rs.foldl step t

def answers : Tenancy → List Request → List (Except Fault (Option Addr))
  | _, [] => []
  | t, r :: rs => (r.perform.run t.heap).result :: answers (t.step r) rs

def journal : Tenancy → List Request → List Event
  | _, [] => []
  | t, r :: rs => (r.perform.run t.heap).events ++ journal (t.step r) rs

/-- The payload that begins at `p` contains all of the `n` bytes from `a` on. -/
def Covers (h : FirstFit) (p a : Addr) (n : Nat) : Prop :=
  p.toNat ≤ a.toNat ∧ ∃ size, h.payloadSize p = .ok size ∧ a.toNat + n ≤ p.toNat + size.toNat

instance (h : FirstFit) (p a : Addr) (n : Nat) : Decidable (Covers h p a n) :=
  match hs : h.payloadSize p with
  | .ok size =>
    decidable_of_iff (p.toNat ≤ a.toNat ∧ a.toNat + n ≤ p.toNat + size.toNat) (by simp [Covers, hs])
  | .error _ => isFalse (by simp [Covers, hs])

/-- The client gives back only what it holds, and writes only into what it holds. -/
def Allows (t : Tenancy) : Request → Prop
  | .allocate _ => True
  | .release p | .releaseOnce p => p = 0 ∨ p ∈ t.live
  | .write a bytes => ∃ p ∈ t.live, Covers t.heap p a bytes.length

instance (t : Tenancy) : ∀ r, Decidable (t.Allows r)
  | .allocate _ => isTrue trivial
  | .release p | .releaseOnce p => inferInstanceAs (Decidable (p = 0 ∨ p ∈ t.live))
  | .write a bytes => inferInstanceAs (Decidable (∃ p ∈ t.live, Covers t.heap p a bytes.length))

/-- The client may also try to give back again, with care, what it was once given. -/
def AllowsStale (t : Tenancy) : Request → Prop
  | .releaseOnce p => p ∈ t.issued
  | .release _ => False
  | r => t.Allows r

instance (t : Tenancy) : ∀ r, Decidable (t.AllowsStale r)
  | .releaseOnce p => inferInstanceAs (Decidable (p ∈ t.issued))
  | .release _ => isFalse id
  | .allocate n => inferInstanceAs (Decidable (t.Allows (.allocate n)))
  | .write a bytes => inferInstanceAs (Decidable (t.Allows (.write a bytes)))

/-- The blocks that the client holds, as their headers describe them. -/
def held (t : Tenancy) : List Node :=
  t.live.map fun p => Node.peek t.heap.memory (p - Header.byteSize)

def blocks (t : Tenancy) : List Node := t.heap.walk.nodes ++ t.held

end Tenancy
end HeapWindow
