import HeapWindow.Header

/-!
# Walks along the free blocks

Free blocks are linked through their headers. A walk follows the links from a first one. It takes
nothing on trust: a link that leads to no acceptable block ends it, and so does the link after
as many blocks as memory has room for, since more of them can only mean that the links lead back.
-/

namespace HeapWindow

open Rounding

/-- A block as it is met on a walk. -/
structure Node extends Header where
  addr : Addr
  deriving DecidableEq

namespace Node

def stop (n : Node) : Nat := n.toHeader.stop n.addr

/-- What the bytes at `a` say if a header is there. -/
def peek (m : Memory) (a : Addr) : Node := ⟨Header.peek m a, a⟩

@[simp] theorem addr_peek (m : Memory) (a : Addr) : (peek m a).addr = a := rfl

/-- The header begins on a word, and all of the block is in memory. -/
def Inside (m : Memory) (n : Node) : Prop :=
  Aligned n.addr ∧ m.Holds n.addr 8 ∧ n.stop ≤ m.stop.toNat

instance (m : Memory) (n : Node) : Decidable (n.Inside m) := inferInstanceAs (Decidable (_ ∧ _))

/-- The block at `a`, if it can be linked to: it is inside, and so is a whole number of words. -/
def at? (m : Memory) (a : Addr) : Option Node :=
  let n := peek m a
  if n.Inside m ∧ Aligned n.size then some n else none

theorem at?_eq_some_iff {m : Memory} {a : Addr} {n : Node} :
    at? m a = some n ↔ n = peek m a ∧ n.Inside m ∧ Aligned n.size := by
  simp only [at?, Option.ite_none_right_eq_some, Option.some.injEq]
  constructor
  · rintro ⟨h, rfl⟩
    exact ⟨rfl, h⟩
  · rintro ⟨rfl, h⟩
    exact ⟨h, rfl⟩

theorem Inside.start_le {m : Memory} {n : Node} (h : n.Inside m) : m.start.toNat ≤ n.addr.toNat :=
  (Memory.holds_iff.1 h.2.1).1

theorem Inside.stop_lt {m : Memory} {n : Node} (h : n.Inside m) : n.stop < UInt32.size :=
  Nat.lt_of_le_of_lt h.2.2 m.stop.toNat_lt

/-- What is left of a block behind its first `need` bytes, if that is worth being a block. -/
def rest? (n : Node) (need : UInt32) : Option Node :=
  if need.toNat + (Header.byteSize + Header.leastRest).toNat ≤ n.size.toNat then
    some {
      size := n.size - need - Header.byteSize
      next := n.next
      addr := n.addr + Header.byteSize + need }
  else none

theorem rest?_eq_none_iff {n : Node} {need : UInt32} :
    n.rest? need = none ↔ n.size.toNat < need.toNat + 16 := by
  have : (Header.byteSize + Header.leastRest).toNat = 16 := rfl
  simp [rest?, this]

/-- What is cut off ends where the block ended, and nothing wraps. -/
theorem rest?_eq_some {m : Memory} {n r : Node} {need : UInt32} (hn : n.Inside m)
    (hr : n.rest? need = some r) :
    r.addr.toNat = n.addr.toNat + 8 + need.toNat ∧ r.stop = n.stop ∧ r.next = n.next ∧
      8 ≤ r.size.toNat := by
  have h₁₆ : (Header.byteSize + Header.leastRest).toNat = 16 := rfl
  have hlt := hn.stop_lt
  simp only [rest?, h₁₆, Option.ite_none_right_eq_some, Option.some.injEq] at hr
  obtain ⟨hle, rfl⟩ := hr
  simp only [stop, Header.stop, Header.toNat_byteSize, UInt32.size] at *
  have h₁ : need ≤ n.size := UInt32.le_iff_toNat_le.2 (by omega)
  have h₂ := UInt32.toNat_sub_of_le _ _ h₁
  have h₃ : Header.byteSize ≤ n.size - need :=
    UInt32.le_iff_toNat_le.2 (by rw [h₂, Header.toNat_byteSize]; omega)
  have h₄ := UInt32.toNat_sub_of_le _ _ h₃
  rw [h₂, Header.toNat_byteSize] at h₄
  rw [UInt32.toNat_add, UInt32.toNat_add, Header.toNat_byteSize, h₄]
  refine ⟨?_, ?_, trivial, ?_⟩ <;> omega

theorem holds_rest {m : Memory} {n r : Node} {need : UInt32} (hn : n.Inside m)
    (hr : n.rest? need = some r) : m.Holds r.addr 8 := by
  obtain ⟨ha, hs, _, hz⟩ := rest?_eq_some hn hr
  have h₁ := hn.start_le
  have h₂ := hn.2.2
  rw [← hs, stop, Header.stop, Header.toNat_byteSize] at h₂
  rw [Memory.holds_iff]
  omega

end Node

/-- The blocks met, in order, and the link at which the walk had to stop, if not at an end. -/
structure Walk where
  nodes : List Node
  broken : Option Addr
  deriving DecidableEq

namespace Walk

/-- Follows `link` for at most `budget` blocks. The blocks seen before are given latest first. -/
def followOnto (m : Memory) (seen : List Node) : (link : Option Addr) → (budget : Nat) → Walk
  | none, _ => ⟨seen.reverse, none⟩
  | some a, 0 => ⟨seen.reverse, some a⟩
  | some a, budget + 1 =>
    match Node.at? m a with
    | some n => followOnto m (n :: seen) n.next budget
    | none => ⟨seen.reverse, some a⟩

/-- The walk along `link` that gives up after `budget` blocks. -/
def follow (m : Memory) (link : Option Addr) (budget : Nat) : Walk := followOnto m [] link budget

theorem followOnto_eq (m : Memory) (seen : List Node) (link : Option Addr) (budget : Nat) :
    followOnto m seen link budget =
      ⟨seen.reverse ++ (follow m link budget).nodes, (follow m link budget).broken⟩ := by
  induction budget generalizing seen link with
  | zero => cases link <;> simp [follow, followOnto]
  | succ budget ih =>
    cases link with
    | none => simp [follow, followOnto]
    | some a =>
      simp only [follow, followOnto]
      cases Node.at? m a with
      | none => simp
      | some n =>
        simp only
        rw [ih (n :: seen), ih [n]]
        simp

@[simp] theorem follow_none (m : Memory) (budget : Nat) : follow m none budget = ⟨[], none⟩ := by
  cases budget <;> rfl

@[simp] theorem follow_zero (m : Memory) (a : Addr) : follow m (some a) 0 = ⟨[], some a⟩ := rfl

theorem follow_succ (m : Memory) (a : Addr) (budget : Nat) :
    follow m (some a) (budget + 1) =
      match Node.at? m a with
      | some n =>
        ⟨n :: (follow m n.next budget).nodes, (follow m n.next budget).broken⟩
      | none => ⟨[], some a⟩ := by
  rw [follow, followOnto]
  cases Node.at? m a with
  | none => rfl
  | some n => exact followOnto_eq m [n] n.next budget

theorem length_nodes_follow_le (m : Memory) (link : Option Addr) (budget : Nat) :
    (follow m link budget).nodes.length ≤ budget := by
  induction budget generalizing link with
  | zero => cases link <;> simp
  | succ budget ih =>
    cases link with
    | none => simp
    | some a =>
      rw [follow_succ]
      cases Node.at? m a with
      | none => simp
      | some n => simpa using ih n.next

theorem at?_of_mem_nodes {m : Memory} {link : Option Addr} {budget : Nat} {n : Node}
    (h : n ∈ (follow m link budget).nodes) : Node.at? m n.addr = some n := by
  induction budget generalizing link with
  | zero => cases link <;> simp at h
  | succ budget ih =>
    cases link with
    | none => simp at h
    | some a =>
      rw [follow_succ] at h
      cases ha : Node.at? m a with
      | none => simp [ha] at h
      | some k =>
        simp only [ha, List.mem_cons] at h
        rcases h with rfl | h
        · obtain ⟨rfl, _⟩ := Node.at?_eq_some_iff.1 ha
          exact ha
        · exact ih h

/-- What a reader of the walk is told: each block, then the fault if there is one. -/
def items (w : Walk) : List (Except Fault Node) :=
  w.nodes.map .ok ++ w.broken.toList.map fun a => .error (.brokenChain a)

/-- The sum, or the greatest number if that is more. -/
def addUpTo (a b : UInt32) : UInt32 :=
  if a.toNat + b.toNat < UInt32.size then a + b else 0xFFFFFFFF

theorem toNat_addUpTo (a b : UInt32) :
    (addUpTo a b).toNat = min (a.toNat + b.toNat) (UInt32.size - 1) := by
  unfold addUpTo
  split
  · next h =>
    rw [UInt32.toNat_add, Nat.mod_eq_of_lt h, Nat.min_eq_left (by omega)]
  · next h =>
    rw [Nat.min_eq_right (by omega)]
    rfl

def total (w : Walk) : UInt32 := w.nodes.foldl (fun sum n => addUpTo sum n.size) 0

def largest (w : Walk) : UInt32 := w.nodes.foldl (fun most n => max most n.size) 0

end Walk
end HeapWindow
