import HeapWindow.Walk

/-!
# Where a request fits

A request is met by the first node that is large enough. To take that node off the chain one has
to know the node that links to it, so a spot names both.
-/

namespace HeapWindow

/-- A free block and the one that links to it, if it is not the first. -/
structure Spot where
  before : Option Addr
  node : Node
  deriving DecidableEq

namespace Spot

/-- The first of the nodes with at least `need` bytes of payload. -/
def find? (need : UInt32) (before : Option Addr) : List Node → Option Spot
  | [] => none
  | n :: rest => if need ≤ n.size then some ⟨before, n⟩ else find? need (some n.addr) rest

theorem find?_eq_none_iff {need : UInt32} {before : Option Addr} {nodes : List Node} :
    find? need before nodes = none ↔ ∀ n ∈ nodes, n.size < need := by
  induction nodes generalizing before with
  | nil => simp [find?]
  | cons n nodes ih =>
    by_cases h : need ≤ n.size
    · simp [find?, h, UInt32.not_lt.2 h]
    · simp [find?, h, ih, UInt32.not_le.1 h]

/-- The spot is at the first node that is large enough, behind the last that is not. -/
theorem find?_eq_some_iff {need : UInt32} {before : Option Addr} {nodes : List Node}
    {spot : Spot} :
    find? need before nodes = some spot ↔
      ∃ front back, nodes = front ++ spot.node :: back ∧ (∀ n ∈ front, n.size < need) ∧
        need ≤ spot.node.size ∧
        spot.before = (front.getLast?.map fun n => n.addr).or before := by
  induction nodes generalizing before with
  | nil => simp [find?]
  | cons n nodes ih =>
    by_cases h : need ≤ n.size
    · simp only [find?, h, if_true, Option.some.injEq]
      constructor
      · rintro rfl
        exact ⟨[], nodes, rfl, by simp, h, by simp⟩
      · rintro ⟨front, back, he, hf, hs, hb⟩
        cases front with
        | nil =>
          obtain ⟨rfl, rfl⟩ := List.cons.inj he
          simp only [List.getLast?_nil, Option.map_none, Option.none_or] at hb
          rw [← hb]
        | cons k front =>
          obtain ⟨rfl, rfl⟩ := List.cons.inj he
          exact absurd h (UInt32.not_le.2 (hf _ (by simp)))
    · simp only [find?, h, if_false, ih]
      constructor
      · rintro ⟨front, back, rfl, hf, hs, hb⟩
        refine ⟨n :: front, back, rfl, ?_, hs, ?_⟩
        · simpa using ⟨UInt32.not_le.1 h, hf⟩
        · rw [hb]
          cases front <;> simp [List.getLast?_cons]
      · rintro ⟨front, back, he, hf, hs, hb⟩
        cases front with
        | nil =>
          obtain ⟨rfl, rfl⟩ := List.cons.inj he
          exact absurd hs h
        | cons k front =>
          obtain ⟨rfl, rfl⟩ := List.cons.inj he
          refine ⟨front, back, rfl, fun m hm => hf m (by simp [hm]), hs, ?_⟩
          rw [hb]
          cases front <;> simp [List.getLast?_cons]

end Spot
end HeapWindow
