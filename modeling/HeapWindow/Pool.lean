/-!
# Pools

First fit without memory: a pool is the list of free blocks, each with the address of its header
and the size of its payload, over numbers that do not wrap.
-/

namespace HeapWindow

structure Slot where
  addr : Nat
  size : Nat
  deriving DecidableEq

namespace Pool

/-- The blocks that a block becomes when `need` bytes of it are asked for: the one handed out, and
what is left of it if that has room for a header and eight bytes more. -/
def cut (s : Slot) (need : Nat) : Slot × Option Slot :=
  if need + 16 ≤ s.size then
    (⟨s.addr, need⟩, some ⟨s.addr + 8 + need, s.size - need - 8⟩)
  else (s, none)

/-- Cuts the first block that is large enough. What is left of it keeps its place in the list. -/
def allocate (need : Nat) : List Slot → Option (Slot × List Slot)
  | [] => none
  | s :: pool =>
    if need ≤ s.size then
      some ((cut s need).1, (cut s need).2.toList ++ pool)
    else (allocate need pool).map fun (taken, pool) => (taken, s :: pool)

def largest (pool : List Slot) : Nat := pool.foldl (fun most s => max most s.size) 0

theorem allocate_eq_none_iff {need : Nat} {pool : List Slot} :
    allocate need pool = none ↔ ∀ s ∈ pool, s.size < need := by
  induction pool with
  | nil => simp [allocate]
  | cons s pool ih =>
    by_cases h : need ≤ s.size
    · simp [allocate, h, Nat.not_lt.2 h]
    · simp [allocate, h, ih, Nat.not_le.1 h]

theorem allocate_cons_of_cut {s : Slot} {need : Nat} {pool : List Slot} (h : need + 16 ≤ s.size) :
    allocate need (s :: pool) =
      some (⟨s.addr, need⟩, ⟨s.addr + 8 + need, s.size - need - 8⟩ :: pool) := by
  rw [allocate, if_pos (by omega), cut, if_pos h]
  rfl

theorem allocate_cons_of_whole {s : Slot} {need : Nat} {pool : List Slot} (hle : need ≤ s.size)
    (hlt : s.size < need + 16) : allocate need (s :: pool) = some (s, pool) := by
  rw [allocate, if_pos hle, cut, if_neg (Nat.not_le.2 hlt)]
  rfl

theorem largest_le_iff {pool : List Slot} {k : Nat} :
    largest pool ≤ k ↔ ∀ s ∈ pool, s.size ≤ k := by
  have hfold : ∀ (pool : List Slot) (a : Nat),
      pool.foldl (fun most s => max most s.size) a ≤ k ↔ a ≤ k ∧ ∀ s ∈ pool, s.size ≤ k := by
    intro pool
    induction pool with
    | nil => simp
    | cons s pool ih =>
      intro a
      rw [List.foldl_cons, ih, Nat.max_le, List.forall_mem_cons, and_assoc]
  simp [largest, hfold]

theorem exists_size_eq_largest {pool : List Slot} (h : pool ≠ []) :
    ∃ s ∈ pool, s.size = largest pool := by
  -- Otherwise all blocks would be smaller than the largest, and so would it be itself.
  apply Classical.byContradiction
  intro hn
  obtain ⟨t, ht⟩ := List.exists_mem_of_ne_nil pool h
  have hle : ∀ s ∈ pool, s.size ≤ largest pool := largest_le_iff.1 (Nat.le_refl _)
  have hlt : ∀ s ∈ pool, s.size < largest pool := fun s hs =>
    Nat.lt_of_le_of_ne (hle s hs) fun he => hn ⟨s, hs, he⟩
  have hless : largest pool ≤ largest pool - 1 :=
    largest_le_iff.2 fun s hs => Nat.le_sub_one_of_lt (hlt s hs)
  have := hlt t ht
  omega

/-- What is handed out and what is left are as long as the block was. -/
theorem cut_size {s : Slot} {need : Nat} (h : need ≤ s.size) :
    need ≤ (cut s need).1.size ∧ (cut s need).1.size < need + 16 ∧
      (cut s need).1.size + 8 + (cut s need).2.elim 0 (fun r => r.size + 8) = s.size + 8 := by
  unfold cut
  split
  · simp only [Option.elim_some]
    omega
  · next hlt => exact ⟨h, Nat.not_le.1 hlt, rfl⟩

end Pool
end HeapWindow
