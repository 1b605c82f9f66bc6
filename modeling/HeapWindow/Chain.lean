import HeapWindow.Walk

/-!
# Chains of blocks

What the links in memory say, apart from any way of following them. A walk with a budget sees
the whole of a chain exactly if the chain ends and is not longer than the budget.
-/

namespace HeapWindow
namespace Chain

open Rounding

/-- From `link` on there are just these blocks, each linked to the next and the last to none. -/
inductive Linked (m : Memory) : Option Addr → List Node → Prop
  | nil : Linked m none []
  | cons {n : Node} {nodes : List Node} (stored : n = Node.peek m n.addr) (inside : n.Inside m)
      (aligned : Aligned n.size) (later : Linked m n.next nodes) :
      Linked m (some n.addr) (n :: nodes)

/-- The link that is reached from `link` by way of `k` blocks, of whatever kind they are. -/
def linkAfter (m : Memory) (link : Option Addr) : Nat → Option Addr
  | 0 => link
  | k + 1 => (linkAfter m link k).bind fun a => (Header.peek m a).next

theorem linkAfter_succ (m : Memory) (link : Option Addr) (k : Nat) :
    linkAfter m link (k + 1) =
      linkAfter m (link.bind fun a => (Header.peek m a).next) k := by
  induction k with
  | zero => rfl
  | succ k ih => rw [linkAfter, ih]; rfl

theorem follow_eq_iff_linked {m : Memory} {link : Option Addr} {budget : Nat}
    {nodes : List Node} :
    Walk.follow m link budget = ⟨nodes, none⟩ ↔ Linked m link nodes ∧ nodes.length ≤ budget := by
  constructor
  · intro h
    induction budget generalizing link nodes with
    | zero =>
      cases link with
      | none =>
        obtain rfl : [] = nodes := by simpa using h
        exact ⟨.nil, Nat.le_refl _⟩
      | some a => simp at h
    | succ budget ih =>
      cases link with
      | none =>
        obtain rfl : [] = nodes := by simpa using h
        exact ⟨.nil, Nat.zero_le _⟩
      | some a =>
        rw [Walk.follow_succ] at h
        cases ha : Node.at? m a with
        | none => simp [ha] at h
        | some n =>
          simp only [ha, Walk.mk.injEq] at h
          obtain ⟨rfl, hb⟩ := h
          obtain ⟨rfl, hi, hs⟩ := Node.at?_eq_some_iff.1 ha
          have hw : Walk.follow m (Node.peek m a).next budget =
              ⟨(Walk.follow m (Node.peek m a).next budget).nodes, none⟩ := by rw [← hb]
          exact ⟨.cons rfl hi hs (ih hw).1, Nat.succ_le_succ (ih hw).2⟩
  · rintro ⟨hl, hn⟩
    induction hl generalizing budget with
    | nil => simp
    | @cons n nodes hp hi hs _ ih =>
      obtain ⟨budget, rfl⟩ : ∃ b, budget = b + 1 := ⟨budget - 1, by simp at hn; omega⟩
      have ha : Node.at? m n.addr = some n := Node.at?_eq_some_iff.2 ⟨hp, hi, hs⟩
      rw [Walk.follow_succ, ha]
      simp [ih (Nat.le_of_succ_le_succ hn)]

end Chain
end HeapWindow
