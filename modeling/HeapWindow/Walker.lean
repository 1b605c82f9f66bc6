import HeapWindow.FirstFit

/-!
# Walks block by block

A walk can be taken one block at a time, by a walker that knows the link to go on with and how many
blocks it may still meet. It can be asked any number of times. It tells what a walk that is taken
at once tells its reader, and nothing from then on.
-/

namespace HeapWindow

open Rounding

structure Walker where
  /-- Where to go on, if there was no end yet. -/
  link : Option Addr
  /-- How many blocks may still be met. -/
  left : UInt32
  deriving DecidableEq

namespace Walker

/-- What the walker tells when it is asked, and what becomes of it. -/
def next (m : Memory) (w : Walker) : Option (Except Fault Node) × Walker :=
  match w.link with
  | none => (none, w)
  | some a =>
    if w.left = 0 ∨ ¬ Aligned a then
      (some (.error (.brokenChain a)), { w with link := none })
    else
      let left := w.left - 1
      match Header.read m a with
      | .error _ => (some (.error (.brokenChain a)), ⟨none, left⟩)
      | .ok k =>
        if ¬ Aligned k.size ∨ m.stop.toNat < k.stop a then
          (some (.error (.brokenChain a)), ⟨none, left⟩)
        else (some (.ok ⟨k, a⟩), ⟨k.next, left⟩)

/-- What the walker tells when it has been asked `i` times before. -/
def told (m : Memory) : Walker → Nat → Option (Except Fault Node)
  | w, 0 => (w.next m).1
  | w, i + 1 => told m (w.next m).2 i

variable {m : Memory} {a : Addr} {left : UInt32} {n : Node}

@[simp] theorem next_none (m : Memory) (left : UInt32) :
    next m ⟨none, left⟩ = (none, ⟨none, left⟩) := rfl

theorem next_zero (m : Memory) (a : Addr) :
    next m ⟨some a, 0⟩ = (some (.error (.brokenChain a)), ⟨none, 0⟩) := rfl

theorem next_of_at? (hleft : left ≠ 0) (hn : Node.at? m a = some n) :
    next m ⟨some a, left⟩ = (some (.ok n), ⟨n.next, left - 1⟩) := by
  obtain ⟨rfl, ⟨ha, hm, hstop⟩, hs⟩ := Node.at?_eq_some_iff.1 hn
  rw [Node.addr_peek] at ha hm
  have hgo : ¬ (left = 0 ∨ ¬ Aligned a) := not_or.2 ⟨hleft, not_not_intro ha⟩
  have hgood : ¬ (¬ Aligned (Header.peek m a).size ∨ m.stop.toNat < (Header.peek m a).stop a) :=
    not_or.2 ⟨not_not_intro hs, Nat.not_lt.2 hstop⟩
  simp only [next, if_neg hgo, Header.read_eq, if_pos hm, if_neg hgood]
  rfl

theorem next_of_at?_eq_none (left : UInt32) (hn : Node.at? m a = none) :
    ∃ left', next m ⟨some a, left⟩ = (some (.error (.brokenChain a)), ⟨none, left'⟩) := by
  by_cases hstay : left = 0 ∨ ¬ Aligned a
  · exact ⟨left, by simp only [next, if_pos hstay]⟩
  · refine ⟨left - 1, ?_⟩
    by_cases hm : m.Holds a 8
    · have ha : Aligned a := Decidable.not_not.1 (not_or.1 hstay).2
      -- The header is in memory, so that it must be its size that does not do.
      have hbad : ¬ Aligned (Header.peek m a).size ∨ m.stop.toNat < (Header.peek m a).stop a := by
        refine Decidable.or_iff_not_imp_left.2 fun hs => Nat.lt_of_not_le fun hstop => ?_
        have hat := Node.at?_eq_some_iff.2 ⟨rfl, ⟨ha, hm, hstop⟩, Decidable.not_not.1 hs⟩
        rw [hn] at hat
        cases hat
      simp only [next, if_neg hstay, Header.read_eq, if_pos hm, if_pos hbad]
    · simp only [next, if_neg hstay, Header.read_eq, if_neg hm]

def ahead (m : Memory) (w : Walker) : Walk := .follow m w.link w.left.toNat

theorem ahead_none (m : Memory) (left : UInt32) : ahead m ⟨none, left⟩ = ⟨[], none⟩ :=
  Walk.follow_none m left.toNat

theorem ahead_of_at?_eq_none (left : UInt32) (hn : Node.at? m a = none) :
    ahead m ⟨some a, left⟩ = ⟨[], some a⟩ := by
  rw [ahead]
  cases left.toNat with
  | zero => rfl
  | succ k => rw [Walk.follow_succ, hn]

theorem ahead_of_at? (hleft : left ≠ 0) (hn : Node.at? m a = some n) :
    (ahead m ⟨some a, left⟩).items = .ok n :: (ahead m ⟨n.next, left - 1⟩).items := by
  have hk : left.toNat = (left - 1).toNat + 1 := by
    have hpos : left.toNat ≠ 0 := fun h₀ => hleft (UInt32.toNat_inj.1 h₀)
    have hone : (1 : UInt32).toNat = 1 := rfl
    rw [UInt32.toNat_sub_of_le _ _ (UInt32.le_iff_toNat_le.2 (by omega))]
    omega
  simp only [ahead, hk, Walk.follow_succ, hn]
  rfl

theorem items_ahead (m : Memory) (w : Walker) :
    (w.next m).1 = (w.ahead m).items.head? ∧
      ((w.next m).2.ahead m).items = (w.ahead m).items.tail := by
  obtain ⟨link, left⟩ := w
  cases link with
  | none =>
    rw [next_none, ahead_none]
    exact ⟨rfl, rfl⟩
  | some a =>
    cases hn : Node.at? m a with
    | none =>
      obtain ⟨left', hnext⟩ := next_of_at?_eq_none left hn
      rw [hnext, ahead_of_at?_eq_none left hn, ahead_none]
      exact ⟨rfl, rfl⟩
    | some n =>
      by_cases hleft : left = 0
      · subst hleft
        rw [next_zero, ahead_none]
        exact ⟨rfl, rfl⟩
      · rw [next_of_at? hleft hn, ahead_of_at? hleft hn]
        exact ⟨rfl, rfl⟩

/-- A walker tells one after the other what the walk from there tells at once. -/
theorem told_eq (m : Memory) (w : Walker) (i : Nat) : w.told m i = (w.ahead m).items[i]? := by
  induction i generalizing w with
  | zero => rw [told, (items_ahead m w).1, List.head?_eq_getElem?]
  | succ i ih => rw [told, ih, (items_ahead m w).2, List.getElem?_tail]

end Walker

namespace FirstFit

def walker (h : FirstFit) : Walker := ⟨h.head, h.memory.size / Header.byteSize⟩

def told (h : FirstFit) (i : Nat) : Option (Except Fault Node) := h.walker.told h.memory i

theorem told_eq (h : FirstFit) (i : Nat) : h.told i = h.walk.items[i]? :=
  Walker.told_eq h.memory h.walker i

end FirstFit

end HeapWindow
