import HeapWindow.Audit
import HeapWindow.Proofs.Layout

/-!
# What an audit accepts

In address order blocks that overlap no neighbour overlap no block at all, so that an audit accepts
a heap exactly if its free blocks can all be reached and do not overlap.
-/

namespace HeapWindow
namespace FirstFit

open Chain

variable {h : FirstFit} {free held : List Slot} {nodes : List Node} {k : Nat}

theorem firstOverlap?_eq_none_iff :
    firstOverlap? nodes = none ↔ (nodes.map Node.extent).Pairwise Extent.Before := by
  induction nodes with
  | nil => simp [firstOverlap?]
  | cons a nodes ih =>
    cases nodes with
    | nil => simp [firstOverlap?]
    | cons b rest =>
      have hb : b.addr.toNat ≤ b.stop := by
        rw [Node.stop_eq]
        omega
      by_cases hlt : b.addr.toNat < a.stop
      · have hn : ¬ a.extent.Before b.extent := Nat.not_le.2 hlt
        simp [firstOverlap?, hlt, hn]
      · have hab : a.extent.Before b.extent := Nat.not_lt.1 hlt
        rw [firstOverlap?, if_neg hlt, ih]
        refine ⟨fun h => List.pairwise_cons.2 ⟨fun e he => ?_, h⟩, fun h => h.of_cons⟩
        -- All later blocks begin behind `b`, and so behind `a`.
        rcases List.mem_cons.1 he with rfl | he
        · exact hab
        · exact Nat.le_trans hab (Nat.le_trans hb ((List.pairwise_cons.1 h).1 e he))

theorem sorted_inAddressOrder (nodes : List Node) :
    ((inAddressOrder nodes).map Node.extent).Pairwise fun e f => e.start ≤ f.start := by
  have htrans : ∀ a b c : Node, decide (a.addr ≤ b.addr) → decide (b.addr ≤ c.addr) →
      decide (a.addr ≤ c.addr) := by
    simp only [decide_eq_true_eq, UInt32.le_iff_toNat_le]
    omega
  have htotal : ∀ a b : Node, (decide (a.addr ≤ b.addr) || decide (b.addr ≤ a.addr)) = true := by
    simp only [Bool.or_eq_true, decide_eq_true_eq, UInt32.le_iff_toNat_le]
    omega
  have hs := List.pairwise_mergeSort htrans htotal nodes
  simp only [decide_eq_true_eq, UInt32.le_iff_toNat_le] at hs
  exact List.pairwise_map.2 hs

theorem firstOverlap?_inAddressOrder :
    firstOverlap? (inAddressOrder nodes) = none ↔
      (nodes.map Node.slot).Pairwise Slot.Apart := by
  have hp : ((inAddressOrder nodes).map Node.extent).Perm (nodes.map Node.extent) :=
    (List.mergeSort_perm nodes _).map _
  rw [firstOverlap?_eq_none_iff, Node.pairwise_apart_slot,
    ← hp.pairwise_iff fun h => Extent.Apart.symm h]
  constructor
  · exact fun h => h.imp Or.inl
  · refine fun h => Extent.before_of_sorted (sorted_inAddressOrder nodes) h fun e he => ?_
    obtain ⟨n, -, rfl⟩ := List.mem_map.1 he
    show n.addr.toNat < n.stop
    rw [Node.stop_eq]
    omega

theorem audit_of_walk (hw : h.walk = ⟨nodes, none⟩) :
    h.audit = .ok k ↔ (nodes.map Node.slot).Pairwise Slot.Apart ∧ nodes.length = k := by
  rw [audit, hw, ← firstOverlap?_inAddressOrder]
  cases firstOverlap? (inAddressOrder nodes) <;> simp

theorem broken_of_audit (h₁ : h.audit = .ok k) : h.walk = ⟨h.walk.nodes, none⟩ := by
  cases hb : h.walk.broken with
  | none => rw [← hb]
  | some a => simp [audit, hb] at h₁

/-- An audit is a layout of the heap in which no block is held. -/
theorem layout_of_audit (h₁ : h.audit = .ok k) :
    h.Layout h.pool [] ∧ h.pool.length = k := by
  have hw := broken_of_audit h₁
  obtain ⟨ha, hk⟩ := (audit_of_walk hw).1 h₁
  exact ⟨layout_of_walk hw ha, (List.length_map _).trans hk⟩

theorem Layout.audit_eq (hl : h.Layout free held) : h.audit = .ok free.length := by
  obtain ⟨nodes, hw, rfl⟩ := hl.walk_eq
  refine (audit_of_walk hw).2 ⟨?_, (List.length_map _).symm⟩
  exact (List.pairwise_append.1 hl.apart).1

end FirstFit
end HeapWindow
