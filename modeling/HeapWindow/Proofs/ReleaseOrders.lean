import HeapWindow.Proofs.Returns
import HeapWindow.Proofs.Thresholds

/-!
# Orders of release

Two heaps in which the same blocks are free tell their clients the same, in whatever order the blocks
are linked: sums and maxima do not depend on it, an audit sorts, and a request is granted if some
block is large enough. So a client that gives back several blocks may do so in any order. The
order decides which block is handed out next, and which words the links are.
-/

namespace HeapWindow

theorem Pool.largest_perm {pool pool' : List Slot} (h : pool.Perm pool') :
    largest pool = largest pool' := by
  have hle : ∀ k, largest pool ≤ k ↔ largest pool' ≤ k := by
    intro k
    rw [largest_le_iff, largest_le_iff]
    simp only [h.mem_iff]
  exact Nat.le_antisymm ((hle _).2 (Nat.le_refl _)) ((hle _).1 (Nat.le_refl _))

namespace FirstFit

variable {h h' : FirstFit}

theorem toNat_totalFree (h : FirstFit) :
    h.totalFree.toNat = min (h.pool.map Slot.size).sum (UInt32.size - 1) := by
  rw [totalFree, Walk.toNat_total, pool, List.map_map]
  rfl

theorem totalFree_eq (hp : h.pool.Perm h'.pool) : h.totalFree = h'.totalFree := by
  rw [← UInt32.toNat_inj, toNat_totalFree, toNat_totalFree, (hp.map Slot.size).sum_nat]

theorem largestFree_eq (hp : h.pool.Perm h'.pool) : h.largestFree = h'.largestFree := by
  rw [← UInt32.toNat_inj, largestFree, largestFree, toNat_largest, toNat_largest]
  exact Pool.largest_perm hp

theorem succeeds_iff_exists_mem_pool {n : UInt32} :
    (allocate n).Succeeds h ↔ ∃ s ∈ h.pool, n.toNat ≤ s.size := by
  simp [allocate_succeeds_iff, pool, UInt32.le_iff_toNat_le]

theorem succeeds_congr (hp : h.pool.Perm h'.pool) (n : UInt32) :
    (allocate n).Succeeds h ↔ (allocate n).Succeeds h' := by
  rw [succeeds_iff_exists_mem_pool, succeeds_iff_exists_mem_pool]
  simp only [hp.mem_iff]

theorem result_eq_error_congr (hp : h.pool.Perm h'.pool) (hb : h.walk.broken = h'.walk.broken)
    (n : UInt32) (fault : Fault) :
    ((allocate n).run h).result = .error fault ↔ ((allocate n).run h').result = .error fault := by
  have hr : h.refusal n = h'.refusal n := by rw [refusal, refusal, hb, largestFree_eq hp]
  rw [result_eq_error_iff, result_eq_error_iff, succeeds_congr hp, hr]

end FirstFit

namespace Tenancy

variable {w : Window} {h : FirstFit} {t u : Tenancy} {l k : Ledger} {rs back back' : List Request}
  {ps qs : List Addr} {given given' held held' : List Slot}

/-- Nothing that the two heaps tell depends on more than which blocks are free and which are held. -/
structure AlikeUpToOrder (t u : Tenancy) : Prop where
  free : t.heap.pool.Perm u.heap.pool
  totalFree : t.heap.totalFree = u.heap.totalFree
  largestFree : t.heap.largestFree = u.heap.largestFree
  audit : t.heap.audit = u.heap.audit
  live : t.live.Perm u.live
  payloadSize : ∀ p ∈ t.live, t.heap.payloadSize p = u.heap.payloadSize p
  granted : ∀ n, (FirstFit.allocate n).Succeeds t.heap ↔ (FirstFit.allocate n).Succeeds u.heap
  refused : ∀ n fault, ((FirstFit.allocate n).run t.heap).result = .error fault ↔
    ((FirstFit.allocate n).run u.heap).result = .error fault

theorem Follows.alikeUpToOrder (hf : Follows t l) (hk : Follows u k) (hfree : l.free.Perm k.free)
    (hheld : l.held.Perm k.held) : AlikeUpToOrder t u := by
  have hpool : t.heap.pool.Perm u.heap.pool := by rwa [hf.layout.pool_eq, hk.layout.pool_eq]
  have hbroken : t.heap.walk.broken = u.heap.walk.broken :=
    hf.layout.broken_walk.trans hk.layout.broken_walk.symm
  exact {
    free := hpool
    totalFree := FirstFit.totalFree_eq hpool
    largestFree := FirstFit.largestFree_eq hpool
    audit := by rw [hf.layout.audit_eq, hk.layout.audit_eq, hfree.length_eq]
    live := hf.perm_live hk hheld
    payloadSize := fun p => hf.payloadSize_eq hk hheld
    granted := FirstFit.succeeds_congr hpool
    refused := FirstFit.result_eq_error_congr hpool hbroken }

theorem Returns.alikeUpToOrder (hf : Follows t l) (hr : Returns t l ps back given held)
    (hr' : Returns t l qs back' given' held') (hperm : ps.Perm qs) :
    AlikeUpToOrder (t.after back) (t.after back') := by
  obtain ⟨hgiven, hheld⟩ := hr.perm hf hr' hperm
  refine hr.follows.alikeUpToOrder hr'.follows (List.Perm.append_right l.free ?_) hheld
  exact (List.reverse_perm given).trans (hgiven.trans (List.reverse_perm given').symm)

/-- Blocks that the client holds can be given back in any order, each with care or without. All of
them are taken back, and afterwards the heaps differ in the order of the free blocks and in the
links in front of the payloads that were given back, but in nothing else that can be asked of them. -/
theorem release_order_irrelevant (hw : FirstFit.Opens w h)
    (hrs : Run.Along step Allows (fresh h) rs) (hlive : ∀ p ∈ ps, p ∈ ((fresh h).after rs).live)
    (hnodup : ps.Nodup) (hperm : ps.Perm qs) (hback : List.Forall₂ Request.GivesBack ps back)
    (hback' : List.Forall₂ Request.GivesBack qs back') :
    let t := (fresh h).after rs
    t.answers back = ps.map (fun _ => .ok none) ∧ t.answers back' = qs.map (fun _ => .ok none) ∧
      AlikeUpToOrder (t.after back) (t.after back') ∧
      (∀ p, p ∈ (t.after back).live ↔ p ∈ t.live ∧ p ∉ ps) ∧
      Memory.SameBut (InLinks ps) (t.after back).heap.memory (t.after back').heap.memory := by
  obtain ⟨l, hf, -⟩ := exists_follows hw (hrs.mono fun _ _ => Or.inl)
  obtain ⟨given, held, hr⟩ := hf.returns hback hlive hnodup
  obtain ⟨given', held', hr'⟩ :=
    hf.returns hback' (fun p hp => hlive p (hperm.mem_iff.2 hp)) (hperm.nodup_iff.1 hnodup)
  intro t
  refine ⟨hr.answers, hr'.answers, hr.alikeUpToOrder hf hr' hperm, fun p => hr.mem_live_iff hf, ?_⟩
  exact hr.frame.symm.trans (hr'.frame.mono fun x => InLinks.perm hperm.symm)

/-- Two blocks are given back in either order: the free blocks are linked in different orders. -/
theorem release_order_irrelevant_on_ten_words :
    let t := (fresh .onTenWords).after [.allocate 5, .allocate 0]
    let u := t.after [.release 0x1008, .releaseOnce 0x1018]
    let v := t.after [.releaseOnce 0x1018, .releaseOnce 0x1008]
    u.heap.head ≠ v.heap.head ∧ AlikeUpToOrder u v := by
  have hlive : ((fresh .onTenWords).after [.allocate 5, .allocate 0]).live = [0x1018, 0x1008] := by
    decide +kernel
  have hmem : ∀ p ∈ [0x1008, 0x1018],
      p ∈ ((fresh .onTenWords).after [.allocate 5, .allocate 0]).live := by
    rw [hlive]
    simp
  have hback : List.Forall₂ Request.GivesBack [0x1008, 0x1018]
      [.release 0x1008, .releaseOnce 0x1018] := .cons (Or.inl rfl) (.cons (Or.inr rfl) .nil)
  have hback' : List.Forall₂ Request.GivesBack [0x1018, 0x1008]
      [.releaseOnce 0x1018, .releaseOnce 0x1008] := .cons (Or.inr rfl) (.cons (Or.inr rfl) .nil)
  obtain ⟨-, -, halike, -⟩ := release_order_irrelevant FirstFit.opens_onTenWords
    (by decide +kernel) hmem (by decide) (by decide) hback hback'
  exact ⟨by decide +kernel, halike⟩

end Tenancy
end HeapWindow
