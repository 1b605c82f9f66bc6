import HeapWindow.Proofs.Partitions

/-!
# Giving back what is no longer held

Blocks are cut and never joined, so where a client was once given a block there is one for ever. A
client may therefore give back again, with care, any address that it was ever given: the block is
taken back if it is held, and the heap is left as it is if not.
-/

namespace HeapWindow
namespace Tenancy

variable {w : Window} {h : FirstFit} {t : Tenancy} {l : Ledger} {r : Request} {rs : List Request}
  {q : Addr}

namespace Follows

theorem releaseOnce_live (hf : Follows t l) (hq : q ∈ t.live) :
    ((FirstFit.releaseOnce q).run t.heap).result = .ok () ∧
      q ∉ (t.step (.releaseOnce q)).live ∧
      ∃ n ∈ (t.step (.releaseOnce q)).heap.walk.nodes, n.addr.toNat + 8 = q.toNat := by
  obtain ⟨s, hs⟩ := hf.find?_of_mem_live hq
  obtain ⟨h', e, -, hr, hf', -⟩ := hf.run_give hs
  have hr' : (Request.releaseOnce q).perform.run t.heap = ⟨.ok none, h', [e]⟩ := by
    rw [Request.perform, Action.run_map, hr]
    rfl
  rw [hr, step_of_none hr']
  refine ⟨rfl, hf.nodup_live.not_mem_erase, ?_⟩
  have hfree : s ∈ h'.pool := by
    rw [hf'.layout.pool_eq]
    exact List.mem_cons_self ..
  obtain ⟨n, hn, rfl⟩ := List.mem_map.1 hfree
  exact ⟨n, hn, (Slot.toNat_of_isAt (List.find?_some hs)).symm⟩

theorem wantsRoom_or_alreadyFree (hf : Follows t l) (hr : t.AllowsStale r) {fault : Fault}
    (ha : (r.perform.run t.heap).result = .error fault) :
    fault.WantsRoom ∨ ∃ q, fault = .alreadyFree q := by
  cases r with
  | allocate n =>
    have hn : t.Allows (.allocate n) := trivial
    exact Or.inl (hf.wantsRoom hn ha)
  | release p => exact hr.elim
  | releaseOnce p =>
    rw [(hf.step (Or.inr hr)).answer, Ledger.answer] at ha
    split at ha
    · exact Or.inr ⟨p, (Except.error.inj ha).symm⟩
    · cases ha
  | write a bytes =>
    have hw : t.Allows (.write a bytes) := hr
    exact Or.inl (hf.wantsRoom hw ha)

end Follows

/-- However often a client gives back with care what it was once given, only what it holds is taken
back, and the window stays divided into blocks. -/
theorem releaseOnce_of_issued (rs : List Request) (hw : FirstFit.Opens w h)
    (hrs : Run.Along step AllowsStale (fresh h) rs) :
    Partitions w ((fresh h).after rs) ∧
      (∀ q ∈ ((fresh h).after rs).issued,
        let t := (fresh h).after rs
        if q ∈ t.live then
          ((FirstFit.releaseOnce q).run t.heap).result = .ok () ∧
            q ∉ (t.step (.releaseOnce q)).live ∧
            ∃ n ∈ (t.step (.releaseOnce q)).heap.walk.nodes, n.addr.toNat + 8 = q.toNat
        else (FirstFit.releaseOnce q).run t.heap = ⟨.error (.alreadyFree q), t.heap, []⟩) ∧
      ∀ fault, .error fault ∈ (fresh h).answers rs →
        fault.WantsRoom ∨ ∃ q, fault = .alreadyFree q := by
  have hkeeps : ∀ t r, AllowsStale t r → Keeps t r := fun t r => Or.inr
  obtain ⟨l, hf, ht⟩ := exists_follows hw (hrs.mono hkeeps)
  refine ⟨hf.partitions ht, fun q hq => ?_, fun fault hfault => ?_⟩
  · by_cases hlive : q ∈ ((fresh h).after rs).live
    · simp only [if_pos hlive]
      exact hf.releaseOnce_live hlive
    · obtain ⟨s, hs, hat⟩ := hf.issued q hq
      simp only [if_neg hlive]
      exact hf.run_stale hs hat hlive
  · obtain ⟨front, r, hfront, hr, he⟩ := exists_of_mem_answers hrs hfault
    obtain ⟨k, hk, -⟩ := exists_follows hw (hfront.mono hkeeps)
    exact hk.wantsRoom_or_alreadyFree hr he

/-- The block is given back twice, handed out again for fewer bytes, and given back once more. -/
theorem releaseOnce_of_ten_words :
    let t := (fresh .onTenWords).after [.allocate 24, .releaseOnce 0x1008, .releaseOnce 0x1008,
      .allocate 4, .allocate 4, .releaseOnce 0x1008]
    Partitions ⟨0x1000, 40⟩ t ∧
      (FirstFit.releaseOnce 0x1008).run t.heap = ⟨.error (.alreadyFree 0x1008), t.heap, []⟩ ∧
      ((FirstFit.releaseOnce 0x1014).run t.heap).result = .ok () := by
  obtain ⟨hparts, hissued, -⟩ := releaseOnce_of_issued [.allocate 24, .releaseOnce 0x1008,
    .releaseOnce 0x1008, .allocate 4, .allocate 4, .releaseOnce 0x1008] FirstFit.opens_onTenWords
    (by decide +kernel)
  have hstale := hissued 0x1008 (by decide +kernel)
  have hlive := hissued 0x1014 (by decide +kernel)
  dsimp only at hstale hlive
  rw [if_neg (by decide +kernel)] at hstale
  rw [if_pos (by decide +kernel)] at hlive
  exact ⟨hparts, hstale, hlive.1⟩

end Tenancy
end HeapWindow
