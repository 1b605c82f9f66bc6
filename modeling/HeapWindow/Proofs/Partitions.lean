import HeapWindow.Proofs.Auditing
import HeapWindow.Proofs.Openings
import Mathlib.Data.List.Nodup

/-!
# Partitions of the window

While the client keeps to what it was given, every whole word of the window belongs to one block,
and every block is free or held but not both. A heap in this state passes its audit, and turns down
nothing but requests that it has no room for.
-/

namespace HeapWindow

def Fault.WantsRoom : Fault → Prop
  | .requestTooLarge | .outOfMemory .. => True
  | _ => False

theorem Ledger.wantsRoom_of_answer {l : Ledger} {n : UInt32} {fault : Fault}
    (ha : l.answer (.allocate n) = .error fault) : fault.WantsRoom := by
  rw [answer] at ha
  split at ha
  · cases ha
    trivial
  · split at ha
    · cases ha
    · cases ha
      trivial

namespace Tenancy

variable {w : Window} {h : FirstFit} {t : Tenancy} {l : Ledger} {r : Request} {rs : List Request}
  {p : Addr}

/-- The window is divided into the blocks that are free and those that the client holds. -/
structure Partitions (w : Window) (t : Tenancy) : Prop where
  tile : Extent.Tile w.start.toNat (t.blocks.map Node.extent)
    (w.start.toNat + w.size.toNat / 4 * 4)
  distinct : (t.blocks.map fun n => n.addr).Nodup
  whole : ∀ n ∈ t.blocks, n.size.toNat % 4 = 0
  live : t.live.Nodup
  audit : t.heap.audit = .ok t.heap.walk.nodes.length

namespace Follows

theorem nodup_addr (hf : Follows t l) : (t.blocks.map fun n => n.addr).Nodup := by
  have ha : (t.blocks.map Node.slot).Pairwise Slot.Apart := by
    rw [hf.map_slot_blocks]
    exact hf.layout.apart
  rw [List.pairwise_map] at ha
  refine List.pairwise_map.2 (ha.imp fun {n k} h he => ?_)
  have hn := n.slot.header_lt_stop
  have hk := k.slot.header_lt_stop
  rw [Slot.apart_iff, Node.addr_slot, Node.addr_slot, he] at h
  simp only [Node.addr_slot, he] at hn hk
  omega

theorem nodup_live (hf : Follows t l) : t.live.Nodup := by
  have ha := (List.pairwise_append.1 hf.layout.apart).2.1
  have hn : (l.held.map fun s => s.addr + 8).Nodup := by
    refine List.pairwise_map.2 (ha.imp fun {s u} h he => ?_)
    have hs := s.header_lt_stop
    have hu := u.header_lt_stop
    rw [Slot.apart_iff] at h
    omega
  rw [← hf.live] at hn
  exact List.Nodup.of_map UInt32.toNat hn

theorem partitions (hf : Follows t l)
    (ht : l.Tiles w.start.toNat (w.start.toNat + w.size.toNat / 4 * 4)) : Partitions w t where
  tile := by
    have he : t.blocks.map Node.extent = (t.blocks.map Node.slot).map Slot.extent := by
      rw [List.map_map]
      rfl
    rw [he, hf.map_slot_blocks]
    exact ht
  distinct := hf.nodup_addr
  whole n hn := by
    have hs : n.slot ∈ l.blocks := by
      rw [← hf.map_slot_blocks]
      exact List.mem_map_of_mem hn
    exact (hf.layout.stored _ hs).whole.2
  live := hf.nodup_live
  audit := by
    rw [hf.layout.audit_eq, ← hf.layout.pool_eq]
    exact congrArg _ (List.length_map _)

theorem wantsRoom (hf : Follows t l) (hr : t.Allows r) {fault : Fault}
    (ha : (r.perform.run t.heap).result = .error fault) : fault.WantsRoom := by
  rw [(hf.step (Or.inl hr)).answer] at ha
  cases r with
  | allocate n => exact Ledger.wantsRoom_of_answer ha
  | release p => cases ha
  | releaseOnce p =>
    have hany : l.free.any (Slot.isAt p) = false := by
      rcases hr with rfl | hp
      · exact List.any_eq_false.2 fun s _ => not_isAt_zero s
      · obtain ⟨s, hs, hat⟩ := hf.mem_live_iff.1 hp
        exact hf.any_free_of_held hs hat
    rw [Ledger.answer, hany] at ha
    cases ha
  | write a bytes => cases ha

end Follows

/-- Whatever a client does that keeps to what it was given, the window is divided into blocks, and
no request is refused but for want of room. -/
theorem partitions_of_allowed (hw : FirstFit.Opens w h)
    (hrs : Run.Along step Allows (fresh h) rs) :
    Partitions w ((fresh h).after rs) ∧
      ∀ fault, .error fault ∈ (fresh h).answers rs → fault.WantsRoom := by
  have hkeeps : ∀ t r, Allows t r → Keeps t r := fun t r => Or.inl
  refine ⟨?_, fun fault hfault => ?_⟩
  · obtain ⟨l, hf, ht⟩ := exists_follows hw (hrs.mono hkeeps)
    exact hf.partitions ht
  · obtain ⟨front, r, hfront, hr, he⟩ := exists_of_mem_answers hrs hfault
    obtain ⟨l, hf, -⟩ := exists_follows hw (hfront.mono hkeeps)
    exact hf.wantsRoom hr he

/-- The run cuts a block twice, once for no bytes at all, and gives the middle part back. -/
theorem partitions_of_ten_words :
    Partitions ⟨0x1000, 40⟩ ((fresh .onTenWords).after
      [.allocate 5, .allocate 0, .write 0x1009 [1, 2], .release 0x1018, .releaseOnce 0]) :=
  (partitions_of_allowed FirstFit.opens_onTenWords (by decide +kernel)).1

end Tenancy
end HeapWindow
