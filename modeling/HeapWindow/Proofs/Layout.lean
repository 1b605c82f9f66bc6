import HeapWindow.Proofs.Segments

/-!
# Layouts

A layout of a heap is a list of free blocks, which are the ones on its chain in this order, and a
list of other blocks. No two blocks overlap, so that a write to one of them can be seen at no
other. This is all that an operation needs: what it does to memory is what it does to the lists.
-/

namespace HeapWindow
namespace FirstFit

open Rounding Chain

variable {h : FirstFit} {free held front back : List Slot} {s taken : Slot} {n r : Node}
  {p : Addr} {need : UInt32}

def pool (h : FirstFit) : List Slot := h.walk.nodes.map Node.slot

structure Layout (h : FirstFit) (free held : List Slot) : Prop where
  leads : Leads h.memory h.head free none
  present : ∀ s ∈ held, s.In h.memory
  apart : (free ++ held).Pairwise Slot.Apart

theorem perm_take (front back held : List Slot) (s : Slot) :
    (front ++ s :: back ++ held).Perm (s :: (front ++ back ++ held)) :=
  List.perm_middle.append_right held

namespace Layout

theorem stored (hl : h.Layout free held) : ∀ s ∈ free ++ held, s.In h.memory := by
  intro s hs
  rcases List.mem_append.1 hs with hs | hs
  · exact hl.leads.in_of_mem hs
  · exact hl.present s hs

theorem perm_held {held' : List Slot} (hl : h.Layout free held) (hp : held.Perm held') :
    h.Layout free held' where
  leads := hl.leads
  present s hs := hl.present s (hp.mem_iff.2 hs)
  apart := ((hp.append_left free).pairwise_iff Slot.Apart.symm).1 hl.apart

/-- Blocks that do not overlap are not more than memory has room for. -/
theorem length_le (hl : h.Layout free held) : 8 * (free ++ held).length ≤ h.memory.bytes.size := by
  have hp : ((free ++ held).map Slot.extent).Pairwise Extent.Apart :=
    List.pairwise_map.2 hl.apart
  have hk : ∀ e ∈ (free ++ held).map Slot.extent, h.memory.start.toNat ≤ e.start ∧
      e.start + 8 ≤ e.stop ∧ e.stop ≤ h.memory.start.toNat + h.memory.bytes.size := by
    intro e he
    obtain ⟨s, hs, rfl⟩ := List.mem_map.1 he
    have hb := (hl.stored s hs).bounds
    exact ⟨hb.1, s.header_lt_stop, hb.2⟩
  have hroom := Extent.room_of_apart hp (by omega) (by decide) hk
  rw [List.length_map] at hroom
  omega

theorem walk_eq (hl : h.Layout free held) :
    ∃ nodes, h.walk = ⟨nodes, none⟩ ∧ nodes.map Node.slot = free := by
  obtain ⟨nodes, hn, rfl⟩ := leads_iff_linked.1 hl.leads
  have hlen := hl.length_le
  refine ⟨nodes, follow_eq_iff_linked.2 ⟨hn, ?_⟩, rfl⟩
  rw [capacity_eq]
  simp only [List.length_append, List.length_map] at hlen
  omega

theorem pool_eq (hl : h.Layout free held) : h.pool = free := by
  obtain ⟨nodes, hw, hn⟩ := hl.walk_eq
  rw [pool, hw, hn]

theorem broken_walk (hl : h.Layout free held) : h.walk.broken = none := by
  obtain ⟨nodes, hw, -⟩ := hl.walk_eq
  rw [hw]

theorem exists_payloadSize (hl : h.Layout free held) (hs : s ∈ free ++ held)
    (hp : p.toNat = s.addr + 8) : ∃ size, h.payloadSize p = .ok size ∧ size.toNat = s.size := by
  obtain ⟨n, hblock, -, rfl⟩ := (hl.stored s hs).blockOf hp
  refine ⟨n.size, ?_, rfl⟩
  rw [payloadSize, hblock]
  rfl

theorem payloadSize_eq {h' : FirstFit} {free' held' : List Slot} (hl : h.Layout free held)
    (hl' : h'.Layout free' held') (hs : s ∈ free ++ held) (hs' : s ∈ free' ++ held')
    (hp : p.toNat = s.addr + 8) : h.payloadSize p = h'.payloadSize p := by
  obtain ⟨size, hsize, hz⟩ := hl.exists_payloadSize hs hp
  obtain ⟨size', hsize', hz'⟩ := hl'.exists_payloadSize hs' hp
  rw [hsize, hsize', UInt32.toNat_inj.1 (hz.trans hz'.symm)]

theorem frame {m : Memory} {S : Nat → Prop} (hl : h.Layout free held)
    (hf : Memory.SameBut S h.memory m)
    (hs : ∀ s ∈ free ++ held, ∀ x, s.addr ≤ x → x < s.addr + 8 → ¬ S x) :
    (FirstFit.mk m h.head).Layout free held where
  leads := hl.leads.frame hf fun s h => hs s (List.mem_append_left _ h)
  present s h := (hl.present s h).frame hf (hs s (List.mem_append_right _ h))
  apart := hl.apart

end Layout

theorem layout_of_walk {nodes : List Node} (hw : h.walk = ⟨nodes, none⟩)
    (ha : (nodes.map Node.slot).Pairwise Slot.Apart) : h.Layout (nodes.map Node.slot) [] where
  leads := leads_iff_linked.2 ⟨nodes, (follow_eq_iff_linked.1 hw).1, rfl⟩
  present s hs := absurd hs List.not_mem_nil
  apart := by rwa [List.append_nil]

end FirstFit
end HeapWindow
