import HeapWindow.Proofs.Layout

/-!
# Release on a layout

A released block becomes the first free one; only its own link is written. A block that is free
already is found on the walk, whatever has become of it since it was handed out.
-/

namespace HeapWindow
namespace FirstFit

open Chain

variable {h : FirstFit} {free held : List Slot} {s : Slot} {p : Addr}

theorem ne_zero_of_payload (hp : p.toNat = s.addr + 8) : p ≠ 0 := by
  intro h₀
  rw [h₀, UInt32.toNat_zero] at hp
  omega

namespace Layout

theorem run_release (hl : h.Layout free (s :: held)) (hp : p.toNat = s.addr + 8) :
    ∃ h' e, (release p).run h = ⟨.ok (), h', [e]⟩ ∧ h'.Layout (s :: free) held ∧
      Memory.SameBut (fun x => s.addr + 4 ≤ x ∧ x < s.addr + 8) h.memory h'.memory := by
  obtain ⟨n, hblock, hn, rfl⟩ := (hl.present s (by simp)).blockOf hp
  have hi := (Node.at?_eq_some_iff.1 hn).2.1
  have hf := Memory.sameBut_putNext h.head hi.2.1
  have hne := hl.leads.link_ne_zero
  have hp₀ := ne_zero_of_payload hp
  have hperm : (free ++ n.slot :: held).Perm (n.slot :: (free ++ held)) := List.perm_middle
  have hapart := (hperm.pairwise_iff Slot.Apart.symm).1 hl.apart
  have hout : ∀ t ∈ free ++ held, ∀ x, t.addr ≤ x → x < t.addr + 8 →
      ¬ (n.addr.toNat + 4 ≤ x ∧ x < n.addr.toNat + 8) := by
    intro t ht x hlo hhi
    exact ((List.pairwise_cons.1 hapart).1 t ht).not_link hlo hhi
  refine ⟨h.pushed n.addr, .blockReleased n.addr, ?_, ⟨?_, ?_, ?_⟩, hf⟩
  · rw [FirstFit.run_release, if_neg hp₀, hblock]
  · exact Leads.past (n := ⟨⟨n.size, h.head⟩, n.addr⟩) (Node.at?_putNext hn hne)
      (hl.leads.frame hf fun t ht => hout t (List.mem_append_left _ ht))
  · intro t ht
    exact (hl.present t (by simp [ht])).frame hf (hout t (List.mem_append_right _ ht))
  · exact hapart

theorem any_walk_iff {n : Node} (hl : h.Layout free held) (hn : Node.at? h.memory n.addr = some n) :
    (h.walk.nodes.any fun k => k.addr == n.addr) = true ↔ n.slot ∈ free := by
  rw [List.any_eq_true, ← hl.pool_eq]
  constructor
  · rintro ⟨k, hk, he⟩
    have hk' := Walk.at?_of_mem_nodes hk
    rw [eq_of_beq he, hn] at hk'
    rw [Option.some.inj hk']
    exact List.mem_map_of_mem hk
  · intro hs
    obtain ⟨k, hk, he⟩ := List.mem_map.1 hs
    have hk' := Walk.at?_of_mem_nodes hk
    obtain rfl := Node.eq_of_slot hk' hn he
    exact ⟨k, hk, beq_self_eq_true _⟩

theorem run_releaseOnce (hl : h.Layout free (s :: held)) (hp : p.toNat = s.addr + 8) :
    (releaseOnce p).run h = (release p).run h := by
  obtain ⟨n, hblock, hn, rfl⟩ := (hl.present s (by simp)).blockOf hp
  have hfree : n.slot ∉ free := by
    intro hs
    have := (List.pairwise_append.1 hl.apart).2.2 _ hs n.slot (by simp)
    have hstop := n.slot.header_lt_stop
    rw [Slot.apart_iff] at this
    omega
  have hcheck : h.checkInUse p n.addr = .ok () := by
    have hany : ¬ (h.walk.nodes.any fun k => k.addr == n.addr) = true :=
      fun ha => hfree ((hl.any_walk_iff hn).1 ha)
    simp only [checkInUse, hany, hl.broken_walk]
    rfl
  rw [FirstFit.run_releaseOnce, hblock]
  simp only [hcheck]
  by_cases hp₀ : p = 0
  · rw [if_pos hp₀, FirstFit.run_release, if_pos hp₀]
  · rw [if_neg hp₀]

theorem run_releaseOnce_of_free (hl : h.Layout free held) (hs : s ∈ free)
    (hp : p.toNat = s.addr + 8) : (releaseOnce p).run h = ⟨.error (.alreadyFree p), h, []⟩ := by
  obtain ⟨n, hblock, hn, rfl⟩ := (hl.leads.in_of_mem hs).blockOf hp
  have hp₀ := ne_zero_of_payload hp
  have hcheck : h.checkInUse p n.addr = .error (.alreadyFree p) := by
    simp only [checkInUse, (hl.any_walk_iff hn).2 hs]
    rfl
  rw [FirstFit.run_releaseOnce, if_neg hp₀, hblock]
  simp only [hcheck]

end Layout
end FirstFit
end HeapWindow
