import HeapWindow.Proofs.Allocation
import HeapWindow.Proofs.Ledger
import HeapWindow.Proofs.Release
import Mathlib.Data.List.Basic
import Mathlib.Data.List.Pairwise

/-!
# Tenancies that follow a ledger

A tenancy follows a ledger if its heap is laid out as the ledger says and its client holds just
the blocks of the ledger, in the same order. Every address that was ever handed out is one at
which a block of the ledger begins.
-/

namespace HeapWindow

open Rounding

theorem Slot.apart_of_ne {slots : List Slot} {s u : Slot} (h : slots.Pairwise Apart)
    (hs : s ∈ slots) (hu : u ∈ slots) (hne : s ≠ u) : s.Apart u := by
  have : Std.Symm Apart := ⟨fun _ _ => Apart.symm⟩
  exact h.forall hs hu hne

namespace FirstFit.Layout

variable {h : FirstFit} {free held : List Slot} {s u : Slot}

theorem apart_of_ne (hl : h.Layout free held) (hs : s ∈ free ++ held) (hu : u ∈ free ++ held)
    (hne : s ≠ u) : s.Apart u := Slot.apart_of_ne hl.apart hs hu hne

theorem header_outside (hl : h.Layout free held) (hs : s ∈ free ++ held) (hu : u ∈ free ++ held)
    {x : Nat} (hlo : u.addr ≤ x) (hhi : x < u.addr + 8) : ¬ (s.addr + 8 ≤ x ∧ x < s.stop) := by
  intro hx
  by_cases he : s = u
  · subst he
    omega
  · have hstop := u.header_lt_stop
    exact (hl.apart_of_ne hs hu he).outside hlo (by omega) ⟨by omega, hx.2⟩

theorem link_outside (hl : h.Layout free held) (hs : s ∈ free ++ held) (hu : u ∈ free ++ held)
    {x : Nat} (hlo : s.addr ≤ x) (hhi : x < s.stop) (hlink : ¬ (s.addr + 4 ≤ x ∧ x < s.addr + 8)) :
    ¬ (u.addr + 4 ≤ x ∧ x < u.addr + 8) := by
  intro hx
  by_cases he : u = s
  · subst he
    exact hlink hx
  · have hstop := u.header_lt_stop
    exact (hl.apart_of_ne hu hs he).outside hlo hhi ⟨by omega, by omega⟩

end FirstFit.Layout

namespace Tenancy

variable {t : Tenancy} {l : Ledger} {h' : FirstFit} {r : Request} {p : Addr} {s : Slot}

structure Follows (t : Tenancy) (l : Ledger) : Prop where
  layout : t.heap.Layout l.free l.held
  live : t.live.map UInt32.toNat = l.held.map fun s => s.addr + 8
  issued : ∀ q ∈ t.issued, ∃ s ∈ l.blocks, s.isAt q

namespace Follows

theorem mem_live_iff (hf : Follows t l) : p ∈ t.live ↔ ∃ s ∈ l.held, s.isAt p := by
  have hp : p ∈ t.live ↔ p.toNat ∈ t.live.map UInt32.toNat := by simp [UInt32.toNat_inj]
  rw [hp, hf.live, List.mem_map]
  simp [Slot.isAt]

theorem not_isAt_zero (s : Slot) : ¬ s.isAt 0 := by simp [Slot.isAt]

theorem find?_of_mem_live (hf : Follows t l) (hp : p ∈ t.live) :
    ∃ s, l.held.find? (Slot.isAt p) = some s := by
  obtain ⟨s, hs, hat⟩ := hf.mem_live_iff.1 hp
  exact Option.isSome_iff_exists.1 (List.find?_isSome.2 ⟨s, hs, hat⟩)

theorem same (hf : Follows t l) (hl : h'.Layout l.free l.held) :
    Follows ⟨h', t.live, t.issued⟩ l where
  layout := hl
  live := hf.live
  issued := hf.issued

theorem take {free : List Slot} {taken : Slot} (hf : Follows t l)
    (hl : h'.Layout free (taken :: l.held)) (hp : p.toNat = taken.addr + 8)
    (hkeep : ∀ s ∈ l.blocks, ∃ u ∈ free ++ taken :: l.held, u.addr = s.addr) :
    Follows ⟨h', p :: t.live, p :: t.issued⟩ ⟨free, taken :: l.held⟩ where
  layout := hl
  live := by simp [hp, hf.live]
  issued q hq := by
    rcases List.mem_cons.1 hq with rfl | hq
    · exact ⟨taken, by simp [Ledger.blocks], Slot.isAt_iff.2 hp⟩
    · obtain ⟨s, hs, hat⟩ := hf.issued q hq
      obtain ⟨u, hu, he⟩ := hkeep s hs
      exact ⟨u, hu, Slot.isAt_of_addr he hat⟩

theorem give (hf : Follows t l) (hs : l.held.find? (Slot.isAt p) = some s)
    (hl : h'.Layout (s :: l.free) (l.held.eraseP (Slot.isAt p))) :
    Follows ⟨h', t.live.erase p, t.issued⟩ ⟨s :: l.free, l.held.eraseP (Slot.isAt p)⟩ where
  layout := hl
  live := by
    have hinj : Function.Injective UInt32.toNat := fun _ _ => UInt32.toNat_inj.1
    rw [List.map_erase hinj, hf.live, List.erase_eq_eraseP', List.eraseP_map]
    rfl
  issued q hq := by
    obtain ⟨u, hu, hat⟩ := hf.issued q hq
    exact ⟨u, (Ledger.perm_giveBack hs).mem_iff.1 hu, hat⟩

theorem map_slot_held (hf : Follows t l) : t.held.map Node.slot = l.held := by
  have hstored := hf.layout.present
  have hlive := hf.live
  generalize l.held = slots at hstored hlive
  rw [held]
  generalize t.live = live at hlive
  induction live generalizing slots with
  | nil => rw [List.map_nil, List.map_nil, List.map_eq_nil_iff.1 hlive.symm]
  | cons p live ih =>
    obtain ⟨s, slots', rfl, hs, hlive⟩ := List.map_eq_cons_iff.1 hlive.symm
    rw [List.map_cons, List.map_cons, ih slots' (fun u hu => hstored u (by simp [hu])) hlive.symm,
      (hstored s (by simp)).slot_peek hs.symm]

theorem map_slot_blocks (hf : Follows t l) : t.blocks.map Node.slot = l.blocks := by
  rw [blocks, List.map_append, hf.map_slot_held, Ledger.blocks, ← hf.layout.pool_eq]
  rfl

end Follows
end Tenancy
end HeapWindow
