import HeapWindow.Chain
import HeapWindow.Proofs.Slots

/-!
# Segments of a chain

A segment leads from one link by way of some blocks to another link. Segments are put together at
the link between them, they are not touched by writes outside the headers of their blocks, and
changing the last link of a segment changes where it leads to and nothing else.
-/

namespace HeapWindow
namespace Chain

open Rounding

variable {m m' : Memory} {link mid last : Option Addr} {slots front back : List Slot} {s : Slot}

/-- By way of blocks in these slots the links lead from `link` to `last`. -/
inductive Leads (m : Memory) : Option Addr → List Slot → Option Addr → Prop
  | here {link : Option Addr} : Leads m link [] link
  | past {n : Node} {slots : List Slot} {last : Option Addr}
      (found : Node.at? m n.addr = some n) (later : Leads m n.next slots last) :
      Leads m (some n.addr) (n.slot :: slots) last

theorem leads_append :
    Leads m link (front ++ back) last ↔ ∃ mid, Leads m link front mid ∧ Leads m mid back last := by
  constructor
  · intro h
    induction front generalizing link with
    | nil => exact ⟨link, .here, h⟩
    | cons s front ih =>
      cases h with
      | past found later =>
        obtain ⟨mid, hf, hb⟩ := ih later
        exact ⟨mid, .past found hf, hb⟩
  · rintro ⟨mid, hf, hb⟩
    induction hf with
    | here => exact hb
    | past found _ ih => exact .past found (ih hb)

theorem Leads.uncons {n : Node} (h : Leads m link (n.slot :: slots) last)
    (hn : Node.at? m n.addr = some n) : link = some n.addr ∧ Leads m n.next slots last := by
  generalize hs : n.slot :: slots = all at h
  cases h with
  | here => cases hs
  | @past k _ _ found later =>
    obtain ⟨hk, rfl⟩ := List.cons.inj hs
    obtain rfl := Node.eq_of_slot hn found hk
    exact ⟨rfl, later⟩

theorem Leads.in_of_mem (h : Leads m link slots last) (hs : s ∈ slots) : s.In m := by
  induction h with
  | here => cases hs
  | @past n slots last found _ ih =>
    rcases List.mem_cons.1 hs with rfl | hs
    · exact ⟨n, found, rfl⟩
    · exact ih hs

theorem Leads.frame {S : Nat → Prop} (h : Leads m link slots last) (hf : Memory.SameBut S m m')
    (hs : ∀ s ∈ slots, ∀ x, s.addr ≤ x → x < s.addr + 8 → ¬ S x) : Leads m' link slots last := by
  induction h with
  | here => exact .here
  | @past n slots last found _ ih =>
    have hn : Node.at? m' n.addr = some n := by rw [hf.at? (hs n.slot (by simp)), found]
    exact .past hn (ih fun s h => hs s (by simp [h]))

theorem Leads.link_ne_zero (h : Leads m link slots none) : link ≠ some 0 := by
  cases h with
  | here => simp
  | @past n slots _ found _ =>
    intro h₀
    have hpos := (Slot.in_of_at? found).addr_pos
    rw [Node.addr_slot, Option.some.inj h₀] at hpos
    exact Nat.lt_irrefl _ hpos

theorem leads_iff_linked :
    Leads m link slots none ↔ ∃ nodes, Linked m link nodes ∧ nodes.map Node.slot = slots := by
  constructor
  · intro h
    generalize hl : (none : Option Addr) = last at h
    induction h with
    | here => exact ⟨[], hl ▸ .nil, rfl⟩
    | @past n slots last found _ ih =>
      obtain ⟨nodes, hn, rfl⟩ := ih hl
      obtain ⟨he, hi, hs⟩ := Node.at?_eq_some_iff.1 found
      exact ⟨n :: nodes, .cons he hi hs hn, rfl⟩
  · rintro ⟨nodes, h, rfl⟩
    induction h with
    | nil => exact .here
    | cons he hi hs _ ih => exact .past (Node.at?_eq_some_iff.2 ⟨he, hi, hs⟩) ih

end Chain

namespace FirstFit

open Chain

/-- Only the link of the last block of a segment is changed when it is led elsewhere. -/
theorem leads_linked {h : FirstFit} {front : List Slot} {before link next : Option Addr}
    (hl : Leads h.memory h.head front link)
    (ha : front.Pairwise Slot.Apart)
    (hb : before.map UInt32.toNat = front.getLast?.map Slot.addr) (hn : next ≠ some 0) :
    Leads (h.linked before next).memory (h.linked before next).head front next ∧
      Memory.SameBut (fun x => ∃ s ∈ front, s.addr + 4 ≤ x ∧ x < s.addr + 8) h.memory
        (h.linked before next).memory := by
  rcases List.eq_nil_or_concat front with rfl | ⟨front, s, rfl⟩
  · obtain rfl : before = none := by simpa using hb
    exact ⟨.here, .refl _ _⟩
  · rw [List.concat_eq_append] at *
    obtain ⟨mid, hfront, hs⟩ := leads_append.1 hl
    cases hs with
    | @past n _ _ found _ =>
      obtain rfl : before = some n.addr := by
        cases before with
        | none => simp at hb
        | some a => simpa [UInt32.toNat_inj] using hb
      have hi := (Node.at?_eq_some_iff.1 found).2.1
      have hf := Memory.sameBut_putNext next hi.2.1
      have hapart := (List.pairwise_append.1 ha).2.2
      refine ⟨leads_append.2 ⟨some n.addr, hfront.frame hf ?_, ?_⟩, hf.mono ?_⟩
      · intro t ht x hlo hhi
        have := hapart t ht n.slot (by simp)
        simp only [Slot.apart_iff, Slot.stop, Node.addr_slot] at this
        omega
      · exact Leads.past (n := ⟨⟨n.size, next⟩, n.addr⟩) (Node.at?_putNext found hn) .here
      · intro x hx
        exact ⟨n.slot, by simp, hx⟩

end FirstFit
end HeapWindow
