import HeapWindow.Proofs.Layout

/-!
# Allocation on a layout

A request on a heap with a layout is a request to the pool of its free blocks. What is written are
headers in the block that is taken and the link of the block in front of it, so no byte outside
the free blocks changes.
-/

namespace HeapWindow
namespace FirstFit

open Rounding Chain

variable {h : FirstFit} {free free' held front back : List Slot} {s taken : Slot} {n r : Node}
  {need size : UInt32} {before : Option Addr}

@[simp] theorem head_cutAt (h : FirstFit) (a : Addr) (need : UInt32) (r : Node) :
    (h.cutAt a need r).head = h.head := by
  simp only [cutAt]

theorem toNat_max (a b : UInt32) : (max a b).toNat = max a.toNat b.toNat := by
  simp only [max, UInt32.le_iff_toNat_le]
  split <;> rfl

theorem toNat_largest (w : Walk) : w.largest.toNat = Pool.largest (w.nodes.map Node.slot) := by
  have hfold : ∀ (nodes : List Node) (a : UInt32),
      (nodes.foldl (fun most n => max most n.size) a).toNat =
        (nodes.map Node.slot).foldl (fun most s => max most s.size) a.toNat := by
    intro nodes
    induction nodes with
    | nil => exact fun _ => rfl
    | cons n nodes ih =>
      intro a
      rw [List.foldl_cons, ih, toNat_max]
      rfl
  exact hfold w.nodes 0

theorem run_allocate_tooLarge {size : UInt32} (hn : roundUp? size = none) :
    (allocate size).run h = ⟨.error .requestTooLarge, h, []⟩ := by
  rw [run_allocate, hn]

theorem sameBut_cutAt (hn : n.Inside h.memory) (hr : n.rest? need = some r) :
    Memory.SameBut (fun x => (n.addr.toNat ≤ x ∧ x < n.addr.toNat + 4) ∨
        (r.addr.toNat ≤ x ∧ x < r.addr.toNat + 8)) h.memory (h.cutAt n.addr need r).memory := by
  have hf₁ := Memory.sameBut_putHeader r.toHeader (Node.holds_rest hn hr)
  have hf₂ := Memory.sameBut_putSize (m := h.memory.put r.addr r.encode.toList) need
    (Memory.holds_put.2 hn.2.1)
  exact (hf₁.mono fun x => Or.inr).trans (hf₂.mono fun x => Or.inl)

theorem cutAt_spec (hn : Node.at? h.memory n.addr = some n) (hr : n.rest? need = some r)
    (hneed : Aligned need) :
    Node.at? (h.cutAt n.addr need r).memory n.addr = some ⟨⟨need, n.next⟩, n.addr⟩ ∧
      Node.at? (h.cutAt n.addr need r).memory r.addr = some r ∧
      Memory.SameBut (fun x => n.addr.toNat ≤ x ∧ x < n.stop) h.memory
        (h.cutAt n.addr need r).memory := by
  obtain ⟨-, hi, hs⟩ := Node.at?_eq_some_iff.1 hn
  obtain ⟨haddr, hstop, hnext, -⟩ := Node.rest?_eq_some hi hr
  obtain ⟨hsize, hle⟩ := Node.size_of_rest? hi hr
  have hir : r.Inside h.memory := by
    refine ⟨aligned_iff.2 ?_, Node.holds_rest hi hr, by rw [hstop]; exact hi.2.2⟩
    have h₁ := aligned_iff.1 hi.1
    have h₂ := aligned_iff.1 hneed
    omega
  have hsr : Aligned r.size := by
    have h₁ := aligned_iff.1 hs
    have h₂ := aligned_iff.1 hneed
    exact aligned_iff.2 (by omega)
  have hnr : r.next ≠ some 0 := by rw [hnext]; exact Node.next_ne_zero hn
  have hf₁ := Memory.sameBut_putHeader r.toHeader hir.2.1
  have hn₁ : Node.at? (h.memory.put r.addr r.encode.toList) n.addr = some n := by
    rw [hf₁.at? fun x _ _ => by omega, hn]
  have hf₂ := Memory.sameBut_putSize need (Node.at?_eq_some_iff.1 hn₁).2.1.2.1
  refine ⟨Node.at?_putSize hn₁ hneed (by omega), ?_, ?_⟩
  · exact (hf₂.at? fun x _ _ => by omega).trans (Node.at?_putHeader hir hsr hnr)
  · rw [Node.stop_eq] at *
    exact (sameBut_cutAt hi hr).mono fun x _ => by omega

namespace Layout

theorem apart_of_mem {t : Slot} (hl : h.Layout (front ++ back) held) (hs : s ∈ front)
    (ht : t ∈ back ++ held) : s.Apart t := by
  have ha := hl.apart
  rw [List.append_assoc] at ha
  exact (List.pairwise_append.1 ha).2.2 s hs t ht

theorem pairwise_front (hl : h.Layout (front ++ back) held) : front.Pairwise Slot.Apart :=
  (List.pairwise_append.1 (List.pairwise_append.1 hl.apart).1).1

theorem perm_exchange (front between back held : List Slot) (s : Slot) :
    (front ++ s :: back ++ (between ++ held)).Perm (front ++ (between ++ back) ++ s :: held) := by
  have hmid : (back ++ between ++ held).Perm (between ++ back ++ held) :=
    List.perm_append_comm.append_right held
  have hall := (hmid.append_left front).cons s
  simp only [← List.append_assoc] at hall
  have htake := perm_take front back (between ++ held) s
  simp only [← List.append_assoc] at htake ⊢
  exact (htake.trans hall).trans List.perm_middle.symm

theorem linked {next : Option Addr} (between : List Slot)
    (hl : h.Layout (front ++ n.slot :: back) (between ++ held))
    (hn : Node.at? h.memory n.addr = some n) (hm : Leads h.memory next between n.next)
    (hne : next ≠ some 0) (hb : before.map UInt32.toNat = front.getLast?.map Slot.addr) :
    (h.linked before next).Layout (front ++ (between ++ back)) (n.slot :: held) ∧
      Memory.SameBut (Slot.Within front) h.memory (h.linked before next).memory := by
  obtain ⟨mid, hfront, hrest⟩ := leads_append.1 hl.leads
  obtain ⟨rfl, hback⟩ := hrest.uncons hn
  obtain ⟨hlinked, hf⟩ := leads_linked hfront hl.pairwise_front hb hne
  have hw : Memory.SameBut (Slot.Within front) h.memory (h.linked before next).memory := by
    refine hf.mono fun x ⟨s, hs, hlo, hhi⟩ => ⟨s, hs, by omega, ?_⟩
    have := s.header_lt_stop
    omega
  have hother : ∀ t ∈ n.slot :: back ++ (between ++ held), ∀ x, t.addr ≤ x → x < t.addr + 8 →
      ¬ Slot.Within front x := by
    intro t ht x hlo hhi
    have hstop := t.header_lt_stop
    exact Slot.not_within_of_apart (fun s hs => (hl.apart_of_mem hs ht).symm) hlo (by omega)
  refine ⟨⟨?_, ?_, ?_⟩, hw⟩
  · have hbetween := hm.frame hw fun t ht => hother t (by simp [ht])
    have hback := hback.frame hw fun t ht => hother t (by simp [ht])
    exact leads_append.2 ⟨_, hlinked, leads_append.2 ⟨_, hbetween, hback⟩⟩
  · intro t ht
    rcases List.mem_cons.1 ht with rfl | ht
    · exact (Slot.in_of_at? hn).frame hw (hother _ (by simp))
    · exact (hl.present t (by simp [ht])).frame hw (hother t (by simp [ht]))
  · have hperm := perm_exchange front between back held n.slot
    exact (hperm.pairwise_iff Slot.Apart.symm).1 hl.apart

/-- Before the chain is changed the rest of a block that was cut is a block on its own. -/
theorem cutAt (hl : h.Layout (front ++ n.slot :: back) held)
    (hn : Node.at? h.memory n.addr = some n) (hr : n.rest? need = some r) (hneed : Aligned need) :
    (h.cutAt n.addr need r).Layout (front ++ ⟨n.addr.toNat, need.toNat⟩ :: back)
      ([r.slot] ++ held) := by
  obtain ⟨hn', hr', hf⟩ := cutAt_spec hn hr hneed
  obtain ⟨haddr, hstop, -, -⟩ := Node.rest?_eq_some (Node.at?_eq_some_iff.1 hn).2.1 hr
  have hapart := ((perm_take front back held n.slot).pairwise_iff Slot.Apart.symm).1 hl.apart
  have hout : ∀ t ∈ front ++ back ++ held, ∀ x, t.addr ≤ x → x < t.addr + 8 →
      ¬ (n.addr.toNat ≤ x ∧ x < n.stop) := by
    intro t ht x hlo hhi
    have hstop := t.header_lt_stop
    exact ((List.pairwise_cons.1 hapart).1 t ht).outside hlo (by omega)
  refine ⟨?_, ?_, ?_⟩
  · obtain ⟨mid, hfront, hrest⟩ := leads_append.1 hl.leads
    obtain ⟨rfl, hback⟩ := hrest.uncons hn
    have hfront := hfront.frame hf fun t ht => hout t (by simp [ht])
    have hback := hback.frame hf fun t ht => hout t (by simp [ht])
    have hpast : Leads (h.cutAt n.addr need r).memory (some n.addr)
        (⟨n.addr.toNat, need.toNat⟩ :: back) none :=
      Leads.past (n := ⟨⟨need, n.next⟩, n.addr⟩) hn' hback
    rw [head_cutAt]
    exact leads_append.2 ⟨some n.addr, hfront, hpast⟩
  · intro t ht
    rcases List.mem_append.1 ht with ht | ht
    · obtain rfl := List.mem_singleton.1 ht
      exact Slot.in_of_at? hr'
    · exact (hl.present t ht).frame hf (hout t (by simp [ht]))
  · have h₁ : (⟨n.addr.toNat, need.toNat⟩ :: r.slot :: (front ++ back ++ held)).Pairwise
        Slot.Apart :=
      Slot.apart_cut hapart (Nat.le_refl _) (Nat.le_of_eq haddr.symm) (Nat.le_of_eq hstop)
    have h₂ : (front ++ ⟨n.addr.toNat, need.toNat⟩ :: back ++ ([r.slot] ++ held)).Perm
        (⟨n.addr.toNat, need.toNat⟩ :: r.slot :: (front ++ back ++ held)) :=
      (perm_take front back _ _).trans (List.perm_middle.cons _)
    exact (h₂.pairwise_iff Slot.Apart.symm).2 h₁

theorem linked_cutAt (hl : h.Layout (front ++ n.slot :: back) held)
    (hn : Node.at? h.memory n.addr = some n) (hr : n.rest? need = some r) (hneed : Aligned need)
    (hb : before.map UInt32.toNat = front.getLast?.map Slot.addr) :
    ((h.cutAt n.addr need r).linked before (some r.addr)).Layout (front ++ r.slot :: back)
        (⟨n.addr.toNat, need.toNat⟩ :: held) ∧
      Memory.SameBut (Slot.Within (front ++ n.slot :: back)) h.memory
        ((h.cutAt n.addr need r).linked before (some r.addr)).memory := by
  obtain ⟨hn', hr', hf⟩ := cutAt_spec hn hr hneed
  obtain ⟨haddr, -, hnext, -⟩ := Node.rest?_eq_some (Node.at?_eq_some_iff.1 hn).2.1 hr
  have hne : some r.addr ≠ some 0 := by
    intro he
    rw [Option.some.inj he, UInt32.toNat_zero] at haddr
    omega
  have hm : Leads (h.cutAt n.addr need r).memory (some r.addr) [r.slot] n.next := by
    rw [← hnext]
    exact .past hr' .here
  have hcut := hl.cutAt hn hr hneed
  obtain ⟨hl', hf'⟩ := Layout.linked (n := ⟨⟨need, n.next⟩, n.addr⟩) [r.slot] hcut hn' hm hne hb
  refine ⟨hl', (hf.mono ?_).trans (hf'.mono ?_)⟩
  · exact fun x hx => ⟨n.slot, by simp, hx⟩
  · exact fun x ⟨s, hs, hx⟩ => ⟨s, by simp [hs], hx⟩

theorem exists_spot (hl : h.Layout free held)
    (ha : Pool.allocate need.toNat free = some (taken, free')) :
    ∃ front n back before, free = front ++ n.slot :: back ∧
      Node.at? h.memory n.addr = some n ∧
      before.map UInt32.toNat = front.getLast?.map Slot.addr ∧
      Spot.find? need none h.walk.nodes = some ⟨before, n⟩ ∧
      taken = (Pool.cut n.slot need.toNat).1 ∧
      free' = front ++ (Pool.cut n.slot need.toNat).2.toList ++ back := by
  obtain ⟨front, s, back, hfree, hf, hs, htaken, hrest⟩ := Pool.allocate_eq_some_iff.1 ha
  have hnodes := hl.pool_eq
  rw [pool, hfree, List.map_eq_append_iff] at hnodes
  obtain ⟨fs, rest, hw, rfl, hnodes⟩ := hnodes
  obtain ⟨n, bs, rfl, rfl, rfl⟩ := List.map_eq_cons_iff.1 hnodes
  have hn : Node.at? h.memory n.addr = some n := Walk.at?_of_mem_nodes (by rw [← walk, hw]; simp)
  refine ⟨fs.map Node.slot, n, bs.map Node.slot, fs.getLast?.map fun n => n.addr, hfree, hn, ?_,
    ?_, htaken, hrest⟩
  · rw [List.getLast?_map, Option.map_map, Option.map_map]
    rfl
  · refine Spot.find?_eq_some_iff.2 ⟨fs, bs, hw, fun k hk => ?_, ?_, (Option.or_none ..).symm⟩
    · exact UInt32.lt_iff_toNat_lt.2 (hf k.slot (List.mem_map_of_mem hk))
    · exact UInt32.le_iff_toNat_le.2 hs

/-- A request that the pool can meet is met, and the layout is then the pool's. -/
theorem run_allocate (hl : h.Layout free held) (hneed : roundUp? size = some need)
    (ha : Pool.allocate need.toNat free = some (taken, free')) :
    ∃ p h' e, (allocate size).run h = ⟨.ok p, h', [e]⟩ ∧ p.toNat = taken.addr + 8 ∧
      h'.Layout free' (taken :: held) ∧
      Memory.SameBut (Slot.Within free) h.memory h'.memory := by
  obtain ⟨front, n, back, before, rfl, hn, hb, hspot, rfl, rfl⟩ := hl.exists_spot ha
  have hi := (Node.at?_eq_some_iff.1 hn).2.1
  have hholds := (inside_of_find? hspot).2
  have hp := hi.toNat_payload
  cases hr : n.rest? need with
  | none =>
    obtain ⟨hl', hf⟩ := Layout.linked [] hl hn .here (Node.next_ne_zero hn) hb
    refine ⟨Header.payload n.addr, h.linked before n.next, .blockTaken n.addr n.size, ?_, ?_, ?_,
      hf.mono ?_⟩
    · rw [FirstFit.run_allocate, hneed]
      simp only [hspot]
      exact run_take_of_none hholds hr
    · rw [hp, Node.cut_slot_of_none hr]
      rfl
    · simpa [Node.cut_slot_of_none hr] using hl'
    · exact fun x ⟨s, hs, hx⟩ => ⟨s, by simp [hs], hx⟩
  | some r =>
    obtain ⟨hl', hf⟩ := hl.linked_cutAt hn hr (aligned_of_roundUp? hneed) hb
    refine ⟨Header.payload n.addr, (h.cutAt n.addr need r).linked before (some r.addr),
      .blockSplit n.addr need r.addr r.size, ?_, ?_, ?_, hf⟩
    · rw [FirstFit.run_allocate, hneed]
      simp only [hspot]
      exact run_take_of_some hi hholds hr
    · rw [hp, Node.cut_slot_of_some hi hr]
    · simpa [Node.cut_slot_of_some hi hr] using hl'

theorem run_allocate_none (hl : h.Layout free held) (hneed : roundUp? size = some need)
    (ha : Pool.allocate need.toNat free = none) :
    (allocate size).run h =
      ⟨.error (.outOfMemory need h.walk.largest), h, [.chainFull need h.walk.largest]⟩ := by
  have hnone : Spot.find? need none h.walk.nodes = none := by
    refine Spot.find?_eq_none_iff.2 fun n hn => UInt32.lt_iff_toNat_lt.2 ?_
    rw [← hl.pool_eq] at ha
    exact Pool.allocate_eq_none_iff.1 ha n.slot (List.mem_map_of_mem hn)
  rw [FirstFit.run_allocate, hneed]
  simp only [hnone, hl.broken_walk]

end Layout
end FirstFit
end HeapWindow
