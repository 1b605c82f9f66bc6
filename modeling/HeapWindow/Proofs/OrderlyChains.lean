import HeapWindow.Proofs.Auditing

/-!
# Orderly chains

What an audit is there to find is said here of the words in memory, not of a walk: where each link
leads, where the blocks lie, and that no two of them overlap. An audit accepts just the heaps whose
links are in this order. The budget of a walk is never the reason to refuse one, since blocks that
do not overlap are not more than memory has room for.
-/

namespace HeapWindow
namespace Chain

open Rounding

variable {m : Memory} {first : Option Addr} {a : Addr} {addrs : List Addr} {nodes : List Node}

/-- There are blocks at just these addresses, in the order of the links from `first` on. -/
structure Orderly (m : Memory) (first : Option Addr) (addrs : List Addr) : Prop where
  first : addrs.head? = first
  /-- The link stored at each address is the next of them, and zero at the last. -/
  link : ∀ i a, addrs[i]? = some a →
    m.readWord (Header.linkAddr a) = .ok (addrs[i + 1]?.getD 0)
  aligned : ∀ a ∈ addrs, Aligned a
  inside : ∀ a ∈ addrs, m.start.toNat ≤ a.toNat ∧
    (Node.peek m a).stop ≤ m.start.toNat + m.bytes.size
  whole : ∀ a ∈ addrs, (Header.peek m a).size.toNat % 4 = 0
  apart : (addrs.map fun a => (Node.peek m a).extent).Pairwise Extent.Apart

theorem readWord_link (h : m.Holds a 8) :
    m.readWord (Header.linkAddr a) = .ok (Header.linkWord (Header.peek m a).next) := by
  rw [Header.peek_eq h, Memory.readWord, Memory.load, if_pos (Header.holds_linkAddr h),
    Header.linkWord_ofLinkWord]
  rfl

theorem next_eq_of_linkWord {next : Option Addr} (h₀ : next ≠ some 0)
    (h : Header.linkWord (Header.peek m a).next = next.getD 0) : (Header.peek m a).next = next := by
  have hn : (Header.peek m a).next = Header.ofLinkWord (next.getD 0) := by
    rw [← h, Header.peek, Header.decode]
    simp only [Header.linkWord_ofLinkWord]
  rw [hn]
  cases next with
  | none => rfl
  | some b =>
    have hb : b ≠ 0 := fun e => h₀ (by rw [e])
    simp [Header.ofLinkWord, hb]

namespace Orderly

theorem at? (h : Orderly m first addrs) (ha : a ∈ addrs) :
    Node.at? m a = some (Node.peek m a) := by
  obtain ⟨hlo, hhi⟩ := h.inside a ha
  have hw := h.whole a ha
  rw [Node.stop_eq, Node.addr_peek] at hhi
  refine Node.at?_eq_some_iff.2 ⟨rfl, ⟨h.aligned a ha, Memory.holds_iff.2 ⟨hlo, ?_⟩, ?_⟩,
    aligned_iff.2 hw⟩
  · rw [Memory.toNat_stop, Node.addr_peek]
    omega
  · rw [Memory.toNat_stop, Node.stop_eq, Node.addr_peek]
    exact hhi

theorem ne_zero (h : Orderly m first addrs) (ha : a ∈ addrs) : a ≠ 0 := by
  rintro rfl
  exact Nat.lt_irrefl _ (Slot.in_of_at? (h.at? ha)).addr_pos

theorem next (h : Orderly m first (a :: addrs)) : (Header.peek m a).next = addrs.head? := by
  have hm : m.Holds a 8 := (Node.at?_eq_some_iff.1 (h.at? (List.mem_cons_self ..))).2.1.2.1
  have hl := h.link 0 a rfl
  rw [readWord_link hm, List.getElem?_cons_succ, ← List.head?_eq_getElem?] at hl
  refine next_eq_of_linkWord (fun h₀ => ?_) (Except.ok.inj hl)
  exact h.ne_zero (List.mem_cons_of_mem _ (List.mem_of_head? h₀)) rfl

theorem tail (h : Orderly m first (a :: addrs)) : Orderly m addrs.head? addrs where
  first := rfl
  link i b hb := h.link (i + 1) b hb
  aligned b hb := h.aligned b (List.mem_cons_of_mem _ hb)
  inside b hb := h.inside b (List.mem_cons_of_mem _ hb)
  whole b hb := h.whole b (List.mem_cons_of_mem _ hb)
  apart := (List.pairwise_cons.1 h.apart).2

theorem linked (h : Orderly m first addrs) : Linked m first (addrs.map (Node.peek m)) := by
  induction addrs generalizing first with
  | nil =>
    obtain rfl := h.first
    exact .nil
  | cons a addrs ih =>
    obtain rfl := h.first
    obtain ⟨-, hi, hs⟩ := Node.at?_eq_some_iff.1 (h.at? (List.mem_cons_self ..))
    have hl := ih h.tail
    rw [← h.next] at hl
    exact .cons rfl hi hs hl

end Orderly

theorem Linked.head? (h : Linked m first nodes) :
    (nodes.map fun n => n.addr).head? = first := by
  cases h <;> rfl

theorem Linked.at? (h : Linked m first nodes) {n : Node} (hn : n ∈ nodes) :
    Node.at? m n.addr = some n := by
  induction h with
  | nil => cases hn
  | cons stored inside aligned _ ih =>
    rcases List.mem_cons.1 hn with rfl | hn
    · exact Node.at?_eq_some_iff.2 ⟨stored, inside, aligned⟩
    · exact ih hn

theorem Linked.link (h : Linked m first nodes) (i : Nat)
    (hi : (nodes.map fun n => n.addr)[i]? = some a) :
    m.readWord (Header.linkAddr a) = .ok ((nodes.map fun n => n.addr)[i + 1]?.getD 0) := by
  induction h generalizing i with
  | nil => simp at hi
  | @cons n nodes stored inside aligned later ih =>
    rw [List.map_cons, List.getElem?_cons_succ]
    cases i with
    | zero =>
      obtain rfl : n.addr = a := Option.some.inj hi
      have hn : n.next = (Header.peek m n.addr).next := congrArg (fun k => k.next) stored
      rw [readWord_link inside.2.1, ← List.head?_eq_getElem?, later.head?, ← hn]
      rfl
    | succ i => exact ih i hi

theorem Linked.orderly (h : Linked m first nodes)
    (ha : (nodes.map Node.extent).Pairwise Extent.Apart) :
    Orderly m first (nodes.map fun n => n.addr) := by
  have hat : ∀ a ∈ nodes.map fun n => n.addr,
      (Node.peek m a).Inside m ∧ Aligned (Node.peek m a).size := by
    intro a ha
    obtain ⟨n, hn, rfl⟩ := List.mem_map.1 ha
    obtain ⟨he, hi⟩ := Node.at?_eq_some_iff.1 (h.at? hn)
    rwa [← he]
  refine ⟨h.head?, fun i a => h.link i, ?_, ?_, ?_, ?_⟩
  · exact fun a ha => (hat a ha).1.1
  · intro a ha
    have hi := (hat a ha).1
    rw [← Memory.toNat_stop]
    exact ⟨hi.start_le, hi.2.2⟩
  · exact fun a ha => aligned_iff.1 (hat a ha).2
  · have he : (nodes.map fun n => n.addr).map (fun a => (Node.peek m a).extent) =
        nodes.map Node.extent := by
      rw [List.map_map]
      refine List.map_congr_left fun n hn => congrArg Node.extent ?_
      exact (Node.at?_eq_some_iff.1 (h.at? hn)).1.symm
    rwa [he]

theorem orderly_iff_linked :
    Orderly m first addrs ↔ ∃ nodes, Linked m first nodes ∧
      (nodes.map Node.extent).Pairwise Extent.Apart ∧ nodes.map (fun n => n.addr) = addrs := by
  constructor
  · intro h
    refine ⟨addrs.map (Node.peek m), h.linked, ?_, ?_⟩
    · rw [List.map_map]
      exact h.apart
    · rw [List.map_map]
      exact List.map_id _
  · rintro ⟨nodes, h, ha, rfl⟩
    exact h.orderly ha

end Chain

namespace FirstFit

variable {h : FirstFit} {addrs : List Addr} {k : Nat}

/-- Blocks in order are a layout, so there is room for a walk along all of them. -/
theorem walk_of_orderly (ho : Chain.Orderly h.memory h.head addrs) :
    ∃ nodes, h.walk = ⟨nodes, none⟩ ∧ (nodes.map Node.slot).Pairwise Slot.Apart ∧
      nodes.map (fun n => n.addr) = addrs := by
  obtain ⟨nodes, hn, ha, rfl⟩ := Chain.orderly_iff_linked.1 ho
  have hslots := Node.pairwise_apart_slot.2 ha
  have hl : h.Layout (nodes.map Node.slot) [] := {
    leads := Chain.leads_iff_linked.2 ⟨nodes, hn, rfl⟩
    present := fun s hs => absurd hs List.not_mem_nil
    apart := by rwa [List.append_nil] }
  obtain ⟨met, hw, hmet⟩ := hl.walk_eq
  have hlen : met.length = nodes.length := by simpa using congrArg List.length hmet
  have hroom := (Chain.follow_eq_iff_linked.1 hw).2
  exact ⟨nodes, Chain.follow_eq_iff_linked.2 ⟨hn, hlen ▸ hroom⟩, hslots, rfl⟩

theorem orderly_of_audit (hk : h.audit = .ok k) :
    Chain.Orderly h.memory h.head (h.walk.nodes.map fun n => n.addr) ∧ h.walk.nodes.length = k := by
  have hw := broken_of_audit hk
  obtain ⟨ha, hlen⟩ := (audit_of_walk hw).1 hk
  have hl := (Chain.follow_eq_iff_linked.1 hw).1
  exact ⟨hl.orderly (Node.pairwise_apart_slot.1 ha), hlen⟩

theorem brokenChain_of_audit {fault : Fault} (hf : h.audit = .error fault) :
    ∃ a, fault = .brokenChain a := by
  simp only [audit] at hf
  split at hf
  · exact ⟨_, (Except.error.inj hf).symm⟩
  · split at hf
    · exact ⟨_, (Except.error.inj hf).symm⟩
    · cases hf

/-- An audit accepts a heap exactly if its free blocks are in order, and says how many there are. A
walk along blocks in order meets all of them. -/
theorem audit_iff_orderly (h : FirstFit) :
    (∀ k, h.audit = .ok k ↔
      ∃ addrs, Chain.Orderly h.memory h.head addrs ∧ addrs.length = k) ∧
    ((¬ ∃ addrs, Chain.Orderly h.memory h.head addrs) →
      ∃ a, h.audit = .error (.brokenChain a)) ∧
    ∀ addrs, Chain.Orderly h.memory h.head addrs →
      addrs.length ≤ h.memory.bytes.size / 8 ∧
        h.walk.nodes.map (fun n => n.addr) = addrs ∧ h.walk.broken = none := by
  refine ⟨fun k => ⟨fun hk => ?_, ?_⟩, fun hno => ?_, fun addrs ho => ?_⟩
  · obtain ⟨ho, hlen⟩ := orderly_of_audit hk
    exact ⟨_, ho, (List.length_map _).trans hlen⟩
  · rintro ⟨addrs, ho, rfl⟩
    obtain ⟨nodes, hw, ha, rfl⟩ := walk_of_orderly ho
    exact (audit_of_walk hw).2 ⟨ha, (List.length_map _).symm⟩
  · cases hk : h.audit with
    | ok k => exact absurd ⟨_, (orderly_of_audit hk).1⟩ hno
    | error fault =>
      obtain ⟨a, rfl⟩ := brokenChain_of_audit hk
      exact ⟨a, rfl⟩
  · obtain ⟨nodes, hw, -, rfl⟩ := walk_of_orderly ho
    have hroom := (Chain.follow_eq_iff_linked.1 hw).2
    rw [capacity_eq] at hroom
    rw [hw, List.length_map]
    exact ⟨hroom, rfl, rfl⟩

/-- Two blocks of no bytes at all, the later one first, in a memory that ends in part of a word. -/
theorem audit_iff_orderly_on_empty_blocks :
    let h : FirstFit := {
      memory := {
        start := 0x1000
        bytes := Array.replicate 13 0 ++ #[0x10] ++ Array.replicate 5 0
        start_ne_zero := by decide
        aligned_start := by decide
        stop_lt := by decide }
      head := some 0x1008 }
    h.audit = .ok 2 ∧ ∃ addrs, Chain.Orderly h.memory h.head addrs ∧ addrs.length = 2 := by
  intro h
  have hw : h.walk = ⟨[⟨⟨0, some 0x1000⟩, 0x1008⟩, ⟨⟨0, none⟩, 0x1000⟩], none⟩ := by
    decide +kernel
  have hk : h.audit = .ok 2 := (audit_of_walk hw).2 ⟨by decide +kernel, rfl⟩
  exact ⟨hk, ((audit_iff_orderly h).1 2).1 hk⟩

end FirstFit
end HeapWindow
