import HeapWindow.Walker
import HeapWindow.Proofs.Openings
import HeapWindow.Proofs.Rings

/-!
# Walks that detect

A walker counts down while it follows links through memory that may hold anything. Set against the
chain itself, which need not end, it meets just the blocks in front of the first link that is bad,
and is stopped by its count only where the chain is longer than memory has room for. So it ends
without a fault exactly if the chain is in order, and every chain that leads back is found out: each
link fixes the next, so that such a chain never ends.
-/

namespace HeapWindow
namespace Chain

open Rounding

variable {m : Memory} {link : Option Addr} {a : Addr} {n : Node} {i j budget : Nat}

/-- There may be a block at `a`: it begins on a word, all of it is in memory, and its size is a whole
number of words. -/
structure Sound (m : Memory) (a : Addr) : Prop where
  aligned : a.toNat % 4 = 0
  start_le : m.start.toNat ≤ a.toNat
  stop_le : a.toNat + 8 + (Header.peek m a).size.toNat ≤ m.start.toNat + m.bytes.size
  whole : (Header.peek m a).size.toNat % 4 = 0

theorem sound_iff : Sound m a ↔ Node.at? m a = some (Node.peek m a) := by
  rw [Node.at?_eq_some_iff]
  constructor
  · rintro ⟨ha, hlo, hhi, hs⟩
    refine ⟨rfl, ⟨aligned_iff.2 ha, Memory.holds_iff.2 ⟨hlo, ?_⟩, ?_⟩, aligned_iff.2 hs⟩
    · rw [Memory.toNat_stop, Node.addr_peek]
      omega
    · rw [Memory.toNat_stop]
      exact hhi
  · rintro ⟨-, ⟨ha, hm, hhi⟩, hs⟩
    rw [Memory.toNat_stop] at hhi
    exact ⟨aligned_iff.1 ha, (Memory.holds_iff.1 hm).1, hhi, aligned_iff.1 hs⟩

theorem linkAfter_none (m : Memory) (k : Nat) : linkAfter m none k = none := by
  induction k with
  | zero => rfl
  | succ k ih => rw [linkAfter, ih, Option.bind_none]

theorem linkAfter_add (m : Memory) (link : Option Addr) (i k : Nat) :
    linkAfter m link (i + k) = linkAfter m (linkAfter m link i) k := by
  induction k with
  | zero => rfl
  | succ k ih => rw [← Nat.add_assoc, linkAfter, ih, linkAfter]

theorem linkAfter_eq_none_of_le (hi : linkAfter m link i = none) (hij : i ≤ j) :
    linkAfter m link j = none := by
  obtain ⟨k, rfl⟩ := Nat.exists_eq_add_of_le hij
  rw [linkAfter_add, hi, linkAfter_none]

/-- A chain that leads back to one of its links never ends. -/
theorem linkAfter_ne_none (hij : i < j) (he : linkAfter m link i = linkAfter m link j)
    (hi : linkAfter m link i ≠ none) (k : Nat) : linkAfter m link k ≠ none := by
  induction k using Nat.strongRecOn with
  | ind k ih =>
    intro hk
    by_cases hle : k ≤ j
    · exact hi (he.trans (linkAfter_eq_none_of_le hk hle))
    · -- Behind `j` there is what is behind `i`, and there it is nearer.
      obtain ⟨d, rfl⟩ := Nat.exists_eq_add_of_le (Nat.le_of_not_le hle)
      rw [linkAfter_add, ← he, ← linkAfter_add] at hk
      exact ih (i + d) (by omega) hk

theorem leads_follow (m : Memory) (link : Option Addr) (budget : Nat) :
    let w := Walk.follow m link budget
    Leads m link (w.nodes.map Node.slot) w.broken ∧
      ∀ a, w.broken = some a → w.nodes.length = budget ∨ Node.at? m a = none := by
  induction budget generalizing link with
  | zero => cases link <;> exact ⟨.here, fun _ _ => Or.inl rfl⟩
  | succ budget ih =>
    cases link with
    | none => exact ⟨.here, nofun⟩
    | some a =>
      rw [Walk.follow_succ]
      cases ha : Node.at? m a with
      | none =>
        refine ⟨.here, fun b hb => Or.inr ?_⟩
        rw [← Option.some.inj hb, ha]
      | some n =>
        obtain ⟨hleads, hstop⟩ := ih n.next
        obtain rfl := Node.addr_of_at? ha
        refine ⟨.past ha hleads, fun b hb => (hstop b hb).imp_left fun hlen => ?_⟩
        rw [List.length_cons, hlen]

theorem linkAfter_of_getElem? (hn : (Walk.follow m link budget).nodes[i]? = some n) :
    linkAfter m link i = some n.addr := by
  have hleads := (leads_follow m link budget).1
  obtain ⟨hi, he⟩ := List.getElem?_eq_some_iff.1 hn
  have hat := Walk.at?_of_mem_nodes (List.mem_of_getElem? hn)
  rw [← List.take_append_drop i (Walk.follow m link budget).nodes, List.drop_eq_getElem_cons hi, he,
    List.map_append, List.map_cons] at hleads
  obtain ⟨mid, hfront, hrest⟩ := leads_append.1 hleads
  obtain ⟨rfl, -⟩ := hrest.uncons hat
  have hlen := hfront.linkAfter_length
  rwa [List.length_map, List.length_take, Nat.min_eq_left (Nat.le_of_lt hi)] at hlen

end Chain

namespace FirstFit

open Chain

variable {h : FirstFit} {n : Node} {i j k : Nat} {fault : Fault}

def nthLink (h : FirstFit) (k : Nat) : Option Addr := linkAfter h.memory h.head k

structure EndsAt (h : FirstFit) (k : Nat) : Prop where
  le : k ≤ h.memory.bytes.size / 8
  blocks : ∀ i < k, ∃ a, h.nthLink i = some a ∧ Sound h.memory a ∧
    h.told i = some (.ok (Node.peek h.memory a))
  /-- If there is a link, it is one too many or no link to a block. -/
  stops : ∀ a, h.nthLink k = some a → k = h.memory.bytes.size / 8 ∨ ¬ Sound h.memory a
  last : h.told k = (h.nthLink k).map fun a => .error (.brokenChain a)
  silent : ∀ i, k < i → h.told i = none

def Faultless (h : FirstFit) : Prop := ∀ i fault, h.told i ≠ some (.error fault)

theorem nthLink_succ {a : Addr} (hk : h.nthLink k = some a) :
    h.nthLink (k + 1) = (Header.peek h.memory a).next := by
  rw [nthLink, linkAfter, ← nthLink, hk, Option.bind_some]

theorem nthLink_ne_none (hij : i < j) (he : h.nthLink i = h.nthLink j) (hi : h.nthLink i ≠ none)
    (k : Nat) : h.nthLink k ≠ none := linkAfter_ne_none hij he hi k

theorem nthLink_length (h : FirstFit) : h.nthLink h.walk.nodes.length = h.walk.broken := by
  have hlen := (leads_follow h.memory h.head h.capacity).1.linkAfter_length
  rwa [List.length_map] at hlen

theorem told_of_getElem? (hn : h.walk.nodes[i]? = some n) : h.told i = some (.ok n) := by
  have hi := (List.getElem?_eq_some_iff.1 hn).1
  rw [told_eq, Walk.items, List.getElem?_append_left (by rwa [List.length_map]), List.getElem?_map,
    hn, Option.map_some]

theorem told_length (h : FirstFit) :
    h.told h.walk.nodes.length = h.walk.broken.map fun a => .error (.brokenChain a) := by
  rw [told_eq, Walk.items, List.getElem?_append_right (by simp), List.length_map, Nat.sub_self]
  cases h.walk.broken <;> rfl

theorem told_of_length_lt (hi : h.walk.nodes.length < i) : h.told i = none := by
  rw [told_eq, List.getElem?_eq_none_iff, Walk.items, List.length_append, List.length_map,
    List.length_map]
  have hone : h.walk.broken.toList.length ≤ 1 := by cases h.walk.broken <;> simp
  omega

theorem endsAt_length (h : FirstFit) : h.EndsAt h.walk.nodes.length where
  le := by
    rw [← capacity_eq]
    exact Walk.length_nodes_follow_le h.memory h.head h.capacity
  blocks i hi := by
    obtain ⟨n, hn⟩ : ∃ n, h.walk.nodes[i]? = some n := ⟨_, List.getElem?_eq_getElem hi⟩
    have hat := Walk.at?_of_mem_nodes (List.mem_of_getElem? hn)
    have hpeek := (Node.at?_eq_some_iff.1 hat).1
    refine ⟨n.addr, linkAfter_of_getElem? hn, sound_iff.2 ?_, ?_⟩
    · rw [← hpeek, hat]
    · rw [← hpeek, told_of_getElem? hn]
  stops a ha := by
    rw [nthLink_length] at ha
    rw [← capacity_eq]
    refine ((leads_follow h.memory h.head h.capacity).2 a ha).imp_right fun hnone hs => ?_
    rw [sound_iff.1 hs] at hnone
    cases hnone
  last := by rw [told_length, nthLink_length]
  silent i hi := told_of_length_lt hi

namespace EndsAt

variable (he : h.EndsAt k)

include he

theorem of_told_ok (hi : h.told i = some (.ok n)) :
    i < k ∧ h.nthLink i = some n.addr ∧ n = Node.peek h.memory n.addr := by
  rcases Nat.lt_trichotomy i k with hlt | rfl | hgt
  · obtain ⟨a, ha, -, hok⟩ := he.blocks i hlt
    obtain rfl := Except.ok.inj (Option.some.inj (hi.symm.trans hok))
    exact ⟨hlt, ha, rfl⟩
  · rw [he.last] at hi
    cases hl : h.nthLink i <;> simp [hl] at hi
  · rw [he.silent i hgt] at hi
    cases hi

theorem of_told_error (hi : h.told i = some (.error fault)) :
    i = k ∧ ∃ a, h.nthLink k = some a ∧ fault = .brokenChain a := by
  rcases Nat.lt_trichotomy i k with hlt | rfl | hgt
  · obtain ⟨a, -, -, hok⟩ := he.blocks i hlt
    rw [hok] at hi
    cases hi
  · rw [he.last, Option.map_eq_some_iff] at hi
    obtain ⟨a, ha, hf⟩ := hi
    exact ⟨rfl, a, ha, (Except.error.inj hf).symm⟩
  · rw [he.silent i hgt] at hi
    cases hi

theorem nthLink_eq_none (hf : h.Faultless) : h.nthLink k = none := by
  refine Option.eq_none_iff_forall_ne_some.2 fun a ha => hf k (.brokenChain a) ?_
  rw [he.last, ha, Option.map_some]

end EndsAt

theorem faultless_iff :
    h.Faultless ↔ ∃ k ≤ h.memory.bytes.size / 8, h.nthLink k = none ∧
      ∀ i < k, ∃ a, h.nthLink i = some a ∧ Sound h.memory a := by
  have he := h.endsAt_length
  constructor
  · intro hf
    refine ⟨_, he.le, he.nthLink_eq_none hf, fun i hi => ?_⟩
    obtain ⟨a, ha, hs, -⟩ := he.blocks i hi
    exact ⟨a, ha, hs⟩
  · rintro ⟨k, hk, hend, hsound⟩ i fault hi
    obtain ⟨-, a, ha, -⟩ := he.of_told_error hi
    -- The walk stopped in front of the end of the chain, so that its budget was not used up.
    have hlt : h.walk.nodes.length < k := by
      refine Nat.lt_of_not_le fun hle => ?_
      rw [nthLink, linkAfter_eq_none_of_le hend hle] at ha
      cases ha
    obtain ⟨b, hb, hs⟩ := hsound _ hlt
    obtain rfl := Option.some.inj (ha.symm.trans hb)
    rcases he.stops a ha with hfull | hbad
    · omega
    · exact hbad hs

theorem Faultless.index_eq (hf : h.Faultless) {n' : Node} (hi : h.told i = some (.ok n))
    (hj : h.told j = some (.ok n')) (ha : n.addr = n'.addr) : i = j := by
  have he := h.endsAt_length
  have hend := he.nthLink_eq_none hf
  obtain ⟨-, hi, -⟩ := he.of_told_ok hi
  obtain ⟨-, hj, -⟩ := he.of_told_ok hj
  have hsame : h.nthLink i = h.nthLink j := by rw [hi, hj, ha]
  rcases Nat.lt_trichotomy i j with hlt | heq | hgt
  · exact absurd hend (nthLink_ne_none hlt hsame (by simp [hi]) _)
  · exact heq
  · exact absurd hend (nthLink_ne_none hgt hsame.symm (by simp [hj]) _)

theorem Faultless.next_eq_none (hf : h.Faultless) (hi : h.told i = some (.ok n))
    (hlast : h.told (i + 1) = none) : n.next = none := by
  have he := h.endsAt_length
  obtain ⟨hlt, hlink, hn⟩ := he.of_told_ok hi
  have hlen : i + 1 = h.walk.nodes.length := by
    refine Nat.le_antisymm hlt (Nat.le_of_not_lt fun hgt => ?_)
    obtain ⟨a, -, -, hok⟩ := he.blocks (i + 1) hgt
    rw [hlast] at hok
    cases hok
  have hend := he.nthLink_eq_none hf
  rw [← hlen, nthLink_succ hlink] at hend
  rw [hn]
  exact hend

theorem exists_fault_of_revisit (hij : i < j) (hlink : h.nthLink i = h.nthLink j)
    (hi : h.nthLink i ≠ none) :
    ∃ k a, h.told k = some (.error (.brokenChain a)) ∧ ∀ i, k < i → h.told i = none := by
  have he := h.endsAt_length
  obtain ⟨a, ha⟩ := Option.ne_none_iff_exists'.1 (nthLink_ne_none hij hlink hi h.walk.nodes.length)
  refine ⟨_, a, ?_, he.silent⟩
  rw [he.last, ha, Option.map_some]

/-- Whatever memory holds and wherever the first link leads: the walker tells what is stored of every
block on the chain up to the first bad link, but not of more than memory has room for, then the
link at which it had to stop, if there is one, and nothing from then on. It tells no fault exactly
if the chain ends in time and has no bad link; then no block is met twice and the last is linked to
none. Of a chain that leads back a fault is told. -/
theorem walk_detects (h : FirstFit) :
    (∀ i, h.told i = h.walk.items[i]?) ∧
    (∃ k, h.EndsAt k) ∧
    (h.Faultless ↔ ∃ k ≤ h.memory.bytes.size / 8, h.nthLink k = none ∧
      ∀ i < k, ∃ a, h.nthLink i = some a ∧ Sound h.memory a) ∧
    (h.Faultless →
      (∀ i j n n', h.told i = some (.ok n) → h.told j = some (.ok n') → n.addr = n'.addr → i = j) ∧
      ∀ i n, h.told i = some (.ok n) → h.told (i + 1) = none → n.next = none) ∧
    ∀ i j, i < j → h.nthLink i = h.nthLink j → h.nthLink i ≠ none →
      ∃ k a, h.told k = some (.error (.brokenChain a)) ∧ ∀ i, k < i → h.told i = none := by
  refine ⟨h.told_eq, ⟨_, h.endsAt_length⟩, faultless_iff, fun hf => ⟨?_, ?_⟩, ?_⟩
  · exact fun i j n n' => hf.index_eq
  · exact fun i n => hf.next_eq_none
  · exact fun i j => exists_fault_of_revisit

/-- Two blocks are linked to each other, and there is room for five: the first five are met and a fault
is told. In a new heap of ten words the only block is linked to none. -/
theorem walk_detects_ring_of_two :
    let h : FirstFit := {
      memory := {
        start := 0x1000
        bytes := #[8, 0, 0, 0, 0x10, 0x10, 0, 0] ++ Array.replicate 8 0 ++
          #[8, 0, 0, 0, 0, 0x10, 0, 0] ++ Array.replicate 16 0
        start_ne_zero := sample_ne_zero
        aligned_start := aligned_sample
        stop_lt := by decide }
      head := some 0x1000 }
    (h.told 4 = some (.ok ⟨⟨8, some 0x1010⟩, 0x1000⟩) ∧
      ∃ k a, h.told k = some (.error (.brokenChain a)) ∧ ∀ i, k < i → h.told i = none) ∧
    onTenWords.Faultless ∧ ∃ n, onTenWords.told 0 = some (.ok n) ∧ n.next = none := by
  intro h
  have hsound : Sound onTenWords.memory 0x1000 :=
    ⟨by decide, by decide, by decide +kernel, by decide +kernel⟩
  have hfaultless : onTenWords.Faultless :=
    (walk_detects onTenWords).2.2.1.2 ⟨1, by decide, by decide +kernel, fun i hi =>
      ⟨0x1000, by rw [Nat.lt_one_iff.1 hi]; rfl, hsound⟩⟩
  refine ⟨⟨by decide +kernel, ?_⟩, hfaultless, ⟨⟨32, none⟩, 0x1000⟩, by decide +kernel, ?_⟩
  · exact (walk_detects h).2.2.2.2 0 2 (by decide) (by decide +kernel) (by decide +kernel)
  · exact ((walk_detects onTenWords).2.2.2.1 hfaultless).2 0 _ (by decide +kernel) (by decide +kernel)

end FirstFit
end HeapWindow
