import HeapWindow.FirstFit
import HeapWindow.Pool
import HeapWindow.Proofs.Frame
import HeapWindow.Proofs.Spacing

/-!
# Slots of memory

A slot is in memory if the header at its address is that of a block with its size. Cutting a
block in memory is cutting its slot in a pool.
-/

namespace HeapWindow

open Rounding

namespace Slot

def stop (s : Slot) : Nat := s.addr + 8 + s.size

def extent (s : Slot) : Extent := ⟨s.addr, s.stop⟩

def Apart (s t : Slot) : Prop := s.extent.Apart t.extent

instance (s t : Slot) : Decidable (s.Apart t) := inferInstanceAs (Decidable (s.extent.Apart _))

theorem apart_iff {s t : Slot} : s.Apart t ↔ s.stop ≤ t.addr ∨ t.stop ≤ s.addr := Iff.rfl

theorem Apart.symm {s t : Slot} (h : s.Apart t) : t.Apart s := Extent.Apart.symm h

theorem Apart.within {s t u : Slot} (h : s.Apart t) (hlo : s.addr ≤ u.addr)
    (hhi : u.stop ≤ s.stop) : u.Apart t := by
  rw [apart_iff] at *
  omega

theorem Apart.outside {s t : Slot} (h : s.Apart t) {x : Nat} (hlo : t.addr ≤ x) (hhi : x < t.stop) :
    ¬ (s.addr ≤ x ∧ x < s.stop) := by
  rw [apart_iff] at h
  omega

theorem Apart.not_link {s t : Slot} (h : s.Apart t) {x : Nat} (hlo : t.addr ≤ x)
    (hhi : x < t.addr + 8) : ¬ (s.addr + 4 ≤ x ∧ x < s.addr + 8) := by
  rw [apart_iff, stop, stop] at h
  omega

theorem apart_cut {s u v : Slot} {slots : List Slot} (h : (s :: slots).Pairwise Apart)
    (hu : s.addr ≤ u.addr) (huv : u.stop ≤ v.addr) (hv : v.stop ≤ s.stop) :
    (u :: v :: slots).Pairwise Apart := by
  obtain ⟨hs, hp⟩ := List.pairwise_cons.1 h
  have hvle : v.addr ≤ v.stop := by rw [stop]; omega
  have hule : u.addr ≤ u.stop := by rw [stop]; omega
  refine List.pairwise_cons.2 ⟨fun t ht => ?_, List.pairwise_cons.2 ⟨fun t ht => ?_, hp⟩⟩
  · rcases List.mem_cons.1 ht with rfl | ht
    · exact Or.inl huv
    · exact (hs t ht).within hu (by omega)
  · exact (hs t ht).within (by omega) hv

def Within (slots : List Slot) (x : Nat) : Prop := ∃ s ∈ slots, s.addr ≤ x ∧ x < s.stop

theorem not_within_of_apart {s : Slot} {slots : List Slot} (h : ∀ t ∈ slots, s.Apart t) {x : Nat}
    (hlo : s.addr ≤ x) (hhi : x < s.stop) : ¬ Within slots x := by
  rintro ⟨t, ht, hx⟩
  exact (h t ht).symm.outside hlo hhi hx

end Slot

def Node.slot (n : Node) : Slot := ⟨n.addr.toNat, n.size.toNat⟩

namespace Node

variable {m : Memory} {n r : Node} {need : UInt32}

@[simp] theorem addr_slot (n : Node) : n.slot.addr = n.addr.toNat := rfl

@[simp] theorem size_slot (n : Node) : n.slot.size = n.size.toNat := rfl

theorem stop_eq (n : Node) : n.stop = n.addr.toNat + 8 + n.size.toNat := rfl

theorem Inside.toNat_payload (h : n.Inside m) :
    (Header.payload n.addr).toNat = n.addr.toNat + 8 := by
  have hlt := h.stop_lt
  simp only [stop_eq, UInt32.size] at hlt
  rw [Header.payload, UInt32.toNat_add, Header.toNat_byteSize]
  omega

theorem pairwise_apart_slot {nodes : List Node} :
    (nodes.map slot).Pairwise Slot.Apart ↔ (nodes.map extent).Pairwise Extent.Apart := by
  rw [List.pairwise_map, List.pairwise_map]
  rfl

theorem addr_of_at? {a : Addr} (h : at? m a = some n) : n.addr = a := by
  rw [(at?_eq_some_iff.1 h).1, addr_peek]

theorem toHeader_of_at? {a : Addr} (h : at? m a = some n) : n.toHeader = Header.peek m a := by
  rw [(at?_eq_some_iff.1 h).1]
  rfl

theorem next_ne_zero {a : Addr} (h : at? m a = some n) : n.next ≠ some 0 := by
  rw [toHeader_of_at? h, Header.peek, Header.decode, Header.ofLinkWord]
  split <;> simp_all

theorem filter_ne_zero {next : Option Addr} (h : next ≠ some 0) : next.filter (· ≠ 0) = next := by
  cases next with
  | none => rfl
  | some a =>
    have ha : a ≠ 0 := fun e => h (by rw [e])
    simp [Option.filter, ha]

theorem at?_putHeader (hi : n.Inside m) (hs : Aligned n.size) (hn : n.next ≠ some 0) :
    at? (m.put n.addr n.encode.toList) n.addr = some n := by
  have hp : Header.peek (m.put n.addr n.encode.toList) n.addr = n.toHeader := by
    rw [Header.peek_put_encode hi.2.1, Header.normal, filter_ne_zero hn]
  have hf := Memory.sameBut_putHeader n.toHeader hi.2.1
  refine at?_eq_some_iff.2 ⟨?_, hf.inside.2 hi, hs⟩
  rw [peek, hp]

theorem at?_putSize {size : UInt32} (h : at? m n.addr = some n) (hs : Aligned size)
    (hle : size.toNat ≤ n.size.toNat) :
    at? (m.put n.addr (LittleEndian.bytes size).toList) n.addr = some ⟨⟨size, n.next⟩, n.addr⟩ := by
  obtain ⟨-, hi, -⟩ := at?_eq_some_iff.1 h
  have hp :
      Header.peek (m.put n.addr (LittleEndian.bytes size).toList) n.addr = ⟨size, n.next⟩ := by
    rw [Header.peek_put_size hi.2.1, ← toHeader_of_at? h]
  have hf := Memory.sameBut_putSize size hi.2.1
  refine at?_eq_some_iff.2 ⟨?_, hf.inside.2 ⟨hi.1, hi.2.1, ?_⟩, hs⟩
  · rw [peek, hp]
  · have hstop := hi.2.2
    rw [stop_eq] at hstop ⊢
    show n.addr.toNat + 8 + size.toNat ≤ _
    omega

theorem at?_putNext {next : Option Addr} (h : at? m n.addr = some n) (hn : next ≠ some 0) :
    at? (m.put (Header.linkAddr n.addr) (LittleEndian.bytes (Header.linkWord next)).toList) n.addr =
      some ⟨⟨n.size, next⟩, n.addr⟩ := by
  obtain ⟨-, hi, hs⟩ := at?_eq_some_iff.1 h
  have hp : Header.peek (m.put (Header.linkAddr n.addr)
      (LittleEndian.bytes (Header.linkWord next)).toList) n.addr = ⟨n.size, next⟩ := by
    rw [Header.peek_put_next hi.2.1, filter_ne_zero hn, ← toHeader_of_at? h]
  have hf := Memory.sameBut_putNext next hi.2.1
  refine at?_eq_some_iff.2 ⟨?_, hf.inside.2 hi, hs⟩
  rw [peek, hp]

theorem eq_of_slot {k : Node} (hn : at? m n.addr = some n) (hk : at? m k.addr = some k)
    (h : n.slot = k.slot) : n = k := by
  have ha : n.addr = k.addr := UInt32.toNat_inj.1 (congrArg Slot.addr h)
  rw [ha, hk] at hn
  exact (Option.some.inj hn).symm

theorem size_of_rest? (hn : n.Inside m) (hr : n.rest? need = some r) :
    r.size.toNat = n.size.toNat - need.toNat - 8 ∧ need.toNat + 16 ≤ n.size.toNat := by
  obtain ⟨ha, hs, -, h₈⟩ := rest?_eq_some hn hr
  simp only [stop_eq] at hs
  omega

theorem cut_slot_of_none (hr : n.rest? need = none) :
    Pool.cut n.slot need.toNat = (n.slot, none) := by
  have hlt := rest?_eq_none_iff.1 hr
  rw [Pool.cut, if_neg (by simpa using hlt)]

theorem cut_slot_of_some (hn : n.Inside m) (hr : n.rest? need = some r) :
    Pool.cut n.slot need.toNat = (⟨n.addr.toNat, need.toNat⟩, some r.slot) := by
  obtain ⟨hsize, hle⟩ := size_of_rest? hn hr
  have haddr := (rest?_eq_some hn hr).1
  rw [Pool.cut, if_pos (by simpa using hle)]
  simp [slot, haddr, hsize]

end Node

namespace Slot

variable {m m' : Memory} {S : Nat → Prop} {s : Slot}

def In (s : Slot) (m : Memory) : Prop := ∃ n, Node.at? m n.addr = some n ∧ n.slot = s

theorem header_lt_stop (s : Slot) : s.addr + 8 ≤ s.stop := by rw [stop]; omega

theorem in_of_at? {a : Addr} {n : Node} (h : Node.at? m a = some n) : n.slot.In m :=
  ⟨n, by rw [Node.addr_of_at? h, h], rfl⟩

theorem In.bounds (h : s.In m) :
    m.start.toNat ≤ s.addr ∧ s.stop ≤ m.start.toNat + m.bytes.size := by
  obtain ⟨n, hn, rfl⟩ := h
  have hi := (Node.at?_eq_some_iff.1 hn).2.1
  have hs := hi.2.2
  rw [Memory.toNat_stop] at hs
  exact ⟨hi.start_le, hs⟩

theorem In.addr_pos (h : s.In m) : 0 < s.addr := by
  have hlo := h.bounds.1
  have hne : m.start.toNat ≠ 0 := fun e => m.start_ne_zero (UInt32.toNat_inj.1 e)
  omega

theorem In.whole (h : s.In m) : s.addr % 4 = 0 ∧ s.size % 4 = 0 := by
  obtain ⟨n, hn, rfl⟩ := h
  have ha := (Node.at?_eq_some_iff.1 hn).2
  exact ⟨aligned_iff.1 ha.1.1, aligned_iff.1 ha.2⟩

theorem In.frame (h : s.In m) (hf : Memory.SameBut S m m')
    (hs : ∀ x, s.addr ≤ x → x < s.addr + 8 → ¬ S x) : s.In m' := by
  obtain ⟨n, hn, rfl⟩ := h
  exact ⟨n, by rw [hf.at? hs, hn], rfl⟩

theorem In.blockOf (h : s.In m) {p : Addr} (hp : p.toNat = s.addr + 8) :
    ∃ n, FirstFit.blockOf m p = .ok n ∧ Node.at? m n.addr = some n ∧ n.slot = s := by
  obtain ⟨n, hn, rfl⟩ := h
  have hpn : Header.ofPayload? p = some n.addr := Header.ofPayload?_eq_some_iff.2 hp.symm
  obtain ⟨he, hi, -⟩ := Node.at?_eq_some_iff.1 hn
  rw [he] at hi
  refine ⟨n, ?_, hn, rfl⟩
  simp only [FirstFit.blockOf, hpn, if_pos hi]
  rw [← he]

theorem In.slot_peek (h : s.In m) {p : Addr} (hp : p.toNat = s.addr + 8) :
    (Node.peek m (p - Header.byteSize)).slot = s := by
  obtain ⟨n, -, hn, hs⟩ := h.blockOf hp
  have ha : p - Header.byteSize = n.addr := by
    have haddr : n.addr.toNat + 8 = p.toNat := by rw [hp, ← hs, Node.addr_slot]
    have hle : Header.byteSize ≤ p :=
      UInt32.le_iff_toNat_le.2 (by rw [Header.toNat_byteSize]; omega)
    apply UInt32.toNat_inj.1
    rw [UInt32.toNat_sub_of_le _ _ hle, Header.toNat_byteSize]
    omega
  rw [ha, ← (Node.at?_eq_some_iff.1 hn).1, hs]

end Slot

namespace Pool

variable {need : Nat} {pool pool' front back : List Slot} {s taken : Slot}

theorem allocate_append (hf : ∀ f ∈ front, f.size < need) (hs : need ≤ s.size) :
    allocate need (front ++ s :: back) =
      some ((cut s need).1, front ++ (cut s need).2.toList ++ back) := by
  induction front with
  | nil => simp [allocate, hs]
  | cons f front ih =>
    have hlt := hf f (by simp)
    rw [List.cons_append, allocate, if_neg (by omega), ih fun g hg => hf g (by simp [hg])]
    rfl

theorem allocate_eq_some_iff :
    allocate need pool = some (taken, pool') ↔
      ∃ front s back, pool = front ++ s :: back ∧ (∀ f ∈ front, f.size < need) ∧
        need ≤ s.size ∧ taken = (cut s need).1 ∧
        pool' = front ++ (cut s need).2.toList ++ back := by
  constructor
  · intro h
    induction pool generalizing pool' with
    | nil => simp [allocate] at h
    | cons t pool ih =>
      by_cases ht : need ≤ t.size
      · rw [allocate, if_pos ht, Option.some.injEq, Prod.mk.injEq] at h
        exact ⟨[], t, pool, rfl, by simp, ht, h.1.symm, by simpa using h.2.symm⟩
      · rw [allocate, if_neg ht, Option.map_eq_some_iff] at h
        obtain ⟨⟨taken', rest⟩, hr, he⟩ := h
        obtain ⟨rfl, rfl⟩ := Prod.mk.inj he
        obtain ⟨front, s, back, rfl, hf, hs, htaken, rfl⟩ := ih hr
        refine ⟨t :: front, s, back, rfl, ?_, hs, htaken, rfl⟩
        simpa using ⟨Nat.not_le.1 ht, hf⟩
  · rintro ⟨front, s, back, rfl, hf, hs, rfl, rfl⟩
    exact allocate_append hf hs

end Pool
end HeapWindow
