import HeapWindow.Proofs.Allocation
import HeapWindow.Proofs.Containment
import HeapWindow.Proofs.Leases
import HeapWindow.Proofs.Openings

/-!
# Shortages

A request that is refused for want of room is told how many bytes it would have needed and how many
there are: in a heap the size of the largest free block, in an arena the bytes behind the cursor. The
second number should be the greatest request that is granted then. In a heap it is one while there is
a free block. In an arena it is one if memory is a whole number of words, and otherwise the bytes of
the whole words behind the cursor are.
-/

namespace HeapWindow

open Rounding

variable {σ α : Type}

def Action.Succeeds (x : Action σ α) (s : σ) : Prop := ∃ a, (x.run s).result = .ok a

/-- What is said to a request of `n` bytes that is refused, if `grants` says which requests are
granted: the bytes that it needs in whole words, and the greatest request that is granted. -/
structure Truthful (grants : UInt32 → Prop) (n requested available : UInt32) : Prop where
  rounded : roundUp? n = some requested
  less : available < requested
  granted : grants available
  most : ∀ m, available < m → ¬ grants m

theorem Truthful.eq {grants : UInt32 → Prop} {n requested a b : UInt32}
    (ha : Truthful grants n requested a) (hb : Truthful grants n requested b) : a = b := by
  have hle : b ≤ a := UInt32.not_lt.1 fun hlt => ha.most b hlt hb.granted
  have hge : a ≤ b := UInt32.not_lt.1 fun hlt => hb.most a hlt ha.granted
  exact UInt32.le_antisymm hge hle

namespace FirstFit

variable {h : FirstFit} {n need most : UInt32}

theorem aligned_size {k : Node} (hk : k ∈ h.walk.nodes) : Aligned k.size :=
  (Node.at?_eq_some_iff.1 (Walk.at?_of_mem_nodes hk)).2.2

/-- A request is granted if some block met on the walk is large enough, whatever memory holds. -/
theorem allocate_succeeds_iff :
    (allocate n).Succeeds h ↔ ∃ k ∈ h.walk.nodes, n ≤ k.size := by
  have hs := served_allocate n h
  rw [Action.Succeeds]
  generalize (allocate n).run h = o at hs
  -- Sizes on a walk are whole words, so they may be compared with `n` before it is rounded.
  constructor
  · rintro ⟨p, hp⟩
    cases hs with
    | @met need spot e rounded found =>
      obtain ⟨front, back, hw, -, hle, -⟩ := Spot.find?_eq_some_iff.1 found
      have hk : spot.node ∈ h.walk.nodes := by simp [hw]
      exact ⟨spot.node, hk, (exists_roundUp?_le_iff (aligned_size hk)).1 ⟨need, rounded, hle⟩⟩
    | tooLarge | broken | full => cases hp
  · rintro ⟨k, hk, hle⟩
    obtain ⟨need, hneed, hroom⟩ := (exists_roundUp?_le_iff (aligned_size hk)).2 hle
    cases hs with
    | met => exact ⟨_, rfl⟩
    | tooLarge rounded =>
      rw [hneed] at rounded
      cases rounded
    | broken rounded lacking | full rounded lacking =>
      obtain rfl := Option.some.inj (hneed.symm.trans rounded)
      exact absurd hroom (UInt32.not_le.2 (Spot.find?_eq_none_iff.1 lacking k hk))

theorem of_outOfMemory (hr : ((allocate n).run h).result = .error (.outOfMemory need most)) :
    roundUp? n = some need ∧ most = h.walk.largest ∧ h.walk.broken = none ∧
      ∀ k ∈ h.walk.nodes, k.size < need := by
  have hs := served_allocate n h
  generalize (allocate n).run h = o at hs hr
  cases hs with
  | full rounded lacking ended =>
    cases hr
    exact ⟨rounded, rfl, ended, Spot.find?_eq_none_iff.1 lacking⟩
  | tooLarge | met | broken => cases hr

end FirstFit

namespace Walk

variable {w : Walk}

theorem size_le_largest {k : Node} (hk : k ∈ w.nodes) : k.size ≤ w.largest := by
  rw [UInt32.le_iff_toNat_le, FirstFit.toNat_largest]
  exact Pool.largest_le_iff.1 (Nat.le_refl _) k.slot (List.mem_map_of_mem hk)

theorem exists_size_eq_largest (hw : w.nodes ≠ []) : ∃ k ∈ w.nodes, k.size = w.largest := by
  have hne : w.nodes.map Node.slot ≠ [] := fun he => hw (List.map_eq_nil_iff.1 he)
  obtain ⟨s, hs, he⟩ := Pool.exists_size_eq_largest hne
  obtain ⟨k, hk, rfl⟩ := List.mem_map.1 hs
  exact ⟨k, hk, UInt32.toNat_inj.1 (he.trans (FirstFit.toNat_largest w).symm)⟩

end Walk

namespace FirstFit

variable {h : FirstFit} {n need most : UInt32}

theorem nodes_walk_eq_nil_iff (hb : h.walk.broken = none) :
    h.walk.nodes = [] ↔ h.head = none := by
  have hw : h.walk = ⟨h.walk.nodes, none⟩ := by rw [← hb]
  rw [← (Chain.follow_eq_iff_linked.1 hw).1.head?]
  cases h.walk.nodes <;> simp

theorem not_succeeds_of_largest_lt {m : UInt32} (hm : h.walk.largest < m) :
    ¬ (allocate m).Succeeds h := by
  rw [allocate_succeeds_iff]
  rintro ⟨k, hk, hle⟩
  exact absurd (UInt32.le_trans hle (Walk.size_le_largest hk)) (UInt32.not_le.2 hm)

theorem truthful_of_head (hr : ((allocate n).run h).result = .error (.outOfMemory need most))
    (hh : h.head ≠ none) : Truthful (fun m => (allocate m).Succeeds h) n need most := by
  obtain ⟨hneed, rfl, hb, hlt⟩ := of_outOfMemory hr
  obtain ⟨k, hk, he⟩ := Walk.exists_size_eq_largest fun hn => hh ((nodes_walk_eq_nil_iff hb).1 hn)
  refine ⟨hneed, ?_, ?_, fun m => not_succeeds_of_largest_lt⟩
  · rw [← he]
    exact hlt k hk
  · exact allocate_succeeds_iff.2 ⟨k, hk, UInt32.le_of_eq he.symm⟩

theorem shortage_of_no_head
    (hr : ((allocate n).run h).result = .error (.outOfMemory need most)) (hh : h.head = none) :
    roundUp? n = some need ∧ most = 0 ∧ (n ≠ 0 → most < need) ∧
      ∀ m, ¬ (allocate m).Succeeds h := by
  obtain ⟨hneed, rfl, hb, -⟩ := of_outOfMemory hr
  have hn := (nodes_walk_eq_nil_iff hb).2 hh
  have hmost : h.walk.largest = 0 := by
    rw [Walk.largest, hn]
    rfl
  refine ⟨hneed, hmost, fun hpos => ?_, fun m hm => ?_⟩
  · have he := (roundUp?_eq_some_iff.1 hneed).2
    have hpos : n.toNat ≠ 0 := fun h₀ => hpos (UInt32.toNat_inj.1 h₀)
    rw [hmost, UInt32.lt_iff_toNat_lt, UInt32.toNat_zero]
    omega
  · obtain ⟨k, hk, -⟩ := allocate_succeeds_iff.1 hm
    rw [hn] at hk
    cases hk

theorem truthful_iff (hr : ((allocate n).run h).result = .error (.outOfMemory need most)) :
    Truthful (fun m => (allocate m).Succeeds h) n need most ↔ h.head ≠ none := by
  constructor
  · intro ht hh
    exact (shortage_of_no_head hr hh).2.2.2 most ht.granted
  · exact truthful_of_head hr

end FirstFit

namespace Arena

variable {a : Arena} {n need most : UInt32}

theorem allocate_succeeds_iff : (allocate n).Succeeds a ↔ n ≤ roundDown a.remaining := by
  rw [← exists_roundUp?_le_iff_le_roundDown]
  constructor
  · rintro ⟨p, hp⟩
    exact (allocate_ok_iff.1 hp).2
  · exact fun hfit => ⟨a.cursor, allocate_ok_iff.2 ⟨rfl, hfit⟩⟩

theorem truthful_roundDown
    (hr : ((allocate n).run a).result = .error (.outOfMemory need most)) :
    Truthful (fun m => (allocate m).Succeeds a) n need (roundDown most) := by
  obtain ⟨hneed, rfl, hlt⟩ := allocate_outOfMemory_iff.1 hr
  refine ⟨hneed, ?_, allocate_succeeds_iff.2 (UInt32.le_refl _), fun m hm hs => ?_⟩
  · exact UInt32.lt_of_le_of_lt (roundDown_le a.remaining) hlt
  · exact UInt32.not_le.2 hm (allocate_succeeds_iff.1 hs)

theorem truthful_iff (hr : ((allocate n).run a).result = .error (.outOfMemory need most)) :
    Truthful (fun m => (allocate m).Succeeds a) n need most ↔ Aligned most := by
  have hdown := truthful_roundDown hr
  rw [← roundDown_eq_self_iff]
  constructor
  · exact hdown.eq
  · intro he
    rwa [he] at hdown

end Arena

theorem Leasing.Fills.aligned_remaining_iff {w : Window} {l : Leasing} (h : Fills w l) :
    Aligned l.arena.remaining ↔ w.size.toNat % 4 = 0 := by
  have hstart := aligned_iff.1 l.arena.memory.aligned_start
  have hcursor := aligned_iff.1 h.aligned
  have hle := UInt32.le_iff_toNat_le.1 h.bounded.le_stop
  rw [Memory.toNat_stop, h.size] at hle
  -- The cursor is always at a whole word, so only the end of the window can be within one.
  rw [aligned_iff, h.bounded.toNat_remaining, Memory.toNat_stop, h.size]
  omega

/-- A shortage in an arena names more bytes than there are in whole words behind the cursor, unless
its window is a whole number of words: only then is the room that it names the greatest request that
is granted. The bytes of the whole words always are. In a heap the room is the greatest request that
is granted as long as there is a free block. Without one no bytes are named and nothing is granted. -/
theorem shortages_name_room (n requested available : UInt32) :
    (∀ w a, Arena.Opens w a → ∀ rs,
      ((Arena.allocate n).run ((Leasing.fresh a).after rs).arena).result =
        .error (.outOfMemory requested available) →
      let grants := fun m => (Arena.allocate m).Succeeds ((Leasing.fresh a).after rs).arena
      available < requested ∧ Truthful grants n requested (roundDown available) ∧
        (Truthful grants n requested available ↔ w.size.toNat % 4 = 0)) ∧
    ∀ h : FirstFit,
      ((FirstFit.allocate n).run h).result = .error (.outOfMemory requested available) →
      (Truthful (fun m => (FirstFit.allocate m).Succeeds h) n requested available ↔
        h.head ≠ none) ∧
      (h.head = none → roundUp? n = some requested ∧ available = 0 ∧
        (n ≠ 0 → available < requested) ∧ ∀ m, ¬ (FirstFit.allocate m).Succeeds h) := by
  refine ⟨fun w a hw rs hr => ?_, fun h hr => ?_⟩
  · have hf := (Leasing.fills_fresh hw).after rs
    obtain ⟨-, hroom, hlt⟩ := Arena.allocate_outOfMemory_iff.1 hr
    refine ⟨hlt, Arena.truthful_roundDown hr, ?_⟩
    rw [← hf.aligned_remaining_iff, ← hroom]
    exact Arena.truthful_iff hr
  · exact ⟨FirstFit.truthful_iff hr, FirstFit.shortage_of_no_head hr⟩

/-- In an arena of three words eight bytes are left and can be asked for, but not nine; in one of
fifteen bytes not the fifteen that are named can be asked for, but twelve. In a heap of ten words it
is the rest of the block that was cut that can be asked for. -/
theorem shortages_name_room_on_three_words :
    let a : Arena := {
      memory := {
        start := 0x1000
        bytes := Array.replicate 12 0
        start_ne_zero := by decide
        aligned_start := by decide
        stop_lt := by decide }
      cursor := 0x1000 }
    let h := ((Tenancy.fresh .onTenWords).after [.allocate 5]).heap
    (((Arena.allocate 9).run ((Leasing.fresh a).after [.allocate 3]).arena).result =
        .error (.outOfMemory 12 8) ∧
      (Arena.allocate 8).Succeeds ((Leasing.fresh a).after [.allocate 3]).arena) ∧
    (((Arena.allocate 16).run ((Leasing.fresh .onFifteenBytes).after []).arena).result =
        .error (.outOfMemory 16 15) ∧
      Truthful (fun m => (Arena.allocate m).Succeeds .onFifteenBytes) 16 16 12) ∧
    ((FirstFit.allocate 17).run h).result = .error (.outOfMemory 20 16) ∧
      Truthful (fun m => (FirstFit.allocate m).Succeeds h) 17 20 16 := by
  intro a h
  have ha : ((Arena.allocate 9).run ((Leasing.fresh a).after [.allocate 3]).arena).result =
      .error (.outOfMemory 12 8) := by decide +kernel
  have hf : ((Arena.allocate 16).run ((Leasing.fresh .onFifteenBytes).after []).arena).result =
      .error (.outOfMemory 16 15) := by decide +kernel
  have hh : ((FirstFit.allocate 17).run h).result = .error (.outOfMemory 20 16) := by
    decide +kernel
  obtain ⟨-, -, hwhole⟩ := (shortages_name_room 9 12 8).1 ⟨0x1000, 12⟩ a rfl [.allocate 3] ha
  obtain ⟨-, hdown, -⟩ :=
    (shortages_name_room 16 16 15).1 ⟨0xFFFFFFF0, 15⟩ _ Arena.opens_onFifteenBytes [] hf
  refine ⟨⟨ha, (hwhole.2 rfl).granted⟩, ⟨hf, hdown⟩, hh, ?_⟩
  exact ((shortages_name_room 17 20 16).2 h hh).1.2 (by decide +kernel)

def FirstFit.onTwoWords : FirstFit where
  memory := {
    start := 0x1000
    bytes := Array.replicate 8 0
    start_ne_zero := sample_ne_zero
    aligned_start := aligned_sample
    stop_lt := by decide }
  head := some 0x1000

theorem FirstFit.opens_onTwoWords : Opens ⟨0x1000, 8⟩ onTwoWords := by rfl

/-- When its only block is taken, a heap names no bytes to a request for none, and grants it not.
A new arena of fifteen bytes names all of them, and grants only twelve. -/
theorem shortages_not_all_truthful :
    (FirstFit.Opens ⟨0x1000, 8⟩ .onTwoWords ∧
      ((FirstFit.allocate 0).run ((Tenancy.fresh .onTwoWords).after [.allocate 0]).heap).result =
        .error (.outOfMemory 0 0) ∧
      ¬ Truthful (fun m => (FirstFit.allocate m).Succeeds
        ((Tenancy.fresh .onTwoWords).after [.allocate 0]).heap) 0 0 0) ∧
    Arena.Opens ⟨0xFFFFFFF0, 15⟩ .onFifteenBytes ∧
      ((Arena.allocate 16).run .onFifteenBytes).result = .error (.outOfMemory 16 15) ∧
      ¬ Truthful (fun m => (Arena.allocate m).Succeeds .onFifteenBytes) 16 16 15 := by
  refine ⟨⟨FirstFit.opens_onTwoWords, by decide +kernel, fun ht => ?_⟩,
    Arena.opens_onFifteenBytes, by decide +kernel, fun ht => ?_⟩
  · exact absurd ht.less (by decide)
  · obtain ⟨p, hp⟩ := ht.granted
    have hf : ((Arena.allocate 15).run .onFifteenBytes).result = .error (.outOfMemory 16 15) := by
      decide +kernel
    rw [hf] at hp
    cases hp

end HeapWindow
