import HeapWindow.Proofs.Leases

/-!
# Cleared leases

Room for some items of one size is asked for by two counts. Their product is checked before it is
rounded, and the rounded one before the cursor moves, so that what is to be cleared is in memory when
it comes to that. Only the bytes that were asked for are cleared, whatever they held: the padding
behind them and all earlier leases are left as they are.
-/

namespace HeapWindow

open Rounding

namespace Leasing

variable {w : Window} {a : Arena} {l : Leasing} {need : UInt32} {k : Nat} {o : Outcome Arena Addr}

/-- The next `need` bytes were handed out, and the first `k` of them were cleared. No other byte was
written, neither behind them nor in the leases. -/
structure Clears (l : Leasing) (k : Nat) (need : UInt32) (o : Outcome Arena Addr) : Prop where
  answer : o.result = .ok l.arena.cursor
  cursor : o.state.cursor.toNat = l.arena.cursor.toNat + need.toNat
  le_stop : o.state.cursor ≤ l.arena.memory.stop
  cleared : ∀ x, l.arena.cursor.toNat ≤ x → x < l.arena.cursor.toNat + k →
    o.state.memory.byte x = 0
  frame : Memory.SameBut (fun x => l.arena.cursor.toNat ≤ x ∧ x < l.arena.cursor.toNat + k)
    l.arena.memory o.state.memory
  padding : ∀ x, l.arena.cursor.toNat + k ≤ x → x < o.state.cursor.toNat →
    o.state.memory.byte x = l.arena.memory.byte x
  leases : ∀ e ∈ l.leases, ∀ x, e.start ≤ x → x < e.stop →
    o.state.memory.byte x = l.arena.memory.byte x

theorem Fills.clears (h : Fills w l) {count size : UInt32}
    (hg : l.arena.grant (count.toNat * size.toNat) = .ok need) :
    Clears l (count.toNat * size.toNat) need ((Arena.allocateZeroed count size).run l.arena) := by
  obtain ⟨hneed, hroom⟩ := Arena.grant_eq_ok_iff.1 hg
  have hframe := ((h.bounded.served_allocateZeroed count size).granted need hg).2
  have hcursor := h.bounded.toNat_advance hroom
  rw [h.bounded.run_allocateZeroed_of_grant hg] at hframe ⊢
  generalize count.toNat * size.toNat = k at hneed hframe
  refine ⟨rfl, hcursor, ?_, fun x hlo hhi => ?_, hframe, fun x hlo _ => hframe.byte x (by omega),
    fun e he x _ hhi => ?_⟩
  · rw [UInt32.le_iff_toNat_le, hcursor]
    exact (Memory.holds_iff.1 (h.bounded.holds hroom)).2
  · have hk : l.arena.memory.Holds l.arena.cursor (List.replicate k (0 : UInt8)).length := by
      rw [List.length_replicate]
      exact h.bounded.holds (by omega)
    rw [Memory.byte_put hk, List.length_replicate, if_pos ⟨hlo, hhi⟩,
      List.getD_eq_getElem?_getD, List.getElem?_replicate, if_pos (by omega)]
    rfl
  · have hstop := (h.row.bounds.2 e he).2.2
    exact hframe.byte x (by omega)

/-- Whatever was asked of an arena before, room for `count` items of `size` bytes is refused if 32
bits cannot hold their bytes, or these in whole words, and otherwise if they do not fit behind the
cursor. If they do, they are handed out there and cleared, and no other byte changes. No access is
out of bounds. -/
theorem items_cleared (hw : Arena.Opens w a) (rs : List Arena.Request) (count size : UInt32) :
    let l := (fresh a).after rs
    let total := count.toNat * size.toNat
    let o := (Arena.allocateZeroed count size).run l.arena
    (o.result = .error .requestTooLarge ↔
      UInt32.size ≤ total ∨ roundUp? (.ofNat total) = none) ∧
    (∀ need, total < UInt32.size → roundUp? (.ofNat total) = some need →
      (o.result = .error (.outOfMemory need l.arena.remaining) ↔ l.arena.remaining < need) ∧
      (need ≤ l.arena.remaining → Clears l total need o)) ∧
    ∀ p len, o.result ≠ .error (.outOfBounds p len) := by
  intro l total o
  have hf : Fills w l := (fills_fresh hw).after rs
  have hs := hf.bounded.served_allocateZeroed count size
  have hrounded : ∀ {need}, total < UInt32.size → (roundUp? (.ofNat total) = some need ↔
      total + 3 < UInt32.size ∧ need.toNat = (total + 3) / 4 * 4) := by
    intro need hlt
    rw [roundUp?_eq_some_iff, UInt32.toNat_ofNat_of_lt' hlt]
  refine ⟨?_, fun need hlt hneed => ⟨?_, fun hroom => ?_⟩, fun p len hb => ?_⟩
  · rw [hs.error_iff, Arena.grant_eq_tooLarge_iff]
    by_cases hlt : total < UInt32.size
    · rw [roundUp?_eq_none_iff, UInt32.toNat_ofNat_of_lt' hlt]
      omega
    · omega
  · rw [hs.error_iff, Arena.grant_eq_outOfMemory_iff]
    exact ⟨fun h => h.2.2, fun h => ⟨((hrounded hlt).1 hneed).2, rfl, h⟩⟩
  · exact hf.clears (Arena.grant_eq_ok_iff.2
      ⟨((hrounded hlt).1 hneed).2, UInt32.le_iff_toNat_le.1 hroom⟩)
  · exact Arena.grant_ne_outOfBounds (hs.error_iff.1 hb)

/-- Five bytes are cleared in memory that is all dirty, and three behind them are not; nine would need
twelve bytes where eleven are left, and 32 bits cannot hold two to the power of 32. -/
theorem items_cleared_on_fifteen_bytes :
    let rs : List Arena.Request := [.allocate 4, .write 0xFFFFFFF0 (List.replicate 15 0xAB)]
    Clears ((fresh .onFifteenBytes).after rs) 5 8
        ((Arena.allocateZeroed 1 5).run ((fresh .onFifteenBytes).after rs).arena) ∧
      ((Arena.allocateZeroed 3 3).run ((fresh .onFifteenBytes).after rs).arena).result =
        .error (.outOfMemory 12 11) ∧
      ((Arena.allocateZeroed 0x10000 0x10000).run ((fresh .onFifteenBytes).after rs).arena).result =
        .error .requestTooLarge := by
  intro rs
  have hitems := items_cleared Arena.opens_onFifteenBytes rs
  have hroom : ((fresh .onFifteenBytes).after rs).arena.remaining = 11 := by decide +kernel
  have h₅ : (1 : UInt32).toNat * (5 : UInt32).toNat = 5 := by decide
  have hfive := (hitems 1 5).2.1 8 (by decide) (by decide)
  have hnine := (hitems 3 3).2.1 12 (by decide) (by decide)
  rw [hroom] at hfive hnine
  rw [h₅] at hfive
  exact ⟨hfive.2 (by decide), hnine.1.2 (by decide),
    (hitems 0x10000 0x10000).1.2 (Or.inl (by decide))⟩

end Leasing
end HeapWindow
