import HeapWindow.Arena
import HeapWindow.Proofs.Frame

/-!
# The cursor of an arena

While the cursor is between the first address of the memory and the first one past it, the counts of
an arena are exact, and what is asked for is handed out if it fits behind the cursor and refused if
not. The bytes that are to be cleared are then in memory, so that clearing them never fails.
-/

namespace HeapWindow
namespace Arena

open Rounding

variable {a : Arena} {n need room : UInt32} {k : Nat} {p : Addr} {fault : Fault}
  {o : Outcome Arena Addr}

/-- The bytes that are handed out when `k` are asked for, or why there are none. -/
def grant (a : Arena) (k : Nat) : Except Fault UInt32 :=
  if UInt32.size ≤ k + 3 then .error .requestTooLarge
  else if a.remaining.toNat < (k + 3) / 4 * 4 then
    .error (.outOfMemory (.ofNat ((k + 3) / 4 * 4)) a.remaining)
  else .ok (.ofNat ((k + 3) / 4 * 4))

theorem ne_whole (hk : UInt32.size ≤ k + 3) : need.toNat ≠ (k + 3) / 4 * 4 := by
  have hneed := need.toNat_lt
  simp only [UInt32.size] at hk
  omega

theorem grant_eq_ok_iff :
    a.grant k = .ok need ↔ need.toNat = (k + 3) / 4 * 4 ∧ need.toNat ≤ a.remaining.toNat := by
  rw [grant]
  split
  · next hk => simp [ne_whole hk]
  · next hk =>
    have ht := toNat_ofNat_whole (Nat.not_le.1 hk)
    split
    · simp only [reduceCtorEq, false_iff]
      omega
    · rw [Except.ok.injEq, ← UInt32.toNat_inj, ht]
      omega

theorem grant_eq_tooLarge_iff : a.grant k = .error .requestTooLarge ↔ UInt32.size ≤ k + 3 := by
  rw [grant]
  split
  · simpa
  · split <;> simp <;> omega

theorem grant_eq_outOfMemory_iff :
    a.grant k = .error (.outOfMemory need room) ↔
      need.toNat = (k + 3) / 4 * 4 ∧ room = a.remaining ∧ room < need := by
  rw [grant]
  split
  · next hk => simp [ne_whole hk]
  · next hk =>
    have ht := toNat_ofNat_whole (Nat.not_le.1 hk)
    split
    · next hlt =>
      rw [Except.error.injEq, Fault.outOfMemory.injEq, ← UInt32.toNat_inj, ht]
      constructor
      · rintro ⟨he, rfl⟩
        exact ⟨he.symm, rfl, UInt32.lt_iff_toNat_lt.2 (by omega)⟩
      · rintro ⟨he, rfl, -⟩
        exact ⟨he.symm, rfl⟩
    · simp only [reduceCtorEq, false_iff]
      rintro ⟨he, rfl, hlt⟩
      rw [UInt32.lt_iff_toNat_lt] at hlt
      omega

theorem grant_ne_outOfBounds {len : UInt32} : a.grant k ≠ .error (.outOfBounds p len) := by
  rw [grant]
  split
  · nofun
  · split <;> nofun

/-- What becomes of an arena that is asked for `k` bytes. If they are handed out, only they may be
written. -/
structure Served (a : Arena) (k : Nat) (o : Outcome Arena Addr) : Prop where
  answer : o.result = (a.grant k).map fun _ => a.cursor
  refused : ∀ fault, a.grant k = .error fault → o.state = a
  granted : ∀ need, a.grant k = .ok need → o.state.cursor = a.cursor + need ∧
    Memory.SameBut (fun x => a.cursor.toNat ≤ x ∧ x < a.cursor.toNat + k) a.memory o.state.memory

theorem Served.error_iff (hs : Served a k o) :
    o.result = .error fault ↔ a.grant k = .error fault := by
  rw [hs.answer]
  cases a.grant k <;> simp [Except.map]

theorem served_of_error (hg : a.grant k = .error fault) (hr : o.result = .error fault)
    (hs : o.state = a) : Served a k o where
  answer := by rw [hr, hg]; rfl
  refused _ _ := hs
  granted _ h := by rw [hg] at h; cases h

theorem served_of_ok (hg : a.grant k = .ok need) (hr : o.result = .ok a.cursor)
    (hc : o.state.cursor = a.cursor + need)
    (hm : Memory.SameBut (fun x => a.cursor.toNat ≤ x ∧ x < a.cursor.toNat + k) a.memory
      o.state.memory) : Served a k o where
  answer := by rw [hr, hg]; rfl
  refused _ h := by rw [hg] at h; cases h
  granted _ h := by rw [hg] at h; cases h; exact ⟨hc, hm⟩

theorem run_allocate_of_grant (hg : a.grant n.toNat = .ok need) :
    (allocate n).run a =
      ⟨.ok a.cursor, { a with cursor := a.cursor + need }, [.arenaAdvanced a.cursor need]⟩ := by
  obtain ⟨hneed, hroom⟩ := grant_eq_ok_iff.1 hg
  have hn : roundUp? n = some need :=
    roundUp?_eq_some_iff.2 ⟨Nat.lt_of_not_le fun hle => ne_whole hle hneed, hneed⟩
  have hlt : ¬ a.remaining < need := UInt32.not_lt.2 (UInt32.le_iff_toNat_le.2 hroom)
  rw [run_allocate, hn]
  exact if_neg hlt

theorem served_allocate (n : UInt32) (a : Arena) : Served a n.toNat ((allocate n).run a) := by
  rw [run_allocate]
  cases hn : roundUp? n with
  | none => exact served_of_error (grant_eq_tooLarge_iff.2 (roundUp?_eq_none_iff.1 hn)) rfl rfl
  | some need =>
    have hneed := (roundUp?_eq_some_iff.1 hn).2
    by_cases hlt : a.remaining < need
    · simp only [if_pos hlt]
      exact served_of_error (grant_eq_outOfMemory_iff.2 ⟨hneed, rfl, hlt⟩) rfl rfl
    · have hle := UInt32.le_iff_toNat_le.1 (UInt32.not_lt.1 hlt)
      simp only [if_neg hlt]
      exact served_of_ok (grant_eq_ok_iff.2 ⟨hneed, hle⟩) rfl rfl (.refl _ _)

theorem allocate_ok_iff :
    ((allocate n).run a).result = .ok p ↔
      p = a.cursor ∧ ∃ need, roundUp? n = some need ∧ need ≤ a.remaining := by
  rw [run_allocate]
  cases hn : roundUp? n with
  | none => simp
  | some need =>
    by_cases hlt : a.remaining < need
    · simp [hlt, UInt32.not_le.2 hlt]
    · simp [hlt, UInt32.not_lt.1 hlt, eq_comm]

theorem allocate_tooLarge_iff :
    ((allocate n).run a).result = .error .requestTooLarge ↔ roundUp? n = none := by
  rw [(served_allocate n a).error_iff, grant_eq_tooLarge_iff, roundUp?_eq_none_iff]

theorem allocate_outOfMemory_iff :
    ((allocate n).run a).result = .error (.outOfMemory need room) ↔
      roundUp? n = some need ∧ room = a.remaining ∧ room < need := by
  rw [(served_allocate n a).error_iff, grant_eq_outOfMemory_iff, roundUp?_eq_some_iff, and_assoc]
  exact ⟨fun h => ⟨Nat.lt_of_not_le fun hle => ne_whole hle h.1, h⟩, And.right⟩

structure Bounded (a : Arena) : Prop where
  start_le : a.memory.start ≤ a.cursor
  le_stop : a.cursor ≤ a.memory.stop

namespace Bounded

theorem toNat_used (h : a.Bounded) : a.used.toNat = a.cursor.toNat - a.memory.start.toNat :=
  UInt32.toNat_sub_of_le _ _ h.start_le

theorem toNat_remaining (h : a.Bounded) :
    a.remaining.toNat = a.memory.stop.toNat - a.cursor.toNat :=
  UInt32.toNat_sub_of_le _ _ h.le_stop

theorem used_add_remaining (h : a.Bounded) :
    a.used.toNat + a.remaining.toNat = a.capacity.toNat := by
  have hstart := UInt32.le_iff_toNat_le.1 h.start_le
  have hstop := UInt32.le_iff_toNat_le.1 h.le_stop
  rw [h.toNat_used, h.toNat_remaining, capacity, Memory.toNat_size]
  rw [Memory.toNat_stop] at hstop ⊢
  omega

theorem holds (h : a.Bounded) (hk : k ≤ a.remaining.toNat) : a.memory.Holds a.cursor k := by
  have hstop := UInt32.le_iff_toNat_le.1 h.le_stop
  rw [h.toNat_remaining] at hk
  exact Memory.holds_iff.2 ⟨UInt32.le_iff_toNat_le.1 h.start_le, by omega⟩

theorem toNat_advance (h : a.Bounded) (hn : need.toNat ≤ a.remaining.toNat) :
    (a.cursor + need).toNat = a.cursor.toNat + need.toNat := by
  have hstop := (Memory.holds_iff.1 (h.holds hn)).2
  have hlt := a.memory.stop.toNat_lt
  rw [UInt32.toNat_add, Nat.mod_eq_of_lt (by omega)]

theorem run_allocateZeroed_of_grant (h : a.Bounded) {count size : UInt32}
    (hg : a.grant (count.toNat * size.toNat) = .ok need) :
    (allocateZeroed count size).run a =
      ⟨.ok a.cursor,
        ⟨a.memory.put a.cursor (.replicate (count.toNat * size.toNat) 0), a.cursor + need⟩,
        [.arenaAdvanced a.cursor need]⟩ := by
  obtain ⟨hneed, hroom⟩ := grant_eq_ok_iff.1 hg
  have hlt : count.toNat * size.toNat < UInt32.size := by
    have := need.toNat_lt
    simp only [UInt32.size]
    omega
  have hk : (count * size).toNat = count.toNat * size.toNat := by
    rw [UInt32.toNat_mul, Nat.mod_eq_of_lt hlt]
  have hb : a.memory.Holds a.cursor (count * size).toNat := h.holds (by omega)
  rw [← hk] at hg
  rw [run_allocateZeroed, if_pos hlt, run_allocate_of_grant hg]
  simp only [Memory.run_fill hb, hk]
  rfl

/-- A request for some items of one size is served as one for all of their bytes. -/
theorem served_allocateZeroed (h : a.Bounded) (count size : UInt32) :
    Served a (count.toNat * size.toNat) ((allocateZeroed count size).run a) := by
  cases hg : a.grant (count.toNat * size.toNat) with
  | ok need =>
    obtain ⟨hneed, hroom⟩ := grant_eq_ok_iff.1 hg
    have hput := Memory.sameBut_put (m := a.memory) (a := a.cursor)
      (.replicate (count.toNat * size.toNat) 0)
      (by rw [List.length_replicate]; exact h.holds (by omega))
    rw [List.length_replicate] at hput
    rw [h.run_allocateZeroed_of_grant hg]
    exact served_of_ok hg rfl rfl hput
  | error fault =>
    rw [run_allocateZeroed]
    by_cases hlt : count.toNat * size.toNat < UInt32.size
    · have hk : (count * size).toNat = count.toNat * size.toNat := by
        rw [UInt32.toNat_mul, Nat.mod_eq_of_lt hlt]
      have hs := served_allocate (count * size) a
      rw [hk] at hs
      rw [if_pos hlt]
      generalize (allocate (count * size)).run a = o at hs
      obtain ⟨result, b, events⟩ := o
      have hanswer := hs.answer
      rw [hg] at hanswer
      cases hanswer
      exact served_of_error hg rfl (hs.refused fault hg)
    · rw [if_neg hlt]
      have htoo := grant_eq_tooLarge_iff (a := a) (k := count.toNat * size.toNat)
      exact served_of_error (htoo.2 (by omega)) rfl rfl

end Bounded
end Arena
end HeapWindow
