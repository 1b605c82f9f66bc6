import HeapWindow.Proofs.Shortages

/-!
# Thresholds

The size of the largest free block is read off a whole walk, while a request stops at the first
block that has room for its whole words. Yet that size is just where requests begin to be refused,
whatever memory holds: it is a whole number of words itself, and neither the reader nor the request
sees anything behind a broken link. Why a request is refused does not depend on how it was searched.
-/

namespace HeapWindow
namespace FirstFit

open Rounding

variable {h : FirstFit} {n : UInt32} {fault : Fault}

def refusal (h : FirstFit) (n : UInt32) : Fault :=
  match roundUp? n, h.walk.broken with
  | none, _ => .requestTooLarge
  | some _, some a => .brokenChain a
  | some need, none => .outOfMemory need h.largestFree

theorem result_of_not_succeeds (hn : ¬ (allocate n).Succeeds h) :
    ((allocate n).run h).result = .error (h.refusal n) := by
  have hs := served_allocate n h
  rw [Action.Succeeds] at hn
  generalize (allocate n).run h = o at hs hn
  cases hs with
  | met => exact absurd ⟨_, rfl⟩ hn
  | tooLarge rounded => rw [refusal, rounded]
  | broken rounded _ stuck => rw [refusal, rounded, stuck]
  | full rounded _ ended =>
    rw [refusal, rounded, ended]
    rfl

theorem result_eq_error_iff :
    ((allocate n).run h).result = .error fault ↔
      ¬ (allocate n).Succeeds h ∧ fault = h.refusal n := by
  constructor
  · intro he
    have hn : ¬ (allocate n).Succeeds h := by
      rintro ⟨p, hp⟩
      rw [he] at hp
      cases hp
    rw [result_of_not_succeeds hn] at he
    exact ⟨hn, (Except.error.inj he).symm⟩
  · rintro ⟨hn, rfl⟩
    exact result_of_not_succeeds hn

theorem succeeds_iff_le_largestFree (hw : h.walk.nodes ≠ []) :
    (allocate n).Succeeds h ↔ n ≤ h.largestFree := by
  constructor
  · intro hs
    exact UInt32.not_lt.1 fun hlt => not_succeeds_of_largest_lt hlt hs
  · intro hle
    obtain ⟨k, hk, he⟩ := Walk.exists_size_eq_largest hw
    refine allocate_succeeds_iff.2 ⟨k, hk, ?_⟩
    rw [he]
    exact hle

theorem not_succeeds_of_nodes_eq_nil (hw : h.walk.nodes = []) : ¬ (allocate n).Succeeds h := by
  rw [allocate_succeeds_iff, hw]
  rintro ⟨k, hk, -⟩
  cases hk

theorem exists_roundUp? (hn : n ≤ 0xFFFFFFFC) : ∃ need, roundUp? n = some need := by
  have hle := UInt32.le_iff_toNat_le.1 hn
  refine Option.ne_none_iff_exists'.1 fun h₀ => ?_
  have hsize := roundUp?_eq_none_iff.1 h₀
  have htop : (0xFFFFFFFC : UInt32).toNat + 3 < UInt32.size := by decide
  omega

/-- Whatever memory holds and wherever the first link leads: if there is a free block, then the size
of the largest is where requests begin to be refused, and otherwise all are refused. A request that
could be rounded up is refused for the broken link at which the walk ends, and if there is none for
want of so many bytes. -/
theorem largestFree_is_threshold (h : FirstFit) (n : UInt32) :
    (h.walk.nodes ≠ [] → ((allocate n).Succeeds h ↔ n ≤ h.largestFree)) ∧
    (h.walk.nodes = [] → ¬ (allocate n).Succeeds h) ∧
    (¬ (allocate n).Succeeds h → n ≤ 0xFFFFFFFC →
      (∀ a, h.walk.broken = some a → ((allocate n).run h).result = .error (.brokenChain a)) ∧
      (h.walk.broken = none → ∃ need, roundUp? n = some need ∧
        ((allocate n).run h).result = .error (.outOfMemory need h.largestFree))) := by
  refine ⟨succeeds_iff_le_largestFree, not_succeeds_of_nodes_eq_nil, fun hs hn => ?_⟩
  obtain ⟨need, hneed⟩ := exists_roundUp? hn
  have hr := result_of_not_succeeds hs
  rw [refusal, hneed] at hr
  refine ⟨fun a ha => ?_, fun hb => ⟨need, hneed, ?_⟩⟩
  · rw [hr, ha]
  · rw [hr, hb]

/-- A block of eight bytes is linked to one of three, which no walk goes on to. Eight bytes are
granted and nine refused for the broken link; in a heap of ten words 33 bytes are refused for want of
36, and with a link to nowhere in front not even none is granted. -/
theorem largestFree_is_threshold_at_broken_link :
    let h : FirstFit := {
      memory := {
        start := 0x1000
        bytes := #[8, 0, 0, 0, 0x10, 0x10, 0, 0] ++ Array.replicate 8 0 ++ #[3] ++ Array.replicate 7 0
        start_ne_zero := sample_ne_zero
        aligned_start := aligned_sample
        stop_lt := by decide }
      head := some 0x1000 }
    ((allocate 8).Succeeds h ↔ 8 ≤ h.largestFree) ∧
      ((allocate 9).run h).result = .error (.brokenChain 0x1010) ∧
      (∃ need, roundUp? 33 = some need ∧
        ((allocate 33).run onTenWords).result = .error (.outOfMemory need onTenWords.largestFree)) ∧
      ¬ (allocate 0).Succeeds { h with head := some 0x2000 } := by
  intro h
  have hnodes : h.walk.nodes ≠ [] := by decide +kernel
  have hbroken : h.walk.broken = some 0x1010 := by decide +kernel
  have h₉ : ¬ (allocate 9).Succeeds h := by
    rw [(largestFree_is_threshold h 9).1 hnodes]
    decide +kernel
  have h₃₃ : ¬ (allocate 33).Succeeds onTenWords := by
    rw [(largestFree_is_threshold onTenWords 33).1 (by decide +kernel)]
    decide +kernel
  refine ⟨(largestFree_is_threshold h 8).1 hnodes, ?_, ?_, ?_⟩
  · exact ((largestFree_is_threshold h 9).2.2 h₉ (by decide)).1 0x1010 hbroken
  · exact ((largestFree_is_threshold onTenWords 33).2.2 h₃₃ (by decide)).2 (by decide +kernel)
  · exact (largestFree_is_threshold { h with head := some 0x2000 } 0).2.1 (by decide +kernel)

end FirstFit
end HeapWindow
