import HeapWindow.Proofs.Containment
import HeapWindow.Proofs.Openings

/-!
# What is taken back and what is walked over

A block is checked when it is given back, and once more whenever a walk comes to it. Both checks ask
that its header begins on a word and that all of it is inside memory. Only the second asks besides
that it is a whole number of words: a block that is not is taken back, and then no walk gets past
the first link.
-/

namespace HeapWindow
namespace FirstFit

open Rounding

variable {m : Memory} {h h' : FirstFit} {n : Node} {p : Addr} {es : List Event}

/-- The check on the way in leaves to the one on the way out whether words are whole. -/
theorem at?_of_blockOf (hn : blockOf m p = .ok n) :
    Node.at? m n.addr = if Aligned n.size then some n else none := by
  obtain ⟨he, -, hi⟩ := blockOf_eq_ok hn
  simp only [Node.at?, ← he, hi, true_and]

theorem at?_pushed (hn : blockOf h.memory p = .ok n) :
    Node.at? (h.pushed n.addr).memory n.addr =
      if Aligned n.size then some ⟨⟨n.size, h.head.filter (· ≠ 0)⟩, n.addr⟩ else none := by
  obtain ⟨he, -, hi⟩ := blockOf_eq_ok hn
  have hf := Memory.sameBut_putNext h.head hi.2.1
  have hheader : Header.peek h.memory n.addr = n.toHeader := (congrArg Node.toHeader he).symm
  have hp : Node.peek (h.pushed n.addr).memory n.addr =
      ⟨⟨n.size, h.head.filter (· ≠ 0)⟩, n.addr⟩ := by
    rw [Node.peek, pushed, Header.peek_put_next hi.2.1, hheader]
  have hin : (⟨⟨n.size, h.head.filter (· ≠ 0)⟩, n.addr⟩ : Node).Inside (h.pushed n.addr).memory :=
    hf.inside.2 hi
  simp only [Node.at?, hp, hin, true_and]

@[simp] theorem capacity_pushed (h : FirstFit) (a : Addr) : (h.pushed a).capacity = h.capacity := by
  rw [capacity_eq, capacity_eq, pushed, Memory.size_bytes_put]

theorem capacity_pos (hi : n.Inside h.memory) : 0 < h.capacity := by
  have hlo := hi.start_le
  have hhi := (Memory.holds_iff.1 hi.2.1).2
  rw [Memory.toNat_stop] at hhi
  rw [capacity_eq]
  omega

theorem walk_pushed (hn : blockOf h.memory p = .ok n) :
    if Aligned n.size then
      ∃ k later, (h.pushed n.addr).walk.items = .ok k :: later ∧ k.addr = n.addr ∧ k.size = n.size
    else (h.pushed n.addr).walk.items = [.error (.brokenChain n.addr)] := by
  obtain ⟨-, -, hi⟩ := blockOf_eq_ok hn
  obtain ⟨room, hroom⟩ : ∃ room, h.capacity = room + 1 :=
    Nat.exists_eq_succ_of_ne_zero (Nat.ne_of_gt (capacity_pos hi))
  have hw : (h.pushed n.addr).walk =
      Walk.follow (h.pushed n.addr).memory (some n.addr) (room + 1) := by
    rw [walk, capacity_pushed, hroom]
    rfl
  rw [hw, Walk.follow_succ, at?_pushed hn]
  by_cases hs : Aligned n.size
  · simp only [if_pos hs]
    exact ⟨_, _, rfl, rfl, rfl⟩
  · simp only [if_neg hs]
    rfl

theorem pushed_of_give {give : Action FirstFit Unit} (hp : p ≠ 0)
    (hg : give ∈ [release p, releaseOnce p]) (hr : give.run h = ⟨.ok (), h', es⟩) :
    ∃ n, blockOf h.memory p = .ok n ∧ h' = h.pushed n.addr := by
  have hr' : (release p).run h = ⟨.ok (), h', es⟩ := by
    rcases List.mem_cons.1 hg with rfl | hg
    · exact hr
    · obtain rfl := List.mem_singleton.1 hg
      exact release_of_releaseOnce hr
  rw [run_release, if_neg hp] at hr'
  cases hn : blockOf h.memory p with
  | error fault =>
    rw [hn] at hr'
    cases hr'
  | ok n =>
    rw [hn] at hr'
    cases hr'
    exact ⟨n, rfl, rfl⟩

/-- A block that is taken back is the first to be met on the next walk if it is a whole number of
words. If it is not, the next walk breaks off at it, and nothing that was free before is met. -/
theorem taken_back_is_walkable_iff (h h' : FirstFit) (p : Addr) (es : List Event) (hp : p ≠ 0)
    (give : Action FirstFit Unit) (hg : give ∈ [release p, releaseOnce p])
    (hr : give.run h = ⟨.ok (), h', es⟩) :
    ∃ a size, a.toNat + 8 = p.toNat ∧ h.payloadSize p = .ok size ∧ h'.head = some a ∧
      (Aligned size ↔ ∃ n, Node.at? h.memory a = some n) ∧
      (Aligned size ↔ ∃ k later, h'.walk.items = .ok k :: later ∧ k.addr = a) ∧
      (¬ Aligned size ↔ h'.walk.items = [.error (.brokenChain a)]) := by
  obtain ⟨n, hn, rfl⟩ := pushed_of_give hp hg hr
  have hsize : h.payloadSize p = .ok n.size := by
    rw [payloadSize, hn]
    rfl
  have hw := walk_pushed hn
  refine ⟨n.addr, n.size, (blockOf_eq_ok hn).2.1, hsize, rfl, ?_⟩
  rw [at?_of_blockOf hn]
  by_cases hs : Aligned n.size
  · rw [if_pos hs] at hw
    obtain ⟨k, later, hitems, hk, -⟩ := hw
    simp [hs, hitems, hk]
  · rw [if_neg hs] at hw
    simp [hs, hw]

def withOddWord : FirstFit where
  memory := {
    start := 0x1000
    bytes := #[56, 0, 0, 0] ++ Array.replicate 12 0 ++ #[5, 0, 0, 0] ++ Array.replicate 44 0
    start_ne_zero := sample_ne_zero
    aligned_start := aligned_sample
    stop_lt := by decide }
  head := some 0x1000

/-- The odd word is taken for a size and breaks the walk. The zero words behind it are taken for the
header of a block without payload, which can be walked over. -/
theorem taken_back_is_walkable_iff_on_odd_word :
    ((release 0x1018).run withOddWord).state.walk.items = [.error (.brokenChain 0x1010)] ∧
      ∃ k later, ((releaseOnce 0x1020).run withOddWord).state.walk.items = .ok k :: later ∧
        k.addr = 0x1018 := by
  constructor
  · obtain ⟨a, size, ha, hsize, -, -, -, hbroken⟩ :=
      taken_back_is_walkable_iff withOddWord ((release 0x1018).run withOddWord).state 0x1018
        [.blockReleased 0x1010] (by decide) (release 0x1018) (by simp) (by decide +kernel)
    have h₅ : withOddWord.payloadSize 0x1018 = .ok 5 := by decide +kernel
    rw [h₅] at hsize
    obtain rfl := Except.ok.inj hsize
    obtain rfl : a = 0x1010 := UInt32.toNat_inj.1 (Nat.add_right_cancel ha)
    exact hbroken.1 (by decide)
  · obtain ⟨a, size, ha, hsize, -, -, hmet, -⟩ :=
      taken_back_is_walkable_iff withOddWord ((releaseOnce 0x1020).run withOddWord).state 0x1020
        [.blockReleased 0x1018] (by decide) (releaseOnce 0x1020) (by simp) (by decide +kernel)
    have h₀ : withOddWord.payloadSize 0x1020 = .ok 0 := by decide +kernel
    rw [h₀] at hsize
    obtain rfl := Except.ok.inj hsize
    obtain rfl : a = 0x1018 := UInt32.toNat_inj.1 (Nat.add_right_cancel ha)
    exact hmet.1 (by decide)

/-- Not every block that is taken back can be walked over. -/
theorem not_all_taken_back_walkable :
    ¬ ∀ (h h' : FirstFit) (p : Addr) (es : List Event), p ≠ 0 →
      (release p).run h = ⟨.ok (), h', es⟩ →
      ∃ k later, h'.walk.items = .ok k :: later ∧ k.addr.toNat + 8 = p.toNat := by
  intro hall
  have hw : ((release 0x1018).run withOddWord).state.walk.items =
      [.error (.brokenChain 0x1010)] := by decide +kernel
  obtain ⟨k, later, hitems, -⟩ := hall withOddWord ((release 0x1018).run withOddWord).state 0x1018
    [.blockReleased 0x1010] (by decide) (by decide +kernel)
  rw [hw] at hitems
  cases hitems

end FirstFit
end HeapWindow
