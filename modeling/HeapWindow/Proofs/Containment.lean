import HeapWindow.Checked
import HeapWindow.Proofs.Allocation
import HeapWindow.Proofs.OrderlyChains

/-!
# Heaps with corrupt memory

Nothing is assumed here of the bytes in memory or of the first link. Every block met on a walk has
been found to be inside memory, and so has every block that is given back. It follows that no sum
wraps and no access is out of bounds, that what is handed out is inside memory, and that nothing is
written but the links and headers that an operation is about.
-/

namespace HeapWindow
namespace FirstFit

open Rounding

variable {h h' : FirstFit} {n r : Node} {spot : Spot} {need size : UInt32} {p : Addr}
  {before : Option Addr} {fault : Fault} {es : List Event}

theorem sameBut_linked (next : Option Addr) (hb : ∀ a, before = some a → h.memory.Holds a 8) :
    Memory.SameBut (fun x => ∃ a, before = some a ∧ a.toNat + 4 ≤ x ∧ x < a.toNat + 8) h.memory
      (h.linked before next).memory := by
  cases before with
  | none => exact .refl _ _
  | some a => exact (Memory.sameBut_putNext next (hb a rfl)).mono fun x hx => ⟨a, rfl, hx⟩

def without (h : FirstFit) (spot : Spot) (need : UInt32) : FirstFit :=
  match spot.node.rest? need with
  | none => h.linked spot.before spot.node.next
  | some r => (h.cutAt spot.node.addr need r).linked spot.before (some r.addr)

theorem run_take (hs : Spot.find? need none h.walk.nodes = some spot) :
    ∃ e, (take spot need).run h =
      ⟨.ok (Header.payload spot.node.addr), h.without spot need, [e]⟩ := by
  obtain ⟨hn, hb⟩ := inside_of_find? hs
  unfold without
  cases hr : spot.node.rest? need with
  | none => exact ⟨_, run_take_of_none hb hr⟩
  | some r => exact ⟨_, run_take_of_some hn hb hr⟩

inductive Served (h : FirstFit) (size : UInt32) : Outcome FirstFit Addr → Prop
  | tooLarge (rounded : roundUp? size = none) : Served h size ⟨.error .requestTooLarge, h, []⟩
  | met {need : UInt32} {spot : Spot} {e : Event} (rounded : roundUp? size = some need)
      (found : Spot.find? need none h.walk.nodes = some spot) :
      Served h size ⟨.ok (Header.payload spot.node.addr), h.without spot need, [e]⟩
  | broken {need : UInt32} {a : Addr} (rounded : roundUp? size = some need)
      (lacking : Spot.find? need none h.walk.nodes = none) (stuck : h.walk.broken = some a) :
      Served h size ⟨.error (.brokenChain a), h, []⟩
  | full {need : UInt32} (rounded : roundUp? size = some need)
      (lacking : Spot.find? need none h.walk.nodes = none) (ended : h.walk.broken = none) :
      Served h size
        ⟨.error (.outOfMemory need h.walk.largest), h, [.chainFull need h.walk.largest]⟩

theorem served_allocate (size : UInt32) (h : FirstFit) : Served h size ((allocate size).run h) := by
  rw [run_allocate]
  cases hn : roundUp? size with
  | none => exact .tooLarge hn
  | some need =>
    dsimp only
    cases hs : Spot.find? need none h.walk.nodes with
    | some spot =>
      obtain ⟨e, he⟩ := run_take hs
      show Served h size ((take spot need).run h)
      rw [he]
      exact .met hn hs
    | none =>
      cases hb : h.walk.broken with
      | some a => exact .broken hn hs hb
      | none => exact .full hn hs hb

/-- Where an allocation may write that takes `need` bytes of `n`, behind the blocks `front`: if `n`
is cut, its size and the header of its rest, and in any case the link of the block before it. -/
def TakeReaches (front : List Node) (n : Node) (need : UInt32) (x : Nat) : Prop :=
  (need.toNat + 16 ≤ n.size.toNat ∧ ((n.addr.toNat ≤ x ∧ x < n.addr.toNat + 4) ∨
    (n.addr.toNat + 8 + need.toNat ≤ x ∧ x < n.addr.toNat + 8 + need.toNat + 8))) ∨
  ∃ k, front.getLast? = some k ∧ k.addr.toNat + 4 ≤ x ∧ x < k.addr.toNat + 8

theorem sameBut_without {front : List Node} (hn : n.Inside h.memory)
    (hb : ∀ k, front.getLast? = some k → h.memory.Holds k.addr 8) :
    Memory.SameBut (TakeReaches front n need) h.memory
      (h.without ⟨front.getLast?.map fun k => k.addr, n⟩ need).memory := by
  have hb' : ∀ a, (front.getLast?.map fun k => k.addr) = some a → h.memory.Holds a 8 := by
    intro a ha
    obtain ⟨k, hk, rfl⟩ := Option.map_eq_some_iff.1 ha
    exact hb k hk
  have hlink : ∀ x, (∃ a, (front.getLast?.map fun k => k.addr) = some a ∧
      a.toNat + 4 ≤ x ∧ x < a.toNat + 8) → TakeReaches front n need x := by
    rintro x ⟨a, ha, hx⟩
    obtain ⟨k, hk, rfl⟩ := Option.map_eq_some_iff.1 ha
    exact Or.inr ⟨k, hk, hx⟩
  unfold without
  cases hr : n.rest? need with
  | none => exact (sameBut_linked n.next hb').mono hlink
  | some r =>
    have hcut := sameBut_cutAt hn hr
    have haddr := (Node.rest?_eq_some hn hr).1
    have hle := (Node.size_of_rest? hn hr).2
    rw [haddr] at hcut
    have hlinked := sameBut_linked (some r.addr) fun a ha => hcut.holds_iff.2 (hb' a ha)
    exact (hcut.mono fun x hx => Or.inl ⟨hle, hx⟩).trans (hlinked.mono hlink)

/-- For a request of `size` bytes the first block on the walk with so much room was taken. -/
structure Taken (h h' : FirstFit) (size : UInt32) (p : Addr) (need : UInt32) (front : List Node)
    (n : Node) (back : List Node) : Prop where
  rounded : roundUp? size = some need
  walk : h.walk.nodes = front ++ n :: back
  lacking : ∀ k ∈ front, k.size < need
  room : need ≤ n.size
  addr : p.toNat = n.addr.toNat + 8
  aligned : Aligned p
  start_le : h.memory.start.toNat + 8 ≤ p.toNat
  le_stop : p.toNat + need.toNat ≤ h.memory.start.toNat + h.memory.bytes.size
  frame : Memory.SameBut (TakeReaches front n need) h.memory h'.memory

theorem taken_of_allocate (hr : (allocate size).run h = ⟨.ok p, h', es⟩) :
    ∃ need front n back, Taken h h' size p need front n back := by
  have hs := served_allocate size h
  rw [hr] at hs
  cases hs with
  | @met need spot e rounded found =>
    obtain ⟨front, back, hw, hf, hle, hb⟩ := Spot.find?_eq_some_iff.1 found
    obtain ⟨before, n⟩ := spot
    obtain rfl : before = front.getLast?.map fun k => k.addr := by simpa using hb
    have hin : ∀ k ∈ h.walk.nodes, k.Inside h.memory := fun k hk =>
      (Node.at?_eq_some_iff.1 (Walk.at?_of_mem_nodes hk)).2.1
    have hn : n.Inside h.memory := hin n (by simp [hw])
    have hp : (Header.payload n.addr).toNat = n.addr.toNat + 8 := hn.toNat_payload
    have hsize := UInt32.le_iff_toNat_le.1 hle
    have hstop := hn.2.2
    have hstart := hn.start_le
    have hal := aligned_iff.1 hn.1
    rw [Node.stop_eq, Memory.toNat_stop] at hstop
    dsimp only at hsize ⊢
    refine ⟨need, front, n, back, rounded, hw, hf, hle, hp, aligned_iff.2 (by omega), by omega,
      by omega, sameBut_without hn fun k hk => ?_⟩
    exact (hin k (by simp [hw, List.mem_of_getLast? hk])).2.1

theorem error_of_allocate (he : ((allocate size).run h).result = .error fault) :
    fault = .requestTooLarge ∨ (∃ need most, fault = .outOfMemory need most) ∨
      ∃ a, fault = .brokenChain a := by
  have hs := served_allocate size h
  generalize (allocate size).run h = o at hs he
  cases hs with
  | tooLarge => exact Or.inl (Except.error.inj he).symm
  | met => cases he
  | broken => exact Or.inr (Or.inr ⟨_, (Except.error.inj he).symm⟩)
  | full => exact Or.inr (Or.inl ⟨_, _, (Except.error.inj he).symm⟩)

theorem error_of_blockOf {m : Memory} (he : blockOf m p = .error fault) : fault = .notABlock p := by
  unfold blockOf at he
  split at he
  · dsimp only at he
    split at he
    · cases he
    · exact (Except.error.inj he).symm
  · exact (Except.error.inj he).symm

theorem error_of_release (he : ((release p).run h).result = .error fault) :
    fault = .notABlock p := by
  rw [run_release] at he
  split at he
  · cases he
  · split at he
    · next hb =>
      obtain rfl := Except.error.inj he
      exact error_of_blockOf hb
    · cases he

theorem error_of_checkInUse {a : Addr} (he : h.checkInUse p a = .error fault) :
    fault = .alreadyFree p ∨ ∃ a, fault = .brokenChain a := by
  simp only [checkInUse] at he
  split at he
  · exact Or.inl (Except.error.inj he).symm
  · split at he
    · exact Or.inr ⟨_, (Except.error.inj he).symm⟩
    · cases he

theorem error_of_releaseOnce (he : ((releaseOnce p).run h).result = .error fault) :
    fault = .notABlock p ∨ fault = .alreadyFree p ∨ ∃ a, fault = .brokenChain a := by
  rw [run_releaseOnce] at he
  split at he
  · cases he
  · split at he
    · next hb =>
      obtain rfl := Except.error.inj he
      exact Or.inl (error_of_blockOf hb)
    · split at he
      · next hc =>
        obtain rfl := Except.error.inj he
        exact Or.inr (error_of_checkInUse hc)
      · exact Or.inl (error_of_release he)

theorem error_of_payloadSize (he : h.payloadSize p = .error fault) : fault = .notABlock p := by
  rw [payloadSize] at he
  cases hb : blockOf h.memory p with
  | error f =>
    rw [hb] at he
    obtain rfl := Except.error.inj he
    exact error_of_blockOf hb
  | ok n =>
    rw [hb] at he
    cases he

theorem release_of_releaseOnce (hr : (releaseOnce p).run h = ⟨.ok (), h', es⟩) :
    (release p).run h = ⟨.ok (), h', es⟩ := by
  rw [run_releaseOnce] at hr
  split at hr
  · next hp => rw [run_release, if_pos hp, hr]
  · split at hr
    · cases hr
    · split at hr
      · cases hr
      · exact hr

theorem sameBut_of_release (hp : p ≠ 0) (hr : (release p).run h = ⟨.ok (), h', es⟩) :
    Memory.SameBut (fun x => p.toNat ≤ x + 4 ∧ x < p.toNat) h.memory h'.memory := by
  rw [run_release, if_neg hp] at hr
  split at hr
  · cases hr
  · next n hn =>
    cases hr
    obtain ⟨-, haddr, hi⟩ := blockOf_eq_ok hn
    exact (Memory.sameBut_putNext h.head hi.2.1).mono fun x _ => by omega

/-- Whatever memory holds and wherever the first link leads, nothing wraps and nothing outside
memory is reached, an allocation hands out room inside memory, and nothing is written but the headers
that the operation is about. -/
theorem operations_contained (h : FirstFit) :
    Checked.NoWrap h ∧
    (∀ size fault, ((allocate size).run h).result = .error fault →
      fault = .requestTooLarge ∨ (∃ need most, fault = .outOfMemory need most) ∨
        ∃ a, fault = .brokenChain a) ∧
    (∀ p fault, ((release p).run h).result = .error fault → fault = .notABlock p) ∧
    (∀ p fault, ((releaseOnce p).run h).result = .error fault →
      fault = .notABlock p ∨ fault = .alreadyFree p ∨ ∃ a, fault = .brokenChain a) ∧
    (∀ p fault, h.payloadSize p = .error fault → fault = .notABlock p) ∧
    (∀ fault, h.audit = .error fault → ∃ a, fault = .brokenChain a) ∧
    (∀ size p h' es, (allocate size).run h = ⟨.ok p, h', es⟩ →
      ∃ need front n back, Taken h h' size p need front n back) ∧
    ∀ p h' es, p ≠ 0 → ∀ give ∈ [release p, releaseOnce p], give.run h = ⟨.ok (), h', es⟩ →
      Memory.SameBut (fun x => p.toNat ≤ x + 4 ∧ x < p.toNat) h.memory h'.memory := by
  refine ⟨Checked.noWrap h, fun _ _ => error_of_allocate, fun _ _ => error_of_release,
    fun _ _ => error_of_releaseOnce, fun _ _ => error_of_payloadSize,
    fun _ => brokenChain_of_audit, fun _ _ _ _ => taken_of_allocate, ?_⟩
  intro p h' es hp give hg hr
  rcases List.mem_cons.1 hg with rfl | hg
  · exact sameBut_of_release hp hr
  · obtain rfl := List.mem_singleton.1 hg
    exact sameBut_of_release hp (release_of_releaseOnce hr)

/-- A block that is linked to itself is handed out, cut into two. -/
theorem operations_contained_on_self_link :
    let h : FirstFit := {
      memory := {
        start := 0x1000
        bytes := #[32, 0, 0, 0, 0, 0x10, 0, 0] ++ Array.replicate 32 0
        start_ne_zero := by decide
        aligned_start := by decide
        stop_lt := by decide }
      head := some 0x1000 }
    let o := (allocate 4).run h
    o.result = .ok 0x1008 ∧
      ∃ need front n back, Taken h o.state 4 0x1008 need front n back := by
  intro h o
  have hr : o.result = .ok 0x1008 := by decide +kernel
  obtain ⟨-, -, -, -, -, -, htaken, -⟩ := operations_contained h
  refine ⟨hr, htaken 4 0x1008 o.state o.events ?_⟩
  show o = _
  rw [← hr]

end FirstFit
end HeapWindow
