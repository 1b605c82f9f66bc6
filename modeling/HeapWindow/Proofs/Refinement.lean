import HeapWindow.Proofs.Auditing
import HeapWindow.Proofs.Openings

/-!
# Heaps as pools

A heap that an audit accepts is the pool of its free blocks: a request is answered as the pool
answers it, a released block becomes the pool's first, and an audit accepts the heap again.
-/

namespace HeapWindow
namespace FirstFit

open Rounding

variable {h : FirstFit} {free held : List Slot} {s : Slot} {p : Addr} {k : Nat}

theorem layout_of_apart {n : Node} {a : Addr} (hl : h.Layout free [])
    (hn : Node.at? h.memory a = some n) (ha : ∀ s ∈ free, n.slot.Apart s) :
    h.Layout free [n.slot] where
  leads := hl.leads
  present s hs := by
    obtain rfl := List.mem_singleton.1 hs
    exact Slot.in_of_at? hn
  apart := by
    have hfree := hl.apart
    rw [List.append_nil] at hfree
    refine List.pairwise_append.2 ⟨hfree, List.pairwise_singleton .., fun s hs t ht => ?_⟩
    obtain rfl := List.mem_singleton.1 ht
    exact (ha s hs).symm

namespace Layout

variable {size need : UInt32}

theorem tooLarge_iff (hl : h.Layout free held) :
    ((allocate size).run h).result = .error .requestTooLarge ↔ roundUp? size = none := by
  constructor
  · intro hr
    cases hn : roundUp? size with
    | none => rfl
    | some need =>
      cases ha : Pool.allocate need.toNat free with
      | none =>
        rw [hl.run_allocate_none hn ha] at hr
        cases hr
      | some found =>
        obtain ⟨p, h', e, hrun, -⟩ := hl.run_allocate hn ha
        rw [hrun] at hr
        cases hr
  · intro hn
    rw [run_allocate_tooLarge hn]

theorem allocate_refines (hl : h.Layout free held) (hn : roundUp? size = some need) :
    match Pool.allocate need.toNat free with
    | some (taken, pool) => ∃ p h' es, (allocate size).run h = ⟨.ok p, h', es⟩ ∧
        p.toNat = taken.addr + 8 ∧ (h'.payloadSize p).map UInt32.toNat = .ok taken.size ∧
        h'.pool = pool
    | none => ∃ most es, (allocate size).run h = ⟨.error (.outOfMemory need most), h, es⟩ ∧
        most.toNat = Pool.largest free := by
  cases ha : Pool.allocate need.toNat free with
  | none =>
    refine ⟨h.walk.largest, _, hl.run_allocate_none hn ha, ?_⟩
    rw [toNat_largest, ← pool, hl.pool_eq]
  | some found =>
    obtain ⟨p, h', e, hrun, hp, hl', -⟩ := hl.run_allocate hn ha
    obtain ⟨z, hz, hsize⟩ := hl'.exists_payloadSize (by simp) hp
    refine ⟨p, h', [e], hrun, hp, ?_, hl'.pool_eq⟩
    rw [hz]
    exact congrArg Except.ok hsize

theorem exists_audit_allocate (hl : h.Layout free held) :
    ∃ j, ((allocate size).run h).state.audit = .ok j := by
  cases hn : roundUp? size with
  | none =>
    rw [run_allocate_tooLarge hn]
    exact ⟨_, hl.audit_eq⟩
  | some need =>
    cases ha : Pool.allocate need.toNat free with
    | none =>
      rw [hl.run_allocate_none hn ha]
      exact ⟨_, hl.audit_eq⟩
    | some found =>
      obtain ⟨p, h', e, hrun, -, hl', -⟩ := hl.run_allocate hn ha
      rw [hrun]
      exact ⟨_, hl'.audit_eq⟩

theorem give_refines {give : Action FirstFit Unit} (hl : h.Layout free (s :: held))
    (hp : p.toNat = s.addr + 8) (hg : give ∈ [release p, releaseOnce p]) :
    ∃ h' es, give.run h = ⟨.ok (), h', es⟩ ∧ h'.pool = s :: free ∧
      h'.audit = .ok (free.length + 1) := by
  obtain ⟨h', e, hrun, hl', -⟩ := hl.run_release hp
  have hgive : give.run h = (release p).run h := by
    rcases List.mem_cons.1 hg with rfl | hg
    · rfl
    · obtain rfl := List.mem_singleton.1 hg
      exact hl.run_releaseOnce hp
  exact ⟨h', [e], hgive.trans hrun, hl'.pool_eq, hl'.audit_eq⟩

end Layout

/-- A heap that passes its audit deals with its free blocks as a pool does: what it hands out, what it
puts in the place of that, what it refuses, and what it takes back. Then it passes its audit again. -/
theorem audited_heap_refines_pool (hk : h.audit = .ok k) :
    (∀ size, ((allocate size).run h).result = .error .requestTooLarge ↔ roundUp? size = none) ∧
    (∀ size need, roundUp? size = some need →
      match Pool.allocate need.toNat h.pool with
      | some (taken, pool) => ∃ p h' es, (allocate size).run h = ⟨.ok p, h', es⟩ ∧
          p.toNat = taken.addr + 8 ∧ (h'.payloadSize p).map UInt32.toNat = .ok taken.size ∧
          h'.pool = pool
      | none => ∃ most es, (allocate size).run h = ⟨.error (.outOfMemory need most), h, es⟩ ∧
          most.toNat = Pool.largest h.pool) ∧
    (∀ size, ∃ j, ((allocate size).run h).state.audit = .ok j) ∧
    ∀ (p a : Addr), a.toNat + 8 = p.toNat → (Node.peek h.memory a).Inside h.memory →
      Aligned (Node.peek h.memory a).size →
      (∀ s ∈ h.pool, (Node.peek h.memory a).slot.Apart s) →
      ∀ give ∈ [release p, releaseOnce p], ∃ h' es, give.run h = ⟨.ok (), h', es⟩ ∧
        h'.pool = (Node.peek h.memory a).slot :: h.pool ∧ h'.audit = .ok (k + 1) := by
  obtain ⟨hl, rfl⟩ := layout_of_audit hk
  refine ⟨fun size => hl.tooLarge_iff, fun size need hn => hl.allocate_refines hn,
    fun size => hl.exists_audit_allocate, fun p a hp hi hs ha give hg => ?_⟩
  have hn : Node.at? h.memory a = some (Node.peek h.memory a) :=
    Node.at?_eq_some_iff.2 ⟨rfl, hi, hs⟩
  have hp' : p.toNat = (Node.peek h.memory a).slot.addr + 8 := by
    rw [Node.addr_slot, Node.addr_peek, hp]
  exact (layout_of_apart hl hn ha).give_refines hp' hg

/-- The first of two free blocks is taken as it is, or the held one between them given back. -/
theorem audited_heap_refines_pool_on_ten_words :
    let h := ((Tenancy.fresh onTenWords).after [.allocate 5, .allocate 0, .release 0x1008]).heap
    h.audit = .ok 2 ∧
      (∃ p h' es, (allocate 8).run h = ⟨.ok p, h', es⟩ ∧ p.toNat = 0x1008 ∧
        h'.pool = [⟨0x1018, 8⟩]) ∧
      ∃ h' es, (releaseOnce 0x1018).run h = ⟨.ok (), h', es⟩ ∧ h'.pool = ⟨0x1010, 0⟩ :: h.pool := by
  intro h
  have hw : h.walk = ⟨[⟨⟨8, some 0x1018⟩, 0x1000⟩, ⟨⟨8, none⟩, 0x1018⟩], none⟩ := by
    decide +kernel
  have hk : h.audit = .ok 2 := (audit_of_walk hw).2 ⟨by decide, rfl⟩
  obtain ⟨-, halloc, -, hgive⟩ := audited_heap_refines_pool hk
  have hpool : h.pool = [⟨0x1000, 8⟩, ⟨0x1018, 8⟩] := by
    rw [pool, hw]
    rfl
  refine ⟨hk, ?_, ?_⟩
  · have hmet := halloc 8 8 (by decide)
    rw [hpool] at hmet
    obtain ⟨p, h', es, hrun, hp, -, hpool'⟩ := hmet
    exact ⟨p, h', es, hrun, hp, hpool'⟩
  · have hn : Node.peek h.memory 0x1010 = ⟨⟨0, none⟩, 0x1010⟩ := by decide +kernel
    obtain ⟨h', es, hrun, hpool', -⟩ := hgive 0x1018 0x1010 (by decide)
      (by decide +kernel) (by decide +kernel) (by rw [hn, hpool]; decide) (releaseOnce 0x1018)
      (by simp)
    rw [hn] at hpool'
    exact ⟨h', es, hrun, hpool'⟩

end FirstFit
end HeapWindow
