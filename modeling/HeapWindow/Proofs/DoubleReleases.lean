import HeapWindow.Proofs.Openings
import HeapWindow.Proofs.Rings

/-!
# Blocks that are given back twice

A block that is given back without care while it is free closes the chain to a ring. Nothing that
the client asks for from then on, unless it writes, opens the ring again: every audit fails, nothing
is taken back with care, and no request is refused for want of room.
-/

namespace HeapWindow

def Request.AnsweredInRing : Request → Except Fault (Option Addr) → Prop
  | .allocate _, o =>
    (∃ p, o = .ok (some p)) ∨ o = .error .requestTooLarge ∨ ∃ a, o = .error (.brokenChain a)
  | .release _, o => o = .ok none
  | .releaseOnce _, o => ∃ fault, o = .error fault
  | .write .., _ => True

namespace Tenancy

variable {w : Window} {h : FirstFit} {t : Tenancy} {r : Request} {rs : List Request} {p : Addr}

/-- The client gives back what it was once given, as often as it likes, and writes nothing. -/
def AllowsAgain (t : Tenancy) : Request → Prop
  | .allocate _ => True
  | .release p | .releaseOnce p => p ∈ t.issued
  | .write .. => False

instance (t : Tenancy) : ∀ r, Decidable (t.AllowsAgain r)
  | .allocate _ => isTrue trivial
  | .release p | .releaseOnce p => inferInstanceAs (Decidable (p ∈ t.issued))
  | .write .. => isFalse id

/-- The first link leads into a ring, and a block begins wherever the client was given one. -/
def Stuck (t : Tenancy) : Prop :=
  ∃ blocks ring, t.heap.Tangled blocks ring ∧ ∀ q ∈ t.issued, ∃ s ∈ blocks, s.isAt q

namespace Stuck

theorem allocate (hs : t.Stuck) (n : UInt32) :
    (t.step (.allocate n)).Stuck ∧
      (Request.allocate n).AnsweredInRing ((Request.allocate n).perform.run t.heap).result := by
  obtain ⟨blocks, ring, ht, hissued⟩ := hs
  have hserved := FirstFit.served_allocate n t.heap
  generalize hrun : (FirstFit.allocate n).run t.heap = o at hserved
  have hr : (Request.allocate n).perform.run t.heap = ⟨o.result.map some, o.state, o.events⟩ := by
    rw [Request.perform, Action.run_map, hrun]
  cases hserved with
  | tooLarge =>
    rw [step_of_error hr, hr]
    exact ⟨⟨blocks, ring, ht, hissued⟩, Or.inr (Or.inl rfl)⟩
  | @met need spot e rounded found =>
    obtain ⟨blocks', ring', ht', hkeep, s, hs, haddr⟩ :=
      ht.without found (Rounding.aligned_of_roundUp? rounded)
    rw [step_of_some hr, hr]
    have hp := (FirstFit.inside_of_find? found).1.toNat_payload
    refine ⟨⟨blocks', ring', ht', fun q hq => ?_⟩, Or.inl ⟨_, rfl⟩⟩
    -- An address that was handed out before is still that of a block, cut or not.
    rcases List.mem_cons.1 hq with rfl | hq
    · obtain ⟨u, hu, he⟩ := hkeep s hs
      exact ⟨u, hu, Slot.isAt_iff.2 (by rw [hp, he, haddr])⟩
    · obtain ⟨v, hv, hat⟩ := hissued q hq
      obtain ⟨u, hu, he⟩ := hkeep v hv
      exact ⟨u, hu, Slot.isAt_of_addr he hat⟩
  | broken =>
    rw [step_of_error hr, hr]
    exact ⟨⟨blocks, ring, ht, hissued⟩, Or.inr (Or.inr ⟨_, rfl⟩)⟩
  | full _ _ ended =>
    obtain ⟨nodes, b, hw, -⟩ := ht.walk
    rw [hw] at ended
    cases ended

theorem release (hs : t.Stuck) (hp : p ∈ t.issued) :
    (t.step (.release p)).Stuck ∧
      (Request.release p).AnsweredInRing ((Request.release p).perform.run t.heap).result := by
  obtain ⟨blocks, ring, ht, hissued⟩ := hs
  obtain ⟨s, hs, hat⟩ := hissued p hp
  obtain ⟨h', ring', e, hrun, ht'⟩ := ht.run_release hs (Slot.toNat_of_isAt hat)
  have hr : (Request.release p).perform.run t.heap = ⟨.ok none, h', [e]⟩ := by
    rw [Request.perform, Action.run_map, hrun]
    rfl
  rw [step_of_none hr, hr]
  exact ⟨⟨blocks, ring', ht', hissued⟩, rfl⟩

theorem releaseOnce (hs : t.Stuck) (hp : p ∈ t.issued) :
    (t.step (.releaseOnce p)).Stuck ∧
      (Request.releaseOnce p).AnsweredInRing
        ((Request.releaseOnce p).perform.run t.heap).result := by
  obtain ⟨blocks, ring, ht, hissued⟩ := hs
  obtain ⟨s, hs, hat⟩ := hissued p hp
  obtain ⟨fault, hrun⟩ := ht.run_releaseOnce hs (Slot.toNat_of_isAt hat)
  have hr : (Request.releaseOnce p).perform.run t.heap = ⟨.error fault, t.heap, []⟩ := by
    rw [Request.perform, Action.run_map, hrun]
    rfl
  rw [step_of_error hr, hr]
  exact ⟨⟨blocks, ring, ht, hissued⟩, fault, rfl⟩

theorem step (hs : t.Stuck) (hr : t.AllowsAgain r) :
    (t.step r).Stuck ∧ r.AnsweredInRing (r.perform.run t.heap).result := by
  cases r with
  | allocate n => exact hs.allocate n
  | release p => exact hs.release hr
  | releaseOnce p => exact hs.releaseOnce hr
  | write a bytes => exact hr.elim

theorem after (hs : t.Stuck) (hrs : Run.Along Tenancy.step AllowsAgain t rs) :
    (t.after rs).Stuck ∧ ∀ e ∈ rs.zip (t.answers rs), e.1.AnsweredInRing e.2 := by
  induction rs generalizing t with
  | nil => exact ⟨hs, fun e he => absurd he List.not_mem_nil⟩
  | cons r rs ih =>
    obtain ⟨hs', hr⟩ := hs.step hrs.1
    obtain ⟨hend, hanswers⟩ := ih hs' hrs.2
    exact ⟨hend, List.forall_mem_cons.2 ⟨hr, hanswers⟩⟩

theorem neverEnds (hs : t.Stuck) : t.heap.NeverEnds := by
  obtain ⟨blocks, ring, ht, -⟩ := hs
  exact ht.neverEnds

end Stuck

/-- Giving back a block that is free already makes the chain lead back to it, and from then on no
audit succeeds, nothing is taken back with care, and no request is refused for want of room. -/
theorem double_release_never_heals {n : Node} (hw : FirstFit.Opens w h)
    (hrs : Run.Along step Allows (fresh h) rs)
    (hn : n ∈ ((fresh h).after rs).heap.walk.nodes) :
    let t := (fresh h).after rs
    let again := Request.release (Header.payload n.addr)
    let u := t.step again
    (again.perform.run t.heap).result = .ok none ∧
      (∃ k, u.heap.head = some n.addr ∧
        Chain.linkAfter u.heap.memory (some n.addr) (k + 1) = some n.addr) ∧
      u.heap.NeverEnds ∧
      ∀ qs, Run.Along step AllowsAgain u qs →
        (u.after qs).heap.NeverEnds ∧ ∀ e ∈ qs.zip (u.answers qs), e.1.AnsweredInRing e.2 := by
  intro t again u
  obtain ⟨l, hf, -⟩ := exists_follows hw (hrs.mono fun t r => Or.inl)
  have hfree : n.slot ∈ l.free := by
    rw [← hf.layout.pool_eq]
    exact List.mem_map_of_mem hn
  have hi := (Node.at?_eq_some_iff.1 (Walk.at?_of_mem_nodes hn)).2.1
  obtain ⟨a, ring, e, ha, hrun, ht, k, hk⟩ := hf.layout.tangled hfree hi.toNat_payload
  obtain rfl : a = n.addr := UInt32.toNat_inj.1 ha
  have hr : again.perform.run t.heap = ⟨.ok none, t.heap.pushed n.addr, [e]⟩ := by
    rw [Request.perform, Action.run_map, hrun]
    rfl
  have hu : u = ⟨t.heap.pushed n.addr, liveAfter t.live again (.ok none), t.issued⟩ :=
    step_of_none hr
  have hstuck : u.Stuck := by
    rw [hu]
    exact ⟨l.blocks, ring, ht, hf.issued⟩
  refine ⟨by rw [hr], ⟨k, ?_⟩, hstuck.neverEnds, fun qs hqs => ?_⟩
  · rw [hu]
    exact ⟨rfl, hk⟩
  · obtain ⟨hend, hanswers⟩ := hstuck.after hqs
    exact ⟨hend.neverEnds, hanswers⟩

/-- The second of two free blocks is given back. It is handed out once more, and both blocks are given
back again, with care and without. -/
theorem double_release_never_heals_on_ten_words :
    let t := (fresh .onTenWords).after [.allocate 5, .write 0x1008 [1, 2], .release 0x1008]
    let u := t.step (.release 0x1018)
    let qs : List Request := [.allocate 16, .releaseOnce 0x1018, .release 0x1008, .allocate 40]
    u.heap.NeverEnds ∧ (u.after qs).heap.NeverEnds ∧
      ∀ e ∈ qs.zip (u.answers qs), e.1.AnsweredInRing e.2 := by
  intro t u qs
  obtain ⟨-, -, hu, hqs⟩ := double_release_never_heals (n := ⟨⟨16, none⟩, 0x1010⟩)
    FirstFit.opens_onTenWords
    (show Run.Along step Allows (fresh .onTenWords)
      [.allocate 5, .write 0x1008 [1, 2], .release 0x1008] by decide +kernel)
    (by decide +kernel)
  exact ⟨hu, hqs qs (by decide +kernel)⟩

end Tenancy
end HeapWindow
