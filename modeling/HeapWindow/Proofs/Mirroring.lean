import HeapWindow.Proofs.Following

/-!
# Requests that a ledger mirrors

Every request of a client that keeps to what it was given is answered as the ledger answers it,
and leaves a tenancy that follows the ledger's next page. So all that can be said of a ledger after
a run of requests can be said of the heap.
-/

namespace HeapWindow

open Rounding

theorem Request.run_write (h : FirstFit) (a : Addr) (bytes : List UInt8) :
    (Request.write a bytes).perform.run h =
      if h.memory.Holds a bytes.length then
        ⟨.ok none, ⟨h.memory.put a bytes, h.head⟩, []⟩
      else ⟨.error (.outOfBounds a (.ofNat bytes.length)), h, []⟩ := by
  rw [perform, Action.run_map, FirstFit.run_onMemory, Memory.run_store_toVector]
  by_cases hm : h.memory.Holds a bytes.length
  · simp only [if_pos hm]
    rfl
  · simp only [if_neg hm]
    rfl

namespace Tenancy

variable {t : Tenancy} {l : Ledger} {h' : FirstFit} {r : Request} {p : Addr} {s : Slot}

/-- What a client may do that gives back each block once, or with care also a second time. -/
def Keeps (t : Tenancy) (r : Request) : Prop := t.Allows r ∨ t.AllowsStale r

/-- What becomes of the tenancy becomes of the ledger, and only the bytes are written that the
ledger says. -/
structure Mirrors (t : Tenancy) (l : Ledger) (r : Request) : Prop where
  follows : Follows (t.step r) (l.step r)
  answer : (r.perform.run t.heap).result = l.answer r
  frame : Memory.SameBut (l.Reaches r) t.heap.memory (t.step r).heap.memory

theorem step_of_some {es : List Event} (hr : r.perform.run t.heap = ⟨.ok (some p), h', es⟩) :
    t.step r = ⟨h', liveAfter t.live r (.ok (some p)), p :: t.issued⟩ := by
  simp only [step, hr]

theorem step_of_none {es : List Event} (hr : r.perform.run t.heap = ⟨.ok none, h', es⟩) :
    t.step r = ⟨h', liveAfter t.live r (.ok none), t.issued⟩ := by
  simp only [step, hr]

theorem step_of_error {fault : Fault} {es : List Event}
    (hr : r.perform.run t.heap = ⟨.error fault, t.heap, es⟩) : t.step r = t := by
  have hl : liveAfter t.live r (.error fault) = t.live := by cases r <;> rfl
  simp only [step, hr, hl]

namespace Follows

theorem unchanged (hf : Follows t l) (ht : t.step r = t) (hl : l.step r = l)
    (ha : (r.perform.run t.heap).result = l.answer r) : Mirrors t l r where
  follows := by rwa [ht, hl]
  answer := ha
  frame := by
    rw [ht]
    exact .refl _ _

theorem allocate_tooLarge {n : UInt32} (hf : Follows t l) (hn : roundUp? n = none) :
    Mirrors t l (.allocate n) := by
  have hr : (Request.allocate n).perform.run t.heap = ⟨.error .requestTooLarge, t.heap, []⟩ := by
    rw [Request.perform, Action.run_map, FirstFit.run_allocate_tooLarge hn]
    rfl
  refine hf.unchanged (step_of_error hr) ?_ ?_
  · rw [Ledger.step, hn]
    rfl
  · rw [hr, Ledger.answer, hn]

theorem allocate_full {n need : UInt32} (hf : Follows t l) (hn : roundUp? n = some need)
    (hp : Pool.allocate need.toNat l.free = none) : Mirrors t l (.allocate n) := by
  have hr : (Request.allocate n).perform.run t.heap =
      ⟨.error (.outOfMemory need t.heap.walk.largest), t.heap,
        [.chainFull need t.heap.walk.largest]⟩ := by
    rw [Request.perform, Action.run_map, hf.layout.run_allocate_none hn hp]
    rfl
  have hmost : t.heap.walk.largest = .ofNat (Pool.largest l.free) := by
    rw [← hf.layout.pool_eq, FirstFit.pool, ← FirstFit.toNat_largest, UInt32.ofNat_toNat]
  refine hf.unchanged (step_of_error hr) ?_ ?_
  · rw [Ledger.step, hn, Option.bind_some, hp]
  · rw [hr, Ledger.answer, hn, hmost]
    simp only [hp]

theorem allocate_met {n need : UInt32} {taken : Slot} {free : List Slot} (hf : Follows t l)
    (hn : roundUp? n = some need) (hp : Pool.allocate need.toNat l.free = some (taken, free)) :
    Mirrors t l (.allocate n) := by
  obtain ⟨p, h', e, hrun, hpt, hl, hm⟩ := hf.layout.run_allocate hn hp
  have hr : (Request.allocate n).perform.run t.heap = ⟨.ok (some p), h', [e]⟩ := by
    rw [Request.perform, Action.run_map, hrun]
    rfl
  have hs : l.step (.allocate n) = ⟨free, taken :: l.held⟩ := by
    rw [Ledger.step, hn, Option.bind_some, hp]
  have ht := step_of_some hr
  refine ⟨?_, ?_, ?_⟩
  · rw [ht, hs]
    refine hf.take hl hpt fun s hb => ?_
    have hkeep := l.exists_addr_step (.allocate n) hb
    rwa [hs] at hkeep
  · rw [hr, Ledger.answer, hn]
    simp only [hp]
    rw [← hpt, UInt32.ofNat_toNat]
  · rw [ht]
    exact hm

theorem allocate (hf : Follows t l) (n : UInt32) : Mirrors t l (.allocate n) := by
  cases hn : roundUp? n with
  | none => exact hf.allocate_tooLarge hn
  | some need =>
    cases hp : Pool.allocate need.toNat l.free with
    | none => exact hf.allocate_full hn hp
    | some found => exact hf.allocate_met hn hp

theorem any_free_of_held (hf : Follows t l) (hs : s ∈ l.held) (hp : s.isAt p) :
    l.free.any (Slot.isAt p) = false := by
  rw [List.any_eq_false]
  intro u hu hup
  have ha := (List.pairwise_append.1 hf.layout.apart).2.2 u hu s hs
  have hus := u.header_lt_stop
  have hss := s.header_lt_stop
  have hsp := Slot.toNat_of_isAt hp
  have hup' := Slot.toNat_of_isAt hup
  rw [Slot.apart_iff] at ha
  omega

theorem run_give (hf : Follows t l) (hs : l.held.find? (Slot.isAt p) = some s) :
    ∃ h' e, (FirstFit.release p).run t.heap = ⟨.ok (), h', [e]⟩ ∧
      (FirstFit.releaseOnce p).run t.heap = ⟨.ok (), h', [e]⟩ ∧
      Follows ⟨h', t.live.erase p, t.issued⟩ ⟨s :: l.free, l.held.eraseP (Slot.isAt p)⟩ ∧
      Memory.SameBut (fun x => p.toNat ≤ x + 4 ∧ x < p.toNat) t.heap.memory h'.memory := by
  have hp := Slot.toNat_of_isAt (List.find?_some hs)
  have hl := hf.layout.perm_held (perm_of_find? hs)
  obtain ⟨h', e, hr, hl', hm⟩ := hl.run_release hp
  have ho := hl.run_releaseOnce hp
  rw [hr] at ho
  exact ⟨h', e, hr, ho, hf.give hs hl', hm.mono fun x _ => by omega⟩

theorem null (hf : Follows t l) (hr : r = .release 0 ∨ r = .releaseOnce 0) :
    Mirrors t l r := by
  have hrun : r.perform.run t.heap = ⟨.ok none, t.heap, []⟩ := by
    rcases hr with rfl | rfl <;> rfl
  have hlive : liveAfter t.live r (.ok none) = t.live := by
    have h₀ : (0 : Addr) ∉ t.live := by
      intro hm
      obtain ⟨s, -, hs⟩ := hf.mem_live_iff.1 hm
      exact not_isAt_zero s hs
    rcases hr with rfl | rfl <;> exact List.erase_of_not_mem h₀
  have hfind : l.held.find? (Slot.isAt 0) = none :=
    List.find?_eq_none.2 fun s _ => not_isAt_zero s
  have hany : l.free.any (Slot.isAt 0) = false := List.any_eq_false.2 fun s _ => not_isAt_zero s
  refine hf.unchanged ?_ ?_ ?_
  · rw [step_of_none hrun, hlive]
  · rcases hr with rfl | rfl <;> rw [Ledger.step, hfind]
  · rw [hrun]
    rcases hr with rfl | rfl
    · rfl
    · rw [Ledger.answer, hany]
      rfl

theorem give_back (hf : Follows t l) (hp : p ∈ t.live) (hr : r = .release p ∨ r = .releaseOnce p) :
    Mirrors t l r := by
  obtain ⟨s, hs⟩ := hf.find?_of_mem_live hp
  obtain ⟨h', e, hany, honce, hf', hm⟩ := hf.run_give hs
  have hrun : r.perform.run t.heap = ⟨.ok none, h', [e]⟩ := by
    rcases hr with rfl | rfl
    · rw [Request.perform, Action.run_map, hany]
      rfl
    · rw [Request.perform, Action.run_map, honce]
      rfl
  have ht : t.step r = ⟨h', t.live.erase p, t.issued⟩ := by
    rw [step_of_none hrun]
    rcases hr with rfl | rfl <;> rfl
  have hl : l.step r = ⟨s :: l.free, l.held.eraseP (Slot.isAt p)⟩ := by
    rcases hr with rfl | rfl <;> rw [Ledger.step, hs]
  have hfree := hf.any_free_of_held (List.mem_of_find?_eq_some hs) (List.find?_some hs)
  refine ⟨?_, ?_, ?_⟩
  · rw [ht, hl]
    exact hf'
  · rw [hrun]
    rcases hr with rfl | rfl
    · rfl
    · rw [Ledger.answer, hfree]
      rfl
  · rw [ht]
    rcases hr with rfl | rfl <;> exact hm

theorem release (hf : Follows t l) (hp : p = 0 ∨ p ∈ t.live) : Mirrors t l (.release p) := by
  rcases hp with rfl | hp
  · exact hf.null (Or.inl rfl)
  · exact hf.give_back hp (Or.inl rfl)

/-- A block that the client does not hold is free. -/
theorem mem_free (hf : Follows t l) (hs : s ∈ l.blocks) (hat : s.isAt p) (hp : p ∉ t.live) :
    s ∈ l.free := by
  rcases List.mem_append.1 hs with hs | hs
  · exact hs
  · exact absurd (hf.mem_live_iff.2 ⟨s, hs, hat⟩) hp

theorem run_stale (hf : Follows t l) (hs : s ∈ l.blocks) (hat : s.isAt p) (hp : p ∉ t.live) :
    (FirstFit.releaseOnce p).run t.heap = ⟨.error (.alreadyFree p), t.heap, []⟩ :=
  hf.layout.run_releaseOnce_of_free (hf.mem_free hs hat hp) (Slot.toNat_of_isAt hat)

theorem releaseOnce (hf : Follows t l) (hp : p = 0 ∨ ∃ s ∈ l.blocks, s.isAt p) :
    Mirrors t l (.releaseOnce p) := by
  rcases hp with rfl | ⟨u, hu, hup⟩
  · exact hf.null (Or.inr rfl)
  · by_cases hp : p ∈ t.live
    · exact hf.give_back hp (Or.inr rfl)
    · have hr : (Request.releaseOnce p).perform.run t.heap =
          ⟨.error (.alreadyFree p), t.heap, []⟩ := by
        rw [Request.perform, Action.run_map, hf.run_stale hu hup hp]
        rfl
      have hfind : l.held.find? (Slot.isAt p) = none :=
        List.find?_eq_none.2 fun s hs hat => hp (hf.mem_live_iff.2 ⟨s, hs, hat⟩)
      have hany : l.free.any (Slot.isAt p) = true :=
        List.any_eq_true.2 ⟨u, hf.mem_free hu hup hp, hup⟩
      refine hf.unchanged (step_of_error hr) ?_ ?_
      · rw [Ledger.step, hfind]
      · rw [hr, Ledger.answer, hany]
        rfl

theorem within_of_covers (hf : Follows t l) {a : Addr} {n : Nat} (hp : p ∈ t.live)
    (hc : Covers t.heap p a n) : ∃ s ∈ l.held, s.addr + 8 ≤ a.toNat ∧ a.toNat + n ≤ s.stop := by
  obtain ⟨s, hs, hat⟩ := hf.mem_live_iff.1 hp
  obtain ⟨hle, size, hsize, hstop⟩ := hc
  have hp' := Slot.toNat_of_isAt hat
  obtain ⟨z, hz, he⟩ := hf.layout.exists_payloadSize (List.mem_append_right _ hs) hp'
  rw [hsize] at hz
  obtain rfl := Except.ok.inj hz
  refine ⟨s, hs, by omega, ?_⟩
  rw [Slot.stop]
  omega

theorem run_write (hf : Follows t l) {a : Addr} {bytes : List UInt8} (hs : s ∈ l.held)
    (hlo : s.addr + 8 ≤ a.toNat) (hhi : a.toNat + bytes.length ≤ s.stop) :
    t.heap.memory.Holds a bytes.length ∧ (Request.write a bytes).perform.run t.heap =
      ⟨.ok none, ⟨t.heap.memory.put a bytes, t.heap.head⟩, []⟩ := by
  have hb := (hf.layout.present s hs).bounds
  have hm : t.heap.memory.Holds a bytes.length := by
    rw [Memory.holds_iff, Memory.toNat_stop]
    omega
  refine ⟨hm, ?_⟩
  rw [Request.run_write, if_pos hm]

theorem write (hf : Follows t l) {a : Addr} {bytes : List UInt8}
    (hc : ∃ p ∈ t.live, Covers t.heap p a bytes.length) : Mirrors t l (.write a bytes) := by
  obtain ⟨p, hp, hc⟩ := hc
  obtain ⟨s, hs, hlo, hhi⟩ := hf.within_of_covers hp hc
  obtain ⟨hm, hr⟩ := hf.run_write hs hlo hhi
  have ht := step_of_none hr
  have hsame := Memory.sameBut_put bytes hm
  have hl : (FirstFit.mk (t.heap.memory.put a bytes) t.heap.head).Layout l.free l.held := by
    refine hf.layout.frame hsame fun u hu x hlo' hhi' hx => ?_
    have hs' : s ∈ l.free ++ l.held := List.mem_append_right _ hs
    exact hf.layout.header_outside hs' hu hlo' hhi' ⟨by omega, by omega⟩
  refine ⟨?_, ?_, ?_⟩
  · rw [ht]
    exact hf.same hl
  · rw [hr]
    rfl
  · rw [ht]
    exact hsame

theorem exists_of_mem_live (hf : Follows t l) (hp : p ∈ t.live) : ∃ s ∈ l.blocks, s.isAt p := by
  obtain ⟨s, hs, hat⟩ := hf.mem_live_iff.1 hp
  exact ⟨s, List.mem_append_right _ hs, hat⟩

theorem exists_of_keeps (hf : Follows t l) (hr : t.Keeps r)
    (hp : r = .release p ∨ r = .releaseOnce p) : p = 0 ∨ ∃ s ∈ l.blocks, s.isAt p := by
  rcases hp with rfl | rfl
  · rcases hr with hp | hp
    · exact hp.imp_right hf.exists_of_mem_live
    · exact hp.elim
  · rcases hr with hp | hp
    · exact hp.imp_right hf.exists_of_mem_live
    · exact Or.inr (hf.issued p hp)

theorem step (hf : Follows t l) (hr : t.Keeps r) : Mirrors t l r := by
  cases r with
  | allocate n => exact hf.allocate n
  | release p => exact hf.release (hr.resolve_right id)
  | releaseOnce p => exact hf.releaseOnce (hf.exists_of_keeps hr (Or.inr rfl))
  | write a bytes => exact hf.write (hr.elim id id)

theorem after {rs : List Request} (hf : Follows t l) (hrs : Run.Along Tenancy.step Keeps t rs) :
    Follows (t.after rs) (l.after rs) := by
  induction rs generalizing t l with
  | nil => exact hf
  | cons r rs ih => exact ih (hf.step hrs.1).follows hrs.2

end Follows
end Tenancy
end HeapWindow
