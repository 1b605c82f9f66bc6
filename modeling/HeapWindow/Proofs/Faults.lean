import HeapWindow.Proofs.Containment
import HeapWindow.Proofs.Cursors

/-!
# Faults change nothing

A fault undoes nothing, and some operations write more than once. An operation that stops at a fault
must therefore do so before its first write. A heap takes a block only when it has met it and the
one before it on a walk, so that all headers to be written are inside memory, whatever memory holds;
an arena moves its cursor only over bytes that it has; and a write is refused as a whole.
-/

namespace HeapWindow

namespace Action

variable {σ τ α β : Type}

/-- If the action stops at a fault, the state is the one from which it was started. -/
def AllOrNothing (x : Action σ α) (s : σ) : Prop :=
  ∀ fault, (x.run s).result = .error fault → (x.run s).state = s

theorem allOrNothing_of_ok {x : Action σ α} {s t : σ} {a : α} {es : List Event}
    (h : x.run s = ⟨.ok a, t, es⟩) : x.AllOrNothing s := by
  intro fault hf
  rw [h] at hf
  cases hf

theorem allOrNothing_of_same {x : Action σ α} {s : σ} (h : (x.run s).state = s) :
    x.AllOrNothing s := fun _ _ => h

theorem AllOrNothing.map {f : α → β} {x : Action σ α} {s : σ} (h : x.AllOrNothing s) :
    (f <$> x).AllOrNothing s := by
  intro fault hf
  rw [run_map] at hf ⊢
  cases hr : (x.run s).result with
  | error g => exact h g hr
  | ok a =>
    rw [hr] at hf
    cases hf

end Action

namespace Memory

variable {m : Memory} {a : Addr}

theorem allOrNothing_store {n : Nat} (v : Vector UInt8 n) : (store a v).AllOrNothing m := by
  by_cases h : m.Holds a n
  · exact Action.allOrNothing_of_ok (run_store h)
  · exact Action.allOrNothing_of_same (by rw [run_store_of_not_holds h])

theorem allOrNothing_fill (len : UInt32) (b : UInt8) : (fill a len b).AllOrNothing m := by
  by_cases h : m.Holds a len.toNat
  · exact Action.allOrNothing_of_ok (run_fill h)
  · exact Action.allOrNothing_of_same (by rw [run_fill_of_not_holds h])

end Memory

namespace FirstFit

theorem allOrNothing_onMemory {α : Type} {x : Action Memory α} {h : FirstFit}
    (hx : x.AllOrNothing h.memory) : (onMemory x).AllOrNothing h := by
  intro fault hf
  rw [run_onMemory, hx fault hf]

theorem allOrNothing_allocate (h : FirstFit) (size : UInt32) :
    (allocate size).AllOrNothing h := by
  intro fault hf
  have hs := served_allocate size h
  generalize (allocate size).run h = o at hs hf ⊢
  cases hs with
  | tooLarge | broken | full => rfl
  | met => cases hf

theorem allOrNothing_release (h : FirstFit) (p : Addr) : (release p).AllOrNothing h := by
  intro fault hf
  rw [run_release] at hf ⊢
  by_cases hp : p = 0
  · rw [if_pos hp]
  · rw [if_neg hp] at hf ⊢
    cases hn : blockOf h.memory p with
    | error fault => rfl
    | ok n =>
      rw [hn] at hf
      cases hf

theorem allOrNothing_releaseOnce (h : FirstFit) (p : Addr) :
    (releaseOnce p).AllOrNothing h := by
  intro fault hf
  rw [run_releaseOnce] at hf ⊢
  by_cases hp : p = 0
  · rw [if_pos hp]
  · rw [if_neg hp] at hf ⊢
    cases hn : blockOf h.memory p with
    | error fault => rfl
    | ok n =>
      simp only [hn] at hf ⊢
      cases hc : h.checkInUse p n.addr with
      | error fault => rfl
      | ok _ =>
        simp only [hc] at hf ⊢
        exact allOrNothing_release h p fault hf

end FirstFit

namespace Arena

variable {a : Arena} {k : Nat} {x : Action Arena Addr}

theorem Served.allOrNothing (hs : Served a k (x.run a)) : x.AllOrNothing a := by
  intro fault hf
  rw [hs.answer] at hf
  cases hg : a.grant k with
  | error fault => exact hs.refused fault hg
  | ok need =>
    rw [hg] at hf
    cases hf

end Arena

/-- Whatever a heap's memory holds and wherever its first link leads, whatever an arena's memory
holds while its cursor is within bounds, and for every single write: what ends in a fault has
changed neither a byte of memory nor the place from which more would be handed out. -/
theorem faults_change_nothing :
    (∀ h : FirstFit, (∀ size, (FirstFit.allocate size).AllOrNothing h) ∧
      (∀ p, (FirstFit.release p).AllOrNothing h) ∧
      ∀ p, (FirstFit.releaseOnce p).AllOrNothing h) ∧
    (∀ a : Arena, a.memory.start ≤ a.cursor → a.cursor ≤ a.memory.stop →
      (∀ size, (Arena.allocate size).AllOrNothing a) ∧
      ∀ count size, (Arena.allocateZeroed count size).AllOrNothing a) ∧
    ∀ (m : Memory) (a : Addr), (∀ w, (Memory.writeWord a w).AllOrNothing m) ∧
      (∀ len b, (Memory.fill a len b).AllOrNothing m) ∧
      (∀ (n : Nat) (v : Vector UInt8 n), (Memory.store a v).AllOrNothing m) ∧
      (∀ header, (Header.write a header).AllOrNothing m) ∧
      (∀ size, (Header.writeSize a size).AllOrNothing m) ∧
      ∀ next, (Header.writeNext a next).AllOrNothing m := by
  refine ⟨fun h => ⟨h.allOrNothing_allocate, h.allOrNothing_release, h.allOrNothing_releaseOnce⟩,
    fun a hlo hhi => ⟨fun size => ?_, fun count size => ?_⟩, fun m a => ⟨?_, ?_, ?_, ?_, ?_, ?_⟩⟩
  · exact (Arena.served_allocate size a).allOrNothing
  · exact (Arena.Bounded.served_allocateZeroed ⟨hlo, hhi⟩ count size).allOrNothing
  · exact fun w => Memory.allOrNothing_store _
  · exact Memory.allOrNothing_fill
  · exact fun n => Memory.allOrNothing_store
  · exact fun header => Memory.allOrNothing_store _
  · exact fun size => Memory.allOrNothing_store _
  · exact fun next => Memory.allOrNothing_store _

/-- A request that follows a block linked to itself, one for eight bytes where six are left, and a
link that would be written past the end. -/
theorem faults_change_nothing_on_eighteen_bytes :
    let m : Memory := {
      start := 0x1000
      bytes := #[8, 0, 0, 0, 0, 0x10, 0, 0] ++ Array.replicate 10 7
      start_ne_zero := by decide
      aligned_start := by decide
      stop_lt := by decide }
    let request := (FirstFit.allocate 12).run ⟨m, some 0x1000⟩
    let cleared := (Arena.allocateZeroed 2 3).run ⟨m, 0x100C⟩
    let led := (Header.writeNext 0x100C none).run m
    (request.result = .error (.brokenChain 0x1000) ∧ request.state = ⟨m, some 0x1000⟩) ∧
      (cleared.result = .error (.outOfMemory 8 6) ∧ cleared.state = ⟨m, 0x100C⟩) ∧
      led.result = .error (.outOfBounds 0x1010 4) ∧ led.state = m := by
  intro m request cleared led
  obtain ⟨hheap, harena, hmemory⟩ := faults_change_nothing
  have hrequest : request.result = .error (.brokenChain 0x1000) := by decide +kernel
  have hcleared : cleared.result = .error (.outOfMemory 8 6) := by decide +kernel
  have hled : led.result = .error (.outOfBounds 0x1010 4) := by decide +kernel
  refine ⟨⟨hrequest, ?_⟩, ⟨hcleared, ?_⟩, hled, ?_⟩
  · exact (hheap ⟨m, some 0x1000⟩).1 12 _ hrequest
  · exact (harena ⟨m, 0x100C⟩ (by decide) (by decide)).2 2 3 _ hcleared
  · exact (hmemory m 0x100C).2.2.2.2.2 none _ hled

end HeapWindow
