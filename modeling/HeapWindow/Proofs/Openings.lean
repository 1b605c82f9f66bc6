import HeapWindow.Proofs.Mirroring

/-!
# Runs on a new heap

A new heap is one free block, and its client holds nothing. From there a ledger is followed through
every run of requests, so what one request does to a tenancy that follows a ledger is what it does
in the course of a run.
-/

namespace HeapWindow

open Rounding

namespace FirstFit

def Opens (w : Window) (h : FirstFit) : Prop :=
  ((ofWindow w : Action Unit FirstFit).run ()).result = .ok h

theorem sample_ne_zero : (0x1000 : Addr) ≠ 0 := by decide

theorem aligned_sample : Aligned (0x1000 : Addr) := by decide

def onTenWords : FirstFit where
  memory := {
    start := 0x1000
    bytes := #[32, 0, 0, 0] ++ Array.replicate 36 0
    start_ne_zero := by decide
    aligned_start := by decide
    stop_lt := by decide }
  head := some 0x1000

theorem opens_onTenWords : Opens ⟨0x1000, 40⟩ onTenWords := by rfl

variable {w : Window} {h : FirstFit}

theorem at?_first {m : Memory} {size : UInt32} (hs : Aligned size)
    (hle : 8 + size.toNat ≤ m.bytes.size) :
    Node.at? (m.put m.start (Header.encode ⟨size, none⟩).toList) m.start =
      some ⟨⟨size, none⟩, m.start⟩ := by
  have hi : (⟨⟨size, none⟩, m.start⟩ : Node).Inside m := by
    refine ⟨m.aligned_start, Memory.holds_iff.2 ?_, ?_⟩
    · rw [Memory.toNat_stop]
      dsimp only
      omega
    · rw [Node.stop_eq, Memory.toNat_stop]
      dsimp only
      omega
  exact Node.at?_putHeader (n := ⟨⟨size, none⟩, m.start⟩) hi hs nofun

theorem Opens.exists_run (hw : Opens w h) :
    ∃ (m : Memory) (size : UInt32), (ofWindow w : Action Unit FirstFit).run () =
        ⟨.ok h, (), [.chainOpened m.start size]⟩ ∧
      h = ⟨m.put m.start (Header.encode ⟨size, none⟩).toList, some m.start⟩ ∧
      m.start = w.start ∧ m.bytes.size = w.size.toNat ∧ 8 + size.toNat = w.size.toNat / 4 * 4 := by
  rw [Opens] at hw
  have hrun := run_ofWindow w ()
  generalize (ofWindow w : Action Unit FirstFit).run () = o at hw hrun ⊢
  subst hrun
  cases hm : Memory.ofWindow w with
  | error fault =>
    rw [hm] at hw
    cases hw
  | ok m =>
    obtain ⟨hstart, hsize⟩ := Memory.bounds_of_ofWindow hm
    rw [hm] at hw
    by_cases hlt : roundDown m.size < Header.byteSize
    · simp only [if_pos hlt] at hw
      cases hw
    · simp only [if_neg hlt] at hw ⊢
      have hle := UInt32.not_lt.1 hlt
      have h₈ := UInt32.le_iff_toNat_le.1 hle
      have hz := UInt32.toNat_sub_of_le _ _ hle
      rw [toNat_roundDown, Memory.toNat_size, hsize, Header.toNat_byteSize] at h₈ hz
      obtain rfl := Except.ok.inj hw
      exact ⟨m, _, rfl, rfl, hstart, hsize, by omega⟩

theorem Opens.layout (hw : Opens w h) :
    8 ≤ w.size.toNat / 4 * 4 ∧
      h.Layout [⟨w.start.toNat, w.size.toNat / 4 * 4 - 8⟩] [] := by
  obtain ⟨m, size, -, rfl, hstart, hsize, h₈⟩ := hw.exists_run
  have hs : Aligned size := aligned_iff.2 (by omega)
  have hn := at?_first (m := m) hs (by omega)
  have hslot : (⟨w.start.toNat, w.size.toNat / 4 * 4 - 8⟩ : Slot) =
      Node.slot ⟨⟨size, none⟩, m.start⟩ := by
    rw [Node.slot, hstart, ← h₈, Nat.add_sub_cancel_left]
  refine ⟨by omega, ?_, fun s hs => absurd hs List.not_mem_nil, List.pairwise_singleton ..⟩
  rw [hslot]
  exact Chain.Leads.past (n := ⟨⟨size, none⟩, m.start⟩) hn .here

end FirstFit

namespace Tenancy

variable {w : Window} {h : FirstFit} {t : Tenancy} {l : Ledger} {rs : List Request}

theorem follows_fresh (hw : FirstFit.Opens w h) : Follows (fresh h) (Ledger.ofWindow w) where
  layout := hw.layout.2
  live := rfl
  issued _ hq := absurd hq List.not_mem_nil

theorem tiles_ofWindow (hw : FirstFit.Opens w h) :
    (Ledger.ofWindow w).Tiles w.start.toNat (w.start.toNat + w.size.toNat / 4 * 4) := by
  have h₈ := hw.layout.1
  let e : Extent := ⟨w.start.toNat, w.start.toNat + 8 + (w.size.toNat / 4 * 4 - 8)⟩
  refine ⟨[e], .refl _, rfl, ?_, ?_⟩
  · show w.start.toNat ≤ w.start.toNat + 8 + _
    omega
  · show w.start.toNat + 8 + (w.size.toNat / 4 * 4 - 8) = _
    omega

/-- A ledger is followed through every run, and the blocks tile the window all along. -/
theorem exists_follows (hw : FirstFit.Opens w h) (hrs : Run.Along step Keeps (fresh h) rs) :
    ∃ l : Ledger, Follows ((fresh h).after rs) l ∧
      l.Tiles w.start.toNat (w.start.toNat + w.size.toNat / 4 * 4) := by
  refine Run.Along.induction (P := fun t => ∃ l : Ledger, Follows t l ∧
    l.Tiles w.start.toNat (w.start.toNat + w.size.toNat / 4 * 4)) ?_ hrs
    ⟨Ledger.ofWindow w, follows_fresh hw, tiles_ofWindow hw⟩
  intro t r ⟨l, hf, ht⟩ hr
  exact ⟨l.step r, (hf.step hr).follows, ht.step r⟩

theorem exists_of_mem_answers {ok : Tenancy → Request → Prop} {o : Except Fault (Option Addr)}
    (hrs : Run.Along step ok t rs) (ho : o ∈ t.answers rs) :
    ∃ front r, Run.Along step ok t front ∧ ok (t.after front) r ∧
      (r.perform.run (t.after front).heap).result = o := by
  induction rs generalizing t with
  | nil => cases ho
  | cons r rs ih =>
    rcases List.mem_cons.1 ho with rfl | ho
    · exact ⟨[], r, trivial, hrs.1, rfl⟩
    · obtain ⟨front, q, hf, hq, he⟩ := ih hrs.2 ho
      exact ⟨r :: front, q, ⟨hrs.1, hf⟩, hq, he⟩

end Tenancy

end HeapWindow
