import HeapWindow.Leasing
import HeapWindow.Proofs.Cursors
import HeapWindow.Proofs.Spacing

/-!
# Leases that lie end to end

What an arena answers, and where its cursor is afterwards, is settled by the bounds of its memory
and by the cursor. So the leases since the last rewinding fill the memory from its start up to the
cursor without a gap, whatever else was asked for in between, and an arena that is rewound answers
like a new one.
-/

namespace HeapWindow

open Rounding

namespace Arena

variable {w : Window} {a b : Arena} {r : Request} {x : Action Arena Addr}

def Opens (w : Window) (a : Arena) : Prop :=
  ((ofWindow w : Action Unit Arena).run ()).result = .ok a

/-- A new arena on a window of fifteen bytes, which stops where the last address is. -/
def onFifteenBytes : Arena where
  memory := {
    start := 0xFFFFFFF0
    bytes := Array.replicate 15 0
    start_ne_zero := by decide
    aligned_start := by decide
    stop_lt := by decide }
  cursor := 0xFFFFFFF0

theorem opens_onFifteenBytes : Opens ⟨0xFFFFFFF0, 15⟩ onFifteenBytes := by rfl

theorem Opens.bounds (hw : Opens w a) : a.memory.start = w.start ∧
    a.memory.bytes.size = w.size.toNat ∧ a.cursor = a.memory.start := by
  rw [Opens, run_ofWindow] at hw
  cases hm : Memory.ofWindow w with
  | error fault =>
    rw [hm] at hw
    cases hw
  | ok m =>
    obtain ⟨hstart, hsize⟩ := Memory.bounds_of_ofWindow hm
    rw [hm] at hw
    cases hw
    exact ⟨hstart, hsize, rfl⟩

def reply (a : Arena) (r : Request) : Except Fault (Option Addr) :=
  match r with
  | .allocate _ | .allocateZeroed .. => (a.grant r.wanted).map fun _ => some a.cursor
  | .release _ | .rewind => .ok none
  | .write p bytes =>
    if a.memory.Holds p bytes.length then .ok none
    else .error (.outOfBounds p (.ofNat bytes.length))

def next (a : Arena) (r : Request) : Addr :=
  match r with
  | .allocate _ | .allocateZeroed .. =>
    match a.grant r.wanted with
    | .ok need => a.cursor + need
    | .error _ => a.cursor
  | .rewind => a.memory.start
  | .release _ | .write .. => a.cursor

/-- The bounds and the cursor settle the replies and where the cursor goes. -/
theorem reply_eq_next_eq (hm : Memory.SameBut (fun _ => True) a.memory b.memory)
    (hc : b.cursor = a.cursor) (r : Request) : b.reply r = a.reply r ∧ b.next r = a.next r := by
  have hg : b.grant r.wanted = a.grant r.wanted := by
    rw [grant, grant, remaining, remaining, hm.stop, hc]
  cases r with
  | allocate n | allocateZeroed count size =>
    simp only [reply, next, hg, hc]
    exact ⟨trivial, trivial⟩
  | release p => exact ⟨rfl, hc⟩
  | rewind => exact ⟨rfl, hm.start⟩
  | write p bytes =>
    simp only [reply, next, hm.holds_iff, hc]
    exact ⟨trivial, trivial⟩

structure Performs (a : Arena) (r : Request) (o : Outcome Arena (Option Addr)) : Prop where
  answer : o.result = a.reply r
  cursor : o.state.cursor = a.next r
  memory : Memory.SameBut (fun _ => True) a.memory o.state.memory

theorem Served.performs (hs : Served a r.wanted (x.run a))
    (hreply : a.reply r = (a.grant r.wanted).map fun _ => some a.cursor)
    (hnext : a.next r = match a.grant r.wanted with
      | .ok need => a.cursor + need
      | .error _ => a.cursor) : Performs a r ((some <$> x).run a) := by
  rw [Action.run_map]
  cases hg : a.grant r.wanted with
  | error fault =>
    rw [hg] at hreply hnext
    have hstate := hs.refused fault hg
    refine ⟨?_, ?_, ?_⟩
    · rw [hreply, hs.answer, hg]
      rfl
    · rw [hnext, hstate]
    · rw [hstate]
      exact .refl _ _
  | ok need =>
    rw [hg] at hreply hnext
    obtain ⟨hcursor, hsame⟩ := hs.granted need hg
    refine ⟨?_, ?_, hsame.mono fun _ _ => trivial⟩
    · rw [hreply, hs.answer, hg]
      rfl
    · rw [hnext, hcursor]

theorem Bounded.performs (h : a.Bounded) (r : Request) : Performs a r (r.perform.run a) := by
  cases r with
  | allocate n => exact (served_allocate n a).performs (r := .allocate n) rfl rfl
  | allocateZeroed count size =>
    exact (h.served_allocateZeroed count size).performs (r := .allocateZeroed count size) rfl rfl
  | release p => exact ⟨rfl, rfl, .refl _ _⟩
  | rewind => exact ⟨rfl, rfl, .refl _ _⟩
  | write p bytes =>
    rw [Request.perform, Action.run_map, run_onMemory, Memory.run_store_toVector]
    by_cases hp : a.memory.Holds p bytes.length
    · rw [if_pos hp]
      refine ⟨?_, rfl, (Memory.sameBut_put bytes hp).mono fun _ _ => trivial⟩
      rw [reply, if_pos hp]
      rfl
    · rw [if_neg hp]
      refine ⟨?_, rfl, .refl _ _⟩
      rw [reply, if_neg hp]
      rfl

end Arena

namespace Leasing

variable {w : Window} {a : Arena} {l m : Leasing} {r : Arena.Request} {p : Addr}

theorem leases_step_of_some (hr : r ≠ .rewind)
    (ho : (r.perform.run l.arena).result = .ok (some p)) :
    (l.step r).leases = l.leases ++ [⟨p.toNat, p.toNat + (r.wanted + 3) / 4 * 4⟩] := by
  simp only [step, ho]

theorem leases_step_of_ne_some (hr : r ≠ .rewind)
    (ho : ∀ p, (r.perform.run l.arena).result ≠ .ok (some p)) :
    (l.step r).leases = l.leases := by
  simp only [step]

/-- The leases fill the window from its start up to the cursor, one after the other. -/
structure Fills (w : Window) (l : Leasing) : Prop where
  start : l.arena.memory.start = w.start
  size : l.arena.memory.bytes.size = w.size.toNat
  row : Extent.Row w.start.toNat l.leases l.arena.cursor.toNat
  le_stop : l.arena.cursor ≤ l.arena.memory.stop
  aligned : Aligned l.arena.cursor

theorem fills_fresh (hw : Arena.Opens w a) : Fills w (fresh a) := by
  obtain ⟨hstart, hsize, hcursor⟩ := hw.bounds
  refine ⟨hstart, hsize, ?_, ?_, ?_⟩
  · show w.start.toNat = a.cursor.toNat
    rw [hcursor, hstart]
  · show a.cursor ≤ a.memory.stop
    rw [hcursor, UInt32.le_iff_toNat_le, Memory.toNat_stop]
    omega
  · show Aligned a.cursor
    rw [hcursor]
    exact a.memory.aligned_start

namespace Fills

theorem bounded (h : Fills w l) : l.arena.Bounded where
  start_le := by
    rw [h.start]
    exact UInt32.le_iff_toNat_le.2 h.row.bounds.1
  le_stop := h.le_stop

theorem sameBounds (hl : Fills w l) (hm : Fills w m) :
    Memory.SameBut (fun _ => True) l.arena.memory m.arena.memory :=
  ⟨hm.start.trans hl.start.symm, hm.size.trans hl.size.symm, fun _ h => absurd trivial h⟩

theorem append {need : UInt32} {k : Nat} (h : Fills w l) (hg : l.arena.grant k = .ok need)
    (hstart : m.arena.memory.start = w.start) (hsize : m.arena.memory.bytes.size = w.size.toNat)
    (hcursor : m.arena.cursor = l.arena.cursor + need)
    (hleases : m.leases =
      l.leases ++ [⟨l.arena.cursor.toNat, l.arena.cursor.toNat + (k + 3) / 4 * 4⟩]) :
    Fills w m := by
  obtain ⟨hneed, hroom⟩ := Arena.grant_eq_ok_iff.1 hg
  have hto := h.bounded.toNat_advance hroom
  rw [← hcursor] at hto
  have hin := (Memory.holds_iff.1 (h.bounded.holds hroom)).2
  have hstop : m.arena.memory.stop = l.arena.memory.stop := by
    rw [← UInt32.toNat_inj, Memory.toNat_stop, Memory.toNat_stop, hstart, hsize, h.start, h.size]
  refine ⟨hstart, hsize, ?_, ?_, ?_⟩
  · rw [hleases]
    refine Extent.row_append.2 ⟨_, h.row, rfl, Nat.le_add_right .., ?_⟩
    show l.arena.cursor.toNat + (k + 3) / 4 * 4 = m.arena.cursor.toNat
    rw [hto, hneed]
  · rw [UInt32.le_iff_toNat_le, hstop, hto]
    exact hin
  · have := aligned_iff.1 h.aligned
    rw [aligned_iff, hto]
    omega

theorem step (h : Fills w l) (r : Arena.Request) : Fills w (l.step r) := by
  have hp := h.bounded.performs r
  have hstart := hp.memory.start.trans h.start
  have hsize := hp.memory.size.trans h.size
  -- What hands nothing out moves nothing, unless it is the rewinding.
  have hstay (hc : l.arena.next r = l.arena.cursor) (hleases : (l.step r).leases = l.leases) :
      Fills w (l.step r) := by
    have hcursor : (l.step r).arena.cursor = l.arena.cursor := hp.cursor.trans hc
    refine ⟨hstart, hsize, ?_, ?_, ?_⟩
    · rw [hleases, hcursor]
      exact h.row
    · rw [hcursor]
      exact hp.memory.stop ▸ h.le_stop
    · rw [hcursor]
      exact h.aligned
  cases r with
  | allocate n | allocateZeroed count size =>
    have hanswer := hp.answer
    have hcursor := hp.cursor
    rw [Arena.reply] at hanswer
    rw [Arena.next] at hcursor
    cases hg : l.arena.grant (Arena.Request.wanted _) with
    | error fault =>
      rw [hg] at hanswer hcursor
      refine hstay (by rw [Arena.next, hg]) (leases_step_of_ne_some nofun fun p hp => ?_)
      rw [hanswer] at hp
      cases hp
    | ok need =>
      rw [hg] at hanswer hcursor
      exact h.append hg hstart hsize hcursor (leases_step_of_some nofun hanswer)
  | release p => exact hstay rfl rfl
  | rewind =>
    refine ⟨hstart, hsize, ?_, ?_, ?_⟩
    · show w.start.toNat = l.arena.memory.start.toNat
      rw [h.start]
    · exact UInt32.le_iff_toNat_le.2 (by rw [Memory.toNat_stop]; exact Nat.le_add_right ..)
    · exact l.arena.memory.aligned_start
  | write p bytes =>
    refine hstay rfl (leases_step_of_ne_some nofun fun q hq => ?_)
    rw [hp.answer, Arena.reply] at hq
    split at hq <;> cases hq

theorem after (h : Fills w l) (rs : List Arena.Request) : Fills w (l.after rs) := by
  induction rs generalizing l with
  | nil => exact h
  | cons r rs ih => exact ih (h.step r)

/-- Two arenas on the same window whose cursors agree answer alike for ever. -/
theorem answers_eq (hl : Fills w l) (hm : Fills w m) (hc : m.arena.cursor = l.arena.cursor)
    (rs : List Arena.Request) : m.answers rs = l.answers rs := by
  induction rs generalizing l m with
  | nil => rfl
  | cons r rs ih =>
    obtain ⟨hreply, hnext⟩ := Arena.reply_eq_next_eq (hl.sameBounds hm) hc r
    have hpl := hl.bounded.performs r
    have hpm := hm.bounded.performs r
    rw [answers, answers, hpl.answer, hpm.answer, hreply, ih (hl.step r) (hm.step r)]
    exact hpm.cursor.trans (hnext.trans hpl.cursor.symm)

end Fills

/-- Counts and leases of an arena on a window. -/
structure EndToEnd (w : Window) (l : Leasing) : Prop where
  start_le : w.start ≤ l.arena.cursor
  le_stop : l.arena.cursor ≤ l.arena.memory.stop
  bounds : l.arena.memory.start = w.start ∧
    l.arena.memory.stop.toNat = w.start.toNat + w.size.toNat
  aligned : Aligned l.arena.cursor
  used : l.arena.used.toNat = (l.leases.map Extent.length).sum
  balance : l.arena.used.toNat + l.arena.remaining.toNat = l.arena.capacity.toNat
  capacity : l.arena.capacity = w.size
  /-- Each lease begins where the lengths of the earlier ones end. -/
  addresses : ∀ i e, l.leases[i]? = some e →
    e.start = w.start.toNat + ((l.leases.take i).map Extent.length).sum
  row : Extent.Row w.start.toNat l.leases l.arena.cursor.toNat
  inside : ∀ e ∈ l.leases, w.start.toNat ≤ e.start ∧ e.stop ≤ w.start.toNat + w.size.toNat
  apart : l.leases.Pairwise Extent.Apart
  /-- Past a lease that is not empty, the addresses are greater than its own. -/
  increasing : l.leases.Pairwise fun e f => e.start < e.stop → e.start < f.start

theorem Fills.endToEnd (h : Fills w l) : EndToEnd w l where
  start_le := by
    have := h.bounded.start_le
    rwa [h.start] at this
  le_stop := h.le_stop
  bounds := ⟨h.start, by rw [Memory.toNat_stop, h.start, h.size]⟩
  aligned := h.aligned
  used := by
    have := h.row.stop_eq
    rw [h.bounded.toNat_used, h.start]
    omega
  balance := h.bounded.used_add_remaining
  capacity := by rw [← UInt32.toNat_inj, Arena.capacity, Memory.toNat_size, h.size]
  addresses _ _ := h.row.start_eq
  row := h.row
  inside e he := by
    have hstop := UInt32.le_iff_toNat_le.1 h.le_stop
    rw [Memory.toNat_stop, h.start, h.size] at hstop
    have := h.row.bounds.2 e he
    omega
  apart := h.row.pairwise_apart
  increasing := h.row.pairwise_before.imp fun {e f} hb (hlt : e.start < e.stop) =>
    Nat.lt_of_lt_of_le hlt hb

/-- Whatever is asked of an arena, the counts balance and the leases lie end to end from the start
of the window to the cursor. A request is refused if 32 bits cannot hold it in whole words or if
these do not fit behind the cursor, and otherwise is given the bytes there. A rewound arena answers
as a new one. -/
theorem leases_end_to_end (hw : Arena.Opens w a) (rs : List Arena.Request) :
    EndToEnd w ((fresh a).after rs) ∧
      (∀ n, ((Arena.allocate n).run ((fresh a).after rs).arena).result =
        .error .requestTooLarge ↔ roundUp? n = none) ∧
      (∀ n need room, ((Arena.allocate n).run ((fresh a).after rs).arena).result =
        .error (.outOfMemory need room) ↔ roundUp? n = some need ∧
          room = ((fresh a).after rs).arena.remaining ∧ room < need) ∧
      (∀ n p, ((Arena.allocate n).run ((fresh a).after rs).arena).result = .ok p ↔
        p = ((fresh a).after rs).arena.cursor ∧
          ∃ need, roundUp? n = some need ∧ need ≤ ((fresh a).after rs).arena.remaining) ∧
      ∀ qs, (((fresh a).after rs).step .rewind).answers qs = (fresh a).answers qs := by
  have hf := fills_fresh hw
  have h := hf.after rs
  generalize (fresh a).after rs = l at h ⊢
  refine ⟨h.endToEnd, fun n => ?_, fun n need room => ?_, fun n p => ?_, fun qs => ?_⟩
  · exact Arena.allocate_tooLarge_iff
  · exact Arena.allocate_outOfMemory_iff
  · exact Arena.allocate_ok_iff
  · refine hf.answers_eq (h.step .rewind) ?_ qs
    exact h.start.trans (hw.bounds.2.2.trans hw.bounds.1).symm

/-- Two leases are taken back and three are given out again, the first of them empty. Three bytes
are left, which are less than a word. -/
theorem leases_end_to_end_on_fifteen_bytes :
    let rs : List Arena.Request :=
      [.allocate 5, .allocateZeroed 2 0, .write 0xFFFFFFF2 [7], .allocateZeroed 2 4,
        .release 0xFFFFFFF0, .rewind, .allocate 0, .allocateZeroed 1 3, .allocate 6]
    ((fresh .onFifteenBytes).after rs).leases =
        [⟨0xFFFFFFF0, 0xFFFFFFF0⟩, ⟨0xFFFFFFF0, 0xFFFFFFF4⟩, ⟨0xFFFFFFF4, 0xFFFFFFFC⟩] ∧
      EndToEnd ⟨0xFFFFFFF0, 15⟩ ((fresh .onFifteenBytes).after rs) ∧
      ((Arena.allocate 1).run ((fresh .onFifteenBytes).after rs).arena).result =
        .error (.outOfMemory 4 3) ∧
      ((Arena.allocate 0xFFFFFFFD).run ((fresh .onFifteenBytes).after rs).arena).result =
        .error .requestTooLarge ∧
      (((fresh .onFifteenBytes).after rs).step .rewind).answers
          [.allocate 12, .allocateZeroed 3 1] =
        [.ok (some 0xFFFFFFF0), .error (.outOfMemory 4 3)] := by
  intro rs
  obtain ⟨hl, hlarge, hfull, -, hrewound⟩ := leases_end_to_end Arena.opens_onFifteenBytes rs
  refine ⟨by decide +kernel, hl, (hfull 1 4 3).2 ?_, (hlarge _).2 (by decide +kernel), ?_⟩
  · exact ⟨by decide, by decide +kernel, by decide⟩
  · exact (hrewound _).trans (by decide +kernel)

end Leasing
end HeapWindow
