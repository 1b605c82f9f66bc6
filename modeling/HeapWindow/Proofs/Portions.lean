import HeapWindow.Proofs.Openings
import Mathlib.Data.Stream.Init

/-!
# Portions of one size

Requests of one size cut portion after portion off the front of a new heap, until what is left is
too small for another. Nothing is wasted on the way: what cannot be cut off has fewer than sixteen
bytes with its header, and a portion of eight bytes or more has no fewer. So there are as many
portions as go into the whole words of the window, and they lie end to end from its start.
-/

namespace HeapWindow

open Rounding

namespace Action

variable {σ α : Type} {x : Action σ α} {s t : σ} {r : Except Fault α} {es : List Event}
  {answers : Stream' (Except Fault α)}

/-- Done again and again from `s` on, whether or not it stops at a fault, the action gives these
answers. -/
def Yields (x : Action σ α) (s : σ) (answers : Stream' (Except Fault α)) : Prop :=
  ∀ m, ((replicate x.attempt m).run s).result = .ok (answers.take m)

theorem result_replicate_succ {m : Nat} {rest : List (Except Fault α)}
    (hx : x.run s = ⟨r, t, es⟩) (hrest : ((replicate x.attempt m).run t).result = .ok rest) :
    ((replicate x.attempt (m + 1)).run s).result = .ok (r :: rest) := by
  have ha : x.attempt.run s = ⟨.ok r, t, es⟩ := by rw [run_attempt, hx]
  rw [replicate, run_bind_ok ha, run_map, hrest]
  rfl

theorem Yields.cons (hx : x.run s = ⟨r, t, es⟩) (h : x.Yields t answers) :
    x.Yields s (.cons r answers) := by
  intro m
  cases m with
  | zero => rfl
  | succ m =>
    rw [Stream'.take_succ_cons]
    exact result_replicate_succ hx (h m)

theorem yields_const (hx : x.run s = ⟨r, s, es⟩) : x.Yields s (.const r) := by
  intro m
  induction m with
  | zero => rfl
  | succ m ih =>
    rw [Stream'.const_eq, Stream'.take_succ_cons]
    exact result_replicate_succ hx ih

end Action

namespace FirstFit

variable {w : Window} {h : FirstFit} {free held : List Slot} {n need left : UInt32} {p : Addr}
  {lo size count : Nat} {answers : Stream' (Except Fault Addr)}

/-- First come the addresses of `count` portions of `need` bytes, which lie with their headers end
to end from `lo` on. Then all that is left are fewer bytes. -/
structure Portions (lo count : Nat) (need : UInt32) (answers : Stream' (Except Fault Addr)) :
    Prop where
  granted : ∀ i < count, ∃ p, answers.get i = .ok p ∧ p.toNat = lo + 8 + i * (need.toNat + 8)
  refused : ∃ left < need, ∀ i, count ≤ i → answers.get i = .error (.outOfMemory need left)

theorem portions_zero (hlt : left < need) :
    Portions lo 0 need (.const (.error (.outOfMemory need left))) where
  granted _ hi := absurd hi (Nat.not_lt_zero _)
  refused := ⟨left, hlt, fun _ _ => rfl⟩

theorem Portions.cons (hp : p.toNat = lo + 8)
    (h : Portions (lo + 8 + need.toNat) count need answers) :
    Portions lo (count + 1) need (.cons (.ok p) answers) where
  granted i hi := by
    cases i with
    | zero => exact ⟨p, rfl, by omega⟩
    | succ i =>
      obtain ⟨q, hq, he⟩ := h.granted i (by omega)
      refine ⟨q, hq, ?_⟩
      rw [he, Nat.succ_mul]
      omega
  refused := by
    obtain ⟨left, hlt, hr⟩ := h.refused
    refine ⟨left, hlt, fun i hi => ?_⟩
    obtain ⟨i, rfl⟩ : ∃ j, i = j + 1 := ⟨i - 1, by omega⟩
    exact hr i (by omega)

namespace Layout

theorem yields_refusals (hl : h.Layout free held) (hneed : roundUp? n = some need)
    (hpos : 0 < need.toNat) (hfull : ∀ s ∈ free, s.size < need.toNat) :
    ∃ left < need, (allocate n).Yields h (.const (.error (.outOfMemory need left))) := by
  refine ⟨h.walk.largest, ?_, Action.yields_const
    (hl.run_allocate_none hneed (Pool.allocate_eq_none_iff.2 hfull))⟩
  have hle : Pool.largest free ≤ need.toNat - 1 :=
    Pool.largest_le_iff.2 fun s hs => Nat.le_sub_one_of_lt (hfull s hs)
  rw [UInt32.lt_iff_toNat_lt, toNat_largest, ← pool, hl.pool_eq]
  omega

theorem yields_portions (hl : h.Layout [⟨lo, size⟩] held) (hneed : roundUp? n = some need)
    (h₈ : 8 ≤ need.toNat) :
    ∃ answers, (allocate n).Yields h answers ∧
      Portions lo ((size + 8) / (need.toNat + 8)) need answers := by
  generalize hcount : (size + 8) / (need.toNat + 8) = count
  induction count generalizing h lo size held with
  | zero =>
    have hlt := Nat.lt_of_div_eq_zero (by omega) hcount
    obtain ⟨left, hleft, hy⟩ := hl.yields_refusals hneed (by omega) (by simp; omega)
    exact ⟨_, hy, portions_zero hleft⟩
  | succ count ih =>
    have hle : need.toNat ≤ size := by
      by_contra hlt
      rw [Nat.div_eq_of_lt (by omega)] at hcount
      cases hcount
    rw [Nat.div_eq_sub_div (by omega) (by omega), Nat.add_right_cancel_iff] at hcount
    by_cases hcut : need.toNat + 16 ≤ size
    · have ha : Pool.allocate need.toNat [⟨lo, size⟩] =
          some (⟨lo, need.toNat⟩, [⟨lo + 8 + need.toNat, size - need.toNat - 8⟩]) :=
        Pool.allocate_cons_of_cut hcut
      obtain ⟨p, h', e, hrun, hp, hl', -⟩ := hl.run_allocate hneed ha
      obtain ⟨answers, hy, hportions⟩ := ih hl' (by rw [← hcount]; congr 1; omega)
      exact ⟨_, hy.cons hrun, hportions.cons hp⟩
    · obtain ⟨p, h', e, hrun, hp, hl', -⟩ :=
        hl.run_allocate hneed (Pool.allocate_cons_of_whole hle (Nat.not_le.1 hcut))
      obtain ⟨left, hleft, hy⟩ := hl'.yields_refusals hneed (by omega) (by simp)
      -- What could not be cut off is too small for another portion.
      obtain rfl : 0 = count := by rw [← hcount, Nat.div_eq_of_lt (by omega)]
      exact ⟨_, hy.cons hrun, (portions_zero hleft).cons hp⟩

end Layout

/-- Requests of one size, of eight bytes or more in whole words, are granted by a new heap as often
as such a portion and its header go into the whole words of the window. The portions lie end to end
from its start, and after the last one every request is refused for want of room. -/
theorem portions_fill_window (hw : Opens w h) (hneed : roundUp? n = some need) (h₈ : 8 ≤ need) :
    ∃ answers, (allocate n).Yields h answers ∧
      Portions w.start.toNat (w.size.toNat / 4 * 4 / (need.toNat + 8)) need answers := by
  obtain ⟨hroom, hl⟩ := hw.layout
  have hp := hl.yields_portions hneed (UInt32.le_iff_toNat_le.1 h₈)
  rwa [Nat.sub_add_cancel hroom] at hp

/-- Five bytes go twice into ten words: the second portion takes all of the sixteen bytes that are
left behind the first. -/
theorem portions_fill_ten_words :
    ∃ left, ((Action.replicate (allocate 5).attempt 4).run onTenWords).result =
      .ok [.ok 0x1008, .ok 0x1018, .error (.outOfMemory 8 left), .error (.outOfMemory 8 left)] := by
  have hneed : roundUp? 5 = some 8 := by decide
  obtain ⟨answers, hy, hp⟩ := portions_fill_window opens_onTenWords hneed (by decide)
  obtain ⟨p, hp₀, ha⟩ := hp.granted 0 (by decide)
  obtain ⟨q, hq₁, hb⟩ := hp.granted 1 (by decide)
  obtain ⟨left, -, hr⟩ := hp.refused
  obtain rfl : p = 0x1008 := UInt32.toNat_inj.1 ha
  obtain rfl : q = 0x1018 := UInt32.toNat_inj.1 hb
  have h₄ : answers.take 4 = [answers.get 0, answers.get 1, answers.get 2, answers.get 3] := rfl
  exact ⟨left, by rw [hy 4, h₄, hp₀, hq₁, hr 2 (by decide), hr 3 (by decide)]⟩

end FirstFit
end HeapWindow
