import HeapWindow.Extent
import Mathlib.Algebra.GroupWithZero.Nat

/-!
# Extents that keep apart

Extents that are apart can be put in the order of their starts, and so only as many of them fit
into a range as it has room for. Extents that lie end to end are together as long as the range. A
tiling stays one when an extent is cut in two.
-/

namespace HeapWindow
namespace Extent

variable {lo hi k : Nat} {es fs : List Extent}

def Before (e f : Extent) : Prop := e.stop ≤ f.start

theorem before_of_sorted (hs : es.Pairwise fun e f => e.start ≤ f.start)
    (ha : es.Pairwise Apart) (hn : ∀ e ∈ es, e.start < e.stop) : es.Pairwise Before := by
  refine (hs.and ha).imp_of_mem fun {e f} he hf h => ?_
  have hf' := hn f hf
  obtain ⟨hle, h | h⟩ := h
  · exact h
  · omega

theorem room_of_before (h : es.Pairwise Before) (hlo : lo ≤ hi)
    (hk : ∀ e ∈ es, lo ≤ e.start ∧ e.start + k ≤ e.stop ∧ e.stop ≤ hi) :
    lo + k * es.length ≤ hi := by
  induction es generalizing lo with
  | nil => simpa using hlo
  | cons e es ih =>
    obtain ⟨he, hes⟩ := List.pairwise_cons.1 h
    have hke := hk e (by simp)
    have hr : e.stop + k * es.length ≤ hi := by
      refine ih hes hke.2.2 fun f hf => ⟨he f hf, ?_⟩
      exact (hk f (by simp [hf])).2
    rw [List.length_cons, Nat.mul_succ]
    omega

theorem room_of_apart (h : es.Pairwise Apart) (hlo : lo ≤ hi) (hpos : 0 < k)
    (hk : ∀ e ∈ es, lo ≤ e.start ∧ e.start + k ≤ e.stop ∧ e.stop ≤ hi) :
    lo + k * es.length ≤ hi := by
  let le : Extent → Extent → Bool := fun e f => decide (e.start ≤ f.start)
  have hp : (es.mergeSort le).Perm es := List.mergeSort_perm es le
  have hs : (es.mergeSort le).Pairwise fun e f => e.start ≤ f.start := by
    have htrans : ∀ e f g, le e f → le f g → le e g := by simp [le]; omega
    have htotal : ∀ e f, (le e f || le f e) = true := by simp [le]; omega
    simpa [le] using List.pairwise_mergeSort htrans htotal es
  have ha : (es.mergeSort le).Pairwise Apart := (hp.pairwise_iff fun h => Apart.symm h).2 h
  have hk' : ∀ e ∈ es.mergeSort le, lo ≤ e.start ∧ e.start + k ≤ e.stop ∧ e.stop ≤ hi :=
    fun e he => hk e (hp.mem_iff.1 he)
  have hb := before_of_sorted hs ha fun e he => by have := hk' e he; omega
  have hr := room_of_before hb hlo hk'
  rwa [hp.length_eq] at hr

def length (e : Extent) : Nat := e.stop - e.start

theorem Row.stop_eq (h : Row lo es hi) : hi = lo + (es.map length).sum := by
  induction es generalizing lo with
  | nil => exact Eq.symm h
  | cons e es ih =>
    obtain ⟨rfl, hle, hr⟩ := h
    have := ih hr
    simp only [List.map_cons, List.sum_cons, length]
    omega

theorem Row.start_eq (h : Row lo es hi) {i : Nat} {e : Extent} (he : es[i]? = some e) :
    e.start = lo + ((es.take i).map length).sum := by
  obtain ⟨hi, rfl⟩ := List.getElem?_eq_some_iff.1 he
  rw [← List.take_append_drop i es, List.drop_eq_getElem_cons hi] at h
  obtain ⟨mid, hfront, hstart, -⟩ := row_append.1 h
  rw [hstart, hfront.stop_eq]

theorem Row.pairwise_before (h : Row lo es hi) : es.Pairwise Before := by
  induction es generalizing lo with
  | nil => exact .nil
  | cons e es ih =>
    obtain ⟨-, -, hr⟩ := h
    exact List.pairwise_cons.2 ⟨fun f hf => (hr.bounds.2 f hf).1, ih hr⟩

theorem Tile.perm (h : Tile lo es hi) (hp : es.Perm fs) : Tile lo fs hi := by
  obtain ⟨row, hr, ht⟩ := h
  exact ⟨row, hr.trans hp, ht⟩

theorem Tile.cut {a b c : Nat} (h : Tile lo (⟨a, c⟩ :: es) hi) (hab : a ≤ b) (hbc : b ≤ c) :
    Tile lo (⟨a, b⟩ :: ⟨b, c⟩ :: es) hi := by
  obtain ⟨row, hp, hr⟩ := h
  obtain ⟨xs, ys, rfl⟩ := List.append_of_mem (hp.mem_iff.2 (List.mem_cons_self ..))
  have hes : (xs ++ ys).Perm es := (List.perm_middle.symm.trans hp).cons_inv
  refine ⟨xs ++ ⟨a, b⟩ :: ⟨b, c⟩ :: ys, ?_, ?_⟩
  · have h₁ : (xs ++ ⟨a, b⟩ :: ⟨b, c⟩ :: ys).Perm (⟨a, b⟩ :: (xs ++ ⟨b, c⟩ :: ys)) :=
      List.perm_middle
    exact h₁.trans ((List.perm_middle.trans (hes.cons _)).cons _)
  · obtain ⟨mid, hx, rfl, hac, hy⟩ := row_append.1 hr
    exact row_append.2 ⟨a, hx, rfl, hab, rfl, hbc, hy⟩

end Extent
end HeapWindow
