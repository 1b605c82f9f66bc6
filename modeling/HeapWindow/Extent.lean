import HeapWindow.Walk

/-!
# Extents

An extent is a range of addresses that does not wrap. Extents tile a range if, put in the right
order, each begins where the one before it stops; then no two of them overlap and nothing of the
range is left out.
-/

namespace HeapWindow

/-- The addresses from `start` up to `stop`, which is not one of them. -/
structure Extent where
  start : Nat
  stop : Nat
  deriving DecidableEq

def Node.extent (n : Node) : Extent := ⟨n.addr.toNat, n.stop⟩

namespace Extent

/-- No address belongs to both, unless one of them is empty. -/
def Apart (e f : Extent) : Prop := e.stop ≤ f.start ∨ f.stop ≤ e.start

instance (e f : Extent) : Decidable (e.Apart f) := inferInstanceAs (Decidable (_ ∨ _))

theorem Apart.symm {e f : Extent} (h : e.Apart f) : f.Apart e := Or.symm h

/-- The extents lie end to end from `lo` to `hi`. -/
def Row : (lo : Nat) → List Extent → (hi : Nat) → Prop
  | lo, [], hi => lo = hi
  | lo, e :: es, hi => e.start = lo ∧ lo ≤ e.stop ∧ Row e.stop es hi

/-- In some order the extents lie end to end from `lo` to `hi`. -/
def Tile (lo : Nat) (es : List Extent) (hi : Nat) : Prop := ∃ row, row.Perm es ∧ Row lo row hi

theorem row_append {lo hi : Nat} {es fs : List Extent} :
    Row lo (es ++ fs) hi ↔ ∃ mid, Row lo es mid ∧ Row mid fs hi := by
  induction es generalizing lo with
  | nil => simp [Row]
  | cons e es ih => simp [Row, ih, and_assoc]

theorem Row.bounds {lo hi : Nat} {es : List Extent} (h : Row lo es hi) :
    lo ≤ hi ∧ ∀ e ∈ es, lo ≤ e.start ∧ e.start ≤ e.stop ∧ e.stop ≤ hi := by
  induction es generalizing lo with
  | nil => exact ⟨Nat.le_of_eq h, by simp⟩
  | cons e es ih =>
    obtain ⟨rfl, hle, hr⟩ := h
    obtain ⟨hhi, hes⟩ := ih hr
    refine ⟨Nat.le_trans hle hhi, fun f hf => ?_⟩
    rcases List.mem_cons.1 hf with rfl | hf
    · exact ⟨Nat.le_refl _, hle, hhi⟩
    · have := hes f hf
      omega

theorem Row.pairwise_apart {lo hi : Nat} {es : List Extent} (h : Row lo es hi) :
    es.Pairwise Apart := by
  induction es generalizing lo with
  | nil => exact List.Pairwise.nil
  | cons e es ih =>
    obtain ⟨_, _, hr⟩ := h
    exact List.pairwise_cons.2 ⟨fun f hf => Or.inl (hr.bounds.2 f hf).1, ih hr⟩

end Extent
end HeapWindow
