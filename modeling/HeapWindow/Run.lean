/-!
# Runs

A run is a list of requests, each served in the state that the one before it left. A kind of run
is given by what is asked of every request when its turn comes.
-/

namespace HeapWindow
namespace Run

variable {σ ρ : Type}

/-- Every request is `ok` in the state in which it is served. -/
def Along (step : σ → ρ → σ) (ok : σ → ρ → Prop) : σ → List ρ → Prop
  | _, [] => True
  | s, r :: rs => ok s r ∧ Along step ok (step s r) rs

instance instDecidableAlong {step : σ → ρ → σ} {ok : σ → ρ → Prop} [∀ s r, Decidable (ok s r)] :
    ∀ s rs, Decidable (Along step ok s rs)
  | _, [] => isTrue trivial
  | s, r :: rs =>
    have : Decidable (Along step ok (step s r) rs) := instDecidableAlong (step s r) rs
    inferInstanceAs (Decidable (ok s r ∧ Along step ok (step s r) rs))

theorem Along.mono {step : σ → ρ → σ} {ok ok' : σ → ρ → Prop} {s : σ} {rs : List ρ}
    (h : ∀ s r, ok s r → ok' s r) (hr : Along step ok s rs) : Along step ok' s rs := by
  induction rs generalizing s with
  | nil => trivial
  | cons r rs ih => exact ⟨h s r hr.1, ih hr.2⟩

theorem along_append {step : σ → ρ → σ} {ok : σ → ρ → Prop} {s : σ} {rs qs : List ρ} :
    Along step ok s (rs ++ qs) ↔ Along step ok s rs ∧ Along step ok (rs.foldl step s) qs := by
  induction rs generalizing s with
  | nil => simp [Along]
  | cons r rs ih => simp [Along, ih, and_assoc]

/-- What holds at first and is kept by every request that is `ok` holds at the end. -/
theorem Along.induction {step : σ → ρ → σ} {ok : σ → ρ → Prop} {P : σ → Prop}
    (keep : ∀ s r, P s → ok s r → P (step s r)) {s : σ} {rs : List ρ} (hr : Along step ok s rs)
    (h : P s) : P (rs.foldl step s) := by
  induction rs generalizing s with
  | nil => exact h
  | cons r rs ih => exact ih hr.2 (keep s r h hr.1)

end Run
end HeapWindow
