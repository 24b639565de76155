import Mathlib.Data.Nat.Notation
import Mathlib.Tactic.Basic

/-!
# Runs under a schedule

A system takes the steps that a schedule names. A position that no step
lowers, and that a step offered again and again raises, gets to its mark.
-/

namespace Lib

variable {σ ℓ : Type}

def runOf (step : σ → ℓ → σ) (schedule : ℕ → ℓ) (s : σ) : ℕ → σ
  | 0 => s
  | n + 1 => step (runOf step schedule s n) (schedule n)

variable {step : σ → ℓ → σ} {schedule : ℕ → ℓ} {s : σ}

/-- A position that never falls, and that a step offered again and again raises as long as it is
below a mark, gets to the mark. -/
theorem climbs {pos : σ → ℕ} {helps : ℓ → Prop} {mark n : ℕ}
    (hmono : ∀ m, pos (runOf step schedule s m) ≤ pos (runOf step schedule s (m + 1)))
    (hfair : ∀ n, ∃ m, n ≤ m ∧ helps (schedule m))
    (hrises : ∀ m, n ≤ m → helps (schedule m) → pos (runOf step schedule s m) < mark →
      pos (runOf step schedule s m) < pos (runOf step schedule s (m + 1))) :
    ∃ m, n ≤ m ∧ mark ≤ pos (runOf step schedule s m) := by
  have hlater : ∀ m k, pos (runOf step schedule s m) ≤ pos (runOf step schedule s (m + k)) := by
    intro m k
    induction k with
    | zero => exact Nat.le_refl _
    | succ k ih => exact Nat.le_trans ih (hmono _)
  suffices hup : ∀ k, k ≤ mark → ∃ m, n ≤ m ∧ k ≤ pos (runOf step schedule s m) from hup mark (Nat.le_refl _)
  intro k
  induction k with
  | zero => exact fun _ => ⟨n, Nat.le_refl _, Nat.zero_le _⟩
  | succ k ih =>
    intro hk
    obtain ⟨m, hn, hpos⟩ := ih (by omega)
    obtain ⟨m', hm', hhelps⟩ := hfair m
    obtain ⟨d, rfl⟩ := Nat.exists_eq_add_of_le hm'
    have hreached := hlater m d
    by_cases hmark : pos (runOf step schedule s (m + d)) < mark
    · exact ⟨m + d + 1, by omega, by have := hrises _ (by omega) hhelps hmark; omega⟩
    · exact ⟨m + d, by omega, by omega⟩

end Lib
