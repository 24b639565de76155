import Mathlib.Logic.Basic
import Mathlib.Data.List.Basic
import Mathlib.Data.Option.Basic

/-!
# Executions of a partial step function

A system is a state type, a label type and a partial function `step`; a label
a state does not admit steps nowhere. `Steps step ok s ls s'` is an execution
along the labels `ls` in which every step was taken in a state that the guard
`ok` admits.
-/

namespace Lib

/-- The guard that admits every step. -/
def always {σ ℓ : Type} : σ → ℓ → Prop := fun _ _ => True

inductive Steps {σ ℓ : Type} (step : σ → ℓ → Option σ) (ok : σ → ℓ → Prop) :
    σ → List ℓ → σ → Prop
  | nil : Steps step ok s [] s
  | cons : ok s l → step s l = some mid → Steps step ok mid ls s' → Steps step ok s (l :: ls) s'

/-- Replays a list of labels. -/
def replay {σ ℓ : Type} (step : σ → ℓ → Option σ) : σ → List ℓ → Option σ
  | s, [] => some s
  | s, l :: ls => (step s l).bind fun mid => replay step mid ls

/-- A step that reads a part of the state and goes on only if it is as it should be. -/
theorem some_of_guarded {α β : Type} {x : Option α} {P : α → Prop} [DecidablePred P] {f : α → β}
    {b : β} (h : (do let a ← x; guard (P a); return f a) = some b) :
    ∃ a, x = some a ∧ P a ∧ f a = b := by
  obtain ⟨a, ha, h⟩ := Option.bind_eq_some_iff.mp h
  obtain ⟨_, hguard, h⟩ := Option.bind_eq_some_iff.mp h
  exact ⟨a, ha, (Option.guard_eq_some' _).mp hguard, Option.some.inj h⟩

section
variable {σ ℓ : Type} {step : σ → ℓ → Option σ} {ok : σ → ℓ → Prop} {s s' : σ} {ls : List ℓ}

theorem Steps.mono {ok' : σ → ℓ → Prop} (h : Steps step ok s ls s')
    (hk : ∀ s l, ok s l → ok' s l) : Steps step ok' s ls s' := by
  induction h with
  | nil => exact .nil
  | cons hok hstep _ ih => exact .cons (hk _ _ hok) hstep ih

theorem Steps.append {s'' : σ} {ms : List ℓ} (h : Steps step ok s ls s')
    (h' : Steps step ok s' ms s'') : Steps step ok s (ls ++ ms) s'' := by
  induction h with
  | nil => exact h'
  | cons hok hstep _ ih => exact .cons hok hstep (ih h')

theorem Steps.invariant (I : σ → Prop) (hs : ∀ s l s', I s → ok s l → step s l = some s' → I s')
    (h : Steps step ok s ls s') (h0 : I s) : I s' := by
  induction h with
  | nil => exact h0
  | cons hok hstep _ ih => exact ih (hs _ _ _ h0 hok hstep)

/-- A rank that every counted step lowers, and no other step raises, takes the run to the goal by the
time it has counted that many. -/
theorem Steps.reaches (I Goal : σ → Prop) (rank : σ → ℕ) {counts : ℓ → Bool}
    (hpos : ∀ s, I s → rank s = 0 → Goal s)
    (hrank : ∀ s l s', I s → ¬Goal s → ok s l → step s l = some s' →
      Goal s' ∨ I s' ∧ rank s' + (if counts l then 1 else 0) ≤ rank s)
    (h : Steps step ok s ls s') (h0 : I s) (hcount : rank s ≤ ls.countP counts) :
    ∃ pre post mid, ls = pre ++ post ∧ Steps step ok s pre mid ∧ Goal mid := by
  induction h with
  | @nil s => exact ⟨[], [], s, rfl, .nil, hpos s h0 (Nat.le_zero.mp hcount)⟩
  | @cons s l mid ls _ hok hstep hrest ih =>
    by_cases hgoal : Goal s
    · exact ⟨[], l :: ls, s, rfl, .nil, hgoal⟩
    · rcases hrank s l mid h0 hgoal hok hstep with hnext | ⟨hinv, hless⟩
      · exact ⟨[l], ls, mid, rfl, .cons hok hstep .nil, hnext⟩
      · rw [List.countP_cons] at hcount
        obtain ⟨pre, post, goal, rfl, hpre, hmid⟩ := ih hinv (by omega)
        exact ⟨l :: pre, post, goal, rfl, .cons hok hstep hpre, hmid⟩

theorem replay_steps (h : replay step s ls = some s') : Steps step always s ls s' := by
  induction ls generalizing s with
  | nil =>
    simp only [replay, Option.some.injEq] at h
    subst h; exact .nil
  | cons l ls ih =>
    obtain ⟨mid, hmid, h⟩ := Option.bind_eq_some_iff.mp h
    exact .cons trivial hmid (ih h)

theorem steps_of_replay {p : σ → Bool} (h : (replay step s ls).any p = true) :
    ∃ s', Steps step always s ls s' ∧ p s' = true := by
  cases hs : replay step s ls with
  | none => simp [hs] at h
  | some s' => exact ⟨s', replay_steps hs, by simpa [hs] using h⟩

/-- The step function cut down to the steps a guard admits. -/
def guarded (step : σ → ℓ → Option σ) (ok : σ → ℓ → Prop) [∀ s l, Decidable (ok s l)] (s : σ)
    (l : ℓ) : Option σ :=
  if ok s l then step s l else none

theorem Steps.of_guarded [∀ s l, Decidable (ok s l)]
    (h : Steps (guarded step ok) always s ls s') : Steps step ok s ls s' := by
  induction h with
  | nil => exact .nil
  | cons _ hstep _ ih =>
    unfold guarded at hstep
    split at hstep
    · exact .cons ‹_› hstep ih
    · cases hstep

end

end Lib
