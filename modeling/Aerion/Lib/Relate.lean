import Aerion.Lib.Outcome

/-!
# Two implementations of one call

Calls on two kinds of state are related if, on related states, they return the
same value and leave related states, or fail in the same way; the texts of
their errors may differ. Related calls give the same transcript, whatever they
are called with, up to the first call that fails.
-/

namespace Lib

/-- The outcome without the text of its error. -/
def Outcome.blank {α : Type} : Outcome α → Outcome α
  | .err _ => .err ""
  | result => result

/-- The results of calls, up to the first that is not a value. -/
def transcript {σ κ α : Type} (call : κ → Stateful σ α) : List κ → σ → List (Outcome α)
  | [], _ => []
  | k :: ks, s =>
    match call k s with
    | (.ok a, s') => .ok a :: transcript call ks s'
    | (result, _) => [result]

namespace Stateful

variable {σ τ α β : Type} {R : σ → τ → Prop} {x : Stateful σ α} {y : Stateful τ α}

def Relates (R : σ → τ → Prop) (x : Stateful σ α) (y : Stateful τ α) : Prop :=
  ∀ s t, R s t → (x s).1.blank = (y t).1.blank ∧ ∀ a, (x s).1 = .ok a → R (x s).2 (y t).2

/-- Related calls on related states return values, or both fail. -/
theorem Relates.cases (h : Relates R x y) {s : σ} {t : τ} (hst : R s t) :
    (∃ a s' t', x s = (.ok a, s') ∧ y t = (.ok a, t') ∧ R s' t') ∨
      (∀ a, (x s).1 ≠ .ok a) ∧ (∀ a, (y t).1 ≠ .ok a) ∧ (x s).1.blank = (y t).1.blank := by
  obtain ⟨hsame, hrelated⟩ := h s t hst
  cases hx : x s with
  | mk result s' =>
    cases hy : y t with
    | mk result' t' =>
      rw [hx, hy] at hsame hrelated
      cases result <;> cases result' <;> cases hsame
      · exact .inl ⟨_, s', t', rfl, rfl, hrelated _ rfl⟩
      · exact .inr ⟨nofun, nofun, rfl⟩
      · exact .inr ⟨nofun, nofun, rfl⟩

theorem Relates.pure (a : α) : Relates R (Pure.pure a : Stateful σ α) (Pure.pure a : Stateful τ α) :=
  fun _ _ h => ⟨rfl, fun _ _ => h⟩

theorem Relates.lift (result : Outcome α) :
    Relates R (liftM result : Stateful σ α) (liftM result : Stateful τ α) :=
  fun _ _ h => ⟨rfl, fun _ _ => h⟩

theorem Relates.bind {f : α → Stateful σ β} {g : α → Stateful τ β} (h : Relates R x y)
    (hf : ∀ a, Relates R (f a) (g a)) : Relates R (x >>= f) (y >>= g) := by
  intro s t hst
  show (Stateful.bind x f s).1.blank = (Stateful.bind y g t).1.blank ∧
    ∀ b, (Stateful.bind x f s).1 = .ok b → R (Stateful.bind x f s).2 (Stateful.bind y g t).2
  unfold Stateful.bind
  rcases h.cases hst with ⟨a, s', t', hx, hy, hrelated⟩ | ⟨hx, hy, hsame⟩
  · rw [hx, hy]
    exact hf a s' t' hrelated
  · generalize x s = left at hx hsame ⊢
    generalize y t = right at hy hsame ⊢
    obtain ⟨result, s'⟩ := left
    obtain ⟨result', t'⟩ := right
    cases result <;> cases result' <;> cases hsame
    · exact absurd rfl (hx _)
    · exact ⟨rfl, nofun⟩
    · exact ⟨rfl, nofun⟩

theorem Relates.get_bind {f : σ → Stateful σ α} {g : τ → Stateful τ α} (h : ∀ s t, R s t → Relates R (f s) (g t)) :
    Relates R (Stateful.get >>= f) (Stateful.get >>= g) := fun s t hst => h s t hst s t hst

theorem Relates.update {f : σ → σ} {g : τ → τ} (h : ∀ s t, R s t → R (f s) (g t)) :
    Relates R (Stateful.update fun s => .ok (f s)) (Stateful.update fun t => .ok (g t)) :=
  fun s t hst => ⟨rfl, fun _ _ => h s t hst⟩

theorem Relates.zoom {σ' τ' : Type} {R' : σ' → τ' → Prop} {view : σ' → σ} {put : σ → σ' → σ'} {view' : τ' → τ}
    {put' : τ → τ' → τ'} (h : Relates R x y) (hview : ∀ s t, R' s t → R (view s) (view' t))
    (hput : ∀ s t s' t', R' s t → R s' t' → R' (put s' s) (put' t' t)) :
    Relates R' (Stateful.zoom view put x) (Stateful.zoom view' put' y) := by
  intro s t hst
  obtain ⟨hsame, hrelated⟩ := h _ _ (hview s t hst)
  exact ⟨hsame, fun a ha => hput s t _ _ hst (hrelated a ha)⟩

theorem Relates.transcript {κ : Type} {call : κ → Stateful σ α} {call' : κ → Stateful τ α}
    (h : ∀ k, Relates R (call k) (call' k)) (ks : List κ) {s : σ} {t : τ} (hst : R s t) :
    (transcript call ks s).map Outcome.blank = (Lib.transcript call' ks t).map Outcome.blank := by
  induction ks generalizing s t with
  | nil => rfl
  | cons k ks ih =>
    rw [Lib.transcript, Lib.transcript]
    rcases (h k).cases hst with ⟨a, s', t', hx, hy, hrelated⟩ | ⟨hx, hy, hsame⟩
    · rw [hx, hy, List.map_cons, List.map_cons, ih hrelated]
    · generalize call k s = left at hx hsame ⊢
      generalize call' k t = right at hy hsame ⊢
      obtain ⟨result, s'⟩ := left
      obtain ⟨result', t'⟩ := right
      cases result <;> cases result' <;> cases hsame
      · exact absurd rfl (hx _)
      · rfl
      · rfl

end Stateful

end Lib
