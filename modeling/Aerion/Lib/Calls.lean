import Aerion.Lib.Outcome

/-!
# Calls on a state, step by step

A call that returns hands its value and its state on; one that fails keeps
the state it has reached. `Triple` is the rule of pre- and postconditions for
both ends of a call.
-/

namespace Lib.Stateful

variable {σ α β : Type} {x : Stateful σ α} {f : α → Stateful σ β} {s s' : σ} {a : α}

theorem run_bind (h : x s = (.ok a, s')) : (x >>= f) s = f a s' := by
  show Stateful.bind x f s = f a s'
  unfold Stateful.bind
  rw [h]

theorem run_bind_err {e : String} (h : x s = (.err e, s')) : (x >>= f) s = (.err e, s') := by
  show Stateful.bind x f s = _
  unfold Stateful.bind
  rw [h]

theorem run_bind_fail (h : ∀ a, (x s).1 ≠ .ok a) :
    ((x >>= f) s).2 = (x s).2 ∧ ∀ b, ((x >>= f) s).1 ≠ .ok b := by
  show (Stateful.bind x f s).2 = (x s).2 ∧ ∀ b, (Stateful.bind x f s).1 ≠ .ok b
  unfold Stateful.bind
  cases hx : x s with
  | mk result s' =>
    rw [hx] at h
    cases result with
    | ok a => exact absurd rfl (h a)
    | err e => exact ⟨rfl, nofun⟩
    | panic => exact ⟨rfl, nofun⟩

theorem run_lift_bind {y : Outcome α} (h : y = .ok a) (s : σ) :
    ((liftM y : Stateful σ α) >>= f) s = f a s := by
  rw [h]
  rfl

/-- From a state with `P`, a call that returns `a` leaves a state with `Q a`, and a call that fails
one with `E`. -/
def Triple (P : σ → Prop) (x : Stateful σ α) (Q : α → σ → Prop) (E : σ → Prop) : Prop :=
  ∀ s, P s → (∀ a, (x s).1 = .ok a → Q a (x s).2) ∧ ((∀ a, (x s).1 ≠ .ok a) → E (x s).2)

section

variable {P P' : σ → Prop} {Q Q' : α → σ → Prop} {R : β → σ → Prop} {E E' : σ → Prop}

theorem Triple.mono (h : Triple P x Q E) (hP : ∀ s, P' s → P s) (hQ : ∀ a s, Q a s → Q' a s)
    (hE : ∀ s, E s → E' s) : Triple P' x Q' E' := fun s hs =>
  ⟨fun a ha => hQ a _ ((h s (hP s hs)).1 a ha), fun hfail => hE _ ((h s (hP s hs)).2 hfail)⟩

theorem Triple.bind (hx : Triple P x Q E) (hf : ∀ a, Triple (Q a) (f a) R E) : Triple P (x >>= f) R E := by
  intro s hs
  have hx := hx s hs
  show (∀ b, (Stateful.bind x f s).1 = .ok b → R b (Stateful.bind x f s).2) ∧
    ((∀ b, (Stateful.bind x f s).1 ≠ .ok b) → E (Stateful.bind x f s).2)
  unfold Stateful.bind
  cases h : x s with
  | mk result s' =>
    rw [h] at hx
    cases result with
    | ok a => exact hf a s' (hx.1 a rfl)
    | err e => exact ⟨nofun, fun _ => hx.2 nofun⟩
    | panic => exact ⟨nofun, fun _ => hx.2 nofun⟩

theorem Triple.of_and {c : Prop} (h : c → Triple P x Q E) : Triple (fun s => P s ∧ c) x Q E :=
  fun s hs => h hs.2 s hs.1

theorem Triple.of_keeps (h : Keeps P x) : Triple P x (fun _ => P) P := fun s hs =>
  ⟨fun _ _ => h s hs, fun _ => h s hs⟩

/-- What a call on a part of the state keeps of the part is kept of the whole. -/
theorem Keeps.zoom_part {τ : Type} {J : τ → Prop} {view : σ → τ} {put : τ → σ → σ} {y : Stateful τ α}
    (hy : Keeps J y) (hview : ∀ s, P s → J (view s)) (hput : ∀ s t, P s → J t → P (put t s)) :
    Keeps P (Stateful.zoom view put y) := fun s hs => hput s _ hs (hy _ (hview s hs))

end

end Lib.Stateful
