import Aerion.Lib.Outcome

/-!
# Machines that read and write

A transducer takes its input item by item, keeps a state and emits output at
each item, or fails. What it does on a concatenation is what it does on the
parts in turn, so a machine that is fed segments can be compared with the
one that sees the whole stream.
-/

namespace Lib

open Outcome

variable {σ β γ : Type}

/-- The state and the output after a list of items. -/
def transduce (step : σ → β → Outcome (σ × List γ)) : List β → σ → Outcome (σ × List γ)
  | [], s => .ok (s, [])
  | b :: bs, s => do
    let first ← step s b
    let rest ← transduce step bs first.1
    return (rest.1, first.2 ++ rest.2)

section

variable {step : σ → β → Outcome (σ × List γ)}

theorem transduce_cons_ok {b : β} {bs : List β} {s s' : σ} {out : List γ} :
    transduce step (b :: bs) s = .ok (s', out) ↔
      ∃ mid o₁ o₂, step s b = .ok (mid, o₁) ∧ transduce step bs mid = .ok (s', o₂) ∧ out = o₁ ++ o₂ := by
  simp only [transduce, bind_ok, pure_eq, Outcome.ok.injEq, Prod.mk.injEq]
  constructor
  · rintro ⟨⟨mid, o₁⟩, hstep, ⟨s'', o₂⟩, hrest, rfl, rfl⟩
    exact ⟨mid, o₁, o₂, hstep, hrest, rfl⟩
  · rintro ⟨mid, o₁, o₂, hstep, hrest, rfl⟩
    exact ⟨(mid, o₁), hstep, (s', o₂), hrest, rfl, rfl⟩

theorem transduce_singleton {b : β} {s s' : σ} {out : List γ} (h : step s b = .ok (s', out)) :
    transduce step [b] s = .ok (s', out) :=
  transduce_cons_ok.mpr ⟨s', out, [], h, rfl, (List.append_nil out).symm⟩

theorem transduce_append_ok {as bs : List β} {s mid s' : σ} {o₁ o₂ : List γ}
    (h₁ : transduce step as s = .ok (mid, o₁)) (h₂ : transduce step bs mid = .ok (s', o₂)) :
    transduce step (as ++ bs) s = .ok (s', o₁ ++ o₂) := by
  induction as generalizing s o₁ with
  | nil =>
    cases h₁
    exact h₂
  | cons a as ih =>
    obtain ⟨mid', p₁, p₂, hstep, hrest, rfl⟩ := transduce_cons_ok.mp h₁
    rw [List.append_assoc]
    exact transduce_cons_ok.mpr ⟨mid', p₁, p₂ ++ o₂, hstep, ih hrest, rfl⟩

theorem transduce_append_split {as bs : List β} {s s' : σ} {out : List γ}
    (h : transduce step (as ++ bs) s = .ok (s', out)) :
    ∃ mid o₁ o₂, transduce step as s = .ok (mid, o₁) ∧ transduce step bs mid = .ok (s', o₂) ∧
      out = o₁ ++ o₂ := by
  induction as generalizing s out with
  | nil => exact ⟨s, [], out, rfl, h, rfl⟩
  | cons a as ih =>
    obtain ⟨mid', p₁, p₂, hstep, hrest, rfl⟩ := transduce_cons_ok.mp h
    obtain ⟨mid, q₁, q₂, hfirst, hsecond, rfl⟩ := ih hrest
    exact ⟨mid, p₁ ++ q₁, q₂, transduce_cons_ok.mpr ⟨mid', p₁, q₁, hstep, hfirst, rfl⟩, hsecond,
      (List.append_assoc _ _ _).symm⟩

theorem transduce_invariant (I : σ → Prop) (hI : ∀ s b s' o, I s → step s b = .ok (s', o) → I s')
    {bs : List β} {s s' : σ} {out : List γ} (hs : I s) (h : transduce step bs s = .ok (s', out)) :
    I s' := by
  induction bs generalizing s out with
  | nil =>
    cases h
    exact hs
  | cons b bs ih =>
    obtain ⟨mid, o₁, o₂, hstep, hrest, rfl⟩ := transduce_cons_ok.mp h
    exact ih (hI s b mid o₁ hs hstep) hrest

/-- A machine that is fed segments, and agrees with the one fed items where the invariant holds,
does on any segments of a stream what the other does on the stream. -/
theorem transduce_segments (I : σ → Prop) (hI : ∀ s b s' o, I s → step s b = .ok (s', o) → I s')
    {feed : σ → List β → Outcome (σ × List γ)} (hfeed : ∀ s bs, I s → feed s bs = transduce step bs s)
    {segments : List (List β)} {s s' : σ} {out : List γ} (hs : I s)
    (h : transduce step segments.flatten s = .ok (s', out)) :
    transduce feed segments s = .ok (s', out) := by
  induction segments generalizing s out with
  | nil => exact h
  | cons segment segments ih =>
    obtain ⟨mid, o₁, o₂, hfirst, hrest, rfl⟩ := transduce_append_split h
    have hmid : I mid := transduce_invariant I hI hs hfirst
    exact transduce_cons_ok.mpr ⟨mid, o₁, o₂, (hfeed s segment hs).trans hfirst, ih hmid hrest, rfl⟩

/-- A machine that puts out one item at most for each it takes, and never panics, does so on a whole
stream. -/
theorem transduce_meets (I : σ → Prop) (hI : ∀ s b, I s → (step s b).Meets fun r => I r.1 ∧ r.2.length ≤ 1)
    {bs : List β} {s : σ} (hs : I s) :
    (transduce step bs s).Meets fun r => I r.1 ∧ r.2.length ≤ bs.length := by
  induction bs generalizing s with
  | nil => exact .ok ⟨hs, Nat.le_refl 0⟩
  | cons b bs ih =>
    refine (hI s b hs).bind fun r hr => (ih hr.1).bind fun q hq => .ok ⟨hq.1, ?_⟩
    simp only [List.length_append, List.length_cons]
    omega

end

end Lib
