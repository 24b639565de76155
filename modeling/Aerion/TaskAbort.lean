import Aerion.Lib.Steps
import Mathlib.Data.Nat.Notation
import Mathlib.Logic.Function.Basic

/-!
# Cancellation without lost wake-ups

`src/task_abort.rs`, the signal behind every cancellation of the program.
`trigger` sets the flag and then wakes the tasks that wait; `cancelled` makes
its future first, then reads the flag and then waits. A `Notified` of the
runtime counts the calls of `notify_waiters`: one that was made before a call
is woken by it, also if it is polled for the first time afterwards.
-/

namespace Aerion.TaskAbort

open Lib

/-- Where a call of `cancelled` stands; `seen` is the count when its future was made. -/
inductive Waiter where
  | made (seen : ℕ)
  | unset (seen : ℕ)
  | registered
  | woken
  | returned
  deriving DecidableEq

structure State where
  done : Bool
  /-- A `trigger` has set the flag and has not woken the waiters. -/
  notifying : Bool
  calls : ℕ
  waiters : ℕ → Option Waiter

def State.new : State := ⟨false, false, 0, fun _ => none⟩

inductive Event where
  | make (id : ℕ)
  | advance (id : ℕ)
  | swap
  | notify

def wake : Waiter → Waiter
  | .registered => .woken
  | w => w

/-- The next statement of a call of `cancelled`, if it has one. -/
def State.next (s : State) : Waiter → Option Waiter
  | .made seen => some (if s.done then .returned else .unset seen)
  | .unset seen => some (if s.calls ≠ seen then .returned else .registered)
  | .woken => some .returned
  | .registered | .returned => none

def step (s : State) : Event → Option State
  | .make id =>
    if s.waiters id = none then some { s with waiters := Function.update s.waiters id (some (.made s.calls)) }
    else none
  | .advance id =>
    ((s.waiters id).bind s.next).map fun w => { s with waiters := Function.update s.waiters id (some w) }
  | .swap => some (if s.done then s else { s with done := true, notifying := true })
  | .notify =>
    if s.notifying then
      some { s with notifying := false, calls := s.calls + 1, waiters := fun id => (s.waiters id).map wake }
    else none

/-- What a waiter may be while the flag and the count are as they are. -/
def State.Admits (s : State) : Waiter → Prop
  | .made seen => seen ≤ s.calls
  | .unset seen => seen = 0
  | .registered => s.calls = 0
  | .woken | .returned => s.done = true

structure Sound (s : State) : Prop where
  waiters : ∀ id w, s.waiters id = some w → s.Admits w
  unset : s.done = false → s.notifying = false
  calls : s.calls = if s.done = true ∧ s.notifying = false then 1 else 0

theorem Sound.update {s : State} (h : Sound s) {id : ℕ} {w : Waiter} (hw : s.Admits w) :
    Sound { s with waiters := Function.update s.waiters id (some w) } := by
  refine ⟨fun id' w' hw' => ?_, h.unset, h.calls⟩
  simp only [Function.update_apply] at hw'
  split at hw'
  · cases hw'
    exact hw
  · exact h.waiters id' w' hw'

theorem Sound.next {s : State} (h : Sound s) {w w' : Waiter} (hw : s.Admits w) (hnext : s.next w = some w') :
    s.Admits w' := by
  have hcalls := h.calls
  cases w with
  | made seen =>
    cases hdone : s.done with
    | true =>
      simp only [State.next, hdone, if_true, Option.some.injEq] at hnext
      exact hnext ▸ hdone
    | false =>
      simp only [State.next, hdone, Bool.false_eq_true, if_false, Option.some.injEq] at hnext
      simp only [hdone, Bool.false_eq_true, false_and, if_false] at hcalls
      subst hnext
      exact Nat.le_zero.mp (hcalls ▸ hw)
  | unset seen =>
    obtain rfl : seen = 0 := hw
    simp only [State.next, Option.some.injEq] at hnext
    subst hnext
    split
    · -- the count is one once the waiters were woken, and never before
      rename_i hseen
      rw [hcalls] at hseen
      exact (ite_ne_right_iff.mp hseen).1.1
    · exact not_not.mp ‹_›
  | woken =>
    cases hnext
    exact hw
  | registered | returned => cases hnext

theorem Sound.step {s s' : State} {e : Event} (h : Sound s) (hs : step s e = some s') : Sound s' := by
  have hcalls := h.calls
  cases e with
  | make id =>
    obtain ⟨-, hs⟩ := Option.ite_none_right_eq_some.mp hs
    cases hs
    exact h.update (Nat.le_refl s.calls)
  | advance id =>
    obtain ⟨w', hw', rfl⟩ := Option.map_eq_some_iff.mp hs
    obtain ⟨w, hw, hnext⟩ := Option.bind_eq_some_iff.mp hw'
    exact h.update (h.next (h.waiters id w hw) hnext)
  | swap =>
    simp only [TaskAbort.step, Option.some.injEq] at hs
    subst hs
    split
    · exact h
    · rename_i hdone
      rw [if_neg fun hboth => hdone hboth.1] at hcalls
      refine ⟨fun id w hw => ?_, fun h => (by cases h), hcalls⟩
      have hadmits := h.waiters id w hw
      cases w with
      | woken | returned => rfl
      | _ => exact hadmits
  | notify =>
    obtain ⟨hnotifying, hs⟩ := Option.ite_none_right_eq_some.mp hs
    cases hs
    have hdone : s.done = true := by
      by_contra hdone
      rw [h.unset (Bool.eq_false_iff.mpr hdone)] at hnotifying
      cases hnotifying
    simp only [hdone, hnotifying, Bool.true_eq_false, and_false, if_false] at hcalls
    refine ⟨fun id w' hw' => ?_, fun _ => rfl, by simp [hdone, hcalls]⟩
    obtain ⟨w, hw, rfl⟩ := Option.map_eq_some_iff.mp hw'
    have hadmits := h.waiters id w hw
    cases w with
    | made seen => exact Nat.le_succ_of_le hadmits
    | unset seen => exact hadmits
    | registered | woken | returned => exact hdone

/-- In every interleaving of calls of `cancelled` and `trigger`, none of the former returns before the
flag is set, and once a `trigger` that set it has woken the waiters, each of them has returned or
returns with its next statement, whenever it began. -/
theorem no_lost_wakeup {es : List Event} {s : State} (hrun : Steps step always .new es s) :
    (∀ id, s.waiters id = some .returned → s.done = true) ∧ (s.done = true → s.notifying = false →
      ∀ id w, s.waiters id = some w → w = .returned ∨ s.next w = some .returned) := by
  have h : Sound s := hrun.invariant Sound (fun _ _ _ h _ => h.step) ⟨fun _ _ h => (by cases h), fun _ => rfl, rfl⟩
  refine ⟨fun id hid => h.waiters id _ hid, fun hdone hwoken id w hw => ?_⟩
  have hcalls := h.calls
  rw [if_pos ⟨hdone, hwoken⟩] at hcalls
  have hadmits := h.waiters id w hw
  cases w with
  | made seen => exact .inr (by simp [State.next, hdone])
  | unset seen =>
    obtain rfl : seen = 0 := hadmits
    exact .inr (by simp [State.next, hcalls])
  | registered => exact absurd (hcalls.symm.trans hadmits) Nat.one_ne_zero
  | woken => exact .inr rfl
  | returned => exact .inl rfl

/-- One call begins before the flag is set and registers after that. -/
theorem late_registration_wakes : ∃ s, Steps step always .new [.make 0, .advance 0, .swap, .advance 0, .notify] s ∧
    s.next .woken = some .returned ∧
      ∀ id w, s.waiters id = some w → w = .returned ∨ s.next w = some .returned := by
  have hrun := replay_steps (rfl : replay step .new [.make 0, .advance 0, .swap, .advance 0, .notify] = some _)
  exact ⟨_, hrun, rfl, (no_lost_wakeup hrun).2 rfl rfl⟩

end Aerion.TaskAbort
