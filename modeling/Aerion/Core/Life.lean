import Mathlib.Tactic.Common

/-!
# The life of a session id

An abstract account of one session id, without users, maps or tasks: how
often it is registered, how many calls still hold it and in which stage, and
the lifecycle events sent for it (`story`). `LifeStep` is every way this
account can change.
-/

namespace Aerion.Core

inductive LifeEvent where
  | opened
  | closed
  | cancelled
  deriving DecidableEq, Repr

@[ext] structure Life where
  story : List LifeEvent
  /-- user states that have the session registered -/
  registered : Nat
  /-- cancel notices not yet sent -/
  notices : Nat
  /-- opens that have drawn the id and not yet inserted it -/
  drawn : Nat
  handles : Nat
  /-- drops under way -/
  closing : Nat
  /-- cancel flags not yet set -/
  triggers : Nat
  flag : Bool
  deriving DecidableEq, Repr

namespace Life

def unused : Life := ⟨[], 0, 0, 0, 0, 0, 0, false⟩

end Life

inductive LifeStep : Life → Life → Prop
  | stay : LifeStep v v
  | draw : LifeStep .unused { Life.unused with drawn := 1 }
  | refuse : v.drawn = n + 1 → LifeStep v { v with drawn := n }
  | insert : v.drawn = n + 1 → LifeStep v { v with
      drawn := n, handles := v.handles + 1, registered := v.registered + 1
      story := v.story ++ [.opened] }
  | drop : v.handles = n + 1 → LifeStep v { v with handles := n, closing := v.closing + 1 }
  | close : v.closing = n + 1 → v.registered = m + 1 → LifeStep v { v with
      closing := n, registered := m, story := v.story ++ [.closed] }
  | closeGone : v.closing = n + 1 → v.registered = 0 → LifeStep v { v with closing := n }
  | take : v.registered = n + 1 → LifeStep v { v with registered := n, notices := v.notices + 1 }
  | notify : v.notices = n + 1 → LifeStep v { v with
      notices := n, triggers := v.triggers + 1, story := v.story ++ [.cancelled] }
  | trigger : v.triggers = n + 1 → LifeStep v { v with triggers := n, flag := true }

namespace Life

/-- Opened and then ended by one of two events. -/
def Ended (v : Life) (e : LifeEvent) : Prop :=
  v.story = [.opened, e] ∧ v.drawn = 0 ∧ v.registered = 0 ∧ v.notices = 0

structure Unopened (v : Life) : Prop where
  story : v.story = []
  registered : v.registered = 0
  notices : v.notices = 0
  handles : v.handles = 0
  closing : v.closing = 0
  triggers : v.triggers = 0
  flag : v.flag = false

structure Open (v : Life) : Prop where
  story : v.story = [.opened]
  drawn : v.drawn = 0
  once : v.registered + v.notices = 1
  held : v.registered ≤ v.handles + v.closing
  triggers : v.triggers = 0
  flag : v.flag = false

structure Ok (v : Life) : Prop where
  one : v.drawn + v.handles + v.closing ≤ 1
  stage : v.Unopened ∨ v.Open ∨ v.Ended .cancelled ∨
    v.Ended .closed ∧ v.triggers = 0 ∧ v.flag = false

theorem ok_unused : Life.unused.Ok := ⟨by decide, .inl ⟨rfl, rfl, rfl, rfl, rfl, rfl, rfl⟩⟩

theorem Ok.step {v v' : Life} (hv : v.Ok) (h : LifeStep v v') : v'.Ok := by
  have hone := hv.one
  cases h with
  | stay => exact hv
  | draw => exact ⟨by decide, .inl ⟨rfl, rfl, rfl, rfl, rfl, rfl, rfl⟩⟩
  | refuse hd =>
    refine ⟨by dsimp only; omega, ?_⟩
    rcases hv.stage with hs | hs | hs | ⟨hs, -⟩
    · exact .inl ⟨hs.story, hs.registered, hs.notices, hs.handles, hs.closing, hs.triggers, hs.flag⟩
    · have := hs.drawn; omega
    · have := hs.2.1; omega
    · have := hs.2.1; omega
  | insert hd =>
    refine ⟨by dsimp only; omega, ?_⟩
    rcases hv.stage with hs | hs | hs | ⟨hs, -⟩
    · refine .inr (.inl ⟨by simp [hs.story], ?_, ?_, ?_, hs.triggers, hs.flag⟩)
      · dsimp only; omega
      · simp [hs.registered, hs.notices]
      · simp only [hs.registered]
        omega
    · have := hs.drawn; omega
    · have := hs.2.1; omega
    · have := hs.2.1; omega
  | drop hh =>
    refine ⟨by dsimp only; omega, ?_⟩
    rcases hv.stage with hs | hs | hs | hs
    · have := hs.handles; omega
    · have := hs.held
      exact .inr (.inl ⟨hs.story, hs.drawn, hs.once, by dsimp only; omega, hs.triggers, hs.flag⟩)
    · exact .inr (.inr (.inl hs))
    · exact .inr (.inr (.inr hs))
  | close hc hr =>
    refine ⟨by dsimp only; omega, ?_⟩
    rcases hv.stage with hs | hs | hs | ⟨hs, -⟩
    · have := hs.registered; omega
    · have := hs.once
      refine .inr (.inr (.inr ⟨⟨by simp [hs.story], hs.drawn, ?_, ?_⟩, hs.triggers, hs.flag⟩))
      · dsimp only; omega
      · dsimp only; omega
    · have := hs.2.2.1; omega
    · have := hs.2.2.1; omega
  | closeGone hc hr =>
    refine ⟨by dsimp only; omega, ?_⟩
    rcases hv.stage with hs | hs | hs | hs
    · have := hs.closing; omega
    · exact .inr (.inl ⟨hs.story, hs.drawn, hs.once, by dsimp only; omega, hs.triggers, hs.flag⟩)
    · exact .inr (.inr (.inl hs))
    · exact .inr (.inr (.inr hs))
  | take hr =>
    refine ⟨hone, ?_⟩
    rcases hv.stage with hs | hs | hs | ⟨hs, -⟩
    · have := hs.registered; omega
    · have := hs.once
      have := hs.held
      refine .inr (.inl ⟨hs.story, hs.drawn, ?_, ?_, hs.triggers, hs.flag⟩)
      · dsimp only; omega
      · dsimp only; omega
    · have := hs.2.2.1; omega
    · have := hs.2.2.1; omega
  | notify hn =>
    refine ⟨hone, ?_⟩
    rcases hv.stage with hs | hs | hs | ⟨hs, -⟩
    · have := hs.notices; omega
    · have := hs.once
      refine .inr (.inr (.inl ⟨by simp [hs.story], hs.drawn, ?_, ?_⟩))
      · dsimp only; omega
      · dsimp only; omega
    · have := hs.2.2.2; omega
    · have := hs.2.2.2; omega
  | trigger ht =>
    refine ⟨hone, ?_⟩
    rcases hv.stage with hs | hs | hs | ⟨-, hs, -⟩
    · have := hs.triggers; omega
    · have := hs.triggers; omega
    · exact .inr (.inr (.inl hs))
    · omega

theorem step_unused {v : Life} (h : LifeStep .unused v) :
    v = .unused ∨ v = { Life.unused with drawn := 1 } := by
  cases h with
  | stay => exact .inl rfl
  | draw => exact .inr rfl
  | _ => contradiction

theorem Ok.released {v v' : Life} (hv : v.Ok) (h : LifeStep v v') (hs : v.story ≠ [])
    (hh : v.handles = 0) : v'.story ≠ [] ∧ v'.handles = 0 ∧ v'.closing ≤ v.closing := by
  have hd : v.drawn = 0 := by
    rcases hv.stage with hs' | hs' | hs' | ⟨hs', -⟩
    · exact absurd hs'.story hs
    · exact hs'.drawn
    · exact hs'.2.1
    · exact hs'.2.1
  cases h with
  | draw => exact absurd rfl hs
  | refuse h | insert h => omega
  | drop h => omega
  | close | closeGone => exact ⟨by simp [hs], hh, by dsimp only; omega⟩
  | _ => exact ⟨by simp [hs], hh, Nat.le_refl _⟩

end Life

end Aerion.Core
