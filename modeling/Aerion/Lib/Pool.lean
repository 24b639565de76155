import Mathlib.Algebra.Order.BigOperators.Group.List
import Mathlib.Algebra.Order.Ring.Nat
import Mathlib.Data.List.Perm.Basic
import Aerion.Lib.Steps

/-!
# Calls that run side by side

A `Machine` describes calls that share a state. Each call in progress is a
`Task`: the atomic actions it has yet to take, as a list of batches. The
actions of a batch are taken one after another in any order, which is how a
loop over a hash map runs; a singleton batch is an ordinary next action. An
action changes the shared state, may put further actions in front of the task
and may give the reply of the call. A task that waits (`awaits`) can be
abandoned by its caller.
-/

namespace Lib

/-- What one action does. -/
structure Effect (σ α ρ : Type) where
  shared : σ
  todo : List (List α)
  reply : Option ρ

structure Machine (σ κ α ρ : Type) where
  start : σ → κ → Option (σ × List (List α))
  exec : σ → κ → α → Effect σ α ρ
  awaits : α → Bool

structure Task (κ α ρ : Type) where
  call : κ
  todo : List (List α)
  reply : Option ρ

def Task.pending {κ α ρ : Type} (t : Task κ α ρ) : List α := t.todo.flatten

structure Pool (σ κ α ρ : Type) where
  shared : σ
  tasks : List (Task κ α ρ)

inductive Move (κ : Type) where
  | call (c : κ)
  | run (task item : Nat)
  | abandon (task : Nat)
  deriving DecidableEq, Repr

/-- The action at place `k` of the first batch that has any, and what is left. -/
def pick {α : Type} : List (List α) → Nat → Option (α × List (List α))
  | [], _ => none
  | [] :: rest, k => pick rest k
  | (a :: as) :: rest, k => ((a :: as)[k]?).map fun x => (x, (a :: as).eraseIdx k :: rest)

section
variable {σ κ α ρ : Type}

/-- The task after one of its actions had the effect `e`. -/
def Task.after (t : Task κ α ρ) (e : Effect σ α ρ) (rest : List (List α)) : Task κ α ρ :=
  ⟨t.call, e.todo ++ rest, t.reply.or e.reply⟩

def Machine.step (m : Machine σ κ α ρ) (s : Pool σ κ α ρ) : Move κ → Option (Pool σ κ α ρ)
  | .call c => (m.start s.shared c).map fun r => ⟨r.1, s.tasks ++ [⟨c, r.2, none⟩]⟩
  | .run i k => do
    let t ← s.tasks[i]?
    let (a, rest) ← pick t.todo k
    let e := m.exec s.shared t.call a
    some ⟨e.shared, s.tasks.set i (t.after e rest)⟩
  | .abandon i => do
    let t ← s.tasks[i]?
    match t.todo with
    | [[a]] => if m.awaits a then some ⟨s.shared, s.tasks.set i { t with todo := [] }⟩ else none
    | _ => none

/-- The action a move takes, with the call it belongs to. -/
def Pool.taken (s : Pool σ κ α ρ) : Move κ → Option (κ × α)
  | .run i k => do
    let t ← s.tasks[i]?
    let (a, _) ← pick t.todo k
    some (t.call, a)
  | _ => none

theorem pick_perm {todo rest : List (List α)} {k : Nat} {a : α} (h : pick todo k = some (a, rest)) :
    todo.flatten.Perm (a :: rest.flatten) := by
  induction todo with
  | nil => cases h
  | cons batch batches ih =>
    cases batch with
    | nil => exact ih h
    | cons b bs =>
      obtain ⟨x, hx, heq⟩ := Option.map_eq_some_iff.mp h
      cases heq
      obtain ⟨hk, rfl⟩ := List.getElem?_eq_some_iff.mp hx
      rw [List.flatten_cons, List.flatten_cons, ← List.cons_append]
      exact (List.getElem_cons_eraseIdx_perm hk).symm.append_right _

theorem pick_alone {todo rest : List (List α)} {k : Nat} {a b : α} (hb : todo.flatten = [b])
    (h : pick todo k = some (a, rest)) : a = b ∧ rest.flatten = [] := by
  have hperm := pick_perm h
  rw [hb] at hperm
  have := List.singleton_perm.mp hperm
  simp only [List.cons.injEq] at this
  exact ⟨this.1.symm, this.2.symm⟩

/-- The actions of an earlier batch come first. -/
theorem pick_append {pre tail rest : List (List α)} {k : Nat} {a : α}
    (h : pick (pre ++ tail) k = some (a, rest)) :
    (∃ pre', rest = pre' ++ tail ∧ pre.flatten.Perm (a :: pre'.flatten)) ∨
      (pre.flatten = [] ∧ pick tail k = some (a, rest)) := by
  induction pre with
  | nil => exact .inr ⟨rfl, h⟩
  | cons batch batches ih =>
    cases batch with
    | nil => exact ih h
    | cons b bs =>
      have hp : pick ((b :: bs) :: batches) k = some (a, (b :: bs).eraseIdx k :: batches) := by
        obtain ⟨x, hx, heq⟩ := Option.map_eq_some_iff.mp h
        cases heq
        exact Option.map_eq_some_iff.mpr ⟨a, hx, rfl⟩
      obtain ⟨x, hx, heq⟩ := Option.map_eq_some_iff.mp h
      cases heq
      exact .inl ⟨(b :: bs).eraseIdx k :: batches, rfl, pick_perm hp⟩

theorem pick_singleton {tail rest : List (List α)} {k : Nat} {a b : α}
    (h : pick ([a] :: tail) k = some (b, rest)) : b = a ∧ rest = [] :: tail := by
  obtain ⟨x, hx, heq⟩ := Option.map_eq_some_iff.mp h
  cases k with
  | zero =>
    cases hx
    cases heq
    exact ⟨rfl, rfl⟩
  | succ k => simp at hx

theorem Machine.step_cases {m : Machine σ κ α ρ} {s s' : Pool σ κ α ρ} {l : Move κ}
    (h : m.step s l = some s') :
    (∃ c w todo, l = .call c ∧ m.start s.shared c = some (w, todo) ∧
      s' = ⟨w, s.tasks ++ [⟨c, todo, none⟩]⟩) ∨
    (∃ i k t a rest, l = .run i k ∧ s.tasks[i]? = some t ∧ pick t.todo k = some (a, rest) ∧
      s' = ⟨(m.exec s.shared t.call a).shared,
        s.tasks.set i (t.after (m.exec s.shared t.call a) rest)⟩) ∨
    (∃ i t a, l = .abandon i ∧ s.tasks[i]? = some t ∧ t.todo = [[a]] ∧ m.awaits a = true ∧
      s' = ⟨s.shared, s.tasks.set i { t with todo := [] }⟩) := by
  cases l with
  | call c =>
    obtain ⟨⟨w, todo⟩, hs, rfl⟩ := Option.map_eq_some_iff.mp h
    exact .inl ⟨c, w, todo, rfl, hs, rfl⟩
  | run i k =>
    obtain ⟨t, ht, h⟩ := Option.bind_eq_some_iff.mp h
    obtain ⟨⟨a, rest⟩, hp, h⟩ := Option.bind_eq_some_iff.mp h
    cases h
    exact .inr (.inl ⟨i, k, t, a, rest, rfl, ht, hp, rfl⟩)
  | abandon i =>
    obtain ⟨t, ht, h⟩ := Option.bind_eq_some_iff.mp h
    split at h
    · rename_i a htodo
      split at h
      · rename_i haw
        cases h
        exact .inr (.inr ⟨i, t, a, rfl, ht, htodo, haw, rfl⟩)
      · cases h
    · cases h

/-! ### The course of one task -/

/-- A step leaves a task alone, takes one of its actions or abandons it. -/
theorem Machine.step_task {m : Machine σ κ α ρ} {s s' : Pool σ κ α ρ} {l : Move κ} {i : Nat}
    {t : Task κ α ρ} (h : m.step s l = some s') (ht : s.tasks[i]? = some t) :
    s'.tasks[i]? = some t ∨
    (∃ k a rest, pick t.todo k = some (a, rest) ∧
      s'.tasks[i]? = some (t.after (m.exec s.shared t.call a) rest)) ∨
    (∃ a, t.todo = [[a]] ∧ m.awaits a = true ∧ s'.tasks[i]? = some { t with todo := [] }) := by
  have hlt := (List.getElem?_eq_some_iff.mp ht).1
  rcases m.step_cases h with ⟨c, w, todo, -, -, rfl⟩ | ⟨j, k, t', a, rest, -, ht', hp, rfl⟩ |
    ⟨j, t', a, -, ht', htodo, haw, rfl⟩
  · left
    dsimp only
    rw [List.getElem?_append_left hlt, ht]
  · by_cases hj : j = i
    · subst hj
      rw [ht] at ht'
      cases ht'
      exact .inr (.inl ⟨k, a, rest, hp, by simp [hlt]⟩)
    · exact .inl (by simp [List.getElem?_set_ne hj, ht])
  · by_cases hj : j = i
    · subst hj
      rw [ht] at ht'
      cases ht'
      exact .inr (.inr ⟨a, htodo, haw, by simp [hlt]⟩)
    · exact .inl (by simp [List.getElem?_set_ne hj, ht])

/-- What holds of every task when it starts and is kept by its actions. -/
structure Machine.Keeps (m : Machine σ κ α ρ) (T : Task κ α ρ → Prop) : Prop where
  start : ∀ w c w' todo, m.start w c = some (w', todo) → T ⟨c, todo, none⟩
  action : ∀ w t k a rest, T t → pick t.todo k = some (a, rest) →
    T (t.after (m.exec w t.call a) rest)
  abandon : ∀ t a, T t → t.todo = [[a]] → m.awaits a = true → T { t with todo := [] }

theorem Machine.Keeps.step {m : Machine σ κ α ρ} {T : Task κ α ρ → Prop} (hT : m.Keeps T)
    {s s' : Pool σ κ α ρ} {l : Move κ} (h : m.step s l = some s') (hs : ∀ t ∈ s.tasks, T t) :
    ∀ t ∈ s'.tasks, T t := by
  intro t' ht'
  rcases m.step_cases h with ⟨c, w, todo, -, hst, rfl⟩ | ⟨j, k, t, a, rest, -, ht, hp, rfl⟩ |
    ⟨j, t, a, -, ht, htodo, haw, rfl⟩
  · rcases List.mem_append.mp ht' with ht' | ht'
    · exact hs t' ht'
    · rw [List.mem_singleton.mp ht']
      exact hT.start _ _ _ _ hst
  · rcases List.mem_or_eq_of_mem_set ht' with ht' | rfl
    · exact hs t' ht'
    · exact hT.action _ _ _ _ _ (hs t (List.mem_of_getElem? ht)) hp
  · rcases List.mem_or_eq_of_mem_set ht' with ht' | rfl
    · exact hs t' ht'
    · exact hT.abandon _ _ (hs t (List.mem_of_getElem? ht)) htodo haw

theorem Machine.Keeps.steps {m : Machine σ κ α ρ} {T : Task κ α ρ → Prop} (hT : m.Keeps T)
    {ok : Pool σ κ α ρ → Move κ → Prop} {s s' : Pool σ κ α ρ} {ls : List (Move κ)}
    (h : Steps m.step ok s ls s') (hs : ∀ t ∈ s.tasks, T t) : ∀ t ∈ s'.tasks, T t :=
  h.invariant (fun s => ∀ t ∈ s.tasks, T t) (fun _ _ _ hs _ hstep => hT.step hstep hs) hs

/-! ### Actions still to come -/

def Pool.Pending (s : Pool σ κ α ρ) (a : α) : Prop := ∃ t ∈ s.tasks, a ∈ t.pending

/-- The sum of a weight over every action still to come. -/
def Pool.owed (s : Pool σ κ α ρ) (f : α → Nat) : Nat :=
  (s.tasks.map fun t => (t.pending.map f).sum).sum

theorem sum_set {xs : List (Task κ α ρ)} {i : Nat} {t : Task κ α ρ} (f : Task κ α ρ → Nat)
    (h : xs[i]? = some t) (t' : Task κ α ρ) : ((xs.set i t').map f).sum + f t = (xs.map f).sum + f t' := by
  induction xs generalizing i with
  | nil => cases h
  | cons x xs ih =>
    cases i with
    | zero =>
      cases h
      simp only [List.set_cons_zero, List.map_cons, List.sum_cons]
      omega
    | succ i =>
      have := ih h
      simp only [List.set_cons_succ, List.map_cons, List.sum_cons]
      omega

theorem sum_modify {β : Type} {xs : List β} {i : Nat} {x : β} (f : β → β) (g : β → Nat)
    (h : xs[i]? = some x) : ((xs.modify i f).map g).sum + g x = (xs.map g).sum + g (f x) := by
  induction xs generalizing i with
  | nil => cases h
  | cons y ys ih =>
    cases i with
    | zero =>
      cases h
      simp only [List.modify_zero_cons, List.map_cons, List.sum_cons]
      omega
    | succ i =>
      have := ih h
      simp only [List.modify_succ_cons, List.map_cons, List.sum_cons]
      omega

theorem Pool.owed_call (s : Pool σ κ α ρ) (f : α → Nat) (w : σ) (c : κ) (todo : List (List α)) :
    Pool.owed ⟨w, s.tasks ++ [⟨c, todo, none⟩]⟩ f = s.owed f + (todo.flatten.map f).sum := by
  simp [Pool.owed, Task.pending]

theorem Pool.owed_run {s : Pool σ κ α ρ} {i k : Nat} {t : Task κ α ρ} {a : α}
    {rest : List (List α)} (f : α → Nat) (ht : s.tasks[i]? = some t)
    (hp : pick t.todo k = some (a, rest)) (w : σ) (e : Effect σ α ρ) :
    Pool.owed ⟨w, s.tasks.set i (t.after e rest)⟩ f + f a =
      s.owed f + (e.todo.flatten.map f).sum := by
  have hset := sum_set (fun t => (t.pending.map f).sum) ht (t.after e rest)
  have hpick : (t.pending.map f).sum = f a + (rest.flatten.map f).sum := by
    have := ((pick_perm hp).map f).sum_eq
    rwa [List.map_cons, List.sum_cons] at this
  have hafter : ((t.after e rest).pending.map f).sum =
      (e.todo.flatten.map f).sum + (rest.flatten.map f).sum := by
    simp [Task.after, Task.pending]
  unfold Pool.owed
  simp only [hafter, hpick] at hset
  dsimp only
  omega

theorem Pool.owed_abandon {s : Pool σ κ α ρ} {i : Nat} {t : Task κ α ρ} {a : α} (f : α → Nat)
    (ht : s.tasks[i]? = some t) (htodo : t.todo = [[a]]) :
    Pool.owed ⟨s.shared, s.tasks.set i { t with todo := [] }⟩ f + f a = s.owed f := by
  have hset := sum_set (fun t => (t.pending.map f).sum) ht { t with todo := [] }
  simp only [Task.pending, htodo, List.flatten_nil, List.map_nil, List.sum_nil, List.flatten_cons,
    List.append_nil, List.map_cons, List.sum_cons, Nat.add_zero] at hset
  exact hset

theorem Pool.le_owed {s : Pool σ κ α ρ} {a : α} (f : α → Nat) (h : s.Pending a) : f a ≤ s.owed f := by
  obtain ⟨t, ht, ha⟩ := h
  exact (List.le_sum_of_mem (List.mem_map_of_mem ha)).trans
    (List.le_sum_of_mem (List.mem_map.mpr ⟨t, ht, rfl⟩))

theorem add_le_sum {β : Type} [DecidableEq β] {xs : List β} {a b : β} (f : β → Nat) (ha : a ∈ xs)
    (hb : b ∈ xs) (hne : a ≠ b) : f a + f b ≤ (xs.map f).sum := by
  have hb' : b ∈ xs.erase a := (List.mem_erase_of_ne (Ne.symm hne)).mpr hb
  have hsum := ((List.perm_cons_erase ha).map f).sum_eq
  rw [List.map_cons, List.sum_cons] at hsum
  have := List.le_sum_of_mem (List.mem_map_of_mem (f := f) hb')
  omega

theorem Pool.owed_eq (s : Pool σ κ α ρ) (f : α → Nat) :
    s.owed f = ((s.tasks.flatMap Task.pending).map f).sum := by
  unfold Pool.owed
  induction s.tasks with
  | nil => rfl
  | cons t ts ih => simp [ih]

theorem Pool.add_le_owed [DecidableEq α] {s : Pool σ κ α ρ} {a b : α} (f : α → Nat)
    (ha : s.Pending a) (hb : s.Pending b) (hne : a ≠ b) : f a + f b ≤ s.owed f := by
  rw [Pool.owed_eq]
  exact add_le_sum f (List.mem_flatMap.mpr ha) (List.mem_flatMap.mpr hb) hne

theorem Pool.exists_of_owed {s : Pool σ κ α ρ} {f : α → Nat} (h : 0 < s.owed f) :
    ∃ a, s.Pending a ∧ 0 < f a := by
  obtain ⟨n, hn, hpos⟩ := List.exists_mem_ne_zero_of_sum_ne_zero (Nat.pos_iff_ne_zero.mp h)
  obtain ⟨t, ht, rfl⟩ := List.mem_map.mp hn
  obtain ⟨n, hn, hpos⟩ := List.exists_mem_ne_zero_of_sum_ne_zero hpos
  obtain ⟨a, ha, rfl⟩ := List.mem_map.mp hn
  exact ⟨a, ⟨t, ht, ha⟩, Nat.pos_of_ne_zero hpos⟩

theorem Pool.pending_taken {s : Pool σ κ α ρ} {i k : Nat} {t : Task κ α ρ} {a : α}
    {rest : List (List α)} (ht : s.tasks[i]? = some t) (hp : pick t.todo k = some (a, rest)) :
    s.Pending a :=
  ⟨t, List.mem_of_getElem? ht, (pick_perm hp).mem_iff.mpr (by simp)⟩

theorem Pool.pending_call {s : Pool σ κ α ρ} {w : σ} {c : κ} {todo : List (List α)} {a : α} :
    Pool.Pending ⟨w, s.tasks ++ [⟨c, todo, none⟩]⟩ a ↔ s.Pending a ∨ a ∈ todo.flatten := by
  simp only [Pool.Pending, List.mem_append, List.mem_singleton]
  constructor
  · rintro ⟨t, ht | rfl, ha⟩
    · exact .inl ⟨t, ht, ha⟩
    · exact .inr ha
  · rintro (⟨t, ht, ha⟩ | ha)
    · exact ⟨t, .inl ht, ha⟩
    · exact ⟨_, .inr rfl, ha⟩

theorem Pool.pending_run {s : Pool σ κ α ρ} {i k : Nat} {t : Task κ α ρ} {a b : α}
    {rest : List (List α)} (ht : s.tasks[i]? = some t) (hp : pick t.todo k = some (a, rest)) {w : σ}
    {e : Effect σ α ρ} (h : Pool.Pending ⟨w, s.tasks.set i (t.after e rest)⟩ b) :
    s.Pending b ∨ b ∈ e.todo.flatten := by
  obtain ⟨t', ht', hb⟩ := h
  rcases List.mem_or_eq_of_mem_set ht' with ht' | rfl
  · exact .inl ⟨t', ht', hb⟩
  · simp only [Task.after, Task.pending, List.flatten_append, List.mem_append] at hb
    rcases hb with hb | hb
    · exact .inr hb
    · exact .inl ⟨t, List.mem_of_getElem? ht, (pick_perm hp).mem_iff.mpr (by simp [hb])⟩

/-- An action other than the one taken stays ahead. -/
theorem Pool.pending_run_of_ne {s : Pool σ κ α ρ} {i k : Nat} {t : Task κ α ρ} {a b : α}
    {rest : List (List α)} (ht : s.tasks[i]? = some t) (hp : pick t.todo k = some (a, rest)) (w : σ)
    (e : Effect σ α ρ) (hb : s.Pending b) (hne : b ≠ a) :
    Pool.Pending ⟨w, s.tasks.set i (t.after e rest)⟩ b := by
  obtain ⟨t', ht', hb⟩ := hb
  obtain ⟨j, hj⟩ := List.mem_iff_getElem?.mp ht'
  by_cases hij : i = j
  · subst hij
    rw [ht] at hj
    cases hj
    have hrest : b ∈ rest.flatten := by
      rcases List.mem_cons.mp ((pick_perm hp).mem_iff.mp hb) with heq | hm
      · exact absurd heq hne
      · exact hm
    have hlt := (List.getElem?_eq_some_iff.mp ht).1
    refine ⟨t.after e rest, List.mem_iff_getElem?.mpr ⟨i, by simp [hlt]⟩, ?_⟩
    simp [Task.after, Task.pending, List.mem_flatten.mp hrest]
  · exact ⟨t', List.mem_iff_getElem?.mpr ⟨j, by simp [List.getElem?_set_ne hij, hj]⟩, hb⟩

theorem Pool.pending_abandon {s : Pool σ κ α ρ} {i : Nat} {t : Task κ α ρ} {b : α}
    (h : Pool.Pending ⟨s.shared, s.tasks.set i { t with todo := [] }⟩ b) : s.Pending b := by
  obtain ⟨t', ht', hb⟩ := h
  rcases List.mem_or_eq_of_mem_set ht' with ht' | rfl
  · exact ⟨t', ht', hb⟩
  · cases hb

theorem Pool.pending_abandon_of_ne {s : Pool σ κ α ρ} {i : Nat} {t : Task κ α ρ} {a b : α}
    (ht : s.tasks[i]? = some t) (htodo : t.todo = [[a]]) (hb : s.Pending b) (hne : b ≠ a) :
    Pool.Pending ⟨s.shared, s.tasks.set i { t with todo := [] }⟩ b := by
  obtain ⟨t', ht', hb⟩ := hb
  obtain ⟨j, hj⟩ := List.mem_iff_getElem?.mp ht'
  by_cases hij : i = j
  · subst hij
    rw [ht] at hj
    cases hj
    rw [Task.pending, htodo] at hb
    exact absurd (List.mem_singleton.mp hb) hne
  · exact ⟨t', List.mem_iff_getElem?.mpr ⟨j, by simp [List.getElem?_set_ne hij, hj]⟩, hb⟩

end

end Lib
