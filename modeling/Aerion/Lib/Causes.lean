import Aerion.Lib.Async

/-!
# Why a write is dropped

A task is dropped by a signal, and a signal is fired by the code of a
function. `ends` names the functions that may fire a signal. Where the
functions of a program keep to it, a frame is cut only if one of those
functions is called and the task that its signal drops is in the middle of a
write.
-/

namespace Lib.Async

variable {σ ε φ ℓ : Type}

/-- The code fires only signals that it may. -/
def Code.Fires (may : σ → Prop) : Code σ ε φ ℓ → Prop
  | .done | .refuse | .goto _ => True
  | .await k => ∀ e, (k e).Fires may
  | .wait _ k | .lock k | .send _ k | .unlock k | .leave k | .spawn _ k => k.Fires may
  | .test _ yes no | .enter _ yes no => yes.Fires may ∧ no.Fires may
  | .claim s won lost => may s ∧ won.Fires may ∧ lost.Fires may
  | .fire s k => may s ∧ k.Fires may

theorem Code.Fires.mono {may may' : σ → Prop} (hmay : ∀ s, may s → may' s) {code : Code σ ε φ ℓ}
    (h : code.Fires may) : code.Fires may' := by
  induction code with
  | done | refuse | goto l => trivial
  | await k ih => exact fun e => ih e (h e)
  | wait s k ih | lock k ih | send frames k ih | unlock k ih | leave k ih | spawn l k ih => exact ih h
  | test s yes no ihyes ihno | enter s yes no ihyes ihno => exact ⟨ihyes h.1, ihno h.2⟩
  | claim s won lost ihwon ihlost => exact ⟨hmay s h.1, ihwon h.2.1, ihlost h.2.2⟩
  | fire s k ih => exact ⟨hmay s h.1, ih h.2⟩

/-- All the code the task may come to before its next call. -/
structure Task.Fires (may : σ → Prop) (task : Task σ ε φ ℓ) : Prop where
  code : task.code.Fires may
  dropped : ∀ scope ∈ task.scopes, scope.dropped.Fires may

theorem Task.Fires.mono {may may' : σ → Prop} (hmay : ∀ s, may s → may' s) {task : Task σ ε φ ℓ}
    (h : task.Fires may) : task.Fires may' :=
  ⟨h.code.mono hmay, fun scope hscope => (h.dropped scope hscope).mono hmay⟩

namespace World

variable {F : Framing φ} {w w' : World σ ε φ ℓ} {task : Task σ ε φ ℓ} {t : ℕ}
  {ends : ℓ → σ → Bool}

/-- A function was called that fires the signal. -/
def Called (ends : ℓ → σ → Bool) (w : World σ ε φ ℓ) (s : σ) : Prop :=
  ∃ l ∈ w.calls, ends l s = true

instance (s : σ) : Decidable (w.Called ends s) :=
  inferInstanceAs (Decidable (∃ l ∈ w.calls, ends l s = true))

/-- The signals that could drop the write under way. -/
def threats (w : World σ ε φ ℓ) : List σ :=
  match w.owner with
  | some ⟨t, _, some _⟩ => (w.tasks t).elim [] fun task => task.scopes.map Scope.signal
  | _ => []

/-- No function was called that drops the task in the middle of a write. -/
def Spared (ends : ℓ → σ → Bool) (w : World σ ε φ ℓ) (_ : Event σ ε) : Prop :=
  ∀ s ∈ w.threats, ¬w.Called ends s

instance (ev : Event σ ε) : Decidable (w.Spared ends ev) :=
  inferInstanceAs (Decidable (∀ s ∈ w.threats, _))

/-- Every signal is fired by a function that may, now and by what the tasks have still to run. -/
structure Founded (ends : ℓ → σ → Bool) (w : World σ ε φ ℓ) : Prop where
  fired : ∀ s, w.fired s = true → w.Called ends s
  tasks : ∀ t task, w.tasks t = some task → task.Fires (w.Called ends)

theorem Founded.start {l : ℓ} : (start l : World σ ε φ ℓ).Founded ends where
  fired s hs := by cases hs
  tasks t task ht := by
    simp only [World.start] at ht
    split at ht
    · cases ht
      exact ⟨trivial, fun _ h => by cases h⟩
    · cases ht

theorem Called.later {s : σ} (hs : w.Called ends s) (hcalls : w.calls ⊆ w'.calls) :
    w'.Called ends s :=
  hs.imp fun _ hl => ⟨hcalls hl.1, hl.2⟩

/-- One task goes on. -/
theorem Founded.set (hw : w.Founded ends) {new : Option (Task σ ε φ ℓ)}
    (htasks : w'.tasks = Function.update w.tasks t new) (hcalls : w.calls ⊆ w'.calls)
    (hfired : ∀ s, w'.fired s = true → w.fired s = true ∨ w'.Called ends s)
    (hnew : ∀ task, new = some task → task.Fires (w'.Called ends)) :
    w'.Founded ends where
  fired s hs := (hfired s hs).elim (fun hs => (hw.fired s hs).later hcalls) id
  tasks u task hu := by
    rw [htasks] at hu
    by_cases h : u = t
    · subst h
      exact hnew task (by simpa using hu)
    · exact (hw.tasks u task (by simpa [h] using hu)).mono fun s hs => hs.later hcalls

/-- One task goes on between two calls, and fires no signal. -/
theorem Founded.next (hw : w.Founded ends) {new : Task σ ε φ ℓ}
    (htasks : w'.tasks = Function.update w.tasks t (some new)) (hcalls : w'.calls = w.calls)
    (hfired : w'.fired = w.fired) (hnew : new.Fires (w.Called ends)) :
    w'.Founded ends :=
  hw.set htasks (by rw [hcalls]; exact List.Subset.refl _) (fun s hs => .inl (hfired ▸ hs)) fun task htask =>
    Option.some.inj htask ▸ hnew.mono fun s hs => hs.later (by rw [hcalls]; exact List.Subset.refl _)

theorem fired_update [DecidableEq σ] {s s' : σ}
    (h : Function.update w.fired s true s' = true) : w.fired s' = true ∨ s' = s := by
  by_cases hs : s' = s
  · exact .inr hs
  · exact .inl (by simpa [hs] using h)

/-- One task goes on and fires a signal that it may. -/
theorem Founded.fire [DecidableEq σ] (hw : w.Founded ends) {new : Task σ ε φ ℓ} {s : σ}
    (htasks : w'.tasks = Function.update w.tasks t (some new)) (hcalls : w'.calls = w.calls)
    (hfired : w'.fired = Function.update w.fired s true) (hs : w.Called ends s)
    (hnew : new.Fires (w.Called ends)) : w'.Founded ends := by
  have hsame : w.calls ⊆ w'.calls := by rw [hcalls]; exact List.Subset.refl _
  refine hw.set htasks hsame (fun s' hs' => ?_) fun task htask =>
    Option.some.inj htask ▸ hnew.mono fun s hs => hs.later hsame
  rw [hfired] at hs'
  rcases fired_update hs' with hbefore | rfl
  · exact .inl hbefore
  · exact .inr (hs.later hsame)

section

variable [DecidableEq σ] {program : ℓ → Code σ ε φ ℓ} {external : σ → Bool}

theorem Founded.run (hprogram : ∀ l, (program l).Fires fun s => ends l s = true)
    (hw : w.Founded ends) (ht : w.tasks t = some task)
    (h : w.runTask program t task = some w') : w'.Founded ends := by
  obtain ⟨code, scopes⟩ := task
  obtain ⟨hcode, hdropped⟩ := hw.tasks t _ ht
  cases code with
  | done =>
    cases h
    exact hw.set rfl (List.Subset.refl _) (fun s hs => .inl hs) fun _ h => by cases h
  | goto l =>
    cases h
    have hlater : w.calls ⊆ l :: w.calls := List.subset_cons_self l w.calls
    refine hw.set rfl hlater (fun s hs => .inl hs) ?_
    rintro _ ⟨⟩
    refine ⟨(hprogram l).mono fun s hs => ⟨l, List.mem_cons_self, hs⟩, ?_⟩
    exact fun scope hscope => (hdropped scope hscope).mono fun s hs => hs.later hlater
  | wait s k =>
    simp only [runTask] at h
    split at h
    · cases h
      exact hw.next rfl rfl rfl ⟨hcode, hdropped⟩
    · cases h
  | test s yes no =>
    cases h
    refine hw.next rfl rfl rfl ⟨?_, hdropped⟩
    dsimp only
    split
    · exact hcode.1
    · exact hcode.2
  | claim s won lost =>
    simp only [runTask] at h
    split at h
    · cases h
      exact hw.next rfl rfl rfl ⟨hcode.2.2, hdropped⟩
    · cases h
      exact hw.fire rfl rfl rfl hcode.1 ⟨hcode.2.1, hdropped⟩
  | fire s k =>
    cases h
    exact hw.fire rfl rfl rfl hcode.1 ⟨hcode.2, hdropped⟩
  | unlock k =>
    cases h
    exact hw.next rfl rfl rfl ⟨hcode, hdropped⟩
  | enter s dropped k =>
    cases h
    exact hw.next rfl rfl rfl ⟨hcode.2, List.forall_mem_cons.mpr ⟨hcode.1, hdropped⟩⟩
  | leave k =>
    cases h
    exact hw.next rfl rfl rfl ⟨hcode, fun scope hscope => hdropped scope (List.mem_of_mem_tail hscope)⟩
  | spawn l k =>
    cases h
    have hself : (w.set t (some ⟨k, scopes⟩)).Founded ends := hw.next rfl rfl rfl ⟨hcode, hdropped⟩
    exact hself.next rfl rfl rfl ⟨trivial, fun _ h => by cases h⟩
  | refuse | await k | lock k | send frames k => cases h

theorem Founded.step (hprogram : ∀ l, (program l).Fires fun s => ends l s = true)
    (hexternal : ∀ s, external s = false) (hw : w.Founded ends) {ev : Event σ ε}
    (h : w.step F program external ev = some w') :
    w'.Founded ends := by
  cases ev with
  | input t e =>
    obtain ⟨task, k, ht, hcode, rfl⟩ := step_input h
    obtain ⟨hk, hdropped⟩ := hw.tasks t task ht
    rw [hcode] at hk
    exact hw.next rfl rfl rfl ⟨hk e, hdropped⟩
  | run t =>
    obtain ⟨task, ht, h⟩ := Option.bind_eq_some_iff.mp h
    exact hw.run hprogram ht h
  | grant t =>
    obtain ⟨task, k, ht, hcode, -, rfl⟩ := step_grant h
    obtain ⟨hk, hdropped⟩ := hw.tasks t task ht
    rw [hcode] at hk
    exact hw.next rfl rfl rfl ⟨hk, hdropped⟩
  | emit t n =>
    obtain ⟨task, ht, h⟩ := Option.bind_eq_some_iff.mp h
    obtain ⟨hk, hdropped⟩ := hw.tasks t task ht
    obtain ⟨frames, k, o, hcode, -, -, hw'⟩ := emitTask_some h
    rw [hcode] at hk
    rcases hw' with rfl | rfl
    · exact ⟨hw.fired, hw.tasks⟩
    · exact hw.next rfl rfl rfl ⟨hk, hdropped⟩
  | cancel t i =>
    obtain ⟨task, ht, h⟩ := Option.bind_eq_some_iff.mp h
    obtain ⟨-, hdropped⟩ := hw.tasks t task ht
    obtain ⟨scope, outer, hscopes, -, rfl⟩ := cancelTask_some h
    have hinner : ∀ inner ∈ scope :: outer, inner ∈ task.scopes := fun inner hinner =>
      List.mem_of_mem_drop (hscopes ▸ hinner)
    exact hw.next rfl rfl rfl ⟨hdropped scope (hinner scope List.mem_cons_self),
      fun inner h => hdropped inner (hinner inner (.tail scope h))⟩
  | signal s =>
    rw [World.step, hexternal s, if_neg (by decide)] at h
    cases h

theorem Founded.uncut (hw : w.Founded ends) {ev : Event σ ε}
    (hspared : w.Spared ends ev) (h : w.step F program external ev = some w') :
    w.Uncut F ev := by
  cases ev with
  | cancel t i =>
    intro hwriting
    exfalso
    obtain ⟨task, ht, h⟩ := Option.bind_eq_some_iff.mp h
    obtain ⟨⟨u, depth, rest⟩, howner, rfl, hrest⟩ := writing_iff.mp hwriting
    obtain ⟨bytes, rfl⟩ := Option.ne_none_iff_exists'.mp hrest
    obtain ⟨scope, outer, hscopes, hfired, -⟩ := cancelTask_some h
    have hmem : scope ∈ task.scopes := List.mem_of_mem_drop (hscopes ▸ List.mem_cons_self)
    have hthreat : scope.signal ∈ w.threats := by
      simpa [threats, howner, ht] using ⟨scope, hmem, rfl⟩
    exact hspared _ hthreat (hw.fired _ hfired)
  | _ => trivial

variable (hprogram : ∀ l, (program l).Fires fun s => ends l s = true)
  (hexternal : ∀ s, external s = false)

include hprogram hexternal

end

end World

end Lib.Async
