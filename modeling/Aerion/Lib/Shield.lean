import Aerion.Lib.Async

/-!
# Writes that only certain signals can drop

A discipline for the code of tasks: every write stands inside races against
`fatal` signals only. Code that keeps it can lose a frame only once one of
them is fired; until then the wire carries whole frames, whichever tasks are
dropped where they wait.
-/

namespace Lib.Async

variable {σ ε φ ℓ : Type}

/-- Under the races of the signals `scopes`, every write of the code stands inside races of `fatal`
signals only. `entry` gives the races around a function's code. -/
def Code.Shielded (fatal : σ → Prop) (entry : ℓ → List σ) : List σ → Code σ ε φ ℓ → Prop
  | _, .done | _, .refuse => True
  | scopes, .goto l => entry l = scopes
  | scopes, .await k => ∀ e, (k e).Shielded fatal entry scopes
  | scopes, .wait _ k | scopes, .lock k | scopes, .unlock k | scopes, .fire _ k =>
    k.Shielded fatal entry scopes
  | scopes, .test _ yes no | scopes, .claim _ yes no =>
    yes.Shielded fatal entry scopes ∧ no.Shielded fatal entry scopes
  | scopes, .send _ k => (∀ s ∈ scopes, fatal s) ∧ k.Shielded fatal entry scopes
  | scopes, .enter s dropped k =>
    dropped.Shielded fatal entry scopes ∧ k.Shielded fatal entry (s :: scopes)
  | scopes, .leave k => k.Shielded fatal entry scopes.tail
  | scopes, .spawn l k => entry l = [] ∧ k.Shielded fatal entry scopes

variable {fatal : σ → Prop} {entry : ℓ → List σ}

theorem Code.retain_shielded {α : Type} {signal : α → σ} {scopes : List σ} (items : List α)
    {k : List α → Code σ ε φ ℓ} (hk : ∀ kept, (k kept).Shielded fatal entry scopes) :
    (Code.retain signal items k).Shielded fatal entry scopes := by
  induction items generalizing k with
  | nil => exact hk []
  | cons a items ih => exact ⟨ih hk, ih fun kept => hk (a :: kept)⟩

theorem Code.fireAll_shielded {α : Type} {signal : α → σ} {scopes : List σ} {k : Code σ ε φ ℓ}
    (hk : k.Shielded fatal entry scopes) (items : List α) :
    (Code.fireAll signal k items).Shielded fatal entry scopes := by
  induction items with
  | nil => exact hk
  | cons a items ih => exact ih

/-- The code that follows each race is shielded as well. -/
def ScopesShielded (fatal : σ → Prop) (entry : ℓ → List σ) : List (Scope σ ε φ ℓ) → Prop
  | [] => True
  | scope :: outer =>
    scope.dropped.Shielded fatal entry (outer.map Scope.signal) ∧ ScopesShielded fatal entry outer

structure Task.Shielded (fatal : σ → Prop) (entry : ℓ → List σ) (task : Task σ ε φ ℓ) : Prop where
  code : task.code.Shielded fatal entry (task.scopes.map Scope.signal)
  scopes : ScopesShielded fatal entry task.scopes

def World.Shielded (fatal : σ → Prop) (entry : ℓ → List σ) (w : World σ ε φ ℓ) : Prop :=
  ∀ t task, w.tasks t = some task → task.Shielded fatal entry

theorem ScopesShielded.drop {scopes : List (Scope σ ε φ ℓ)}
    (h : ScopesShielded fatal entry scopes) (i : ℕ) : ScopesShielded fatal entry (scopes.drop i) := by
  induction i generalizing scopes with
  | zero => exact h
  | succ i ih =>
    cases scopes with
    | nil => exact h
    | cons scope outer => exact ih h.2

namespace World

variable {F : Framing φ} {w w' : World σ ε φ ℓ} {task : Task σ ε φ ℓ} {t : ℕ}

theorem Shielded.set (hw : w.Shielded fatal entry) {new : Option (Task σ ε φ ℓ)}
    (hnew : ∀ task, new = some task → task.Shielded fatal entry) :
    (w.set t new).Shielded fatal entry := by
  intro u task hu
  by_cases h : u = t
  · subst h
    exact hnew task (by simpa [World.set] using hu)
  · exact hw u task (by simpa [World.set, h] using hu)

theorem Shielded.setSome (hw : w.Shielded fatal entry) {new : Task σ ε φ ℓ}
    (hnew : new.Shielded fatal entry) : (w.set t (some new)).Shielded fatal entry :=
  hw.set fun _ h => Option.some.inj h ▸ hnew

theorem Shielded.cancel (hw : w.Shielded fatal entry) (htask : task.Shielded fatal entry) {i : ℕ}
    (h : w.cancelTask t task i = some w') : w'.Shielded fatal entry := by
  obtain ⟨scope, outer, hscopes, -, rfl⟩ := cancelTask_some h
  have hdropped := htask.scopes.drop i
  rw [hscopes] at hdropped
  exact hw.setSome ⟨hdropped.1, hdropped.2⟩

theorem Shielded.emit (hw : w.Shielded fatal entry) (htask : task.Shielded fatal entry) {n : ℕ}
    (h : w.emitTask F t n task = some w') : w'.Shielded fatal entry := by
  obtain ⟨frames, k, o, hcode, -, -, hw'⟩ := emitTask_some h
  have hk := htask.code
  rw [hcode] at hk
  rcases hw' with rfl | rfl
  · exact hw
  · exact hw.setSome ⟨hk.2, htask.scopes⟩

section

variable [DecidableEq σ] {program : ℓ → Code σ ε φ ℓ} {external : σ → Bool}

theorem Shielded.run (hprogram : ∀ l, (program l).Shielded fatal entry (entry l))
    (hw : w.Shielded fatal entry) (htask : task.Shielded fatal entry)
    (h : w.runTask program t task = some w') : w'.Shielded fatal entry := by
  obtain ⟨code, scopes⟩ := task
  obtain ⟨hcode, hscopes⟩ := htask
  cases code with
  | done =>
    cases h
    exact hw.set nofun
  | goto l =>
    cases h
    exact hw.setSome ⟨by rw [← hcode]; exact hprogram l, hscopes⟩
  | wait s k =>
    simp only [runTask] at h
    split at h
    · cases h
      exact hw.setSome ⟨hcode, hscopes⟩
    · cases h
  | test s yes no =>
    cases h
    refine hw.setSome ⟨?_, hscopes⟩
    dsimp only
    split
    · exact hcode.1
    · exact hcode.2
  | claim s won lost =>
    simp only [runTask] at h
    split at h
    · cases h
      exact hw.setSome ⟨hcode.2, hscopes⟩
    · cases h
      exact hw.setSome ⟨hcode.1, hscopes⟩
  | unlock k | fire s k =>
    cases h
    exact hw.setSome ⟨hcode, hscopes⟩
  | enter s dropped k =>
    cases h
    exact hw.setSome ⟨hcode.2, hcode.1, hscopes⟩
  | leave k =>
    cases h
    refine hw.setSome ⟨?_, ?_⟩
    · rw [List.map_tail]
      exact hcode
    · simpa using hscopes.drop 1
  | spawn l k =>
    cases h
    have hself : (w.set t (some ⟨k, scopes⟩)).Shielded fatal entry := hw.setSome ⟨hcode.2, hscopes⟩
    have hspawned : Task.Shielded fatal entry (⟨.goto l, []⟩ : Task σ ε φ ℓ) := ⟨hcode.1, trivial⟩
    exact hself.setSome hspawned
  | refuse | await k | lock k | send frames k => cases h

theorem Shielded.step (hprogram : ∀ l, (program l).Shielded fatal entry (entry l))
    (hw : w.Shielded fatal entry) {ev : Event σ ε}
    (h : w.step F program external ev = some w') : w'.Shielded fatal entry := by
  cases ev with
  | input t e =>
    obtain ⟨task, k, ht, hcode, rfl⟩ := step_input h
    have hk := (hw t task ht).code
    rw [hcode] at hk
    exact hw.setSome ⟨hk e, (hw t task ht).scopes⟩
  | run t =>
    obtain ⟨task, ht, h⟩ := Option.bind_eq_some_iff.mp h
    exact hw.run hprogram (hw t task ht) h
  | grant t =>
    obtain ⟨task, k, ht, hcode, -, rfl⟩ := step_grant h
    have hk := (hw t task ht).code
    rw [hcode] at hk
    exact hw.setSome ⟨hk, (hw t task ht).scopes⟩
  | emit t n =>
    obtain ⟨task, ht, h⟩ := Option.bind_eq_some_iff.mp h
    exact hw.emit (hw t task ht) h
  | cancel t i =>
    obtain ⟨task, ht, h⟩ := Option.bind_eq_some_iff.mp h
    exact hw.cancel (hw t task ht) h
  | signal s =>
    obtain rfl := step_signal h
    exact hw

end

/-- A write under way belongs to a task that stands at it, and new tasks get new numbers. -/
structure Orderly (w : World σ ε φ ℓ) : Prop where
  fresh : ∀ t, w.next ≤ t → w.tasks t = none
  sending : ∀ o, w.owner = some o → o.rest ≠ none →
    ∃ frames k scopes, w.tasks o.task = some ⟨.send frames k, scopes⟩

theorem Orderly.lt (hw : w.Orderly) (ht : w.tasks t = some task) : t < w.next := by
  by_contra h
  rw [hw.fresh t (by omega)] at ht
  cases ht

/-- Every write under way in the one state is under way in the other. -/
def SendsOf (w w' : World σ ε φ ℓ) : Prop :=
  ∀ o, w'.owner = some o → o.rest ≠ none →
    ∃ o', w.owner = some o' ∧ o'.task = o.task ∧ o'.rest ≠ none

theorem SendsOf.same (h : w'.owner = w.owner) : SendsOf w w' :=
  fun o ho hrest => ⟨o, h ▸ ho, rfl, hrest⟩

theorem SendsOf.release (h : w'.owner = w.owner.bind (Owner.release t)) : SendsOf w w' := by
  intro o ho hrest
  obtain ⟨o', ho', hrelease⟩ := Option.bind_eq_some_iff.mp (h ▸ ho)
  unfold Owner.release at hrelease
  split at hrelease
  · cases hrelease
  · cases hrelease
    exact ⟨o, ho', rfl, hrest⟩

theorem SendsOf.leave {depth : ℕ} (h : w'.owner = w.owner.map (Owner.leave t depth)) :
    SendsOf w w' := by
  intro o ho hrest
  obtain ⟨o', ho', rfl⟩ := Option.map_eq_some_iff.mp (h ▸ ho)
  rw [Owner.leave_rest] at hrest
  refine ⟨o', ho', ?_, hrest⟩
  unfold Owner.leave
  split <;> rfl

theorem cutBack_sends {depth : ℕ} {o : Owner} (h : w.owner.bind (Owner.cutBack t depth) = some o)
    (hrest : o.rest ≠ none) : w.owner = some o ∧ o.task ≠ t := by
  obtain ⟨o', ho', hcut⟩ := Option.bind_eq_some_iff.mp h
  unfold Owner.cutBack at hcut
  split at hcut
  · split at hcut
    · cases hcut
      exact absurd rfl hrest
    · cases hcut
  · cases hcut
    exact ⟨ho', ‹_›⟩

/-- A task that has no write under way goes on, and the write of another is left as it is. -/
theorem Orderly.set (hw : w.Orderly) (ht : t < w.next) {new : Option (Task σ ε φ ℓ)}
    (htasks : w'.tasks = Function.update w.tasks t new) (hnext : w'.next = w.next)
    (hsends : SendsOf w w') (hother : ∀ o, w'.owner = some o → o.rest ≠ none → o.task ≠ t) :
    w'.Orderly where
  fresh u hu := by
    rw [htasks, Function.update_of_ne (by omega)]
    exact hw.fresh u (by omega)
  sending o ho hrest := by
    obtain ⟨o', ho', htask, hrest'⟩ := hsends o ho hrest
    obtain ⟨frames, k, scopes, hsend⟩ := hw.sending o' ho' hrest'
    rw [htask] at hsend
    exact ⟨frames, k, scopes, by rw [htasks, Function.update_of_ne (hother o ho hrest), hsend]⟩

/-- The task with a write under way stands at it. -/
theorem Orderly.other (hw : w.Orderly) (ht : w.tasks t = some task)
    (hcode : ∀ frames k, task.code ≠ .send frames k) (hsends : SendsOf w w') :
    ∀ o, w'.owner = some o → o.rest ≠ none → o.task ≠ t := by
  rintro o ho hrest rfl
  obtain ⟨o', ho', htask, hrest'⟩ := hsends o ho hrest
  obtain ⟨frames, k, scopes, hsend⟩ := hw.sending o' ho' hrest'
  rw [htask, ht] at hsend
  cases hsend
  exact hcode frames k rfl

/-- A step of a task that does not stand at a write. -/
theorem Orderly.next (hw : w.Orderly) (ht : w.tasks t = some task)
    (hcode : ∀ frames k, task.code ≠ .send frames k) {new : Option (Task σ ε φ ℓ)}
    (htasks : w'.tasks = Function.update w.tasks t new) (hnext : w'.next = w.next)
    (hsends : SendsOf w w') : w'.Orderly :=
  hw.set (hw.lt ht) htasks hnext hsends (hw.other ht hcode hsends)

theorem Orderly.spawn (hw : w.Orderly) {task : Task σ ε φ ℓ}
    (htasks : w'.tasks = Function.update w.tasks w.next (some task)) (hnext : w'.next = w.next + 1)
    (howner : w'.owner = w.owner) : w'.Orderly where
  fresh u hu := by
    rw [htasks, Function.update_of_ne (by omega)]
    exact hw.fresh u (by omega)
  sending o ho hrest := by
    obtain ⟨frames, k, scopes, hsend⟩ := hw.sending o (howner ▸ ho) hrest
    have hlt := hw.lt hsend
    exact ⟨frames, k, scopes, by rw [htasks, Function.update_of_ne (by omega), hsend]⟩

theorem Orderly.emit (hw : w.Orderly) (ht : w.tasks t = some task) {n : ℕ}
    (h : w.emitTask F t n task = some w') : w'.Orderly := by
  obtain ⟨frames, k, o, hcode, -, htask, hw'⟩ := emitTask_some h
  rcases hw' with rfl | rfl
  · refine ⟨hw.fresh, fun o' ho' _ => ?_⟩
    cases ho'
    exact ⟨frames, k, task.scopes, by rw [htask, ht, ← hcode]⟩
  · have hnone : ∀ o', some { o with rest := none } = some o' → o'.rest = none := by
      rintro _ ⟨⟩
      rfl
    exact hw.set (hw.lt ht) rfl rfl (fun o' ho' hrest => absurd (hnone o' ho') hrest)
      (fun o' ho' hrest => absurd (hnone o' ho') hrest)

theorem Orderly.cancel (hw : w.Orderly) (ht : w.tasks t = some task) {i : ℕ}
    (h : w.cancelTask t task i = some w') : w'.Orderly := by
  obtain ⟨scope, outer, -, -, rfl⟩ := cancelTask_some h
  exact hw.set (hw.lt ht) rfl rfl (fun o ho hrest => ⟨o, (cutBack_sends ho hrest).1, rfl, hrest⟩)
    (fun o ho hrest => (cutBack_sends ho hrest).2)

theorem start_orderly {l : ℓ} : (start l : World σ ε φ ℓ).Orderly where
  fresh t ht := if_neg (by have : 1 ≤ t := ht; omega)
  sending o ho := by cases ho

theorem start_shielded {l : ℓ} (hl : entry l = []) :
    (start l : World σ ε φ ℓ).Shielded fatal entry := by
  intro t task ht
  simp only [start] at ht
  split at ht
  · cases ht
    exact ⟨hl, trivial⟩
  · cases ht

/-- The signal of the race that a drop of task `t` ends. -/
def signalOf (w : World σ ε φ ℓ) (t i : ℕ) : Option σ :=
  (w.tasks t).bind fun task => (task.scopes.drop i).head?.map Scope.signal

/-- The step drops no task by a fatal signal. -/
def Spares (fatal : σ → Prop) (w : World σ ε φ ℓ) : Event σ ε → Prop
  | .cancel t i => ∀ s ∈ w.signalOf t i, ¬fatal s
  | _ => True

instance [DecidablePred fatal] (w : World σ ε φ ℓ) : (ev : Event σ ε) → Decidable (w.Spares fatal ev)
  | .cancel t i => inferInstanceAs (Decidable (∀ s ∈ w.signalOf t i, ¬fatal s))
  | .input .. | .run _ | .grant _ | .emit .. | .signal _ => .isTrue trivial

section

variable [DecidableEq σ] {program : ℓ → Code σ ε φ ℓ} {external : σ → Bool}

theorem Orderly.run (hw : w.Orderly) (ht : w.tasks t = some task)
    (h : w.runTask program t task = some w') : w'.Orderly := by
  obtain ⟨code, scopes⟩ := task
  cases code with
  | done | unlock k =>
    cases h
    exact hw.next ht (by simp) rfl rfl (.release rfl)
  | leave k =>
    cases h
    exact hw.next ht (by simp) rfl rfl (.leave rfl)
  | wait s k =>
    simp only [runTask] at h
    split at h
    · cases h
      exact hw.next ht (by simp) rfl rfl (.same rfl)
    · cases h
  | claim s won lost =>
    simp only [runTask] at h
    split at h
    · cases h
      exact hw.next ht (by simp) rfl rfl (.same rfl)
    · cases h
      exact hw.next ht (by simp) rfl rfl (.same rfl)
  | spawn l k =>
    cases h
    have hself : (w.set t (some ⟨k, scopes⟩)).Orderly := hw.next ht (by simp) rfl rfl (.same rfl)
    exact hself.spawn rfl rfl rfl
  | goto l | test s yes no | enter s dropped k | fire s k =>
    cases h
    exact hw.next ht (by simp) rfl rfl (.same rfl)
  | refuse | await k | lock k | send frames k => cases h

theorem Orderly.step (hw : w.Orderly) {ev : Event σ ε}
    (h : w.step F program external ev = some w') : w'.Orderly := by
  cases ev with
  | input t e =>
    obtain ⟨task, k, ht, hcode, rfl⟩ := step_input h
    exact hw.next ht (by simp [hcode]) rfl rfl (.same rfl)
  | run t =>
    obtain ⟨task, ht, h⟩ := Option.bind_eq_some_iff.mp h
    exact hw.run ht h
  | grant t =>
    obtain ⟨task, k, ht, hcode, -, rfl⟩ := step_grant h
    refine hw.next ht (by simp [hcode]) rfl rfl ?_
    rintro o ⟨⟩ hrest
    exact absurd rfl hrest
  | emit t n =>
    obtain ⟨task, ht, h⟩ := Option.bind_eq_some_iff.mp h
    exact hw.emit ht h
  | cancel t i =>
    obtain ⟨task, ht, h⟩ := Option.bind_eq_some_iff.mp h
    exact hw.cancel ht h
  | signal s =>
    obtain rfl := step_signal h
    exact ⟨hw.fresh, hw.sending⟩

/-- A shielded task is dropped in the middle of a write by a fatal signal only. -/
theorem Shielded.uncut (hw : w.Shielded fatal entry) (hord : w.Orderly) {ev : Event σ ε}
    (hspares : w.Spares fatal ev) (h : w.step F program external ev = some w') : w.Uncut F ev := by
  cases ev with
  | cancel t i =>
    intro hwriting
    exfalso
    obtain ⟨task, ht, h⟩ := Option.bind_eq_some_iff.mp h
    obtain ⟨o, howner, rfl, hrest⟩ := writing_iff.mp hwriting
    obtain ⟨frames, k, scopes, hsend⟩ := hord.sending o howner hrest
    obtain rfl := Option.some.inj (ht.symm.trans hsend)
    obtain ⟨scope, outer, hscopes, -, -⟩ := cancelTask_some h
    have hmem : scope ∈ scopes := List.mem_of_mem_drop (hscopes ▸ List.mem_cons_self)
    have hall := (hw _ _ ht).code.1
    have hsignal : w.signalOf o.task i = some scope.signal := by
      rw [signalOf, ht, Option.bind_some, hscopes]
      rfl
    exact hspares scope.signal hsignal (hall _ (List.mem_map_of_mem hmem))
  | _ => trivial

/-- As long as no fatal signal has dropped a task, shielded code puts whole frames on the wire,
and at most a part of the one being written. -/
theorem framed_of_shielded (hprogram : ∀ l, (program l).Shielded fatal entry (entry l)) {l : ℓ}
    (hl : entry l = []) {evs : List (Event σ ε)}
    (h : Steps (World.step F program external) (World.Spares fatal) (.start l) evs w) :
    w.Framed F := by
  have hinv : w.Shielded fatal entry ∧ w.Orderly ∧ w.Intact F := by
    refine h.invariant (fun w => w.Shielded fatal entry ∧ w.Orderly ∧ w.Intact F) ?_
      ⟨start_shielded hl, start_orderly, start_intact l⟩
    rintro w ev w' ⟨hw, hord, hintact⟩ hspares hstep
    exact ⟨hw.step hprogram hstep, hord.step hstep,
      hintact.step (hw.uncut hord hspares hstep) hstep⟩
  exact hinv.2.2.framed

end

end World

end Lib.Async
