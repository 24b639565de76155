import Aerion.Lib.Framing
import Aerion.Lib.Steps

/-!
# Tasks that share one locked writer

A small language for asynchronous code and its interleavings. A task runs
from one await to the next; it waits for an input of its environment, for a
signal, for the lock of the writer, or for the transport to take the bytes
of a write. `enter` opens a race of what follows against a signal: once the
signal is fired, the code inside is dropped at whatever await it stands, with
the lock if it was taken inside, and the task goes on with the code the race
names. A write that is dropped has put any prefix of its bytes on the wire.
Signals are also the flags tasks share: `test` reads one, and `claim` fires
one unless it was fired before.
-/

namespace Lib.Async

/-- Code over signals `σ`, inputs `ε`, frames `φ` and names of functions `ℓ`. An await that goes
on with `refuse` does not take the input. -/
inductive Code (σ ε φ ℓ : Type) where
  | done
  | goto (l : ℓ)
  | refuse
  | await (k : ε → Code σ ε φ ℓ)
  | wait (s : σ) (k : Code σ ε φ ℓ)
  | test (s : σ) (yes no : Code σ ε φ ℓ)
  | claim (s : σ) (won lost : Code σ ε φ ℓ)
  | lock (k : Code σ ε φ ℓ)
  | send (frames : List φ) (k : Code σ ε φ ℓ)
  | unlock (k : Code σ ε φ ℓ)
  | enter (s : σ) (dropped k : Code σ ε φ ℓ)
  | leave (k : Code σ ε φ ℓ)
  | fire (s : σ) (k : Code σ ε φ ℓ)
  | spawn (l : ℓ) (k : Code σ ε φ ℓ)

/-- Goes on with the items whose signal is not fired. -/
def Code.retain {σ ε φ ℓ α : Type} (signal : α → σ) :
    List α → (List α → Code σ ε φ ℓ) → Code σ ε φ ℓ
  | [], k => k []
  | a :: items, k =>
    .test (signal a) (retain signal items k) (retain signal items fun kept => k (a :: kept))

/-- Fires the signals of all items. -/
def Code.fireAll {σ ε φ ℓ α : Type} (signal : α → σ) (k : Code σ ε φ ℓ) :
    List α → Code σ ε φ ℓ
  | [] => k
  | a :: items => .fire (signal a) (fireAll signal k items)

/-- Whether the code stands at an await, where it can be dropped. -/
def Code.suspended {σ ε φ ℓ : Type} : Code σ ε φ ℓ → Bool
  | .await _ | .wait _ _ | .lock _ | .send _ _ => true
  | _ => false

/-- An open race: the signal, and the code that follows when it wins. -/
structure Scope (σ ε φ ℓ : Type) where
  signal : σ
  dropped : Code σ ε φ ℓ

/-- A task, its open races from the innermost outwards. -/
structure Task (σ ε φ ℓ : Type) where
  code : Code σ ε φ ℓ
  scopes : List (Scope σ ε φ ℓ)

/-- The holder of the lock: how many races were open around the guard, and what is left of the
write under way. -/
structure Owner where
  task : ℕ
  depth : ℕ
  rest : Option Bytes

/-- The tasks, the signals fired and the functions called so far, the wire and its lock. -/
structure World (σ ε φ ℓ : Type) where
  tasks : ℕ → Option (Task σ ε φ ℓ)
  next : ℕ
  fired : σ → Bool
  calls : List ℓ
  emitted : Bytes
  owner : Option Owner

inductive Event (σ ε : Type) where
  | input (t : ℕ) (e : ε)
  | run (t : ℕ)
  | grant (t : ℕ)
  | emit (t n : ℕ)
  | cancel (t i : ℕ)
  | signal (s : σ)

section

variable {σ ε φ ℓ : Type}

namespace World

/-- One task, which runs the function `l`. -/
def start (l : ℓ) : World σ ε φ ℓ :=
  ⟨fun t => if t = 0 then some ⟨.goto l, []⟩ else none, 1, fun _ => false, [], [], none⟩

def set (w : World σ ε φ ℓ) (t : ℕ) (task : Option (Task σ ε φ ℓ)) : World σ ε φ ℓ :=
  { w with tasks := Function.update w.tasks t task }

end World

/-- Task `t` drops its guard; it has no write under way then. -/
def Owner.release (t : ℕ) (o : Owner) : Option Owner :=
  if o.task = t ∧ o.rest = none then none else some o

/-- The guard of task `t` survives the end of a race inside which it was taken. -/
def Owner.leave (t depth : ℕ) (o : Owner) : Owner :=
  if o.task = t then { o with depth := min o.depth depth } else o

/-- The task `t` is cut back to `depth` races: a write under way is dropped, and the guard with
it if it was taken further inside. -/
def Owner.cutBack (t depth : ℕ) (o : Owner) : Option Owner :=
  if o.task = t then if o.depth ≤ depth then some { o with rest := none } else none else some o

namespace World

/-- The code of a task up to its next statement. -/
def runTask [DecidableEq σ] (program : ℓ → Code σ ε φ ℓ) (w : World σ ε φ ℓ) (t : ℕ) (task : Task σ ε φ ℓ) :
    Option (World σ ε φ ℓ) :=
  match task.code with
  | .done => some { w.set t none with owner := w.owner.bind (Owner.release t) }
  | .goto l => some { w.set t (some { task with code := program l }) with calls := l :: w.calls }
  | .wait s k => if w.fired s then some (w.set t (some { task with code := k })) else none
  | .test s yes no => some (w.set t (some { task with code := if w.fired s then yes else no }))
  | .claim s won lost =>
    if w.fired s then some (w.set t (some { task with code := lost }))
    else some { w.set t (some { task with code := won }) with
      fired := Function.update w.fired s true }
  | .unlock k =>
    some { w.set t (some { task with code := k }) with owner := w.owner.bind (Owner.release t) }
  | .enter s dropped k => some (w.set t (some ⟨k, ⟨s, dropped⟩ :: task.scopes⟩))
  | .leave k =>
    some { w.set t (some ⟨k, task.scopes.tail⟩) with
      owner := w.owner.map (Owner.leave t task.scopes.tail.length) }
  | .fire s k =>
    some { w.set t (some { task with code := k }) with fired := Function.update w.fired s true }
  | .spawn l k =>
    some { (w.set t (some { task with code := k })).set w.next (some ⟨.goto l, []⟩) with
      next := w.next + 1 }
  | .refuse | .await _ | .lock _ | .send _ _ => none

/-- The transport takes up to `n` bytes of the write of task `t`. -/
def emitTask (F : Framing φ) (w : World σ ε φ ℓ) (t n : ℕ) (task : Task σ ε φ ℓ) :
    Option (World σ ε φ ℓ) :=
  match task.code, w.owner with
  | .send frames k, some o =>
    if o.task = t then
      let bytes := o.rest.getD (F.encodeAll frames)
      if n < bytes.length then
        some { w with emitted := w.emitted ++ bytes.take n,
                      owner := some { o with rest := some (bytes.drop n) } }
      else some { w.set t (some { task with code := k }) with
        emitted := w.emitted ++ bytes, owner := some { o with rest := none } }
    else none
  | _, _ => none

def cancelTask (w : World σ ε φ ℓ) (t : ℕ) (task : Task σ ε φ ℓ) (i : ℕ) : Option (World σ ε φ ℓ) :=
  if task.code.suspended then
    match task.scopes.drop i with
    | scope :: outer =>
      if w.fired scope.signal then
        some { w.set t (some ⟨scope.dropped, outer⟩) with
          owner := w.owner.bind (Owner.cutBack t outer.length) }
      else none
    | [] => none
  else none

/-- One step. Signals that `external` admits are fired from outside. -/
def step [DecidableEq σ] (F : Framing φ) (program : ℓ → Code σ ε φ ℓ) (external : σ → Bool)
    (w : World σ ε φ ℓ) : Event σ ε → Option (World σ ε φ ℓ)
  | .input t e => (w.tasks t).bind fun task =>
    match task.code with
    | .await k =>
      match k e with
      | .refuse => none
      | code => some (w.set t (some { task with code }))
    | _ => none
  | .run t => (w.tasks t).bind (w.runTask program t)
  | .grant t => (w.tasks t).bind fun task =>
    match task.code, w.owner with
    | .lock k, none => some { w.set t (some { task with code := k }) with
        owner := some ⟨t, task.scopes.length, none⟩ }
    | _, _ => none
  | .emit t n => (w.tasks t).bind (w.emitTask F t n)
  | .cancel t i => (w.tasks t).bind fun task => w.cancelTask t task i
  | .signal s => if external s then some { w with fired := Function.update w.fired s true } else none

/-! ### What a step does -/

section

variable {F : Framing φ} {w w' : World σ ε φ ℓ} {task : Task σ ε φ ℓ} {t : ℕ}

theorem emitTask_some {n : ℕ} (h : w.emitTask F t n task = some w') :
    ∃ frames k o, task.code = .send frames k ∧ w.owner = some o ∧ o.task = t ∧
      (w' = { w with emitted := w.emitted ++ (o.rest.getD (F.encodeAll frames)).take n,
                     owner := some { o with rest := some ((o.rest.getD (F.encodeAll frames)).drop n) } } ∨
        w' = { w.set t (some { task with code := k }) with
          emitted := w.emitted ++ o.rest.getD (F.encodeAll frames),
          owner := some { o with rest := none } }) := by
  unfold emitTask at h
  split at h
  · rename_i frames k o hcode howner
    split at h
    · rename_i htask
      dsimp only at h
      refine ⟨frames, k, o, hcode, howner, htask, ?_⟩
      split at h
      · exact .inl (Option.some.inj h).symm
      · exact .inr (Option.some.inj h).symm
    · cases h
  · cases h

theorem cancelTask_some {i : ℕ} (h : w.cancelTask t task i = some w') :
    ∃ scope outer, task.scopes.drop i = scope :: outer ∧ w.fired scope.signal = true ∧
      w' = { w.set t (some ⟨scope.dropped, outer⟩) with
        owner := w.owner.bind (Owner.cutBack t outer.length) } := by
  unfold cancelTask at h
  split at h
  · split at h
    · rename_i scope outer hscopes
      split at h
      · exact ⟨scope, outer, hscopes, ‹_›, (Option.some.inj h).symm⟩
      · cases h
    · cases h
  · cases h

variable [DecidableEq σ] {program : ℓ → Code σ ε φ ℓ} {external : σ → Bool}

theorem step_input {e : ε} (h : w.step F program external (.input t e) = some w') :
    ∃ task k, w.tasks t = some task ∧ task.code = .await k ∧
      w' = w.set t (some { task with code := k e }) := by
  obtain ⟨task, ht, h⟩ := Option.bind_eq_some_iff.mp h
  split at h
  · rename_i k hcode
    split at h
    · cases h
    · exact ⟨task, k, ht, hcode, (Option.some.inj h).symm⟩
  · cases h

theorem step_grant (h : w.step F program external (.grant t) = some w') :
    ∃ task k, w.tasks t = some task ∧ task.code = .lock k ∧ w.owner = none ∧
      w' = { w.set t (some { task with code := k }) with
        owner := some ⟨t, task.scopes.length, none⟩ } := by
  obtain ⟨task, ht, h⟩ := Option.bind_eq_some_iff.mp h
  split at h
  · rename_i k hcode howner
    exact ⟨task, k, ht, hcode, howner, (Option.some.inj h).symm⟩
  · cases h

theorem step_signal {s : σ} (h : w.step F program external (.signal s) = some w') :
    w' = { w with fired := Function.update w.fired s true } := by
  simp only [step] at h
  split at h
  · exact (Option.some.inj h).symm
  · cases h

end

/-! ### Frames on the wire -/

/-- What the write under way has still to put on the wire. -/
def pending (w : World σ ε φ ℓ) : Bytes := (w.owner.bind Owner.rest).getD []

/-- The wire and the write under way make up whole frames. -/
def Intact (F : Framing φ) (w : World σ ε φ ℓ) : Prop := F.Whole (w.emitted ++ w.pending)

/-- Whole frames are on the wire, and at most a part of one that the holder of the lock is about
to complete. -/
def Framed (F : Framing φ) (w : World σ ε φ ℓ) : Prop :=
  ∃ frames part, w.emitted = F.encodeAll frames ++ part ∧
    (part ≠ [] → ∃ o f rest more, w.owner = some o ∧ o.rest = some (rest ++ more) ∧
      F.encode f = part ++ rest)

/-- Task `t` is in the middle of a write. -/
def writing (w : World σ ε φ ℓ) (t : ℕ) : Bool :=
  w.owner.any fun o => o.task == t && o.rest.isSome

/-- No task is dropped with a part of a frame on the wire. -/
def Uncut (F : Framing φ) (w : World σ ε φ ℓ) : Event σ ε → Prop
  | .cancel t _ => w.writing t = true → F.Whole w.emitted
  | _ => True

@[simp] theorem set_emitted (w : World σ ε φ ℓ) (t : ℕ) (task : Option (Task σ ε φ ℓ)) :
    (w.set t task).emitted = w.emitted := rfl

@[simp] theorem set_owner (w : World σ ε φ ℓ) (t : ℕ) (task : Option (Task σ ε φ ℓ)) :
    (w.set t task).owner = w.owner := rfl

@[simp] theorem set_fired (w : World σ ε φ ℓ) (t : ℕ) (task : Option (Task σ ε φ ℓ)) :
    (w.set t task).fired = w.fired := rfl

end World

theorem Owner.release_rest (t : ℕ) (o : Owner) : (o.release t).bind Owner.rest = o.rest := by
  unfold Owner.release
  split
  · rename_i h
    exact h.2.symm
  · rfl

theorem Owner.leave_rest (t depth : ℕ) (o : Owner) : (o.leave t depth).rest = o.rest := by
  unfold Owner.leave
  split <;> rfl

namespace World

variable {F : Framing φ} {w w' : World σ ε φ ℓ} {task : Task σ ε φ ℓ} {t : ℕ}

theorem Intact.emit (hw : w.Intact F) {n : ℕ} (h : w.emitTask F t n task = some w') :
    w'.Intact F := by
  obtain ⟨frames, k, o, -, howner, -, hw'⟩ := emitTask_some h
  have hbytes : F.Whole (w.emitted ++ o.rest.getD (F.encodeAll frames)) := by
    unfold Intact pending at hw
    rw [howner] at hw
    cases hrest : o.rest with
    | none =>
      have hwhole : F.Whole w.emitted := by simpa [hrest] using hw
      exact hwhole.append (.encodeAll frames)
    | some bytes => simpa [hrest] using hw
  rcases hw' with rfl | rfl
  · simpa [Intact, pending] using hbytes
  · simpa [Intact, pending] using hbytes

theorem Intact.whole_of_idle (hw : w.Intact F) (h : w.owner.bind Owner.rest = none) :
    F.Whole w.emitted := by
  simpa [Intact, pending, h] using hw

theorem Intact.cancel (hw : w.Intact F) {i : ℕ} (huncut : w.writing t = true → F.Whole w.emitted)
    (h : w.cancelTask t task i = some w') : w'.Intact F := by
  obtain ⟨scope, outer, -, -, rfl⟩ := cancelTask_some h
  cases howner : w.owner with
  | none =>
    have hwhole := hw.whole_of_idle (by rw [howner]; rfl)
    simpa [Intact, pending] using hwhole
  | some o =>
    by_cases ht : o.task = t
    · -- Either nothing was under way, or what is on the wire is whole by the guard.
      have hwhole : F.Whole w.emitted := by
        cases hrest : o.rest with
        | none => exact hw.whole_of_idle (by rw [howner]; exact hrest)
        | some bytes => exact huncut (by simp [writing, howner, ht, hrest])
      by_cases hdepth : o.depth ≤ outer.length
      · simpa [Intact, pending, Owner.cutBack, ht, hdepth] using hwhole
      · simpa [Intact, pending, Owner.cutBack, ht, hdepth] using hwhole
    · simpa [Intact, pending, Owner.cutBack, ht, howner] using hw

theorem Intact.keeps (hw : w.Intact F) (hemitted : w'.emitted = w.emitted)
    (hrest : w'.owner.bind Owner.rest = w.owner.bind Owner.rest) : w'.Intact F := by
  rwa [Intact, pending, hemitted, hrest]

theorem Intact.framed (hw : w.Intact F) : w.Framed F := by
  obtain ⟨frames, part, hemitted, hpart⟩ := hw.split
  refine ⟨frames, part, hemitted, fun hne => ?_⟩
  obtain ⟨f, tail, more, htail, hf, hpending⟩ := hpart hne
  cases hrest : w.owner.bind Owner.rest with
  | none =>
    rw [pending, hrest] at hpending
    exact absurd (List.append_eq_nil_iff.mp hpending.symm).1 htail
  | some bytes =>
    obtain ⟨o, howner, hbytes⟩ := Option.bind_eq_some_iff.mp hrest
    obtain rfl : bytes = tail ++ more := by simpa [pending, hrest] using hpending
    exact ⟨o, f, tail, more, howner, hbytes, hf⟩

theorem Framed.whole_of_idle (hw : w.Framed F) (h : w.owner.bind Owner.rest = none) :
    F.Whole w.emitted := by
  obtain ⟨frames, part, hemitted, hpart⟩ := hw
  have hnil : part = [] := by
    by_contra hne
    obtain ⟨o, f, rest, more, howner, hrest, -⟩ := hpart hne
    rw [howner, Option.bind_some, hrest] at h
    cases h
  exact ⟨frames, by rw [hemitted, hnil, List.append_nil]⟩

theorem writing_iff : w.writing t = true ↔ ∃ o, w.owner = some o ∧ o.task = t ∧ o.rest ≠ none := by
  cases howner : w.owner with
  | none => simp [writing, howner]
  | some o => simp [writing, howner, Option.isSome_iff_ne_none]

theorem start_intact (l : ℓ) : (start l : World σ ε φ ℓ).Intact F := .nil

section

variable [DecidableEq σ] {program : ℓ → Code σ ε φ ℓ} {external : σ → Bool}

/-- Code between two awaits leaves the wire and the write under way as they are. -/
theorem runTask_keeps (h : w.runTask program t task = some w') :
    w'.emitted = w.emitted ∧ w'.owner.bind Owner.rest = w.owner.bind Owner.rest := by
  obtain ⟨code, scopes⟩ := task
  cases code with
  | done | unlock k =>
    cases h
    refine ⟨rfl, ?_⟩
    cases w.owner with
    | none => rfl
    | some o => exact o.release_rest t
  | leave k =>
    cases h
    refine ⟨rfl, ?_⟩
    cases w.owner with
    | none => rfl
    | some o => exact o.leave_rest t _
  | wait s k =>
    simp only [runTask] at h
    split at h
    · cases h
      exact ⟨rfl, rfl⟩
    · cases h
  | claim s won lost =>
    simp only [runTask] at h
    split at h
    · cases h
      exact ⟨rfl, rfl⟩
    · cases h
      exact ⟨rfl, rfl⟩
  | goto l | test s yes no | enter s dropped k | fire s k | spawn l k =>
    cases h
    exact ⟨rfl, rfl⟩
  | refuse | await k | lock k | send frames k => cases h

theorem Intact.step (hw : w.Intact F) {ev : Event σ ε} (huncut : w.Uncut F ev)
    (h : w.step F program external ev = some w') : w'.Intact F := by
  cases ev with
  | input t e =>
    obtain ⟨task, k, -, -, rfl⟩ := step_input h
    exact hw.keeps rfl rfl
  | run t =>
    obtain ⟨task, -, h⟩ := Option.bind_eq_some_iff.mp h
    obtain ⟨hemitted, hrest⟩ := runTask_keeps h
    exact hw.keeps hemitted hrest
  | grant t =>
    obtain ⟨task, k, -, -, howner, rfl⟩ := step_grant h
    exact hw.keeps rfl (by rw [howner]; rfl)
  | emit t n =>
    obtain ⟨task, -, h⟩ := Option.bind_eq_some_iff.mp h
    exact hw.emit h
  | cancel t i =>
    obtain ⟨task, -, h⟩ := Option.bind_eq_some_iff.mp h
    exact hw.cancel huncut h
  | signal s =>
    obtain rfl := step_signal h
    exact hw.keeps rfl rfl

end

end World

end

end Lib.Async
