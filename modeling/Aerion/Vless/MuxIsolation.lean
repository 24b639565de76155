import Aerion.Vless.MuxSessions

/-!
# Failing sessions

What the failure of one session's target means to the others. The frame loop
answers a payload it cannot deliver with an end frame and goes on; every
other failure of a target ends the connection.
-/

namespace Aerion.Vless.MuxSessions

open Lib Net
open Mux (TargetNetwork FrameTarget statusNew statusKeep statusEnd statusKeepalive maxMuxSessions)

namespace Server

variable {s s' : Server} {id : UInt16} {e : SessionEntry} {g : ℕ}

/-! ### What leaves the other sessions alone -/

/-- There is room for the session that is about to be inserted. -/
def Room (s : Server) (ev : Event) : Prop :=
  (match ev, s.loop with
    | .insert, .insert f _ => decide (s.sessions.entries.length < maxMuxSessions ∨ f.sessionId ∈ s.sessions)
    | _, _ => true) = true

instance (s : Server) (ev : Event) : Decidable (s.Room ev) := inferInstanceAs (Decidable (_ = true))

/-- The failures of targets that the code keeps to their session: neither does a target fail to
open, nor does the first payload of a session fail, nor is the map full. The client takes the end
frames. -/
def Contained (s : Server) (ev : Event) : Prop :=
  s.Room ev ∧ (match s.loop, ev with
    | .openTarget .., .awaited (some _) | .send _ _ true, .awaited (some _)
    | .writeEnd .., .awaited (some _) => false
    | _, _ => true) = true

instance (s : Server) (ev : Event) : Decidable (s.Contained ev) := inferInstanceAs (Decidable (_ ∧ _ = true))

end Server

def Frame.wellFormed (f : Frame) : Bool :=
  if f.status = statusNew then f.target.isSome
  else f.status = statusKeep || f.status = statusEnd || f.status = statusKeepalive

namespace Server

variable {s s' : Server} {id : UInt16} {e : SessionEntry} {g : ℕ}

/-- The event does not end the session `id` of generation `g` itself: the connection goes on, the
client does not reopen or end the session, the core counts what is uploaded, and the target of the
session neither fails nor closes. -/
def Spares (id : UInt16) (g : ℕ) (s : Server) (ev : Event) : Prop :=
  (match ev, s.loop with
    | .frame f, _ => f.wellFormed && (f.sessionId ≠ id || f.status = statusKeep || f.status = statusKeepalive)
    | .eof, _ | .readFailed _, _ => false
    | .awaited none, .recordUpload f entry first => f.sessionId ≠ id || (overrideError f entry first).isNone
    | .awaited (some _), .recordUpload _ _ _ => false
    | .awaited (some _), .send f _ _ => f.sessionId ≠ id
    | .task g' .take, _ => g' ≠ g
    | _, _ => true) = true

instance (id : UInt16) (g : ℕ) (s : Server) (ev : Event) : Decidable (Spares id g s ev) :=
  inferInstanceAs (Decidable (_ = true))

def failures (s : Server) (id : UInt16) : ℕ := s.log.countP (· = .failed id)

/-- The end frames with an error that the loop has written. -/
def answers (s : Server) (id : UInt16) : ℕ := s.log.countP (· = .ended none id true)

def answering (s : Server) (id : UInt16) : Bool := match s.loop with
  | .shutdown (.answer id') | .writeEnd id' true => id' = id
  | _ => false

def Balanced (s : Server) : Prop := ∀ id, s.failures id = s.answers id + if s.answering id then 1 else 0

theorem Balanced.keeps (h : s.Balanced) (hlog : s'.log = s.log) (hloop : s'.answering = s.answering) :
    s'.Balanced := by
  intro id
  unfold failures answers
  rw [hlog, hloop]
  exact h id

theorem closeAll_quiet (s : Server) (result : Outcome Unit) (entries : List SessionEntry) :
    (s.closeAll result entries).log = s.log ∧ (s.closeAll result entries).answering = fun _ => false := by
  induction entries generalizing s with
  | nil => exact ⟨rfl, rfl⟩
  | cons e entries ih =>
    unfold closeAll
    split
    · exact ⟨rfl, rfl⟩
    · exact ih _

theorem Balanced.quiet (h : s.Balanced) (hbefore : s.answering = fun _ => false) (hlog : s'.log = s.log)
    (hafter : s'.answering = fun _ => false) : s'.Balanced :=
  h.keeps hlog (hafter.trans hbefore.symm)

theorem Balanced.close (h : s.Balanced) (hbefore : s.answering = fun _ => false) (result : Outcome Unit) :
    (s.close result).Balanced :=
  h.quiet hbefore (closeAll_quiet ..).1 (closeAll_quiet ..).2

theorem shutdownSession_quiet (s : Server) (id : UInt16) (next : Next) :
    (s.shutdownSession id next).log = s.log ∧
      (s.shutdownSession id next).answering = fun id' => match next with
        | .answer id => id = id'
        | _ => false := by
  unfold shutdownSession shutdown
  split
  · split
    · cases next <;> exact ⟨rfl, rfl⟩
    · cases next <;> exact ⟨rfl, rfl⟩
  · cases next <;> exact ⟨rfl, rfl⟩

theorem Balanced.sendFailed (h : s.Balanced) (hbefore : s.answering = fun _ => false) (f : Frame)
    (error : String) : (s.sendFailed f false error).Balanced := by
  intro id
  have hid := h id
  obtain ⟨hlog, hanswering⟩ := shutdownSession_quiet (s.record (.failed f.sessionId)) f.sessionId
    (.answer f.sessionId)
  unfold failures answers at hid ⊢
  rw [hbefore] at hid
  rw [show s.sendFailed f false error = (s.record (.failed f.sessionId)).shutdownSession f.sessionId
    (.answer f.sessionId) from rfl, hlog, hanswering]
  simp only [record, List.countP_cons, reduceCtorEq, decide_false, Logged.failed.injEq]
  simp only [Bool.false_eq_true, if_false] at hid ⊢
  omega

theorem Balanced.record (h : s.Balanced) {l : Logged} (hl : ∀ id, l ≠ .failed id ∧ l ≠ .ended none id true) :
    (s.record l).Balanced := by
  intro id
  have hfailures : (s.record l).failures id = s.failures id := by
    simp [failures, Server.record, (hl id).1]
  have hanswers : (s.record l).answers id = s.answers id := by
    simp [answers, Server.record, (hl id).2]
  rw [hfailures, hanswers]
  exact h id

theorem Balanced.answer (h : s.Balanced) {hasError : Bool} (hloop : s.loop = .writeEnd id hasError) :
    Balanced { s.record (.ended none id hasError) with loop := .read } := by
  intro id'
  have hid := h id'
  unfold failures answers answering at hid ⊢
  rw [hloop] at hid
  cases hasError <;> simp only [Server.record, List.countP_cons, Logged.ended.injEq, reduceCtorEq, decide_false,
    Bool.false_eq_true, if_false, decide_eq_true_eq, true_and, and_true, and_false] at hid ⊢ <;> omega

theorem Balanced.awaited (h : s.Balanced) {error : Option String} (hcontained : s.Contained (.awaited error))
    (hs : s.awaited error = some s') : s'.Balanced := by
  have hguard := hcontained.2
  unfold Server.awaited at hs
  split at hs
  · rename_i next hloop
    cases hs
    refine h.keeps (by cases next <;> rfl) ?_
    unfold answering
    rw [hloop]
    cases next <;> rfl
  · rename_i hloop
    cases hs
    exact h.quiet (by unfold answering; rw [hloop]) rfl rfl
  · rename_i hloop
    simp [hloop] at hguard
  · rename_i f entry first hloop
    have hbefore : s.answering = fun _ => false := by
      unfold answering
      rw [hloop]
    cases hs
    split
    · exact h.quiet hbefore rfl rfl
    · rename_i error herror
      cases first with
      | true => cases herror
      | false => exact h.sendFailed hbefore f error
  · rename_i hloop
    cases hs
    exact h.close (by unfold answering; rw [hloop]) _
  · rename_i f entry first hloop
    cases hs
    have hrecord : (s.record (.uploaded entry.generation f.payload)).Balanced :=
      h.record fun _ => ⟨fun h => (by cases h), fun h => (by cases h)⟩
    exact hrecord.quiet (by unfold answering; dsimp only [Server.record]; rw [hloop]) rfl rfl
  · rename_i f entry first error hloop
    cases first with
    | true => simp [hloop] at hguard
    | false =>
      cases hs
      exact h.sendFailed (by unfold answering; rw [hloop]) f error
  · rename_i hloop
    cases hs
    exact h.answer hloop
  · rename_i hloop
    simp [hloop] at hguard
  · rename_i hloop
    simp [hloop] at hguard
  · rename_i entries result hloop
    cases hs
    exact h.quiet (by unfold answering; rw [hloop]) (closeAll_quiet ..).1 (closeAll_quiet ..).2
  · cases hs

theorem Balanced.handleFrame (h : s.Balanced) (hbefore : s.answering = fun _ => false) (f : Frame) :
    (s.handleFrame f).Balanced := by
  unfold Server.handleFrame
  split
  · unfold handleNew
    split
    · exact h.close hbefore _
    · exact h.quiet hbefore (shutdownSession_quiet ..).1 (shutdownSession_quiet ..).2
  · split
    · unfold handleKeep
      split
      · split
        · exact h.quiet hbefore rfl rfl
        · exact h.quiet hbefore rfl rfl
      · exact h.quiet hbefore rfl rfl
    · split
      · exact h.quiet hbefore (shutdownSession_quiet ..).1 (shutdownSession_quiet ..).2
      · split
        · exact h.quiet hbefore rfl rfl
        · exact h.close hbefore _

theorem Balanced.act (h : s.Balanced) {t : Task} {ev : TaskEvent} (hs : s.act g t ev = some s') :
    s'.Balanced := by
  cases ev with
  | poll | drop => cases hs
  | suspend =>
    cases hs
    exact h.keeps rfl rfl
  | yield | finish _ =>
    simp only [Server.act] at hs
    split at hs
    · cases hs
      exact h.keeps rfl rfl
    · cases hs
  | relay payload =>
    simp only [Server.act] at hs
    split at hs
    · cases hs
      exact h.record fun _ => ⟨fun h => (by cases h), fun h => by cases h⟩
    · cases hs
  | take =>
    simp only [Server.act] at hs
    split at hs
    · cases hs
      unfold takeOwn
      split <;> exact h.keeps rfl rfl
    · cases hs
  | write ok =>
    simp only [Server.act] at hs
    split at hs
    · cases hs
      split
      · have hset (t' : Task) : (s.setTask g t').Balanced := h.keeps rfl rfl
        exact (hset _).record fun _ => ⟨fun h => (by cases h), fun h => by cases h⟩
      · exact h.keeps rfl rfl
    · cases hs

theorem Balanced.taskStep (h : s.Balanced) {ev : TaskEvent} (hs : s.taskStep g ev = some s') : s'.Balanced := by
  obtain ⟨t, ht, hs⟩ := Option.bind_eq_some_iff.mp hs
  split at hs
  · cases hs
  · split at hs
    · exact h.act hs
    · split at hs
      · split at hs
        · cases hs
        · cases hs
          exact h.keeps rfl rfl
      · split at hs
        · cases hs
          exact h.keeps rfl rfl
        · cases hs
      · cases hs

theorem Balanced.step (h : s.Balanced) {ev : Event} (hcontained : s.Contained ev) (hs : s.step ev = some s') :
    s'.Balanced := by
  have hbefore (hloop : s.loop = .read) : s.answering = fun _ => false := by
    unfold answering
    rw [hloop]
  cases ev with
  | frame f =>
    simp only [Server.step] at hs
    split at hs
    · rename_i hloop
      cases hs
      exact h.handleFrame (hbefore hloop) f
    · cases hs
  | eof | readFailed _ =>
    simp only [Server.step] at hs
    split at hs
    · rename_i hloop
      cases hs
      exact h.close (hbefore hloop) _
    · cases hs
  | awaited error => exact h.awaited hcontained hs
  | insert =>
    simp only [Server.step] at hs
    split at hs
    · rename_i f entry hloop
      have hidle : s.answering = fun _ => false := by
        unfold answering
        rw [hloop]
      cases hs
      unfold insertSession
      split
      · refine h.quiet hidle rfl ?_
        unfold answering
        cases f.hasData <;> rfl
      · have hrecord : (s.record (.refused entry.generation)).Balanced :=
          h.record fun _ => ⟨fun h => (by cases h), fun h => (by cases h)⟩
        exact hrecord.close hidle _
    · cases hs
  | task g ev => exact h.taskStep hs
  | elsewhere =>
    cases hs
    exact h.keeps rfl rfl

end Server

/-! ### The waits of the loop -/

/-- The event ends a wait of the frame loop. -/
def Event.endsWait : Event → Bool
  | .awaited _ | .insert => true
  | _ => false

/-- How many waits can lie between the loop and its next read. -/
def Loop.waits : Loop → ℕ
  | .read | .close _ _ | .returned _ => 0
  | .shutdown .read | .writeEnd _ _ | .send _ _ true => 1
  | .shutdown (.answer _) | .recordUpload _ _ true => 2
  | .insert _ _ | .send _ _ false => 3
  | .openTarget _ _ _ | .recordUpload _ _ false => 4
  | .shutdown (.openTarget _ _) => 5

/-- How many waits lie between the loop and the end frame that answers a failure. -/
def Loop.unanswered : Loop → ℕ
  | .shutdown (.answer _) => 2
  | .writeEnd _ true => 1
  | _ => 0

namespace Server

variable {s s' : Server} {id : UInt16} {e : SessionEntry} {g : ℕ}

theorem act_loop {t : Task} {ev : TaskEvent} (hs : s.act g t ev = some s') : s'.loop = s.loop := by
  cases ev with
  | poll | drop => cases hs
  | suspend =>
    cases hs
    rfl
  | yield | relay _ | finish _ =>
    simp only [act] at hs
    split at hs
    · cases hs
      rfl
    · cases hs
  | take =>
    simp only [act] at hs
    split at hs
    · cases hs
      unfold takeOwn
      split <;> rfl
    · cases hs
  | write ok =>
    simp only [act] at hs
    split at hs
    · cases hs
      split <;> rfl
    · cases hs

theorem taskStep_loop {ev : TaskEvent} (hs : s.taskStep g ev = some s') : s'.loop = s.loop := by
  obtain ⟨t, -, hs⟩ := Option.bind_eq_some_iff.mp hs
  split at hs
  · cases hs
  · split at hs
    · exact act_loop hs
    · split at hs
      · split at hs <;> cases hs
        rfl
      · split at hs <;> cases hs
        rfl
      · cases hs

/-- Away from its read only the end of a wait moves the loop. -/
theorem step_moves {ev : Event} (hwaits : s.loop.waits ≠ 0) (hs : s.step ev = some s') :
    s'.loop = s.loop ∧ ev.endsWait = false ∨ (∃ error, ev = .awaited error ∧ s.awaited error = some s') ∨
      ∃ f entry, ev = .insert ∧ s.loop = .insert f entry ∧ s' = s.insertSession f entry := by
  cases ev with
  | frame _ | eof | readFailed _ =>
    simp only [step] at hs
    split at hs
    · rename_i hloop
      rw [hloop] at hwaits
      exact absurd rfl hwaits
    · cases hs
  | awaited error => exact .inr (.inl ⟨error, rfl, hs⟩)
  | insert =>
    simp only [step] at hs
    split at hs
    · rename_i f entry hloop
      cases hs
      exact .inr (.inr ⟨f, entry, rfl, hloop, rfl⟩)
    · cases hs
  | task g ev => exact .inl ⟨taskStep_loop hs, rfl⟩
  | elsewhere =>
    cases hs
    exact .inl ⟨rfl, rfl⟩

theorem Balanced.answered (h : s.Balanced) (hnone : s.loop.unanswered = 0) (id : UInt16) :
    s.failures id = s.answers id := by
  have hid := h id
  unfold answering at hid
  unfold Loop.unanswered at hnone
  split at hid
  · rename_i hloop
    rw [hloop] at hnone
    cases hnone
  · rename_i hloop
    rw [hloop] at hnone
    cases hnone
  · exact hid

end Server

/-! ### Isolation -/

section
variable {s s' : Server} {e : SessionEntry}

/-- The payload of a frame is on its way to the target of a session that is spared. -/
structure Uploading (f : Frame) (e : SessionEntry) (s : Server) : Prop where
  loop : s.loop = .recordUpload f e false ∨ s.loop = .send f e false

def Loop.unsent : Loop → ℕ
  | .recordUpload _ _ _ => 2
  | .send _ _ _ => 1
  | _ => 0

theorem Uploading.step {f : Frame} {ev : Event} (h : Uploading f e s)
    (htarget : Server.overrideError f e false = none) (hspares : Server.Spares f.sessionId e.generation s ev)
    (hs : s.step ev = some s') :
    .uploaded e.generation f.payload ∈ s'.log ∨
      Uploading f e s' ∧ s'.loop.unsent + (if ev.endsWait then 1 else 0) ≤ s.loop.unsent := by
  have hwaits : s.loop.waits ≠ 0 := by rcases h.loop with hloop | hloop <;> simp [hloop, Loop.waits]
  rcases Server.step_moves hwaits hs with ⟨hloop, hev⟩ | ⟨error, rfl, hend⟩ | ⟨f, entry, rfl, hloop, rfl⟩
  · exact .inr ⟨⟨hloop ▸ h.loop⟩, by rw [hloop, hev]; exact Nat.le_refl _⟩
  · rcases h.loop with hloop | hloop
    · cases error with
      | none =>
        simp only [Server.awaited.eq_def, hloop, htarget] at hend
        cases hend
        exact .inr ⟨⟨.inr rfl⟩, by rw [hloop]; exact Nat.le_refl _⟩
      | some error => simp [Server.Spares, hloop] at hspares
    · cases error with
      | none =>
        simp only [Server.awaited.eq_def, hloop] at hend
        cases hend
        exact .inl List.mem_cons_self
      | some error => simp [Server.Spares, hloop] at hspares
  · rcases h.loop with hloop' | hloop' <;> rw [hloop] at hloop' <;> cases hloop'

end

end Aerion.Vless.MuxSessions
