import Aerion.Lib.FinMap
import Aerion.Vless.Mux

/-!
# The sessions of the VLESS mux server

`src/vless_mux.rs` once more, now with the map of sessions and the relay
tasks. The frame loop waits for one thing at a time; an event says how its
wait ends, and the relay tasks act in between. A task acts while it is
polled; an abort drops it at once or, if it is being polled, when it next
suspends. A frame is written in one step.

The generations come from a counter that all connections share; `elsewhere`
is a draw of another connection. `log` is not in the source: the frames of
the server with the relay task that wrote them, the payloads that targets
took, the sessions whose target failed, and the relay tasks whose session was
refused.
-/

namespace Aerion.Vless.MuxSessions

open Lib Net
open Mux (TargetNetwork FrameTarget statusNew statusKeep statusEnd statusKeepalive maxMuxSessions)

inductive Logged where
  | data (generation : ℕ) (id : UInt16) (payload : Bytes)
  | ended (generation : Option ℕ) (id : UInt16) (hasError : Bool)
  | uploaded (generation : ℕ) (payload : Bytes)
  | failed (id : UInt16)
  | refused (generation : ℕ)
  deriving DecidableEq

/-! ### Relay tasks -/

/-- How a relay task came to its end: its session was not in the map, not yet or not any more, or
it wrote the end frame, or failed to. -/
inductive Ending where
  | early
  | withdrawn
  | answered
  | unwritten
  deriving DecidableEq

inductive Phase where
  | starting
  | relaying
  | finishing (hasError : Bool)
  | ending (hasError : Bool)
  | ended (how : Ending)
  | dropped
  deriving DecidableEq

structure Task where
  id : UInt16
  phase : Phase := .starting
  polled : Bool := false
  aborted : Bool := false
  deriving DecidableEq

def Task.over (t : Task) : Bool := match t.phase with
  | .ended _ | .dropped => true
  | _ => false

inductive TaskEvent where
  | poll
  | suspend
  | drop
  /-- `yield_now` -/
  | yield
  | relay (payload : Bytes)
  /-- `relay_tcp_to_client` or `relay_udp_to_client` returns -/
  | finish (hasError : Bool)
  /-- `take_session_if_generation_matches` -/
  | take
  /-- `write_end_frame` returns -/
  | write (ok : Bool)
  deriving DecidableEq

/-! ### The frame loop -/

structure Frame where
  sessionId : UInt16
  status : UInt8
  hasData : Bool
  target : Option FrameTarget
  payload : Bytes

structure SessionEntry where
  generation : ℕ
  network : TargetNetwork
  deriving DecidableEq

inductive Next where
  | read
  | openTarget (f : Frame) (target : FrameTarget)
  | answer (id : UInt16)

/-- Where the frame loop stands. A payload is the first one of its session or not. -/
inductive Loop where
  | read
  | shutdown (next : Next)
  | openTarget (f : Frame) (target : FrameTarget) (generation : ℕ)
  | insert (f : Frame) (entry : SessionEntry)
  | recordUpload (f : Frame) (entry : SessionEntry) (first : Bool)
  | send (f : Frame) (entry : SessionEntry) (first : Bool)
  | writeEnd (id : UInt16) (hasError : Bool)
  | close (entries : List SessionEntry) (result : Outcome Unit)
  | returned (result : Outcome Unit)

structure Server where
  sessions : Map UInt16 SessionEntry := ∅
  tasks : ℕ → Option Task := fun _ => none
  nextGeneration : ℕ := 1
  loop : Loop := .read
  -- the latest first
  log : List Logged := []

inductive Event where
  | frame (f : Frame)
  | eof
  | readFailed (error : String)
  | awaited (error : Option String)
  | insert
  | task (generation : ℕ) (e : TaskEvent)
  | elsewhere

namespace Server

def abort (s : Server) (generation : ℕ) : Server :=
  { s with
    tasks := Function.update s.tasks generation
      ((s.tasks generation).map fun t => { t with aborted := true }) }

def record (s : Server) (l : Logged) : Server := { s with log := l :: s.log }

/-- `close_all_sessions` after it has emptied the map: every session is aborted, and the write half
of a TCP target is waited for. -/
def closeAll (s : Server) (result : Outcome Unit) : List SessionEntry → Server
  | [] => { s with loop := .returned result }
  | e :: entries => match e.network with
    | .tcp => { s.abort e.generation with loop := .close entries result }
    | .udp => (s.abort e.generation).closeAll result entries

/-- `relay_frames` returns, and with it `relay_server`. -/
def close (s : Server) (result : Outcome Unit) : Server :=
  closeAll { s with sessions := ∅ } result (s.sessions.entries.map fun e => e.2)

def proceed (s : Server) : Next → Server
  | .read => { s with loop := .read }
  -- `next_session_generation` comes before the target is opened.
  | .openTarget f target =>
    { s with nextGeneration := s.nextGeneration + 1, loop := .openTarget f target s.nextGeneration }
  | .answer id => { s with loop := .writeEnd id true }

def shutdown (s : Server) (e : SessionEntry) (next : Next) : Server := match e.network with
  | .tcp => { s.abort e.generation with loop := .shutdown next }
  | .udp => (s.abort e.generation).proceed next

/-- `take_session` and `shutdown` of what was taken. -/
def shutdownSession (s : Server) (id : UInt16) (next : Next) : Server :=
  match s.sessions.lookup id with
  | some e => shutdown { s with sessions := s.sessions.erase id } e next
  | none => s.proceed next

def handleNew (s : Server) (f : Frame) : Server :=
  match f.target with
  | none => s.close (.err "mux new frame is missing its destination")
  | some target => s.shutdownSession f.sessionId (.openTarget f target)

def handleKeep (s : Server) (f : Frame) : Server :=
  if f.hasData then
    match s.sessions.lookup f.sessionId with
    | some e => { s with loop := .recordUpload f e false }
    | none => { s with loop := .writeEnd f.sessionId false }
  else { s with loop := .read }

def handleFrame (s : Server) (f : Frame) : Server :=
  if f.status = statusNew then s.handleNew f
  else if f.status = statusKeep then s.handleKeep f
  else if f.status = statusEnd then s.shutdownSession f.sessionId .read
  else if f.status = statusKeepalive then { s with loop := .read }
  else s.close (.err ("unsupported mux status " ++ hexText f.status.toNat))

def insertSession (s : Server) (f : Frame) (entry : SessionEntry) : Server :=
  if s.sessions.entries.length < maxMuxSessions ∨ f.sessionId ∈ s.sessions then
    { s with
      sessions := s.sessions.insert f.sessionId entry
      loop := if f.hasData then .recordUpload f entry true else .read }
  else (s.record (.refused entry.generation)).close (.err s!"VLESS mux session count exceeds {maxMuxSessions}")

/-- The checks of `send_frame_to_session`; the target of a first payload is not passed to it. -/
def overrideError (f : Frame) (entry : SessionEntry) (first : Bool) : Option String :=
  if first then none
  else match f.target, entry.network with
    | none, _ => none
    | some _, .tcp => some "mux TCP session does not accept per-frame target overrides"
    | some target, .udp =>
      if target.network = .udp then none else some "mux UDP session received a non-UDP target override"

def sendFailed (s : Server) (f : Frame) (first : Bool) (error : String) : Server :=
  let s := s.record (.failed f.sessionId)
  if first then s.close (.err error) else s.shutdownSession f.sessionId (.answer f.sessionId)

def awaited (s : Server) (error : Option String) : Option Server :=
  match s.loop, error with
  | .shutdown next, _ => some (s.proceed next)
  | .openTarget f target generation, none => some
      { s with
        tasks := Function.update s.tasks generation (some { id := f.sessionId })
        loop := .insert f ⟨generation, target.network⟩ }
  | .openTarget f _ _, some e => some ((s.record (.failed f.sessionId)).close (.err e))
  | .recordUpload f entry first, none => some (match overrideError f entry first with
      | none => { s with loop := .send f entry first }
      | some e => s.sendFailed f first e)
  | .recordUpload _ _ _, some e => some (s.close (.err e))
  | .send f entry _, none => some { s.record (.uploaded entry.generation f.payload) with loop := .read }
  | .send f _ first, some e => some (s.sendFailed f first e)
  | .writeEnd id hasError, none => some { s.record (.ended none id hasError) with loop := .read }
  -- The result of the end frame that answers a failure is ignored.
  | .writeEnd _ true, some _ => some { s with loop := .read }
  | .writeEnd _ false, some e => some (s.close (.err e))
  | .close entries result, _ => some (s.closeAll result entries)
  | _, _ => none

/-! ### Steps -/

def setTask (s : Server) (generation : ℕ) (t : Task) : Server :=
  { s with tasks := Function.update s.tasks generation (some t) }

/-- The loop stands between the spawn of a relay task and the insertion of its session. -/
def inserting (s : Server) (generation : ℕ) : Bool := match s.loop with
  | .insert _ entry => entry.generation = generation
  | _ => false

def takeOwn (s : Server) (generation : ℕ) (t : Task) (hasError : Bool) : Server :=
  if (s.sessions.lookup t.id).any fun e => e.generation = generation then
    { s.setTask generation { t with phase := .ending hasError } with sessions := s.sessions.erase t.id }
  else s.setTask generation
    { t with phase := .ended (if s.inserting generation then .early else .withdrawn), polled := false }

def act (s : Server) (generation : ℕ) (t : Task) : TaskEvent → Option Server
  | .suspend => some (s.setTask generation { t with polled := false })
  | .yield => match t.phase with
    | .starting => some (s.setTask generation { t with phase := .relaying, polled := false })
    | _ => none
  | .relay payload => match t.phase with
    | .relaying => some (s.record (.data generation t.id payload))
    | _ => none
  | .finish hasError => match t.phase with
    | .relaying => some (s.setTask generation { t with phase := .finishing hasError })
    | _ => none
  | .take => match t.phase with
    | .finishing hasError => some (s.takeOwn generation t hasError)
    | _ => none
  | .write ok => match t.phase with
    | .ending hasError => some
        (if ok then (s.setTask generation { t with phase := .ended .answered, polled := false }).record
            (.ended (some generation) t.id hasError)
          else s.setTask generation { t with phase := .ended .unwritten, polled := false })
    | _ => none
  | .poll | .drop => none

def taskStep (s : Server) (generation : ℕ) (e : TaskEvent) : Option Server :=
  (s.tasks generation).bind fun t =>
    if t.over then none
    else if t.polled then s.act generation t e
    else match e with
      | .poll => if t.aborted then none else some (s.setTask generation { t with polled := true })
      | .drop => if t.aborted then some (s.setTask generation { t with phase := .dropped }) else none
      | _ => none

def step (s : Server) : Event → Option Server
  | .frame f => match s.loop with
    | .read => some (s.handleFrame f)
    | _ => none
  | .eof => match s.loop with
    | .read => some (s.close (.ok ()))
    | _ => none
  | .readFailed error => match s.loop with
    | .read => some (s.close (.err error))
    | _ => none
  | .awaited error => s.awaited error
  | .insert => match s.loop with
    | .insert f entry => some (s.insertSession f entry)
    | _ => none
  | .task generation e => s.taskStep generation e
  | .elsewhere => some { s with nextGeneration := s.nextGeneration + 1 }

end Server

/-! ### Where a relay task is known -/

def Phase.held : Phase → Bool
  | .starting | .relaying | .finishing _ | .ended .early => true
  | _ => false

def Logged.isEndOf (generation : ℕ) : Logged → Bool
  | .ended (some g) _ _ => g = generation
  | _ => false

namespace Server

def Holds (s : Server) (id : UInt16) (generation : ℕ) : Prop :=
  ∃ t, s.tasks generation = some t ∧ t.id = id ∧ t.aborted = false ∧ t.phase.held = true

/-- The task is gone, or its session was refused, or it was aborted, or is about to write its end
frame, or its session is in the map. -/
def Placed (s : Server) (generation : ℕ) (t : Task) : Prop :=
  (t.over = true ∨ .refused generation ∈ s.log) ∨ t.aborted = true ∨ (∃ hasError, t.phase = .ending hasError) ∨
    ∃ e, s.sessions.lookup t.id = some e ∧ e.generation = generation

def ends (s : Server) (generation : ℕ) : ℕ := s.log.countP (·.isEndOf generation)

def answered (s : Server) (generation : ℕ) : Bool :=
  (s.tasks generation).any fun t => t.phase = .ended .answered

/-- Every task is placed but those that the loop itself holds. -/
structure Base (s : Server) (excused : ℕ → Prop) : Prop where
  drawn : ∀ g t, s.tasks g = some t → g < s.nextGeneration
  entries : ∀ id e, s.sessions.lookup id = some e → s.Holds id e.generation
  placed : ∀ g t, s.tasks g = some t → s.Placed g t ∨ excused g
  ends : ∀ g, s.ends g = if s.answered g then 1 else 0

variable {s s' : Server} {excused excused' : ℕ → Prop} {id : UInt16} {e : SessionEntry} {g : ℕ}

theorem Base.keeps (h : s.Base excused) (hsessions : s'.sessions = s.sessions) (htasks : s'.tasks = s.tasks)
    (hnext : s.nextGeneration ≤ s'.nextGeneration) (hlog : s.log ⊆ s'.log) (hends : s'.ends = s.ends)
    (hexcused : ∀ g, excused g → excused' g) : s'.Base excused' where
  drawn g t ht := Nat.lt_of_lt_of_le (h.drawn g t (htasks ▸ ht)) hnext
  entries id e he := by
    unfold Holds
    rw [htasks]
    exact h.entries id e (hsessions ▸ he)
  placed g t ht := by
    refine Or.imp (fun hplaced => ?_) (hexcused g) (h.placed g t (htasks ▸ ht))
    unfold Placed
    rw [hsessions]
    exact hplaced.imp_left (Or.imp_right fun hrefused => hlog hrefused)
  ends g := by
    unfold answered
    rw [hends, htasks]
    exact h.ends g

theorem Base.moves (h : s.Base excused) {loop : Loop} (hexcused : ∀ g, excused g → excused' g) :
    ({ s with loop } : Server).Base excused' :=
  h.keeps rfl rfl le_rfl (List.Subset.refl _) rfl hexcused

theorem record_ends (s : Server) (l : Logged) (h : ∀ g, l.isEndOf g = false) : (s.record l).ends = s.ends := by
  funext g
  simp [Server.ends, record, h g]

theorem Base.entry_unique (h : s.Base excused) {id' : UInt16} {e' : SessionEntry}
    (he : s.sessions.lookup id = some e) (he' : s.sessions.lookup id' = some e')
    (hsame : e.generation = e'.generation) : id = id' := by
  obtain ⟨t, ht, hid, -⟩ := h.entries id e he
  obtain ⟨t', ht', hid', -⟩ := h.entries id' e' he'
  rw [← hsame, ht] at ht'
  cases ht'
  exact hid.symm.trans hid'

theorem Base.erase (h : s.Base excused) (he : s.sessions.lookup id = some e) :
    Base { s with sessions := s.sessions.erase id } fun g => excused g ∨ g = e.generation where
  drawn := h.drawn
  entries id' e' he' := by
    rw [lookup_erase_ite] at he'
    split at he'
    · cases he'
    · exact h.entries id' e' he'
  placed g t ht := by
    rcases h.placed g t ht with (hover | haborted | hending | ⟨e', he', hg⟩) | hex
    · exact .inl (.inl hover)
    · exact .inl (.inr (.inl haborted))
    · exact .inl (.inr (.inr (.inl hending)))
    · by_cases hid : t.id = id
      · rw [hid, he] at he'
        cases he'
        exact .inr (.inr hg.symm)
      · exact .inl (.inr (.inr (.inr ⟨e', by rw [lookup_erase_ite, if_neg hid]; exact he', hg⟩)))
    · exact .inr (.inl hex)
  ends := h.ends

theorem abort_tasks (s : Server) (g g' : ℕ) :
    (s.abort g).tasks g' = (s.tasks g').map fun t => if g' = g then { t with aborted := true } else t := by
  by_cases h : g' = g
  · simp only [abort, h, Function.update_self, if_true]
  · simp only [abort, h, Function.update_of_ne, ne_eq, not_false_eq_true, if_false, Option.map_id']

theorem Base.abort (h : s.Base fun g' => excused g' ∨ g' = g)
    (hfree : ∀ id e, s.sessions.lookup id = some e → e.generation ≠ g) : (s.abort g).Base excused where
  drawn g' t ht := by
    rw [abort_tasks] at ht
    obtain ⟨t₀, ht₀, -⟩ := Option.map_eq_some_iff.mp ht
    exact h.drawn g' t₀ ht₀
  entries id e he := by
    obtain ⟨t, ht, hheld⟩ := h.entries id e he
    exact ⟨t, by rw [abort_tasks, ht, Option.map_some, if_neg (hfree id e he)], hheld⟩
  placed g' t ht := by
    rw [abort_tasks] at ht
    obtain ⟨t₀, ht₀, rfl⟩ := Option.map_eq_some_iff.mp ht
    by_cases hg : g' = g
    · rw [if_pos hg]
      exact .inl (.inr (.inl rfl))
    · rw [if_neg hg]
      rcases h.placed g' t₀ ht₀ with hplaced | hex | heq
      · exact .inl hplaced
      · exact .inr hex
      · exact absurd heq hg
  ends g' := by
    have hsame : (s.abort g).answered g' = s.answered g' := by
      unfold answered
      rw [abort_tasks]
      cases s.tasks g' with
      | none => rfl
      | some t => by_cases hg : g' = g <;> simp [hg]
    rw [hsame]
    exact h.ends g'

/-! ### The frame loop keeps track -/

/-- The tasks the loop itself holds: the one whose session it is about to insert, or those that it
has taken out of the map to abort them. -/
def inHand (s : Server) (g : ℕ) : Prop := match s.loop with
  | .insert _ e => e.generation = g
  | .close entries _ => ∃ e ∈ entries, e.generation = g
  | _ => False

/-- What the loop relies on where it stands. -/
def LoopOk (s : Server) : Prop := match s.loop with
  | .shutdown (.openTarget f _) => s.sessions.lookup f.sessionId = none
  | .openTarget f _ g => s.sessions.lookup f.sessionId = none ∧ s.tasks g = none ∧ g < s.nextGeneration
  | .insert f e => s.sessions.lookup f.sessionId = none ∧ s.Holds f.sessionId e.generation
  | .close _ _ | .returned _ => s.sessions = ∅
  | _ => True

structure Tracked (s : Server) : Prop where
  base : s.Base s.inHand
  loop : s.LoopOk

theorem Base.closeAll {entries : List SessionEntry} (result : Outcome Unit)
    (h : s.Base fun g => ∃ e ∈ entries, e.generation = g) (hempty : s.sessions = ∅) :
    (s.closeAll result entries).Tracked := by
  induction entries generalizing s with
  | nil =>
    refine ⟨h.moves ?_, hempty⟩
    rintro g ⟨e, he, -⟩
    cases he
  | cons e entries ih =>
    have hfree : ∀ id e', s.sessions.lookup id = some e' → e'.generation ≠ e.generation := by
      intro id e' he'
      rw [hempty] at he'
      cases he'
    have hrest : (s.abort e.generation).Base fun g => ∃ e ∈ entries, e.generation = g := by
      refine (h.moves ?_).abort hfree
      rintro g ⟨e', he', rfl⟩
      rcases List.mem_cons.mp he' with rfl | he'
      · exact .inr rfl
      · exact .inl ⟨e', he', rfl⟩
    unfold Server.closeAll
    split
    · exact ⟨hrest.moves fun _ hg => hg, hempty⟩
    · exact ih hrest hempty

theorem Base.close (h : s.Base fun _ => False) (result : Outcome Unit) : (s.close result).Tracked := by
  refine Base.closeAll result ?_ rfl
  refine ⟨h.drawn, nofun, fun g t ht => ?_, h.ends⟩
  rcases h.placed g t ht with (hover | haborted | hending | ⟨e, he, hg⟩) | hex
  · exact .inl (.inl hover)
  · exact .inl (.inr (.inl haborted))
  · exact .inl (.inr (.inr (.inl hending)))
  · exact .inr ⟨e, List.mem_map.mpr ⟨⟨t.id, e⟩, mem_entries.mpr he, rfl⟩, hg⟩
  · exact hex.elim

theorem Base.proceed (h : s.Base fun _ => False) {next : Next}
    (hvacant : ∀ f target, next = .openTarget f target → s.sessions.lookup f.sessionId = none) :
    (s.proceed next).Tracked := by
  cases next with
  | read => exact ⟨h.moves fun _ hg => hg, trivial⟩
  | openTarget f target =>
    refine ⟨h.keeps rfl rfl (Nat.le_succ _) (List.Subset.refl _) rfl fun _ hg => hg,
      hvacant f target rfl, ?_, Nat.lt_succ_self _⟩
    by_contra hne
    obtain ⟨t, ht⟩ := Option.ne_none_iff_exists'.mp hne
    exact Nat.lt_irrefl _ (h.drawn _ t ht)
  | answer id => exact ⟨h.moves fun _ hg => hg, trivial⟩

theorem Base.shutdownSession (h : s.Base fun _ => False) {next : Next}
    (hvacant : ∀ f target, next = .openTarget f target → f.sessionId = id) :
    (s.shutdownSession id next).Tracked := by
  unfold Server.shutdownSession
  split
  · rename_i e he
    have hgone : (s.sessions.erase id).lookup id = none := AList.lookup_erase ..
    have hfree : ∀ id' e', (s.sessions.erase id).lookup id' = some e' → e'.generation ≠ e.generation := by
      intro id' e' he' hsame
      rw [lookup_erase_ite] at he'
      split at he'
      · cases he'
      · rename_i hne
        exact hne (h.entry_unique he' he hsame)
    have hbase := (h.erase he).abort hfree
    unfold Server.shutdown
    split
    · refine ⟨hbase.moves fun _ hg => hg, ?_⟩
      cases next with
      | read | answer _ => trivial
      | openTarget f target => exact (hvacant f target rfl).symm ▸ hgone
    · refine hbase.proceed fun f target hnext => ?_
      rw [hvacant f target hnext]
      exact hgone
  · rename_i hnone
    refine h.proceed fun f target hnext => ?_
    rw [hvacant f target hnext]
    exact hnone

theorem Tracked.idle (h : s.Tracked) (hloop : ∀ g, ¬s.inHand g) : s.Base fun _ => False :=
  h.base.moves hloop

theorem Tracked.handleFrame (h : s.Tracked) (hloop : s.loop = .read) (f : Frame) : (s.handleFrame f).Tracked := by
  have hbase : s.Base fun _ => False := h.idle fun g hg => by
    rw [inHand, hloop] at hg
    exact hg
  unfold Server.handleFrame
  split
  · unfold Server.handleNew
    split
    · exact hbase.close _
    · exact hbase.shutdownSession fun f' target hnext => by cases hnext; rfl
  · split
    · unfold Server.handleKeep
      split
      · split
        · exact ⟨hbase.moves fun _ hg => hg, trivial⟩
        · exact ⟨hbase.moves fun _ hg => hg, trivial⟩
      · exact ⟨hbase.moves fun _ hg => hg, trivial⟩
    · split
      · exact hbase.shutdownSession fun _ _ hnext => nomatch hnext
      · split
        · exact ⟨hbase.moves fun _ hg => hg, trivial⟩
        · exact hbase.close _

theorem Tracked.insertSession (h : s.Tracked) {f : Frame} (hloop : s.loop = .insert f e) :
    (s.insertSession f e).Tracked := by
  have hok := h.loop
  rw [LoopOk, hloop] at hok
  obtain ⟨hvacant, hholds⟩ := hok
  have hbase : Base { s with
      sessions := s.sessions.insert f.sessionId e
      loop := if f.hasData then .recordUpload f e true else .read } fun _ => False := by
    refine ⟨h.base.drawn, fun id' e' he' => ?_, fun g t ht => ?_, h.base.ends⟩
    · rw [lookup_insert_ite] at he'
      split at he'
      · rename_i heq
        cases he'
        subst heq
        exact hholds
      · exact h.base.entries id' e' he'
    · rcases h.base.placed g t ht with (hover | haborted | hending | ⟨e', he', hg⟩) | hex
      · exact .inl (.inl hover)
      · exact .inl (.inr (.inl haborted))
      · exact .inl (.inr (.inr (.inl hending)))
      · refine .inl (.inr (.inr (.inr ⟨e', ?_, hg⟩)))
        rw [lookup_insert_ite, if_neg]
        · exact he'
        · intro hid
          rw [hid, hvacant] at he'
          cases he'
      · rw [inHand, hloop] at hex
        subst hex
        obtain ⟨t', ht', hid, -⟩ := hholds
        cases ht.symm.trans ht'
        exact .inl (.inr (.inr (.inr ⟨e, by rw [hid, lookup_insert_ite, if_pos rfl], rfl⟩)))
  have hrefused : (s.record (.refused e.generation)).Base fun _ => False := by
    refine ⟨h.base.drawn, h.base.entries, fun g t ht => .inl ?_, fun g => ?_⟩
    · rcases h.base.placed g t ht with hplaced | hex
      · exact hplaced.imp_left (Or.imp_right (List.mem_cons_of_mem _))
      · rw [inHand, hloop] at hex
        exact .inl (.inr (hex ▸ List.mem_cons_self))
    · rw [record_ends s _ fun _ => rfl]
      exact h.base.ends g
  unfold Server.insertSession
  split
  swap
  · exact hrefused.close _
  refine ⟨hbase.moves fun _ hg => hg.elim, ?_⟩
  unfold LoopOk
  dsimp only
  cases f.hasData <;> trivial

theorem Tracked.spawn (h : s.Tracked) {f : Frame} {target : FrameTarget}
    (hloop : s.loop = .openTarget f target g) :
    Tracked { s with
      tasks := Function.update s.tasks g (some { id := f.sessionId })
      loop := .insert f ⟨g, target.network⟩ } := by
  have hok := h.loop
  rw [LoopOk, hloop] at hok
  obtain ⟨hvacant, hnone, hdrawn⟩ := hok
  have hother {g' : ℕ} (hg : g' ≠ g) :
      Function.update s.tasks g (some ({ id := f.sessionId } : Task)) g' = s.tasks g' :=
    Function.update_of_ne hg ..
  refine ⟨⟨fun g' t ht => ?_, fun id e he => ?_, fun g' t ht => ?_, fun g' => ?_⟩, hvacant,
    { id := f.sessionId }, Function.update_self .., rfl, rfl, rfl⟩
  · by_cases hg : g' = g
    · exact hg ▸ hdrawn
    · exact h.base.drawn g' t ((hother hg).symm.trans ht)
  · obtain ⟨t, ht, hheld⟩ := h.base.entries id e he
    refine ⟨t, (hother ?_).trans ht, hheld⟩
    rintro heq
    rw [heq, hnone] at ht
    cases ht
  · by_cases hg : g' = g
    · exact .inr hg.symm
    · refine (h.base.placed g' t ((hother hg).symm.trans ht)).imp_right fun hex => ?_
      rw [inHand, hloop] at hex
      exact hex.elim
  · refine (h.base.ends g').trans ?_
    unfold answered
    by_cases hg : g' = g
    · subst hg
      simp [hnone]
    · simp [hg]

theorem Base.record (h : s.Base excused) {l : Logged} (hl : ∀ g, l.isEndOf g = false) :
    (s.record l).Base excused :=
  h.keeps rfl rfl le_rfl (List.subset_cons_self _ _) (record_ends s l hl) fun _ hg => hg

theorem Base.sendFailed (h : s.Base fun _ => False) (f : Frame) (first : Bool) (error : String) :
    (s.sendFailed f first error).Tracked := by
  have hrecord : (s.record (.failed f.sessionId)).Base fun _ => False := h.record fun _ => rfl
  unfold Server.sendFailed
  dsimp only
  split
  · exact hrecord.close _
  · exact hrecord.shutdownSession fun _ _ hnext => nomatch hnext

theorem Tracked.awaited (h : s.Tracked) {error : Option String} (hs : s.awaited error = some s') : s'.Tracked := by
  have hidle := h.idle
  have hok := h.loop
  unfold inHand at hidle
  unfold LoopOk at hok
  unfold Server.awaited at hs
  split at hs
  · rename_i next hloop
    cases hs
    simp only [hloop] at hidle hok
    refine (hidle fun _ => id).proceed fun f target hnext => ?_
    subst hnext
    exact hok
  · rename_i f target generation hloop
    cases hs
    exact h.spawn hloop
  · rename_i f target generation error hloop
    cases hs
    simp only [hloop] at hidle
    have hrecord : (s.record (.failed f.sessionId)).Base fun _ => False := (hidle fun _ => id).record fun _ => rfl
    exact hrecord.close _
  · rename_i f entry first hloop
    cases hs
    simp only [hloop] at hidle
    split
    · exact ⟨(hidle fun _ => id).moves fun _ => id, trivial⟩
    · exact (hidle fun _ => id).sendFailed f first _
  · rename_i f entry first error hloop
    cases hs
    simp only [hloop] at hidle
    exact (hidle fun _ => id).close _
  · rename_i f entry first hloop
    cases hs
    simp only [hloop] at hidle
    exact ⟨((hidle fun _ => id).record fun _ => rfl).moves fun _ => id, trivial⟩
  · rename_i f entry first error hloop
    cases hs
    simp only [hloop] at hidle
    exact (hidle fun _ => id).sendFailed f first error
  · rename_i id' hasError hloop
    cases hs
    simp only [hloop] at hidle
    exact ⟨((hidle fun _ => id).record fun _ => rfl).moves fun _ => id, trivial⟩
  · rename_i id' error hloop
    cases hs
    simp only [hloop] at hidle
    exact ⟨(hidle fun _ => id).moves fun _ => id, trivial⟩
  · rename_i id' error hloop
    cases hs
    simp only [hloop] at hidle
    exact (hidle fun _ => id).close _
  · rename_i entries result hloop
    cases hs
    simp only [hloop] at hok
    have hbase := h.base
    unfold inHand at hbase
    simp only [hloop] at hbase
    exact hbase.closeAll result hok
  · cases hs

/-! ### Relay tasks keep track -/

variable {t t' : Task}

theorem Base.setTask (h : s.Base excused) (log : List Logged) (ht : s.tasks g = some t) (hid : t'.id = t.id)
    (haborted : t'.aborted = t.aborted)
    (hheld : ∀ id e, s.sessions.lookup id = some e → e.generation = g → t'.phase.held = true)
    (hplaced : s.Placed g t ∨ excused g → s.Placed g t' ∨ excused' g)
    (hrest : ∀ g', g' ≠ g → excused g' → excused' g')
    (hlog : s.log ⊆ log)
    (hends : ∀ g', log.countP (·.isEndOf g') = if (s.setTask g t').answered g' then 1 else 0) :
    Base { s.setTask g t' with log := log } excused' := by
  have hkept {g' : ℕ} {u : Task} (hu : s.Placed g' u) : Placed { s.setTask g t' with log := log } g' u :=
    hu.imp_left (Or.imp_right fun hrefused => hlog hrefused)
  have hself : (s.setTask g t').tasks g = some t' := Function.update_self ..
  have hother {g' : ℕ} (hg : g' ≠ g) : (s.setTask g t').tasks g' = s.tasks g' := Function.update_of_ne hg ..
  refine ⟨fun g' u hu => ?_, fun id e he => ?_, fun g' u hu => ?_, hends⟩
  · by_cases hg : g' = g
    · exact hg ▸ h.drawn g t ht
    · exact h.drawn g' u ((hother hg).symm.trans hu)
  · obtain ⟨u, hu, huid, hualive, huheld⟩ := h.entries id e he
    by_cases hg : e.generation = g
    · rw [hg] at hu ⊢
      cases hu.symm.trans ht
      exact ⟨t', hself, hid.trans huid, haborted.trans hualive, hheld id e he hg⟩
    · exact ⟨u, (hother hg).trans hu, huid, hualive, huheld⟩
  · by_cases hg : g' = g
    · subst hg
      cases hself.symm.trans hu
      exact (hplaced (h.placed g' t ht)).imp_left hkept
    · exact (h.placed g' u ((hother hg).symm.trans hu)).imp hkept (hrest g' hg)

theorem LoopOk.setTask (h : s.LoopOk) (ht : s.tasks g = some t) (hid : t'.id = t.id)
    (haborted : t'.aborted = t.aborted) (hheld : s.inserting g = true → t'.phase.held = true) :
    (s.setTask g t').LoopOk := by
  unfold LoopOk at h ⊢
  unfold inserting at hheld
  dsimp only [Server.setTask]
  split
  · rename_i hloop
    simpa only [hloop] using h
  · rename_i f target g' hloop
    simp only [hloop] at h
    refine ⟨h.1, ?_, h.2.2⟩
    rw [Function.update_of_ne]
    · exact h.2.1
    · rintro rfl
      rw [h.2.1] at ht
      cases ht
  · rename_i f e hloop
    simp only [hloop] at h hheld
    obtain ⟨hvacant, u, hu, huid, hualive, huheld⟩ := h
    refine ⟨hvacant, ?_⟩
    by_cases hg : e.generation = g
    · rw [hg] at hu ⊢
      cases hu.symm.trans ht
      exact ⟨t', Function.update_self .., hid.trans huid, haborted.trans hualive, hheld (decide_eq_true hg)⟩
    · exact ⟨u, (Function.update_of_ne hg ..).trans hu, huid, hualive, huheld⟩
  · rename_i hloop
    simpa only [hloop] using h
  · rename_i hloop
    simpa only [hloop] using h
  · trivial

theorem LoopOk.erase (h : s.LoopOk) (id : UInt16) : LoopOk { s with sessions := s.sessions.erase id } := by
  have hnone {id' : UInt16} (h : s.sessions.lookup id' = none) : (s.sessions.erase id).lookup id' = none := by
    rw [lookup_erase_ite, h, ite_self]
  unfold LoopOk at h ⊢
  dsimp only
  split
  · rename_i hloop
    simp only [hloop] at h
    exact hnone h
  · rename_i hloop
    simp only [hloop] at h
    exact ⟨hnone h.1, h.2⟩
  · rename_i hloop
    simp only [hloop] at h
    exact ⟨hnone h.1, h.2⟩
  · rename_i hloop
    simp only [hloop] at h
    rw [h]
    rfl
  · rename_i hloop
    simp only [hloop] at h
    rw [h]
    rfl
  · trivial

theorem answered_setTask (s : Server) (g : ℕ) (t' : Task) (g' : ℕ) :
    (s.setTask g t').answered g' = if g' = g then decide (t'.phase = .ended .answered) else s.answered g' := by
  unfold answered Server.setTask
  by_cases hg : g' = g
  · simp [hg]
  · simp [hg]

theorem answered_same (ht : s.tasks g = some t)
    (hanswered : t'.phase = .ended .answered ↔ t.phase = .ended .answered) (g' : ℕ) :
    (s.setTask g t').answered g' = s.answered g' := by
  rw [answered_setTask]
  by_cases hg : g' = g
  · rw [if_pos hg, hg]
    simp only [answered, ht, Option.any_some, hanswered]
  · rw [if_neg hg]

theorem Tracked.known (h : s.Tracked) (ht : s.tasks g = some t)
    (hknown : s.inserting g = true ∨ ∃ id e, s.sessions.lookup id = some e ∧ e.generation = g) :
    t.aborted = false ∧ t.phase.held = true := by
  rcases hknown with hinserting | ⟨id, e, he, rfl⟩
  · have hok := h.loop
    unfold inserting at hinserting
    split at hinserting
    · rename_i f e hloop
      rw [LoopOk, hloop] at hok
      obtain ⟨u, hu, -, hualive, huheld⟩ := hok.2
      rw [of_decide_eq_true hinserting] at hu
      cases hu.symm.trans ht
      exact ⟨hualive, huheld⟩
    · cases hinserting
  · obtain ⟨u, hu, -, hualive, huheld⟩ := h.base.entries id e he
    cases hu.symm.trans ht
    exact ⟨hualive, huheld⟩

theorem Tracked.setTask (h : s.Tracked) (ht : s.tasks g = some t) (hid : t'.id = t.id)
    (haborted : t'.aborted = t.aborted)
    (hheld : (s.inserting g = true ∨ ∃ id e, s.sessions.lookup id = some e ∧ e.generation = g) →
      t'.phase.held = true)
    (hplaced : s.Placed g t → s.Placed g t')
    (hanswered : t'.phase = .ended .answered ↔ t.phase = .ended .answered) : (s.setTask g t').Tracked := by
  refine ⟨h.base.setTask s.log ht hid haborted (fun id e he hg => hheld (.inr ⟨id, e, he, hg⟩))
    (fun hp => hp.imp_left hplaced) (fun _ _ hex => hex) (List.Subset.refl _) fun g' => ?_,
    h.loop.setTask ht hid haborted fun hinserting => hheld (.inl hinserting)⟩
  rw [answered_same ht hanswered]
  exact h.base.ends g'

theorem Tracked.relays (h : s.Tracked) (ht : s.tasks g = some t) (hid : t'.id = t.id)
    (haborted : t'.aborted = t.aborted) (hover : t'.over = t.over)
    (hphase : t'.phase = t.phase ∨ t'.phase.held = true ∧ t.phase.held = true) : (s.setTask g t').Tracked := by
  have hheld : t'.phase.held = t.phase.held := by
    rcases hphase with heq | ⟨hnew, hold⟩
    · rw [heq]
    · rw [hnew, hold]
  refine h.setTask ht hid haborted (fun hknown => hheld.trans (h.known ht hknown).2) ?_ ?_
  · rintro (hgone | hgone | ⟨hasError, hending⟩ | hentry)
    · exact .inl (hgone.imp_left hover.trans)
    · exact .inr (.inl (haborted.trans hgone))
    · rcases hphase with heq | ⟨-, hold⟩
      · exact .inr (.inr (.inl ⟨hasError, heq.trans hending⟩))
      · rw [hending] at hold
        cases hold
    · exact .inr (.inr (.inr (by rwa [hid])))
  · rcases hphase with heq | ⟨hnew, hold⟩
    · rw [heq]
    · constructor
      · intro hphase
        rw [hphase] at hnew
        cases hnew
      · intro hphase
        rw [hphase] at hold
        cases hold

theorem Tracked.takeOwn (h : s.Tracked) (ht : s.tasks g = some t) {hasError : Bool}
    (hphase : t.phase = .finishing hasError) : (s.takeOwn g t hasError).Tracked := by
  unfold Server.takeOwn
  split
  · rename_i hown
    obtain ⟨e, he, hg⟩ := (Option.any_eq_true _ _).mp hown
    have hg : e.generation = g := of_decide_eq_true hg
    have hfree : ∀ id e', (s.sessions.erase t.id).lookup id = some e' → e'.generation ≠ g := by
      intro id e' he' hsame
      rw [lookup_erase_ite] at he'
      split at he'
      · cases he'
      · rename_i hne
        exact hne (h.base.entry_unique he' he (hsame.trans hg.symm))
    have hloop : LoopOk { s with sessions := s.sessions.erase t.id } := h.loop.erase t.id
    refine ⟨(h.base.erase he).setTask s.log ht rfl rfl (fun id e' he' hsame => absurd hsame (hfree id e' he'))
      (fun _ => .inl (.inr (.inr (.inl ⟨hasError, rfl⟩))))
      (fun g' hne hex => hex.resolve_right fun heq => hne (heq.trans hg)) (List.Subset.refl _) fun g' => ?_,
      hloop.setTask ht rfl rfl fun hinserting => ?_⟩
    · have hsame : (s.setTask g { t with phase := .ending hasError }).answered g' = s.answered g' :=
        answered_same ht (by simp [hphase]) g'
      exact (h.base.ends g').trans (by rw [← hsame]; rfl)
    · -- The session of a task is in the map only after its insertion.
      have hok := h.loop
      unfold inserting at hinserting
      split at hinserting
      · rename_i f e' hat
        rw [LoopOk, show s.loop = .insert f e' from hat] at hok
        obtain ⟨hvacant, u, hu, huid, -⟩ := hok
        rw [of_decide_eq_true hinserting] at hu
        cases hu.symm.trans ht
        rw [← huid, he] at hvacant
        cases hvacant
      · cases hinserting
  · rename_i hforeign
    refine h.setTask ht rfl rfl ?_ (fun _ => .inl (.inl rfl)) ?_
    · rintro (hinserting | ⟨id, e, he, hg⟩)
      · simp only [hinserting, if_true, Phase.held]
      · obtain ⟨u, hu, huid, -⟩ := h.base.entries id e he
        rw [hg] at hu
        cases hu.symm.trans ht
        exact absurd ((Option.any_eq_true _ _).mpr ⟨e, huid ▸ he, decide_eq_true hg⟩) hforeign
    · rw [hphase]
      split <;> simp

theorem Tracked.answer (h : s.Tracked) (ht : s.tasks g = some t) {hasError : Bool}
    (hphase : t.phase = .ending hasError) (hid : t'.id = t.id) (haborted : t'.aborted = t.aborted)
    (hended : t'.phase = .ended .answered) :
    ((s.setTask g t').record (.ended (some g) t.id hasError)).Tracked := by
  have hunknown : ¬(s.inserting g = true ∨ ∃ id e, s.sessions.lookup id = some e ∧ e.generation = g) := by
    intro hknown
    have hheld := (h.known ht hknown).2
    rw [hphase] at hheld
    cases hheld
  refine ⟨h.base.setTask _ ht hid haborted (fun id e he hg => absurd (.inr ⟨id, e, he, hg⟩) hunknown)
    (fun _ => .inl (.inl (.inl (by simp [Task.over, hended])))) (fun _ _ hex => hex) (List.subset_cons_self _ _)
    fun g' => ?_,
    h.loop.setTask ht hid haborted fun hinserting => absurd (.inl hinserting) hunknown⟩
  have hends := h.base.ends g'
  rw [answered_setTask, List.countP_cons]
  unfold Server.ends at hends
  by_cases hg : g' = g
  · subst hg
    have hbefore : s.answered g' = false := by simp [answered, ht, hphase]
    rw [show (s.setTask g' t').log = s.log from rfl, hends, hbefore]
    simp [Logged.isEndOf, hended]
  · rw [show (s.setTask g t').log = s.log from rfl, hends]
    simp [Logged.isEndOf, hg, Ne.symm hg]

theorem Tracked.act (h : s.Tracked) (ht : s.tasks g = some t) (hover : t.over = false) {e : TaskEvent}
    (hs : s.act g t e = some s') : s'.Tracked := by
  cases e with
  | poll | drop => cases hs
  | suspend =>
    cases hs
    exact h.relays ht rfl rfl rfl (.inl rfl)
  | yield | finish hasError =>
    simp only [Server.act] at hs
    split at hs
    · rename_i hphase
      cases hs
      exact h.relays ht rfl rfl hover.symm (.inr ⟨rfl, by rw [hphase]; rfl⟩)
    · cases hs
  | relay payload =>
    simp only [Server.act] at hs
    split at hs
    · cases hs
      exact ⟨h.base.record fun _ => rfl, h.loop⟩
    · cases hs
  | take =>
    simp only [Server.act] at hs
    split at hs
    · rename_i hasError hphase
      cases hs
      exact h.takeOwn ht hphase
    · cases hs
  | write ok =>
    simp only [Server.act] at hs
    split at hs
    · rename_i hasError hphase
      cases hs
      split
      · exact h.answer ht hphase rfl rfl rfl
      · refine h.setTask ht rfl rfl (fun hknown => ?_) (fun _ => .inl (.inl rfl)) (by simp [hphase])
        have hheld := (h.known ht hknown).2
        rw [hphase] at hheld
        cases hheld
    · cases hs

theorem Tracked.taskStep (h : s.Tracked) {e : TaskEvent} (hs : s.taskStep g e = some s') : s'.Tracked := by
  obtain ⟨t, ht, hs⟩ := Option.bind_eq_some_iff.mp hs
  split at hs
  · cases hs
  · rename_i hover
    have hover : t.over = false := by simpa using hover
    split at hs
    · exact h.act ht hover hs
    · split at hs
      · split at hs
        · cases hs
        · cases hs
          exact h.relays ht rfl rfl rfl (.inl rfl)
      · split at hs
        · rename_i haborted
          cases hs
          refine h.setTask ht rfl rfl (fun hknown => ?_) (fun _ => .inl (.inl rfl)) ?_
          · rw [(h.known ht hknown).1] at haborted
            cases haborted
          · refine iff_of_false nofun fun hphase => ?_
            simp [Task.over, hphase] at hover
        · cases hs
      · cases hs

theorem Tracked.step (h : s.Tracked) {ev : Event} (hs : s.step ev = some s') : s'.Tracked := by
  have hidle (hloop : s.loop = .read) : s.Base fun _ => False := h.idle fun g hg => by
    rw [inHand, hloop] at hg
    exact hg
  cases ev with
  | frame f =>
    simp only [Server.step] at hs
    split at hs
    · rename_i hloop
      cases hs
      exact h.handleFrame hloop f
    · cases hs
  | eof | readFailed error =>
    simp only [Server.step] at hs
    split at hs
    · rename_i hloop
      cases hs
      exact (hidle hloop).close _
    · cases hs
  | awaited error => exact h.awaited hs
  | insert =>
    simp only [Server.step] at hs
    split at hs
    · rename_i f entry hloop
      cases hs
      exact h.insertSession hloop
    · cases hs
  | task g e => exact h.taskStep hs
  | elsewhere =>
    cases hs
    refine ⟨h.base.keeps rfl rfl (Nat.le_succ _) (List.Subset.refl _) rfl fun _ hg => hg, ?_⟩
    have hok := h.loop
    unfold LoopOk at hok ⊢
    dsimp only
    split at hok
    · exact hok
    · exact ⟨hok.1, hok.2.1, Nat.lt_succ_of_lt hok.2.2⟩
    · exact hok
    · exact hok
    · exact hok
    · trivial

end Server

/-! ### Task ownership -/

def newSession (id : UInt16) (network : TargetNetwork) : Frame :=
  ⟨id, statusNew, false, some ⟨network, .ip ⟨.v4 9 9 9 9, 53⟩⟩, []⟩

def closedEarly : List Event :=
  [.frame (newSession 1 .tcp), .awaited none, .task 1 .poll, .task 1 .yield, .task 1 .poll,
    .task 1 (.finish false), .task 1 .take, .insert]

/-- The state after `n` sessions were opened. -/
structure Filled (n : ℕ) (s : Server) : Prop where
  loop : s.loop = .read
  next : s.nextGeneration = n + 1
  count : s.sessions.entries.length = n
  small : ∀ id e, s.sessions.lookup id = some e → id.toNat < n ∧ e.generation ≤ n ∧ e.network = .udp

def Loop.result : Loop → Option (Outcome Unit)
  | .returned result => some result
  | _ => none

end Aerion.Vless.MuxSessions
