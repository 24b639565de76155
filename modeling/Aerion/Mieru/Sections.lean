import Aerion.Mieru.PacketServer

/-!
# What the listener's sections touch

A section that handles a segment touches the entry of the session the
segment names and the writer it was given, and nothing else of the sessions
(`JobStep`). Before that the listener only looks datagrams up (`Received`) and
gives each a writer. The tasks in the background keep the fixed parts of
every entry (`Inherits`).
-/

namespace Aerion.Mieru

open Lib Aerion.Net Aerion.Core

def Arrival.id (arrival : Arrival) : UInt32 := arrival.segment.metadata.sessionId

def Job.id (job : Job) : UInt32 := job.segment.metadata.sessionId

namespace Stage

def job : Stage → Option Job
  | .handling job | .opening job | .inserting job _ | .answering job _ | .routing job
  | .closing job | .removing job => some job
  | _ => none

def arrival : Stage → Option Arrival
  | .arrived arrival | .adopting arrival _ => some arrival
  | _ => none

/-- The user that the datagram in process authenticated as, and the session it names. -/
def named (stage : Stage) : Option (MieruUserSecret × UInt32) :=
  (stage.arrival.map fun a => (a.user, a.id)).or (stage.job.map fun j => (j.user, j.id))

def user (stage : Stage) : Option MieruUserSecret := stage.named.map (·.1)

def underlay : Stage → Option (ℕ × MieruUserSecret)
  | .adopting arrival writer => some (writer, arrival.user)
  | stage => stage.job.map fun job => (job.writer, job.user)

theorem named_of_job {stage : Stage} {job : Job} (h : stage.job = some job) :
    stage.named = some (job.user, job.id) := by
  cases stage <;> cases h <;> rfl

theorem underlay_of_job {stage : Stage} {job : Job} (h : stage.job = some job) :
    stage.underlay = some (job.writer, job.user) := by
  cases stage <;> cases h <;> rfl

theorem idle {stage : Stage} (hjob : stage.job = none) (harrival : stage.arrival = none) :
    stage.named = none ∧ stage.underlay = none := by
  cases stage with
  | receiving => exact ⟨rfl, rfl⟩
  | stopped exit => exact ⟨rfl, rfl⟩
  | arrived arrival => cases harrival
  | adopting arrival writer => cases harrival
  | _ => cases hjob

end Stage

namespace Server

/-- Every entry is an earlier one with the same fixed parts. -/
def Inherits (s s' : Server) : Prop :=
  ∀ id e', s'.sessions.lookup id = some e' →
    ∃ e, s.sessions.lookup id = some e ∧ e'.fixed = e.fixed

theorem Inherits.refl (s : Server) : Inherits s s := fun _ e' h => ⟨e', h, rfl⟩

section

variable {s : Server} {id : UInt32} {f : MieruSessionEntry → MieruSessionEntry}

theorem onSession_elsewhere {id' : UInt32} (h : id' ≠ id) :
    (s.onSession id f).sessions.lookup id' = s.sessions.lookup id' := by
  unfold onSession
  split
  · exact AList.lookup_insert_ne h
  · rfl

theorem onSession_inherits (hf : ∀ e, (f e).fixed = e.fixed) : Inherits s (s.onSession id f) := by
  intro id' e' h
  by_cases hid : id' = id
  · subst hid
    unfold onSession at h
    split at h
    · rename_i e he
      rw [AList.lookup_insert, Option.some.injEq] at h
      exact ⟨e, he, h ▸ hf e⟩
    · exact ⟨e', h, rfl⟩
  · rw [onSession_elsewhere hid] at h
    exact ⟨e', h, rfl⟩

theorem onSession_writers : (s.onSession id f).writers = s.writers := by
  unfold onSession; split <;> rfl

theorem onSession_peers : (s.onSession id f).peers = s.peers := by
  unfold onSession; split <;> rfl

theorem onSession_keyCache : (s.onSession id f).keyCache = s.keyCache := by
  unfold onSession; split <;> rfl

theorem onSession_stage : (s.onSession id f).stage = s.stage := by
  unfold onSession; split <;> rfl

theorem drawFrom_length {w : ℕ} : (s.drawFrom w).writers.length = s.writers.length :=
  List.length_modify ..

theorem drawFrom_elsewhere {w w' : ℕ} (h : w' ≠ w) :
    (s.drawFrom w).writers[w']? = s.writers[w']? :=
  List.getElem?_modify_ne _ _ (Ne.symm h)

end

/-! ### Handling a segment -/

structure JobStep (job : Job) (s s' : Server) : Prop where
  elsewhere : ∀ id, id ≠ job.id → s'.sessions.lookup id = s.sessions.lookup id
  named : ∀ e', s'.sessions.lookup job.id = some e' →
    e'.fixed = (true, job.writer, job.user) ∨
      ∃ e, s.sessions.lookup job.id = some e ∧ e'.fixed = e.fixed
  length : s'.writers.length = s.writers.length
  writers : ∀ w, w ≠ job.writer → s'.writers[w]? = s.writers[w]?
  peers : s'.peers = s.peers
  keyCache : s'.keyCache = s.keyCache
  stage : s'.stage.job = some job ∨ s'.stage.job = none
  arrival : s'.stage.arrival = none

section

variable {s : Server} {job : Job}

theorem jobStep_stage {stage : Stage} (h : stage.job = some job ∨ stage.job = none)
    (ha : stage.arrival = none) : JobStep job s { s with stage } where
  elsewhere _ _ := rfl
  named e' he' := .inr ⟨e', he', rfl⟩
  length := rfl
  writers _ _ := rfl
  peers := rfl
  keyCache := rfl
  stage := h
  arrival := ha

theorem jobStep_onSession {f : MieruSessionEntry → MieruSessionEntry} {stage : Stage}
    (hf : ∀ e, (f e).fixed = e.fixed) (h : stage.job = some job ∨ stage.job = none)
    (ha : stage.arrival = none) : JobStep job s { s.onSession job.id f with stage } where
  elsewhere _ hid := onSession_elsewhere hid
  named e' he' := .inr (onSession_inherits hf _ e' he')
  length := congrArg _ onSession_writers
  writers _ _ := congrArg (·[_]?) onSession_writers
  peers := onSession_peers
  keyCache := onSession_keyCache
  stage := h
  arrival := ha

theorem jobStep_insert {entry : MieruSessionEntry} {stage : Stage}
    (hfixed : entry.fixed = (true, job.writer, job.user) ∨
      ∃ e, s.sessions.lookup job.id = some e ∧ entry.fixed = e.fixed)
    (h : stage.job = some job ∨ stage.job = none) (ha : stage.arrival = none) :
    JobStep job s { s with sessions := s.sessions.insert job.id entry, stage } where
  elsewhere _ hid := AList.lookup_insert_ne hid
  named e' he' := by
    rw [AList.lookup_insert, Option.some.injEq] at he'
    exact he' ▸ hfixed
  length := rfl
  writers _ _ := rfl
  peers := rfl
  keyCache := rfl
  stage := h
  arrival := ha

theorem jobStep_draw {stage : Stage} (h : stage.job = some job ∨ stage.job = none)
    (ha : stage.arrival = none) : JobStep job s { s.drawFrom job.writer with stage } where
  elsewhere _ _ := rfl
  named e' he' := .inr ⟨e', he', rfl⟩
  length := drawFrom_length
  writers _ hw := drawFrom_elsewhere hw
  peers := rfl
  keyCache := rfl
  stage := h
  arrival := ha

theorem closeEntry_jobStep : JobStep job s (s.closeEntry job) where
  elsewhere _ hid := AList.lookup_erase_ne hid
  named e' he' := by
    rw [show (s.closeEntry job).sessions.lookup job.id = none from AList.lookup_erase _ _] at he'
    cases he'
  length := rfl
  writers _ _ := rfl
  peers := rfl
  keyCache := rfl
  stage := .inr rfl
  arrival := rfl

theorem handle_jobStep : JobStep job s (s.handle job) := by
  unfold handle
  dsimp only
  split
  · split
    · exact jobStep_stage (.inr rfl) rfl
    split
    · exact jobStep_stage (.inl rfl) rfl
    · exact jobStep_stage (.inl rfl) rfl
  split
  · split
    · exact jobStep_onSession (fun e => e.fixed_send _) (.inl rfl) rfl
    · exact jobStep_stage (.inl rfl) rfl
  split
  · exact jobStep_stage (.inl rfl) rfl
  split
  · exact closeEntry_jobStep
  split
  · exact jobStep_onSession (fun e => e.fixed_send _) (.inr rfl) rfl
  split
  · exact jobStep_stage (.inr rfl) rfl
  · exact jobStep_stage (.inr rfl) rfl

theorem openCore_jobStep : JobStep job s (s.openCore job) := by
  unfold openCore
  split
  · exact { jobStep_stage (.inl rfl) rfl with }
  · exact { jobStep_stage (.inr rfl) rfl with }

theorem insertEntry_jobStep {config : PacketConfig} {session : ActiveSession} :
    JobStep job s (s.insertEntry config job session) :=
  jobStep_insert (.inl rfl) (.inl rfl) rfl

theorem answer_jobStep {outputGone : Bool} : JobStep job s (s.answer job outputGone) := by
  unfold answer
  dsimp only
  split
  · exact jobStep_stage (.inr rfl) rfl
  · exact jobStep_onSession (fun e => e.fixed_send _) (.inl rfl) rfl

theorem routeSegment_jobStep {s' : Server} (h : s.routeSegment job = some s') :
    JobStep job s s' := by
  unfold routeSegment at h
  dsimp only at h
  split at h
  · cases h
    exact jobStep_stage (.inr rfl) rfl
  · rename_i entry hentry
    obtain ⟨routed, hroute, h⟩ := Option.map_eq_some_iff.mp h
    cases routed with
    | ok entry' =>
      subst h
      exact jobStep_insert (.inr ⟨entry, hentry, entry.fixed_route hroute⟩) (.inr rfl) rfl
    | err message | panic =>
      subst h
      exact jobStep_stage (.inr rfl) rfl

theorem writeClose_jobStep {drew : Bool} {written : Except String Unit} :
    JobStep job s (s.writeClose job drew written) := by
  unfold writeClose
  cases drew with
  | true =>
    cases written with
    | ok => exact jobStep_draw (.inl rfl) rfl
    | error message => exact jobStep_draw (.inr rfl) rfl
  | false =>
    cases written with
    | ok => exact jobStep_stage (.inl rfl) rfl
    | error message => exact jobStep_stage (.inr rfl) rfl

theorem advance_cases {config : PacketConfig} {env : Ambient} {s' : Server}
    (h : s.advance config env = some s') :
    (∃ arrival, s.stage = .arrived arrival ∧ s' = s.chooseWriter arrival env.now) ∨
    (∃ arrival writer, s.stage = .adopting arrival writer ∧
      s' = s.adopt arrival writer env.now) ∨
    ∃ job, s.stage.job = some job ∧ JobStep job s s' := by
  unfold advance at h
  cases hstage : s.stage with
  | receiving => simp [hstage] at h
  | stopped exit => simp [hstage] at h
  | arrived arrival =>
    simp only [hstage, Option.some.injEq] at h
    exact .inl ⟨arrival, rfl, h.symm⟩
  | adopting arrival writer =>
    simp only [hstage, Option.some.injEq] at h
    exact .inr (.inl ⟨arrival, writer, rfl, h.symm⟩)
  | handling job =>
    simp only [hstage, Option.some.injEq] at h
    exact .inr (.inr ⟨job, rfl, h ▸ handle_jobStep⟩)
  | opening job =>
    simp only [hstage, Option.some.injEq] at h
    exact .inr (.inr ⟨job, rfl, h ▸ openCore_jobStep⟩)
  | inserting job session =>
    simp only [hstage, Option.some.injEq] at h
    exact .inr (.inr ⟨job, rfl, h ▸ insertEntry_jobStep⟩)
  | answering job session =>
    simp only [hstage, Option.some.injEq] at h
    exact .inr (.inr ⟨job, rfl, h ▸ answer_jobStep⟩)
  | routing job =>
    simp only [hstage] at h
    exact .inr (.inr ⟨job, rfl, routeSegment_jobStep h⟩)
  | closing job =>
    simp only [hstage, Option.some.injEq] at h
    exact .inr (.inr ⟨job, rfl, h ▸ writeClose_jobStep⟩)
  | removing job =>
    simp only [hstage, Option.some.injEq] at h
    exact .inr (.inr ⟨job, rfl, h ▸ closeEntry_jobStep⟩)

end

/-! ### Receiving a datagram -/

/-- Looking a datagram up forgets peers at most, and leaves the sessions and writers alone. -/
structure Looked (s s' : Server) : Prop where
  sessions : s'.sessions = s.sessions
  writers : s'.writers = s.writers
  stage : s'.stage = s.stage
  peers : ∀ a p', s'.peers.lookup a = some p' →
    ∃ p, s.peers.lookup a = some p ∧ p'.user = p.user ∧ p'.writer = p.writer

theorem Looked.trans {s s' s'' : Server} (h : Looked s s') (h' : Looked s' s'') : Looked s s'' where
  sessions := h'.sessions.trans h.sessions
  writers := h'.writers.trans h.writers
  stage := h'.stage.trans h.stage
  peers a p'' hp'' := by
    obtain ⟨p', hp', hu', hw'⟩ := h'.peers a p'' hp''
    obtain ⟨p, hp, hu, hw⟩ := h.peers a p' hp'
    exact ⟨p, hp, hu'.trans hu, hw'.trans hw⟩

section

variable (crypto : Crypto) (config : PacketConfig) (s : Server) (clock : Clock) (keyEpoch : ℕ)
  (peer : SocketAddr) (packet : Bytes)

theorem clean_looked (now : Instant) : Looked s (s.clean now) := by
  unfold clean
  split
  · refine ⟨rfl, rfl, rfl, fun a p hp => ⟨p, (lookup_retain.mp hp).1, rfl, rfl⟩⟩
  · exact ⟨rfl, rfl, rfl, fun a p hp => ⟨p, hp, rfl, rfl⟩⟩

theorem decode_keeps (mandatory : Bool) {user : MieruUserSecret} {writer : ℕ} :
    Stateful.Keeps (fun x : MieruPacketPeer × MieruReplayCache =>
        x.1.user = user ∧ x.1.writer = writer)
      (MieruPacketPeer.decode crypto clock packet keyEpoch mandatory) := by
  refine Stateful.Keeps.bind Stateful.Keeps.get fun _ => ?_
  refine Stateful.Keeps.bind (Stateful.Keeps.lift _) fun _ => ?_
  refine Stateful.Keeps.bind (Stateful.Keeps.lift _) fun _ => ?_
  refine Stateful.Keeps.bind (Stateful.Keeps.lift _) fun _ => ?_
  refine Stateful.Keeps.bind (Stateful.Keeps.lift _) fun _ => ?_
  refine Stateful.Keeps.bind (Stateful.Keeps.zoom fun _ _ h => h) fun _ => ?_
  refine Stateful.Keeps.bind (Stateful.Keeps.zoom fun _ _ h => h) fun _ => ?_
  exact Stateful.Keeps.bind (Stateful.Keeps.update fun _ h => h) fun _ => Stateful.Keeps.pure _

theorem decodeCached_looked :
    Looked s (decodeCached crypto config clock keyEpoch peer packet s).2 := by
  unfold decodeCached
  split
  · exact ⟨rfl, rfl, rfl, fun a p hp => ⟨p, hp, rfl, rfl⟩⟩
  · rename_i cached hcached
    have hkeeps := decode_keeps crypto clock keyEpoch packet config.userHintMandatory
      (cached, s.replay) ⟨rfl, rfl⟩
    refine ⟨rfl, rfl, rfl, fun a p' hp' => ?_⟩
    rw [lookup_insert_ite] at hp'
    split at hp'
    · rename_i ha
      cases hp'
      exact ⟨cached, ha ▸ hcached, hkeeps.1, hkeeps.2⟩
    · exact ⟨p', hp', rfl, rfl⟩

theorem decodeCached_job {job : Job} {s' : Server}
    (h : decodeCached crypto config clock keyEpoch peer packet s = (.ok job, s')) :
    ∃ p, s.peers.lookup peer = some p ∧ job.user = p.user ∧ job.writer = p.writer := by
  unfold decodeCached at h
  split at h
  · cases h
  · rename_i cached hcached
    have hkeeps := decode_keeps crypto clock keyEpoch packet config.userHintMandatory
      (cached, s.replay) ⟨rfl, rfl⟩
    obtain ⟨segment, -, hjob⟩ := Outcome.bind_ok.mp (congrArg Prod.fst h)
    cases hjob
    exact ⟨cached, hcached, hkeeps.1, hkeeps.2⟩

theorem decodeForServer_looked :
    Looked s (decodeForServer crypto config clock keyEpoch peer packet s).2 := by
  have keeps : Stateful.Keeps (fun s' => s'.sessions = s.sessions ∧ s'.writers = s.writers ∧
      s'.stage = s.stage ∧ s'.peers = s.peers)
      (decodeForServer crypto config clock keyEpoch peer packet) := by
    refine Stateful.Keeps.bind (Stateful.Keeps.zoom fun _ _ h => h) fun _ => ?_
    exact Stateful.Keeps.bind (Stateful.Keeps.zoom fun _ _ h => h) fun _ => Stateful.Keeps.pure _
  obtain ⟨hsessions, hwriters, hstage, hpeers⟩ := keeps s ⟨rfl, rfl, rfl, rfl⟩
  exact ⟨hsessions, hwriters, hstage, fun a p hp => ⟨p, hpeers ▸ hp, rfl, rfl⟩⟩

theorem received_cases (source : SocketAddr) :
    ∃ s₁, Looked s s₁ ∧
      (s.received crypto config packet source clock = s₁ ∨
        (∃ exit, s.received crypto config packet source clock = s₁.stop exit) ∨
        (∃ arrival, s.received crypto config packet source clock =
          { s₁ with stage := .arrived arrival }) ∨
        ∃ job a p, s.received crypto config packet source clock =
          { s₁ with stage := .handling job } ∧
          s.peers.lookup a = some p ∧ job.user = p.user ∧ job.writer = p.writer) := by
  unfold received
  split
  · exact ⟨s, ⟨rfl, rfl, rfl, fun a p hp => ⟨p, hp, rfl, rfl⟩⟩, .inr (.inl ⟨_, rfl⟩)⟩
  rename_i secs _
  dsimp only
  have hclean := clean_looked s clock.now
  have hcached := hclean.trans (decodeCached_looked crypto config _ clock (mieruKeyEpoch secs)
    (canonicalizeSocketAddr source) packet)
  split
  · rename_i job s₁ h
    rw [h] at hcached
    obtain ⟨p', hp', hu', hw'⟩ := decodeCached_job _ _ _ _ _ _ _ h
    obtain ⟨p, hp, hu, hw⟩ := hclean.peers _ _ hp'
    exact ⟨s₁, hcached, .inr (.inr (.inr ⟨job, _, p, rfl, hp, hu'.trans hu, hw'.trans hw⟩))⟩
  · rename_i s₁ h
    rw [h] at hcached
    exact ⟨s₁, hcached, .inr (.inl ⟨_, rfl⟩)⟩
  · rename_i s₁ h
    rw [h] at hcached
    have hscan := hcached.trans (decodeForServer_looked crypto config _ clock
      (mieruKeyEpoch secs) (canonicalizeSocketAddr source) packet)
    split
    · rename_i arrival s₂ h₂
      rw [h₂] at hscan
      exact ⟨s₂, hscan, .inr (.inr (.inl ⟨arrival, rfl⟩))⟩
    · rename_i s₂ h₂
      rw [h₂] at hscan
      exact ⟨s₂, hscan, .inr (.inl ⟨_, rfl⟩)⟩
    · rename_i s₂ h₂
      rw [h₂] at hscan
      exact ⟨s₂, hscan, .inl rfl⟩

end

/-! ### The other tasks -/

structure Aside (s s' : Server) : Prop where
  sessions : Inherits s s'
  length : s'.writers.length = s.writers.length
  peers : s'.peers = s.peers
  stage : s'.stage = s.stage

theorem background_aside (crypto : Crypto) (s : Server) (b : Background) :
    Aside s (s.background crypto b) := by
  cases b with
  | session id task =>
    exact ⟨onSession_inherits fun e => e.fixed_act task, congrArg _ onSession_writers,
      onSession_peers, onSession_stage⟩
  | wrote writer => exact ⟨Inherits.refl s, drawFrom_length, rfl, rfl⟩
  | left id =>
    refine ⟨fun id' e' h => ⟨e', ?_, rfl⟩, rfl, rfl, rfl⟩
    have h : (s.sessions.erase id).lookup id' = some e' := h
    rw [lookup_erase_ite] at h
    split at h
    · cases h
    · exact h
  | cleaned => exact ⟨fun id e' h => ⟨e', (lookup_retain.mp h).1, rfl⟩, rfl, rfl, rfl⟩
  | core core | keysUsed clock hashedPassword => exact ⟨Inherits.refl s, rfl, rfl, rfl⟩

end Server

end Aerion.Mieru
