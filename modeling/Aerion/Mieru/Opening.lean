import Aerion.Mieru.Isolation

/-!
# Opening a session once

A client repeats its OPEN segment, with a fresh nonce, until it is
acknowledged (`src/mieru.rs`), and the network may deliver any of these
datagrams late. The packet server knows a repeated OPEN by the entry of its
session alone.
-/

namespace Aerion.Mieru.Server

open Lib Aerion.Net Aerion.Core

variable {crypto : Crypto} {config : PacketConfig} {s s' : Server} {id : UInt32}

/-! ### Watching a session id -/

/-- The server, with how often the core has opened a session for some session id and how often a SOCKS handler
was started for it. -/
structure Watched where
  server : Server
  opened : ℕ
  served : ℕ

def opens (id : UInt32) : Stage → Stage → ℕ
  | .opening job, .inserting _ _ => if job.segment.metadata.sessionId = id then 1 else 0
  | _, _ => 0

/-- SOCKS handlers that a step starts for a session id. They are spawned right behind the routing. -/
def serves (id : UInt32) : Stage → Stage → ℕ
  | .answering job _, .routing _ => if job.segment.metadata.sessionId = id then 1 else 0
  | _, _ => 0

def Watched.step (crypto : Crypto) (config : PacketConfig) (id : UInt32) (w : Watched) (event : Event) :
    Option Watched :=
  (Server.step crypto config w.server event).map fun s =>
    ⟨s, w.opened + opens id w.server.stage s.stage, w.served + serves id w.server.stage s.stage⟩

/-- An OPEN of the session that is not the first one is handled while the session's entry is in the map. -/
def Known (id : UInt32) (w : Watched) (_ : Event) : Prop :=
  match w.server.stage with
  | .handling job =>
    job.segment.metadata.protocol = openSessionRequest → job.segment.metadata.sessionId = id →
      w.opened = 0 ∨ id ∈ w.server.sessions
  | _ => True

instance (id : UInt32) (w : Watched) (event : Event) : Decidable (Known id w event) := by
  unfold Known
  split <;> infer_instance

/-! ### Stages of an opening -/

def quiet : Stage → Bool
  | .opening _ | .inserting _ _ | .answering _ _ => false
  | _ => true

inductive Turned (s s' : Server) : Prop where
  | same : s'.stage = s.stage → Turned s s'
  | opening {job : Job} : s.stage = .handling job → job.segment.metadata.protocol = openSessionRequest →
    job.segment.metadata.sessionId ∉ s.sessions → s'.stage = .opening job → Turned s s'
  | inserting {job : Job} {session : ActiveSession} : s.stage = .opening job → s'.stage = .inserting job session →
    Turned s s'
  | answering {job : Job} {session : ActiveSession} : s.stage = .inserting job session →
    s'.stage = .answering job session → Turned s s'
  | routing {job : Job} {session : ActiveSession} : s.stage = .answering job session → s'.stage = .routing job →
    Turned s s'
  | quiet : quiet s'.stage = true →
    (∀ job session, s.stage = .answering job session → ∀ j, s'.stage ≠ .routing j) → Turned s s'

theorem received_turned {packet : Bytes} {source : SocketAddr} {clock : Clock} (h : s.stage = .receiving) :
    Turned s (s.received crypto config packet source clock) := by
  obtain ⟨s₁, hlooked, hcases⟩ := received_cases crypto config s clock packet source
  rcases hcases with heq | ⟨exit, heq⟩ | ⟨arrival, heq⟩ | ⟨job, a, p, heq, -⟩
  · exact .same (by rw [heq, hlooked.stage])
  all_goals
    refine .quiet (by rw [heq]; rfl) fun _ _ hs => ?_
    rw [h] at hs
    cases hs

theorem handle_turned {job : Job} (h : s.stage = .handling job) : Turned s (s.handle job) := by
  have hquiet : ∀ s' : Server, quiet s'.stage = true → Turned s s' := fun s' hs' =>
    .quiet hs' fun _ _ hs => by rw [h] at hs; cases hs
  unfold handle
  dsimp only
  split
  · split
    · exact hquiet _ rfl
    · split
      · exact hquiet _ rfl
      · exact .opening h ‹_› ‹_› rfl
  · refine hquiet _ ?_
    repeat' split
    all_goals rfl

theorem routeSegment_turned {job : Job} (h : s.stage = .routing job) (hstep : s.routeSegment job = some s') :
    Turned s s' := by
  refine .quiet ?_ fun _ _ hs => by rw [h] at hs; cases hs
  unfold routeSegment at hstep
  dsimp only at hstep
  split at hstep
  · cases hstep
    rfl
  · obtain ⟨result, -, hresult⟩ := Option.map_eq_some_iff.mp hstep
    subst hresult
    cases result <;> rfl

theorem advance_turned {env : Ambient} (h : s.advance config env = some s') : Turned s s' := by
  have hquiet : ∀ {t : Server}, (∀ job session, s.stage ≠ .answering job session) → quiet t.stage = true →
      Turned s t := fun hother ht => .quiet ht fun job session hs => absurd hs (hother job session)
  unfold advance at h
  split at h
  · cases h
  · rename_i arrival hs
    cases h
    refine hquiet (fun _ _ h => by rw [hs] at h; cases h) ?_
    unfold chooseWriter
    split <;> rfl
  · rename_i hs
    cases h
    exact hquiet (fun _ _ h => by rw [hs] at h; cases h) rfl
  · rename_i job hs
    cases h
    exact handle_turned hs
  · rename_i job hs
    cases h
    unfold openCore
    split
    · exact .inserting hs rfl
    · exact hquiet (fun _ _ h => by rw [hs] at h; cases h) rfl
  · rename_i hs
    cases h
    exact .answering hs rfl
  · rename_i job session hs
    cases h
    unfold answer
    dsimp only
    split
    · exact .quiet rfl fun _ _ _ _ => nofun
    · exact .routing hs rfl
  · exact routeSegment_turned ‹_› h
  · rename_i hs
    cases h
    refine hquiet (fun _ _ h => by rw [hs] at h; cases h) ?_
    unfold writeClose
    dsimp only
    repeat' split
    all_goals rfl
  · rename_i hs
    cases h
    exact hquiet (fun _ _ h => by rw [hs] at h; cases h) rfl
  · cases h

theorem step_turned {event : Event} (h : step crypto config s event = some s') : Turned s s' := by
  cases event with
  | received packet source clock =>
    dsimp only [step] at h
    split at h
    · cases h
      exact received_turned ‹_›
    · cases h
  | ignored =>
    dsimp only [step] at h
    split at h
    · cases h
      exact .same rfl
    · cases h
  | receiveFailed message =>
    dsimp only [step] at h
    split at h
    · rename_i hs
      cases h
      exact .quiet rfl fun _ _ _ _ => nofun
    · cases h
  | advance env => exact advance_turned h
  | background b =>
    cases h
    exact .same (background_aside crypto s b).stage

/-! ### Once -/

/-- How far an opening of the session has come: a core session to be opened, and a handler to be started for a
core session that has been. -/
structure Once (id : UInt32) (w : Watched) : Prop where
  opened : w.opened ≤ 1
  served : w.served ≤ w.opened
  opening : ∀ job, w.server.stage = .opening job → job.segment.metadata.sessionId = id → w.opened = 0
  inserting : ∀ job session, w.server.stage = .inserting job session → job.segment.metadata.sessionId = id →
    w.served < w.opened
  answering : ∀ job session, w.server.stage = .answering job session → job.segment.metadata.sessionId = id →
    w.served < w.opened

theorem opens_quiet {a b : Stage} (h : quiet b = true) : opens id a b = 0 := by
  unfold opens
  split
  · cases h
  · rfl

theorem serves_other {a b : Stage} (h : ∀ job session, a = .answering job session → ∀ j, b ≠ .routing j) :
    serves id a b = 0 := by
  unfold serves
  split
  · exact absurd rfl (h _ _ rfl _)
  · rfl

theorem opens_self (a : Stage) : opens id a a = 0 := by cases a <;> rfl

theorem serves_self (a : Stage) : serves id a a = 0 := by cases a <;> rfl

theorem Once.step {w w' : Watched} {event : Event} (h : Once id w) (hknown : Known id w event)
    (hstep : w.step crypto config id event = some w') : Once id w' := by
  obtain ⟨s', hs', rfl⟩ := Option.map_eq_some_iff.mp hstep
  have hopened := h.opened
  have hserved := h.served
  cases step_turned hs' with
  | same hsame =>
    rw [hsame, opens_self, serves_self]
    exact ⟨h.opened, h.served, fun job hjob => h.opening job (hsame ▸ hjob),
      fun job session hjob => h.inserting job session (hsame ▸ hjob),
      fun job session hjob => h.answering job session (hsame ▸ hjob)⟩
  | opening hhandling hprotocol hnew hopening =>
    rename_i job
    unfold Known at hknown
    rw [hhandling] at hknown ⊢
    rw [hopening]
    refine ⟨h.opened, h.served, fun job' hjob hid => ?_, fun _ _ hjob => ?_, fun _ _ hjob => ?_⟩
    · cases hopening.symm.trans hjob
      exact (hknown hprotocol hid).resolve_right (hid ▸ hnew)
    all_goals cases hopening.symm.trans hjob
  | inserting hopening hinserting =>
    rename_i job session
    have hzero := h.opening job hopening
    rw [hopening, hinserting]
    refine ⟨?_, Nat.le_trans hserved (Nat.le_add_right _ _), fun _ hjob => ?_, fun job' session' hjob hid => ?_,
      fun _ _ hjob => ?_⟩
    · show w.opened + (if job.segment.metadata.sessionId = id then 1 else 0) ≤ 1
      split
      · rw [hzero ‹_›]
      · exact hopened
    · cases hinserting.symm.trans hjob
    · cases hinserting.symm.trans hjob
      show w.served < w.opened + (if job.segment.metadata.sessionId = id then 1 else 0)
      rw [if_pos hid]
      exact Nat.lt_succ_of_le hserved
    · cases hinserting.symm.trans hjob
  | answering hinserting hanswering =>
    rename_i job session
    have hless := h.inserting job session hinserting
    rw [hinserting, hanswering]
    refine ⟨h.opened, h.served, fun _ hjob => ?_, fun _ _ hjob => ?_, fun job' session' hjob hid => ?_⟩
    · cases hanswering.symm.trans hjob
    · cases hanswering.symm.trans hjob
    · cases hanswering.symm.trans hjob
      exact hless hid
  | routing hanswering hrouting =>
    rename_i job session
    have hless := h.answering job session hanswering
    rw [hanswering, hrouting]
    refine ⟨h.opened, ?_, fun _ hjob => ?_, fun _ _ hjob => ?_, fun _ _ hjob => ?_⟩
    · show w.served + (if job.segment.metadata.sessionId = id then 1 else 0) ≤ w.opened
      split
      · exact hless ‹_›
      · exact h.served
    all_goals cases hrouting.symm.trans hjob
  | quiet hquiet hother =>
    rw [opens_quiet hquiet, serves_other hother]
    refine ⟨h.opened, h.served, fun _ hjob => ?_, fun _ _ hjob => ?_, fun _ _ hjob => ?_⟩
    all_goals
      rw [show s'.stage = _ from hjob] at hquiet
      cases hquiet

theorem once_start (core : CoreInner) (now : Instant) : Once id ⟨start core now, 0, 0⟩ :=
  ⟨Nat.zero_le _, Nat.le_refl _, fun _ _ _ => rfl, nofun, nofun⟩

/-- Where every later OPEN of a session finds the session's entry in the map, the core opens one session for it
and one SOCKS handler is started, whatever arrives in whatever order. -/
theorem opening_at_most_once {core : CoreInner} {now : Instant} {events : List Event} {w : Watched}
    (hrun : Steps (Watched.step crypto config id) (Known id) ⟨start core now, 0, 0⟩ events w) :
    w.opened ≤ 1 ∧ w.served ≤ 1 := by
  have honce := hrun.invariant (Once id) (fun _ _ _ h hknown hstep => h.step hknown hstep) (once_start core now)
  exact ⟨honce.opened, Nat.le_trans honce.served honce.opened⟩

def request : Bytes := [5, 1, 0]

def openPacket (nonce : UInt8) : Bytes :=
  let tag := List.replicate aeadOverhead 1
  List.replicate nonceLen nonce ++ [openSessionRequest, 0, 0, 0, 0, 0, 0, 0, 0, 7, 0, 0, 0, 0, 0, 0, 3] ++
    List.replicate 15 0 ++ tag ++ request ++ tag

def repeated : List Event :=
  arrives 1 (openPacket 0) :: List.replicate 6 calm ++ arrives 1 (openPacket 1) :: List.replicate 2 calm

def delayed : List Event :=
  arrives 1 (openPacket 0) :: List.replicate 6 calm ++
    .background (.left 7) :: arrives 1 (openPacket 1) :: List.replicate 5 calm

theorem repeated_open_routed : ∃ w,
    Steps (Watched.step toyCrypto twoUsers 7) (Known 7) ⟨start twoAccounts 0, 0, 0⟩ repeated w ∧
      w.server.stage = .receiving ∧ w.opened = 1 ∧ w.served = 1 ∧ w.opened ≤ 1 ∧ w.served ≤ 1 := by
  have hreplay : (Lib.replay (guarded (Watched.step toyCrypto twoUsers 7) (Known 7)) ⟨start twoAccounts 0, 0, 0⟩
      repeated).any (fun w => decide (w.server.stage = .receiving ∧ w.opened = 1 ∧ w.served = 1)) = true := by
    decide +kernel
  obtain ⟨w, hrun, hw⟩ := steps_of_replay hreplay
  obtain ⟨hstage, hopened, hserved⟩ := of_decide_eq_true hw
  exact ⟨w, hrun.of_guarded, hstage, hopened, hserved, opening_at_most_once hrun.of_guarded⟩

/-- A repetition of the OPEN that arrives after the end of the session opens a second core session, and its
SOCKS request waits for a second handler. -/
theorem opened_twice : ∃ w,
    Steps (Watched.step toyCrypto twoUsers 7) always ⟨start twoAccounts 0, 0, 0⟩ delayed w ∧
      w.opened = 2 ∧ w.served = 2 ∧
      (w.server.sessions.lookup 7).map (fun entry => entry.inbound.map (·.payload)) = some [request] := by
  have hreplay : (Lib.replay (Watched.step toyCrypto twoUsers 7) ⟨start twoAccounts 0, 0, 0⟩ delayed).any
      (fun w => decide (w.opened = 2 ∧ w.served = 2 ∧
        (w.server.sessions.lookup 7).map (fun entry => entry.inbound.map (·.payload)) =
          some [request])) = true := by
    decide +kernel
  obtain ⟨w, hrun, hw⟩ := steps_of_replay hreplay
  exact ⟨w, hrun, of_decide_eq_true hw⟩

end Aerion.Mieru.Server
