import Aerion.Mieru.Isolation

/-!
# When the packet server stops

An error of `handle_server_segment` leaves the listener's loop, so a client
that has authenticated can end the server for everyone: with the reserved
session id, with a segment that only servers send, or by opening a session
that the core refuses.
-/

namespace Aerion.Mieru

open Lib Aerion.Net Aerion.Core

def Exit.fatal : Exit → Bool
  | .clock | .socket _ => true
  | .segment _ | .panicked => false

/-- The segments `handle_server_segment` has a branch for. -/
def handledProtocols : List UInt8 :=
  [openSessionRequest, dataClientToServer, closeSessionRequest, closeSessionResponse,
    ackClientToServer, closeConnRequest, closeConnResponse]

namespace Server

/-- Only a fatal error of the socket or the clock has ended the listener. -/
def Survives (s : Server) : Prop := ∀ exit, s.stage = .stopped exit → exit.fatal = true

/-- The next section of the listener passes: the segment is one a client may send and names
no reserved session, the core admits the user of a new session, its output task is still
there to answer, and a close response can be sent. -/
def Harmless (s : Server) : Event → Prop
  | .advance env =>
    match s.stage with
    | .handling job =>
      job.segment.metadata.protocol ∈ handledProtocols ∧
        (job.segment.metadata.protocol = openSessionRequest → job.id ≠ 0)
    | .opening job =>
      ∃ session, (s.core.authenticateFrom job.user.coreCredential job.peer.ip).1 = .ok session
    | .answering _ _ => env.outputGone = false
    | .closing _ => env.written = .ok ()
    | _ => True
  | _ => True

variable {crypto : Crypto} {config : PacketConfig} {s s' : Server}

/-! ### What keeps the listener from panicking -/

/-- The key cache can evict, the ciphers of the packet server carry no nonce from one packet
to the next, and every session reorders. -/
structure Sound (s : Server) : Prop where
  keys : s.keyCache.Queued
  peers : ∀ a p, s.peers.lookup a = some p → p.cipher.Stateless
  arrival : ∀ a, s.stage.arrival = some a → a.cipher.Stateless
  sessions : ∀ id e, s.sessions.lookup id = some e → e.ordered = true

theorem sound_start {core : CoreInner} {now : Instant} : Sound (start core now) where
  keys := KeyCache.queued_empty
  peers a p h := by cases h
  arrival a h := by cases h
  sessions id e h := by cases h

theorem Sound.atStage (h : Sound s) {stage : Stage}
    (harrival : ∀ a, stage.arrival = some a → a.cipher.Stateless) : Sound { s with stage } :=
  ⟨h.keys, h.peers, harrival, h.sessions⟩

theorem Sound.stop (h : Sound s) {exit : Exit} : Sound (s.stop exit) :=
  h.atStage fun _ ha => by cases ha

theorem Sound.withWriters (h : Sound s) {writers : List MieruPacketWriter} :
    Sound (s.withWriters writers) := ⟨h.keys, h.peers, h.arrival, h.sessions⟩

theorem Sound.clean (h : Sound s) {now : Instant} : Sound (s.clean now) := by
  unfold Server.clean
  split
  · exact ⟨h.keys, fun a p hp => h.peers a p (lookup_retain.mp hp).1, h.arrival, h.sessions⟩
  · exact h

theorem Sound.jobStep (h : Sound s) {job : Job} (hj : JobStep job s s') : Sound s' where
  keys := hj.keyCache ▸ h.keys
  peers := hj.peers ▸ h.peers
  arrival a ha := by
    rw [hj.arrival] at ha
    cases ha
  sessions id e' he' := by
    by_cases hid : id = job.id
    · subst hid
      rcases hj.named e' he' with hfixed | ⟨e, he, hfixed⟩
      · exact congrArg Prod.fst hfixed
      · exact (congrArg Prod.fst hfixed).trans (h.sessions _ e he)
    · exact h.sessions id e' (hj.elsewhere id hid ▸ he')

theorem Sound.aside (h : Sound s) (ha : Aside s s') (hkeys : s'.keyCache.Queued) : Sound s' where
  keys := hkeys
  peers := ha.peers ▸ h.peers
  arrival := ha.stage ▸ h.arrival
  sessions id e' he' := by
    obtain ⟨e, he, hfixed⟩ := ha.sessions id e' he'
    exact (congrArg Prod.fst hfixed).trans (h.sessions id e he)

theorem Sound.background (h : Sound s) (b : Background) : Sound (s.background crypto b) := by
  apply h.aside (background_aside crypto s b)
  cases b with
  | session id task =>
    have hkeys : (s.background crypto (.session id task)).keyCache = s.keyCache :=
      onSession_keyCache
    exact hkeys ▸ h.keys
  | keysUsed clock hashedPassword => exact (mieruKeysForPassword_safe _ h.keys).2
  | _ => exact h.keys

theorem Sound.remember (h : Sound s) {arrival : Arrival} (hc : arrival.cipher.Stateless)
    {writer : ℕ} {now : Instant} : Sound (s.remember arrival writer now) where
  keys := h.keys
  peers a p hp := by
    simp only [Server.remember] at hp
    split at hp
    · rw [lookup_insert_ite] at hp
      split at hp
      · cases hp
        exact hc
      · exact h.peers a p hp
    · exact h.peers a p hp
  arrival a ha := by cases ha
  sessions := h.sessions

theorem Sound.chooseWriter (h : Sound s) {arrival : Arrival} (hc : arrival.cipher.Stateless)
    {now : Instant} : Sound (s.chooseWriter arrival now) := by
  unfold Server.chooseWriter
  split
  · refine h.atStage fun a ha => ?_
    cases ha
    exact hc
  · exact h.withWriters.remember hc

theorem Sound.adopt (h : Sound s) {arrival : Arrival} (hc : arrival.cipher.Stateless)
    {writer : ℕ} {now : Instant} : Sound (s.adopt arrival writer now) :=
  h.withWriters.remember hc

/-! ### Decoding -/

section

variable {clock : Clock} {keyEpoch : ℕ} {peer : SocketAddr} {packet : Bytes}

theorem checkReplay_safe {segment : MieruSegment} {now : Instant} :
    Stateful.Safe (fun _ => True) (checkReplay crypto now segment packet) := by
  unfold checkReplay
  split
  · exact fun _ _ => ⟨storeFirst_ne_panic, trivial⟩
  · exact Stateful.Safe.pure _

theorem decode_safe {mandatory : Bool} :
    Stateful.Safe (fun x : MieruPacketPeer × MieruReplayCache => x.1.cipher.Stateless)
      (MieruPacketPeer.decode crypto clock packet keyEpoch mandatory) := by
  refine Stateful.Safe.get_bind fun cached _ => ?_
  refine Stateful.Safe.ensure_bind fun _ => Stateful.Safe.ensure_bind fun hlen => ?_
  have hlen : packetMetadataLen ≤ packet.length := by simpa using hlen
  have hnonce : nonceLen ≤ packet.length := le_trans (by decide) hlen
  refine Stateful.Safe.lift_bind (by rw [ne_eq, slice_panic]; omega) fun nonce _ => ?_
  refine Stateful.Safe.ensure_bind fun _ => ?_
  have hsegment : Stateful.Safe MieruCipher.Stateless
      (decodeMieruPacketSegment crypto clock.unix packet) :=
    Stateful.Safe.of_eq fun _ h => decodeMieruPacketSegment_safe h
  refine Stateful.Safe.bind (hsegment.zoom (fun _ h => h) fun _ _ _ h => h) fun segment => ?_
  refine Stateful.Safe.bind (checkReplay_safe.zoom (fun _ _ => trivial) fun _ _ h _ => h)
    fun _ => ?_
  refine Stateful.Safe.bind (Stateful.Safe.update (fun _ _ => nofun) ?_)
    fun _ => Stateful.Safe.pure _
  intro x x' hx h
  cases h
  exact hx

theorem decodeCached_safe :
    Stateful.Safe Sound (decodeCached crypto config clock keyEpoch peer packet) := by
  intro s hs
  unfold decodeCached
  split
  · exact ⟨nofun, hs⟩
  · rename_i cached hcached
    obtain ⟨hne, hstateless⟩ := decode_safe (cached, s.replay) (hs.peers peer cached hcached)
    refine ⟨Outcome.bind_ne_panic hne fun _ _ => nofun, hs.keys, fun a p hp => ?_, hs.arrival,
      hs.sessions⟩
    rw [lookup_insert_ite] at hp
    split at hp
    · cases hp
      exact hstateless
    · exact hs.peers a p hp

theorem decodeForServer_safe :
    Stateful.Safe Sound (decodeForServer crypto config clock keyEpoch peer packet) := by
  refine Stateful.Safe.bind (authenticatePacket_safe.zoom (fun _ h => h.keys) ?_) fun found => ?_
  · exact fun s keyCache hs hkeys => ⟨hkeys, hs.peers, hs.arrival, hs.sessions⟩
  · refine Stateful.Safe.bind (checkReplay_safe.zoom (fun _ _ => trivial) ?_)
      fun _ => Stateful.Safe.pure _
    exact fun s replay hs _ => ⟨hs.keys, hs.peers, hs.arrival, hs.sessions⟩

theorem decodeForServer_stateless {arrival : Arrival}
    (h : (decodeForServer crypto config clock keyEpoch peer packet s).1 = .ok arrival) :
    arrival.cipher.Stateless := by
  obtain ⟨⟨segment, user, cipher⟩, hfound, h⟩ := Stateful.bind_ok.mp h
  obtain ⟨-, -, h⟩ := Stateful.bind_ok.mp h
  cases h
  exact authenticatePacket_stateless hfound

theorem received_sound (hs : Sound s) (hreceiving : s.stage = .receiving) {source : SocketAddr} :
    Sound (s.received crypto config packet source clock) ∧
      (s.received crypto config packet source clock).Survives := by
  unfold received
  split
  · refine ⟨hs.stop, fun exit h => ?_⟩
    cases h
    rfl
  rename_i secs _
  dsimp only
  have hcached : Stateful.Safe Sound (decodeCached crypto config clock (mieruKeyEpoch secs)
    (canonicalizeSocketAddr source) packet) := decodeCached_safe
  have hscan : Stateful.Safe Sound (decodeForServer crypto config clock (mieruKeyEpoch secs)
    (canonicalizeSocketAddr source) packet) := decodeForServer_safe
  obtain ⟨hne, hs₁⟩ := hcached (s.clean clock.now) hs.clean
  have hlooked := (clean_looked s clock.now).trans (decodeCached_looked crypto config _ clock
    (mieruKeyEpoch secs) (canonicalizeSocketAddr source) packet)
  split
  · rename_i job s₁ h
    rw [h] at hs₁
    exact ⟨hs₁.atStage fun a ha => (by cases ha), fun exit h => (by cases h)⟩
  · rename_i h
    rw [h] at hne
    exact absurd rfl hne
  · rename_i s₁ h
    rw [h] at hs₁ hlooked
    obtain ⟨hne₂, hs₂⟩ := hscan s₁ hs₁
    have hlooked₂ := hlooked.trans (decodeForServer_looked crypto config s₁ clock
      (mieruKeyEpoch secs) (canonicalizeSocketAddr source) packet)
    split
    · rename_i arrival s₂ h₂
      rw [h₂] at hs₂
      refine ⟨hs₂.atStage fun a ha => ?_, fun exit h => (by cases h)⟩
      cases ha
      exact decodeForServer_stateless (congrArg Prod.fst h₂)
    · rename_i h₂
      rw [h₂] at hne₂
      exact absurd rfl hne₂
    · rename_i s₂ h₂
      rw [h₂] at hs₂ hlooked₂
      refine ⟨hs₂, fun exit h => ?_⟩
      rw [hlooked₂.stage, hreceiving] at h
      cases h

end

/-! ### One step -/

theorem stopped_step {exit : Exit} (hs : s.stage = .stopped exit) {l : Event}
    (h : step crypto config s l = some s') : s'.stage = .stopped exit := by
  cases l with
  | background b =>
    cases h
    exact (background_aside crypto s b).stage.trans hs
  | advance env => simp [step, advance, hs] at h
  | received packet source clock => simp [step, hs] at h
  | ignored => simp [step, hs] at h
  | receiveFailed message => simp [step, hs] at h

theorem handle_harmful {job : Job}
    (h : ¬(job.segment.metadata.protocol ∈ handledProtocols ∧
      (job.segment.metadata.protocol = openSessionRequest → job.id ≠ 0))) :
    ∃ message, (s.handle job).stage = .stopped (.segment message) := by
  unfold handle
  dsimp only
  split
  · rename_i hopen
    have hid : job.segment.metadata.sessionId = 0 := by
      by_contra hne
      exact h ⟨by rw [hopen]; decide, fun _ => hne⟩
    rw [if_pos hid]
    exact ⟨_, rfl⟩
  · rename_i hopen
    -- Every branch but the last is one of the handled protocols.
    have hother : job.segment.metadata.protocol ∉ handledProtocols :=
      fun hmem => h ⟨hmem, fun heq => absurd heq hopen⟩
    simp only [handledProtocols, List.mem_cons, List.not_mem_nil, or_false, not_or] at hother
    obtain ⟨-, hdata, hclose, hclosed, hack, hconn, hconn'⟩ := hother
    rw [if_neg hdata, if_neg hclose, if_neg hclosed, if_neg hack, if_neg (not_or.mpr ⟨hconn, hconn'⟩)]
    exact ⟨_, rfl⟩

theorem handle_harmless {job : Job} (hmem : job.segment.metadata.protocol ∈ handledProtocols)
    (hid : job.segment.metadata.protocol = openSessionRequest → job.id ≠ 0) {exit : Exit} :
    (s.handle job).stage ≠ .stopped exit := by
  unfold handle
  dsimp only
  split
  · rename_i hopen
    rw [if_neg (show ¬job.segment.metadata.sessionId = 0 from hid hopen)]
    split <;> nofun
  split
  · split <;> nofun
  split
  · nofun
  split
  · nofun
  split
  · nofun
  split
  · nofun
  · rename_i hopen hdata hclose hclosed hack hconn
    simp only [handledProtocols, List.mem_cons, List.not_mem_nil, or_false] at hmem
    tauto

theorem harmful_step {l : Event} (hharm : ¬Harmless s l)
    (h : step crypto config s l = some s') :
    ∃ message, s'.stage = .stopped (.segment message) := by
  cases l with
  | advance env =>
    simp only [step, advance] at h
    simp only [Harmless] at hharm
    cases hs : s.stage with
    | handling job =>
      simp only [hs, Option.some.injEq] at h hharm
      exact h ▸ handle_harmful hharm
    | opening job =>
      simp only [hs, Option.some.injEq] at h hharm
      unfold openCore at h
      split at h
      · rename_i session core hauth
        exact absurd ⟨session, by rw [hauth]⟩ hharm
      · subst h
        exact ⟨_, rfl⟩
    | answering job session =>
      simp only [hs, Option.some.injEq, Bool.not_eq_false] at h hharm
      rw [answer, hharm] at h
      subst h
      exact ⟨_, rfl⟩
    | closing job =>
      simp only [hs, Option.some.injEq] at h hharm
      unfold writeClose at h
      dsimp only at h
      split at h
      · rename_i hwritten
        exact absurd hwritten hharm
      · subst h
        exact ⟨_, rfl⟩
    | _ => simp only [hs, not_true_eq_false] at hharm
  | _ => exact absurd trivial hharm

theorem advance_sound (hs : Sound s) {env : Ambient} (h : s.advance config env = some s') :
    Sound s' := by
  rcases advance_cases h with ⟨arrival, hstage, rfl⟩ | ⟨arrival, writer, hstage, rfl⟩ |
    ⟨job, -, hjob⟩
  · exact hs.chooseWriter (hs.arrival arrival (by rw [hstage]; rfl))
  · exact hs.adopt (hs.arrival arrival (by rw [hstage]; rfl))
  · exact hs.jobStep hjob

theorem advance_runs (hs : Sound s) {env : Ambient} (hharm : Harmless s (.advance env))
    (h : s.advance config env = some s') {exit : Exit} : s'.stage ≠ .stopped exit := by
  simp only [advance] at h
  simp only [Harmless] at hharm
  cases hstage : s.stage with
  | receiving => simp [hstage] at h
  | stopped exit => simp [hstage] at h
  | arrived arrival =>
    simp only [hstage, Option.some.injEq] at h
    subst h
    unfold chooseWriter
    split <;> nofun
  | adopting arrival writer | inserting job session | removing job =>
    simp only [hstage, Option.some.injEq] at h
    subst h
    nofun
  | handling job =>
    simp only [hstage, Option.some.injEq] at h hharm
    exact h ▸ handle_harmless hharm.1 hharm.2
  | opening job =>
    simp only [hstage, Option.some.injEq] at h hharm
    obtain ⟨session, hsession⟩ := hharm
    unfold openCore at h
    split at h
    · subst h
      nofun
    · rename_i hauth
      rw [hauth] at hsession
      cases hsession
  | answering job session =>
    simp only [hstage, Option.some.injEq] at h hharm
    rw [answer, hharm] at h
    subst h
    nofun
  | routing job =>
    simp only [hstage] at h
    unfold routeSegment at h
    dsimp only at h
    split at h
    · cases h
      nofun
    · rename_i entry hentry
      obtain ⟨routed, hrouted⟩ := entry.route_ordered (hs.sessions _ entry hentry)
        job.segment.metadata.seq job.segment.payload (some ackServerToClient)
      rw [hrouted] at h
      cases h
      nofun
  | closing job =>
    simp only [hstage, Option.some.injEq] at h hharm
    unfold writeClose at h
    rw [hharm] at h
    subst h
    nofun

theorem harmless_step (hs : Sound s) (hsurvives : s.Survives) {l : Event} (hharm : Harmless s l)
    (h : step crypto config s l = some s') : Sound s' ∧ s'.Survives := by
  cases l with
  | background b =>
    cases h
    refine ⟨hs.background b, fun exit hexit => hsurvives exit ?_⟩
    rw [(background_aside crypto s b).stage] at hexit
    exact hexit
  | advance env => exact ⟨advance_sound hs h, fun exit hexit => absurd hexit (advance_runs hs hharm h)⟩
  | received packet source clock =>
    simp only [step] at h
    split at h
    · cases h
      exact received_sound hs ‹_›
    · cases h
  | ignored =>
    simp only [step] at h
    split at h
    · cases h
      exact ⟨hs, hsurvives⟩
    · cases h
  | receiveFailed message =>
    simp only [step] at h
    split at h
    · cases h
      refine ⟨hs.stop, fun exit hexit => ?_⟩
      cases hexit
      rfl
    · cases h

/-! ### Whole runs -/

theorem stopped_along {exit : Exit} {ls : List Event} {ok : Server → Event → Prop}
    (h : Steps (step crypto config) ok s ls s') (hs : s.stage = .stopped exit) :
    s'.stage = .stopped exit :=
  h.invariant (fun s => s.stage = .stopped exit) (fun _ _ _ hs _ => stopped_step hs) hs

theorem harmless_of_survives {ls : List Event} (h : Steps (step crypto config) always s ls s')
    (hsurvives : s'.Survives) : Steps (step crypto config) Harmless s ls s' := by
  induction h with
  | nil => exact .nil
  | @cons s l mid ls s' _ hstep hrest ih =>
    refine .cons ?_ hstep (ih hsurvives)
    by_contra hharm
    obtain ⟨message, hstopped⟩ := harmful_step hharm hstep
    cases hsurvives _ (stopped_along hrest hstopped)

/-- A run of the server leaves the listener running, or ended by a fatal error of the socket
or the clock, exactly when every step of it was harmless. -/
theorem listener_survives_iff (crypto : Crypto) (config : PacketConfig) (core : CoreInner)
    (now : Instant) (ls : List Event) (s : Server) :
    Steps (step crypto config) Harmless (start core now) ls s ↔
      Steps (step crypto config) always (start core now) ls s ∧ s.Survives := by
  constructor
  · intro h
    refine ⟨h.mono fun _ _ _ => trivial, ?_⟩
    have hinv := h.invariant (fun s => Sound s ∧ s.Survives)
      (fun s l s' hs hharm => harmless_step hs.1 hs.2 hharm)
      ⟨sound_start, fun exit hexit => (by cases hexit)⟩
    exact hinv.2
  · exact fun h => harmless_of_survives h.1 h.2

/-- With the victim's session open, the intruder ends the server: with the reserved session
id, or with a segment that only servers send. A user whom the core does not know ends it by
opening any session. -/
theorem datagram_ends_server :
    (∃ s, Steps (step toyCrypto twoUsers) always (start twoAccounts 0)
        (opened ++ [arrives 2 (toyPacket intruder openSessionRequest 0 0 []), calm, calm]) s ∧
      s.stage = .stopped (.segment "Mieru session ID 0 is reserved") ∧
      (s.sessions.lookup 7).isSome) ∧
    (∃ s, Steps (step toyCrypto twoUsers) always (start twoAccounts 0)
        (opened ++ [arrives 2 (toyPacket intruder dataServerToClient 8 0 []), calm, calm]) s ∧
      s.stage = .stopped (.segment "unexpected Mieru server segment protocol 7")) ∧
    ∃ s, Steps (step toyCrypto twoUsers) always (start CoreInner.empty 0)
        [arrives 1 (toyPacket victim openSessionRequest 7 0 []), calm, calm, calm] s ∧
      s.stage = .stopped (.segment "core authentication failed") := by
  refine ⟨?_, ?_, ?_⟩
  · obtain ⟨s, hrun, hs⟩ := steps_of_replay
      (show (Lib.replay (step toyCrypto twoUsers) (start twoAccounts 0)
        (opened ++ [arrives 2 (toyPacket intruder openSessionRequest 0 0 []), calm, calm])).any
        (fun s => decide (s.stage = .stopped (.segment "Mieru session ID 0 is reserved") ∧
          (s.sessions.lookup 7).isSome)) = true by decide +kernel)
    exact ⟨s, hrun, of_decide_eq_true hs⟩
  · obtain ⟨s, hrun, hs⟩ := steps_of_replay
      (show (Lib.replay (step toyCrypto twoUsers) (start twoAccounts 0)
        (opened ++ [arrives 2 (toyPacket intruder dataServerToClient 8 0 []), calm, calm])).any
        (fun s => decide (s.stage =
          .stopped (.segment "unexpected Mieru server segment protocol 7"))) = true by
        decide +kernel)
    exact ⟨s, hrun, of_decide_eq_true hs⟩
  · obtain ⟨s, hrun, hs⟩ := steps_of_replay
      (show (Lib.replay (step toyCrypto twoUsers) (start CoreInner.empty 0)
        [arrives 1 (toyPacket victim openSessionRequest 7 0 []), calm, calm, calm]).any
        (fun s => decide (s.stage = .stopped (.segment "core authentication failed"))) = true by
        decide +kernel)
    exact ⟨s, hrun, of_decide_eq_true hs⟩

end Server

end Aerion.Mieru
