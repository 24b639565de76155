import Aerion.Mieru.Sections

/-!
# Users of the packet server

The session map is keyed by a number that every client chooses, and the
listener acts on the entry under that number whoever opened it.
-/

namespace Aerion.Mieru

open Lib Aerion.Net Aerion.Core

namespace Server

/-- A session as its user meets it: the entry and the writer its answers go through. -/
def view (s : Server) (id : UInt32) : Option (MieruSessionEntry × Option MieruPacketWriter) :=
  (s.sessions.lookup id).map fun e => (e, s.writers[e.writer]?)

/-- The datagram in process names no live session of another user, and its address is not
cached for another user with the same key. -/
def Separate (s : Server) (l : Event) : Prop :=
  l.listens = true →
    (∀ p ∈ s.stage.named, ∀ e ∈ s.sessions.lookup p.2, e.opener = p.1) ∧
    ∀ arrival ∈ s.stage.arrival, ∀ cached ∈ s.peers.lookup arrival.peer,
      cached.user.hashedPassword = arrival.user.hashedPassword → cached.user = arrival.user

instance (s : Server) (l : Event) : Decidable (Separate s l) :=
  inferInstanceAs (Decidable (_ → _ ∧ _))

/-- Each writer belongs to one user, who opened every session that uses it and was
authenticated by every peer that is cached with it. -/
structure Owned (owner : ℕ → MieruUserSecret) (s : Server) : Prop where
  sessions : ∀ id e, s.sessions.lookup id = some e →
    e.writer < s.writers.length ∧ owner e.writer = e.opener
  peers : ∀ a p, s.peers.lookup a = some p →
    p.writer < s.writers.length ∧ owner p.writer = p.user
  stage : ∀ w u, s.stage.underlay = some (w, u) → w < s.writers.length ∧ owner w = u

structure Confined (owner : ℕ → MieruUserSecret) (u : MieruUserSecret) (s s' : Server) : Prop where
  sessions : ∀ id e, s.sessions.lookup id = some e → e.opener ≠ u → s'.sessions.lookup id = some e
  writers : ∀ w, owner w ≠ u → w < s.writers.length → s'.writers[w]? = s.writers[w]?

variable {crypto : Crypto} {config : PacketConfig} {owner : ℕ → MieruUserSecret} {s s' : Server}

theorem owned_start {core : CoreInner} {now : Instant} :
    Owned owner (start core now) where
  sessions id e h := by cases h
  peers a p h := by cases h
  stage w u h := by cases h

theorem Confined.view_eq (hc : Confined owner u s s') (ho : Owned owner s) {id : UInt32}
    {entry : MieruSessionEntry} (hid : s.sessions.lookup id = some entry)
    (hv : entry.opener ≠ u) : s'.view id = s.view id := by
  obtain ⟨hlt, howner⟩ := ho.sessions id entry hid
  have hw := hc.writers entry.writer (howner ▸ hv) hlt
  simp [view, hid, hc.sessions id entry hid hv, hw]

theorem confined_of_eq (hsessions : s'.sessions = s.sessions) (hwriters : s'.writers = s.writers) :
    Confined owner u s s' :=
  ⟨fun _ _ h _ => hsessions ▸ h, fun _ _ _ => congrArg (·[_]?) hwriters⟩

/-! ### One step -/

theorem Owned.background (ho : Owned owner s) (h : Aside s s') : Owned owner s' where
  sessions id e' he' := by
    obtain ⟨e, he, hfixed⟩ := h.sessions id e' he'
    simp only [MieruSessionEntry.fixed, Prod.mk.injEq] at hfixed
    rw [hfixed.2.1, hfixed.2.2, h.length]
    exact ho.sessions id e he
  peers a p hp := by
    rw [h.length]
    exact ho.peers a p (h.peers ▸ hp)
  stage w u hwu := by
    rw [h.length]
    exact ho.stage w u (h.stage ▸ hwu)

theorem Owned.looked (ho : Owned owner s) (h : Looked s s') {stage : Stage}
    (hstage : ∀ w u, stage.underlay = some (w, u) → w < s.writers.length ∧ owner w = u) :
    Owned owner { s' with stage } where
  sessions id e he := by
    rw [h.writers]
    exact ho.sessions id e (h.sessions ▸ he)
  peers a p' hp' := by
    obtain ⟨p, hp, hu, hw⟩ := h.peers a p' hp'
    rw [h.writers, hu, hw]
    exact ho.peers a p hp
  stage w u hwu := by
    rw [h.writers]
    exact hstage w u hwu

theorem received_confined (ho : Owned owner s) (hs : s.stage = .receiving) {packet : Bytes}
    {source : SocketAddr} {clock : Clock} :
    Owned owner (s.received crypto config packet source clock) ∧
      ∀ u, Confined owner u s (s.received crypto config packet source clock) := by
  obtain ⟨s₁, hlooked, hcases⟩ := received_cases crypto config s clock packet source
  obtain ⟨stage, h, hstage⟩ : ∃ stage,
      s.received crypto config packet source clock = { s₁ with stage } ∧
        ∀ w u, stage.underlay = some (w, u) → w < s.writers.length ∧ owner w = u := by
    rcases hcases with h | ⟨exit, h⟩ | ⟨arrival, h⟩ | ⟨job, a, p, h, hp, hu, hw⟩
    · exact ⟨s₁.stage, h, by simp [hlooked.stage, hs, Stage.underlay, Stage.job]⟩
    · exact ⟨_, h, by simp [Stage.underlay, Stage.job]⟩
    · exact ⟨_, h, by simp [Stage.underlay, Stage.job]⟩
    · refine ⟨_, h, fun w u hwu => ?_⟩
      simp only [Stage.underlay, Stage.job, Option.map_some, Option.some.injEq, Prod.mk.injEq] at hwu
      obtain ⟨rfl, rfl⟩ := hwu
      rw [hu, hw]
      exact ho.peers a p hp
  rw [h]
  exact ⟨ho.looked hlooked hstage, fun u => confined_of_eq hlooked.sessions hlooked.writers⟩

theorem Owned.remember (ho : Owned owner s) {arrival : Arrival} {writer : ℕ} {now : Instant}
    (hlt : writer < s.writers.length) (howner : owner writer = arrival.user) :
    Owned owner (s.remember arrival writer now) where
  sessions id e he := ho.sessions id e he
  peers a p hp := by
    simp only [Server.remember] at hp
    split at hp
    · rw [lookup_insert_ite] at hp
      split at hp
      · cases hp
        exact ⟨hlt, howner⟩
      · exact ho.peers a p hp
    · exact ho.peers a p hp
  stage w u hwu := by
    simp only [Server.remember, Stage.underlay, Stage.job, Option.map_some, Option.some.injEq,
      Prod.mk.injEq] at hwu
    obtain ⟨rfl, rfl⟩ := hwu
    exact ⟨hlt, howner⟩

theorem existingWriter_owned (ho : Owned owner s) {l : Event} (hl : l.listens = true)
    (hsep : Separate s l) {arrival : Arrival} (hs : s.stage = .arrived arrival) {writer : ℕ}
    (h : s.existingWriter arrival = some writer) :
    writer < s.writers.length ∧ owner writer = arrival.user := by
  obtain ⟨hnamed, hcached⟩ := hsep hl
  rw [hs] at hnamed hcached
  unfold existingWriter at h
  cases hsession : s.sessions.lookup arrival.segment.metadata.sessionId with
  | some e =>
    rw [hsession] at h
    simp only [Option.map_some, Option.some_or, Option.some.injEq] at h
    subst h
    obtain ⟨hlt, howner⟩ := ho.sessions _ e hsession
    exact ⟨hlt, howner.trans (hnamed _ rfl e hsession)⟩
  | none =>
    rw [hsession] at h
    simp only [Option.map_none, Option.none_or, Option.map_eq_some_iff, Option.filter_eq_some_iff,
      decide_eq_true_eq] at h
    obtain ⟨p, ⟨hp, hkey⟩, rfl⟩ := h
    obtain ⟨hlt, howner⟩ := ho.peers _ p hp
    exact ⟨hlt, howner.trans (hcached _ rfl p hp hkey)⟩

theorem chooseWriter_confined (ho : Owned owner s) {l : Event} (hl : l.listens = true)
    (hsep : Separate s l) {arrival : Arrival} (hs : s.stage = .arrived arrival) {now : Instant} :
    (∃ owner', Owned owner' (s.chooseWriter arrival now)) ∧
      ∀ u, Confined owner u s (s.chooseWriter arrival now) := by
  unfold chooseWriter
  split
  · rename_i writer hw
    refine ⟨⟨owner, ho.sessions, ho.peers, fun w u hwu => ?_⟩, fun u => confined_of_eq rfl rfl⟩
    cases hwu
    exact existingWriter_owned ho hl hsep hs hw
  · -- The new writer is given to the user of the datagram.
    have hupdate : ∀ {w u}, w < s.writers.length → owner w = u →
        w < (s.writers ++ [(⟨some arrival.peer, arrival.cipher⟩ : MieruPacketWriter)]).length ∧
          Function.update owner s.writers.length arrival.user w = u := by
      intro w u hlt howner
      rw [List.length_append, Function.update_of_ne (by omega)]
      exact ⟨by omega, howner⟩
    refine ⟨⟨Function.update owner s.writers.length arrival.user, ?_⟩, fun u => ⟨?_, ?_⟩⟩
    · refine Owned.remember ⟨?_, ?_, ?_⟩ (by simp [withWriters]) (by simp)
      · exact fun id e he => hupdate (ho.sessions id e he).1 (ho.sessions id e he).2
      · exact fun a p hp => hupdate (ho.peers a p hp).1 (ho.peers a p hp).2
      · exact fun w u hwu => hupdate (ho.stage w u hwu).1 (ho.stage w u hwu).2
    · exact fun _ _ he _ => he
    · intro w _ hlt
      exact List.getElem?_append_left hlt

theorem adopt_confined (ho : Owned owner s) {arrival : Arrival} {writer : ℕ} {now : Instant}
    (hs : s.stage = .adopting arrival writer) :
    Owned owner (s.adopt arrival writer now) ∧
      Confined owner arrival.user s (s.adopt arrival writer now) := by
  obtain ⟨hlt, howner⟩ := ho.stage writer arrival.user (by rw [hs]; rfl)
  refine ⟨Owned.remember ⟨?_, ?_, ?_⟩ ?_ howner, fun _ _ he _ => he, fun w hne _ => ?_⟩
  · simpa [withWriters] using ho.sessions
  · simpa [withWriters] using ho.peers
  · simpa [withWriters] using ho.stage
  · simpa [withWriters] using hlt
  · exact List.getElem?_modify_ne _ _ (by rintro rfl; exact hne howner)

theorem jobStep_confined (ho : Owned owner s) {l : Event} (hl : l.listens = true)
    (hsep : Separate s l) {job : Job} (hs : s.stage.job = some job) (h : JobStep job s s') :
    Owned owner s' ∧ Confined owner job.user s s' := by
  obtain ⟨hlt, howner⟩ := ho.stage _ _ (Stage.underlay_of_job hs)
  refine ⟨⟨fun id e' he' => ?_, fun a p hp => ?_, fun w u hwu => ?_⟩, fun id e he hne => ?_,
    fun w hne _ => ?_⟩
  · rw [h.length]
    by_cases hid : id = job.id
    · subst hid
      rcases h.named e' he' with hfixed | ⟨e, he, hfixed⟩
      · simp only [MieruSessionEntry.fixed, Prod.mk.injEq] at hfixed
        rw [hfixed.2.1, hfixed.2.2]
        exact ⟨hlt, howner⟩
      · simp only [MieruSessionEntry.fixed, Prod.mk.injEq] at hfixed
        rw [hfixed.2.1, hfixed.2.2]
        exact ho.sessions _ e he
    · exact ho.sessions id e' (h.elsewhere id hid ▸ he')
  · rw [h.length]
    exact ho.peers a p (h.peers ▸ hp)
  · rw [h.length]
    rcases h.stage with hjob | hjob
    · rw [Stage.underlay_of_job hjob] at hwu
      cases hwu
      exact ⟨hlt, howner⟩
    · rw [(Stage.idle hjob h.arrival).2] at hwu
      cases hwu
  · -- The named session is the user's own, so this one is another.
    have hid : id ≠ job.id := by
      rintro rfl
      exact hne ((hsep hl).1 _ (Stage.named_of_job hs) e he)
    rw [h.elsewhere id hid]
    exact he
  · exact h.writers w (by rintro rfl; exact hne howner)

theorem listener_step (ho : Owned owner s) {l : Event} (hl : l.listens = true)
    (hsep : Separate s l) (h : step crypto config s l = some s') :
    (∃ owner', Owned owner' s') ∧
      ∀ u, s.stage.user = some u ∨ s'.stage.user = some u → Confined owner u s s' := by
  cases l with
  | background b => cases hl
  | received packet source clock =>
    simp only [step] at h
    split at h
    · cases h
      obtain ⟨howned, hconfined⟩ := received_confined ho ‹_›
      exact ⟨⟨owner, howned⟩, fun u _ => hconfined u⟩
    · cases h
  | ignored =>
    simp only [step] at h
    split at h
    · cases h
      exact ⟨⟨owner, ho⟩, fun u _ => confined_of_eq rfl rfl⟩
    · cases h
  | receiveFailed message =>
    simp only [step] at h
    split at h
    · cases h
      exact ⟨⟨owner, ho.sessions, ho.peers, by simp [stop, Stage.underlay, Stage.job]⟩,
        fun u _ => confined_of_eq rfl rfl⟩
    · cases h
  | advance env =>
    rcases advance_cases h with ⟨arrival, hs, rfl⟩ | ⟨arrival, writer, hs, rfl⟩ | ⟨job, hs, hjob⟩
    · obtain ⟨howned, hconfined⟩ := chooseWriter_confined ho hl hsep hs
      exact ⟨howned, fun u _ => hconfined u⟩
    · obtain ⟨howned, hconfined⟩ := adopt_confined ho hs
      refine ⟨⟨owner, howned⟩, fun u hu => ?_⟩
      have : u = arrival.user := by
        rw [hs] at hu
        rcases hu with hu | hu <;> (cases hu; rfl)
      exact this ▸ hconfined
    · obtain ⟨howned, hconfined⟩ := jobStep_confined ho hl hsep hs hjob
      refine ⟨⟨owner, howned⟩, fun u hu => ?_⟩
      have : u = job.user := by
        rw [Stage.user, Stage.user, Stage.named_of_job hs] at hu
        rcases hu with hu | hu
        · cases hu
          rfl
        · rcases hjob.stage with hj | hj
          · rw [Stage.named_of_job hj] at hu
            cases hu
            rfl
          · rw [(Stage.idle hj hjob.arrival).1] at hu
            cases hu
      exact this ▸ hconfined

theorem owned_along {core : CoreInner} {now : Instant} {ls : List Event}
    (h : Steps (step crypto config) Separate (start core now) ls s) :
    ∃ owner, Owned owner s := by
  refine h.invariant (fun s => ∃ owner, Owned owner s) ?_
    ⟨fun _ => ⟨"", "", []⟩, owned_start⟩
  rintro s l s' ⟨owner, ho⟩ hsep hstep
  by_cases hl : l.listens = true
  · exact (listener_step ho hl hsep hstep).1
  · cases l with
    | background b =>
      cases hstep
      exact ⟨owner, ho.background (background_aside crypto s b)⟩
    | received packet source clock => exact absurd rfl hl
    | ignored => exact absurd rfl hl
    | receiveFailed message => exact absurd rfl hl
    | advance env => exact absurd rfl hl

/-- In every run in which no datagram names a live session of another user, no step of the
listener changes a session while it processes the datagram of a user other than the one
that opened it. -/
theorem users_isolated {core : CoreInner} {now : Instant}
    {ls : List Event} (hrun : Steps (step crypto config) Separate (start core now) ls s)
    {l : Event} (hsep : Separate s l) (hl : l.listens = true)
    (hstep : step crypto config s l = some s') {u : MieruUserSecret}
    (hu : s.stage.user = some u ∨ s'.stage.user = some u) {id : UInt32}
    {entry : MieruSessionEntry} (hid : s.sessions.lookup id = some entry)
    (hv : entry.opener ≠ u) : s'.view id = s.view id := by
  obtain ⟨owner, ho⟩ := owned_along hrun
  exact ((listener_step ho hl hsep hstep).2 u hu).view_eq ho hid hv

/-! ### Two users -/

def toyCrypto : Crypto where
  sha256 := id
  hmacSha256 key message := if message.length = 1 then [0] else key.take 1
  aeadOpen key _ ciphertext tag :=
    if tag = List.replicate aeadOverhead (key.headD 0) then some ciphertext else none

def victim : MieruUserSecret := ⟨"victim", "v", [1]⟩
def intruder : MieruUserSecret := ⟨"intruder", "u", [2]⟩

def twoUsers : PacketConfig := ⟨[victim, intruder], 1400, false, none⟩

def twoAccounts : CoreInner :=
  (CoreInner.empty.replaceUsers textHash [.password "victim" "v", .password "intruder" "u"]).2

def toyPacket (user : MieruUserSecret) (protocol id seq : UInt8) (payload : Bytes) : Bytes :=
  let tag := List.replicate aeadOverhead (user.hashedPassword.headD 0)
  let head : Bytes := [protocol, 0, 0, 0, 0, 0, 0, 0, 0, id, 0, 0, 0, seq]
  let tail : Bytes := List.replicate 9 0 ++ [UInt8.ofNat payload.length] ++ List.replicate 8 0
  List.replicate nonceLen 0 ++ head ++ tail ++ tag ++
    if payload.isEmpty then [] else payload ++ tag

def host (n : UInt8) : SocketAddr := ⟨.v4 10 0 0 n, 4000⟩

def arrives (n : UInt8) (packet : Bytes) : Event := .received packet (host n) ⟨some 0, 0⟩

def calm : Event := .advance ⟨0, false, false, .ok ()⟩

def opened : List Event :=
  arrives 1 (toyPacket victim openSessionRequest 7 0 []) :: List.replicate 6 calm

/-- The intruder opens session 8 from the second host, up to the routing of its segment. -/
def openedBeside : List Event :=
  opened ++ arrives 2 (toyPacket intruder openSessionRequest 8 0 []) :: List.replicate 5 calm

/-- The intruder sends a byte to session 7 from the second host, up to some section. -/
def intrudes (sections : ℕ) : List Event :=
  opened ++ arrives 2 (toyPacket intruder dataClientToServer 7 1 [0x66]) ::
    List.replicate sections calm

theorem users_isolated_beside :
    ∃ s s' entry, Steps (step toyCrypto twoUsers) Separate (start twoAccounts 0)
        openedBeside s ∧
      step toyCrypto twoUsers s calm = some s' ∧ s.stage.user = some intruder ∧
      s.sessions.lookup 7 = some entry ∧ entry.opener = victim ∧ s'.view 7 = s.view 7 := by
  obtain ⟨s, hrun, hs⟩ := steps_of_replay
    (show (Lib.replay (guarded (step toyCrypto twoUsers) Separate) (start twoAccounts 0)
      openedBeside).any (fun s => decide (Separate s calm ∧ s.stage.user = some intruder ∧
        (s.sessions.lookup 7).map (·.opener) = some victim ∧
        (step toyCrypto twoUsers s calm).isSome)) = true by decide +kernel)
  obtain ⟨hsep, huser, hopener, hstep⟩ := of_decide_eq_true hs
  obtain ⟨s', hs'⟩ := Option.isSome_iff_exists.mp hstep
  obtain ⟨entry, hentry, hvictim⟩ := Option.map_eq_some_iff.mp hopener
  exact ⟨s, s', entry, hrun.of_guarded, hs', huser, hentry, hvictim,
    users_isolated hrun.of_guarded hsep rfl hs' (.inl huser) hentry
      (by rw [hvictim]; decide)⟩

/-- The intruder's datagram turns the answers of the victim's session to the intruder, and
puts a byte into the victim's stream. -/
theorem session_taken_over :
    (∃ s s', Steps (step toyCrypto twoUsers) always (start twoAccounts 0) (intrudes 1) s ∧
      step toyCrypto twoUsers s calm = some s' ∧ s.stage.user = some intruder ∧
      (s.view 7).map (fun v => (v.1.opener, v.2.bind (·.peer))) = some (victim, some (host 1)) ∧
      (s'.view 7).map (fun v => (v.1.opener, v.2.bind (·.peer))) = some (victim, some (host 2))) ∧
    ∃ s s', Steps (step toyCrypto twoUsers) always (start twoAccounts 0) (intrudes 3) s ∧
      step toyCrypto twoUsers s calm = some s' ∧ s.stage.user = some intruder ∧
      (s.view 7).map (fun v => (v.1.opener, v.1.inbound)) = some (victim, []) ∧
      (s'.view 7).map (fun v => (v.1.opener, v.1.inbound.map (·.payload))) =
        some (victim, [[0x66]]) := by
  constructor
  · obtain ⟨s, hrun, hs⟩ := steps_of_replay
      (show (Lib.replay (step toyCrypto twoUsers) (start twoAccounts 0)
        (intrudes 1)).any (fun s => decide (s.stage.user = some intruder ∧
          (s.view 7).map (fun v => (v.1.opener, v.2.bind (·.peer))) = some (victim, some (host 1)) ∧
          ((step toyCrypto twoUsers s calm).map fun s' =>
            (s'.view 7).map (fun v => (v.1.opener, v.2.bind (·.peer)))) =
              some (some (victim, some (host 2))))) = true by decide +kernel)
    obtain ⟨huser, hview, hstep⟩ := of_decide_eq_true hs
    obtain ⟨s', hs', hview'⟩ := Option.map_eq_some_iff.mp hstep
    exact ⟨s, s', hrun, hs', huser, hview, hview'⟩
  · obtain ⟨s, hrun, hs⟩ := steps_of_replay
      (show (Lib.replay (step toyCrypto twoUsers) (start twoAccounts 0)
        (intrudes 3)).any (fun s => decide (s.stage.user = some intruder ∧
          (s.view 7).map (fun v => (v.1.opener, v.1.inbound)) = some (victim, []) ∧
          ((step toyCrypto twoUsers s calm).map fun s' =>
            (s'.view 7).map (fun v => (v.1.opener, v.1.inbound.map (·.payload)))) =
              some (some (victim, [[0x66]])))) = true by decide +kernel)
    obtain ⟨huser, hview, hstep⟩ := of_decide_eq_true hs
    obtain ⟨s', hs', hview'⟩ := Option.map_eq_some_iff.mp hstep
    exact ⟨s, s', hrun, hs', huser, hview, hview'⟩

end Server

end Aerion.Mieru
