import Mathlib.Data.List.Perm.Subperm
import Aerion.Vmess.Freshness

/-!
# Replayed VMess requests

Over every run of the server, the requests past the first cache are kept
apart: two with one AuthID were stored more than two minutes from each
other. A request whose timestamp was already in the past when it was first
checked is stale by then, so none is accepted twice.
-/

namespace Aerion.Vmess

open Lib Net Outcome

variable {crypto : Crypto} {mode : Overflow} {config : Config}

/-! ### Requests past the first cache -/

def Server.accepted (s : Server) : List Accepted :=
  s.results.filterMap fun
    | .ok a => some a
    | _ => none

/-- The requests whose AuthID was stored: those still pending and those accepted. -/
def Server.entries (s : Server) : List Pending := s.pending ++ s.accepted.map Accepted.pending

/-- When the cache is asked, every user's reading of the AuthID lies in the past, and that of the user
it was found for no more than two minutes. -/
structure InTime (crypto : Crypto) (config : Config) (p : Pending) : Prop where
  past : ∀ u ∈ config.users, ∀ timestamp,
    decodeAuthId crypto (vmessCmdKey crypto u.1) p.authId = .ok timestamp →
      timestamp < config.unixTime p.authAt
  recent : ∀ timestamp, decodeAuthId crypto (vmessCmdKey crypto p.user) p.authId = .ok timestamp →
    config.unixTime p.authAt ≤ timestamp + 120

instance (p : Pending) : Decidable (InTime crypto config p) :=
  decidable_of_iff ((∀ u ∈ config.users, ∀ timestamp,
      decodeAuthId crypto (vmessCmdKey crypto u.1) p.authId = .ok timestamp →
        timestamp < config.unixTime p.authAt) ∧
      ∀ timestamp, decodeAuthId crypto (vmessCmdKey crypto p.user) p.authId = .ok timestamp →
        config.unixTime p.authAt ≤ timestamp + 120)
    ⟨fun h => ⟨h.1, h.2⟩, fun h => ⟨h.past, h.recent⟩⟩

/-- Every user's reading of the AuthID can be compared with the clock, and one that passes for fresh
is in time. -/
def Timely (crypto : Crypto) (mode : Overflow) (config : Config) (_ : Server) : Event → Prop
  | .authId stream readAt at_ =>
    (∀ u ∈ config.users, ∀ timestamp,
      decodeAuthId crypto (vmessCmdKey crypto u.1) (stream.take 16) = .ok timestamp →
        Comparable timestamp (config.unixTime readAt)) ∧
    ∀ p, readUser crypto mode config stream readAt at_ = .ok p → InTime crypto config p
  | _ => True

instance (s : Server) : (e : Event) → Decidable (Timely crypto mode config s e)
  | .authId stream readAt at_ => inferInstanceAs (Decidable ((∀ u ∈ config.users, ∀ timestamp,
      decodeAuthId crypto (vmessCmdKey crypto u.1) (stream.take 16) = .ok timestamp →
        Comparable timestamp (config.unixTime readAt)) ∧
      ∀ p, readUser crypto mode config stream readAt at_ = .ok p → InTime crypto config p))
  | .header _ _ => .isTrue trivial
  | .gone _ => .isTrue trivial

/-- The user's reading of the AuthID was fresh. -/
def Fresh (crypto : Crypto) (config : Config) (p : Pending) : Prop :=
  ∃ timestamp, decodeAuthId crypto (vmessCmdKey crypto p.user) p.authId = .ok timestamp ∧
    |timestamp - config.unixTime p.readAt| ≤ 120

structure Admitted (crypto : Crypto) (config : Config) (p : Pending) : Prop
    extends InTime crypto config p where
  length : p.authId.length = 16
  user : ∃ u ∈ config.users, u.1 = p.user
  fresh : Fresh crypto config p

/-- Two requests with one AuthID were stored more than the cache's lifetime apart. -/
def Apart (p q : Pending) : Prop :=
  p.authId = q.authId → p.authAt + authIdReplayTtl < q.authAt ∨ q.authAt + authIdReplayTtl < p.authAt

theorem Apart.symm {p q : Pending} (h : Apart p q) : Apart q p := fun heq => (h heq.symm).symm

theorem lt_of_unixTime_lt {a b : ℕ} (h : config.unixTime b < config.unixTime a + 120) :
    b < a + authIdReplayTtl := by
  unfold Config.unixTime seconds at h
  unfold authIdReplayTtl seconds
  omega

theorem Admitted.within {p q : Pending} (hp : Admitted crypto config p)
    (hq : Admitted crypto config q) (heq : p.authId = q.authId) :
    q.authAt < p.authAt + authIdReplayTtl := by
  obtain ⟨u, hu, huser⟩ := hq.user
  obtain ⟨timestamp, hdecode, -⟩ := hq.fresh
  have hpast := hp.past u hu timestamp (by rw [huser, heq, hdecode])
  have hrecent := hq.recent timestamp hdecode
  have hseconds : config.unixTime q.authAt < config.unixTime p.authAt + 120 := by omega
  exact lt_of_unixTime_lt hseconds

theorem Admitted.authId_ne {p q : Pending} (hp : Admitted crypto config p)
    (hq : Admitted crypto config q) (hapart : Apart p q) : p.authId ≠ q.authId := by
  intro heq
  have hpq := hp.within hq heq
  have hqp := hq.within hp heq.symm
  exact (hapart heq).elim (lt_asymm hpq) (lt_asymm hqp)

/-! ### The first section -/

theorem findUser_spec {now : ℤ} {authId : Bytes} {users : List (Bytes × String)}
    (h : ∀ u ∈ users, ∀ timestamp,
      decodeAuthId crypto (vmessCmdKey crypto u.1) authId = .ok timestamp → Comparable timestamp now) :
    (findUser crypto mode now authId users).Meets fun found => ∀ u ∈ found, u ∈ users ∧
      ∃ timestamp, decodeAuthId crypto (vmessCmdKey crypto u.1) authId = .ok timestamp ∧
        |timestamp - now| ≤ 120 := by
  induction users with
  | nil => exact .ok (by simp)
  | cons user users ih =>
    have hrest : (findUser crypto mode now authId users).Meets fun found => ∀ u ∈ found,
        u ∈ user :: users ∧ ∃ timestamp,
          decodeAuthId crypto (vmessCmdKey crypto u.1) authId = .ok timestamp ∧
            |timestamp - now| ≤ 120 :=
      (ih fun u hu => h u (List.mem_cons_of_mem _ hu)).mono fun found hfound u hu =>
        ⟨List.mem_cons_of_mem _ (hfound u hu).1, (hfound u hu).2⟩
    unfold findUser
    split
    · rename_i timestamp hdecode
      rw [isFresh_of_comparable (h user (List.mem_cons_self) timestamp hdecode), ok_bind]
      split
      · rename_i hfresh
        refine .ok fun u hu => ?_
        cases hu
        exact ⟨List.mem_cons_self, timestamp, hdecode, of_decide_eq_true hfresh⟩
      · exact hrest
    · exact hrest

theorem readUser_found {stream : Bytes} {readAt at_ : Instant}
    (h : ∀ u ∈ config.users, ∀ timestamp,
      decodeAuthId crypto (vmessCmdKey crypto u.1) (stream.take 16) = .ok timestamp →
        Comparable timestamp (config.unixTime readAt)) :
    (readUser crypto mode config stream readAt at_).Meets fun p =>
      (p.authId.length = 16 ∧ (∃ u ∈ config.users, u.1 = p.user) ∧ Fresh crypto config p) ∧
        p.authAt = at_ := by
  have hread : (readExact 16 "read VMess auth id" stream).Meets fun r =>
      r.1 = stream.take 16 ∧ r.1.length = 16 := by
    unfold readExact
    split
    · rename_i hlen
      exact .ok ⟨rfl, List.length_take_of_le hlen⟩
    · exact .err _
  refine .bind hread fun ⟨authId, rest⟩ ⟨hauthId, hlength⟩ => ?_
  subst hauthId
  refine .bind (findUser_spec h) fun found hfound => ?_
  refine .bind .need fun user hsome => .ok ⟨⟨hlength, ⟨user, ?_, rfl⟩, ?_⟩, rfl⟩
  · exact (hfound user hsome).1
  · obtain ⟨timestamp, hdecode, hfresh⟩ := (hfound user hsome).2
    exact ⟨timestamp, hdecode, hfresh⟩

theorem readUser_meets {s : Server} {stream : Bytes} {readAt at_ : Instant}
    (h : Timely crypto mode config s (.authId stream readAt at_)) :
    (readUser crypto mode config stream readAt at_).Meets fun p =>
      Admitted crypto config p ∧ p.authAt = at_ := by
  obtain ⟨hreturns, hfound⟩ := @readUser_found crypto mode config stream readAt at_ h.1
  refine ⟨hreturns, fun p hp => ?_⟩
  obtain ⟨⟨hlength, huser, hfresh⟩, hat⟩ := hfound p hp
  exact ⟨⟨h.2 p hp, hlength, huser, hfresh⟩, hat⟩

/-! ### Runs -/

/-- What holds after every step: the cache remembers when each request was stored. -/
structure Kept (crypto : Crypto) (config : Config) (s : Server) (log : List (Instant × Bytes)) :
    Prop where
  records : s.replay.authIds.Records log s.now
  ttl : s.replay.authIds.ttl = authIdReplayTtl
  stored : ∀ p ∈ s.entries, (p.authAt, p.authId) ∈ log
  admitted : ∀ p ∈ s.entries, Admitted crypto config p
  apart : s.entries.Pairwise Apart
  returned : ∀ o ∈ s.results, o ≠ .panic

theorem pairwise_of_subperm {l l' : List Pending} (h : l'.Subperm l) (hl : l.Pairwise Apart) :
    l'.Pairwise Apart := by
  obtain ⟨mid, hperm, hsub⟩ := h
  exact hperm.pairwise (hl.sublist hsub) fun h => h.symm

section

variable {s s' : Server} {log : List (Instant × Bytes)}

theorem Kept.of_subperm (h : Kept crypto config s log)
    (hrecords : s'.replay.authIds.Records log s'.now)
    (httl : s'.replay.authIds.ttl = s.replay.authIds.ttl)
    (hentries : s'.entries.Subperm s.entries) (hreturned : ∀ o ∈ s'.results, o ≠ .panic) :
    Kept crypto config s' log where
  records := hrecords
  ttl := httl.trans h.ttl
  stored := fun p hp => h.stored p (hentries.subset hp)
  admitted := fun p hp => h.admitted p (hentries.subset hp)
  apart := pairwise_of_subperm hentries h.apart
  returned := hreturned

theorem Kept.admit (h : Kept crypto config s log) {p : Pending} {authIds : ReplayCache Bytes}
    (hle : s.now ≤ p.authAt) (hp : Admitted crypto config p)
    (hok : s.replay.authIds.checkAndStore p.authId p.authAt = (.ok (), authIds)) :
    Kept crypto config
      { s with replay := { s.replay with authIds }, pending := s.pending ++ [p], now := p.authAt }
      (log ++ [(p.authAt, p.authId)]) := by
  obtain ⟨hold, hrecords, httl⟩ := h.records.checkAndStore_ok hle hok
  rw [h.ttl] at hold
  have hperm : (s.pending ++ [p] ++ s.accepted.map Accepted.pending).Perm (p :: s.entries) := by
    rw [List.append_assoc, Server.entries]
    exact List.perm_middle
  refine ⟨hrecords, httl.trans h.ttl, fun q hq => ?_, fun q hq => ?_, ?_, h.returned⟩
  · rcases List.mem_cons.mp (hperm.mem_iff.mp hq) with rfl | hq
    · exact List.mem_append_right _ (List.mem_singleton_self _)
    · exact List.mem_append_left _ (h.stored q hq)
  · rcases List.mem_cons.mp (hperm.mem_iff.mp hq) with rfl | hq
    · exact hp
    · exact h.admitted q hq
  · refine hperm.symm.pairwise (List.pairwise_cons.mpr ⟨fun q hq heq => ?_, h.apart⟩) fun h => h.symm
    exact .inr (hold q.authAt (heq ▸ h.stored q hq))

theorem returned_result {o : Outcome Accepted} (h : ∀ o ∈ s.results, o ≠ .panic) (ho : o ≠ .panic) :
    ∀ o' ∈ (s.result o).results, o' ≠ .panic := by
  intro o' ho'
  rcases List.mem_append.mp ho' with ho' | ho'
  · exact h o' ho'
  · exact List.mem_singleton.mp ho' ▸ ho

theorem Kept.reports (h : Kept crypto config s log) {replay : VmessReplayFilter} {e : String}
    {pending : List Pending} {at_ : Instant} (hpending : pending.Subperm s.pending)
    (hrecords : replay.authIds.Records log at_) (httl : replay.authIds.ttl = s.replay.authIds.ttl) :
    Kept crypto config
      { replay, pending, results := s.results ++ [.err e], now := at_ } log := by
  refine h.of_subperm hrecords httl ?_ (returned_result h.returned nofun)
  simp only [Server.entries, Server.accepted, List.filterMap_append, List.filterMap_cons_none,
    List.filterMap_nil, List.append_nil]
  exact (List.subperm_append_right _).mpr hpending

theorem Kept.handleAuthId (h : Kept crypto config s log) {stream : Bytes} {readAt at_ : Instant}
    (htimely : Timely crypto mode config s (.authId stream readAt at_)) (hle : s.now ≤ at_) :
    ∃ log', Kept crypto config
      { s.handleAuthId crypto mode config stream readAt at_ with now := at_ } log' := by
  obtain ⟨hne, hmeets⟩ := @readUser_meets crypto mode config s stream readAt at_ htimely
  cases hread : readUser crypto mode config stream readAt at_ with
  | panic => exact absurd hread hne
  | err e =>
    simp only [Server.handleAuthId, hread]
    exact ⟨log, h.reports (.refl _) (h.records.later hle) rfl⟩
  | ok p =>
    obtain ⟨hadmitted, rfl⟩ := hmeets p hread
    cases hcheck : s.replay.authIds.checkAndStore p.authId p.authAt with
    | mk result authIds =>
      simp only [Server.handleAuthId, hread, VmessReplayFilter.checkAuthId, hcheck]
      cases result with
      | ok => exact ⟨_, h.admit hle hadmitted hcheck⟩
      | error e =>
        obtain ⟨hrecords, httl⟩ := h.records.checkAndStore_error hle hcheck
        cases e <;> exact ⟨log, h.reports (.refl _) hrecords httl⟩

theorem readHeader_pending {p : Pending} {at_ : Instant} {a : Accepted}
    (h : readHeader crypto p at_ = .ok a) : a.pending = p := by
  obtain ⟨_, -, h⟩ := bind_ok.mp h
  obtain ⟨_, -, h⟩ := bind_ok.mp h
  cases h
  rfl

theorem Kept.handleHeader (h : Kept crypto config s log) {i : ℕ} {p : Pending} {at_ : Instant}
    (hle : s.now ≤ at_) (hp : s.pending[i]? = some p) :
    Kept crypto config
      { { s with pending := s.pending.eraseIdx i }.handleHeader crypto p at_ with now := at_ } log := by
  obtain ⟨hi, hget⟩ := List.getElem?_eq_some_iff.mp hp
  have hmoved : (p :: s.pending.eraseIdx i).Perm s.pending := hget ▸ List.getElem_cons_eraseIdx_perm hi
  have hrest : (s.pending.eraseIdx i).Subperm s.pending := (s.pending.eraseIdx_sublist i).subperm
  have hrecords := h.records.later hle
  cases hread : readHeader crypto p at_ with
  | panic => exact absurd hread readHeader_ne_panic
  | err e =>
    simp only [Server.handleHeader, hread]
    exact h.reports hrest hrecords rfl
  | ok a =>
    obtain rfl := readHeader_pending hread
    cases hcheck : s.replay.sessions.checkAndStore
        (a.pending.user, a.request.requestBodyKey, a.request.requestBodyIv) at_ with
    | mk result sessions =>
      simp only [Server.handleHeader, hread, VmessReplayFilter.checkSession, hcheck]
      cases result with
      | error e => cases e <;> exact h.reports hrest hrecords rfl
      | ok =>
        refine h.of_subperm hrecords rfl ?_ (returned_result h.returned nofun)
        simp only [Server.entries, Server.accepted, Server.result, List.filterMap_append, List.map_append]
        rw [← List.append_assoc]
        exact (List.perm_append_singleton _ _).trans (hmoved.append_right _) |>.subperm

theorem Kept.step {e : Event} (h : Kept crypto config s log) (htimely : Timely crypto mode config s e)
    (hstep : s.step crypto mode config e = some s') : ∃ log', Kept crypto config s' log' := by
  unfold Server.step at hstep
  cases e with
  | authId stream readAt at_ =>
    dsimp only at hstep
    split at hstep
    · rename_i htimes
      cases hstep
      exact h.handleAuthId htimely htimes.1
    · cases hstep
  | header i at_ =>
    dsimp only at hstep
    split at hstep
    · rename_i p hp
      split at hstep
      · rename_i hle
        cases hstep
        exact ⟨log, h.handleHeader hle hp⟩
      · cases hstep
    · cases hstep
  | gone i =>
    dsimp only at hstep
    split at hstep
    · cases hstep
      refine ⟨log, h.of_subperm h.records rfl ?_ h.returned⟩
      exact (List.subperm_append_right _).mpr (s.pending.eraseIdx_sublist i).subperm
    · cases hstep

theorem kept_start {now : Instant} : Kept crypto config (Server.start now) [] where
  records := ReplayCache.records_new
  ttl := rfl
  stored := by simp [Server.entries, Server.accepted, Server.start]
  admitted := by simp [Server.entries, Server.accepted, Server.start]
  apart := .nil
  returned := by simp [Server.start]

theorem kept_run {now : Instant} {events : List Event}
    (h : Steps (Server.step crypto mode config) (Timely crypto mode config) (Server.start now) events s) :
    ∃ log, Kept crypto config s log := by
  refine h.invariant (fun s => ∃ log, Kept crypto config s log) ?_ ⟨[], kept_start⟩
  rintro s e s' ⟨log, hs⟩ htimely hstep
  exact hs.step htimely hstep

end

/-- The comparison of a timestamp with the clock is exact, and does not panic, exactly when the
difference and its absolute value fit the word. In every run in which each fresh AuthID's timestamp
lies in the past two minutes when the cache is asked, every accepted request is fresh, nothing panics,
and no request's bytes are accepted twice. -/
theorem requests_fresh_once (crypto : Crypto) (config : Config) :
    (∀ timestamp now : ℤ,
      (isFresh .checked timestamp now ≠ .panic ∧
        ∀ mode, isFresh mode timestamp now = .ok true → |timestamp - now| ≤ 120) ↔
      Comparable timestamp now) ∧
    ∀ mode now events s,
      Steps (Server.step crypto mode config) (Timely crypto mode config) (Server.start now) events s →
        (∀ o ∈ s.results, o ≠ .panic) ∧ (∀ a ∈ s.accepted, Fresh crypto config a.pending) ∧
          s.accepted.Pairwise fun a b => a.bytes ≠ b.bytes := by
  refine ⟨fresh_comparison_iff, fun mode now events s hrun => ?_⟩
  obtain ⟨log, hkept⟩ := kept_run hrun
  have hadmitted : ∀ a ∈ s.accepted, Admitted crypto config a.pending := fun a ha =>
    hkept.admitted _ (List.mem_append_right _ (List.mem_map_of_mem ha))
  refine ⟨hkept.returned, fun a ha => (hadmitted a ha).fresh, ?_⟩
  have hapart := (List.pairwise_append.mp hkept.apart).2.1
  rw [List.pairwise_map] at hapart
  refine hapart.imp_of_mem fun {a b} ha hb hab hbytes => ?_
  have hlength := (hadmitted a ha).length.trans (hadmitted b hb).length.symm
  exact (hadmitted a ha).authId_ne (hadmitted b hb) hab (List.append_inj_left hbytes hlength)

/-! ### Two runs -/

/-- An AuthID is its own plaintext, and a ciphertext the plaintext with a tag. -/
def toyCrypto : Crypto where
  md5 := id
  kdf _ _ _ := []
  aes128EcbDecrypt _ block := block
  decryptAesGcm _ _ ciphertext _ := some (ciphertext.take (ciphertext.length - 16))

def toyConfig : Config := ⟨[([1], "alice")], 0⟩

def toySealed (plaintext : Bytes) : Bytes := plaintext ++ List.replicate 16 0

def toyRequest (timestamp : ℕ) : Bytes :=
  let plain := toBe 8 timestamp ++ [0, 0, 0, 0]
  let header := [1] ++ List.replicate 34 0 ++ [5, 0, cmdMux]
  let header := header ++ toBe 4 (fnv1a32 header).toNat
  plain ++ toBe 4 (crc32Ieee plain).toNat ++ toySealed (toBe 2 header.length) ++ List.replicate 8 0 ++
    toySealed header

def arrives (stream : Bytes) (at_ : Instant) : List Event := [.authId stream at_ at_, .header 0 at_]

/-- A request sent ten seconds ago is accepted; its copy a minute later is not. -/
theorem timely_requests_accepted :
    ∃ s, Steps (Server.step toyCrypto .checked toyConfig) (Timely toyCrypto .checked toyConfig)
        (Server.start 0)
        (arrives (toyRequest 990) (seconds 1000) ++ [.authId (toyRequest 990) (seconds 1060) (seconds 1060)])
        s ∧
      s.accepted.map Accepted.bytes = [toyRequest 990] ∧
      s.results.length = 2 ∧ (∀ o ∈ s.results, o ≠ .panic) ∧
      (∀ a ∈ s.accepted, Fresh toyCrypto toyConfig a.pending) ∧
      s.accepted.Pairwise fun a b => a.bytes ≠ b.bytes := by
  obtain ⟨s, hrun, hs⟩ := steps_of_replay
    (show (Lib.replay (guarded (Server.step toyCrypto .checked toyConfig) (Timely toyCrypto .checked toyConfig))
      (Server.start 0) (arrives (toyRequest 990) (seconds 1000) ++
        [.authId (toyRequest 990) (seconds 1060) (seconds 1060)])).any
      (fun s => decide (s.accepted.map Accepted.bytes = [toyRequest 990] ∧ s.results.length = 2)) = true
      by decide +kernel)
  obtain ⟨haccepted, hresults⟩ := of_decide_eq_true hs
  exact ⟨s, hrun.of_guarded, haccepted, hresults,
    (requests_fresh_once toyCrypto toyConfig).2 .checked 0 _ s hrun.of_guarded⟩

/-- A timestamp two minutes ahead is accepted, and accepted again when both caches have forgotten
it. A timestamp whose difference to the clock is the least word passes for fresh, or panics. -/
theorem request_accepted_twice :
    (∃ s, Steps (Server.step toyCrypto .checked toyConfig) always (Server.start 0)
        (arrives (toyRequest 1120) (seconds 1000) ++ arrives (toyRequest 1120) (seconds 1200)) s ∧
      s.accepted.map Accepted.bytes = [toyRequest 1120, toyRequest 1120]) ∧
    isFresh .wrapping (-2 ^ 63 + 1000) 1000 = .ok true ∧
      isFresh .checked (-2 ^ 63 + 1000) 1000 = .panic := by
  refine ⟨?_, by decide +kernel, by decide +kernel⟩
  obtain ⟨s, hrun, hs⟩ := steps_of_replay
    (show (Lib.replay (Server.step toyCrypto .checked toyConfig) (Server.start 0)
      (arrives (toyRequest 1120) (seconds 1000) ++ arrives (toyRequest 1120) (seconds 1200))).any
      (fun s => decide (s.accepted.map Accepted.bytes = [toyRequest 1120, toyRequest 1120])) = true
      by decide +kernel)
  exact ⟨s, hrun, of_decide_eq_true hs⟩

end Aerion.Vmess
