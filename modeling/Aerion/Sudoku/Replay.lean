import Aerion.Sudoku.Handshake
import Aerion.Sudoku.RecordStream

/-!
# Replayed hellos

Over every run of a listener, two hellos that the cache let through with one
seed and one nonce reached it more than two minutes apart. A hello whose
timestamp is less than a minute ahead of the clock is too old by then, so it
is accepted once.
-/

namespace Aerion.Sudoku

open Lib Net Outcome

variable {p : Primitives} {config : Config p}

def Listener.accepted (s : Listener p) : List (Accepted p) :=
  s.results.filterMap fun
    | .ok a => some a
    | _ => none

/-- A hello that passes for fresh is less than a minute ahead of the clock when the cache is asked,
and still within a minute of it. -/
def Timely (config : Config p) (_ : Listener p) (e : Connection) : Prop :=
  ∀ h, freshHello config e = .ok h →
    h.timestamp < config.timestamp e.at_ + 60 ∧ config.timestamp e.at_ ≤ h.timestamp + 60

/-- The seed a hello was opened under, and the hello. -/
def Accepted.identity (a : Accepted p) : String × Bytes := (a.hello.candidate.credential.seed, a.hello.bytes)

def Accepted.entry (a : Accepted p) : Instant × (String × Bytes) := (a.at_, a.hello.key)

/-- Within a minute of the clock at the access to the cache, and not a whole minute ahead. -/
structure Admitted (config : Config p) (a : Accepted p) : Prop where
  ahead : a.hello.timestamp < config.timestamp a.at_ + 60
  behind : config.timestamp a.at_ ≤ a.hello.timestamp + 60

theorem lt_of_timestamp_lt {a b : ℕ} (h : config.timestamp b < config.timestamp a + 120) :
    b < a + seconds 120 := by
  unfold Config.timestamp seconds at h
  unfold seconds
  omega

theorem Admitted.within {a b : Accepted p} (ha : Admitted config a) (hb : Admitted config b)
    (h : a.hello.bytes = b.hello.bytes) : b.at_ < a.at_ + seconds 120 := by
  have hstamp : a.hello.timestamp = b.hello.timestamp := by unfold Hello.timestamp; rw [h]
  have hahead := ha.ahead
  have hbehind := hb.behind
  have hseconds : config.timestamp b.at_ < config.timestamp a.at_ + 120 := by omega
  exact lt_of_timestamp_lt hseconds

structure Kept (config : Config p) (s : Listener p) (log : List (Instant × (String × Bytes))) : Prop where
  tracks : s.replays.Tracks log s.now
  ttl : s.replays.ttl = seconds 120
  stored : (s.accepted.map Accepted.entry).Sublist log
  admitted : ∀ a ∈ s.accepted, Admitted config a

theorem kept_start {now : Instant} : Kept config (Listener.start now) [] where
  tracks := ReplayCache.tracks_new
  ttl := rfl
  stored := .slnil
  admitted := nofun

theorem answer_ok {e : Connection} {h : Hello p} {a : Accepted p} (hok : answer config e h = .ok a) :
    a.hello = h ∧ a.at_ = e.at_ := by
  obtain ⟨_, -, hok⟩ := bind_ok.mp hok
  obtain ⟨_, -, hok⟩ := bind_ok.mp hok
  obtain ⟨_, -, hok⟩ := bind_ok.mp hok
  obtain ⟨_, -, hok⟩ := bind_ok.mp hok
  obtain ⟨_, -, hok⟩ := bind_ok.mp hok
  obtain ⟨_, -, hok⟩ := bind_ok.mp hok
  cases hok
  exact ⟨rfl, rfl⟩

section

variable {s : Listener p} {log : List (Instant × (String × Bytes))}

theorem Kept.turnedAway (h : Kept config s log) {replays : ReplayCache (String × Bytes)} {at_ : Instant}
    {r : Outcome (Accepted p)} (hr : ∀ a, r ≠ .ok a) (htracks : replays.Tracks log at_)
    (httl : replays.ttl = s.replays.ttl) :
    Kept config ⟨replays, s.results ++ [r], at_⟩ log := by
  have hsame : Listener.accepted ⟨replays, s.results ++ [r], at_⟩ = s.accepted := by
    simp only [Listener.accepted, List.filterMap_append, List.filterMap_cons, List.filterMap_nil]
    cases r with
    | ok a => exact absurd rfl (hr a)
    | err m => exact List.append_nil _
    | panic => exact List.append_nil _
  refine ⟨htracks, httl.trans h.ttl, ?_, ?_⟩
  · rw [hsame]
    exact h.stored
  · rw [hsame]
    exact h.admitted

theorem Kept.stores (h : Kept config s log) {e : Connection} {hello : Hello p}
    {replays : ReplayCache (String × Bytes)} (hfresh : freshHello config e = .ok hello)
    (htimely : Timely config s e) (htracks : replays.Tracks (log ++ [(e.at_, hello.key)]) e.at_)
    (httl : replays.ttl = s.replays.ttl) :
    Kept config ⟨replays, s.results ++ [answer config e hello], e.at_⟩ (log ++ [(e.at_, hello.key)]) := by
  obtain ⟨hahead, hbehind⟩ := htimely hello hfresh
  cases hanswer : answer config e hello with
  | ok a =>
    obtain ⟨hhello, hat⟩ := answer_ok hanswer
    have hmore : Listener.accepted ⟨replays, s.results ++ [.ok a], e.at_⟩ = s.accepted ++ [a] := by
      simp only [Listener.accepted, List.filterMap_append, List.filterMap_cons, List.filterMap_nil]
    refine ⟨htracks, httl.trans h.ttl, ?_, ?_⟩
    · rw [hmore, List.map_append, List.map_singleton, Accepted.entry, hhello, hat]
      exact h.stored.append (.refl _)
    · rw [hmore]
      intro b hb
      rcases List.mem_append.mp hb with hb | hb
      · exact h.admitted b hb
      · rw [List.mem_singleton.mp hb]
        refine ⟨?_, ?_⟩
        · rw [hhello, hat]
          exact hahead
        · rw [hhello, hat]
          exact hbehind
  | err m =>
    have hkept := h.turnedAway (r := .err m) nofun h.tracks rfl
    exact ⟨htracks, httl.trans h.ttl, hkept.stored.trans (List.sublist_append_left _ _), hkept.admitted⟩
  | panic =>
    have hkept := h.turnedAway (r := .panic) nofun h.tracks rfl
    exact ⟨htracks, httl.trans h.ttl, hkept.stored.trans (List.sublist_append_left _ _), hkept.admitted⟩

theorem Kept.step {e : Connection} {s' : Listener p} (h : Kept config s log)
    (htimely : Timely config s e) (hstep : s.step config e = some s') :
    ∃ log', Kept config s' log' := by
  unfold Listener.step at hstep
  split at hstep
  · rename_i hle
    have htracks := h.tracks.later hle.2
    have hparams := s.replays.checkAndStore_params
    cases hstep
    unfold Listener.serverHandshake
    split
    · rename_i hello hfresh
      split
      · rename_i u replays hcheck
        have hacc := (htracks.accepts_iff hello.key).mp (by rw [hcheck])
        have hnext := htracks.accepted hacc
        have httl := (hparams hello.key e.at_).1
        rw [hcheck] at hnext httl
        exact ⟨_, h.stores hfresh htimely hnext httl⟩
      · rename_i replays hcheck
        obtain rfl := htracks.rejected_eq hcheck
        exact ⟨log, h.turnedAway (r := .err _) nofun htracks.pruned rfl⟩
      · rename_i replays hcheck
        obtain rfl := htracks.rejected_eq hcheck
        exact ⟨log, h.turnedAway (r := .err _) nofun htracks.pruned rfl⟩
    · exact ⟨log, h.turnedAway (r := .err _) nofun htracks rfl⟩
    · exact ⟨log, h.turnedAway (r := .panic) nofun htracks rfl⟩
  · cases hstep

end

theorem kept_run {now : Instant} {events : List Connection} {s : Listener p}
    (h : Steps (Listener.step config) (Timely config) (Listener.start now) events s) :
    ∃ log, Kept config s log := by
  refine h.invariant (fun s => ∃ log, Kept config s log) ?_ ⟨[], kept_start⟩
  rintro s e s' ⟨log, hs⟩ htimely hstep
  exact hs.step htimely hstep

/-- In every run in which each fresh hello's timestamp is less than a minute ahead of the clock, and
within a minute of it, when the cache is asked, no hello is accepted twice. -/
theorem hellos_accepted_once (config : Config p) (now : Instant) (events : List Connection)
    (s : Listener p)
    (h : Steps (Listener.step config) (Timely config) (Listener.start now) events s) :
    s.accepted.Pairwise fun a b => a.identity ≠ b.identity := by
  obtain ⟨log, hkept⟩ := kept_run h
  have hapart := hkept.tracks.apart.sublist hkept.stored
  rw [hkept.ttl, List.pairwise_map] at hapart
  refine hapart.imp_of_mem fun {a b} ha hb hab hsame => ?_
  obtain ⟨hseed, hbytes⟩ := Prod.mk.inj hsame
  have hkey : a.hello.key = b.hello.key := by
    unfold Hello.key Hello.nonce
    rw [hseed, hbytes]
  exact lt_asymm (hab hkey) ((hkept.admitted a ha).within (hkept.admitted b hb) hbytes)

/-! ### Two runs -/

def plainConfig : Config plainPrimitives where
  aead := "aes-128-gcm"
  epoch := 0
  publicKey _ := []
  diffieHellman _ _ := []
  contributory _ := true
  bases _ _ _ := .ok ([], [])

def plainTable : Table :=
  ⟨List.range grids.length, inverseOf (List.range grids.length), entropyLayout, entropyLayout, 0⟩

theorem plainTable_sound : plainTable.Sound :=
  ⟨.refl _, rfl, entropyLayout_sound, entropyLayout_sound⟩

def plainCredential : Credential := ⟨"key", "key", [], [], [plainTable]⟩

def plainHello (timestamp : ℕ) : Bytes := toBe 8 timestamp ++ List.replicate 60 0

def plainMessage (timestamp : ℕ) : Bytes := [0x6b, 0x69, 0x70, 1, 0, 68] ++ plainHello timestamp

def plainRecord (timestamp : ℕ) : Bytes :=
  Record.bytes ⟨⟨1, 1⟩, plainMessage timestamp, plainMessage timestamp ++ List.replicate 16 0⟩

/-- A client that sends these bytes at an instant, to a server that answers. -/
def arrivesAt (wire : Bytes) (at_ : Instant) : Connection :=
  ⟨[plainCredential], [wire], at_, at_, .ok (), .ok [], .ok ()⟩

/-- The receiver of the credential's only candidate, once it has the record. -/
def plainReceiver (timestamp : ℕ) : Receiver plainPrimitives :=
  { Receiver.new [] "aes-128-gcm" with decoded := plainRecord timestamp }

theorem select_first {p : Primitives} {c c' : Candidate p} {cs : List (Candidate p)} {wire : Bytes}
    {wires : List Bytes} (h : c.judge wire = .ok (.selected c')) :
    select (wire :: wires) (c :: cs) = .ok (c', wires) := by
  unfold select judgeAll
  rw [h]
  rfl

theorem plain_readHello {timestamp : ℕ}
    (htake : (plainReceiver timestamp).takeRecord.1 = .ok (some (plainMessage timestamp)))
    (hplain : (plainReceiver timestamp).takeRecord.2.plain = []) :
    ∃ wire link, ∀ at_, readHello plainConfig (arrivesAt wire at_) =
      .ok ⟨⟨plainCredential, plainTable, link⟩, plainHello timestamp⟩ := by
  obtain ⟨wire, d, -, hdecode, -⟩ := encode_pure plainTable_sound
    (Decoder.new_idle plainTable false false) (plainRecord timestamp) 0 fun _ => 0
  have hfeed : Link.feed (Link.new plainTable false false [] "aes-128-gcm") wire =
      .ok ⟨d, plainReceiver timestamp⟩ := by
    unfold Link.feed
    have hrun : (Decoder.new plainTable false false).feed wire = .ok (d, plainRecord timestamp) := hdecode
    rw [Link.new, hrun, ok_bind]
    rfl
  have hrecord : Link.takeRecord ⟨d, plainReceiver timestamp⟩ =
      .ok (some (plainMessage timestamp), ⟨d, (plainReceiver timestamp).takeRecord.2⟩) := by
    unfold Link.takeRecord
    rw [htake, ok_bind]
    rfl
  obtain ⟨link, hlink⟩ : ∃ link, Link.prepend ⟨d, (plainReceiver timestamp).takeRecord.2⟩
      (plainMessage timestamp) = link := ⟨_, rfl⟩
  have hmessage : link.receiver.plain = [0x6b, 0x69, 0x70, 1, 0, 68] ++ plainHello timestamp := by
    rw [← hlink]
    unfold Link.prepend
    rw [hplain, List.append_nil]
    rfl
  have hhello : (plainHello timestamp).length = 68 := by simp [plainHello]
  have hselect : select [wire] (candidates "aes-128-gcm" [plainCredential]) =
      .ok (⟨plainCredential, plainTable, link⟩, []) := by
    have hjudge : Candidate.judge ⟨plainCredential, plainTable,
        Link.new plainTable false false [] "aes-128-gcm"⟩ wire =
          .ok (.selected ⟨plainCredential, plainTable, link⟩) := by
      unfold Candidate.judge
      rw [hfeed, ok_bind, hrecord]
      dsimp only
      rw [if_pos (show (plainMessage timestamp).take 4 = [0x6b, 0x69, 0x70, 1] from rfl), hlink]
    exact select_first hjudge
  refine ⟨wire, link.setPlain [], fun at_ => ?_⟩
  unfold readHello
  rw [show (arrivesAt wire at_).wires = [wire] from rfl,
    show (arrivesAt wire at_).credentials = [plainCredential] from rfl,
    show plainConfig.aead = "aes-128-gcm" from rfl, hselect, ok_bind,
      Link.kip_plain hmessage (by rw [hhello]; rfl),
    ok_bind, ensure_pos (by simp [hhello]), ok_bind]
  rfl

def plainKey : String × Bytes := ("key", List.replicate 16 0)

def plainReplays (at_ : Instant) : ReplayCache (String × Bytes) :=
  ⟨{plainKey}, [(at_, plainKey)], seconds 120, 65536⟩

section

variable {s : Listener plainPrimitives} {wire : Bytes} {link : Link plainPrimitives} {timestamp : ℕ}
  {at_ : Instant} {replays : ReplayCache (String × Bytes)}
  (hread : readHello plainConfig (arrivesAt wire at_) =
    .ok ⟨⟨plainCredential, plainTable, link⟩, plainHello timestamp⟩)
  (hfresh : plainConfig.timestamp at_ - ofBe (toBe 8 timestamp) ≤ 60 ∧
    ofBe (toBe 8 timestamp) - plainConfig.timestamp at_ ≤ 60)

include hread hfresh

theorem plain_freshHello : freshHello plainConfig (arrivesAt wire at_) =
    .ok ⟨⟨plainCredential, plainTable, link⟩, plainHello timestamp⟩ :=
  bind_ok.mpr ⟨_, hread, bind_ok.mpr ⟨(), ensure_pos (decide_eq_true hfresh), rfl⟩⟩

theorem plain_accepted (hcheck : s.replays.checkAndStore plainKey at_ = (.ok (), replays)) :
    ∃ a : Accepted plainPrimitives, a.identity = ("key", plainHello timestamp) ∧
      s.serverHandshake plainConfig (arrivesAt wire at_) = (.ok a, replays) := by
  obtain ⟨a, ha⟩ : ∃ a, answer plainConfig (arrivesAt wire at_)
      ⟨⟨plainCredential, plainTable, link⟩, plainHello timestamp⟩ = .ok a := by
    unfold answer Hello.answerTable
    rw [if_neg (by simp [plainHello])]
    exact ⟨_, rfl⟩
  refine ⟨a, ?_, ?_⟩
  · rw [Accepted.identity, (answer_ok ha).1]
    rfl
  · unfold Listener.serverHandshake
    rw [plain_freshHello hread hfresh]
    dsimp only
    rw [show Hello.key _ = plainKey from rfl, show (arrivesAt wire at_).at_ = at_ from rfl, hcheck]
    dsimp only
    rw [ha]

theorem plain_replayed (hcheck : s.replays.checkAndStore plainKey at_ = (.error .replayed, replays)) :
    s.serverHandshake plainConfig (arrivesAt wire at_) = (.err "replayed Sudoku handshake", replays) := by
  unfold Listener.serverHandshake
  rw [plain_freshHello hread hfresh]
  dsimp only
  rw [show Hello.key _ = plainKey from rfl, show (arrivesAt wire at_).at_ = at_ from rfl, hcheck]

end

theorem plain_checks :
    handshakeReplays.checkAndStore plainKey (seconds 1000) = (.ok (), plainReplays (seconds 1000)) ∧
      (plainReplays (seconds 1000)).checkAndStore plainKey (seconds 1119) =
        (.error .replayed, plainReplays (seconds 1000)) ∧
      (plainReplays (seconds 1000)).checkAndStore plainKey (seconds 1120 + 500000000) =
        (.ok (), plainReplays (seconds 1120 + 500000000)) := by
  decide +kernel

theorem step_of_le {p : Primitives} {config : Config p} {s : Listener p} {e : Connection}
    {r : Outcome (Accepted p)} {replays : ReplayCache (String × Bytes)}
    (hle : e.readAt ≤ e.at_ ∧ s.now ≤ e.at_) (h : s.serverHandshake config e = (r, replays)) :
    s.step config e = some ⟨replays, s.results ++ [r], e.at_⟩ := by
  unfold Listener.step
  rw [if_pos hle, h]

/-- A hello that is 59 seconds ahead is accepted once: its copy is still remembered while it is
fresh. -/
theorem hello_accepted_once :
    ∃ wire s, Steps (Listener.step plainConfig) (Timely plainConfig) (Listener.start 0)
        [arrivesAt wire (seconds 1000), arrivesAt wire (seconds 1119)] s ∧
      s.accepted.map Accepted.identity = [("key", plainHello 1059)] ∧ s.results.length = 2 ∧
      s.accepted.Pairwise fun a b => a.identity ≠ b.identity := by
  obtain ⟨wire, link, hread⟩ := @plain_readHello 1059 (by decide +kernel) (by decide +kernel)
  have htimely : ∀ s at_, 1000 ≤ plainConfig.timestamp at_ ∧ plainConfig.timestamp at_ ≤ 1119 →
      Timely plainConfig s (arrivesAt wire at_) := by
    intro s at_ hclock h hfresh
    obtain ⟨hello, hhello, hfresh⟩ := bind_ok.mp hfresh
    obtain ⟨_, -, hfresh⟩ := bind_ok.mp hfresh
    obtain rfl := Outcome.ok.inj hfresh
    obtain rfl := Outcome.ok.inj ((hread _).symm.trans hhello)
    have hstamp : ofBe (toBe 8 1059) = 1059 := by decide +kernel
    show ofBe (toBe 8 1059) < plainConfig.timestamp at_ + 60 ∧
      plainConfig.timestamp at_ ≤ ofBe (toBe 8 1059) + 60
    omega
  obtain ⟨hfirst, hsecond, -⟩ := plain_checks
  obtain ⟨a, hidentity, hserved⟩ := plain_accepted (s := Listener.start 0) (hread _) (by decide +kernel) hfirst
  have hturned := plain_replayed (s := ⟨plainReplays (seconds 1000), [.ok a], seconds 1000⟩)
    (hread _) (by decide +kernel) hsecond
  have hlater : seconds 1000 ≤ seconds 1119 := by decide
  have hrun : Steps (Listener.step plainConfig) (Timely plainConfig) (Listener.start 0)
      [arrivesAt wire (seconds 1000), arrivesAt wire (seconds 1119)]
      ⟨plainReplays (seconds 1000), [.ok a, .err "replayed Sudoku handshake"], seconds 1119⟩ :=
    .cons (htimely _ _ (by decide +kernel)) (step_of_le ⟨le_rfl, Nat.zero_le _⟩ hserved)
      (.cons (htimely _ _ (by decide +kernel)) (step_of_le ⟨le_rfl, hlater⟩ hturned) .nil)
  exact ⟨wire, _, hrun, by rw [← hidentity]; rfl, rfl, hellos_accepted_once _ _ _ _ hrun⟩

/-- A hello that is sixty seconds ahead is accepted, and accepted again when the cache has forgotten
it: it is fresh for 121 seconds by the clock and remembered for 120. -/
theorem hello_accepted_twice :
    ∃ wire s, Steps (Listener.step plainConfig) always (Listener.start 0)
        [arrivesAt wire (seconds 1000), arrivesAt wire (seconds 1120 + 500000000)] s ∧
      s.accepted.map Accepted.identity = [("key", plainHello 1060), ("key", plainHello 1060)] := by
  obtain ⟨wire, link, hread⟩ := @plain_readHello 1060 (by decide +kernel) (by decide +kernel)
  obtain ⟨hfirst, -, hsecond⟩ := plain_checks
  obtain ⟨a, ha, hserved⟩ := plain_accepted (s := Listener.start 0) (hread _) (by decide +kernel) hfirst
  obtain ⟨b, hb, hserved'⟩ := plain_accepted (s := ⟨plainReplays (seconds 1000), [.ok a], seconds 1000⟩)
    (hread _) (by decide +kernel) hsecond
  have hlater : seconds 1000 ≤ seconds 1120 + 500000000 := by decide
  have hrun : Steps (Listener.step plainConfig) always (Listener.start 0)
      [arrivesAt wire (seconds 1000), arrivesAt wire (seconds 1120 + 500000000)]
      ⟨plainReplays (seconds 1120 + 500000000), [.ok a, .ok b], seconds 1120 + 500000000⟩ :=
    .cons trivial (step_of_le ⟨le_rfl, Nat.zero_le _⟩ hserved)
      (.cons trivial (step_of_le ⟨le_rfl, hlater⟩ hserved') .nil)
  refine ⟨wire, _, hrun, ?_⟩
  show [a.identity, b.identity] = _
  rw [ha, hb]

end Aerion.Sudoku
