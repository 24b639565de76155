import Aerion.Lib.Fair
import Aerion.Lib.Framing
import Aerion.Lib.Words
import Mathlib.Data.List.GetD
import Mathlib.Data.List.Infix

/-!
# The UDP relay of a VLESS server

`relay_vless_udp` reads a frame from the client, sends it to the target,
waits for one datagram of the target and writes that back as a frame.

A schedule says what happens at each moment: bytes of the client arrive, the
client closes its half, a datagram of the target reaches the socket, or the
relay runs to its next `await`.
-/

namespace Aerion.Vless.UdpRelay

open Lib Outcome

/-- An `await` has a value, or it has to be polled again. -/
inductive Poll (α : Type) where
  | pending
  | ready (value : α)

/-- Reads one frame; at the end of the stream there is none. The rest of the stream comes with the
payload. -/
def readVlessUdpFrame (stream : Bytes) (closed : Bool) : Poll (Outcome (Option (Bytes × Bytes))) :=
  if stream.length < 2 then
    if closed then .ready (.ok none) else .pending
  else
    let len := ofBe (stream.take 2)
    if stream.length - 2 < len then
      if closed then .ready (.err "read VLESS UDP frame payload") else .pending
    else .ready (.ok (some ((stream.drop 2).take len, (stream.drop 2).drop len)))

def writeVlessUdpFrame (payload : Bytes) : Outcome Bytes := do
  ensure (payload.length ≤ 65535) "VLESS UDP payload too large"
  pure (toBe 2 payload.length ++ payload)

inductive Phase where
  | reading
  | sending (payload : Bytes)
  | receiving
  | writing (datagram : Bytes)
  | finished (result : Outcome Unit)
  deriving DecidableEq, Repr

/-- The loop, the bytes of the client and the datagrams of the target it has not read, and what it
has sent to the target and written to the client, frame by frame. -/
structure Relay where
  unread : Bytes
  closed : Bool
  queue : List Bytes
  phase : Phase
  forwarded : List Bytes
  written : List Bytes
  deriving DecidableEq, Repr

def Relay.new : Relay := ⟨[], false, [], .reading, [], []⟩

inductive Event where
  | client (bytes : Bytes)
  | close
  | datagram (payload : Bytes)
  | run
  deriving DecidableEq, Repr

def Relay.onFrame (r : Relay) : Poll (Outcome (Option (Bytes × Bytes))) → Relay
  | .pending => r
  | .ready (.ok (some (payload, rest))) => { r with unread := rest, phase := .sending payload }
  | .ready (.ok none) => { r with phase := .finished (.ok ()) }
  | .ready (.err e) => { r with phase := .finished (.err e) }
  | .ready .panic => { r with phase := .finished .panic }

/-- `udp.recv` into a buffer of `u16::MAX` bytes. -/
def Relay.receive (r : Relay) : List Bytes → Relay
  | [] => r
  | datagram :: queue => { r with queue, phase := .writing (datagram.take 65535) }

def Relay.onWritten (r : Relay) : Outcome Bytes → Relay
  | .ok bytes => { r with written := r.written ++ [bytes], phase := .reading }
  | .err e => { r with phase := .finished (.err e) }
  | .panic => { r with phase := .finished .panic }

/-- `relay_vless_udp` up to its next `await`. -/
def Relay.run (r : Relay) : Relay :=
  match r.phase with
  | .reading => r.onFrame (readVlessUdpFrame r.unread r.closed)
  | .sending payload => { r with forwarded := r.forwarded ++ [payload], phase := .receiving }
  | .receiving => r.receive r.queue
  | .writing datagram => r.onWritten (writeVlessUdpFrame datagram)
  | .finished _ => r

def Relay.step (r : Relay) : Event → Relay
  | .client bytes => if r.closed then r else { r with unread := r.unread ++ bytes }
  | .close => { r with closed := true }
  | .datagram payload => { r with queue := r.queue ++ [payload] }
  | .run => r.run

/-! ### What the two ends have sent -/

def frameAt (stream : Bytes) : Option (Bytes × Bytes) :=
  if 2 ≤ stream.length ∧ ofBe (stream.take 2) ≤ stream.length - 2 then
    some ((stream.drop 2).take (ofBe (stream.take 2)), (stream.drop 2).drop (ofBe (stream.take 2)))
  else none

def udpFrame (datagram : Bytes) : Bytes :=
  toBe 2 (datagram.take 65535).length ++ datagram.take 65535

def clientStream (schedule : ℕ → Event) : ℕ → Bytes × Bool
  | 0 => ([], false)
  | n + 1 => match schedule n with
    | .client more =>
      if (clientStream schedule n).2 then clientStream schedule n
      else ((clientStream schedule n).1 ++ more, false)
    | .close => ((clientStream schedule n).1, true)
    | _ => clientStream schedule n

def clientFrames (schedule : ℕ → Event) (n : ℕ) : List Bytes :=
  fronts frameAt (clientStream schedule n).1

def targetDatagrams (schedule : ℕ → Event) : ℕ → List Bytes
  | 0 => []
  | n + 1 => match schedule n with
    | .datagram payload => targetDatagrams schedule n ++ [payload]
    | _ => targetDatagrams schedule n

/-- The relay after `n` moments. -/
def after (schedule : ℕ → Event) (n : ℕ) : Relay := runOf Relay.step schedule .new n

/-- Everything either end sends gets to the other end at some moment. -/
def Progresses (schedule : ℕ → Event) : Prop :=
  ∀ n, ∃ m, clientFrames schedule n <+: (after schedule m).forwarded ∧
    (targetDatagrams schedule n).map udpFrame <+: (after schedule m).written

/-- Neither end gets ahead of the other for good: the target answers every frame but perhaps the
last, and sends no more datagrams than it is sent frames. -/
def TakesTurns (schedule : ℕ → Event) : Prop :=
  ∀ n, ∃ m, (clientFrames schedule n).length ≤ (targetDatagrams schedule m).length + 1 ∧
    (targetDatagrams schedule n).length ≤ (clientFrames schedule m).length

def RunAgain (schedule : ℕ → Event) : Prop := ∀ n, ∃ m, n ≤ m ∧ schedule m = .run

theorem frameAt_takes : TakesFront frameAt where
  shrinks stream payload rest h := by
    unfold frameAt at h
    split at h
    · simp only [Option.some.injEq, Prod.mk.injEq] at h
      rw [← h.2, List.length_drop, List.length_drop]
      omega
    · cases h
  stable stream payload rest more h := by
    unfold frameAt at h
    split at h
    · rename_i hwhole
      simp only [Option.some.injEq, Prod.mk.injEq] at h
      have htake : (stream ++ more).take 2 = stream.take 2 := List.take_append_of_le_length hwhole.1
      have hdrop : (stream ++ more).drop 2 = stream.drop 2 ++ more :=
        List.drop_append_of_le_length hwhole.1
      have hlen : ofBe (stream.take 2) ≤ (stream.drop 2).length := by
        rw [List.length_drop]; exact hwhole.2
      rw [frameAt, if_pos (by rw [htake, List.length_append]; omega), htake, hdrop,
        List.take_append_of_le_length hlen, List.drop_append_of_le_length hlen, h.1, h.2]
    · cases h

/-! ### What a run keeps -/

namespace Relay

def inHand (r : Relay) : List Bytes :=
  match r.phase with
  | .sending payload => [payload]
  | _ => []

def answering (r : Relay) : List Bytes :=
  match r.phase with
  | .writing datagram => [udpFrame datagram]
  | _ => []

def position (r : Relay) : ℕ :=
  match r.phase with
  | .reading | .finished _ => 4 * r.written.length
  | .sending _ => 4 * r.written.length + 1
  | .receiving => 4 * r.written.length + 2
  | .writing _ => 4 * r.written.length + 3

def awaits (r : Relay) : ℕ :=
  match r.phase with
  | .receiving | .writing _ => 1
  | _ => 0

structure Follows (client : Bytes × Bool) (datagrams : List Bytes) (r : Relay) : Prop where
  closed : r.closed = client.2
  frames : ∀ more, fronts frameAt (client.1 ++ more) =
    r.forwarded ++ r.inHand ++ fronts frameAt (r.unread ++ more)
  datagrams : datagrams.map udpFrame = r.written ++ r.answering ++ r.queue.map udpFrame
  turn : r.forwarded.length = r.written.length + r.awaits
  short : ∀ payload, r.phase = .writing payload → payload.length ≤ 65535
  ended : ∀ result, r.phase = .finished result → r.closed = true ∧ frameAt r.unread = none

end Relay

theorem readVlessUdpFrame_some {stream payload rest : Bytes} {closed : Bool}
    (h : frameAt stream = some (payload, rest)) :
    readVlessUdpFrame stream closed = .ready (.ok (some (payload, rest))) := by
  unfold frameAt at h
  split at h
  · rw [readVlessUdpFrame, if_neg (by omega)]
    dsimp only
    rw [if_neg (by omega), Option.some.inj h]
  · cases h

theorem readVlessUdpFrame_none
    {stream : Bytes} (closed : Bool) (h : frameAt stream = none) (r : Relay) :
    r.onFrame (readVlessUdpFrame stream closed) = r ∨
      closed = true ∧ ∃ result, r.onFrame (readVlessUdpFrame stream closed) =
        { r with phase := .finished result } := by
  unfold frameAt at h
  split at h
  · cases h
  · unfold readVlessUdpFrame
    dsimp only
    cases closed
    · left
      split
      · rfl
      · rw [if_pos (by omega)]
        rfl
    · right
      refine ⟨rfl, ?_⟩
      split
      · exact ⟨.ok (), rfl⟩
      · rw [if_pos (by omega)]
        exact ⟨_, rfl⟩

theorem writeVlessUdpFrame_short {payload : Bytes} (h : payload.length ≤ 65535) :
    writeVlessUdpFrame payload = .ok (udpFrame payload) := by
  rw [writeVlessUdpFrame, ensure_pos (by simpa using h), udpFrame, List.take_of_length_le h]
  rfl

theorem udpFrame_take (datagram : Bytes) : udpFrame (datagram.take 65535) = udpFrame datagram := by
  rw [udpFrame, List.take_take, Nat.min_self]
  rfl

namespace Relay

variable {client : Bytes × Bool} {datagrams : List Bytes} {r : Relay} {schedule : ℕ → Event}

/-- What one run of the loop does: it takes a step of its turn, or it waits for one of the ends. -/
inductive Runs (r : Relay) : Relay → Prop where
  | read {payload rest : Bytes} : r.phase = .reading → frameAt r.unread = some (payload, rest) →
    Runs r { r with unread := rest, phase := .sending payload }
  | send {payload : Bytes} : r.phase = .sending payload →
    Runs r { r with forwarded := r.forwarded ++ [payload], phase := .receiving }
  | receive {datagram : Bytes} {queue : List Bytes} : r.phase = .receiving →
    r.queue = datagram :: queue → Runs r { r with queue, phase := .writing (datagram.take 65535) }
  | write {payload : Bytes} : r.phase = .writing payload →
    Runs r { r with written := r.written ++ [udpFrame payload], phase := .reading }
  | noFrame : r.phase = .reading → frameAt r.unread = none → Runs r r
  | finish {result : Outcome Unit} : r.phase = .reading → frameAt r.unread = none →
    r.closed = true → Runs r { r with phase := .finished result }
  | noDatagram : r.phase = .receiving → r.queue = [] → Runs r r
  | finished {result : Outcome Unit} : r.phase = .finished result → Runs r r

theorem Follows.runs (h : Follows client datagrams r) : Runs r r.run := by
  unfold run
  cases hphase : r.phase with
  | reading =>
    dsimp only
    cases hframe : frameAt r.unread with
    | none =>
      rcases readVlessUdpFrame_none r.closed hframe r with hsame | ⟨hclosed, result, hend⟩
      · rw [hsame]
        exact .noFrame hphase hframe
      · rw [hend]
        exact .finish hphase hframe hclosed
    | some next =>
      obtain ⟨payload, rest⟩ := next
      rw [readVlessUdpFrame_some hframe]
      exact .read hphase hframe
  | sending payload => exact .send hphase
  | receiving =>
    dsimp only
    cases hqueue : r.queue with
    | nil => exact .noDatagram hphase hqueue
    | cons datagram queue => exact .receive hphase hqueue
  | writing payload =>
    dsimp only
    rw [writeVlessUdpFrame_short (h.short payload hphase)]
    exact .write hphase
  | finished result => exact .finished hphase

theorem Follows.run (h : Follows client datagrams r) : Follows client datagrams r.run := by
  have hruns := h.runs
  obtain ⟨hclosed, hframes, hdatagrams, hturn, hshort, hended⟩ := h
  generalize r.run = next at hruns
  cases hruns with
  | read hphase hframe =>
    simp only [inHand, answering, awaits, hphase] at hframes hdatagrams hturn
    refine ⟨hclosed, fun more => ?_, hdatagrams, hturn, nofun, nofun⟩
    rw [hframes more, fronts_some frameAt_takes (frameAt_takes.stable _ _ _ more hframe)]
    simp [inHand]
  | send hphase =>
    simp only [inHand, answering, awaits, hphase] at hframes hdatagrams hturn
    refine ⟨hclosed, fun more => ?_, hdatagrams, by simpa [awaits] using hturn, nofun, nofun⟩
    rw [hframes more]
    simp [inHand]
  | receive hphase hqueue =>
    simp only [inHand, answering, awaits, hphase] at hframes hdatagrams hturn
    refine ⟨hclosed, hframes, ?_, hturn, fun payload hpayload => ?_, nofun⟩
    · rw [hdatagrams, hqueue]
      simp [answering, udpFrame_take]
    · obtain rfl := Phase.writing.inj hpayload
      rw [List.length_take]
      exact Nat.min_le_left _ _
  | write hphase =>
    simp only [inHand, answering, awaits, hphase] at hframes hdatagrams hturn
    refine ⟨hclosed, hframes, ?_, by simpa [awaits] using hturn, nofun, nofun⟩
    rw [hdatagrams]
    simp [answering]
  | finish hphase hframe hend =>
    simp only [inHand, answering, awaits, hphase] at hframes hdatagrams hturn
    exact ⟨hclosed, hframes, hdatagrams, hturn, nofun, fun _ _ => ⟨hend, hframe⟩⟩
  | noFrame | noDatagram | finished => exact ⟨hclosed, hframes, hdatagrams, hturn, hshort, hended⟩

theorem follows_after (schedule : ℕ → Event) (n : ℕ) :
    Follows (clientStream schedule n) (targetDatagrams schedule n) (after schedule n) := by
  induction n with
  | zero => exact ⟨rfl, fun _ => rfl, rfl, rfl, nofun, nofun⟩
  | succ n ih =>
    show Follows _ _ ((after schedule n).step (schedule n))
    rw [clientStream, targetDatagrams]
    cases schedule n with
    | run => exact ih.run
    | close =>
      exact ⟨rfl, ih.frames, ih.datagrams, ih.turn, ih.short, fun result h =>
        ⟨rfl, (ih.ended result h).2⟩⟩
    | datagram payload =>
      refine ⟨ih.closed, ih.frames, ?_, ih.turn, ih.short, ih.ended⟩
      rw [List.map_append, ih.datagrams]
      simp [step, answering]
    | client more =>
      dsimp only [step]
      rw [ih.closed]
      split
      · exact ih
      · rename_i hopen
        refine ⟨Bool.eq_false_iff.mpr hopen, fun rest => ?_, ih.datagrams, ih.turn, ih.short,
          fun result h => absurd (ih.closed ▸ (ih.ended result h).1) hopen⟩
        rw [List.append_assoc, ih.frames, ← List.append_assoc (after schedule n).unread]
        rfl

theorem Follows.forwarded_prefix (h : Follows client datagrams r) :
    r.forwarded <+: fronts frameAt client.1 := by
  have hframes := h.frames []
  rw [List.append_nil, List.append_assoc] at hframes
  exact ⟨_, hframes.symm⟩

theorem Follows.written_prefix (h : Follows client datagrams r) :
    r.written <+: datagrams.map udpFrame := by
  have hdatagrams := h.datagrams
  rw [List.append_assoc] at hdatagrams
  exact ⟨_, hdatagrams.symm⟩

/-! ### How far the loop gets -/

/-- The position at which the loop has to wait for one of two ends that have sent so many frames and
so many datagrams. -/
def mark (frames datagrams : ℕ) : ℕ := if datagrams < frames then 4 * datagrams + 2 else 4 * frames

theorem mark_mono {frames frames' datagrams datagrams' : ℕ} (hframes : frames ≤ frames')
    (hdatagrams : datagrams ≤ datagrams') : mark frames datagrams ≤ mark frames' datagrams' := by
  unfold mark
  split <;> split <;> omega

theorem Follows.position_run (h : Follows client datagrams r) :
    r.run.position = r.position + 1 ∨
      r.run.position = r.position ∧
        mark (fronts frameAt client.1).length datagrams.length ≤ r.position := by
  have hruns := h.runs
  have hframes := congrArg List.length (h.frames [])
  have hdatagrams := congrArg List.length h.datagrams
  have hturn := h.turn
  have hended := h.ended
  simp only [List.length_append, List.length_map, List.append_nil] at hframes hdatagrams
  generalize r.run = next at hruns
  cases hruns with
  | read hphase => exact .inl (by simp [position, hphase])
  | send hphase => exact .inl (by simp [position, hphase])
  | receive hphase => exact .inl (by simp [position, hphase])
  | write hphase => exact .inl (by simp [position, hphase]; omega)
  | noFrame hphase hframe | finish hphase hframe =>
    simp only [inHand, awaits, hphase, fronts_none hframe, List.length_nil] at hframes hturn
    refine .inr ⟨by simp [position, hphase], ?_⟩
    rw [hframes, hturn]
    simp only [position, hphase, mark]
    split <;> omega
  | noDatagram hphase hqueue =>
    simp only [inHand, answering, awaits, hphase, hqueue, List.length_nil]
      at hframes hdatagrams hturn
    refine .inr ⟨rfl, ?_⟩
    simp only [position, hphase, mark]
    split <;> omega
  | finished hphase =>
    simp only [inHand, awaits, hphase, fronts_none (hended _ hphase).2, List.length_nil]
      at hframes hturn
    refine .inr ⟨rfl, ?_⟩
    rw [hframes, hturn]
    simp only [position, hphase, mark]
    split <;> omega

theorem position_step (n : ℕ) :
    (after schedule n).position ≤ (after schedule (n + 1)).position := by
  show _ ≤ ((after schedule n).step (schedule n)).position
  cases schedule n with
  | client bytes =>
    dsimp only [step]
    split <;> exact Nat.le_refl _
  | close | datagram => exact Nat.le_refl _
  | run =>
    show _ ≤ (after schedule n).run.position
    rcases (follows_after schedule n).position_run with h | h <;> omega

theorem clientFrames_step (n : ℕ) : clientFrames schedule n <+: clientFrames schedule (n + 1) := by
  unfold clientFrames
  rw [clientStream]
  cases schedule n with
  | client more =>
    dsimp only
    split
    · exact List.prefix_rfl
    · exact fronts_append frameAt_takes _ _
  | close | datagram | run => exact List.prefix_rfl

theorem targetDatagrams_step (n : ℕ) :
    targetDatagrams schedule n <+: targetDatagrams schedule (n + 1) := by
  rw [targetDatagrams]
  cases schedule n with
  | datagram payload => exact List.prefix_append _ _
  | client | close | run => exact List.prefix_rfl

end Relay

theorem prefix_later {α : Type} {f : ℕ → List α} (hstep : ∀ n, f n <+: f (n + 1))
    {n m : ℕ} (h : n ≤ m) :
    f n <+: f m := by
  induction h with
  | refl => exact List.prefix_rfl
  | step _ ih => exact ih.trans (hstep _)

section
variable {schedule : ℕ → Event}

theorem clientFrames_later (schedule : ℕ → Event) {n m : ℕ} (h : n ≤ m) :
    clientFrames schedule n <+: clientFrames schedule m :=
  prefix_later Relay.clientFrames_step h

theorem targetDatagrams_later (schedule : ℕ → Event) {n m : ℕ} (h : n ≤ m) :
    targetDatagrams schedule n <+: targetDatagrams schedule m :=
  prefix_later Relay.targetDatagrams_step h

theorem catches_up (hrun : RunAgain schedule) (n : ℕ) :
    ∃ m, n ≤ m ∧
      min (clientFrames schedule n).length ((targetDatagrams schedule n).length + 1) ≤
        (after schedule m).forwarded.length ∧
      min (targetDatagrams schedule n).length (clientFrames schedule n).length ≤
        (after schedule m).written.length := by
  obtain ⟨m, hle, hmark⟩ := @climbs _ _ Relay.step schedule .new Relay.position (· = .run)
    (Relay.mark (clientFrames schedule n).length (targetDatagrams schedule n).length) n
    Relay.position_step hrun fun m hm hstep hbelow => by
      show _ < ((after schedule m).step (schedule m)).position
      rw [hstep]
      rcases (Relay.follows_after schedule m).position_run with hup | ⟨-, hblocked⟩
      · exact Nat.lt_of_lt_of_eq (Nat.lt_succ_self _) hup.symm
      · have hmono := Relay.mark_mono (clientFrames_later schedule hm).length_le
          (targetDatagrams_later schedule hm).length_le
        exact absurd (Nat.lt_of_lt_of_le hbelow (Nat.le_trans hmono hblocked)) (Nat.lt_irrefl _)
  have hturn := (Relay.follows_after schedule m).turn
  refine ⟨m, hle, ?_⟩
  change Relay.mark _ _ ≤ (after schedule m).position at hmark
  unfold Relay.mark at hmark
  unfold Relay.position at hmark
  unfold Relay.awaits at hturn
  split at hmark <;> split at hmark <;> simp_all only <;> omega

theorem takesTurns_of_progresses (h : Progresses schedule) : TakesTurns schedule := by
  intro n
  obtain ⟨m, hforwarded, hwritten⟩ := h n
  have hfollows := Relay.follows_after schedule m
  have hframes := hforwarded.length_le
  have hdatagrams := hwritten.length_le
  have hsent := hfollows.forwarded_prefix.length_le
  have hback := hfollows.written_prefix.length_le
  have hturn := hfollows.turn
  have hone : (after schedule m).awaits ≤ 1 := by unfold Relay.awaits; split <;> omega
  rw [List.length_map] at hdatagrams hback
  exact ⟨m, by omega, by unfold clientFrames; omega⟩

/-- Both directions make progress exactly when the two ends take turns. -/
theorem relay_progresses_iff (hrun : RunAgain schedule) :
    Progresses schedule ↔ TakesTurns schedule := by
  constructor
  · exact takesTurns_of_progresses
  · intro h n
    obtain ⟨later, hframes, hdatagrams⟩ := h n
    obtain ⟨m, hle, hforwarded, hwritten⟩ := catches_up hrun (max n later)
    have hn : n ≤ m := Nat.le_trans (Nat.le_max_left _ _) hle
    have hfollows := Relay.follows_after schedule m
    have hframes' := (clientFrames_later schedule (Nat.le_max_left n later)).length_le
    have hframes'' := (clientFrames_later schedule (Nat.le_max_right n later)).length_le
    have hdatagrams' := (targetDatagrams_later schedule (Nat.le_max_left n later)).length_le
    have hdatagrams'' := (targetDatagrams_later schedule (Nat.le_max_right n later)).length_le
    refine ⟨m, ?_, ?_⟩
    · exact List.prefix_of_prefix_length_le (clientFrames_later schedule hn)
        hfollows.forwarded_prefix (by omega)
    · exact List.prefix_of_prefix_length_le ((targetDatagrams_later schedule hn).map udpFrame)
        hfollows.written_prefix
        (by rw [List.length_map]; omega)

end

/-! ### Ends that send only so much -/

def scripted (events : List Event) (n : ℕ) : Event := events.getD n .run

theorem scripted_end (events : List Event) (k : ℕ) :
    scripted events (events.length + k) = .run := by
  rw [scripted, List.getD_eq_default _ _ (Nat.le_add_right _ _)]

theorem runAgain_scripted (events : List Event) : RunAgain (scripted events) :=
  fun n => ⟨events.length + n, Nat.le_add_left _ _, scripted_end events n⟩

theorem clientFrames_scripted (events : List Event) (k : ℕ) :
    clientFrames (scripted events) (events.length + k) =
      clientFrames (scripted events) events.length := by
  unfold clientFrames
  induction k with
  | zero => rfl
  | succ k ih => rw [← Nat.add_assoc, clientStream, scripted_end, ih]

theorem targetDatagrams_scripted (events : List Event) (k : ℕ) :
    targetDatagrams (scripted events) (events.length + k) =
      targetDatagrams (scripted events) events.length := by
  induction k with
  | zero => rfl
  | succ k ih => rw [← Nat.add_assoc, targetDatagrams, scripted_end, ih]

theorem takesTurns_scripted (events : List Event) :
    TakesTurns (scripted events) ↔
      (clientFrames (scripted events) events.length).length ≤
          (targetDatagrams (scripted events) events.length).length + 1 ∧
        (targetDatagrams (scripted events) events.length).length ≤
          (clientFrames (scripted events) events.length).length := by
  have hframes : ∀ n, (clientFrames (scripted events) n).length ≤
      (clientFrames (scripted events) events.length).length := fun n => by
    rw [← clientFrames_scripted events n]
    exact (clientFrames_later _ (Nat.le_add_left _ _)).length_le
  have hdatagrams : ∀ n, (targetDatagrams (scripted events) n).length ≤
      (targetDatagrams (scripted events) events.length).length := fun n => by
    rw [← targetDatagrams_scripted events n]
    exact (targetDatagrams_later _ (Nat.le_add_left _ _)).length_le
  constructor
  · intro h
    obtain ⟨m, hcount, hcount'⟩ := h events.length
    exact ⟨Nat.le_trans hcount (Nat.succ_le_succ (hdatagrams m)), Nat.le_trans hcount' (hframes m)⟩
  · rintro ⟨hcount, hcount'⟩ n
    exact ⟨events.length, Nat.le_trans (hframes n) hcount, Nat.le_trans (hdatagrams n) hcount'⟩

/-- The second of two frames to a target that does not answer is never forwarded, and the second
answer to a frame never written back. -/
theorem turns_block :
    (RunAgain (scripted [.client [0, 1, 7, 0, 1, 8]]) ∧
      ¬Progresses (scripted [.client [0, 1, 7, 0, 1, 8]])) ∧
      RunAgain (scripted [.client [0, 1, 7], .datagram [1], .datagram [2]]) ∧
        ¬Progresses (scripted [.client [0, 1, 7], .datagram [1], .datagram [2]]) := by
  refine ⟨⟨runAgain_scripted _, fun h => ?_⟩, runAgain_scripted _, fun h => ?_⟩
  · exact absurd ((takesTurns_scripted _).mp (takesTurns_of_progresses h)) (by decide +kernel)
  · exact absurd ((takesTurns_scripted _).mp (takesTurns_of_progresses h)) (by decide +kernel)

theorem answered_frames_progress :
    Progresses (scripted [.client [0, 1, 7, 0, 1, 8], .datagram [1], .datagram [2]]) :=
  (relay_progresses_iff (runAgain_scripted _)).mpr ((takesTurns_scripted _).mpr (by decide +kernel))

end Aerion.Vless.UdpRelay
