import Aerion.Lib.Outcome
import Aerion.Lib.Steps
import Mathlib.Order.Nat

/-!
# The two-way relay

`relay_split_with_close_mode` of `src/relay.rs`: a loop for each direction
reads into a buffer, records the traffic, writes and flushes, and the two run
side by side until both have ended, one has failed or the session is
cancelled; where FIN is not passed on, until one has ended. What the streams,
the writers and the accounting answer are the labels of a step.
-/

namespace Aerion.Relay

open Lib

def bufferLen : ℕ := 32 * 1024

structure Config where
  halfClose : Bool
  /-- The session has a user; one that is `CoreSession::disabled` records and cancels nothing. -/
  accounted : Bool
  label : String

inductive Phase where
  | reading
  | recording
  | writing
  | flushing
  | closing
  | returned (result : Outcome Unit)
  deriving DecidableEq

structure Direction where
  phase : Phase
  /-- All that was read. -/
  bytesRead : Bytes
  eof : Bool
  /-- The part of the buffer that is still to be written. -/
  held : Bytes
  recorded : ℕ
  /-- What the opposite writer took. -/
  delivered : Bytes
  /-- What it had taken when the loop shut it down. -/
  shutAfter : Option Bytes
  deriving DecidableEq

def Direction.new : Direction := ⟨.reading, [], false, [], 0, [], none⟩

inductive LoopEvent where
  | read (chunk : Bytes)
  | readEnd
  | readFailed
  | recorded
  | recordFailed (e : String)
  | wrote (n : ℕ)
  | writeFailed
  | flushed
  | flushFailed
  | shut
  | shutFailed (e : String)

def Direction.fail (d : Direction) (e : String) : Direction := { d with phase := .returned (.err e) }

/-- One await of a loop and the code up to the next. A write of nothing is among the failures. -/
def Direction.step (c : Config) (name : String) (d : Direction) (e : LoopEvent) : Option Direction :=
  match d.phase, e with
  | .reading, .read chunk =>
    if 0 < chunk.length ∧ chunk.length ≤ bufferLen then
      some { d with phase := .recording, bytesRead := d.bytesRead ++ chunk, held := chunk }
    else none
  | .reading, .readEnd =>
    some { d with eof := true, phase := if c.halfClose then .closing else .returned (.ok ()) }
  | .reading, .readFailed => some (d.fail ("read " ++ c.label ++ " " ++ name))
  | .recording, .recorded =>
    some { d with phase := .writing, recorded := if c.accounted then d.recorded + d.held.length else d.recorded }
  | .recording, .recordFailed e => if c.accounted then some (d.fail e) else none
  | .writing, .wrote n =>
    if 0 < n ∧ n ≤ d.held.length then
      some { d with
        delivered := d.delivered ++ d.held.take n
        held := d.held.drop n
        phase := if n = d.held.length then .flushing else .writing }
    else none
  | .writing, .writeFailed => some (d.fail ("write " ++ c.label ++ " " ++ name))
  | .flushing, .flushed => some { d with phase := .reading }
  | .flushing, .flushFailed => some (d.fail ("flush " ++ c.label ++ " " ++ name))
  | .closing, .shut => some { d with shutAfter := some d.delivered, phase := .returned (.ok ()) }
  | .closing, .shutFailed e => some (d.fail e)
  | _, _ => none

inductive Progress where
  | forwarding
  | finishing (result : Outcome Unit)
  | returned (result : Outcome Unit)
  deriving DecidableEq

structure State where
  up : Direction
  down : Direction
  progress : Progress
  deriving DecidableEq

def State.new : State := ⟨.new, .new, .forwarding⟩

/-- `try_join!` where FIN is passed on, `select!` where it is not. -/
def join (c : Config) (up down : Phase) : Progress :=
  match up, down with
  | .returned (.ok ()), .returned (.ok ()) => .finishing (.ok ())
  | .returned (.ok ()), .returned r => .finishing r
  | .returned (.ok ()), _ => if c.halfClose then .forwarding else .finishing (.ok ())
  | .returned r, _ => .finishing r
  | _, .returned (.ok ()) => if c.halfClose then .forwarding else .finishing (.ok ())
  | _, .returned r => .finishing r
  | _, _ => .forwarding

inductive Event where
  | up (e : LoopEvent)
  | down (e : LoopEvent)
  | cancel
  /-- Both writers are shut down, in five seconds at the most. -/
  | finish

def State.step (c : Config) (s : State) (e : Event) : Option State :=
  match s.progress, e with
  | .forwarding, .up e => (s.up.step c "uplink" e).map fun up =>
      { s with up, progress := join c up.phase s.down.phase }
  | .forwarding, .down e => (s.down.step c "downlink" e).map fun down =>
      { s with down, progress := join c s.up.phase down.phase }
  | .forwarding, .cancel =>
    if c.accounted then some { s with progress := .finishing (.err "core session cancelled") } else none
  | .finishing r, .finish => some { s with progress := .returned r }
  | _, _ => none

/-! ### One direction -/

/-- Where a loop holds nothing, and what it has done when it is at its end. -/
def Direction.Rests (c : Config) (d : Direction) : Prop :=
  match d.phase with
  | .reading | .flushing => d.held = []
  | .closing => d.held = [] ∧ d.eof = true
  | .returned (.ok ()) =>
    d.held = [] ∧ d.eof = true ∧ (c.halfClose = true → d.shutAfter = some d.delivered)
  | _ => True

structure Direction.Charged (d : Direction) : Prop where
  least : d.delivered.length ≤ d.recorded
  most : d.recorded ≤ d.delivered.length + d.held.length
  before : d.phase = .recording → d.recorded = d.delivered.length
  after : d.phase = .writing → d.recorded = d.delivered.length + d.held.length

structure Direction.Good (c : Config) (d : Direction) : Prop where
  split : d.bytesRead = d.delivered ++ d.held
  fits : d.held.length ≤ bufferLen
  rests : d.Rests c
  charged : c.accounted = true → d.Charged

section

variable {c : Config} {name : String} {d d' : Direction}

theorem Direction.good_new : Direction.new.Good c :=
  ⟨rfl, Nat.zero_le _, rfl, fun _ => ⟨le_rfl, le_rfl, nofun, nofun⟩⟩

theorem Direction.Good.fail (h : d.Good c) (e : String) : (d.fail e).Good c :=
  ⟨h.split, h.fits, trivial, fun hc => ⟨(h.charged hc).least, (h.charged hc).most, nofun, nofun⟩⟩

theorem Direction.Good.moves (h : d.Good c) {phase : Phase} {eof : Bool}
    {shutAfter : Option Bytes} (hphase : phase ≠ .recording ∧ phase ≠ .writing)
    (hrests : Direction.Rests c { d with phase := phase, eof := eof, shutAfter := shutAfter }) :
    Direction.Good c { d with phase := phase, eof := eof, shutAfter := shutAfter } :=
  ⟨h.split, h.fits, hrests, fun hc => ⟨(h.charged hc).least, (h.charged hc).most,
    fun hp => absurd hp hphase.1, fun hp => absurd hp hphase.2⟩⟩

theorem Direction.Good.step (h : d.Good c) {e : LoopEvent} (hstep : d.step c name e = some d') :
    d'.Good c := by
  have hrests := h.rests
  unfold Direction.step at hstep
  split at hstep <;> rename_i hphase <;>
    simp only [Direction.Rests, hphase] at hrests
  · split at hstep
    · rename_i hlen
      obtain rfl := Option.some.inj hstep
      refine ⟨?_, hlen.2, trivial, fun hc => ?_⟩
      · rw [h.split, hrests, List.append_nil]
      · obtain ⟨hleast, hmost, -, -⟩ := h.charged hc
        rw [hrests] at hmost
        have hexact : d.recorded = d.delivered.length := le_antisymm hmost hleast
        exact ⟨hleast, hexact.trans_le (Nat.le_add_right _ _), fun _ => hexact, nofun⟩
    · cases hstep
  · obtain rfl := Option.some.inj hstep
    cases hmode : c.halfClose with
    | true => exact h.moves ⟨nofun, nofun⟩ ⟨hrests, rfl⟩
    | false => exact h.moves ⟨nofun, nofun⟩ ⟨hrests, rfl, fun hc => by rw [hmode] at hc; cases hc⟩
  · obtain rfl := Option.some.inj hstep
    exact h.fail _
  · obtain rfl := Option.some.inj hstep
    refine ⟨h.split, h.fits, trivial, fun hc => ?_⟩
    have hexact := (h.charged hc).before hphase
    have hnow : (if c.accounted = true then d.recorded + d.held.length else d.recorded) =
        d.delivered.length + d.held.length := by rw [if_pos hc, hexact]
    exact ⟨hnow ▸ Nat.le_add_right _ _, hnow.le, nofun, fun _ => hnow⟩
  · split at hstep
    · obtain rfl := Option.some.inj hstep
      exact h.fail _
    · cases hstep
  · split at hstep
    · rename_i n hn
      obtain rfl := Option.some.inj hstep
      have hall : (d.delivered ++ d.held.take n).length + (d.held.drop n).length =
          d.delivered.length + d.held.length := by
        rw [List.length_append, List.length_take, List.length_drop]
        omega
      have hcharged (hc : c.accounted = true) : d.recorded =
          (d.delivered ++ d.held.take n).length + (d.held.drop n).length :=
        ((h.charged hc).after hphase).trans hall.symm
      refine ⟨?_, ?_, ?_, fun hc => ⟨?_, (hcharged hc).le, fun hp => ?_, fun _ => hcharged hc⟩⟩
      · rw [h.split, List.append_assoc, List.take_append_drop]
      · exact (List.length_drop.trans_le (Nat.sub_le _ _)).trans h.fits
      · by_cases hlast : n = d.held.length
        · simp only [Direction.Rests, if_pos hlast]
          rw [hlast, List.drop_length]
        · simp only [Direction.Rests, if_neg hlast]
      · rw [hcharged hc]
        exact Nat.le_add_right _ _
      · split at hp <;> cases hp
    · cases hstep
  · obtain rfl := Option.some.inj hstep
    exact h.fail _
  · obtain rfl := Option.some.inj hstep
    exact h.moves ⟨nofun, nofun⟩ hrests
  · obtain rfl := Option.some.inj hstep
    exact h.fail _
  · obtain rfl := Option.some.inj hstep
    exact h.moves ⟨nofun, nofun⟩ ⟨hrests.1, hrests.2, fun _ => rfl⟩
  · obtain rfl := Option.some.inj hstep
    exact h.fail _
  · cases hstep

end

/-! ### The relay -/

/-- A relay that ends well where FIN is passed on has seen both loops end well. -/
structure State.Good (c : Config) (s : State) : Prop where
  up : s.up.Good c
  down : s.down.Good c
  ended : c.halfClose = true → s.progress = .finishing (.ok ()) ∨ s.progress = .returned (.ok ()) →
    s.up.phase = .returned (.ok ()) ∧ s.down.phase = .returned (.ok ())

theorem join_ok {c : Config} {up down : Phase} (hc : c.halfClose = true)
    (h : join c up down = .finishing (.ok ()) ∨ join c up down = .returned (.ok ())) :
    up = .returned (.ok ()) ∧ down = .returned (.ok ()) := by
  unfold join at h
  split at h <;> simp_all

theorem State.Good.step {c : Config} {s s' : State} {e : Event} (h : s.Good c)
    (hstep : s.step c e = some s') : s'.Good c := by
  unfold State.step at hstep
  split at hstep
  · obtain ⟨up, hup, rfl⟩ := Option.map_eq_some_iff.mp hstep
    exact ⟨h.up.step hup, h.down, join_ok⟩
  · obtain ⟨down, hdown, rfl⟩ := Option.map_eq_some_iff.mp hstep
    exact ⟨h.up, h.down.step hdown, join_ok⟩
  · split at hstep
    · obtain rfl := Option.some.inj hstep
      exact ⟨h.up, h.down, fun _ hend => by rcases hend with hend | hend <;> cases hend⟩
    · cases hstep
  · rename_i r hprogress
    obtain rfl := Option.some.inj hstep
    refine ⟨h.up, h.down, fun hc hend => h.ended hc (.inl ?_)⟩
    rcases hend with hend | hend <;> cases hend
    exact hprogress
  · cases hstep

theorem State.good_run {c : Config} {es : List Event} {s : State}
    (h : Steps (State.step c) always .new es s) : s.Good c :=
  h.invariant (State.Good c) (fun _ _ _ hs _ hstep => hs.step hstep)
    ⟨Direction.good_new, Direction.good_new, fun _ hend => by rcases hend with hend | hend <;> cases hend⟩

/-- In every run, in both directions, what was delivered is the beginning of what was read, and for a
session with a user at least that much is recorded and at most one buffer more. Where FIN is passed on, a
relay that returns well has delivered all up to the end of both streams and shut both writers behind it. -/
theorem relay_delivers (c : Config) (es : List Event) (s : State)
    (hrun : Steps (State.step c) always .new es s) :
    ∀ d ∈ [s.up, s.down],
      d.delivered <+: d.bytesRead ∧
      (c.accounted = true → d.delivered.length ≤ d.recorded ∧
        d.recorded ≤ d.delivered.length + bufferLen) ∧
      (c.halfClose = true → s.progress = .returned (.ok ()) →
        d.eof = true ∧ d.delivered = d.bytesRead ∧ d.shutAfter = some d.bytesRead) := by
  have hgood := State.good_run hrun
  intro d hmem
  obtain ⟨hd, hended⟩ : d.Good c ∧ (c.halfClose = true →
      s.progress = .returned (.ok ()) → d.phase = .returned (.ok ())) := by
    rcases List.mem_pair.mp hmem with rfl | rfl
    · exact ⟨hgood.up, fun hc hok => (hgood.ended hc (.inr hok)).1⟩
    · exact ⟨hgood.down, fun hc hok => (hgood.ended hc (.inr hok)).2⟩
  refine ⟨⟨d.held, hd.split.symm⟩, fun hc => ?_, fun hc hok => ?_⟩
  · have hcharged := hd.charged hc
    exact ⟨hcharged.least, Nat.le_trans hcharged.most (Nat.add_le_add_left hd.fits _)⟩
  · have hrests := hd.rests
    simp only [Direction.Rests, hended hc hok] at hrests
    have hall : d.delivered = d.bytesRead := by rw [hd.split, hrests.1, List.append_nil]
    exact ⟨hrests.2.1, hall, hall ▸ hrests.2.2 hc⟩

def echo : List Event :=
  [.up (.read [1, 2]), .up .recorded, .down .readEnd, .up (.wrote 1), .up (.wrote 1), .down .shut,
    .up .flushed, .up .readEnd, .up .shut, .finish]

theorem relay_delivers_echo : ∃ s, Steps (State.step ⟨true, true, "test"⟩) always .new echo s ∧
    s.progress = .returned (.ok ()) ∧ s.up.delivered = s.up.bytesRead ∧ s.up.shutAfter = some s.up.bytesRead := by
  have hreplay : (replay (State.step ⟨true, true, "test"⟩) .new echo).any
      (fun s => decide (s.progress = .returned (.ok ()))) = true := by decide
  obtain ⟨s, hrun, hs⟩ := steps_of_replay hreplay
  have hok := of_decide_eq_true hs
  have hup := (relay_delivers _ echo s hrun s.up List.mem_cons_self).2.2 rfl hok
  exact ⟨s, hrun, hok, hup.2⟩

/-- Nothing is recorded for a session without a user, whatever is delivered. -/
theorem disabled_session_records_nothing : ∃ s,
    Steps (State.step ⟨true, false, "test"⟩) always .new [.up (.read [1]), .up .recorded, .up (.wrote 1)] s ∧
      s.up.delivered = [1] ∧ s.up.recorded = 0 := by
  have hreplay : (replay (State.step ⟨true, false, "test"⟩) .new
      [.up (.read [1]), .up .recorded, .up (.wrote 1)]).any
      (fun s => decide (s.up.delivered = [1] ∧ s.up.recorded = 0)) = true := by decide
  obtain ⟨s, hrun, hs⟩ := steps_of_replay hreplay
  exact ⟨s, hrun, of_decide_eq_true hs⟩

end Aerion.Relay
