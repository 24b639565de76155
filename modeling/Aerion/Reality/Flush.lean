import Aerion.Lib.Steps
import Aerion.Lib.Segments
import Mathlib.Data.List.Infix

/-!
# Flushing a REALITY client stream

A write goes into a pipe, and a task takes it out, writes it to the socket as
a record and counts it off (`src/reality_tls_client.rs`). `poll_flush` is
ready when the counter is zero; otherwise it leaves a waker behind.

The caller and the task take turns in any order between their accesses to the
counter, the flag, the waker and the pipe. `poll_write` and `poll_flush` have
the stream for themselves, so they do not overlap.
-/

namespace Aerion.Reality.Flush

open Lib Outcome

/-! ### The two parties -/

def realityPipeCapacity : ℕ := 64 * 1024
def tlsMaxPlaintextLen : ℕ := 16 * 1024

def fetchAdd (value n : ℕ) : ℕ := (value + n) % wordSize
def fetchSub (value n : ℕ) : ℕ := (value + (wordSize - n % wordSize)) % wordSize

inductive Caller where
  | idle
  /-- In `poll_write`, the counter raised for a buffer. -/
  | raised (buf : Bytes)
  /-- In `poll_write`, with some bytes to take back from the counter. -/
  | wrote (excess : ℕ)
  /-- In `poll_flush`, its waker stored. -/
  | stored
  /-- In `poll_flush`, after the counter was not zero. -/
  | loaded
  deriving DecidableEq, Repr

inductive Task where
  | reading
  | holding (bytes : Bytes)
  /-- The record is on the socket, but not counted off. -/
  | written (bytes : Bytes)
  /-- Before the call of `wake`. -/
  | counted
  /-- `pump_outbound` has returned, with bytes it has not written. -/
  | stopping (left : Bytes)
  /-- `closed` is set; before the call of `wake`. -/
  | closing (left : Bytes)
  | stopped (left : Bytes)
  deriving DecidableEq, Repr

inductive FlushResult where
  | ready
  | brokenPipe
  | pending
  deriving DecidableEq, Repr

/-- `flush` is what the latest `poll_flush` returned, and `woken` whether its waker has been woken; `accepted`
are the bytes the pipe has accepted and `socket` those written to the socket. -/
structure State where
  pending : ℕ
  closed : Bool
  waker : Bool
  pipe : Bytes
  caller : Caller
  task : Task
  flush : Option FlushResult
  woken : Bool
  accepted : Bytes
  socket : Bytes
  deriving DecidableEq, Repr

def State.new : State := ⟨0, false, false, [], .idle, .reading, none, false, [], []⟩

inductive CallerAction where
  | write (buf : Bytes)
  /-- The pipe accepts so many bytes; none if it is full or closed. -/
  | pipe (n : ℕ)
  | settle
  | storeWaker
  | loadPending
  | loadClosed
  deriving DecidableEq, Repr

inductive TaskAction where
  | read (n : ℕ)
  | keyUpdate
  | write
  | count
  | wake
  /-- The end of the pipe, a close, or an error. -/
  | stop
  | close
  deriving DecidableEq, Repr

inductive Action where
  | caller (action : CallerAction)
  | task (action : TaskAction)
  deriving DecidableEq, Repr

def Task.alive : Task → Bool
  | .reading | .holding _ | .written _ | .counted => true
  | .stopping _ | .closing _ | .stopped _ => false

/-- `poll_write` and `poll_flush`. A buffer has fewer than `2 ^ 63` bytes, as all slices do. -/
def callerStep (s : State) : CallerAction → Option State
  | .write buf =>
    if s.caller = .idle ∧ buf.length < 2 ^ 63 then
      some { s with pending := fetchAdd s.pending buf.length, caller := .raised buf }
    else none
  | .pipe n =>
    match s.caller with
    | .raised buf =>
      if n ≤ buf.length ∧ s.pipe.length + n ≤ realityPipeCapacity ∧ (n = 0 ∨ s.task.alive = true) then
        some { s with
          pipe := s.pipe ++ buf.take n
          accepted := s.accepted ++ buf.take n
          caller := .wrote (buf.length - n) }
      else none
    | _ => none
  | .settle =>
    match s.caller with
    | .wrote excess => some { s with pending := fetchSub s.pending excess, caller := .idle }
    | _ => none
  | .storeWaker =>
    if s.caller = .idle then
      some { s with waker := true, woken := false, flush := none, caller := .stored }
    else none
  | .loadPending =>
    if s.caller = .stored then
      some (if s.pending = 0 then { s with flush := some .ready, caller := .idle }
        else { s with caller := .loaded })
    else none
  | .loadClosed =>
    if s.caller = .loaded then
      some { s with flush := some (if s.closed then .brokenPipe else .pending), caller := .idle }
    else none

def wake (s : State) : State := { s with waker := false, woken := s.woken || s.waker }

/-- `pump_outbound`, and what `spawn_reality_stream` does after it. -/
def taskStep (s : State) : TaskAction → Option State
  | .read n =>
    if s.task = .reading ∧ 0 < n ∧ n ≤ s.pipe.length ∧ n ≤ tlsMaxPlaintextLen then
      some { s with pipe := s.pipe.drop n, task := .holding (s.pipe.take n) }
    else none
  | .keyUpdate => if s.task = .reading then some s else none
  | .write =>
    match s.task with
    | .holding bytes => some { s with socket := s.socket ++ bytes, task := .written bytes }
    | _ => none
  | .count =>
    match s.task with
    | .written bytes => some { s with pending := fetchSub s.pending bytes.length, task := .counted }
    | _ => none
  | .wake =>
    match s.task with
    | .counted => some { wake s with task := .reading }
    | .closing left => some { wake s with task := .stopped left }
    | _ => none
  | .stop =>
    match s.task with
    | .reading => some { s with task := .stopping [] }
    | .holding bytes => some { s with task := .stopping bytes }
    | _ => none
  | .close =>
    match s.task with
    | .stopping left => some { s with closed := true, task := .closing left }
    | _ => none

def step (s : State) : Action → Option State
  | .caller action => callerStep s action
  | .task action => taskStep s action

/-! ### What the counter counts -/

/-- Bytes of a buffer that the pipe has not accepted and the counter still has. -/
def Caller.excess : Caller → ℕ
  | .raised buf => buf.length
  | .wrote excess => excess
  | .idle | .stored | .loaded => 0

def Task.inHand : Task → Bytes
  | .holding bytes => bytes
  | .stopping left | .closing left | .stopped left => left
  | .reading | .written _ | .counted => []

def Task.lag : Task → ℕ
  | .written bytes => bytes.length
  | .reading | .holding _ | .counted | .stopping _ | .closing _ | .stopped _ => 0

def State.uncounted (s : State) : ℕ := s.task.inHand.length + s.pipe.length + s.task.lag

structure Counts (s : State) : Prop where
  bytes : s.accepted = s.socket ++ (s.task.inHand ++ s.pipe)
  count : s.pending = s.uncounted + s.caller.excess
  pipe : s.pipe.length ≤ realityPipeCapacity
  task : s.task.inHand.length + s.task.lag ≤ tlsMaxPlaintextLen
  excess : s.caller.excess < 2 ^ 63

variable {s s' : State} {action : Action} {actions : List Action}

theorem fetchAdd_of_lt {value n : ℕ} (h : value + n < wordSize) :
    fetchAdd value n = value + n := Nat.mod_eq_of_lt h

theorem fetchSub_of_le {value n : ℕ} (h : n ≤ value) (hvalue : value < wordSize) :
    fetchSub value n = value - n := by
  unfold fetchSub
  rw [Nat.mod_eq_of_lt (Nat.lt_of_le_of_lt h hvalue),
    show value + (wordSize - n) = value - n + wordSize by omega, Nat.add_mod_right, Nat.mod_eq_of_lt (by omega)]

theorem Counts.uncounted_lt (h : Counts s) : s.uncounted + 2 ^ 63 < wordSize := by
  have hpipe := h.pipe
  have htask := h.task
  unfold State.uncounted wordSize
  unfold realityPipeCapacity at hpipe
  unfold tlsMaxPlaintextLen at htask
  omega

theorem Counts.pending_lt (h : Counts s) : s.pending < wordSize := by
  have hlt := h.uncounted_lt
  have hexcess := h.excess
  rw [h.count]
  omega

theorem Counts.callerStep (h : Counts s) {action : CallerAction}
    (hstep : callerStep s action = some s') : Counts s' := by
  cases action with
  | write buf =>
    obtain ⟨hidle, hstep⟩ := Option.ite_none_right_eq_some.mp hstep
    cases hstep
    have hlt := h.uncounted_lt
    have hcount := h.count
    rw [hidle.1] at hcount
    refine { h with count := ?_, excess := hidle.2 }
    show fetchAdd s.pending buf.length = s.uncounted + buf.length
    rw [hcount, Caller.excess, Nat.add_zero, fetchAdd_of_lt (by omega)]
  | pipe n =>
    dsimp only [Flush.callerStep] at hstep
    split at hstep
    · rename_i buf hraised
      split at hstep
      · rename_i hn
        cases hstep
        have hcount := h.count
        have hexcess := h.excess
        have hlength : (s.pipe ++ buf.take n).length = s.pipe.length + n := by
          rw [List.length_append, List.length_take_of_le hn.1]
        rw [hraised] at hcount hexcess
        refine ⟨?_, ?_, ?_, h.task, Nat.lt_of_le_of_lt (Nat.sub_le _ _) hexcess⟩
        · show s.accepted ++ buf.take n = s.socket ++ (s.task.inHand ++ (s.pipe ++ buf.take n))
          rw [h.bytes, List.append_assoc, List.append_assoc]
        · show s.pending = s.task.inHand.length + (s.pipe ++ buf.take n).length + s.task.lag + (buf.length - n)
          rw [hcount, hlength, Caller.excess, State.uncounted]
          omega
        · show (s.pipe ++ buf.take n).length ≤ realityPipeCapacity
          rw [hlength]
          exact hn.2.1
      · cases hstep
    · cases hstep
  | settle =>
    dsimp only [Flush.callerStep] at hstep
    split at hstep
    · rename_i excess hwrote
      cases hstep
      have hcount := h.count
      have hlt := h.pending_lt
      rw [hwrote, Caller.excess] at hcount
      refine { h with count := ?_, excess := Nat.two_pow_pos 63 }
      show fetchSub s.pending excess = s.uncounted + 0
      rw [fetchSub_of_le (by omega) hlt]
      omega
    · cases hstep
  | storeWaker =>
    obtain ⟨hidle, hstep⟩ := Option.ite_none_right_eq_some.mp hstep
    cases hstep
    have hcount := h.count
    rw [hidle] at hcount
    exact { h with count := hcount, excess := Nat.two_pow_pos 63 }
  | loadPending =>
    obtain ⟨hstored, hstep⟩ := Option.ite_none_right_eq_some.mp hstep
    have hcount := h.count
    rw [hstored] at hcount
    split at hstep
    all_goals
      cases hstep
      exact { h with count := hcount, excess := Nat.two_pow_pos 63 }
  | loadClosed =>
    obtain ⟨hloaded, hstep⟩ := Option.ite_none_right_eq_some.mp hstep
    cases hstep
    have hcount := h.count
    rw [hloaded] at hcount
    exact { h with count := hcount, excess := Nat.two_pow_pos 63 }

theorem Counts.taskStep (h : Counts s) {action : TaskAction} (hstep : taskStep s action = some s') :
    Counts s' := by
  have hbytes := h.bytes
  have hcount := h.count
  have htask := h.task
  unfold State.uncounted at hcount
  cases action with
  | read n =>
    obtain ⟨⟨hreading, -, hle, hmax⟩, hstep⟩ := Option.ite_none_right_eq_some.mp hstep
    cases hstep
    rw [hreading] at hbytes hcount htask
    refine ⟨?_, ?_, ?_, ?_, h.excess⟩
    · show s.accepted = s.socket ++ (s.pipe.take n ++ s.pipe.drop n)
      rw [hbytes, List.take_append_drop]
      rfl
    · show s.pending = (s.pipe.take n).length + (s.pipe.drop n).length + 0 + s.caller.excess
      rw [hcount, List.length_take_of_le hle, List.length_drop, Task.inHand, Task.lag, List.length_nil]
      omega
    · show (s.pipe.drop n).length ≤ realityPipeCapacity
      exact Nat.le_trans (List.drop_sublist n s.pipe).length_le h.pipe
    · show (s.pipe.take n).length + 0 ≤ tlsMaxPlaintextLen
      rw [List.length_take_of_le hle]
      exact hmax
  | keyUpdate =>
    obtain ⟨-, hstep⟩ := Option.ite_none_right_eq_some.mp hstep
    cases hstep
    exact h
  | write =>
    dsimp only [Flush.taskStep] at hstep
    split at hstep
    · rename_i bytes hholding
      cases hstep
      rw [hholding] at hbytes hcount htask
      refine ⟨?_, ?_, h.pipe, ?_, h.excess⟩
      · show s.accepted = s.socket ++ bytes ++ ([] ++ s.pipe)
        rw [hbytes, List.nil_append, List.append_assoc]
        rfl
      · show s.pending = 0 + s.pipe.length + bytes.length + s.caller.excess
        rw [hcount, Task.inHand, Task.lag]
        omega
      · show 0 + bytes.length ≤ tlsMaxPlaintextLen
        rw [Nat.zero_add]
        exact htask
    · cases hstep
  | count =>
    dsimp only [Flush.taskStep] at hstep
    split at hstep
    · rename_i bytes hwritten
      cases hstep
      rw [hwritten, Task.inHand, Task.lag, List.length_nil] at hcount
      rw [hwritten] at hbytes
      refine ⟨hbytes, ?_, h.pipe, Nat.zero_le _, h.excess⟩
      show fetchSub s.pending bytes.length = 0 + s.pipe.length + 0 + s.caller.excess
      rw [fetchSub_of_le (by omega) h.pending_lt]
      omega
    · cases hstep
  | wake =>
    dsimp only [Flush.taskStep] at hstep
    split at hstep
    · rename_i hcounted
      cases hstep
      rw [hcounted] at hbytes hcount
      exact ⟨hbytes, hcount, h.pipe, Nat.zero_le _, h.excess⟩
    · rename_i left hclosing
      cases hstep
      rw [hclosing] at hbytes hcount htask
      exact ⟨hbytes, hcount, h.pipe, htask, h.excess⟩
    · cases hstep
  | stop =>
    dsimp only [Flush.taskStep] at hstep
    split at hstep
    · rename_i hreading
      cases hstep
      rw [hreading] at hbytes hcount
      exact ⟨hbytes, hcount, h.pipe, Nat.zero_le _, h.excess⟩
    · rename_i bytes hholding
      cases hstep
      rw [hholding] at hbytes hcount htask
      exact ⟨hbytes, hcount, h.pipe, htask, h.excess⟩
    · cases hstep
  | close =>
    dsimp only [Flush.taskStep] at hstep
    split at hstep
    · rename_i left hstopping
      cases hstep
      rw [hstopping] at hbytes hcount htask
      exact ⟨hbytes, hcount, h.pipe, htask, h.excess⟩
    · cases hstep

/-! ### Wakers -/

def Task.closed : Task → Bool
  | .closing _ | .stopped _ => true
  | .reading | .holding _ | .written _ | .counted | .stopping _ => false

/-- The task has bytes to count off, or is about to wake. -/
def State.Busy (s : State) : Prop := 0 < s.uncounted ∨ s.task = .counted

/-- Until its waker is woken, a flush that has seen the counter above zero is waiting for something. -/
def State.Waits (s : State) : Prop := s.woken = false → s.waker = true ∧ s.Busy

structure Wakes (s : State) : Prop where
  closed : s.closed = s.task.closed
  fresh : s.caller = .stored → s.flush = none
  stored : s.caller = .stored → s.woken = false → s.waker = true
  loaded : s.caller = .loaded → s.Waits
  waits : s.flush = some .pending → s.Waits
  running : s.flush = some .pending → s.woken = false → ∀ left, s.task ≠ .stopped left

theorem Wakes.ofWrite (h : Wakes s) (hclosed : s'.closed = s.closed) (htask : s'.task = s.task)
    (hflush : s'.flush = s.flush) (hwoken : s'.woken = s.woken) (hwaker : s'.waker = s.waker)
    (hbusy : s.uncounted ≤ s'.uncounted) (hstored : s'.caller ≠ .stored)
    (hloaded : s'.caller ≠ .loaded) : Wakes s' where
  closed := by rw [hclosed, htask, h.closed]
  fresh hcaller := absurd hcaller hstored
  stored hcaller := absurd hcaller hstored
  loaded hcaller := absurd hcaller hloaded
  waits hpending hasleep := by
    obtain ⟨hset, hsome⟩ := h.waits (hflush ▸ hpending) (hwoken ▸ hasleep)
    exact ⟨hwaker.trans hset, hsome.imp (Nat.lt_of_lt_of_le · hbusy) htask.trans⟩
  running hpending hasleep := by
    rw [htask]
    exact h.running (hflush ▸ hpending) (hwoken ▸ hasleep)

theorem Wakes.callerStep (hcounts : Counts s) (h : Wakes s) {action : CallerAction}
    (hstep : callerStep s action = some s') : Wakes s' := by
  cases action with
  | write buf =>
    obtain ⟨-, hstep⟩ := Option.ite_none_right_eq_some.mp hstep
    cases hstep
    exact h.ofWrite rfl rfl rfl rfl rfl (Nat.le_refl _) nofun nofun
  | pipe n =>
    dsimp only [Flush.callerStep] at hstep
    split at hstep
    · split at hstep
      · rename_i buf _ _
        cases hstep
        refine h.ofWrite rfl rfl rfl rfl rfl ?_ nofun nofun
        show _ ≤ s.task.inHand.length + (s.pipe ++ buf.take n).length + s.task.lag
        rw [List.length_append, State.uncounted]
        omega
      · cases hstep
    · cases hstep
  | settle =>
    dsimp only [Flush.callerStep] at hstep
    split at hstep
    · cases hstep
      exact h.ofWrite rfl rfl rfl rfl rfl (Nat.le_refl _) nofun nofun
    · cases hstep
  | storeWaker =>
    obtain ⟨-, hstep⟩ := Option.ite_none_right_eq_some.mp hstep
    cases hstep
    exact ⟨h.closed, fun _ => rfl, fun _ _ => rfl, nofun, nofun, nofun⟩
  | loadPending =>
    obtain ⟨hstored, hstep⟩ := Option.ite_none_right_eq_some.mp hstep
    split at hstep
    · cases hstep
      exact ⟨h.closed, nofun, nofun, nofun, nofun, nofun⟩
    · rename_i hpending
      cases hstep
      refine ⟨h.closed, nofun, nofun, fun _ hasleep => ⟨h.stored hstored hasleep, .inl ?_⟩, h.waits, h.running⟩
      have hcount := hcounts.count
      rw [hstored, Caller.excess, Nat.add_zero] at hcount
      exact Nat.pos_of_ne_zero (hcount ▸ hpending)
  | loadClosed =>
    obtain ⟨hloaded, hstep⟩ := Option.ite_none_right_eq_some.mp hstep
    cases hstep
    refine ⟨h.closed, nofun, nofun, nofun, fun _ => h.loaded hloaded, fun hpending _ left htask => ?_⟩
    -- The flag was set before the task came to its end.
    have hclosed := h.closed
    rw [show s.task = .stopped left from htask] at hclosed
    rw [show s.closed = true from hclosed] at hpending
    cases hpending

theorem Wakes.ofTask (h : Wakes s) (hcaller : s'.caller = s.caller) (hflush : s'.flush = s.flush)
    (hwoken : s'.woken = s.woken) (hwaker : s'.waker = s.waker) (hclosed : s'.closed = s'.task.closed)
    (hbusy : s.Busy → s'.Busy) (hrunning : ∀ left, s'.task ≠ .stopped left) : Wakes s' := by
  have hwaits : s.Waits → s'.Waits := fun hwaits hasleep =>
    (hwaits (hwoken ▸ hasleep)).imp hwaker.trans hbusy
  refine ⟨hclosed, fun hstored => hflush.trans (h.fresh (hcaller ▸ hstored)), fun hstored hasleep => ?_,
    fun hloaded => hwaits (h.loaded (hcaller ▸ hloaded)),
    fun hpending => hwaits (h.waits (hflush ▸ hpending)), fun _ _ => hrunning⟩
  exact hwaker.trans (h.stored (hcaller ▸ hstored) (hwoken ▸ hasleep))

theorem Wakes.ofWake (h : Wakes s) {task : Task} (hclosed : s.closed = task.closed) :
    Wakes { wake s with task } := by
  have hawake : ∀ {P : Prop}, (s.woken = false → s.waker = true) → (s.woken || s.waker) = false → P := by
    intro P hset hasleep
    obtain ⟨hwoken, hwaker⟩ := Bool.or_eq_false_iff.mp hasleep
    rw [hset hwoken] at hwaker
    cases hwaker
  exact ⟨hclosed, h.fresh, fun hstored => hawake (h.stored hstored),
    fun hloaded => hawake fun hw => (h.loaded hloaded hw).1,
    fun hpending => hawake fun hw => (h.waits hpending hw).1,
    fun hpending => hawake fun hw => (h.waits hpending hw).1⟩

theorem Wakes.taskStep (h : Wakes s) {action : TaskAction} (hstep : taskStep s action = some s') : Wakes s' := by
  have hclosed := h.closed
  cases action with
  | read n =>
    obtain ⟨⟨hreading, hpos, hle, -⟩, hstep⟩ := Option.ite_none_right_eq_some.mp hstep
    cases hstep
    rw [hreading] at hclosed
    refine h.ofTask rfl rfl rfl rfl hclosed (fun _ => .inl ?_) nofun
    show 0 < (s.pipe.take n).length + (s.pipe.drop n).length + 0
    rw [List.length_take_of_le hle]
    omega
  | keyUpdate =>
    obtain ⟨-, hstep⟩ := Option.ite_none_right_eq_some.mp hstep
    cases hstep
    exact h
  | write =>
    dsimp only [Flush.taskStep] at hstep
    split at hstep
    · rename_i bytes hholding
      cases hstep
      rw [hholding] at hclosed
      refine h.ofTask rfl rfl rfl rfl hclosed (fun hbusy => .inl ?_) nofun
      rcases hbusy with hbusy | hcounted
      · rw [State.uncounted, hholding, Task.inHand, Task.lag] at hbusy
        show 0 < 0 + s.pipe.length + bytes.length
        omega
      · rw [hholding] at hcounted
        cases hcounted
    · cases hstep
  | count =>
    dsimp only [Flush.taskStep] at hstep
    split at hstep
    · rename_i bytes hwritten
      cases hstep
      rw [hwritten] at hclosed
      exact h.ofTask rfl rfl rfl rfl hclosed (fun _ => .inr rfl) nofun
    · cases hstep
  | wake =>
    dsimp only [Flush.taskStep] at hstep
    split at hstep
    · rename_i hcounted
      cases hstep
      rw [hcounted] at hclosed
      exact h.ofWake hclosed
    · rename_i left hclosing
      cases hstep
      rw [hclosing] at hclosed
      exact h.ofWake hclosed
    · cases hstep
  | stop =>
    dsimp only [Flush.taskStep] at hstep
    split at hstep
    · rename_i hreading
      cases hstep
      rw [hreading] at hclosed
      refine h.ofTask rfl rfl rfl rfl hclosed (fun hbusy => ?_) nofun
      rw [State.Busy, State.uncounted, hreading] at hbusy
      exact .inl (hbusy.resolve_right nofun)
    · rename_i bytes hholding
      cases hstep
      rw [hholding] at hclosed
      refine h.ofTask rfl rfl rfl rfl hclosed (fun hbusy => ?_) nofun
      rw [State.Busy, State.uncounted, hholding] at hbusy
      exact .inl (hbusy.resolve_right nofun)
    · cases hstep
  | close =>
    dsimp only [Flush.taskStep] at hstep
    split at hstep
    · rename_i left hstopping
      cases hstep
      refine h.ofTask rfl rfl rfl rfl rfl (fun hbusy => ?_) nofun
      rw [State.Busy, State.uncounted, hstopping] at hbusy
      exact .inl (hbusy.resolve_right nofun)
    · cases hstep

/-! ### Runs -/

theorem sound_new : Counts .new ∧ Wakes .new :=
  ⟨⟨rfl, rfl, Nat.zero_le _, Nat.zero_le _, Nat.two_pow_pos 63⟩, rfl, nofun, nofun, nofun, nofun, nofun⟩

theorem sound_step (h : Counts s ∧ Wakes s) (hstep : step s action = some s') : Counts s' ∧ Wakes s' := by
  cases action with
  | caller action => exact ⟨h.1.callerStep hstep, h.2.callerStep h.1 hstep⟩
  | task action => exact ⟨h.1.taskStep hstep, h.2.taskStep hstep⟩

theorem sound_run (h : Steps step always .new actions s) : Counts s ∧ Wakes s :=
  h.invariant (fun s => Counts s ∧ Wakes s) (fun _ _ _ hs _ hstep => sound_step hs hstep) sound_new

/-- The waker of the latest flush has been woken, or the task is about to wake it. -/
def State.Due (s : State) : Prop :=
  s.woken = true ∨ s.waker = true ∧ (s.task = .counted ∨ ∃ left, s.task = .closing left)

theorem callerStep_same {action : CallerAction} (hstep : callerStep s action = some s')
    (hother : action ≠ .storeWaker) :
    s'.woken = s.woken ∧ s'.waker = s.waker ∧ s'.task = s.task := by
  cases action with
  | storeWaker => exact absurd rfl hother
  | write | pipe | settle | loadPending | loadClosed =>
    dsimp only [callerStep] at hstep
    repeat' split at hstep
    all_goals cases hstep
    all_goals exact ⟨rfl, rfl, rfl⟩

theorem State.Due.task (h : s.Due) {action : TaskAction} (hstep : taskStep s action = some s') :
    s'.woken = true := by
  rcases h with hwoken | ⟨hwaker, hcounted | ⟨left, hclosing⟩⟩
  · cases action with
    | wake =>
      dsimp only [taskStep] at hstep
      split at hstep <;> cases hstep <;> exact Bool.or_eq_true_iff.mpr (.inl hwoken)
    | read | keyUpdate | write | count | stop | close =>
      dsimp only [taskStep] at hstep
      split at hstep <;> cases hstep <;> exact hwoken
  · unfold taskStep at hstep
    rw [hcounted] at hstep
    cases action <;> simp at hstep
    subst hstep
    exact Bool.or_eq_true_iff.mpr (.inr hwaker)
  · unfold taskStep at hstep
    rw [hclosing] at hstep
    cases action <;> simp at hstep
    subst hstep
    exact Bool.or_eq_true_iff.mpr (.inr hwaker)

theorem woken_run (h : s.woken = true) (hrun : Steps step always s actions s')
    (hother : .caller .storeWaker ∉ actions) : s'.woken = true := by
  induction hrun with
  | nil => exact h
  | @cons s action mid actions _ _ hstep _ ih =>
    rw [List.mem_cons, not_or] at hother
    refine ih ?_ hother.2
    cases action with
    | task action => exact State.Due.task (.inl h) hstep
    | caller action => rw [(callerStep_same hstep fun heq => hother.1 (heq ▸ rfl)).1, h]

theorem State.Due.run (h : s.Due) (hrun : Steps step always s actions s') (hother : .caller .storeWaker ∉ actions)
    (htask : ∃ action, .task action ∈ actions) : s'.woken = true := by
  induction hrun with
  | nil =>
    obtain ⟨action, hmem⟩ := htask
    exact absurd hmem List.not_mem_nil
  | @cons s action mid actions _ _ hstep hrest ih =>
    rw [List.mem_cons, not_or] at hother
    cases action with
    | task action => exact woken_run (h.task hstep) hrest hother.2
    | caller action =>
      have hsame := callerStep_same hstep fun heq => hother.1 (heq ▸ rfl)
      refine ih ?_ hother.2 ?_
      · unfold State.Due
        rw [hsame.1, hsame.2.1, hsame.2.2]
        exact h
      · obtain ⟨task, hmem⟩ := htask
        exact ⟨task, (List.mem_cons.mp hmem).resolve_left nofun⟩

theorem Counts.accounted (h : Counts s) :
    s.pending = (s.accepted.length - s.socket.length) + (s.caller.excess + s.task.lag) := by
  rw [h.count, State.uncounted, h.bytes, List.length_append, List.length_append]
  omega

theorem due_of_pending (hcounts : Counts s) (h : Wakes s) (hpending : s.flush = some .pending)
    (hend : s.pending = 0 ∨ s.closed = true) : s.Due := by
  cases hwoken : s.woken with
  | true => exact .inl hwoken
  | false =>
    obtain ⟨hwaker, hbusy⟩ := h.waits hpending hwoken
    refine .inr ⟨hwaker, ?_⟩
    rcases hend with hzero | hclosed
    · have hcount := hcounts.count
      exact .inl (hbusy.resolve_left (by omega))
    · have hrunning := h.running hpending hwoken
      rw [h.closed] at hclosed
      cases htask : s.task with
      | closing left => exact .inr ⟨left, rfl⟩
      | stopped left => exact absurd htask (hrunning left)
      | reading | holding | written | counted | stopping =>
        rw [htask] at hclosed
        cases hclosed

/-- The counter is what the pipe has accepted and the socket has not got, and what a write in progress adds
to it: a buffer the pipe has not accepted yet, or a record not counted off yet. No subtraction takes it below
zero. A flush is ready only when the socket has got everything; and a pending one is woken at the latest by the
next step of the task once the counter is zero or the task has stopped. -/
theorem flush_accounted (h : Steps step always .new actions s) :
    s.socket <+: s.accepted ∧
    s.pending = (s.accepted.length - s.socket.length) + (s.caller.excess + s.task.lag) ∧
    (∀ excess, s.caller = .wrote excess → excess ≤ s.pending) ∧
    (∀ bytes, s.task = .written bytes → bytes.length ≤ s.pending) ∧
    (∀ s', step s (.caller .loadPending) = some s' → s'.flush = some .ready → s.socket = s.accepted) ∧
    (s.flush = some .pending → (s.pending = 0 ∨ s.closed = true) →
      s.woken = true ∨ (∃ s', step s (.task .wake) = some s') ∧
        ∀ more s', Steps step always s more s' → .caller .storeWaker ∉ more → (∃ action, .task action ∈ more) →
          s'.woken = true) ∧
    (s.flush = some .pending → (∃ left, s.task = .stopped left) → s.woken = true) := by
  obtain ⟨hcounts, hwakes⟩ := sound_run h
  have haccounted := hcounts.accounted
  refine ⟨⟨_, hcounts.bytes.symm⟩, haccounted, fun excess hwrote => ?_, fun bytes hwritten => ?_,
    fun s' hstep hready => ?_, fun hpending hend => ?_, fun hpending hstopped => ?_⟩
  · rw [haccounted, hwrote, Caller.excess]
    omega
  · rw [haccounted, hwritten, Task.lag]
    omega
  · dsimp only [step, callerStep] at hstep
    split at hstep
    · rename_i hstored
      split at hstep
      · rename_i hzero
        have hle := hcounts.bytes
        rw [hzero] at haccounted
        have hempty : s.task.inHand ++ s.pipe = [] := by
          rw [← List.length_eq_zero_iff]
          rw [hle, List.length_append] at haccounted
          omega
        rw [hle, hempty, List.append_nil]
      · cases hstep
        rw [hwakes.fresh hstored] at hready
        cases hready
    · cases hstep
  · have hdue := due_of_pending hcounts hwakes hpending hend
    rcases hdue with hwoken | ⟨hwaker, htask⟩
    · exact .inl hwoken
    · refine .inr ⟨?_, fun more s' hrun => State.Due.run (.inr ⟨hwaker, htask⟩) hrun⟩
      rcases htask with hcounted | ⟨left, hclosing⟩
      · exact ⟨_, by rw [step, taskStep, hcounted]⟩
      · exact ⟨_, by rw [step, taskStep, hclosing]⟩
  · obtain ⟨left, hstopped⟩ := hstopped
    cases hwoken : s.woken with
    | true => rfl
    | false => exact absurd hstopped (hwakes.running hpending hwoken left)

/-- A write of three bytes, of which the pipe accepts two; a flush that has to wait; and the record. -/
theorem waiting_flush_woken : ∃ s s', Steps step always .new
      [.caller (.write [1, 2, 3]), .caller (.pipe 2), .caller .settle, .caller .storeWaker, .caller .loadPending,
        .task (.read 2), .caller .loadClosed, .task .write, .task .count] s ∧
      s.flush = some .pending ∧ s.pending = 0 ∧ s.socket = [1, 2] ∧ s.woken = false ∧
      Steps step always s [.task .wake] s' ∧ s'.woken = true := by
  have hreplay : (replay step State.new
      [.caller (.write [1, 2, 3]), .caller (.pipe 2), .caller .settle, .caller .storeWaker, .caller .loadPending,
        .task (.read 2), .caller .loadClosed, .task .write, .task .count]).any
      (fun s => s.flush == some .pending && s.pending == 0 && s.socket == [1, 2] && !s.woken) = true := by
    decide +kernel
  obtain ⟨s, hrun, hs⟩ := steps_of_replay hreplay
  simp only [Bool.and_eq_true, beq_iff_eq, Bool.not_eq_true'] at hs
  obtain ⟨⟨⟨hflush, hpending⟩, hsocket⟩, hwoken⟩ := hs
  obtain ⟨-, -, -, -, -, hwake, -⟩ := flush_accounted hrun
  rcases hwake hflush (.inl hpending) with hwoken' | ⟨⟨s', hstep⟩, hnext⟩
  · rw [hwoken] at hwoken'
    cases hwoken'
  · have hlast : Steps step always s [.task .wake] s' := .cons trivial hstep .nil
    exact ⟨s, s', hrun, hflush, hpending, hsocket, hwoken, hlast,
      hnext _ _ hlast (by simp) ⟨_, List.mem_singleton_self _⟩⟩

end Aerion.Reality.Flush
