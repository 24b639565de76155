import Aerion.Sudoku.RecordStream

/-!
# The tunnel behind a Sudoku connection

`Tunnel`, `Progress` and the driver task of `tunnel` in `src/sudoku.rs`. The
writer polls one end of a duplex pipe; the driver turns what arrives at the
other end into records and reports how far it got. The two share the
counters and the waker slot of `Progress`, an error slot and whether the task
has finished. Every lock section, atomic operation and await is one step, so
a run is any interleaving of the polls with the driver. The counters of bytes
are `u64` in the source; that they wrap at 2⁶⁴ is left out.

How the driver's awaits end is an input: `fail` is an error of either
direction, which drops whatever the other one was doing. The reading
direction is only its end here. `accepted` and `woken` are not in the source:
the bytes `poll_write` took, and whether the waker of the last poll has been
woken since that poll registered it.
-/

namespace Aerion.Sudoku

open Lib Outcome

/-! ### Senders that are handed to a tunnel -/

namespace Sender

variable {p : Primitives} (mode : Overflow)

/-- A sender that was keyed and whose writes since then succeeded. -/
inductive Live : Sender p → Prop
  | keyed (s : Sender p) (base random : Bytes) : Live (s.rekey base random)
  | wrote {s : Sender p} {input : Bytes} : Live s → (s.write mode input).1 = .ok () →
      Live (s.write mode input).2.1

theorem account_bytes {s : Sender p} {n : ℕ} (hs : s.bytes < 32 <<< 20) (hn : n ≤ 65507) :
    (s.account mode n).1 ≠ .panic ∧
      ((s.account mode n).1 = .ok () → (s.account mode n).2.bytes < 32 <<< 20) := by
  have hadd : addWord mode s.bytes n = .ok (s.bytes + n) :=
    addWord_small (by omega) (by omega)
  unfold account
  rw [hadd]
  dsimp only
  split
  · split
    · exact ⟨nofun, fun _ => show 0 < 32 <<< 20 by decide⟩
    · exact ⟨nofun, nofun⟩
  · exact ⟨nofun, fun _ => by dsimp only; omega⟩

theorem writeChunk_bytes {s : Sender p} {chunk : Bytes} (hs : s.bytes < 32 <<< 20)
    (hlen : chunk.length ≤ 65507) :
    (s.writeChunk mode chunk).1 ≠ .panic ∧
      ((s.writeChunk mode chunk).1 = .ok () → (s.writeChunk mode chunk).2.1.bytes < 32 <<< 20) := by
  obtain ⟨hresult, -⟩ := s.crypto.crypt_spec s.counter.header fun cipher =>
    some (p.encrypt cipher.algorithm cipher.key s.counter.header chunk)
  unfold writeChunk RecordCrypto.encrypt
  split
  · split
    · exact account_bytes mode hs hlen
    · exact ⟨nofun, nofun⟩
  · exact ⟨nofun, nofun⟩
  · rename_i crypto hcrypt
    -- the key derivation and the cipher both answer
    rw [hcrypt] at hresult
    rcases bind_panic.mp hresult.symm with hderive | ⟨cipher, -, hneed⟩
    · exact (deriveCipher_ne_panic _ _ _ _ hderive).elim
    · cases hneed

theorem writeChunks_bytes {s : Sender p} {chunks : List Bytes} (hs : s.bytes < 32 <<< 20)
    (hlen : ∀ chunk ∈ chunks, chunk.length ≤ 65507) :
    (s.writeChunks mode chunks).1 ≠ .panic ∧
      ((s.writeChunks mode chunks).1 = .ok () →
        (s.writeChunks mode chunks).2.1.bytes < 32 <<< 20) := by
  induction chunks generalizing s with
  | nil => exact ⟨nofun, fun _ => hs⟩
  | cons chunk chunks ih =>
    obtain ⟨hpanic, hbytes⟩ := writeChunk_bytes mode hs (hlen chunk List.mem_cons_self)
    unfold writeChunks
    split
    · rename_i u s' sent hwrite
      rw [hwrite] at hbytes
      exact ih (hbytes rfl) fun chunk hc => hlen chunk (List.mem_cons_of_mem _ hc)
    · rename_i hne hwrite
      rw [hwrite] at hpanic
      exact ⟨hpanic, fun hok => absurd hok (hne ())⟩

theorem write_bytes {s : Sender p} (hs : s.bytes < 32 <<< 20) (input : Bytes) :
    (s.write mode input).1 ≠ .panic ∧
      ((s.write mode input).1 = .ok () → (s.write mode input).2.1.bytes < 32 <<< 20) :=
  writeChunks_bytes mode hs fun _ hc => (mem_chunks (by decide) hc).2

theorem Live.bytes_lt {s : Sender p} (h : s.Live mode) : s.bytes < 32 <<< 20 := by
  induction h with
  | keyed s base random => exact show 0 < 32 <<< 20 by decide
  | wrote _ hok ih => exact (write_bytes mode ih _).2 hok

variable {mode}

theorem writeChunks_chunks (s : Sender p) (chunks : List Bytes) :
    (s.writeChunks mode chunks).2.2.map Record.chunk <+: chunks := by
  induction chunks generalizing s with
  | nil => exact List.prefix_rfl
  | cons chunk chunks ih =>
    have hfirst : (s.writeChunk mode chunk).2.2.map Record.chunk <+: [chunk] := by
      unfold writeChunk
      split
      · split
        · exact List.prefix_rfl
        · exact List.nil_prefix
      · exact List.nil_prefix
      · exact List.nil_prefix
    unfold writeChunks
    split
    · rename_i u s' sent hwrite
      have hsent : sent.map Record.chunk = [chunk] := by
        have hone : (s.writeChunk mode chunk).2.2.map Record.chunk = [chunk] :=
          writeChunk_ok (by rw [hwrite])
        rwa [hwrite] at hone
      rw [List.map_append, hsent]
      exact List.prefix_append_right_inj [chunk] |>.mpr (ih s')
    · rename_i hwrite
      rw [hwrite] at hfirst
      exact hfirst.trans ⟨chunks, rfl⟩

theorem write_carries_take (s : Sender p) (input : Bytes) (n : ℕ) :
    (((s.write mode input).2.2.take n).map Record.chunk).flatten <+: input := by
  obtain ⟨rest, hrest⟩ : ((s.write mode input).2.2.take n).map Record.chunk <+: chunks 65507 input :=
    ((List.take_prefix n _).map _).trans (writeChunks_chunks s _)
  exact ⟨rest.flatten, by rw [← List.flatten_append, hrest, flatten_chunks (by decide)]⟩

theorem write_ok {s : Sender p} {input : Bytes} (h : (s.write mode input).1 = .ok ()) :
    ((s.write mode input).2.2.map Record.chunk).flatten = input := by
  rw [write, writeChunks_ok h, flatten_chunks (by decide)]

end Sender

/-! ### The tunnel and its driver -/

namespace Tunnel

inductive Op where
  | flush
  | shutdown
  deriving DecidableEq, Repr

inductive Answer where
  | ok
  | err (message : String)
  | pending
  deriving DecidableEq, Repr

/-- Where a poll stands: what it does next, or that it returned `Pending`. -/
inductive Stage where
  | register
  | checkError
  | load
  | checkFinished
  | waiting
  deriving DecidableEq, Repr

structure Poll where
  op : Op
  waker : ℕ
  stage : Stage
  deriving DecidableEq, Repr

/-- The writing direction of the driver. `waking` and `wakingClosed` are the calls of
`Progress::wake` in `advance` and `finish_write`. -/
inductive Up where
  | reading
  | writing (plain : Bytes)
  | advancing (n : ℕ)
  | waking
  | shutting
  | storing
  | wakingClosed
  | done
  deriving DecidableEq, Repr

inductive Driver where
  | running (up : Up) (downDone : Bool)
  | failed (error : String)
  | closing
  | waking
  | returning
  | finished
  deriving DecidableEq, Repr

structure State (p : Primitives) where
  -- `Tunnel`
  written : ℕ := 0
  closed : Bool := false
  poll : Option Poll := none
  -- the buffer of a `poll_write` that has seen no error
  writing : Option Bytes := none
  -- the duplex pipe from the writer to the driver, and whether its writer shut it down
  duplex : Bytes := []
  duplexShut : Bool := false
  -- `Progress` and the error slot
  sent : ℕ := 0
  writeClosed : Bool := false
  waker : Option ℕ := none
  error : Option String := none
  -- the task
  driver : Driver := .running .reading false
  sender : Sender p
  -- the underlying stream: the whole records on it, and whether its write side is shut down
  wire : List Record := []
  shut : Bool := false
  -- not in the source
  accepted : Bytes := []
  woken : Bool := false

inductive Act where
  | read (n : ℕ)
  | endOfPlain
  | wrote
  | advance
  | wake
  | shutDown
  | store
  | downEnds
  | fail (records : ℕ) (error : String)
  | crash
  | join
  | setError
  | closePlain
  | exit
  deriving DecidableEq, Repr

inductive Label where
  | write (bytes : Bytes)
  | put
  | start (op : Op) (waker : ℕ)
  | poll
  | driver (act : Act)
  deriving DecidableEq, Repr

def Label.starts : Label → Bool
  | .start _ _ => true
  | _ => false

def Label.drives : Label → Bool
  | .driver _ => true
  | _ => false

/-- The direction is suspended, so that an error of the other one can drop it. -/
def Up.awaits : Up → Bool
  | .reading | .writing _ | .shutting | .done => true
  | _ => false

def Up.held : Up → Bytes
  | .writing plain => plain
  | _ => []

def State.plain {p : Primitives} (s : State p) : Bytes := (s.wire.map Record.chunk).flatten

namespace State

variable {p : Primitives}

def condition (s : State p) : Op → Bool
  | .flush => s.written ≤ s.sent
  | .shutdown => s.writeClosed

def wake (s : State p) : State p :=
  { s with waker := none, woken := s.woken || s.waker.any fun w => s.poll.any (·.waker = w) }

/-- The look at the error slot in `poll_write`. -/
def write (s : State p) (bytes : Bytes) : State p :=
  if s.error = none then { s with writing := some bytes } else s

/-- The pipe takes what it has room for of the buffer, or refuses it: its writer has shut it down, or
the driver's end, which lives as long as the task, is gone. -/
def put (s : State p) (bytes : Bytes) : State p :=
  let taken := bytes.take (65536 - s.duplex.length)
  if s.duplexShut = false ∧ s.driver ≠ .finished then
    { s with
      writing := none
      duplex := s.duplex ++ taken
      written := s.written + taken.length
      accepted := s.accepted ++ taken }
  else { s with writing := none }

def closedMessage : Op → String
  | .flush => "Sudoku tunnel closed before flushing"
  | .shutdown => "Sudoku tunnel closed before write shutdown"

/-- A new poll, up to its first shared access; a tunnel that is closed answers at once. -/
def start (s : State p) (op : Op) (waker : ℕ) : State p × Option Answer :=
  match op with
  | .flush => ({ s with poll := some ⟨.flush, waker, .register⟩ }, none)
  | .shutdown =>
    if s.closed then ({ s with poll := none }, some .ok)
    else ({ s with duplexShut := true, poll := some ⟨.shutdown, waker, .register⟩ }, none)

/-- The next shared access of `poll_flush` or `poll_shutdown`. -/
def advance (s : State p) (q : Poll) : State p × Option Answer :=
  match q.stage with
  | .register =>
    ({ s with waker := some q.waker, woken := false, poll := some { q with stage := .checkError } }, none)
  | .checkError =>
    match s.error with
    | some error => ({ s with poll := none }, some (.err error))
    | none => ({ s with poll := some { q with stage := .load } }, none)
  | .load =>
    if s.condition q.op then
      ({ s with closed := s.closed || q.op = .shutdown, poll := none }, some .ok)
    else ({ s with poll := some { q with stage := .checkFinished } }, none)
  | .checkFinished =>
    if s.driver = .finished then ({ s with poll := none }, some (.err (closedMessage q.op)))
    else ({ s with poll := some { q with stage := .waiting } }, some .pending)
  | .waiting => (s, none)

/-- A poll is running; one that returned `Pending` is not. -/
def polling (s : State p) : Bool := s.poll.any (·.stage ≠ .waiting)

def busy (s : State p) : Bool := s.polling || s.writing.isSome

/-- One step of the task. `crash` is a panic in `Sender::write`, which ends the task without a wake. -/
def drive (mode : Overflow) (s : State p) (act : Act) : Option (State p) :=
  match act, s.driver with
  | .read n, .running .reading down =>
    if 0 < n ∧ n ≤ s.duplex.length ∧ n ≤ 32768 then
      some { s with duplex := s.duplex.drop n, driver := .running (.writing (s.duplex.take n)) down }
    else none
  | .endOfPlain, .running .reading down =>
    if s.duplex = [] ∧ s.duplexShut then some { s with driver := .running .shutting down } else none
  | .wrote, .running (.writing plain) down =>
    if (s.sender.write mode plain).1 = .ok () then
      some { s with
        sender := (s.sender.write mode plain).2.1
        wire := s.wire ++ (s.sender.write mode plain).2.2
        driver := .running (.advancing plain.length) down }
    else none
  | .advance, .running (.advancing n) down =>
    some { s with sent := s.sent + n, driver := .running .waking down }
  | .wake, .running .waking down => some { s.wake with driver := .running .reading down }
  | .shutDown, .running .shutting down =>
    some { s with shut := true, driver := .running .storing down }
  | .store, .running .storing down =>
    some { s with writeClosed := true, driver := .running .wakingClosed down }
  | .wake, .running .wakingClosed down => some { s.wake with driver := .running .done down }
  | .downEnds, .running up false => some { s with driver := .running up true }
  | .fail records error, .running up down =>
    if up.awaits ∧ ¬(up = .done ∧ down) then
      some { s with
        wire := s.wire ++ (s.sender.write mode up.held).2.2.take records
        driver := .failed error }
    else none
  | .crash, .running (.writing plain) _ =>
    if (s.sender.write mode plain).1 = .panic then some { s with driver := .finished } else none
  | .join, .running .done true => some { s with driver := .closing }
  | .setError, .failed error => some { s with error := some error, driver := .closing }
  | .closePlain, .closing => some { s with driver := .waking }
  | .wake, .waking => some { s.wake with driver := .returning }
  | .exit, .returning => some { s with driver := .finished }
  | _, _ => none

def step (mode : Overflow) (s : State p) : Label → Option (State p)
  | .write bytes => if s.busy then none else some (s.write bytes)
  | .put => s.writing.map s.put
  | .start op waker => if s.busy then none else some (s.start op waker).1
  | .poll => if s.polling then s.poll.map fun q => (s.advance q).1 else none
  | .driver act => s.drive mode act

def answer (s : State p) : Label → Option (Op × Answer)
  | .start op waker => (s.start op waker).2.map (op, ·)
  | .poll => s.poll.bind fun q => (s.advance q).2.map (q.op, ·)
  | _ => none

end State

/-! ### What every run keeps -/

def Up.uncounted : Up → ℕ
  | .advancing n => n
  | _ => 0

def Up.drained : Up → Bool
  | .shutting | .storing | .wakingClosed | .done => true
  | _ => false

def Up.stored : Up → Bool
  | .wakingClosed | .done => true
  | _ => false

/-- The task calls `Progress::wake` before it does anything a poll can see. -/
def Driver.wakes : Driver → Bool
  | .running .waking _ | .running .wakingClosed _ | .closing | .waking => true
  | _ => false

/-- How many steps of the task the wake is ahead at most. -/
def Driver.toWake : Driver → ℕ
  | .running _ false | .closing => 2
  | _ => 1

def Driver.joined : Driver → Bool
  | .closing | .waking | .returning | .finished => true
  | _ => false

variable {p : Primitives} {mode : Overflow} {c : RecordCrypto p} {s s' : State p}

structure Upward (mode : Overflow) (s : State p) (up : Up) : Prop where
  live : s.sender.Live mode
  stream : s.plain ++ up.held ++ s.duplex = s.accepted
  sent : s.sent + up.uncounted = s.plain.length
  drained : up.drained → s.duplex = [] ∧ s.duplexShut
  shut : up = .storing → s.shut
  stored : up.stored → s.writeClosed

structure Sound (mode : Overflow) (c : RecordCrypto p) (s : State p) : Prop where
  written : s.written = s.accepted.length
  carried : s.plain <+: s.accepted
  sent : s.sent ≤ s.plain.length
  agrees : s.sender.crypto.Agrees c
  sealed : ∀ r ∈ s.wire, r.Sealed p c.base c.method
  closed : s.closed → s.writeClosed
  writeClosed : s.writeClosed → s.shut
  upward : ∀ up down, s.driver = .running up down → Upward mode s up
  joined : s.driver.joined → s.error.isSome ∨ s.written ≤ s.sent ∧ s.writeClosed ∧ s.duplexShut

def Stage.afterError : Stage → Bool
  | .load | .checkFinished | .waiting => true
  | _ => false

def Stage.afterLoad : Stage → Bool
  | .checkFinished | .waiting => true
  | _ => false

/-- A registered poll that was not woken yet: what it has found false so far is still false, or a
wake is ahead. -/
structure Alert (s : State p) (q : Poll) : Prop where
  registered : s.waker = some q.waker
  error : q.stage.afterError → s.error.isSome → s.driver.wakes
  condition : q.stage.afterLoad → s.condition q.op → s.driver.wakes
  finished : q.stage = .waiting → s.driver ≠ .finished

def Alerted (s : State p) : Prop :=
  ∀ q, s.poll = some q → q.stage ≠ .register → s.woken = false → Alert s q

/-- What one step of the task does to what a poll looks at: it wakes, or a wake is ahead, or it
changes nothing of it. Only a task that has returned, or one that panicked, finishes. -/
structure Shown (mode : Overflow) (s s' : State p) : Prop where
  poll : s'.poll = s.poll
  written : s'.written = s.written
  effect : s' = { s.wake with driver := s'.driver } ∧ s'.driver ≠ .finished ∨
    s'.waker = s.waker ∧ s'.woken = s.woken ∧ (s'.driver.wakes ∨
      s.driver.wakes = false ∧ s'.error = s.error ∧ s'.sent = s.sent ∧
        s'.writeClosed = s.writeClosed ∧
        (s'.driver = .finished → s.driver = .returning ∨
          ∃ plain down, s.driver = .running (.writing plain) down ∧
            (s.sender.write mode plain).1 = .panic))

theorem shown_of_quiet (hpoll : s'.poll = s.poll) (hwritten : s'.written = s.written)
    (hwaker : s'.waker = s.waker ∧ s'.woken = s.woken)
    (hkept : s.driver.wakes = false ∧ s'.error = s.error ∧ s'.sent = s.sent ∧
      s'.writeClosed = s.writeClosed) (hrunning : s'.driver ≠ .finished) : Shown mode s s' :=
  ⟨hpoll, hwritten, .inr ⟨hwaker.1, hwaker.2, .inr ⟨hkept.1, hkept.2.1, hkept.2.2.1, hkept.2.2.2,
    fun h => absurd h hrunning⟩⟩⟩

theorem drive_shown {act : Act} (h : s.drive mode act = some s') : Shown mode s s' := by
  unfold State.drive at h
  split at h
  case h_1 hd | h_2 hd | h_3 hd =>
    obtain ⟨-, h⟩ := Option.ite_none_right_eq_some.mp h
    cases h
    exact shown_of_quiet rfl rfl ⟨rfl, rfl⟩ ⟨by rw [hd]; rfl, rfl, rfl, rfl⟩ nofun
  case h_4 | h_7 | h_12 | h_13 | h_14 =>
    -- a wake is ahead
    cases h
    exact ⟨rfl, rfl, .inr ⟨rfl, rfl, .inl rfl⟩⟩
  case h_5 | h_8 | h_15 =>
    -- the wake itself
    cases h
    exact ⟨rfl, rfl, .inl ⟨rfl, nofun⟩⟩
  case h_6 hd =>
    cases h
    exact shown_of_quiet rfl rfl ⟨rfl, rfl⟩ ⟨by rw [hd]; rfl, rfl, rfl, rfl⟩ nofun
  case h_9 up hd =>
    -- the end of the other direction changes nothing here
    cases h
    cases hup : s.driver.wakes with
    | false => exact shown_of_quiet rfl rfl ⟨rfl, rfl⟩ ⟨hup, rfl, rfl, rfl⟩ nofun
    | true =>
      refine ⟨rfl, rfl, .inr ⟨rfl, rfl, .inl ?_⟩⟩
      rw [hd] at hup
      cases up <;> first | rfl | cases hup
  case h_10 up down hd =>
    obtain ⟨⟨hawaits, -⟩, h⟩ := Option.ite_none_right_eq_some.mp h
    cases h
    refine shown_of_quiet rfl rfl ⟨rfl, rfl⟩ ⟨?_, rfl, rfl, rfl⟩ nofun
    rw [hd]
    cases up <;> first | rfl | cases hawaits
  case h_11 plain down hd =>
    obtain ⟨hpanic, h⟩ := Option.ite_none_right_eq_some.mp h
    cases h
    exact ⟨rfl, rfl, .inr ⟨rfl, rfl, .inr ⟨by rw [hd]; rfl, rfl, rfl, rfl,
      fun _ => .inr ⟨plain, down, hd, hpanic⟩⟩⟩⟩
  case h_16 hd =>
    cases h
    exact ⟨rfl, rfl, .inr ⟨rfl, rfl, .inr ⟨by rw [hd]; rfl, rfl, rfl, rfl, fun _ => .inl hd⟩⟩⟩
  case h_17 => cases h

theorem Upward.carried {up : Up} (h : Upward mode s up) : s.plain <+: s.accepted :=
  ⟨up.held ++ s.duplex, by rw [← h.stream, List.append_assoc]⟩

theorem Sound.moved (hs : Sound mode c s) {d : Driver}
    (hup : ∀ up down, d = .running up down → Upward mode s up)
    (hjoined : d.joined → s.error.isSome ∨ s.written ≤ s.sent ∧ s.writeClosed ∧ s.duplexShut) :
    Sound mode c { s with driver := d } :=
  ⟨hs.written, hs.carried, hs.sent, hs.agrees, hs.sealed, hs.closed, hs.writeClosed,
    fun up down h => ⟨(hup up down h).1, (hup up down h).2, (hup up down h).3, (hup up down h).4,
      (hup up down h).5, (hup up down h).6⟩, hjoined⟩

theorem Sound.woken (hs : Sound mode c s) : Sound mode c s.wake :=
  ⟨hs.written, hs.carried, hs.sent, hs.agrees, hs.sealed, hs.closed, hs.writeClosed,
    fun up down h => ⟨(hs.upward up down h).1, (hs.upward up down h).2, (hs.upward up down h).3,
      (hs.upward up down h).4, (hs.upward up down h).5, (hs.upward up down h).6⟩, hs.joined⟩

theorem drive_sound {act : Act} (hs : Sound mode c s) (h : s.drive mode act = some s') :
    Sound mode c s' := by
  unfold State.drive at h
  split at h
  case h_1 n down hd =>
    obtain ⟨-, h⟩ := Option.ite_none_right_eq_some.mp h
    cases h
    have hup := hs.upward _ _ hd
    refine { hs with upward := fun up down h => ?_, joined := nofun }
    cases h
    have hstream := hup.stream
    refine ⟨hup.live, ?_, hup.sent, nofun, nofun, nofun⟩
    rw [← hstream]
    simp [Up.held, State.plain, List.append_assoc]
  case h_2 down hd =>
    obtain ⟨hend, h⟩ := Option.ite_none_right_eq_some.mp h
    cases h
    have hup := hs.upward _ _ hd
    refine hs.moved (fun up down h => ?_) nofun
    cases h
    exact ⟨hup.live, hup.stream, hup.sent, fun _ => hend, nofun, nofun⟩
  case h_3 plain down hd =>
    obtain ⟨hok, h⟩ := Option.ite_none_right_eq_some.mp h
    cases h
    have hup := hs.upward _ _ hd
    have hemit := write_emitted mode s.sender plain
    have hplain : (((s.wire ++ (s.sender.write mode plain).2.2).map Record.chunk).flatten : Bytes) =
        s.plain ++ plain := by
      rw [List.map_append, List.flatten_append, Sender.write_ok hok]
      rfl
    have hnext : Upward mode { s with
        sender := (s.sender.write mode plain).2.1
        wire := s.wire ++ (s.sender.write mode plain).2.2
        driver := .running (.advancing plain.length) down } (.advancing plain.length) := by
      refine ⟨.wrote hup.live hok, ?_, ?_, nofun, nofun, nofun⟩
      · rw [State.plain, hplain]
        exact (List.append_nil (s.plain ++ plain)).symm ▸ hup.stream
      · rw [State.plain, hplain, List.length_append, ← hup.sent]
        rfl
    refine ⟨hs.written, hnext.carried, ?_, hemit.agrees.trans hs.agrees, ?_, hs.closed,
      hs.writeClosed, fun up down h => ?_, nofun⟩
    · rw [State.plain, hplain, List.length_append]
      exact hs.sent.trans (Nat.le_add_right _ _)
    · intro r hr
      rcases List.mem_append.mp hr with hr | hr
      · exact hs.sealed r hr
      · have hsealed := hemit.sealed r hr
        rwa [hs.agrees.1, hs.agrees.2] at hsealed
    · cases h
      exact hnext
  case h_4 n down hd =>
    cases h
    have hup := hs.upward _ _ hd
    refine { hs with sent := hup.sent.le, upward := fun up down h => ?_, joined := nofun }
    cases h
    exact ⟨hup.live, hup.stream, hup.sent, nofun, nofun, nofun⟩
  case h_5 down hd =>
    cases h
    have hup := hs.woken.upward _ _ hd
    refine hs.woken.moved (fun up down h => ?_) nofun
    cases h
    exact ⟨hup.live, hup.stream, hup.sent, nofun, nofun, nofun⟩
  case h_6 down hd =>
    cases h
    have hup := hs.upward _ _ hd
    refine { hs with writeClosed := fun _ => rfl, upward := fun up down h => ?_, joined := nofun }
    cases h
    exact ⟨hup.live, hup.stream, hup.sent, hup.drained, fun _ => rfl, nofun⟩
  case h_7 down hd =>
    cases h
    have hup := hs.upward _ _ hd
    refine { hs with
      closed := fun _ => rfl, writeClosed := fun _ => hup.shut rfl
      upward := fun up down h => ?_, joined := nofun }
    cases h
    exact ⟨hup.live, hup.stream, hup.sent, hup.drained, nofun, fun _ => rfl⟩
  case h_8 down hd =>
    cases h
    have hup := hs.woken.upward _ _ hd
    refine hs.woken.moved (fun up down h => ?_) nofun
    cases h
    exact ⟨hup.live, hup.stream, hup.sent, hup.drained, nofun, hup.stored⟩
  case h_9 up hd =>
    cases h
    refine hs.moved (fun up down h => ?_) nofun
    cases h
    exact hs.upward _ _ hd
  case h_10 records error up down hd =>
    obtain ⟨-, h⟩ := Option.ite_none_right_eq_some.mp h
    cases h
    have hup := hs.upward _ _ hd
    have hplain : (((s.wire ++ (s.sender.write mode up.held).2.2.take records).map
        Record.chunk).flatten : Bytes) = s.plain ++
          (((s.sender.write mode up.held).2.2.take records).map Record.chunk).flatten := by
      rw [List.map_append, List.flatten_append]
      rfl
    refine ⟨hs.written, ?_, ?_, hs.agrees, ?_, hs.closed, hs.writeClosed, nofun, nofun⟩
    · rw [State.plain, hplain]
      refine ((List.prefix_append_right_inj s.plain).mpr
        (Sender.write_carries_take s.sender up.held records)).trans ⟨s.duplex, hup.stream⟩
    · rw [State.plain, hplain, List.length_append]
      exact hs.sent.trans (Nat.le_add_right _ _)
    · intro r hr
      rcases List.mem_append.mp hr with hr | hr
      · exact hs.sealed r hr
      · have hsealed := (write_emitted mode s.sender up.held).sealed r (List.mem_of_mem_take hr)
        rwa [hs.agrees.1, hs.agrees.2] at hsealed
  case h_11 plain down hd =>
    obtain ⟨hpanic, h⟩ := Option.ite_none_right_eq_some.mp h
    exact absurd hpanic (Sender.write_bytes mode (hs.upward _ _ hd).live.bytes_lt plain).1
  case h_12 hd =>
    cases h
    have hup := hs.upward _ _ hd
    refine hs.moved nofun fun _ => .inr ⟨?_, hup.stored rfl, (hup.drained rfl).2⟩
    have hstream := congrArg List.length hup.stream
    have hsent := hup.sent
    have hwritten := hs.written
    simp only [Up.held, (hup.drained rfl).1, List.append_nil, Up.uncounted] at hstream hsent
    omega
  case h_13 error hd =>
    cases h
    exact { hs with upward := nofun, joined := fun _ => .inl rfl }
  case h_14 hd | h_16 hd =>
    cases h
    exact hs.moved nofun fun _ => hs.joined (by rw [hd]; rfl)
  case h_15 hd =>
    cases h
    exact hs.woken.moved nofun fun _ => hs.joined (by rw [hd]; rfl)
  case h_17 => cases h

/-! ### No wake is lost -/

theorem condition_congr (hwritten : s'.written = s.written) (hsent : s'.sent = s.sent)
    (hclosed : s'.writeClosed = s.writeClosed) (op : Op) : s'.condition op = s.condition op := by
  cases op <;> simp [State.condition, hwritten, hsent, hclosed]

theorem drive_alerted {act : Act} (hs : Sound mode c s) (ha : Alerted s)
    (h : s.drive mode act = some s') : Alerted s' := by
  obtain ⟨hpoll, hwritten, heffect⟩ := drive_shown h
  intro q hq hstage hwoken
  rw [hpoll] at hq
  rcases heffect with ⟨hs', -⟩ | ⟨hwaker, hwoken', hahead⟩
  · -- the slot held the waker of this poll, so it is woken now
    rw [hs'] at hwoken
    obtain ⟨hbefore, hnone⟩ := Bool.or_eq_false_iff.mp hwoken
    have hslot := (ha q hq hstage hbefore).registered
    simp [hslot, hq] at hnone
  · obtain ⟨hslot, herror, hcondition, hfinished⟩ := ha q hq hstage (hwoken' ▸ hwoken)
    rcases hahead with hwakes | ⟨hquiet, herror', hsent', hclosed', hfinish⟩
    · exact ⟨hwaker.trans hslot, fun _ _ => hwakes, fun _ _ => hwakes, fun _ hend => by
        rw [hend] at hwakes
        cases hwakes⟩
    · rw [hquiet] at herror hcondition
      have herr : q.stage.afterError → s.error = none := fun hst => by
        cases hse : s.error with
        | none => rfl
        | some e => exact absurd (herror hst (by rw [hse]; rfl)) Bool.false_ne_true
      refine ⟨hwaker.trans hslot, fun hst hsome => ?_, fun hst hcond => ?_, fun hst hend => ?_⟩
      · rw [herror', herr hst] at hsome
        cases hsome
      · rw [condition_congr hwritten hsent' hclosed'] at hcond
        exact absurd (hcondition hst hcond) Bool.false_ne_true
      · -- a task that returned had left an error or had met every condition before its last wake
        rcases hfinish hend with hreturning | ⟨plain, down, hrunning, hpanic⟩
        · rcases hs.joined (by rw [hreturning]; rfl) with hsome | ⟨hall, hshut, -⟩
          · rw [herr (by rw [hst]; rfl)] at hsome
            cases hsome
          · refine absurd (hcondition (by rw [hst]; rfl) ?_) Bool.false_ne_true
            cases hop : q.op with
            | flush => exact decide_eq_true hall
            | shutdown => exact hshut
        · exact (Sender.write_bytes mode (hs.upward _ _ hrunning).live.bytes_lt plain).1 hpanic

/-! ### The writer's steps -/

theorem Sound.polled (hs : Sound mode c s) {closed : Bool} {poll : Option Poll} {waker : Option ℕ}
    {woken shut : Bool} {writing : Option Bytes} (hclosed : closed → s.writeClosed)
    (hshut : s.duplexShut → shut) :
    Sound mode c { s with
      closed := closed, poll := poll, waker := waker, woken := woken, duplexShut := shut,
      writing := writing } :=
  ⟨hs.written, hs.carried, hs.sent, hs.agrees, hs.sealed, hclosed, hs.writeClosed,
    fun up down h =>
      have hup := hs.upward up down h
      ⟨hup.live, hup.stream, hup.sent, fun hd => ⟨(hup.drained hd).1, hshut (hup.drained hd).2⟩,
        hup.shut, hup.stored⟩,
    fun hj => (hs.joined hj).imp_right fun hend => ⟨hend.1, hend.2.1, hshut hend.2.2⟩⟩

theorem write_sound (hs : Sound mode c s) (bytes : Bytes) : Sound mode c (s.write bytes) := by
  unfold State.write
  split
  · exact hs.polled hs.closed id
  · exact hs

theorem put_sound (hs : Sound mode c s) (bytes : Bytes) : Sound mode c (s.put bytes) := by
  unfold State.put
  dsimp only
  split
  · rename_i hopen
    refine ⟨?_, hs.carried.trans ⟨_, rfl⟩, hs.sent, hs.agrees, hs.sealed, hs.closed,
      hs.writeClosed, fun up down hd => ?_, fun hj => ?_⟩
    · simp [hs.written]
    · have hup := hs.upward up down hd
      refine ⟨hup.live, ?_, hup.sent, fun hdrained => ?_, hup.shut, hup.stored⟩
      · rw [← hup.stream, List.append_assoc (s.plain ++ up.held)]
        rfl
      · have hshut := (hup.drained hdrained).2
        rw [hopen.1] at hshut
        cases hshut
    · -- the pipe of a task that was joined is shut, or the error slot is filled
      refine (hs.joined hj).imp_right fun ⟨_, _, hshut⟩ => ?_
      rw [hopen.1] at hshut
      cases hshut
  · exact hs.polled hs.closed id

/-- More written bytes make no condition true. -/
theorem Alerted.more (ha : Alerted s) (hpoll : s'.poll = s.poll)
    (hshown : s'.waker = s.waker ∧ s'.woken = s.woken ∧ s'.error = s.error ∧ s'.driver = s.driver)
    (hcondition : ∀ op, s'.condition op → s.condition op) : Alerted s' := by
  obtain ⟨hwaker, hwoken, herror, hdriver⟩ := hshown
  intro q hq hstage hfalse
  obtain ⟨hslot, herr, hcond, hfinished⟩ := ha q (hpoll ▸ hq) hstage (hwoken ▸ hfalse)
  refine ⟨hwaker.trans hslot, ?_, fun hst hc => ?_, ?_⟩
  · rwa [herror, hdriver]
  · rw [hdriver]
    exact hcond hst (hcondition _ hc)
  · rwa [hdriver]

theorem write_alerted (ha : Alerted s) (bytes : Bytes) : Alerted (s.write bytes) := by
  unfold State.write
  split
  · exact ha.more rfl ⟨rfl, rfl, rfl, rfl⟩ fun _ h => h
  · exact ha

theorem put_alerted (ha : Alerted s) (bytes : Bytes) : Alerted (s.put bytes) := by
  unfold State.put
  dsimp only
  split
  · refine ha.more rfl ⟨rfl, rfl, rfl, rfl⟩ fun op hcond => ?_
    cases op with
    | flush => exact decide_eq_true ((Nat.le_add_right _ _).trans (of_decide_eq_true hcond))
    | shutdown => exact hcond
  · exact ha.more rfl ⟨rfl, rfl, rfl, rfl⟩ fun _ h => h

theorem start_sound (hs : Sound mode c s) (op : Op) (waker : ℕ) :
    Sound mode c (s.start op waker).1 := by
  unfold State.start
  split
  · exact hs.polled hs.closed id
  · split
    · exact hs.polled hs.closed id
    · exact hs.polled hs.closed fun _ => rfl

theorem start_alerted (s : State p) (op : Op) (waker : ℕ) : Alerted (s.start op waker).1 := by
  intro q hq hstage
  unfold State.start at hq
  split at hq
  · cases hq
    exact absurd rfl hstage
  · split at hq
    · cases hq
    · cases hq
      exact absurd rfl hstage

theorem advance_sound (hs : Sound mode c s) (q : Poll) : Sound mode c (s.advance q).1 := by
  unfold State.advance
  split
  · exact hs.polled hs.closed id
  · split
    · exact hs.polled hs.closed id
    · exact hs.polled hs.closed id
  · split
    · rename_i hcondition
      refine hs.polled (fun hclosed => ?_) id
      rcases Bool.or_eq_true_iff.mp hclosed with hclosed | hop
      · exact hs.closed hclosed
      · rwa [of_decide_eq_true hop] at hcondition
    · exact hs.polled hs.closed id
  · split
    · exact hs.polled hs.closed id
    · exact hs.polled hs.closed id
  · exact hs

theorem alerted_of_idle (h : s.poll = none) : Alerted s := by
  intro q hq
  rw [h] at hq
  cases hq

theorem advance_alerted {q : Poll} (ha : Alerted s) (hq : s.poll = some q) :
    Alerted (s.advance q).1 := by
  unfold State.advance
  split <;> rename_i hst
  · rintro _ ⟨⟩ - -
    exact ⟨rfl, nofun, nofun, nofun⟩
  · split <;> rename_i herror
    · exact alerted_of_idle rfl
    · rintro _ ⟨⟩ - hwoken
      have hslot := (ha q hq (by rw [hst]; nofun) hwoken).registered
      refine ⟨hslot, fun _ hsome => ?_, nofun, nofun⟩
      rw [herror] at hsome
      cases hsome
  · split <;> rename_i hcondition
    · exact alerted_of_idle rfl
    · rintro _ ⟨⟩ - hwoken
      obtain ⟨hslot, herror, -, -⟩ := ha q hq (by rw [hst]; nofun) hwoken
      rw [hst] at herror
      exact ⟨hslot, herror, fun _ hcond => absurd hcond hcondition, nofun⟩
  · split <;> rename_i hfinished
    · exact alerted_of_idle rfl
    · rintro _ ⟨⟩ - hwoken
      obtain ⟨hslot, herror, hcondition, -⟩ := ha q hq (by rw [hst]; nofun) hwoken
      rw [hst] at herror hcondition
      exact ⟨hslot, herror, hcondition, fun _ => hfinished⟩
  · exact ha

theorem step_sound {l : Label} (hs : Sound mode c s ∧ Alerted s) (h : s.step mode l = some s') :
    Sound mode c s' ∧ Alerted s' := by
  cases l with
  | write bytes =>
    obtain ⟨-, h⟩ := Option.ite_none_left_eq_some.mp h
    cases h
    exact ⟨write_sound hs.1 bytes, write_alerted hs.2 bytes⟩
  | put =>
    obtain ⟨bytes, -, rfl⟩ := Option.map_eq_some_iff.mp h
    exact ⟨put_sound hs.1 bytes, put_alerted hs.2 bytes⟩
  | start op waker =>
    obtain ⟨-, h⟩ := Option.ite_none_left_eq_some.mp h
    cases h
    exact ⟨start_sound hs.1 op waker, start_alerted s op waker⟩
  | poll =>
    obtain ⟨-, h⟩ := Option.ite_none_right_eq_some.mp h
    obtain ⟨q, hq, rfl⟩ := Option.map_eq_some_iff.mp h
    exact ⟨advance_sound hs.1 q, advance_alerted hs.2 hq⟩
  | driver act => exact ⟨drive_sound hs.1 h, drive_alerted hs.1 hs.2 h⟩

theorem reached {sender : Sender p} (hlive : sender.Live mode) {ls : List Label}
    (h : Steps (State.step mode) always { sender := sender } ls s) :
    Sound mode sender.crypto s ∧ Alerted s := by
  refine h.invariant (fun s => Sound mode sender.crypto s ∧ Alerted s)
    (fun _ _ _ hs _ h => step_sound hs h) ⟨?_, alerted_of_idle rfl⟩
  refine ⟨rfl, List.nil_prefix, Nat.le_refl _, ⟨rfl, rfl⟩, nofun, nofun, nofun, fun up down h => ?_,
    nofun⟩
  cases h
  exact ⟨hlive, rfl, rfl, nofun, nofun, nofun⟩

/-! ### Flush and shutdown -/

theorem answer_ok {l : Label} {op : Op} (hs : Sound mode c s) (h : s.step mode l = some s')
    (hanswer : s.answer l = some (op, .ok)) :
    s.condition op ∧ s'.accepted = s.accepted ∧ s'.wire = s.wire ∧ s'.shut = s.shut := by
  cases l with
  | write _ | put | driver _ => cases hanswer
  | start op' waker =>
    obtain ⟨-, h⟩ := Option.ite_none_left_eq_some.mp h
    obtain ⟨a, ha, hop⟩ := Option.map_eq_some_iff.mp hanswer
    cases h
    cases hop
    unfold State.start at ha ⊢
    split at ha
    · cases ha
    · split at ha <;> rename_i hclosed
      · rw [if_pos hclosed]
        exact ⟨hs.closed hclosed, rfl, rfl, rfl⟩
      · cases ha
  | poll =>
    obtain ⟨-, h⟩ := Option.ite_none_right_eq_some.mp h
    obtain ⟨q, hq, rfl⟩ := Option.map_eq_some_iff.mp h
    obtain ⟨q', hq', hanswer⟩ := Option.bind_eq_some_iff.mp hanswer
    obtain rfl := Option.some.inj (hq.symm.trans hq')
    obtain ⟨a, ha, hop⟩ := Option.map_eq_some_iff.mp hanswer
    cases hop
    unfold State.advance at ha ⊢
    split at ha
    · cases ha
    · split at ha <;> cases ha
    · split at ha <;> rename_i hcondition
      · rw [if_pos hcondition]
        exact ⟨hcondition, rfl, rfl, rfl⟩
      · cases ha
    · split at ha <;> cases ha
    · cases ha

theorem wake_woken {q : Poll} (hq : s.poll = some q) (hslot : s.waker = some q.waker) :
    s.wake.woken = true := by
  simp [State.wake, hq, hslot]

theorem wakes_soon {q : Poll} (hq : s.poll = some q) (hslot : s.waker = some q.waker)
    (h : s.driver.wakes) :
    ∃ (acts : List Act) (s' : State p), acts.length ≤ 2 ∧
      Steps (State.step mode) always s (acts.map Label.driver) s' ∧ s'.woken = true := by
  have hwoken := wake_woken hq hslot
  have honce (d : Driver) (hstep : s.drive mode .wake = some { s.wake with driver := d }) :
      Steps (State.step mode) always s ([Act.wake].map Label.driver) { s.wake with driver := d } :=
    .cons trivial hstep .nil
  cases hd : s.driver with
  | running up down =>
    rw [hd] at h
    cases up with
    | waking =>
      exact ⟨[.wake], _, by decide, honce (.running .reading down) (by simp [State.drive, hd]), hwoken⟩
    | wakingClosed =>
      exact ⟨[.wake], _, by decide, honce (.running .done down) (by simp [State.drive, hd]), hwoken⟩
    | _ => cases h
  | closing =>
    have hclose : s.step mode (.driver .closePlain) = some { s with driver := .waking } := by
      simp [State.step, State.drive, hd]
    exact ⟨[.closePlain, .wake], { s.wake with driver := .returning }, by decide,
      .cons trivial hclose (.cons trivial rfl .nil), hwoken⟩
  | waking => exact ⟨[.wake], _, by decide, honce .returning (by simp [State.drive, hd]), hwoken⟩
  | failed _ | returning | finished =>
    rw [hd] at h
    cases h

theorem drive_toWake {act : Act} (h : s.drive mode act = some s') (hbefore : s.driver.wakes)
    (hafter : s'.driver.wakes) : s'.driver.toWake + 1 ≤ s.driver.toWake := by
  unfold State.drive at h
  split at h
  case h_5 | h_8 | h_15 =>
    -- the wake itself
    cases h
    cases hafter
  case h_9 hd | h_14 hd =>
    cases h
    rw [hd]
    exact Nat.le_refl 2
  case h_10 =>
    obtain ⟨-, h⟩ := Option.ite_none_right_eq_some.mp h
    cases h
    cases hafter
  case h_17 => cases h
  all_goals
    rename_i hd
    rw [hd] at hbefore
    cases hbefore

/-- Until another poll starts, the task wakes the one that waits in its next two steps. -/
theorem woken_within_two {q : Poll} (hq : s.poll = some q) (hwaiting : q.stage = .waiting)
    (hslot : s.waker = some q.waker) (hwakes : s.driver.wakes) {more : List Label}
    (hmore : Steps (State.step mode) (fun _ l => l.starts = false) s more s')
    (hcount : 2 ≤ more.countP Label.drives) :
    ∃ pre post mid, more = pre ++ post ∧
      Steps (State.step mode) (fun _ l => l.starts = false) s pre mid ∧ mid.woken = true := by
  refine hmore.reaches (fun s => s.poll = some q ∧ s.waker = some q.waker ∧ s.driver.wakes)
    (fun s => s.woken = true) (fun s => s.driver.toWake) ?_ ?_ ⟨hq, hslot, hwakes⟩
    (Nat.le_trans ?_ hcount)
  · intro s _ hnone
    unfold Driver.toWake at hnone
    split at hnone <;> cases hnone
  · rintro s l s' ⟨hq, hslot, hwakes⟩ - hok hstep
    cases l with
    | start op w => cases hok
    | write bytes =>
      obtain ⟨-, h⟩ := Option.ite_none_left_eq_some.mp hstep
      cases h
      right
      unfold State.write
      split <;> exact ⟨⟨hq, hslot, hwakes⟩, Nat.le_refl _⟩
    | put =>
      obtain ⟨bytes, -, rfl⟩ := Option.map_eq_some_iff.mp hstep
      right
      unfold State.put
      dsimp only
      split <;> exact ⟨⟨hq, hslot, hwakes⟩, Nat.le_refl _⟩
    | poll =>
      obtain ⟨hpolling, -⟩ := Option.ite_none_right_eq_some.mp hstep
      simp [State.polling, hq, hwaiting] at hpolling
    | driver act =>
      obtain ⟨hpoll, -, heffect⟩ := drive_shown hstep
      rcases heffect with ⟨hs', -⟩ | ⟨hwaker, -, hahead | ⟨hquiet, -⟩⟩
      · left
        rw [hs']
        exact wake_woken hq hslot
      · exact .inr ⟨⟨hpoll.trans hq, hwaker.trans hslot, hahead⟩, drive_toWake hstep hwakes hahead⟩
      · rw [hquiet] at hwakes
        cases hwakes
  · unfold Driver.toWake
    split <;> decide

/-- A flush answers `Ok` only when all that was accepted is on the wire in records, a shutdown only
when the write side is shut down, and a poll that waits is woken as soon as its condition holds,
an error is set or the task has ended: it has been woken, or the task can go on and wakes it in its
next two steps, whatever else happens before another poll starts. -/
theorem flush_shutdown_progress {sender : Sender p} (hlive : sender.Live mode) {ls : List Label}
    (h : Steps (State.step mode) always { sender := sender } ls s) :
    (∀ l s', s.step mode l = some s' → s.answer l = some (.flush, .ok) →
      (s'.wire.map Record.chunk).flatten = s'.accepted ∧
        ∀ r ∈ s'.wire, r.Sealed p sender.crypto.base sender.crypto.method) ∧
    (∀ l s', s.step mode l = some s' → s.answer l = some (.shutdown, .ok) → s'.shut = true) ∧
    ∀ op w, s.poll = some ⟨op, w, .waiting⟩ →
      s.condition op ∨ s.error.isSome ∨ s.driver = .finished →
      s.woken = true ∨ s.driver ≠ .finished ∧
        (∃ (acts : List Act) (s' : State p), acts.length ≤ 2 ∧
          Steps (State.step mode) always s (acts.map Label.driver) s' ∧ s'.woken = true) ∧
        ∀ more s', Steps (State.step mode) (fun _ l => l.starts = false) s more s' →
          2 ≤ more.countP Label.drives →
          ∃ pre post mid, more = pre ++ post ∧
            Steps (State.step mode) (fun _ l => l.starts = false) s pre mid ∧ mid.woken = true := by
  obtain ⟨hs, ha⟩ := reached hlive h
  refine ⟨fun l s' hstep hanswer => ?_, fun l s' hstep hanswer => ?_, fun op w hq hsettled => ?_⟩
  · obtain ⟨hall, haccepted, hwire, -⟩ := answer_ok hs hstep hanswer
    rw [haccepted, hwire]
    have hle : s.accepted.length ≤ s.plain.length := by
      have hcount : s.written ≤ s.sent := of_decide_eq_true hall
      rw [← hs.written]
      exact hcount.trans hs.sent
    exact ⟨hs.carried.eq_of_length_le hle, hs.sealed⟩
  · obtain ⟨hclosed, -, -, hshut⟩ := answer_ok hs hstep hanswer
    rw [hshut]
    exact hs.writeClosed hclosed
  · cases hwoken : s.woken with
    | true => exact .inl rfl
    | false =>
      obtain ⟨hslot, herror, hcondition, hfinished⟩ := ha _ hq nofun hwoken
      have hwakes : s.driver.wakes := by
        rcases hsettled with hcond | hsome | hend
        · exact hcondition rfl hcond
        · exact herror rfl hsome
        · exact absurd hend (hfinished rfl)
      exact .inr ⟨hfinished rfl, wakes_soon hq hslot hwakes,
        fun more s' hmore hcount => woken_within_two hq rfl hslot hwakes hmore hcount⟩

def flushRun : List Label :=
  [.write [1, 2], .put, .start .flush 7, .poll, .poll, .poll, .poll, .driver (.read 2), .driver .wrote,
    .driver .advance]

/-- The flush waits, its bytes are counted, and the wake is still ahead. -/
theorem counted_flush_woken :
    ∃ s : State plainPrimitives,
      Steps (State.step .checked) always { sender := plainSender.rekey [7] (List.replicate 12 9) }
        flushRun s ∧
      s.poll = some ⟨.flush, 7, .waiting⟩ ∧ s.condition .flush = true ∧ s.woken = false ∧
      ∃ (acts : List Act) (s' : State plainPrimitives), acts.length ≤ 2 ∧
        Steps (State.step .checked) always s (acts.map Label.driver) s' ∧ s'.woken = true := by
  obtain ⟨s, hrun, hs⟩ := steps_of_replay (σ := State plainPrimitives)
    (p := fun s => decide (s.poll = some ⟨.flush, 7, .waiting⟩ ∧ s.condition .flush = true ∧
      s.woken = false))
    (show (replay (State.step .checked) { sender := plainSender.rekey [7] (List.replicate 12 9) }
      flushRun).any (fun s => decide (s.poll = some ⟨.flush, 7, .waiting⟩ ∧
        s.condition .flush = true ∧ s.woken = false)) = true by decide +kernel)
  obtain ⟨hpoll, hcondition, hwoken⟩ := of_decide_eq_true hs
  refine ⟨s, hrun, hpoll, hcondition, hwoken, ?_⟩
  rcases (flush_shutdown_progress (.keyed ..) hrun).2.2 .flush 7 hpoll (.inl hcondition) with hdone | hnext
  · rw [hwoken] at hdone
    cases hdone
  · exact hnext.2.1

end Tunnel

end Aerion.Sudoku
