import Aerion.Lib.Causes
import Aerion.Lib.Words

/-!
# The Sudoku mux server

`mux_server` of `src/sudoku.rs`: the streams of a client share one tunnel.
One task reads the client's frames; a stream is a task that joins the relay
to its target with a sender, which frames what the relay hands over. All
frames are written under one lock, and a stream is ended by aborting its
task. Below, the sender of a stream is a task of its own that its stream
waits for, as a join would.
-/

namespace Aerion.Sudoku.Mux

open Lib Lib.Async

/-! ### Frames -/

structure MuxFrame where
  kind : UInt8
  id : UInt32
  payload : Bytes
  fits : payload.length < 2 ^ 32

/-- The bytes of `mux_frame`. -/
def MuxFrame.bytes (f : MuxFrame) : Bytes :=
  [f.kind] ++ toBe 4 f.id.toNat ++ toBe 4 f.payload.length ++ f.payload

def readFrame : Bytes → Option (MuxFrame × Bytes)
  | kind :: i0 :: i1 :: i2 :: i3 :: l0 :: l1 :: l2 :: l3 :: rest =>
    let length := ofBe [l0, l1, l2, l3]
    if length ≤ rest.length then
      some (⟨kind, UInt32.ofNat (ofBe [i0, i1, i2, i3]), rest.take length,
        Nat.lt_of_le_of_lt (List.length_take_le _ _) (ofBe_lt_word l0 l1 l2 l3)⟩, rest.drop length)
    else none
  | _ => none

theorem readFrame_bytes (f : MuxFrame) (rest : Bytes) :
    readFrame (f.bytes ++ rest) = some (f, rest) := by
  obtain ⟨kind, id, payload, fits⟩ := f
  have hid : ofBe (toBe 4 id.toNat) = id.toNat := ofBe_toBe (by simpa using id.toNat_lt)
  have hlen : ofBe (toBe 4 payload.length) = payload.length := ofBe_toBe (by simpa using fits)
  obtain ⟨i0, i1, i2, i3, hi⟩ : ∃ a b c d, toBe 4 id.toNat = [a, b, c, d] := ⟨_, _, _, _, rfl⟩
  obtain ⟨l0, l1, l2, l3, hl⟩ : ∃ a b c d, toBe 4 payload.length = [a, b, c, d] :=
    ⟨_, _, _, _, rfl⟩
  rw [hi] at hid
  rw [hl] at hlen
  have hbytes : MuxFrame.bytes ⟨kind, id, payload, fits⟩ ++ rest =
      kind :: i0 :: i1 :: i2 :: i3 :: l0 :: l1 :: l2 :: l3 :: (payload ++ rest) := by
    simp [MuxFrame.bytes, hi, hl]
  rw [hbytes, readFrame]
  simp only [hlen]
  rw [if_pos (by simp)]
  simp [hid]

def framing : Framing MuxFrame where
  encode := MuxFrame.bytes
  read := readFrame
  encode_pos f := by simp [MuxFrame.bytes]
  read_encode := readFrame_bytes

/-! ### Tasks -/

def maxMuxFrame : ℕ := 256 * 1024

/-- The states of the stream opened as the `n`-th: its task is aborted, its sender dropped by the
join, its sender ended, its completion reported and its task ended. -/
inductive Signal where
  | aborted (n : ℕ)
  | dropSend (n : ℕ)
  | sendEnded (n : ℕ)
  | completed (n : ℕ)
  | finished (n : ℕ)
  deriving DecidableEq

abbrev Payload := {payload : Bytes // payload.length < 2 ^ 32}

inductive Input where
  | frame (kind : UInt8) (id : UInt32) (payload : Payload)
  | data (payload : Payload)
  | eof
  | ok
  | error (text : Payload)

/-- An entry of the table of streams; `up` is whether its write half is still there. -/
structure Entry where
  id : UInt32
  stream : ℕ
  up : Bool

/-- The variables of `mux_server`: the table, the streams whose completion was not received yet,
and the number of streams opened. -/
structure Server where
  streams : List Entry
  running : List (UInt32 × ℕ)
  opened : ℕ

/-- `reset`, `dataFailed` and `relayFailed` are what follows a RESET of a stream, a failed write to it
and the failure of its relay, `close` is the end of `mux_server`. -/
inductive Label where
  | muxServer
  | serve (s : Server)
  | handle (s : Server)
  | reset (s : Server) (e : Entry)
  | dataFailed (s : Server) (e : Entry)
  | close (s : Server)
  | stream (id : UInt32) (n : ℕ)
  | relayFailed (id : UInt32) (n : ℕ) (text : Payload)
  | send (id : UInt32) (n : ℕ)
  | sendLoop (id : UInt32) (n : ℕ)

abbrev MuxCode := Code Signal Input MuxFrame Label

/-- `mux_frame(&mut *writer.lock().await, ..).await`. -/
def muxFrame (kind : UInt8) (id : UInt32) (payload : Payload) (k : MuxCode) : MuxCode :=
  .lock (.send [⟨kind, id, payload.1, payload.2⟩] (.unlock k))

def text (s : String) (h : s.toUTF8.toList.length < 2 ^ 32) : Payload := ⟨s.toUTF8.toList, h⟩

def empty : Payload := ⟨[], by simp⟩

namespace Server

def loop (s : Server) : MuxCode := .goto (.serve s)

def close (s : Server) : MuxCode := .goto (.close s)

def joinAll (s : Server) : List (UInt32 × ℕ) → MuxCode
  | [] => s.close
  | stream :: streams => .wait (.finished stream.2) (s.joinAll streams)

/-- The end of the client's frames: the write halves are closed and the tasks waited for. -/
def drain (s : Server) : List Entry → MuxCode
  | [] => s.joinAll s.running
  | e :: streams => if e.up then .await fun
      | .ok | .error _ => s.drain streams
      | _ => .refuse
    else s.drain streams

/-- `streams.remove` and the abort of the task. -/
def abort (s : Server) (e : Entry) (k : Server → MuxCode) : MuxCode :=
  .fire (.aborted e.stream) (k { s with streams := s.streams.filter (·.id ≠ e.id) })

/-- `decode` is whether a payload is an address and nothing else. -/
def handleOpen (decode : Bytes → Bool) (s : Server) (id : UInt32) (payload : Payload) : MuxCode :=
  if s.streams.any (·.id = id) then s.close
  else if decode payload.1 then
    .spawn (.stream id s.opened) (loop ⟨⟨id, s.opened, true⟩ :: s.streams,
      (id, s.opened) :: s.running, s.opened + 1⟩)
  else s.close

def handleData (s : Server) (id : UInt32) : MuxCode :=
  match s.streams.find? (·.id = id) with
  | none => s.loop
  | some e => if e.up then .await fun
      | .ok => s.loop
      | .error _ => .goto (.dataFailed s e)
      | _ => .refuse
    else s.loop

def handleFin (s : Server) (id : UInt32) : MuxCode :=
  match s.streams.find? (·.id = id) with
  | none => s.loop
  | some e =>
    let streams := ⟨e.id, e.stream, false⟩ :: s.streams.filter (·.id ≠ id)
    if e.up then .await fun
      | .ok | .error _ => loop { s with streams }
      | _ => .refuse
    else s.loop

def handleReset (s : Server) (id : UInt32) : MuxCode :=
  match s.streams.find? (·.id = id) with
  | none => s.loop
  | some e => .goto (.reset s e)

def handleFrame (decode : Bytes → Bool) (s : Server) (kind : UInt8) (id : UInt32)
    (payload : Payload) : MuxCode :=
  if payload.1.length ≤ maxMuxFrame then
    if kind = 1 then s.handleOpen decode id payload
    else if kind = 2 then s.handleData id
    else if kind = 3 then s.handleFin id
    else if kind = 4 then s.handleReset id
    else if kind = 5 then muxFrame 6 id payload s.loop
    else if kind = 6 then s.loop
    else s.close
  else s.close

/-- Takes the streams whose completion has arrived out of the table, by their ids. -/
def receive (s : Server) : MuxCode :=
  .retain (fun stream => .completed stream.2) s.running fun kept =>
    let gone := (s.running.filter (· ∉ kept)).map (·.1)
    .goto (.handle { s with streams := s.streams.filter (·.id ∉ gone), running := kept })

end Server

def finish (n : ℕ) : MuxCode := .leave (.fire (.finished n) .done)

/-- The task of a stream. A failure of the relay drops the sender, and the client is told. -/
def stream (id : UInt32) (n : ℕ) : MuxCode :=
  .enter (.aborted n) (.wait (.sendEnded n) (.fire (.finished n) .done))
    (.spawn (.send id n) (.await fun
      | .ok => .wait (.sendEnded n) (.fire (.completed n) (finish n))
      | .error text => .goto (.relayFailed id n text)
      | _ => .refuse))

def program (decode : Bytes → Bool) : Label → MuxCode
  | .muxServer => .goto (.serve ⟨[], [], 0⟩)
  | .serve s => s.receive
  | .handle s => .await fun
    | .frame kind id payload => s.handleFrame decode kind id payload
    | .eof => s.drain s.streams
    | .error _ => s.close
    | _ => .refuse
  | .reset s e => s.abort e Server.loop
  | .dataFailed s e =>
    s.abort e fun s => muxFrame 4 e.id (text "stream closed" (by decide +kernel)) s.loop
  -- The streams of the table and all other children are aborted.
  | .close s => .fireAll (fun stream => .aborted stream.2) .done s.running
  | .stream id n => stream id n
  | .relayFailed id n text => .fire (.dropSend n) (.wait (.sendEnded n)
      (muxFrame 4 id text (.fire (.completed n) (finish n))))
  | .send id n => .enter (.aborted n) (.fire (.sendEnded n) .done)
      (.enter (.dropSend n) (.leave (.fire (.sendEnded n) .done)) (.goto (.sendLoop id n)))
  | .sendLoop id n => .await fun
    | .data payload => muxFrame 2 id payload (.goto (.sendLoop id n))
    | .eof => muxFrame 3 id empty (.leave (.leave (.fire (.sendEnded n) .done)))
    | _ => .refuse

def external : Signal → Bool := fun _ => false

abbrev step (decode : Bytes → Bool) := World.step framing (program decode) external

/-! ### Frames in the tunnel -/

/-- What ends the task of a stream: a RESET, a failed write of its DATA and the end of `mux_server`;
and its sender: the failure of its relay. -/
def Label.ends : Label → Signal → Bool
  | .reset _ e, .aborted n | .dataFailed _ e, .aborted n => e.stream = n
  | .close s, .aborted n => s.running.any (·.2 = n)
  | _, .aborted _ => false
  | .relayFailed _ m _, .dropSend n => m = n
  | _, .dropSend _ => false
  | _, .sendEnded _ | _, .completed _ | _, .finished _ => true

section

variable {may : Signal → Prop} {s : Server}

end

/-- A stream of id one is opened, and its sender has two bytes for the client. -/
def openStream : List (Event Signal Input) :=
  [.run 0, .run 0, .run 0, .input 0 (.frame 1 1 empty), .run 0, .run 0, .run 0, .run 0, .run 1, .run 1,
    .run 1, .run 2, .run 2, .run 2, .run 2, .input 2 (.data ⟨[7, 8], by decide⟩), .grant 2]

end Aerion.Sudoku.Mux
