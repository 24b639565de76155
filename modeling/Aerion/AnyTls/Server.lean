import Aerion.AnyTls.Frame
import Aerion.Lib.Shield
import Aerion.Net.Addr

/-!
# The tasks of an AnyTLS server connection

`src/server.rs`: one task reads the frames of the client and answers some of
them itself; it opens a stream as one or more tasks of their own, which all
write to the connection under one lock. The code below follows the source
await by await; what comes from outside (frames, target data, dials, the
accounting of the core) is the input of an await.
-/

namespace Aerion.AnyTls.Server

open Lib Lib.Async Net

def maxPendingUot : ℕ := 256
def maxSessionStreams : ℕ := 1024
def maxUotBuffer : ℕ := 64 * 1024

/-- The end of the core session, of the connection and of the stream opened as the `n`-th. -/
inductive Signal where
  | core
  | connection
  | stream (n : ℕ)
  deriving DecidableEq

inductive Input where
  | frame (f : Frame)
  | tick
  | data (bytes : Bytes)
  | eof
  | ok
  | error (text : Bytes)

/-- What the reading task does with payloads: `decode_target`, the tests of UDP-over-TCP targets
and requests, and whether the settings name the padding scheme of the server. -/
structure Decoder where
  target : Bytes → Option (ProxyTarget × Bytes)
  encodeTarget : ProxyTarget → Option Bytes
  isMagic : ProxyTarget → Bool
  isLegacyMagic : ProxyTarget → Bool
  requestComplete : Bytes → Option Bool
  requestForTarget : ProxyTarget → Bytes → Option (Bool × Bytes)
  samePadding : Bytes → Bool
  paddingText : Bytes

/-- The variables of `serve_session`; a stream stands with the number of its signal. -/
structure Session where
  receivedSettings : Bool
  pending : List UInt32
  pendingUot : List (UInt32 × ProxyTarget × Bytes)
  streams : List (UInt32 × ℕ)
  opened : ℕ

inductive Label where
  | handleClient
  | serveSession (s : Session)
  | runTcpStream (id : UInt32) (n : ℕ)
  | uplink (n : ℕ)
  | downlink (id : UInt32) (n : ℕ)
  | downlinkLoop (id : UInt32) (n : ℕ)
  | uotUplink (n : ℕ)
  | uotDownlink (id : UInt32) (n : ℕ)
  | uotDownlinkLoop (id : UInt32) (n : ℕ)

abbrev ServerCode := Code Signal Input Frame Label

/-- `write_frame` under the lock; a payload that does not fit is an error before anything is
written. -/
def writeFrame (cmd : UInt8) (id : UInt32) (payload : Bytes) (failed k : ServerCode) : ServerCode :=
  if h : payload.length ≤ maxFramePayloadLen then .send [⟨cmd, id, payload, h⟩] k else failed

def lockAndWrite (cmd : UInt8) (id : UInt32) (payload : Bytes) (failed k : ServerCode) :
    ServerCode :=
  .lock (writeFrame cmd id payload (.unlock failed) (.unlock k))

/-! ### The reading task -/

def dropStreams (streams : List (UInt32 × ℕ)) (k : ServerCode) : ServerCode :=
  .fireAll (fun stream => .stream stream.2) k streams

namespace Session

/-- `serve_session` returns: its streams and then the guard of the connection are dropped. -/
def close (s : Session) : ServerCode := dropStreams s.streams (.leave (.fire .connection .done))

def loop (s : Session) : ServerCode := .goto (.serveSession s)

/-- `streams.remove`. -/
def removeStream (s : Session) (id : UInt32) (k : Session → ServerCode) : ServerCode :=
  dropStreams (s.streams.filter (·.1 = id))
    (k { s with streams := s.streams.filter (·.1 ≠ id) })

/-- `streams.insert` of the stream opened last; a stream of the same id is ended. -/
def insertStream (s : Session) (id : UInt32) : ServerCode :=
  s.removeStream id fun s =>
    loop { s with streams := (id, s.opened) :: s.streams, opened := s.opened + 1 }

/-- `open_uot_stream`. Its failures are logged. -/
def openUotStream (d : Decoder) (s : Session) (id : UInt32) (target : ProxyTarget)
    (initial : Bytes) : ServerCode :=
  match d.requestForTarget target initial with
  | none => s.loop
  | some _ => .await fun
    -- The socket is bound, and connected if the request says so.
    | .ok => lockAndWrite cmdSynack id [] s.loop (.await fun
      -- The first packet is queued.
      | .ok => .spawn (.uotUplink s.opened) (.spawn (.uotDownlink id s.opened) (s.insertStream id))
      | .error _ => s.loop
      | _ => .refuse)
    | .error _ => s.loop
    | _ => .refuse

def openStream (d : Decoder) (s : Session) (id : UInt32) (payload : Bytes) : ServerCode :=
  match d.target payload with
  | none => s.loop
  | some (target, initial) =>
    if d.isMagic target then s.openUotStream d id target initial
    else .await fun
      -- The first payload is queued.
      | .ok => .spawn (.runTcpStream id s.opened) (s.insertStream id)
      | .error _ => s.loop
      | _ => .refuse

def extendUot (d : Decoder) (s : Session) (id : UInt32) (target : ProxyTarget)
    (payload more : Bytes) : ServerCode :=
  if payload.length + more.length ≤ maxUotBuffer then
    match d.requestComplete (payload ++ more) with
    | none => s.close
    | some false => loop { s with pendingUot :=
        (id, target, payload ++ more) :: s.pendingUot.filter (·.1 ≠ id) }
    | some true =>
      match d.encodeTarget target with
      | none => s.close
      | some encoded => openStream d { s with pendingUot := s.pendingUot.filter (·.1 ≠ id) } id
          (encoded ++ payload ++ more)
  else s.close

def firstPayload (d : Decoder) (s : Session) (id : UInt32) (payload : Bytes) : ServerCode :=
  match d.target payload with
  | none => s.close
  | some (target, initial) =>
    if d.isMagic target && !d.isLegacyMagic target then
      match d.requestComplete initial with
      | none => s.close
      | some true => s.openStream d id payload
      | some false =>
        let s := { s with pendingUot := (id, target, initial) :: s.pendingUot.filter (·.1 ≠ id) }
        if s.pendingUot.length ≤ maxPendingUot then s.loop else s.close
    else s.openStream d id payload

def handlePsh (d : Decoder) (s : Session) (f : Frame) : ServerCode :=
  if s.streams.any (·.1 = f.streamId) then .await fun
    -- The queue of the stream takes the payload, or is closed.
    | .ok => s.loop
    | .error _ => s.removeStream f.streamId loop
    | _ => .refuse
  else match s.pendingUot.find? (·.1 = f.streamId) with
    | some (_, target, payload) => s.extendUot d f.streamId target payload f.payload
    | none =>
      if f.streamId ∈ s.pending then
        firstPayload d { s with pending := s.pending.filter (· ≠ f.streamId) } f.streamId f.payload
      else s.loop

def handleSettings (d : Decoder) (s : Session) (f : Frame) : ServerCode :=
  let s := { s with receivedSettings := true }
  let settings := lockAndWrite cmdServerSettings 0 "v=2".toUTF8.toList s.close s.loop
  if d.samePadding f.payload then settings
  else lockAndWrite cmdUpdatePaddingScheme 0 d.paddingText s.close settings

def handleSyn (s : Session) (f : Frame) : ServerCode :=
  if s.streams.length + s.pending.length + s.pendingUot.length < maxSessionStreams then
    if s.receivedSettings then
      loop { s with pending := f.streamId :: s.pending.filter (· ≠ f.streamId) }
    else lockAndWrite cmdAlert 0 "client did not send settings".toUTF8.toList s.close s.close
  else s.close

def handleFrame (d : Decoder) (s : Session) (f : Frame) : ServerCode :=
  if f.cmd = cmdSyn then s.handleSyn f
  else if f.cmd = cmdPsh then s.handlePsh d f
  else if f.cmd = cmdFin then
    removeStream { s with pending := s.pending.filter (· ≠ f.streamId),
                          pendingUot := s.pendingUot.filter (·.1 ≠ f.streamId) } f.streamId loop
  else if f.cmd = cmdHeartRequest then
    lockAndWrite cmdHeartResponse f.streamId [] s.close s.loop
  else if f.cmd = cmdSettings then s.handleSettings d f
  else if f.cmd = cmdAlert then s.close
  else s.loop

/-- The loop of `serve_session`. The end of the core session ends the wait for a frame like any
other wait of the task. -/
def serve (d : Decoder) (s : Session) : ServerCode :=
  .await fun
    | .frame f => s.handleFrame d f
    | .error _ => s.close
    | .tick => .retain (fun stream => .stream stream.2) s.streams fun streams =>
      let s := { s with streams }
      if s.receivedSettings then lockAndWrite cmdHeartRequest 0 [] s.close s.loop else s.loop
    | _ => .refuse

end Session

/-! ### The tasks of streams -/

def endTask (n : ℕ) : ServerCode := .leave (.fire (.stream n) .done)

def raceStream (n : ℕ) (k : ServerCode) : ServerCode := .enter (.stream n) (endTask n) k

/-- The lock, in a race against the end of the stream that ends with the wait. -/
def lockStream (n : ℕ) (k : ServerCode) : ServerCode := raceStream n (.lock (.leave k))

def relayDown (id : UInt32) (n : ℕ) (payload : Bytes) (next : Label) : ServerCode :=
  raceStream n (.await fun
    | .ok => .leave (lockStream n (.send (payloadChunks id payload) (.unlock (.goto next))))
    | .error _ => .leave (endTask n)
    | _ => .refuse)

def runTcpStream (id : UInt32) (n : ℕ) : ServerCode :=
  .enter .connection (.fire (.stream n) .done) (raceStream n (.await fun
    | .ok => .leave (lockStream n (writeFrame cmdSynack id [] (.unlock (endTask n))
        (.unlock (.spawn (.downlink id n)
          (raceStream n (.goto (.uplink n)))))))
    | .error text => .leave (lockStream n (writeFrame cmdSynack id text (.unlock (endTask n))
        (.unlock (endTask n))))
    | _ => .refuse))

/-- The uplink of a stream moves payloads from the queue to the target until one of them ends. The
half of the target it closes then is no part of the connection. -/
def uplink (n : ℕ) (loop : Label) : ServerCode :=
  .await fun
    | .ok => .goto loop
    | .eof | .error _ => .leave (endTask n)
    | _ => .refuse

def program (d : Decoder) : Label → ServerCode
  | .handleClient =>
    .enter .core (.fire .connection .done) (.goto (.serveSession ⟨false, [], [], [], 0⟩))
  | .serveSession s => s.serve d
  | .runTcpStream id n => runTcpStream id n
  | .uplink n => uplink n (.uplink n)
  | .downlink id n =>
    .enter .connection (.fire (.stream n) .done) (.goto (.downlinkLoop id n))
  | .downlinkLoop id n => raceStream n (.await fun
    | .data bytes => .leave (relayDown id n bytes (.downlinkLoop id n))
    | .eof => .leave (lockAndWrite cmdFin id [] (endTask n) (endTask n))
    | .error _ => .leave (endTask n)
    | _ => .refuse)
  | .uotUplink n =>
    .enter .connection (.fire (.stream n) .done) (raceStream n (.goto (.uplink n)))
  | .uotDownlink id n =>
    .enter .connection (.fire (.stream n) .done) (.goto (.uotDownlinkLoop id n))
  | .uotDownlinkLoop id n => raceStream n (.await fun
    | .data packet => .leave (relayDown id n packet (.uotDownlinkLoop id n))
    | .error _ => .leave (endTask n)
    | _ => .refuse)

def external : Signal → Bool
  | .core => true
  | _ => false

/-! ### Frames on the connection -/

def Signal.EndsConnection : Signal → Prop
  | .core | .connection => True
  | .stream _ => False

instance : DecidablePred Signal.EndsConnection
  | .core | .connection => .isTrue trivial
  | .stream _ => .isFalse id

def entry : Label → List Signal
  | .serveSession _ => [.core]
  | .uplink n => [.stream n, .connection]
  | .downlinkLoop _ _ | .uotDownlinkLoop _ _ => [.connection]
  | .handleClient | .runTcpStream _ _ | .downlink _ _ | .uotUplink _ | .uotDownlink _ _ => []

/-- Writes of the code are dropped with the connection only. -/
def Safe (scopes : List Signal) (c : ServerCode) : Prop :=
  c.Shielded Signal.EndsConnection entry scopes

theorem lockAndWrite_safe {scopes : List Signal} {cmd : UInt8} {id : UInt32} {payload : Bytes}
    {failed k : ServerCode} (hscopes : ∀ s ∈ scopes, s.EndsConnection) (hfailed : Safe scopes failed)
    (hk : Safe scopes k) : Safe scopes (lockAndWrite cmd id payload failed k) := by
  unfold Safe lockAndWrite writeFrame
  split
  · exact ⟨hscopes, hk⟩
  · exact hfailed

theorem dropStreams_safe {scopes : List Signal} {k : ServerCode} (hk : Safe scopes k)
    (streams : List (UInt32 × ℕ)) : Safe scopes (dropStreams streams k) :=
  Code.fireAll_shielded hk streams

namespace Session

theorem core_ends : ∀ s ∈ [Signal.core], s.EndsConnection := by simp [Signal.EndsConnection]

variable {d : Decoder} (s : Session)

theorem loop_safe : Safe [.core] s.loop := rfl

theorem close_safe : Safe [.core] s.close :=
  dropStreams_safe (show Safe [.core] (.leave (.fire .connection .done)) from trivial) s.streams

theorem removeStream_safe {id : UInt32} {k : Session → ServerCode}
    (hk : ∀ s, Safe [.core] (k s)) : Safe [.core] (s.removeStream id k) :=
  dropStreams_safe (hk _) _

theorem insertStream_safe {id : UInt32} : Safe [.core] (s.insertStream id) :=
  s.removeStream_safe fun _ => rfl

theorem openUotStream_safe {id : UInt32} {target : ProxyTarget} {initial : Bytes} :
    Safe [.core] (s.openUotStream d id target initial) := by
  unfold openUotStream
  split
  · exact s.loop_safe
  · intro e
    cases e with
    | ok =>
      refine lockAndWrite_safe core_ends s.loop_safe fun e => ?_
      cases e with
      | ok => exact ⟨rfl, rfl, s.insertStream_safe⟩
      | error text => exact s.loop_safe
      | _ => trivial
    | error text => exact s.loop_safe
    | _ => trivial

theorem openStream_safe {id : UInt32} {payload : Bytes} :
    Safe [.core] (s.openStream d id payload) := by
  unfold openStream
  split
  · exact s.loop_safe
  · split
    · exact s.openUotStream_safe
    · intro e
      cases e with
      | ok => exact ⟨rfl, s.insertStream_safe⟩
      | error text => exact s.loop_safe
      | _ => trivial

theorem extendUot_safe {id : UInt32} {target : ProxyTarget} {payload more : Bytes} :
    Safe [.core] (s.extendUot d id target payload more) := by
  unfold extendUot
  split
  · split
    · exact s.close_safe
    · exact loop_safe _
    · split
      · exact s.close_safe
      · exact openStream_safe _
  · exact s.close_safe

theorem firstPayload_safe {id : UInt32} {payload : Bytes} :
    Safe [.core] (s.firstPayload d id payload) := by
  unfold firstPayload
  split
  · exact s.close_safe
  · split
    · split
      · exact s.close_safe
      · exact s.openStream_safe
      · dsimp only
        split
        · exact loop_safe _
        · exact close_safe _
    · exact s.openStream_safe

theorem handlePsh_safe {f : Frame} : Safe [.core] (s.handlePsh d f) := by
  unfold handlePsh
  split
  · intro e
    cases e with
    | ok => exact s.loop_safe
    | error text => exact s.removeStream_safe loop_safe
    | _ => trivial
  · split
    · exact s.extendUot_safe
    · split
      · exact firstPayload_safe _
      · exact s.loop_safe

theorem handleSettings_safe {f : Frame} : Safe [.core] (s.handleSettings d f) := by
  unfold handleSettings
  dsimp only
  split
  · exact lockAndWrite_safe core_ends (close_safe _) (loop_safe _)
  · exact lockAndWrite_safe core_ends (close_safe _)
      (lockAndWrite_safe core_ends (close_safe _) (loop_safe _))

theorem handleSyn_safe {f : Frame} : Safe [.core] (s.handleSyn f) := by
  unfold handleSyn
  split
  · split
    · exact loop_safe _
    · exact lockAndWrite_safe core_ends s.close_safe s.close_safe
  · exact s.close_safe

theorem handleFrame_safe {f : Frame} : Safe [.core] (s.handleFrame d f) := by
  unfold handleFrame
  repeat' split
  · exact s.handleSyn_safe
  · exact s.handlePsh_safe
  · exact removeStream_safe _ loop_safe
  · exact lockAndWrite_safe core_ends s.close_safe s.loop_safe
  · exact s.handleSettings_safe
  · exact s.close_safe
  · exact s.loop_safe

theorem serve_safe : Safe [.core] (s.serve d) := by
  intro e
  cases e with
  | frame f => exact s.handleFrame_safe
  | error text => exact s.close_safe
  | tick =>
    refine Code.retain_shielded _ fun kept => ?_
    dsimp only
    split
    · exact lockAndWrite_safe core_ends (close_safe _) (loop_safe _)
    · exact loop_safe _
  | _ => trivial

end Session

theorem connection_ends : ∀ s ∈ [Signal.connection], s.EndsConnection := by
  simp [Signal.EndsConnection]

theorem relayDown_safe {id : UInt32} {n : ℕ} {payload : Bytes} {next : Label}
    (hnext : entry next = [.connection]) : Safe [.connection] (relayDown id n payload next) := by
  refine ⟨trivial, fun e => ?_⟩
  cases e with
  | ok => exact ⟨trivial, connection_ends, hnext⟩
  | error text => trivial
  | _ => trivial

theorem uplink_safe {n : ℕ} : Safe [.stream n, .connection] (uplink n (.uplink n)) := by
  intro e
  cases e with
  | ok => exact rfl
  | _ => trivial

theorem runTcpStream_safe {id : UInt32} {n : ℕ} : Safe [] (runTcpStream id n) := by
  refine ⟨trivial, trivial, fun e => ?_⟩
  cases e with
  | ok => exact ⟨trivial, connection_ends, rfl, trivial, rfl⟩
  | error text =>
    refine ⟨trivial, ?_⟩
    unfold writeFrame
    split
    · exact ⟨connection_ends, trivial⟩
    · trivial
  | _ => trivial

theorem program_safe (d : Decoder) (l : Label) : Safe (entry l) (program d l) := by
  cases l with
  | handleClient => exact ⟨trivial, rfl⟩
  | serveSession s => exact s.serve_safe
  | runTcpStream id n => exact runTcpStream_safe
  | uplink n => exact uplink_safe
  | downlink id n => exact ⟨trivial, rfl⟩
  | downlinkLoop id n =>
    refine ⟨trivial, fun e => ?_⟩
    cases e with
    | data bytes => exact relayDown_safe rfl
    | eof => exact @lockAndWrite_safe [.connection] _ _ _ _ _ connection_ends trivial trivial
    | _ => trivial
  | uotUplink n => exact ⟨trivial, trivial, rfl⟩
  | uotDownlink id n => exact ⟨trivial, rfl⟩
  | uotDownlinkLoop id n =>
    refine ⟨trivial, fun e => ?_⟩
    cases e with
    | data packet => exact relayDown_safe rfl
    | _ => trivial

/-- Until the end of the connection drops one of its tasks, whichever streams end and wherever
their tasks stand, the server has put whole frames on the connection, and at most a part of the
frame that the holder of the lock is writing. -/
theorem frames_atomic (d : Decoder) {evs : List (Event Signal Input)}
    {w : World Signal Input Frame Label}
    (hrun : Steps (World.step framing (program d) external) (World.Spares Signal.EndsConnection)
      (.start .handleClient) evs w) : w.Framed framing :=
  World.framed_of_shielded (program_safe d) rfl hrun

def oneByteTargets : Decoder where
  target payload := payload.head?.map fun port => (.domain "target" port.toUInt16, payload.tail)
  encodeTarget _ := none
  isMagic _ := false
  isLegacyMagic _ := false
  requestComplete _ := none
  requestForTarget _ _ := none
  samePadding _ := true
  paddingText := []

/-- A stream is opened and sends three bytes of its target; the client ends it after four bytes of
the frame, and its uplink is dropped. -/
def endedStream : List (Event Signal Input) :=
  [.run 0, .run 0, .run 0, .input 0 (.frame ⟨cmdSettings, 0, [], Nat.zero_le _⟩), .grant 0,
    .emit 0 10, .run 0, .run 0, .input 0 (.frame ⟨cmdSyn, 1, [], Nat.zero_le _⟩), .run 0,
    .input 0 (.frame ⟨cmdPsh, 1, [7], by decide⟩), .input 0 .ok, .run 0, .run 0] ++
  [.run 1, .run 1, .run 1, .input 1 .ok, .run 1, .run 1, .grant 1, .run 1, .emit 1 7, .run 1, .run 1,
    .run 1, .run 1] ++
  [.run 2, .run 2, .run 2, .run 2, .input 2 (.data [1, 2, 3]), .run 2, .run 2, .input 2 .ok, .run 2,
    .run 2, .grant 2, .run 2, .emit 2 4] ++
  [.input 0 (.frame ⟨cmdFin, 1, [], Nat.zero_le _⟩), .run 0, .cancel 1 0]

theorem ended_stream_framed : ∃ w, Steps (World.step framing (program oneByteTargets) external)
      (World.Spares Signal.EndsConnection) (.start .handleClient) endedStream w ∧
    w.fired (.stream 0) = true ∧ w.writing 2 = true ∧ w.emitted.length = 21 ∧ w.Framed framing := by
  obtain ⟨w, hrun, hw⟩ := steps_of_replay
    (show (Lib.replay (guarded (World.step framing (program oneByteTargets) external)
        (World.Spares Signal.EndsConnection)) (.start .handleClient) endedStream).any
      (fun w => decide (w.fired (.stream 0) = true ∧ w.writing 2 = true ∧ w.emitted.length = 21)) = true
      by decide +kernel)
  obtain ⟨hfired, hwriting, hemitted⟩ := of_decide_eq_true hw
  exact ⟨w, hrun.of_guarded, hfired, hwriting, hemitted,
    frames_atomic oneByteTargets hrun.of_guarded⟩

end Aerion.AnyTls.Server
