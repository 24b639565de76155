import Aerion.Lib.Causes
import Aerion.Net.Octets

/-!
# The VLESS mux server

`src/vless_mux.rs`: the sessions of a client share one stream. One task reads
the client's frames; each session has a task that relays what its target
sends, and all of them write frames under one lock. A session is ended by
aborting its task.
-/

namespace Aerion.Vless.Mux

open Lib Lib.Async Net

def statusNew : UInt8 := 1
def statusKeep : UInt8 := 2
def statusEnd : UInt8 := 3
def statusKeepalive : UInt8 := 4
def optionData : UInt8 := 1
def optionError : UInt8 := 2
def maxMuxSessions : ℕ := 256

/-! ### Frames -/

inductive TargetNetwork where
  | tcp
  | udp
  deriving DecidableEq

structure FrameTarget where
  network : TargetNetwork
  destination : ProxyTarget

/-- A frame on the wire: metadata, and a payload if the metadata's option announces one. -/
structure RawFrame where
  metadata : Bytes
  payload : Bytes
  deriving DecidableEq

structure RawFrame.WellFormed (f : RawFrame) : Prop where
  long : 4 ≤ f.metadata.length
  short : f.metadata.length < 65536
  fits : f.payload.length < 65536
  announced : f.metadata.getD 3 0 &&& optionData ≠ 0 ↔ f.payload ≠ []

instance (f : RawFrame) : Decidable f.WellFormed :=
  decidable_of_iff (4 ≤ f.metadata.length ∧ f.metadata.length < 65536 ∧ f.payload.length < 65536 ∧
      (f.metadata.getD 3 0 &&& optionData ≠ 0 ↔ f.payload ≠ []))
    ⟨fun ⟨h₁, h₂, h₃, h₄⟩ => ⟨h₁, h₂, h₃, h₄⟩, fun ⟨h₁, h₂, h₃, h₄⟩ => ⟨h₁, h₂, h₃, h₄⟩⟩

structure MuxFrame extends RawFrame where
  wellFormed : toRawFrame.WellFormed

def RawFrame.bytes (f : RawFrame) : Bytes :=
  toBe 2 f.metadata.length ++ f.metadata ++
    if f.payload = [] then [] else toBe 2 f.payload.length ++ f.payload

def readBlock : Bytes → Option (Bytes × Bytes)
  | high :: low :: rest =>
    if ofBe [high, low] ≤ rest.length then
      some (rest.take (ofBe [high, low]), rest.drop (ofBe [high, low]))
    else none
  | _ => none

def readRaw (stream : Bytes) : Option (RawFrame × Bytes) :=
  (readBlock stream).bind fun (metadata, rest) =>
    if metadata.getD 3 0 &&& optionData ≠ 0 then
      (readBlock rest).map fun (payload, rest) => (⟨metadata, payload⟩, rest)
    else some (⟨metadata, []⟩, rest)

theorem readBlock_append {block : Bytes} (h : block.length < 65536) (rest : Bytes) :
    readBlock (toBe 2 block.length ++ block ++ rest) = some (block, rest) := by
  have hlen : ofBe (toBe 2 block.length) = block.length := ofBe_toBe (by omega)
  obtain ⟨high, low, hl⟩ : ∃ a b, toBe 2 block.length = [a, b] := ⟨_, _, rfl⟩
  rw [hl] at hlen
  rw [hl, List.append_assoc]
  simp only [List.cons_append, List.nil_append, readBlock, hlen]
  rw [if_pos (by simp)]
  simp

theorem readRaw_bytes {f : RawFrame} (h : f.WellFormed) (rest : Bytes) :
    readRaw (f.bytes ++ rest) = some (f, rest) := by
  obtain ⟨metadata, payload⟩ := f
  unfold RawFrame.bytes readRaw
  dsimp only
  rw [List.append_assoc, readBlock_append h.short, Option.bind_some]
  dsimp only
  by_cases hpayload : payload = []
  · subst hpayload
    rw [if_neg (fun hbit => h.announced.mp hbit rfl)]
    rfl
  · rw [if_pos (h.announced.mpr hpayload), if_neg hpayload, readBlock_append h.fits]
    rfl

def framing : Framing MuxFrame where
  encode f := f.bytes
  read stream := (readRaw stream).bind fun (raw, rest) =>
    if h : raw.WellFormed then some (⟨raw, h⟩, rest) else none
  encode_pos f := by simp [RawFrame.bytes, toBe_length]
  read_encode f rest := by
    rw [readRaw_bytes f.wellFormed, Option.bind_some]
    simp [f.wellFormed]

theorem ip_length (ip : IpAddr) (kind : UInt8) (port : UInt16) :
    (toBe 2 port.toNat ++ [kind] ++ ip.octets).length ≤ 259 := by
  cases ip with
  | v4 => exact Nat.le_of_ble_eq_true rfl
  | v6 => exact Nat.le_of_ble_eq_true rfl

theorem domain_length {host : Bytes} (h : host.length ≤ 255) (port : UInt16) :
    (toBe 2 port.toNat ++ [2, UInt8.ofNat host.length] ++ host).length ≤ 259 := by
  simp only [List.length_append, toBe_length, List.length_cons, List.length_nil]
  omega

def writeDestination : ProxyTarget → Outcome {bytes : Bytes // bytes.length ≤ 259}
  | .ip ⟨.v4 a b c d, port⟩ =>
    .ok ⟨toBe 2 port.toNat ++ [1] ++ IpAddr.octets (.v4 a b c d), ip_length ..⟩
  | .ip ⟨.v6 s0 s1 s2 s3 s4 s5 s6 s7, port⟩ =>
    .ok ⟨toBe 2 port.toNat ++ [3] ++ IpAddr.octets (.v6 s0 s1 s2 s3 s4 s5 s6 s7), ip_length ..⟩
  | .domain host port =>
    if h : host.toUTF8.toList.length ≤ 255 then
      .ok ⟨toBe 2 port.toNat ++ [2, UInt8.ofNat host.toUTF8.toList.length] ++ host.toUTF8.toList,
        domain_length h port⟩
    else .err "VLESS mux domain too long"

def targetBytes : Option FrameTarget → Outcome {bytes : Bytes // bytes.length ≤ 260}
  | none => .ok ⟨[], by simp⟩
  | some target => do
    let destination ← writeDestination target.destination
    let network : UInt8 := match target.network with
      | .tcp => 1
      | .udp => 2
    return ⟨network :: destination.1, by
      have := destination.2
      rw [List.length_cons]
      omega⟩

def frameOption (payload : Bytes) (hasError : Bool) : UInt8 :=
  (if payload = [] then 0 else optionData) ||| (if hasError then optionError else 0)

theorem frameOption_data (payload : Bytes) (hasError : Bool) :
    frameOption payload hasError &&& optionData ≠ 0 ↔ payload ≠ [] := by
  unfold frameOption
  by_cases hpayload : payload = []
  · simp only [hpayload, if_true, ne_eq, not_true_eq_false, iff_false, not_not]
    cases hasError <;> decide
  · simp only [hpayload, if_false, ne_eq, not_false_eq_true, iff_true]
    cases hasError <;> decide

def encodeFrame (sessionId : UInt16) (status : UInt8) (target : Option FrameTarget)
    (payload : Bytes) (hasError : Bool) : Outcome MuxFrame :=
  if hfits : payload.length ≤ 65535 then do
    let tail ← targetBytes target
    return ⟨⟨toBe 2 sessionId.toNat ++ [status, frameOption payload hasError] ++ tail.1, payload⟩, by
      have htail := tail.2
      have hlength : (toBe 2 sessionId.toNat ++ [status, frameOption payload hasError] ++
          tail.1).length = 4 + tail.1.length := by
        simp [toBe_length]
        omega
      exact ⟨by rw [hlength]; omega, by rw [hlength]; omega, Nat.lt_succ_of_le hfits,
        frameOption_data payload hasError⟩⟩
  else .err "VLESS mux payload too large"

/-! ### Tasks -/

/-- The abort of the session with a generation, and whether it was put into the table of sessions
and taken out of it. -/
inductive Signal where
  | aborted (generation : ℕ)
  | inserted (generation : ℕ)
  | taken (generation : ℕ)
  deriving DecidableEq

/-- A frame of the client as the loop reads it; its payload goes to the target. -/
structure ClientFrame where
  sessionId : UInt16
  status : UInt8
  hasData : Bool
  network : Option TargetNetwork

inductive Input where
  | frame (f : ClientFrame)
  | data (payload : Bytes)
  | datagram (source : SocketAddr) (payload : Bytes)
  | eof
  | ok
  | error

structure Entry where
  sessionId : UInt16
  generation : ℕ
  network : TargetNetwork

/-- The sessions the loop has put into the table and not taken out, and the next generation. -/
structure Table where
  sessions : List Entry
  generation : ℕ

/-- Why a session is taken out of the table: a NEW frame with its id, a KEEP frame whose payload
could not be sent to its target, or an END frame. -/
inductive Cause where
  | replaced
  | sendFailed
  | ended

/-- `shutdown` ends a session taken out of the table for a frame with its id, `shutdownAll` those
that the end of the loop has taken out. -/
inductive Label where
  | relayServer
  | relayFrames (t : Table)
  | shutdown (cause : Cause) (t : Table) (f : ClientFrame) (e : Entry)
  | shutdownAll (taken : List Entry)
  | relay (e : Entry)
  | relayLoop (e : Entry)

abbrev MuxCode := Code Signal Input MuxFrame Label

/-- `writer.lock().await.write_all(..).await`. -/
def writeLocked (frame : Outcome MuxFrame) (failed k : MuxCode) : MuxCode :=
  .lock (match frame with
    | .ok frame => .send [frame] (.unlock k)
    | _ => .unlock failed)

def writeEndFrame (sessionId : UInt16) (hasError : Bool) (failed k : MuxCode) : MuxCode :=
  writeLocked (encodeFrame sessionId statusEnd none [] hasError) failed k

/-- `SessionEntry::shutdown`: the task is aborted, and the write half of a TCP target closed. -/
def Entry.shutdown (e : Entry) (k : MuxCode) : MuxCode :=
  .fire (.aborted e.generation) (match e.network with
    | .tcp => .await fun
      | .ok | .error => k
      | _ => .refuse
    | .udp => k)

/-- `close_all_sessions`: the sessions are taken out first and then shut down one by one. -/
def closeAll : List Entry → List Entry → MuxCode
  | [], taken => .goto (.shutdownAll taken)
  | e :: sessions, taken =>
    .claim (.taken e.generation) (closeAll sessions (taken ++ [e])) (closeAll sessions taken)

def shutdownAll : List Entry → MuxCode
  | [] => .done
  | e :: taken => e.shutdown (shutdownAll taken)

namespace Table

def close (t : Table) : MuxCode := closeAll t.sessions []

def loop (t : Table) : MuxCode := .goto (.relayFrames t)

def without (t : Table) (id : UInt16) : Table :=
  { t with sessions := t.sessions.filter (·.sessionId ≠ id) }

/-- `insert_session` counts the sessions that are still in the table. -/
def insertSession (t : Table) (e : Entry) (k : Table → MuxCode) : MuxCode :=
  .retain (fun e => .taken e.generation) t.sessions fun live =>
    if live.length < maxMuxSessions ∨ live.any (·.sessionId = e.sessionId) then
      .fire (.inserted e.generation) (k ⟨e :: live, t.generation + 1⟩)
    else close ⟨live, t.generation⟩

def upload (t : Table) (failed k : MuxCode) : MuxCode :=
  .await fun
    | .ok => .await fun
      | .ok => k
      | .error => failed
      | _ => .refuse
    | .error => t.close
    | _ => .refuse

/-- `handle_new` from the connection to the target on. -/
def openSession (t : Table) (f : ClientFrame) : MuxCode :=
  match f.network with
  | none => t.close
  | some network => .await fun
    -- The target is connected, or the socket bound.
    | .ok => .spawn (.relay ⟨f.sessionId, t.generation, network⟩)
        (t.insertSession ⟨f.sessionId, t.generation, network⟩ fun t =>
          if f.hasData then t.upload t.close t.loop else t.loop)
    | .error => t.close
    | _ => .refuse

/-- What follows once the session of the frame's id is out of the table. -/
def proceed (t : Table) (f : ClientFrame) : Cause → MuxCode
  | .replaced => t.openSession f
  | .sendFailed => writeEndFrame f.sessionId true t.loop t.loop
  | .ended => t.loop

/-- `shutdown_session`; also what `handle_new` does with a session of the same id. -/
def shutdownSession (t : Table) (f : ClientFrame) (cause : Cause) : MuxCode :=
  match t.sessions.find? (·.sessionId = f.sessionId) with
  | none => t.proceed f cause
  | some e => .claim (.taken e.generation) (.goto (.shutdown cause (t.without f.sessionId) f e))
      ((t.without f.sessionId).proceed f cause)

def handleNew (t : Table) (f : ClientFrame) : MuxCode :=
  match f.network with
  | none => t.close
  | some _ => t.shutdownSession f .replaced

def handleKeep (t : Table) (f : ClientFrame) : MuxCode :=
  let unknown := writeEndFrame f.sessionId false t.close t.loop
  if f.hasData then
    match t.sessions.find? (·.sessionId = f.sessionId) with
    | none => unknown
    | some e => .test (.taken e.generation) unknown
        (t.upload (t.shutdownSession f .sendFailed) t.loop)
  else t.loop

def handleFrame (t : Table) (f : ClientFrame) : MuxCode :=
  if f.status = statusNew then t.handleNew f
  else if f.status = statusKeep then t.handleKeep f
  else if f.status = statusEnd then t.shutdownSession f .ended
  else if f.status = statusKeepalive then t.loop
  else t.close

end Table

/-- The end of a relay task: if its session is still in the table, it takes it out and writes the
end frame. -/
def Entry.finish (e : Entry) (hasError : Bool) : MuxCode :=
  .test (.inserted e.generation)
    (.claim (.taken e.generation)
      (writeEndFrame e.sessionId hasError (.leave .done) (.leave .done)) (.leave .done))
    (.leave .done)

def Entry.relayPayload (e : Entry) (target : Option FrameTarget) (payload : Bytes) : MuxCode :=
  .await fun
    | .ok => writeLocked (encodeFrame e.sessionId statusKeep target payload false)
        (e.finish true) (.goto (.relayLoop e))
    | .error => e.finish true
    | _ => .refuse

/-- `relay_tcp_to_client` and `relay_udp_to_client`, up to their next payload. -/
def Entry.relay (e : Entry) : MuxCode :=
  .await fun input => match e.network, input with
    | .tcp, .data payload => e.relayPayload none payload
    | .tcp, .eof => e.finish false
    | .udp, .datagram source payload => e.relayPayload (some ⟨.udp, .ip source⟩) payload
    | _, .error => e.finish true
    | _, _ => .refuse

def program : Label → MuxCode
  | .relayServer => .goto (.relayFrames ⟨[], 1⟩)
  | .relayFrames t => .await fun
    | .frame f => t.handleFrame f
    | .eof | .error => t.close
    | _ => .refuse
  | .shutdown cause t f e => e.shutdown (t.proceed f cause)
  | .shutdownAll taken => shutdownAll taken
  -- The task yields once before it relays.
  | .relay e => .enter (.aborted e.generation) .done (.await fun
    | .ok => .goto (.relayLoop e)
    | _ => .refuse)
  | .relayLoop e => e.relay

def external : Signal → Bool := fun _ => false

abbrev step := World.step framing program external

/-! ### Frames on the shared stream -/

/-- What aborts the task of a session. The entries of the table are put in and taken out by many. -/
def Label.ends : Label → Signal → Bool
  | .shutdown _ _ _ e, .aborted generation => e.generation = generation
  | .shutdownAll taken, .aborted generation => taken.any (·.generation = generation)
  | _, .aborted _ => false
  | _, .inserted _ | _, .taken _ => true

section

variable {may : Signal → Prop} {t : Table}

variable (htaken : ∀ generation, may (.taken generation))

include htaken

variable (hinserted : ∀ generation, may (.inserted generation))

include hinserted

end

section

variable {may : Signal → Prop}

end

def openSession : List (Event Signal Input) :=
  [.run 0, .run 0, .input 0 (.frame ⟨1, statusNew, false, some .tcp⟩), .input 0 .ok, .run 0, .run 0,
    .run 0, .run 1, .run 1, .input 1 .ok, .run 1, .input 1 (.data [1, 2, 3, 4]), .input 1 .ok, .grant 1]

end Aerion.Vless.Mux
