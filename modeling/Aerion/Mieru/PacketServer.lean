import Aerion.Core.Credentials
import Aerion.Mieru.Session

/-!
# The Mieru packet server

`run_mieru_packet_server` and `handle_server_segment` of `src/mieru.rs` as a
step function. The listener is one task; `Stage` says at which await it
stands and what it carries from one to the next, so that every step of it is
what the code does between two awaits. The other tasks, those of the sessions,
the cleaner and the rest of the process, act in between as `Background`.
Writers are shared between the sessions and the cached peers; `writers` is
the heap they live on.
-/

namespace Aerion.Mieru

open Lib Aerion.Net Aerion.Core

def maxPacketPeers : ℕ := 1024
def packetPeerIdleTimeout : ℕ := seconds 60
def sessionCleanInterval : ℕ := seconds 5

structure PacketConfig where
  users : List MieruUserSecret
  mtu : ℕ
  userHintMandatory : Bool
  trafficPattern : Option MieruTrafficPattern

/-- The wall clock and the monotonic clock while one datagram is decoded. -/
structure Clock where
  unix : Option ℕ
  now : Instant
  deriving DecidableEq, Repr

structure MieruPacketWriter where
  peer : Option SocketAddr
  cipher : MieruCipher
  deriving DecidableEq, Repr

structure MieruPacketPeer where
  cipher : MieruCipher
  user : MieruUserSecret
  writer : ℕ
  keyEpoch : ℕ
  lastRx : Instant
  deriving DecidableEq, Repr

/-- `MieruPacketPeer::decode`, which works on the peer and on the replay cache. -/
def MieruPacketPeer.decode (crypto : Crypto) (clock : Clock) (packet : Bytes) (keyEpoch : ℕ)
    (mandatory : Bool) : Stateful (MieruPacketPeer × MieruReplayCache) MieruSegment := do
  let (cached, _) ← Stateful.get
  Outcome.ensure (cached.keyEpoch = keyEpoch) "Mieru cached key epoch expired"
  Outcome.ensure (packetMetadataLen ≤ packet.length) "Mieru packet is too short"
  let nonce ← slice packet 0 nonceLen
  Outcome.ensure (!mandatory || checkUserFromHint crypto cached.user.username nonce)
    "Mieru UDP user hint did not match cached user"
  let segment ← Stateful.zoom (·.1.cipher) (fun cipher s => ({ s.1 with cipher }, s.2))
    (decodeMieruPacketSegment crypto clock.unix packet)
  Stateful.zoom (·.2) (fun replay s => (s.1, replay)) (checkReplay crypto clock.now segment packet)
  Stateful.update fun s => .ok ({ s.1 with lastRx := clock.now }, s.2)
  return segment

/-- A segment that passed authentication, the user it authenticated as, where it came
from, and the writer of the underlay it belongs to. -/
structure Job where
  segment : MieruSegment
  user : MieruUserSecret
  peer : SocketAddr
  writer : ℕ
  deriving DecidableEq

/-- A datagram decoded by the scan over the users, before its writer is known. -/
structure Arrival where
  segment : MieruSegment
  user : MieruUserSecret
  cipher : MieruCipher
  peer : SocketAddr
  keyEpoch : ℕ
  deriving DecidableEq

inductive Exit where
  | clock
  | socket (message : String)
  | segment (message : String)
  | panicked
  deriving DecidableEq, Repr

inductive Stage where
  /-- At `recv_from`. -/
  | receiving
  /-- Decoded by the scan; the session map is next. -/
  | arrived (arrival : Arrival)
  /-- The writer to adopt is known and about to be locked. -/
  | adopting (arrival : Arrival) (writer : ℕ)
  /-- At the start of `handle_server_segment`. -/
  | handling (job : Job)
  /-- The session is new and the core is asked. -/
  | opening (job : Job)
  /-- The core accepted; the entry is about to enter the map. -/
  | inserting (job : Job) (session : ActiveSession)
  /-- The output task runs; the open response is about to be queued. -/
  | answering (job : Job) (session : ActiveSession)
  /-- At `route_session_segment`. -/
  | routing (job : Job)
  /-- The close response is about to be written. -/
  | closing (job : Job)
  /-- The entry is about to leave the map. -/
  | removing (job : Job)
  | stopped (exit : Exit)
  deriving DecidableEq

structure Server where
  core : CoreInner
  sessions : Map UInt32 MieruSessionEntry
  writers : List MieruPacketWriter
  peers : Map SocketAddr MieruPacketPeer
  replay : MieruReplayCache
  keyCache : KeyCache
  cleanAt : Instant
  stage : Stage

/-- The server when its loop starts. Uses of the process-wide key cache before it are
steps in the background. -/
def Server.start (core : CoreInner) (now : Instant) : Server where
  core
  sessions := ∅
  writers := []
  peers := ∅
  replay := MieruReplayCache.new
  keyCache := KeyCache.empty
  cleanAt := now + sessionCleanInterval
  stage := .receiving

namespace Server

variable (crypto : Crypto) (config : PacketConfig) (s : Server)

def stop (exit : Exit) : Server := { s with stage := .stopped exit }

def withWriters (writers : List MieruPacketWriter) : Server := { s with writers }

def drawFrom (writer : ℕ) : Server :=
  s.withWriters (s.writers.modify writer fun w => { w with cipher := w.cipher.drewNonce })

def onSession (id : UInt32) (f : MieruSessionEntry → MieruSessionEntry) : Server :=
  match s.sessions.lookup id with
  | some entry => { s with sessions := s.sessions.insert id (f entry) }
  | none => s

/-! ### Receiving -/

/-- Forgets the peers that have been idle, every `sessionCleanInterval`. -/
def clean (now : Instant) : Server :=
  if s.cleanAt ≤ now then
    { s with
      peers := retain (fun _ cached => now - cached.lastRx < packetPeerIdleTimeout) s.peers
      cleanAt := now + sessionCleanInterval }
  else s

def decodeCached (clock : Clock) (keyEpoch : ℕ) (peer : SocketAddr) (packet : Bytes) :
    Stateful Server Job := fun s =>
  match s.peers.lookup peer with
  | none => (.err "no cached peer", s)
  | some cached =>
    let (result, cached, replay) :=
      MieruPacketPeer.decode crypto clock packet keyEpoch config.userHintMandatory
        (cached, s.replay)
    (result >>= fun segment => .ok ⟨segment, cached.user, peer, cached.writer⟩,
      { s with peers := s.peers.insert peer cached, replay })

/-- `decode_mieru_packet_segment_for_server`. -/
def decodeForServer (clock : Clock) (keyEpoch : ℕ) (peer : SocketAddr) (packet : Bytes) :
    Stateful Server Arrival := do
  let (segment, user, cipher) ← Stateful.zoom keyCache (fun keyCache s => { s with keyCache })
    (authenticatePacket crypto clock.unix config.users config.userHintMandatory
      config.trafficPattern packet)
  Stateful.zoom replay (fun replay s => { s with replay })
    (checkReplay crypto clock.now segment packet)
  return ⟨segment, user, cipher, peer, keyEpoch⟩

/-- The loop body up to its first await after `recv_from`. -/
def received (packet : Bytes) (source : SocketAddr) (clock : Clock) : Server :=
  match clock.unix with
  | none => s.stop .clock
  | some secs =>
    let peer := canonicalizeSocketAddr source
    let keyEpoch := mieruKeyEpoch secs
    match decodeCached crypto config clock keyEpoch peer packet (s.clean clock.now) with
    | (.ok job, s) => { s with stage := .handling job }
    | (.panic, s) => s.stop .panicked
    | (.err _, s) =>
      match decodeForServer crypto config clock keyEpoch peer packet s with
      | (.ok arrival, s) => { s with stage := .arrived arrival }
      | (.panic, s) => s.stop .panicked
      -- An undecodable packet is dropped.
      | (.err _, s) => s

/-! ### The writer of a datagram -/

/-- The writer of the session the segment names, else that of the peer cached for the
address under the same key. -/
def existingWriter (arrival : Arrival) : Option ℕ :=
  ((s.sessions.lookup arrival.segment.metadata.sessionId).map (·.writer)).or
    (((s.peers.lookup arrival.peer).filter fun cached =>
      cached.user.hashedPassword = arrival.user.hashedPassword).map (·.writer))

def remember (arrival : Arrival) (writer : ℕ) (now : Instant) : Server :=
  { s with
    peers :=
      if s.peers.entries.length < maxPacketPeers ∨ arrival.peer ∈ s.peers then
        s.peers.insert arrival.peer
          { cipher := arrival.cipher, user := arrival.user, writer, keyEpoch := arrival.keyEpoch,
            lastRx := now }
      else s.peers
    stage := .handling ⟨arrival.segment, arrival.user, arrival.peer, writer⟩ }

def chooseWriter (arrival : Arrival) (now : Instant) : Server :=
  match s.existingWriter arrival with
  | some writer => { s with stage := .adopting arrival writer }
  | none =>
    (s.withWriters (s.writers ++ [⟨some arrival.peer, arrival.cipher⟩])).remember arrival
      s.writers.length now

/-- `lock_packet_peer` and `set_cipher` on the writer found. -/
def adopt (arrival : Arrival) (writer : ℕ) (now : Instant) : Server :=
  (s.withWriters (s.writers.modify writer fun _ => ⟨some arrival.peer, arrival.cipher⟩)).remember
    arrival writer now

/-! ### Handling a segment -/

def ackSessionSegments (id unAckSeq : UInt32) (windowSize : UInt16) : Server :=
  s.onSession id fun entry => entry.send (.peerAck unAckSeq windowSize)

def handle (job : Job) : Server :=
  let metadata := job.segment.metadata
  let id := metadata.sessionId
  if metadata.protocol = openSessionRequest then
    if id = 0 then s.stop (.segment "Mieru session ID 0 is reserved")
    else if id ∈ s.sessions then { s with stage := .routing job }
    else { s with stage := .opening job }
  else if metadata.protocol = dataClientToServer then
    match metadata.unAckSeq with
    | some unAckSeq =>
      { s.ackSessionSegments id unAckSeq metadata.windowSize with stage := .routing job }
    | none => { s with stage := .routing job }
  else if metadata.protocol = closeSessionRequest then { s with stage := .closing job }
  else if metadata.protocol = closeSessionResponse then
    { s with sessions := s.sessions.erase id, stage := .receiving }
  else if metadata.protocol = ackClientToServer then
    { s.ackSessionSegments id (metadata.unAckSeq.getD 0) metadata.windowSize with
      stage := .receiving }
  else if metadata.protocol = closeConnRequest ∨ metadata.protocol = closeConnResponse then
    { s with stage := .receiving }
  else s.stop (.segment s!"unexpected Mieru server segment protocol {metadata.protocol}")

/-- `core.authenticate_from`. -/
def openCore (job : Job) : Server :=
  match s.core.authenticateFrom job.user.coreCredential job.peer.ip with
  | (.ok session, core) => { s with core, stage := .inserting job session }
  | (.error message, core) => { s with core }.stop (.segment message)

def insertEntry (job : Job) (session : ActiveSession) : Server :=
  { s with
    sessions := s.sessions.insert job.segment.metadata.sessionId
      (MieruSessionEntry.new config.mtu true job.writer job.user)
    stage := .answering job session }

/-- Queues the open response; `outputGone` says that the output task has already ended. -/
def answer (job : Job) (outputGone : Bool) : Server :=
  let id := job.segment.metadata.sessionId
  if outputGone then
    s.stop (.segment s!"Mieru session {id} output queue closed before open response")
  else
    { s.onSession id fun entry => entry.send (.sendSegment (.answer openSessionResponse id)) with
      stage := .routing job }

/-- `route_session_segment`, for which a reliable server acknowledges. -/
def routeSegment (job : Job) : Option Server :=
  let metadata := job.segment.metadata
  match s.sessions.lookup metadata.sessionId with
  | none => some { s with stage := .receiving }
  | some entry =>
    (entry.route metadata.seq job.segment.payload (some ackServerToClient)).map fun
      | .ok entry =>
        { s with sessions := s.sessions.insert metadata.sessionId entry, stage := .receiving }
      | .err message => s.stop (.segment message)
      | .panic => s.stop .panicked

/-- `write_close_response`; `drew` says that a nonce was drawn and `written` how the write
ended. -/
def writeClose (job : Job) (drew : Bool) (written : Except String Unit) : Server :=
  let s := if drew then s.drawFrom job.writer else s
  match written with
  | .ok () => { s with stage := .removing job }
  | .error message => s.stop (.segment message)

/-- `close_mieru_session_entry`. -/
def closeEntry (job : Job) : Server :=
  { s with
    sessions := s.sessions.erase job.segment.metadata.sessionId
    stage := .receiving }

/-- What the listener's next section meets outside of the server's state. -/
structure Ambient where
  now : Instant
  outputGone : Bool
  drew : Bool
  written : Except String Unit

def advance (env : Ambient) : Option Server :=
  match s.stage with
  | .receiving => none
  | .arrived arrival => some (s.chooseWriter arrival env.now)
  | .adopting arrival writer => some (s.adopt arrival writer env.now)
  | .handling job => some (s.handle job)
  | .opening job => some (s.openCore job)
  | .inserting job session => some (s.insertEntry config job session)
  | .answering job _ => some (s.answer job env.outputGone)
  | .routing job => s.routeSegment job
  | .closing job => some (s.writeClose job env.drew env.written)
  | .removing job => some (s.closeEntry job)
  | .stopped _ => none

/-! ### The other tasks -/

inductive Background where
  /-- A task of a session in the map. -/
  | session (id : UInt32) (task : SessionTask)
  /-- An output task wrote through a writer. -/
  | wrote (writer : ℕ)
  /-- An output task removes the entry under its session id. -/
  | left (id : UInt32)
  /-- A round of `run_mieru_underlay_cleaner`. -/
  | cleaned
  /-- The core was used or configured elsewhere. -/
  | core (core : CoreInner)
  /-- Another listener looked keys up. -/
  | keysUsed (clock : Option ℕ) (hashedPassword : Bytes)

def background : Background → Server
  | .session id task => s.onSession id (·.act task)
  | .wrote writer => s.drawFrom writer
  | .left id => { s with sessions := s.sessions.erase id }
  | .cleaned => { s with sessions := retain (fun _ entry => !entry.outboundClosed) s.sessions }
  | .core core => { s with core }
  | .keysUsed clock hashedPassword =>
    { s with keyCache := (mieruKeysForPassword crypto clock hashedPassword s.keyCache).2 }

inductive Event where
  | received (packet : Bytes) (source : SocketAddr) (clock : Clock)
  /-- `recv_from` failed in a way the listener ignores. -/
  | ignored
  | receiveFailed (message : String)
  | advance (env : Ambient)
  | background (b : Background)

def Event.listens : Event → Bool
  | .background _ => false
  | _ => true

def step : Event → Option Server
  | .received packet source clock =>
    if s.stage = .receiving then some (s.received crypto config packet source clock) else none
  | .ignored => if s.stage = .receiving then some s else none
  | .receiveFailed message =>
    if s.stage = .receiving then some (s.stop (.socket message)) else none
  | .advance env => s.advance config env
  | .background b => some (s.background crypto b)

end Server

end Aerion.Mieru
