import Aerion.Mieru.Crypto
import Aerion.Net.ReplayCache

/-!
# Mieru segments on the wire

The packet half of `src/mieru/wire.rs`: a datagram is an encrypted metadata
block of 72 bytes, which carries its nonce, followed by padding and the
encrypted payload. A server that does not know the sender tries the users
whose hint matches first, each with the keys of three time slots.
-/

namespace Aerion.Mieru

open Lib Aerion.Net

def metadataLen : ℕ := 32
def packetMetadataLen : ℕ := nonceLen + metadataLen + aeadOverhead
def packetOverhead : ℕ := packetMetadataLen + aeadOverhead
def replayCacheTtl : ℕ := seconds (6 * 60)
def replayCacheMax : ℕ := 65536
def maxPdu : ℕ := 32 * 1024
def maxSessionOpenPayload : ℕ := 1024
def maxPendingSegments : ℕ := 1024
def ackWindowSize : UInt16 := 1024

def closeConnRequest : UInt8 := 0
def closeConnResponse : UInt8 := 1
def openSessionRequest : UInt8 := 2
def openSessionResponse : UInt8 := 3
def closeSessionRequest : UInt8 := 4
def closeSessionResponse : UInt8 := 5
def dataClientToServer : UInt8 := 6
def dataServerToClient : UInt8 := 7
def ackClientToServer : UInt8 := 8
def ackServerToClient : UInt8 := 9
def statusOk : UInt8 := 0

/-! ### Replays -/

abbrev MieruReplayCache := ReplayCache Bytes

def MieruReplayCache.new : MieruReplayCache := ReplayCache.new replayCacheTtl replayCacheMax

/-- `MieruReplayCache::check_and_store`. -/
def storeFirst (crypto : Crypto) (now : Instant) (ciphertext : Bytes) :
    Stateful MieruReplayCache Unit := fun replay =>
  match replay.checkAndStore (crypto.sha256 ciphertext) now with
  | (.ok (), replay) => (.ok (), replay)
  | (.error .replayed, replay) => (.err "Mieru first-segment replay detected", replay)
  | (.error .full, replay) => (.err "Mieru replay cache is full", replay)

theorem storeFirst_ne_panic {crypto : Crypto} {now : Instant} {ciphertext : Bytes}
    {replay : MieruReplayCache} : (storeFirst crypto now ciphertext replay).1 ≠ .panic := by
  unfold storeFirst
  split <;> nofun

/-! ### Segments -/

structure MieruSessionMetadata where
  protocol : UInt8
  sessionId : UInt32
  seq : UInt32
  statusCode : UInt8
  payloadLen : UInt16
  suffixLen : UInt8
  deriving DecidableEq, Repr

structure MieruDataAckMetadata where
  protocol : UInt8
  sessionId : UInt32
  seq : UInt32
  unAckSeq : UInt32
  windowSize : UInt16
  fragment : UInt8
  prefixLen : UInt8
  payloadLen : UInt16
  suffixLen : UInt8
  deriving DecidableEq, Repr

inductive MieruMetadata where
  | session (metadata : MieruSessionMetadata)
  | dataAck (metadata : MieruDataAckMetadata)
  deriving DecidableEq, Repr

structure MieruSegment where
  metadata : MieruMetadata
  payload : Bytes
  deriving DecidableEq, Repr

namespace MieruMetadata

def protocol : MieruMetadata → UInt8
  | .session m => m.protocol
  | .dataAck m => m.protocol

def sessionId : MieruMetadata → UInt32
  | .session m => m.sessionId
  | .dataAck m => m.sessionId

def seq : MieruMetadata → UInt32
  | .session m => m.seq
  | .dataAck m => m.seq

def unAckSeq : MieruMetadata → Option UInt32
  | .session _ => none
  | .dataAck m => some m.unAckSeq

def windowSize : MieruMetadata → UInt16
  | .session _ => ackWindowSize
  | .dataAck m => m.windowSize

end MieruMetadata

def MieruSegment.answer (protocol : UInt8) (sessionId : UInt32) : MieruSegment where
  metadata := .session
    { protocol, sessionId, seq := 0, statusCode := statusOk, payloadLen := 0, suffixLen := 0 }
  payload := []

/-- The big-endian number in `bytes[start..start + width]`. -/
def beAt (bytes : Bytes) (start width : ℕ) : Outcome ℕ := do
  let word ← slice bytes start (start + width)
  return ofBe word

def unixMinutes (clock : Option ℕ) : Outcome UInt32 := do
  let secs ← sinceEpoch clock
  return UInt32.ofNat (secs / 60)

/-- `u32::abs_diff`. -/
def absDiff (a b : UInt32) : ℕ := (a.toNat - b.toNat) + (b.toNat - a.toNat)

def parseSessionMetadata (protocol : UInt8) (bytes : Bytes) : Outcome MieruMetadata := do
  let payloadLen ← beAt bytes 15 2
  Outcome.ensure (payloadLen ≤ maxSessionOpenPayload ∨ protocol ≠ openSessionRequest)
    "Mieru open-session payload is too large"
  let sessionId ← beAt bytes 6 4
  let seq ← beAt bytes 10 4
  let statusCode ← index bytes 14
  let suffixLen ← index bytes 17
  return .session
    { protocol, sessionId := .ofNat sessionId, seq := .ofNat seq, statusCode,
      payloadLen := .ofNat payloadLen, suffixLen }

def parseDataAckMetadata (protocol : UInt8) (bytes : Bytes) : Outcome MieruMetadata := do
  let sessionId ← beAt bytes 6 4
  let seq ← beAt bytes 10 4
  let unAckSeq ← beAt bytes 14 4
  let windowSize ← beAt bytes 18 2
  let fragment ← index bytes 20
  let prefixLen ← index bytes 21
  let payloadLen ← beAt bytes 22 2
  let suffixLen ← index bytes 24
  return .dataAck
    { protocol, sessionId := .ofNat sessionId, seq := .ofNat seq, unAckSeq := .ofNat unAckSeq,
      windowSize := .ofNat windowSize, fragment, prefixLen, payloadLen := .ofNat payloadLen,
      suffixLen }

/-- The branches of `MieruMetadata::parse` on the protocol byte. -/
def parseProtocol (bytes : Bytes) (protocol : UInt8) : Outcome MieruMetadata :=
  if protocol ∈ [openSessionRequest, openSessionResponse, closeSessionRequest,
      closeSessionResponse, closeConnRequest, closeConnResponse] then
    parseSessionMetadata protocol bytes
  else if protocol ∈ [dataClientToServer, dataServerToClient, ackClientToServer,
      ackServerToClient] then
    parseDataAckMetadata protocol bytes
  else .err s!"unsupported Mieru metadata protocol {protocol}"

def MieruMetadata.parse (clock : Option ℕ) (bytes : Bytes) : Outcome MieruMetadata := do
  Outcome.ensure (bytes.length = metadataLen) "invalid Mieru metadata length"
  let timestamp ← beAt bytes 2 4
  let now ← unixMinutes clock
  Outcome.ensure (absDiff now (.ofNat timestamp) ≤ 1)
    "Mieru metadata timestamp is outside accepted window"
  let protocol ← index bytes 0
  parseProtocol bytes protocol

theorem beAt_ne_panic {bytes : Bytes} {start width : ℕ} (h : start + width ≤ bytes.length) :
    beAt bytes start width ≠ .panic := by
  apply Outcome.bind_ne_panic
  · rw [ne_eq, slice_panic]
    omega
  · exact fun _ _ => nofun

theorem index_ne_panic {bytes : Bytes} {i : ℕ} (h : i < bytes.length) :
    index bytes i ≠ .panic := by
  rw [ne_eq, index_panic]
  omega

theorem parseProtocol_ne_panic {bytes : Bytes} {protocol : UInt8}
    (h : bytes.length = metadataLen) : parseProtocol bytes protocol ≠ .panic := by
  have at_ : ∀ {start width}, start + width ≤ 32 → beAt bytes start width ≠ .panic :=
    fun hle => beAt_ne_panic (h ▸ hle)
  have byte : ∀ {i}, i < 32 → index bytes i ≠ .panic := fun hlt => index_ne_panic (h ▸ hlt)
  unfold parseProtocol
  split
  · refine Outcome.bind_ne_panic (at_ (by omega)) fun _ _ => ?_
    refine Outcome.bind_ne_panic (Outcome.ensure_ne_panic _ _) fun _ _ => ?_
    refine Outcome.bind_ne_panic (at_ (by omega)) fun _ _ => ?_
    refine Outcome.bind_ne_panic (at_ (by omega)) fun _ _ => ?_
    refine Outcome.bind_ne_panic (byte (by omega)) fun _ _ => ?_
    exact Outcome.bind_ne_panic (byte (by omega)) fun _ _ => nofun
  split
  · refine Outcome.bind_ne_panic (at_ (by omega)) fun _ _ => ?_
    refine Outcome.bind_ne_panic (at_ (by omega)) fun _ _ => ?_
    refine Outcome.bind_ne_panic (at_ (by omega)) fun _ _ => ?_
    refine Outcome.bind_ne_panic (at_ (by omega)) fun _ _ => ?_
    refine Outcome.bind_ne_panic (byte (by omega)) fun _ _ => ?_
    refine Outcome.bind_ne_panic (byte (by omega)) fun _ _ => ?_
    refine Outcome.bind_ne_panic (at_ (by omega)) fun _ _ => ?_
    exact Outcome.bind_ne_panic (byte (by omega)) fun _ _ => nofun
  · nofun

theorem MieruMetadata.parse_ne_panic {clock : Option ℕ} {bytes : Bytes} :
    MieruMetadata.parse clock bytes ≠ .panic := by
  refine Outcome.bind_ne_panic (Outcome.ensure_ne_panic _ _) fun _ h => ?_
  have hlen : bytes.length = metadataLen := by simpa [Outcome.ensure_ok] using h
  refine Outcome.bind_ne_panic (beAt_ne_panic (by rw [hlen]; decide)) fun _ _ => ?_
  refine Outcome.bind_ne_panic (Outcome.bind_ne_panic (Outcome.need_ne_panic _ _)
    fun _ _ => nofun) fun _ _ => ?_
  refine Outcome.bind_ne_panic (Outcome.ensure_ne_panic _ _) fun _ _ => ?_
  refine Outcome.bind_ne_panic (index_ne_panic (by rw [hlen]; decide)) fun _ _ => ?_
  exact parseProtocol_ne_panic hlen

/-! ### Packets -/

section

variable (crypto : Crypto)

/-- The encrypted payload at the front of `remaining`, if the metadata announce one. -/
def decodePayload (c : MieruCipher) (kind : String) (payloadLen : UInt16)
    (nonce remaining : Bytes) : Outcome (Bytes × Bytes) :=
  if 0 < payloadLen then do
    let encryptedLen := payloadLen.toNat + aeadOverhead
    Outcome.ensure (encryptedLen ≤ remaining.length) s!"Mieru UDP {kind} payload is incomplete"
    let encrypted ← slice remaining 0 encryptedLen
    let payload ← decryptWithNonce crypto c encrypted nonce
    let remaining ← slice remaining encryptedLen remaining.length
    return (payload, remaining)
  else return ([], remaining)

def decodeBody (c : MieruCipher) (kind : String) (payloadLen : UInt16) (suffixLen : UInt8)
    (nonce remaining : Bytes) : Outcome Bytes := do
  let (payload, remaining) ← decodePayload crypto c kind payloadLen nonce remaining
  Outcome.ensure (remaining.length = suffixLen.toNat) s!"Mieru UDP {kind} padding size mismatch"
  return payload

def decodeMieruPacketPayload (c : MieruCipher) (metadata : MieruMetadata)
    (nonce remaining : Bytes) : Outcome Bytes :=
  match metadata with
  | .session m => decodeBody crypto c "session" m.payloadLen m.suffixLen nonce remaining
  | .dataAck m => do
    Outcome.ensure (m.prefixLen.toNat ≤ remaining.length)
      "Mieru UDP data prefix padding is incomplete"
    let remaining ← slice remaining m.prefixLen.toNat remaining.length
    decodeBody crypto c "data" m.payloadLen m.suffixLen nonce remaining

def decodeMieruPacketSegment (clock : Option ℕ) (packet : Bytes) :
    Stateful MieruCipher MieruSegment := do
  Outcome.ensure (packetMetadataLen ≤ packet.length)
    "Mieru UDP packet is shorter than encrypted metadata"
  let encryptedMetadata ← slice packet 0 packetMetadataLen
  let nonce ← slice encryptedMetadata 0 nonceLen
  let plain ← decrypt crypto encryptedMetadata
  let metadata ← MieruMetadata.parse clock plain
  let c ← Stateful.get
  let remaining ← slice packet packetMetadataLen packet.length
  let payload ← decodeMieruPacketPayload crypto c metadata nonce remaining
  return ⟨metadata, payload⟩

def authenticationCandidates (users : List MieruUserSecret) (nonce : Bytes) (mandatory : Bool) :
    List MieruUserSecret :=
  users.filter (fun user => checkUserFromHint crypto user.username nonce) ++
    if mandatory then []
    else users.filter fun user => !checkUserFromHint crypto user.username nonce

def scanKeys (clock : Option ℕ) (pattern : Option MieruTrafficPattern) (user : MieruUserSecret)
    (packet : Bytes) : List Bytes → Outcome (Option (MieruSegment × MieruCipher))
  | [] => .ok none
  | key :: keys =>
    match decodeMieruPacketSegment crypto clock packet
        (MieruCipher.new key false user.username pattern) with
    | (.ok segment, cipher) => .ok (some (segment, cipher))
    | (.err _, _) => scanKeys clock pattern user packet keys
    | (.panic, _) => .panic

def scanUsers (clock : Option ℕ) (pattern : Option MieruTrafficPattern) (packet : Bytes) :
    List MieruUserSecret → Stateful KeyCache (MieruSegment × MieruUserSecret × MieruCipher)
  | [] => (Outcome.err "Mieru UDP authentication failed" : Outcome _)
  | user :: users => do
    let keys ← mieruKeysForPassword crypto clock user.hashedPassword
    match ← scanKeys crypto clock pattern user packet keys with
    | some (segment, cipher) => return (segment, user, cipher)
    | none => scanUsers clock pattern packet users

/-- The authentication in `decode_mieru_packet_segment_for_server`. -/
def authenticatePacket (clock : Option ℕ) (users : List MieruUserSecret) (mandatory : Bool)
    (pattern : Option MieruTrafficPattern) (packet : Bytes) :
    Stateful KeyCache (MieruSegment × MieruUserSecret × MieruCipher) := do
  Outcome.ensure (packetMetadataLen ≤ packet.length)
    "Mieru UDP packet is shorter than encrypted metadata"
  let nonce ← slice packet 0 nonceLen
  let candidates := authenticationCandidates crypto users nonce mandatory
  Outcome.ensure (!(candidates.isEmpty && mandatory))
    "Mieru UDP user hint did not match any configured user"
  scanUsers crypto clock pattern packet candidates

def checkReplay (now : Instant) (segment : MieruSegment) (packet : Bytes) :
    Stateful MieruReplayCache Unit :=
  if segment.metadata.protocol = openSessionRequest then
    storeFirst crypto now (packet.take packetMetadataLen)
  else return ()

end

section

variable {crypto : Crypto} {clock : Option ℕ}

theorem decodePayload_ne_panic {c : MieruCipher} {kind : String} {payloadLen : UInt16}
    {nonce remaining : Bytes} :
    decodePayload crypto c kind payloadLen nonce remaining ≠ .panic := by
  unfold decodePayload
  split
  · refine Outcome.bind_ne_panic (Outcome.ensure_ne_panic _ _) fun _ h => ?_
    have hlen : payloadLen.toNat + aeadOverhead ≤ remaining.length := by
      simpa [Outcome.ensure_ok] using h
    refine Outcome.bind_ne_panic (by rw [ne_eq, slice_panic]; omega) fun _ _ => ?_
    refine Outcome.bind_ne_panic decryptWithNonce_ne_panic fun _ _ => ?_
    exact Outcome.bind_ne_panic (by rw [ne_eq, slice_panic]; omega) fun _ _ => nofun
  · nofun

theorem decodeMieruPacketPayload_ne_panic {c : MieruCipher} {metadata : MieruMetadata}
    {nonce remaining : Bytes} :
    decodeMieruPacketPayload crypto c metadata nonce remaining ≠ .panic := by
  have body : ∀ {kind payloadLen suffixLen rest},
      decodeBody crypto c kind payloadLen suffixLen nonce rest ≠ .panic :=
    Outcome.bind_ne_panic decodePayload_ne_panic fun _ _ =>
      Outcome.bind_ne_panic (Outcome.ensure_ne_panic _ _) fun _ _ => nofun
  cases metadata with
  | session m => exact body
  | dataAck m =>
    refine Outcome.bind_ne_panic (Outcome.ensure_ne_panic _ _) fun _ h => ?_
    have hlen : m.prefixLen.toNat ≤ remaining.length := by simpa [Outcome.ensure_ok] using h
    exact Outcome.bind_ne_panic (by rw [ne_eq, slice_panic]; omega) fun _ _ => body

theorem decodeMieruPacketSegment_safe {c : MieruCipher} (hc : c.Stateless) {packet : Bytes} :
    Stateful.Safe (· = c) (decodeMieruPacketSegment crypto clock packet) := by
  refine Stateful.Safe.ensure_bind fun h => ?_
  have hlen : packetMetadataLen ≤ packet.length := by simpa using h
  refine Stateful.Safe.lift_bind (by rw [ne_eq, slice_panic]; omega) fun encrypted henc => ?_
  have henc : encrypted.length = packetMetadataLen := by
    obtain ⟨-, hstop, rfl⟩ := slice_ok.mp henc
    simpa using hstop
  refine Stateful.Safe.lift_bind ?_ fun nonce _ => ?_
  · rw [ne_eq, slice_panic, henc]
    decide
  refine Stateful.Safe.bind (decrypt_safe hc) fun plain => ?_
  refine Stateful.Safe.lift_bind MieruMetadata.parse_ne_panic fun metadata _ => ?_
  refine Stateful.Safe.get_bind fun c _ => ?_
  refine Stateful.Safe.lift_bind (by rw [ne_eq, slice_panic]; omega) fun remaining _ => ?_
  exact Stateful.Safe.lift_bind decodeMieruPacketPayload_ne_panic fun _ _ => Stateful.Safe.pure _

theorem scanKeys_ne_panic {pattern : Option MieruTrafficPattern} {user : MieruUserSecret}
    {packet : Bytes} {keys : List Bytes} :
    scanKeys crypto clock pattern user packet keys ≠ .panic := by
  induction keys with
  | nil => nofun
  | cons key keys ih =>
    have hsafe : (decodeMieruPacketSegment crypto clock packet
        (MieruCipher.new key false user.username pattern)).1 ≠ .panic :=
      (decodeMieruPacketSegment_safe MieruCipher.stateless_new _ rfl).1
    unfold scanKeys
    split
    · nofun
    · exact ih
    · rename_i h
      rw [h] at hsafe
      exact absurd rfl hsafe

theorem scanUsers_safe {pattern : Option MieruTrafficPattern} {packet : Bytes}
    {users : List MieruUserSecret} :
    Stateful.Safe KeyCache.Queued (scanUsers crypto clock pattern packet users) := by
  induction users with
  | nil => exact Stateful.Safe.lift nofun
  | cons user users ih =>
    refine Stateful.Safe.bind mieruKeysForPassword_safe fun keys => ?_
    refine Stateful.Safe.lift_bind scanKeys_ne_panic fun found _ => ?_
    cases found with
    | none => exact ih
    | some p => exact Stateful.Safe.pure _

theorem scanKeys_stateless {pattern : Option MieruTrafficPattern} {user : MieruUserSecret}
    {packet : Bytes} {keys : List Bytes} {segment : MieruSegment} {cipher : MieruCipher}
    (h : scanKeys crypto clock pattern user packet keys = .ok (some (segment, cipher))) :
    cipher.Stateless := by
  induction keys with
  | nil => cases h
  | cons key keys ih =>
    have hsame : (decodeMieruPacketSegment crypto clock packet
        (MieruCipher.new key false user.username pattern)).2 = _ :=
      (decodeMieruPacketSegment_safe MieruCipher.stateless_new _ rfl).2
    unfold scanKeys at h
    split at h
    · rename_i hdecode
      cases h
      rw [hdecode] at hsame
      rw [show cipher = MieruCipher.new key false user.username pattern from hsame]
      exact MieruCipher.stateless_new
    · exact ih h
    · cases h

theorem scanUsers_stateless {pattern : Option MieruTrafficPattern} {packet : Bytes}
    {users : List MieruUserSecret} {cache : KeyCache} {segment : MieruSegment}
    {user : MieruUserSecret} {cipher : MieruCipher}
    (h : (scanUsers crypto clock pattern packet users cache).1 = .ok (segment, user, cipher)) :
    cipher.Stateless := by
  induction users generalizing cache with
  | nil => cases h
  | cons first users ih =>
    obtain ⟨keys, -, h⟩ := Stateful.bind_ok.mp h
    obtain ⟨found, hfound, h⟩ := Stateful.bind_ok.mp h
    cases found with
    | none => exact ih h
    | some p =>
      cases h
      exact scanKeys_stateless hfound

theorem authenticatePacket_stateless {users : List MieruUserSecret} {mandatory : Bool}
    {pattern : Option MieruTrafficPattern} {packet : Bytes} {cache : KeyCache}
    {segment : MieruSegment} {user : MieruUserSecret} {cipher : MieruCipher}
    (h : (authenticatePacket crypto clock users mandatory pattern packet cache).1 =
      .ok (segment, user, cipher)) : cipher.Stateless := by
  obtain ⟨-, -, h⟩ := Stateful.bind_ok.mp h
  obtain ⟨nonce, -, h⟩ := Stateful.bind_ok.mp h
  obtain ⟨-, -, h⟩ := Stateful.bind_ok.mp h
  exact scanUsers_stateless h

theorem authenticatePacket_safe {users : List MieruUserSecret} {mandatory : Bool}
    {pattern : Option MieruTrafficPattern} {packet : Bytes} :
    Stateful.Safe KeyCache.Queued
      (authenticatePacket crypto clock users mandatory pattern packet) := by
  refine Stateful.Safe.ensure_bind fun h => ?_
  have hlen : packetMetadataLen ≤ packet.length := by simpa using h
  refine Stateful.Safe.lift_bind ?_ fun nonce _ => ?_
  · have : nonceLen ≤ packet.length := le_trans (by decide) hlen
    rw [ne_eq, slice_panic]
    omega
  exact Stateful.Safe.ensure_bind fun _ => scanUsers_safe

end

end Aerion.Mieru
