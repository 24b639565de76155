import Aerion.Lib.Segments
import Aerion.Net.Octets
import Aerion.Vmess.Request

/-!
# VMess bodies

The body of a VMess connection (`src/vmess_body.rs`): chunks with a size
field, which is plain, masked or sealed, a payload, which is plain or sealed,
and padding. Reader and writer each draw the masks and the padding lengths
from SHAKE128 streams of their own. The hash functions and the two AEADs are
parameters.
-/

namespace Aerion.Vmess.Body

open Lib Net

def aeadTagLen : ℕ := 16
def maxChunkPlainLen : ℕ := 16 * 1024
def maxPaddingLen : ℕ := 64

/-- An AEAD without associated data; the plaintext is sealed in place and the tag is apart. -/
structure Aead where
  encrypt : (key nonce plaintext : Bytes) → Bytes × Bytes
  decrypt : (key nonce ciphertext tag : Bytes) → Option Bytes
  ciphertext_length : ∀ key nonce plaintext, (encrypt key nonce plaintext).1.length = plaintext.length
  tag_length : ∀ key nonce plaintext, (encrypt key nonce plaintext).2.length = aeadTagLen

structure BodyCrypto where
  sha256 : Bytes → Bytes
  md5 : Bytes → Bytes
  aes128Gcm : Aead
  chaCha20Poly1305 : Aead

/-! ### SHAKE128 -/

def keccakfRoundConstants : List UInt64 :=
  [0x0000000000000001, 0x0000000000008082, 0x800000000000808a, 0x8000000080008000,
   0x000000000000808b, 0x0000000080000001, 0x8000000080008081, 0x8000000000008009,
   0x000000000000008a, 0x0000000000000088, 0x0000000080008009, 0x000000008000000a,
   0x000000008000808b, 0x800000000000008b, 0x8000000000008089, 0x8000000000008003,
   0x8000000000008002, 0x8000000000000080, 0x000000000000800a, 0x800000008000000a,
   0x8000000080008081, 0x8000000000008080, 0x0000000080000001, 0x8000000080008008]

def keccakfRotation : List UInt64 :=
  [1, 3, 6, 10, 15, 21, 28, 36, 45, 55, 2, 14, 27, 41, 56, 8, 25, 43, 62, 18, 39, 61, 20, 44]

def keccakfPermutation : List (Fin 25) :=
  [10, 7, 11, 17, 18, 3, 5, 16, 8, 21, 24, 4, 15, 23, 19, 13, 12, 2, 20, 14, 22, 9, 6, 1]

abbrev Lanes := Vector UInt64 25

/-- `u64::rotate_left`, by less than the width. -/
def rotateLeft (x n : UInt64) : UInt64 := (x <<< n) ||| (x >>> (64 - n))

def keccakRound (state : Lanes) (constant : UInt64) : Lanes :=
  let columns : Vector UInt64 5 := .ofFn fun x =>
    state[x.val] ^^^ state[x.val + 5] ^^^ state[x.val + 10] ^^^ state[x.val + 15] ^^^ state[x.val + 20]
  let d : Vector UInt64 5 := .ofFn fun x => columns[(x.val + 4) % 5] ^^^ rotateLeft columns[(x.val + 1) % 5] 1
  let state : Lanes := .ofFn fun i => state[i.val] ^^^ d[i.val % 5]
  let moved := (keccakfPermutation.zip keccakfRotation).foldl
    (fun (moved : Lanes × UInt64) (step : Fin 25 × UInt64) =>
      (moved.1.set step.1 (rotateLeft moved.2 step.2), moved.1[step.1.val]))
    (state, state[1])
  let rows := moved.1
  let state : Lanes := .ofFn fun i =>
    rows[i.val] ^^^ (~~~rows[5 * (i.val / 5) + (i.val % 5 + 1) % 5] &&&
      rows[5 * (i.val / 5) + (i.val % 5 + 2) % 5])
  state.set 0 (state[0] ^^^ constant)

def keccakf (state : Lanes) : Lanes := keccakfRoundConstants.foldl keccakRound state

structure Shake128 where
  state : Lanes
  absorbPos : ℕ
  squeezePos : ℕ
  finalized : Bool
  deriving DecidableEq

namespace Shake128

def rate : ℕ := 168

def default : Shake128 := ⟨.replicate 25 0, 0, 0, false⟩

def lane (pos : ℕ) : Fin 25 := Fin.ofNat 25 (pos / 8)

def xorByte (s : Shake128) (pos : ℕ) (byte : UInt8) : Shake128 :=
  let shift := UInt64.ofNat (pos % 8 * 8)
  { s with state := s.state.set (lane pos) (s.state[(lane pos).val] ^^^ (byte.toUInt64 <<< shift)) }

def byteAt (s : Shake128) (pos : ℕ) : UInt8 :=
  (s.state[(lane pos).val] >>> UInt64.ofNat (pos % 8 * 8)).toUInt8

def absorbByte (s : Shake128) (byte : UInt8) : Shake128 :=
  let s := s.xorByte s.absorbPos byte
  if s.absorbPos + 1 = rate then { s with state := keccakf s.state, absorbPos := 0 }
  else { s with absorbPos := s.absorbPos + 1 }

/-- `absorb`, before `finalize`. -/
def absorb (s : Shake128) (data : Bytes) : Shake128 := data.foldl absorbByte s

def finalize (s : Shake128) : Shake128 :=
  if s.finalized then s
  else
    let s := (s.xorByte s.absorbPos 0x1f).xorByte (rate - 1) 0x80
    { s with state := keccakf s.state, squeezePos := 0, finalized := true }

def squeezeByte (s : Shake128) : UInt8 × Shake128 :=
  let s := if s.squeezePos = rate then { s with state := keccakf s.state, squeezePos := 0 } else s
  (s.byteAt s.squeezePos, { s with squeezePos := s.squeezePos + 1 })

def nextU16 (s : Shake128) : UInt16 × Shake128 :=
  let high := s.finalize.squeezeByte
  let low := high.2.squeezeByte
  (wordOf [high.1, low.1], low.2)

def nextPaddingLen (s : Shake128) : ℕ × Shake128 :=
  (s.nextU16.1.toNat % maxPaddingLen, s.nextU16.2)

theorem nextPaddingLen_lt (s : Shake128) : s.nextPaddingLen.1 < maxPaddingLen :=
  Nat.mod_lt _ (by decide)

def ofIv (iv : Bytes) : Shake128 := (default.absorb iv).finalize

end Shake128

/-! ### Keys and nonces -/

section

variable (crypto : BodyCrypto)

def hmacWithCustomHash (key data : Bytes) (hash : Bytes → Bytes) : Bytes :=
  let key := if 64 < key.length then hash key else key
  let block := key ++ List.replicate (64 - key.length) 0
  let inner := hash (block.map (0x36 ^^^ ·) ++ data)
  hash (block.map (0x5c ^^^ ·) ++ inner)

/-- `nested_hmac_hash`, on the levels from the last to the first. -/
def nestedHmacHash : List Bytes → Bytes → Bytes
  | [], data => crypto.sha256 data
  | [level], data => hmacWithCustomHash level data crypto.sha256
  | level :: levels, data => hmacWithCustomHash level data (nestedHmacHash levels)

/-- `kdf16` with an empty path. -/
def bodyKdf16 (key : Bytes) (salt : String) : Bytes :=
  (nestedHmacHash crypto [hostBytes salt, hostBytes "VMess AEAD KDF"] key).take 16

def generateChaCha20Poly1305Key (value : Bytes) : Bytes :=
  crypto.md5 value ++ crypto.md5 (crypto.md5 value)

end

def generateChunkNonce (base : Bytes) (counter : UInt16) : Bytes :=
  toBe 2 counter.toNat ++ (base.take 12).drop 2

/-! ### Configurations -/

def chunkStream (options : UInt8) : Bool := options &&& 0x01 != 0
def chunkMasking (options : UInt8) : Bool := options &&& 0x04 != 0
def globalPadding (options : UInt8) : Bool := options &&& 0x08 != 0
def authenticatedLength (options : UInt8) : Bool := options &&& 0x10 != 0

def clearAuthenticatedLength (options : UInt8) : UInt8 := options &&& ~~~0x10

def displaySecurity : SecurityType → String
  | .aes128Gcm => "aes-128-gcm"
  | .chacha20Poly1305 => "chacha20-poly1305"
  | .none => "none"
  | .zero => "zero"

/-- What `BodyConfig::new` lets through. -/
structure BodyConfig where
  security : SecurityType
  options : UInt8
  payloadKey : Bytes
  payloadIv : Bytes
  lengthKey : Bytes
  lengthIv : Bytes
  normalized : security ≠ .zero
  sealedLength : authenticatedLength options = true → security ≠ .none
  chunked : chunkMasking options = true ∨ authenticatedLength options = true ∨ security ≠ .none →
    chunkStream options = true
  masked : globalPadding options = true → chunkMasking options = true

theorem authenticatedLength_clear (options : UInt8) :
    authenticatedLength (clearAuthenticatedLength options) = false := by
  unfold authenticatedLength clearAuthenticatedLength
  rw [UInt8.and_assoc, show (~~~0x10 : UInt8) &&& 0x10 = 0 from rfl, UInt8.and_zero]
  rfl

/-- `BodyConfig::new` on a normalized security and options that fit it. -/
def BodyConfig.check (security : SecurityType) (options : UInt8)
    (payloadKey payloadIv lengthKey lengthIv : Bytes) (hnormalized : security ≠ .zero)
    (hlength : authenticatedLength options = true → security ≠ .none) : Outcome BodyConfig :=
  if options &&& ~~~supportedOptionBits ≠ 0 then
    .err ("unsupported VMess request option bits: 0x" ++ hexByte (options &&& ~~~supportedOptionBits))
  else if h₁ : chunkStream options = false ∧ (chunkMasking options = true ∨ globalPadding options = true ∨
      authenticatedLength options = true) then
    .err "VMess non-chunked body cannot enable chunk masking, global padding, or authenticated length"
  else if h₂ : chunkStream options = false ∧ security ≠ .none then
    .err ("encrypted VMess security " ++ displaySecurity security ++ " requires chunk stream")
  else if h₃ : globalPadding options = true ∧ chunkMasking options = false then
    .err "VMess global padding requires chunk masking"
  else if chunkMasking options = true ∧ chunkStream options = false then
    .err "VMess chunk masking requires chunk stream"
  else if authenticatedLength options = true ∧ chunkStream options = false then
    .err "VMess authenticated length requires chunk stream"
  else
    .ok ⟨security, options, payloadKey, payloadIv, lengthKey, lengthIv, hnormalized, hlength, by
      intro h
      by_contra hchunk
      rw [Bool.not_eq_true] at hchunk
      rcases h with h | h | h
      · exact h₁ ⟨hchunk, .inl h⟩
      · exact h₁ ⟨hchunk, .inr (.inr h)⟩
      · exact h₂ ⟨hchunk, h⟩, by
      intro h
      by_contra hmask
      exact h₃ ⟨h, by rwa [Bool.not_eq_true] at hmask⟩⟩

theorem normalized_ne_zero (security : SecurityType) : security.normalized ≠ .zero := by
  cases security <;> nofun

def BodyConfig.new (security : SecurityType) (options : UInt8)
    (payloadKey payloadIv lengthKey lengthIv : Bytes) : Outcome BodyConfig :=
  if h : security.normalized = .none then
    BodyConfig.check security.normalized (clearAuthenticatedLength options) payloadKey payloadIv lengthKey
      lengthIv (normalized_ne_zero security) fun hauth => by
        rw [authenticatedLength_clear] at hauth
        cases hauth
  else
    BodyConfig.check security.normalized options payloadKey payloadIv lengthKey lengthIv
      (normalized_ne_zero security) fun _ => h

def BodyConfig.newRequest (security : SecurityType) (options : UInt8) (key iv : Bytes) : Outcome BodyConfig :=
  BodyConfig.new security options key iv key iv

def responseBodyKey (crypto : BodyCrypto) (requestBodyKey : Bytes) : Bytes :=
  (crypto.sha256 requestBodyKey).take 16

def responseBodyIv (crypto : BodyCrypto) (requestBodyIv : Bytes) : Bytes :=
  (crypto.sha256 requestBodyIv).take 16

def BodyConfig.newResponse (crypto : BodyCrypto) (security : SecurityType) (options : UInt8)
    (requestKey requestIv : Bytes) : Outcome BodyConfig :=
  BodyConfig.new security options (responseBodyKey crypto requestKey) (responseBodyIv crypto requestIv)
    requestKey requestIv

def BodyConfig.rawMode (c : BodyConfig) : Bool := c.security = .none && !chunkStream c.options

/-! ### Ciphers -/

inductive BodyCipher where
  | none
  | aes (key : Bytes)
  | chaCha (key : Bytes)

namespace BodyCipher

variable (crypto : BodyCrypto)

/-- The security of a configuration is normalized, so `zero` does not occur. -/
def new (security : SecurityType) (key : Bytes) : BodyCipher :=
  match security with
  | .none | .zero => .none
  | .aes128Gcm => .aes key
  | .chacha20Poly1305 => .chaCha (generateChaCha20Poly1305Key crypto key)

def aead : BodyCipher → Option (Aead × Bytes)
  | .none => Option.none
  | .aes key => some (crypto.aes128Gcm, key)
  | .chaCha key => some (crypto.chaCha20Poly1305, key)

def encryptDetached (c : BodyCipher) (nonce plaintext : Bytes) : Bytes × Option Bytes :=
  match c.aead crypto with
  | Option.none => (plaintext, Option.none)
  | some (aead, key) => ((aead.encrypt key nonce plaintext).1, some (aead.encrypt key nonce plaintext).2)

def decryptDetached (c : BodyCipher) (nonce ciphertext tag : Bytes) : Outcome Bytes :=
  match c.aead crypto with
  | Option.none => .ok ciphertext
  | some (aead, key) => .need (aead.decrypt key nonce ciphertext tag) "decrypt VMess body"

/-- `decrypt_in_place`: the tag is the end of the buffer. -/
def decryptInPlace (c : BodyCipher) (nonce payload : Bytes) : Outcome Bytes :=
  match c.aead crypto with
  | Option.none => .ok payload
  | some (aead, key) =>
    let pos := payload.length - aeadTagLen
    if aeadTagLen ≤ payload.length then
      .need (aead.decrypt key nonce (payload.take pos) (payload.drop pos)) "decrypt VMess body"
    else .err "decrypt VMess body"

end BodyCipher

/-! ### Chunk states -/

structure ChunkState where
  config : BodyConfig
  sizeShake : Option Shake128
  paddingShake : Option Shake128
  paddingFromSizeShake : Bool
  sizeCounter : UInt16
  payloadCounter : UInt16
  payloadCipher : BodyCipher
  lengthCipher : Option BodyCipher

namespace ChunkState

variable (crypto : BodyCrypto)

def new (config : BodyConfig) : ChunkState :=
  let lengths := chunkStream config.options && authenticatedLength config.options
  let masks := chunkStream config.options && !authenticatedLength config.options &&
    chunkMasking config.options
  { config
    sizeShake := if masks then some (.ofIv config.payloadIv) else none
    paddingShake := if lengths && globalPadding config.options then some (.ofIv config.payloadIv) else none
    paddingFromSizeShake := masks && globalPadding config.options
    sizeCounter := 0
    payloadCounter := 0
    payloadCipher := .new crypto config.security config.payloadKey
    lengthCipher := if authenticatedLength config.options then
      some (.new crypto config.security (bodyKdf16 crypto config.lengthKey "auth_len")) else none }

def rawMode (s : ChunkState) : Bool := s.config.rawMode

def sizeFieldLen (s : ChunkState) : ℕ :=
  if authenticatedLength s.config.options then 2 + aeadTagLen else 2

def payloadOverhead (s : ChunkState) : ℕ :=
  match s.config.security.normalized with
  | .none | .zero => 0
  | .aes128Gcm | .chacha20Poly1305 => aeadTagLen

def nextPaddingLen : Stateful ChunkState ℕ := fun s =>
  if s.paddingFromSizeShake then
    (.ok ((s.sizeShake.map (·.nextPaddingLen.1)).getD 0),
      { s with sizeShake := s.sizeShake.map (·.nextPaddingLen.2) })
  else
    (.ok ((s.paddingShake.map (·.nextPaddingLen.1)).getD 0),
      { s with paddingShake := s.paddingShake.map (·.nextPaddingLen.2) })

def nextLengthNonce : Stateful ChunkState Bytes := fun s =>
  (.ok (generateChunkNonce s.config.lengthIv s.sizeCounter), { s with sizeCounter := s.sizeCounter + 1 })

def nextMask : Stateful ChunkState UInt16 := fun s =>
  (.ok ((s.sizeShake.map (·.nextU16.1)).getD 0), { s with sizeShake := s.sizeShake.map (·.nextU16.2) })

def decodeSize (encoded : Bytes) : Stateful ChunkState UInt16 := do
  let s ← Stateful.get
  Outcome.ensure (encoded.length = s.sizeFieldLen)
    ("invalid VMess encoded chunk size length: " ++ toString encoded.length)
  if authenticatedLength s.config.options then
    let nonce ← nextLengthNonce
    let cipher ← Outcome.need s.lengthCipher "VMess length cipher is disabled"
    let plain ← cipher.decryptDetached crypto nonce (encoded.take 2) (encoded.drop 2)
    return wordOf plain + 16
  else
    let mask ← nextMask
    return mask ^^^ wordOf encoded

def encodeSize (size : UInt16) : Stateful ChunkState Bytes := do
  let s ← Stateful.get
  if authenticatedLength s.config.options then
    let nonce ← nextLengthNonce
    let cipher ← Outcome.need s.lengthCipher "VMess length cipher is disabled"
    let field := cipher.encryptDetached crypto nonce (toBe 2 (size - 16).toNat)
    let tag ← Outcome.need field.2 "VMess authenticated length requires AEAD"
    return field.1 ++ tag
  else
    let mask ← nextMask
    return toBe 2 (mask ^^^ size).toNat

def nextPayloadNonce : Stateful ChunkState Bytes := fun s =>
  (.ok (generateChunkNonce s.config.payloadIv s.payloadCounter),
    { s with payloadCounter := s.payloadCounter + 1 })

def decryptPayload (payload : Bytes) : Stateful ChunkState Bytes := do
  let nonce ← nextPayloadNonce
  let s ← Stateful.get
  s.payloadCipher.decryptInPlace crypto nonce payload

def encryptPayload (plaintext : Bytes) : Stateful ChunkState (Bytes × Option Bytes) := do
  let nonce ← nextPayloadNonce
  let s ← Stateful.get
  return s.payloadCipher.encryptDetached crypto nonce plaintext

end ChunkState

/-! ### The reader -/

structure BodyReader where
  inner : Segments
  state : ChunkState
  pending : Bytes
  pendingPos : ℕ
  finished : Bool

namespace BodyReader

variable (crypto : BodyCrypto)

def new (inner : Segments) (config : BodyConfig) : BodyReader :=
  ⟨inner, .new crypto config, [], 0, false⟩

def onState {α : Type} (x : Stateful ChunkState α) : Stateful BodyReader α :=
  Stateful.zoom BodyReader.state (fun state r => { r with state }) x

def readExact (n : ℕ) (message : String) : Stateful BodyReader Bytes := fun r =>
  (.need (r.inner.readExact n).1 message, { r with inner := (r.inner.readExact n).2 })

def put (f : BodyReader → BodyReader) : Stateful BodyReader Unit := fun r => (.ok (), f r)

def clearPending (r : BodyReader) : BodyReader := { r with pending := [], pendingPos := 0 }

/-- The size of the next chunk without its padding, and the length of the padding. -/
def readSize : Stateful BodyReader (ℕ × ℕ) := do
  let r ← Stateful.get
  let sizeBytes ← readExact r.state.sizeFieldLen "read VMess chunk size"
  let early ← if r.state.paddingFromSizeShake then onState ChunkState.nextPaddingLen else pure 0
  let encodedSize ← onState (ChunkState.decodeSize crypto sizeBytes)
  let paddingLen ← if r.state.paddingFromSizeShake then pure early else onState ChunkState.nextPaddingLen
  Outcome.ensure (paddingLen ≤ encodedSize.toNat) ("invalid VMess chunk size " ++
    toString encodedSize.toNat ++ " smaller than padding " ++ toString paddingLen)
  let payloadLen := encodedSize.toNat - paddingLen
  Outcome.ensure (r.state.payloadOverhead ≤ payloadLen) ("invalid VMess chunk payload size " ++
    toString payloadLen ++ " below overhead " ++ toString r.state.payloadOverhead)
  return (payloadLen, paddingLen)

def readSome (n : ℕ) (message : String) : Stateful BodyReader Bytes :=
  if 0 < n then readExact n message else pure []

def accept (payloadLen : ℕ) (plaintext : Bytes) (r : BodyReader) : BodyReader :=
  if payloadLen = r.state.payloadOverhead ∧ plaintext = [] then { r.clearPending with finished := true }
  else { r with pending := plaintext, pendingPos := 0 }

def readNextChunk : Stateful BodyReader Unit := do
  let size ← readSize crypto
  -- The buffer is taken out until the payload is verified.
  put fun r => { r with pending := [] }
  let payload ← readSome size.1 "read VMess chunk payload"
  let _ ← readSome size.2 "read VMess chunk padding"
  let plaintext ← onState (ChunkState.decryptPayload crypto payload)
  put (accept size.1 plaintext)

/-- Hands out pending bytes, at most `cap`. -/
def deliver (cap : ℕ) : Stateful BodyReader Bytes := fun r =>
  let bytes := (r.pending.drop r.pendingPos).take cap
  let r := { r with pendingPos := r.pendingPos + bytes.length }
  (.ok bytes, if r.pending.length ≤ r.pendingPos then r.clearPending else r)

/-- `read_plain` into a buffer of `cap` bytes; the bytes are what stands in the buffer. -/
def readPlain (cap : ℕ) : Stateful BodyReader Bytes := do
  let r ← Stateful.get
  if cap = 0 then return []
  else if r.state.rawMode then
    put fun r => { r with inner := (r.inner.read cap).2 }
    return (r.inner.read cap).1
  else if r.pending.length ≤ r.pendingPos then
    put clearPending
    if r.finished then return []
    else
      readNextChunk crypto
      let r ← Stateful.get
      if r.pending = [] then return []
      else deliver cap
  else deliver cap

def takePacket : Stateful BodyReader (Option Bytes) := fun r =>
  if r.finished then (.ok none, r) else (.ok (some r.pending), { r with pending := [] })

def readPacket : Stateful BodyReader (Option Bytes) := do
  let r ← Stateful.get
  Outcome.ensure (!r.state.rawMode) "VMess packet transfer requires chunk stream"
  Outcome.ensure (r.pending.length ≤ r.pendingPos)
    "VMess packet transfer cannot continue after partial stream reads"
  if r.finished then return none
  else
    put clearPending
    readNextChunk crypto
    takePacket

end BodyReader

/-! ### The writer -/

abbrev Entropy := ℕ → UInt8

/-- A chunk that was written, under the payload counter of the time. -/
structure SentChunk where
  counter : UInt16
  plaintext : Bytes
  deriving DecidableEq

/-- A writer with the bytes it has written. `sent` is the history of its chunks. -/
structure BodyWriter where
  inner : Bytes
  state : ChunkState
  entropy : Entropy
  finished : Bool
  sent : List SentChunk

namespace BodyWriter

variable (crypto : BodyCrypto)

def new (config : BodyConfig) (entropy : Entropy) : BodyWriter :=
  ⟨[], .new crypto config, entropy, false, []⟩

def onState {α : Type} (x : Stateful ChunkState α) : Stateful BodyWriter α :=
  Stateful.zoom BodyWriter.state (fun state w => { w with state }) x

def put (f : BodyWriter → BodyWriter) : Stateful BodyWriter Unit := fun w => (.ok (), f w)

def fill (n : ℕ) : Stateful BodyWriter Bytes := fun w =>
  (.ok ((List.range n).map w.entropy), { w with entropy := fun i => w.entropy (n + i) })

def writeAll (bytes : Bytes) : Stateful BodyWriter Unit := put fun w => { w with inner := w.inner ++ bytes }

def writeChunk (plaintext : Bytes) : Stateful BodyWriter Unit := do
  let w ← Stateful.get
  let paddingLen ← onState ChunkState.nextPaddingLen
  let totalLen := plaintext.length + w.state.payloadOverhead + paddingLen
  Outcome.ensure (totalLen ≤ 65535) ("VMess chunk too large: " ++ toString totalLen)
  put fun w => { w with sent := w.sent ++ [⟨w.state.payloadCounter, plaintext⟩] }
  if w.state.config.security = .none then
    let _ ← onState ChunkState.nextPayloadNonce
    let size ← onState (ChunkState.encodeSize crypto (UInt16.ofNat totalLen))
    let padding ← fill paddingLen
    writeAll (size ++ plaintext ++ padding)
  else
    let payload ← onState (ChunkState.encryptPayload crypto plaintext)
    let size ← onState (ChunkState.encodeSize crypto (UInt16.ofNat totalLen))
    let padding ← fill paddingLen
    writeAll (size ++ payload.1 ++ payload.2.getD [] ++ padding)

def writeChunks : List Bytes → Stateful BodyWriter Unit
  | [] => pure ()
  | plaintext :: chunks => do
    writeChunk crypto plaintext
    writeChunks chunks

def writeAllPlain (data : Bytes) : Stateful BodyWriter Unit := do
  if data = [] then return
  else
    let w ← Stateful.get
    Outcome.ensure (!w.finished) "VMess body writer already finished"
    if w.state.rawMode then writeAll data
    else writeChunks crypto (chunks maxChunkPlainLen data)

def writePacketPlain (data : Bytes) : Stateful BodyWriter Unit := do
  let w ← Stateful.get
  Outcome.ensure (!w.finished) "VMess body writer already finished"
  Outcome.ensure (!w.state.rawMode) "VMess packet transfer requires chunk stream"
  writeChunk crypto data

def finish : Stateful BodyWriter Unit := do
  let w ← Stateful.get
  if w.finished then return
  else
    if w.state.rawMode then pure () else writeChunk crypto []
    put fun w => { w with finished := true }

end BodyWriter

end Aerion.Vmess.Body
