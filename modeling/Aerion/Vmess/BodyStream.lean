import Aerion.Lib.Calls
import Aerion.Lib.Drain
import Aerion.Vmess.Body

/-!
# A VMess body is read back

What a chunk does to the chunk state does not depend on its plaintext, so the
state after a number of chunks is the same at the writer and at the reader:
`advance`, iterated. `Wire` says what chunks look like on the wire from a
state on; the writer produces it and the reader takes it apart.
-/

namespace Aerion.Vmess.Body

open Lib Net

/-! ### One chunk and the chunk state -/

namespace BodyCipher

variable {crypto : BodyCrypto} {c : BodyCipher}

/-- What the cipher makes of a plaintext: the ciphertext, and the tag if there is one. -/
def sealedBytes (crypto : BodyCrypto) (c : BodyCipher) (nonce plaintext : Bytes) : Bytes :=
  (c.encryptDetached crypto nonce plaintext).1 ++
    (c.encryptDetached crypto nonce plaintext).2.getD []

/-- The cipher opens what it has sealed. -/
def Opens (crypto : BodyCrypto) (c : BodyCipher) (nonce plaintext : Bytes) : Prop :=
  c.decryptDetached crypto nonce (c.encryptDetached crypto nonce plaintext).1
    ((c.encryptDetached crypto nonce plaintext).2.getD []) = .ok plaintext

def overhead (crypto : BodyCrypto) (c : BodyCipher) : ℕ :=
  if (c.aead crypto).isSome then aeadTagLen else 0

theorem encryptDetached_length (nonce plaintext : Bytes) :
    (c.encryptDetached crypto nonce plaintext).1.length = plaintext.length := by
  unfold encryptDetached
  cases c.aead crypto with
  | none => rfl
  | some aead => exact aead.1.ciphertext_length _ _ _

theorem sealedBytes_length (nonce plaintext : Bytes) :
    (c.sealedBytes crypto nonce plaintext).length = plaintext.length + c.overhead crypto := by
  rw [sealedBytes, List.length_append, encryptDetached_length]
  unfold encryptDetached overhead
  cases c.aead crypto with
  | none => rfl
  | some aead => simp [aead.1.tag_length]

theorem decryptInPlace_sealedBytes {nonce plaintext : Bytes} (h : c.Opens crypto nonce plaintext) :
    c.decryptInPlace crypto nonce (c.sealedBytes crypto nonce plaintext) = .ok plaintext := by
  have hlength : (c.sealedBytes crypto nonce plaintext).length = _ :=
    sealedBytes_length nonce plaintext
  unfold Opens decryptDetached at h
  unfold decryptInPlace
  unfold sealedBytes encryptDetached overhead at *
  cases haead : c.aead crypto with
  | none => simp
  | some aead =>
    rw [haead] at h hlength
    dsimp only [Option.getD_some, Option.isSome_some] at h hlength ⊢
    rw [if_pos rfl] at hlength
    rw [if_pos (by omega), hlength, Nat.add_sub_cancel]
    rw [← aead.1.ciphertext_length aead.2 nonce plaintext, List.take_left, List.drop_left]
    exact h

end BodyCipher

namespace ChunkState

variable {crypto : BodyCrypto} {s : ChunkState}

structure Sound (crypto : BodyCrypto) (s : ChunkState) : Prop where
  payload : s.payloadCipher = .new crypto s.config.security s.config.payloadKey
  length : s.lengthCipher = if authenticatedLength s.config.options then
    some (.new crypto s.config.security (bodyKdf16 crypto s.config.lengthKey "auth_len")) else none

theorem sound_new (config : BodyConfig) : (new crypto config).Sound crypto := ⟨rfl, rfl⟩

def paddingLen (s : ChunkState) : ℕ :=
  if s.paddingFromSizeShake then (s.sizeShake.map (·.nextPaddingLen.1)).getD 0
  else (s.paddingShake.map (·.nextPaddingLen.1)).getD 0

def padded (s : ChunkState) : ChunkState := (nextPaddingLen s).2

def sized (s : ChunkState) : ChunkState :=
  if authenticatedLength s.config.options then (nextLengthNonce s).2 else (nextMask s).2

def counted (s : ChunkState) : ChunkState := { s with payloadCounter := s.payloadCounter + 1 }

def advance (s : ChunkState) : ChunkState := s.padded.sized.counted

def payloadNonce (s : ChunkState) : Bytes := generateChunkNonce s.config.payloadIv s.payloadCounter

theorem nextPayloadNonce_run (s : ChunkState) :
    nextPayloadNonce s = (.ok s.payloadNonce, s.counted) := rfl

theorem nextPaddingLen_run (s : ChunkState) : nextPaddingLen s = (.ok s.paddingLen, s.padded) := by
  unfold padded paddingLen nextPaddingLen
  split <;> rfl

theorem paddingLen_lt (s : ChunkState) : s.paddingLen < maxPaddingLen := by
  have hdraw : ∀ shake : Option Shake128,
      (shake.map (·.nextPaddingLen.1)).getD 0 < maxPaddingLen := by
    intro shake
    cases shake with
    | none => decide
    | some shake => exact shake.nextPaddingLen_lt
  unfold paddingLen
  split
  · exact hdraw s.sizeShake
  · exact hdraw s.paddingShake

theorem padded_eq (s : ChunkState) :
    ∃ a b, s.padded = { s with sizeShake := a, paddingShake := b } ∧
      (s.paddingFromSizeShake = false → a = s.sizeShake) := by
  unfold padded nextPaddingLen
  split
  · rename_i h
    exact ⟨_, _, rfl, fun hfalse => absurd (h.symm.trans hfalse) nofun⟩
  · exact ⟨_, _, rfl, fun _ => rfl⟩

theorem sized_eq (s : ChunkState) :
    ∃ a n, s.sized = { s with sizeShake := a, sizeCounter := n } := by
  unfold sized
  split
  · exact ⟨_, _, rfl⟩
  · exact ⟨_, _, rfl⟩

@[simp] theorem padded_config (s : ChunkState) : s.padded.config = s.config := by
  obtain ⟨a, b, h, -⟩ := s.padded_eq
  rw [h]

theorem padded_payloadCipher (s : ChunkState) : s.padded.payloadCipher = s.payloadCipher := by
  obtain ⟨a, b, h, -⟩ := s.padded_eq
  rw [h]

@[simp] theorem padded_payloadCounter (s : ChunkState) :
    s.padded.payloadCounter = s.payloadCounter := by
  obtain ⟨a, b, h, -⟩ := s.padded_eq
  rw [h]

theorem padded_payloadNonce (s : ChunkState) : s.padded.payloadNonce = s.payloadNonce := by
  obtain ⟨a, b, h, -⟩ := s.padded_eq
  rw [h]
  rfl

theorem encryptPayload_run (crypto : BodyCrypto) (s : ChunkState) (plaintext : Bytes) :
    encryptPayload crypto plaintext s =
      (.ok (s.payloadCipher.encryptDetached crypto s.payloadNonce plaintext), s.counted) := rfl

theorem sized_payloadCipher (s : ChunkState) : s.sized.payloadCipher = s.payloadCipher := by
  obtain ⟨a, n, h⟩ := s.sized_eq
  rw [h]

theorem sized_payloadNonce (s : ChunkState) : s.sized.payloadNonce = s.payloadNonce := by
  obtain ⟨a, n, h⟩ := s.sized_eq
  rw [h]
  rfl

theorem decryptPayload_run (crypto : BodyCrypto) (s : ChunkState) (payload : Bytes) :
    decryptPayload crypto payload s =
      (s.payloadCipher.decryptInPlace crypto s.payloadNonce payload, s.counted) := by
  unfold decryptPayload
  refine (Stateful.run_bind (nextPayloadNonce_run s)).trans ?_
  rfl

theorem advance_eq (s : ChunkState) : ∃ a b n,
    s.advance = { s with sizeShake := a, paddingShake := b, sizeCounter := n,
                         payloadCounter := s.payloadCounter + 1 } := by
  obtain ⟨a, b, hpadded, -⟩ := s.padded_eq
  obtain ⟨a', n, hsized⟩ := s.padded.sized_eq
  refine ⟨a', b, n, ?_⟩
  unfold advance
  rw [hsized, hpadded]
  rfl

@[simp] theorem advance_config (s : ChunkState) : s.advance.config = s.config := by
  obtain ⟨a, b, n, h⟩ := s.advance_eq
  rw [h]

@[simp] theorem advance_payloadCounter (s : ChunkState) :
    s.advance.payloadCounter = s.payloadCounter + 1 := by
  obtain ⟨a, b, n, h⟩ := s.advance_eq
  rw [h]

@[simp] theorem advance_payloadOverhead (s : ChunkState) :
    s.advance.payloadOverhead = s.payloadOverhead := by
  unfold payloadOverhead
  rw [advance_config]

theorem Sound.padded (hs : s.Sound crypto) : s.padded.Sound crypto := by
  obtain ⟨a, b, h, -⟩ := s.padded_eq
  rw [h]
  exact ⟨hs.payload, hs.length⟩

theorem Sound.counted (hs : s.Sound crypto) : s.counted.Sound crypto := ⟨hs.payload, hs.length⟩

theorem Sound.advance (hs : s.Sound crypto) : s.advance.Sound crypto := by
  obtain ⟨a, b, n, h⟩ := s.advance_eq
  rw [h]
  exact ⟨hs.payload, hs.length⟩

theorem aead_new (crypto : BodyCrypto) (key : Bytes) {security : SecurityType}
    (hzero : security ≠ .zero) :
    ((BodyCipher.new crypto security key).aead crypto).isSome ↔ security ≠ .none := by
  cases security with
  | zero => exact absurd rfl hzero
  | none => simp [BodyCipher.new, BodyCipher.aead]
  | aes128Gcm => simp [BodyCipher.new, BodyCipher.aead]
  | chacha20Poly1305 => simp [BodyCipher.new, BodyCipher.aead]

theorem overhead_new {security : SecurityType} {key : Bytes} (hzero : security ≠ .zero) :
    (BodyCipher.new crypto security key).overhead crypto =
      if security = .none then 0 else aeadTagLen := by
  unfold BodyCipher.overhead
  by_cases h : security = .none
  · rw [if_pos h, if_neg fun hsome => (aead_new crypto key hzero).mp hsome h]
  · rw [if_neg h, if_pos ((aead_new crypto key hzero).mpr h)]

theorem Sound.lengthCipher (hs : s.Sound crypto)
    (hauth : authenticatedLength s.config.options = true) :
    s.lengthCipher = some (.new crypto s.config.security
      (bodyKdf16 crypto s.config.lengthKey "auth_len")) := by
  rw [hs.length, if_pos hauth]

theorem payloadOverhead_eq
    (h : s.payloadCipher = .new crypto s.config.security s.config.payloadKey) :
    s.payloadOverhead = s.payloadCipher.overhead crypto := by
  rw [h, overhead_new s.config.normalized]
  unfold ChunkState.payloadOverhead
  have hzero := s.config.normalized
  cases hsecurity : s.config.security with
  | zero => exact absurd hsecurity hzero
  | none => rfl
  | aes128Gcm => rfl
  | chacha20Poly1305 => rfl

/-! ### Size fields -/

def sizeField (crypto : BodyCrypto) (s : ChunkState) (size : UInt16) : Bytes :=
  if authenticatedLength s.config.options then
    (BodyCipher.new crypto s.config.security
      (bodyKdf16 crypto s.config.lengthKey "auth_len")).sealedBytes
      crypto (generateChunkNonce s.config.lengthIv s.sizeCounter) (toBe 2 (size - 16).toNat)
  else toBe 2 ((s.sizeShake.map (·.nextU16.1)).getD 0 ^^^ size).toNat

/-- The length cipher opens the size fields it has sealed. -/
def LengthOpens (crypto : BodyCrypto) (s : ChunkState) : Prop :=
  authenticatedLength s.config.options = true → ∀ size : UInt16,
    (BodyCipher.new crypto s.config.security (bodyKdf16 crypto s.config.lengthKey "auth_len")).Opens
      crypto (generateChunkNonce s.config.lengthIv s.sizeCounter) (toBe 2 size.toNat)

theorem lengthOpens_padded : s.padded.LengthOpens crypto ↔ s.LengthOpens crypto := by
  obtain ⟨a, b, h, -⟩ := s.padded_eq
  rw [h]
  rfl

theorem sizeField_length (size : UInt16) : (s.sizeField crypto size).length = s.sizeFieldLen := by
  unfold sizeField sizeFieldLen
  split
  · rename_i hauth
    rw [BodyCipher.sealedBytes_length, overhead_new s.config.normalized,
      if_neg (s.config.sealedLength hauth), toBe_length]
  · exact toBe_length 2 _

theorem encodeSize_run (hs : s.Sound crypto) (size : UInt16) :
    encodeSize crypto size s = (.ok (s.sizeField crypto size), s.sized) := by
  unfold encodeSize sizeField sized
  refine (Stateful.run_bind rfl).trans ?_
  by_cases hauth : authenticatedLength s.config.options = true
  · simp only [hauth, if_true]
    refine (Stateful.run_bind rfl).trans ?_
    refine (Stateful.run_lift_bind (Outcome.need_ok.mpr (hs.lengthCipher hauth)) _).trans ?_
    have hsome := (aead_new crypto (bodyKdf16 crypto s.config.lengthKey "auth_len")
      s.config.normalized).mpr (s.config.sealedLength hauth)
    obtain ⟨aead, haead⟩ := Option.isSome_iff_exists.mp hsome
    unfold BodyCipher.sealedBytes BodyCipher.encryptDetached
    rw [haead]
    rfl
  · simp only [hauth]
    rfl

theorem decodeSize_run (hs : s.Sound crypto) (hopens : s.LengthOpens crypto) (size : UInt16) :
    decodeSize crypto (s.sizeField crypto size) s = (.ok size, s.sized) := by
  have hfield : (s.sizeField crypto size).length = s.sizeFieldLen := sizeField_length size
  unfold decodeSize sized
  refine (Stateful.run_bind rfl).trans ?_
  rw [Outcome.ensure_pos (decide_eq_true hfield)]
  refine (Stateful.run_bind rfl).trans ?_
  unfold sizeField
  by_cases hauth : authenticatedLength s.config.options = true
  · simp only [hauth, if_true]
    refine (Stateful.run_bind rfl).trans ?_
    refine (Stateful.run_lift_bind (Outcome.need_ok.mpr (hs.lengthCipher hauth)) _).trans ?_
    generalize hcipher : BodyCipher.new crypto s.config.security
      (bodyKdf16 crypto s.config.lengthKey "auth_len") = cipher
    have hopen := hopens hauth (size - 16)
    rw [hcipher] at hopen
    have hlength := @BodyCipher.encryptDetached_length crypto cipher
      (generateChunkNonce s.config.lengthIv s.sizeCounter) (toBe 2 (size - 16).toNat)
    rw [toBe_length] at hlength
    unfold BodyCipher.sealedBytes
    rw [List.take_left' hlength, List.drop_left' hlength, hopen]
    refine (Stateful.run_bind rfl).trans ?_
    rw [wordOf_toBe, UInt16.sub_add_cancel]
    rfl
  · simp only [hauth]
    refine (Stateful.run_bind rfl).trans ?_
    show (Outcome.ok (_ ^^^ wordOf (toBe 2 _)), _) = _
    rw [wordOf_toBe, ← UInt16.xor_assoc, UInt16.xor_self, UInt16.zero_xor]
    rfl

theorem sized_padded (h : s.paddingFromSizeShake = false) :
    nextPaddingLen s.sized = (.ok s.paddingLen, s.padded.sized) ∧
      s.padded.sizeFieldLen = s.sizeFieldLen ∧
      ∀ size, s.padded.sizeField crypto size = s.sizeField crypto size := by
  have hpadded : s.padded = { s with paddingShake := s.paddingShake.map (·.nextPaddingLen.2) } := by
    unfold padded nextPaddingLen
    rw [h]
    rfl
  refine ⟨?_, ?_, fun size => ?_⟩
  · rw [nextPaddingLen_run]
    unfold paddingLen padded nextPaddingLen sized
    by_cases hauth : authenticatedLength s.config.options = true
    · simp [h, hauth, nextLengthNonce]
    · simp [h, hauth, nextMask]
  · rw [hpadded]
    rfl
  · rw [hpadded]
    rfl

theorem sized_counted (s : ChunkState) : s.counted.sized = s.sized.counted := by
  unfold sized counted
  by_cases hauth : authenticatedLength s.config.options = true
  · simp [nextLengthNonce, hauth]
  · simp [nextMask, hauth]

theorem Sound.iterate (hs : s.Sound crypto) (n : ℕ) : (ChunkState.advance^[n] s).Sound crypto :=
  Function.Iterate.rec _ hs (fun _ => Sound.advance) n

theorem iterate_config (s : ChunkState) (n : ℕ) : (advance^[n] s).config = s.config :=
  Function.Iterate.rec (fun s' : ChunkState => s'.config = s.config) rfl
    (fun s' h => s'.advance_config.trans h) n

theorem iterate_rawMode (s : ChunkState) (n : ℕ) : (advance^[n] s).rawMode = s.rawMode := by
  unfold rawMode
  rw [iterate_config]

/-- The payload cipher opens what it has sealed as the next chunk. -/
def PayloadOpens (crypto : BodyCrypto) (s : ChunkState) (plaintext : Bytes) : Prop :=
  s.payloadCipher.Opens crypto s.payloadNonce plaintext

def payloadBytes (crypto : BodyCrypto) (s : ChunkState) (plaintext : Bytes) : Bytes :=
  s.payloadCipher.sealedBytes crypto s.payloadNonce plaintext

def totalLen (s : ChunkState) (plaintext : Bytes) : ℕ :=
  plaintext.length + s.payloadOverhead + s.paddingLen

def chunkBytes (crypto : BodyCrypto) (s : ChunkState) (plaintext padding : Bytes) : Bytes :=
  s.padded.sizeField crypto (UInt16.ofNat (s.totalLen plaintext)) ++
    (s.payloadBytes crypto plaintext ++ padding)

end ChunkState

/-! ### The writer -/

namespace BodyWriter

variable {crypto : BodyCrypto} {w : BodyWriter}

theorem onState_run {α : Type} {x : Stateful ChunkState α} {result : Outcome α} {state : ChunkState}
    (h : x w.state = (result, state)) : onState x w = (result, { w with state }) := by
  unfold onState Stateful.zoom
  rw [h]

theorem writeChunk_run (hs : w.state.Sound crypto) {plaintext : Bytes}
    (hfits : w.state.totalLen plaintext ≤ 65535) :
    ∃ padding entropy, padding.length = w.state.paddingLen ∧
      writeChunk crypto plaintext w = (.ok (), { w with
        inner := w.inner ++ w.state.chunkBytes crypto plaintext padding
        state := w.state.advance
        entropy := entropy
        sent := w.sent ++ [⟨w.state.payloadCounter, plaintext⟩] }) := by
  refine ⟨(List.range w.state.paddingLen).map w.entropy, fun i =>
    w.entropy (w.state.paddingLen + i), by simp, ?_⟩
  unfold writeChunk
  refine (Stateful.run_bind rfl).trans ?_
  refine (Stateful.run_bind (onState_run (ChunkState.nextPaddingLen_run w.state))).trans ?_
  refine (Stateful.run_lift_bind (Outcome.ensure_pos (decide_eq_true hfits)) _).trans ?_
  have hput : put (fun w => { w with sent := w.sent ++ [⟨w.state.payloadCounter, plaintext⟩] })
      { w with state := w.state.padded } = (.ok (), { w with
        state := w.state.padded
        sent := w.sent ++ [⟨w.state.payloadCounter, plaintext⟩] }) := by
    simp [put]
  refine (Stateful.run_bind hput).trans ?_
  let size := UInt16.ofNat (w.state.totalLen plaintext)
  have hsize : ChunkState.encodeSize crypto size w.state.padded.counted =
      (.ok (w.state.padded.sizeField crypto size), w.state.advance) := by
    rw [ChunkState.encodeSize_run hs.padded.counted, ChunkState.sized_counted]
    rfl
  by_cases hnone : w.state.config.security = .none
  · rw [if_pos hnone]
    refine (Stateful.run_bind
      (onState_run (ChunkState.nextPayloadNonce_run w.state.padded))).trans ?_
    refine (Stateful.run_bind (onState_run hsize)).trans ?_
    have hpayload : w.state.payloadBytes crypto plaintext = plaintext := by
      unfold ChunkState.payloadBytes BodyCipher.sealedBytes
      rw [hs.payload, hnone]
      exact List.append_nil plaintext
    unfold ChunkState.chunkBytes
    rw [hpayload, ← List.append_assoc (w.state.padded.sizeField crypto _)]
    rfl
  · rw [if_neg hnone]
    refine (Stateful.run_bind (onState_run
      (ChunkState.encryptPayload_run crypto w.state.padded plaintext))).trans ?_
    refine (Stateful.run_bind (onState_run hsize)).trans ?_
    unfold ChunkState.chunkBytes ChunkState.payloadBytes BodyCipher.sealedBytes
    rw [← List.append_assoc (w.state.padded.sizeField crypto _),
      ← List.append_assoc (w.state.padded.sizeField crypto _), ChunkState.padded_payloadCipher,
      ChunkState.padded_payloadNonce]
    rfl

theorem writeChunk_large {plaintext : Bytes} (hlarge : ¬w.state.totalLen plaintext ≤ 65535) :
    writeChunk crypto plaintext w =
      (.err ("VMess chunk too large: " ++ toString (w.state.totalLen plaintext)),
        { w with state := w.state.padded }) := by
  unfold writeChunk
  refine (Stateful.run_bind rfl).trans ?_
  refine (Stateful.run_bind (onState_run (ChunkState.nextPaddingLen_run w.state))).trans ?_
  rw [show Outcome.ensure (decide
    (plaintext.length + w.state.payloadOverhead + w.state.paddingLen ≤ 65535))
    _ = _ from Outcome.ensure_neg fun h => hlarge (of_decide_eq_true h)]
  rfl

end BodyWriter

inductive Wire (crypto : BodyCrypto) : ChunkState → List Bytes → Bytes → Prop
  | nil (s : ChunkState) : Wire crypto s [] []
  | cons {s : ChunkState} {plaintext padding rest : Bytes} {chunks : List Bytes}
      (fits : s.totalLen plaintext ≤ 65535) (padded : padding.length = s.paddingLen)
      (more : Wire crypto s.advance chunks rest) :
      Wire crypto s (plaintext :: chunks) (s.chunkBytes crypto plaintext padding ++ rest)

theorem Wire.append {crypto : BodyCrypto} {s : ChunkState} {first second : List Bytes}
    {bytes more : Bytes} (h : Wire crypto s first bytes)
    (h' : Wire crypto (ChunkState.advance^[first.length] s) second more) :
    Wire crypto s (first ++ second) (bytes ++ more) := by
  induction h with
  | nil s => exact h'
  | cons fits padded rest ih =>
    rw [List.append_assoc]
    exact .cons fits padded (ih h')

namespace BodyWriter

variable {crypto : BodyCrypto} {w : BodyWriter}

theorem totalLen_le {s : ChunkState} {plaintext : Bytes} (h : plaintext.length ≤ maxChunkPlainLen) :
    s.totalLen plaintext ≤ 65535 := by
  have hpadding := s.paddingLen_lt
  have hoverhead : s.payloadOverhead ≤ 16 := by
    unfold ChunkState.payloadOverhead aeadTagLen
    split <;> omega
  unfold ChunkState.totalLen maxPaddingLen maxChunkPlainLen at *
  omega

def numbered (counter : UInt16) : List Bytes → List SentChunk
  | [] => []
  | plaintext :: chunks => ⟨counter, plaintext⟩ :: numbered (counter + 1) chunks

theorem writeChunks_run (hs : w.state.Sound crypto) {chunks : List Bytes}
    (hchunks : ∀ chunk ∈ chunks, chunk.length ≤ maxChunkPlainLen) :
    ∃ bytes entropy, Wire crypto w.state chunks bytes ∧
      writeChunks crypto chunks w = (.ok (), { w with
      inner := w.inner ++ bytes
      state := ChunkState.advance^[chunks.length] w.state
      entropy := entropy
      sent := w.sent ++ numbered w.state.payloadCounter chunks }) := by
  induction chunks generalizing w with
  | nil => exact ⟨[], w.entropy, .nil _, by simp [writeChunks, numbered]; rfl⟩
  | cons chunk chunks ih =>
    have hfits : w.state.totalLen chunk ≤ 65535 := totalLen_le (hchunks chunk List.mem_cons_self)
    obtain ⟨padding, entropy, hpadding, hwrite⟩ := writeChunk_run hs hfits
    obtain ⟨bytes, entropy', hwire, hrest⟩ := ih
      (w := { w with
        inner := w.inner ++ w.state.chunkBytes crypto chunk padding
        state := w.state.advance
        entropy := entropy
        sent := w.sent ++ [⟨w.state.payloadCounter, chunk⟩] }) hs.advance
          fun c hc => hchunks c (List.mem_cons_of_mem _ hc)
    refine ⟨_, entropy', .cons hfits hpadding hwire, ?_⟩
    refine (Stateful.run_bind hwrite).trans (hrest.trans ?_)
    simp [numbered]

def writeBody (crypto : BodyCrypto) : List Bytes → Stateful BodyWriter Unit
  | [] => finish crypto
  | data :: writes => do
    writeAllPlain crypto data
    writeBody crypto writes

def bodyChunks (writes : List Bytes) : List Bytes := writes.flatMap (chunks maxChunkPlainLen)

theorem mem_bodyChunks {writes : List Bytes} {chunk : Bytes} (h : chunk ∈ bodyChunks writes) :
    chunk ≠ [] ∧ chunk.length ≤ maxChunkPlainLen := by
  obtain ⟨data, -, hchunk⟩ := List.mem_flatMap.mp h
  exact mem_chunks (by decide) hchunk

theorem flatten_bodyChunks (writes : List Bytes) :
    (bodyChunks writes).flatten = writes.flatten := by
  induction writes with
  | nil => rfl
  | cons data writes ih =>
    have hchunks : (chunks maxChunkPlainLen data).flatten = data := flatten_chunks (by decide) data
    rw [bodyChunks, List.flatMap_cons, List.flatten_append, hchunks, List.flatten_cons, ← ih]
    rfl

theorem writeAllPlain_chunked (hraw : w.state.rawMode = false) (hopen : w.finished = false)
    (data : Bytes) :
    writeAllPlain crypto data w = writeChunks crypto (chunks maxChunkPlainLen data) w := by
  unfold writeAllPlain
  by_cases hdata : data = []
  · subst hdata
    rfl
  · rw [if_neg hdata]
    refine (Stateful.run_bind rfl).trans ?_
    refine (Stateful.run_lift_bind (Outcome.ensure_pos (by rw [hopen]; rfl)) _).trans ?_
    rw [hraw]
    rfl

theorem writeBody_chunked (hs : w.state.Sound crypto) (hraw : w.state.rawMode = false)
    (hopen : w.finished = false) (writes : List Bytes) :
    ∃ bytes entropy sent, Wire crypto w.state (bodyChunks writes ++ [[]]) bytes ∧
      writeBody crypto writes w = (.ok (), { w with
        inner := w.inner ++ bytes
        state := ChunkState.advance^[(bodyChunks writes).length + 1] w.state
        entropy := entropy
        finished := true
        sent := sent }) := by
  induction writes generalizing w with
  | nil =>
    obtain ⟨padding, entropy, hpadding, hwrite⟩ :=
      @writeChunk_run crypto w hs [] (totalLen_le (Nat.zero_le _))
    refine ⟨_, entropy, w.sent ++ [⟨w.state.payloadCounter, []⟩],
      .cons (totalLen_le (Nat.zero_le _)) hpadding (.nil _), ?_⟩
    unfold writeBody finish
    refine (Stateful.run_bind rfl).trans ?_
    rw [hopen, hraw]
    refine (Stateful.run_bind hwrite).trans ?_
    simp only [put, bodyChunks, List.append_nil]
    rfl
  | cons data writes ih =>
    have hchunks : ∀ chunk ∈ chunks maxChunkPlainLen data, chunk.length ≤ maxChunkPlainLen :=
      fun chunk hchunk => (mem_chunks (by decide) hchunk).2
    obtain ⟨bytes, entropy, hwire, hwrite⟩ := writeChunks_run hs hchunks
    obtain ⟨more, entropy', sent, hwire', hrest⟩ := ih
      (w := { w with
        inner := w.inner ++ bytes
        state := ChunkState.advance^[(chunks maxChunkPlainLen data).length] w.state
        entropy := entropy
        sent := w.sent ++ numbered w.state.payloadCounter (chunks maxChunkPlainLen data) })
      (hs.iterate _) ((ChunkState.iterate_rawMode _ _).trans hraw) hopen
    have hsplit : bodyChunks (data :: writes) = chunks maxChunkPlainLen data ++ bodyChunks writes :=
      rfl
    refine ⟨bytes ++ more, entropy', sent, ?_, ?_⟩
    · rw [hsplit, List.append_assoc]
      exact hwire.append hwire'
    · unfold writeBody
      rw [← writeAllPlain_chunked hraw hopen] at hwrite
      refine (Stateful.run_bind hwrite).trans (hrest.trans ?_)
      rw [hsplit, ← Function.iterate_add_apply, List.length_append]
      simp [Nat.add_comm, Nat.add_left_comm]

end BodyWriter

/-! ### The reader -/

namespace BodyReader

variable {crypto : BodyCrypto} {r : BodyReader}

theorem onState_run {α : Type} {x : Stateful ChunkState α} {result : Outcome α} {state : ChunkState}
    (h : x r.state = (result, state)) : onState x r = (result, { r with state }) := by
  unfold onState Stateful.zoom
  rw [h]

theorem readExact_run {n : ℕ} {bytes rest : Bytes} (message : String)
    (hinner : r.inner.flatten = bytes ++ rest)
    (hn : bytes.length = n) :
    ∃ inner, inner.flatten = rest ∧ readExact n message r = (.ok bytes, { r with inner }) := by
  obtain ⟨hsome, hrest⟩ := Segments.readExact_append hinner hn
  refine ⟨_, hrest, ?_⟩
  unfold readExact
  rw [hsome]
  rfl

theorem readSome_run {n : ℕ} {bytes rest : Bytes} (message : String)
    (hinner : r.inner.flatten = bytes ++ rest)
    (hn : bytes.length = n) :
    ∃ inner, inner.flatten = rest ∧
      readSome n message r = (.ok bytes, { r with inner }) := by
  unfold readSome
  by_cases hpos : 0 < n
  · rw [if_pos hpos]
    exact readExact_run message hinner hn
  · have hnil : bytes = [] := List.eq_nil_of_length_eq_zero (by omega)
    subst hnil
    rw [if_neg hpos]
    exact ⟨r.inner, hinner, rfl⟩

theorem checkSize_run {plaintext : Bytes} {size : UInt16}
    (hsize : size.toNat = r.state.totalLen plaintext)
    (r' : BodyReader) (shown shown' : String) :
    (do
      Outcome.ensure (r.state.paddingLen ≤ size.toNat) shown
      Outcome.ensure (r.state.payloadOverhead ≤ size.toNat - r.state.paddingLen) shown'
      return (size.toNat - r.state.paddingLen, r.state.paddingLen) :
        Stateful BodyReader (ℕ × ℕ)) r' =
      (.ok (plaintext.length + r.state.payloadOverhead, r.state.paddingLen), r') := by
  have htotal : r.state.totalLen plaintext =
    plaintext.length + r.state.payloadOverhead + r.state.paddingLen := rfl
  rw [hsize, htotal, Nat.add_sub_cancel]
  refine (Stateful.run_lift_bind
    (Outcome.ensure_pos (decide_eq_true (Nat.le_add_left _ _))) _).trans ?_
  exact Stateful.run_lift_bind (Outcome.ensure_pos (decide_eq_true (Nat.le_add_left _ _))) _

theorem readSize_run (hs : r.state.Sound crypto) (hopens : r.state.padded.LengthOpens crypto)
    {plaintext rest : Bytes} (hfits : r.state.totalLen plaintext ≤ 65535)
    (hinner : r.inner.flatten =
      r.state.padded.sizeField crypto (UInt16.ofNat (r.state.totalLen plaintext)) ++ rest) :
    ∃ inner, inner.flatten = rest ∧ readSize crypto r =
      (.ok (plaintext.length + r.state.payloadOverhead, r.state.paddingLen),
        { r with inner, state := r.state.padded.sized }) := by
  have hsize : (UInt16.ofNat (r.state.totalLen plaintext)).toNat = r.state.totalLen plaintext := by
    rw [UInt16.toNat_ofNat']
    omega
  have hfield : r.state.padded.sizeFieldLen = r.state.sizeFieldLen := by
    unfold ChunkState.sizeFieldLen
    rw [r.state.padded_config]
  obtain ⟨inner, hrest, hread⟩ := readExact_run "read VMess chunk size" hinner
    ((ChunkState.sizeField_length _).trans hfield)
  refine ⟨inner, hrest, ?_⟩
  unfold readSize
  refine (Stateful.run_bind rfl).trans ?_
  refine (Stateful.run_bind hread).trans ?_
  by_cases hpadding : r.state.paddingFromSizeShake = true
  · simp only [hpadding, if_true]
    refine (Stateful.run_bind (onState_run (ChunkState.nextPaddingLen_run _))).trans ?_
    refine (Stateful.run_bind (onState_run (ChunkState.decodeSize_run hs.padded hopens _))).trans ?_
    refine (Stateful.run_bind rfl).trans ?_
    exact checkSize_run hsize _ _ _
  · -- The padding has a stream of its own: it is drawn behind the size field.
    obtain ⟨hdraw, -, hsame⟩ := @ChunkState.sized_padded crypto r.state (by simpa using hpadding)
    have hdecode := ChunkState.decodeSize_run hs (ChunkState.lengthOpens_padded.mp hopens)
      (UInt16.ofNat (r.state.totalLen plaintext))
    simp only [hpadding, Bool.false_eq_true, if_false]
    refine (Stateful.run_bind rfl).trans ?_
    rw [hsame]
    refine (Stateful.run_bind (onState_run (r := { r with inner }) hdecode)).trans ?_
    refine (Stateful.run_bind (onState_run (r := { r with inner, state := r.state.sized })
      hdraw)).trans ?_
    exact checkSize_run hsize _ _ _

theorem readNextChunk_run (hs : r.state.Sound crypto) (hlength : r.state.LengthOpens crypto)
    {plaintext padding rest : Bytes} (hpayload : r.state.PayloadOpens crypto plaintext)
    (hfits : r.state.totalLen plaintext ≤ 65535) (hpadding : padding.length = r.state.paddingLen)
    (hinner : r.inner.flatten = r.state.chunkBytes crypto plaintext padding ++ rest) :
    ∃ inner, inner.flatten = rest ∧ readNextChunk crypto r = (.ok (),
      { inner, state := r.state.advance, pending := plaintext, pendingPos := 0,
        finished := r.finished || plaintext = [] }) := by
  unfold ChunkState.chunkBytes at hinner
  rw [List.append_assoc, List.append_assoc] at hinner
  obtain ⟨inner₁, hinner₁, hsize⟩ :=
    readSize_run hs (ChunkState.lengthOpens_padded.mpr hlength) hfits hinner
  have hsealed : (r.state.payloadBytes crypto plaintext).length =
    plaintext.length + r.state.payloadOverhead := by
    rw [ChunkState.payloadOverhead_eq hs.payload]
    exact BodyCipher.sealedBytes_length _ _
  obtain ⟨inner₂, hinner₂, hread⟩ := readSome_run (r := { r with
      inner := inner₁, state := r.state.padded.sized, pending := [] }) "read VMess chunk payload"
        hinner₁ hsealed
  obtain ⟨inner₃, hinner₃, hskip⟩ := readSome_run (r := { r with
      inner := inner₂, state := r.state.padded.sized, pending := [] }) "read VMess chunk padding"
        hinner₂ hpadding
  have hdecrypt : ChunkState.decryptPayload crypto (r.state.payloadBytes crypto plaintext)
      r.state.padded.sized = (.ok plaintext, r.state.advance) := by
    rw [ChunkState.decryptPayload_run, ChunkState.sized_payloadCipher,
      ChunkState.sized_payloadNonce,
      ChunkState.padded_payloadCipher, ChunkState.padded_payloadNonce]
    exact congrArg (·, r.state.advance) (BodyCipher.decryptInPlace_sealedBytes hpayload)
  refine ⟨inner₃, hinner₃, ?_⟩
  unfold readNextChunk
  refine (Stateful.run_bind hsize).trans ?_
  refine (Stateful.run_bind rfl).trans ?_
  refine (Stateful.run_bind hread).trans ?_
  refine (Stateful.run_bind hskip).trans ?_
  refine (Stateful.run_bind (onState_run (r := { r with
      inner := inner₃, state := r.state.padded.sized, pending := [] }) hdecrypt)).trans ?_
  show (Outcome.ok (), accept _ plaintext _) = _
  unfold accept
  rw [ChunkState.advance_payloadOverhead]
  by_cases hnil : plaintext = []
  · subst hnil
    rw [if_pos ⟨Nat.zero_add _, rfl⟩]
    simp [clearPending]
  · rw [if_neg fun h => hnil h.2]
    simp [hnil]

theorem deliver_run (size : ℕ) (r : BodyReader) :
    ∃ pending pendingPos, deliver size r =
        (.ok ((r.pending.drop r.pendingPos).take size), { r with pending, pendingPos }) ∧
      pending.drop pendingPos = (r.pending.drop r.pendingPos).drop size := by
  unfold deliver
  dsimp only
  rw [List.length_take, List.length_drop]
  by_cases hend : r.pending.length ≤ r.pendingPos + min size (r.pending.length - r.pendingPos)
  · rw [if_pos hend]
    refine ⟨[], 0, rfl, ?_⟩
    rw [List.drop_drop]
    exact (List.drop_of_length_le (by omega)).symm
  · rw [if_neg hend]
    refine ⟨r.pending, _, rfl, ?_⟩
    rw [List.drop_drop, Nat.min_eq_left (by omega)]

end BodyReader

/-! ### Reading to the end -/

/-- Both AEADs open what they have sealed. -/
def BodyCrypto.Correct (crypto : BodyCrypto) : Prop :=
  ∀ aead ∈ [crypto.aes128Gcm, crypto.chaCha20Poly1305], ∀ key nonce plaintext : Bytes,
    aead.decrypt key nonce (aead.encrypt key nonce plaintext).1
      (aead.encrypt key nonce plaintext).2 = some plaintext

theorem BodyCrypto.Correct.opens {crypto : BodyCrypto} (h : crypto.Correct) (c : BodyCipher)
    (nonce plaintext : Bytes) : c.Opens crypto nonce plaintext := by
  cases c with
  | none => rfl
  | aes key => exact Outcome.need_ok.mpr (h crypto.aes128Gcm (by simp) key nonce plaintext)
  | chaCha key =>
    exact Outcome.need_ok.mpr (h crypto.chaCha20Poly1305 (by simp) key nonce plaintext)

/-- What a reader will still return, of a body of `chunks` from the state `start` on. -/
inductive Ahead (crypto : BodyCrypto) (start : ChunkState) (chunks : List Bytes) (r : BodyReader)
    (left : Bytes) : Prop
  | raw (raw : start.rawMode = true) (state : r.state = start) (inner : r.inner.flatten = left)
  | chunked (done todo : List Bytes) (raw : start.rawMode = false)
      (state : r.state = ChunkState.advance^[done.length] start)
      (split : chunks = done ++ (todo ++ [[]]))
      (unfinished : r.finished = false) (data : ∀ chunk ∈ todo, chunk ≠ [])
      (wire : Wire crypto r.state (todo ++ [[]]) r.inner.flatten)
      (left : left = r.pending.drop r.pendingPos ++ todo.flatten)
  | finished (raw : start.rawMode = false)
    (state : r.state = ChunkState.advance^[chunks.length] start)
      (finished : r.finished = true) (pending : r.pending = []) (left : left = [])

section

variable {crypto : BodyCrypto} {start : ChunkState} {chunks : List Bytes} {r : BodyReader}
    {left : Bytes}

theorem Ahead.inStep (h : Ahead crypto start chunks r left) (hraw : start.rawMode = false) :
    ∃ done todo, chunks = done ++ todo ∧ r.state = ChunkState.advance^[done.length] start ∧
      left = r.pending.drop r.pendingPos ++ todo.flatten := by
  cases h with
  | raw raw => exact absurd (raw.symm.trans hraw) nofun
  | chunked done todo _ state split _ _ _ left =>
    exact ⟨done, todo ++ [[]], split, state, by simpa using left⟩
  | finished _ state _ pending left =>
    exact ⟨chunks, [], (List.append_nil _).symm, state, by rw [left, pending, List.drop_nil]; rfl⟩

theorem Ahead.deliver {size : ℕ} {done todo : List Bytes} (hsize : 0 < size)
    (hpending : r.pending.drop r.pendingPos ≠ []) (raw : start.rawMode = false)
    (state : r.state = ChunkState.advance^[done.length] start)
    (split : chunks = done ++ (todo ++ [[]]))
    (unfinished : r.finished = false) (data : ∀ chunk ∈ todo, chunk ≠ [])
    (wire : Wire crypto r.state (todo ++ [[]]) r.inner.flatten) :
    ∃ bytes rest, (r.deliver size).1 = .ok bytes ∧ bytes ≠ [] ∧
      r.pending.drop r.pendingPos ++ todo.flatten = bytes ++ rest ∧
      Ahead crypto start chunks (r.deliver size).2 rest := by
  obtain ⟨pending, pendingPos, hdeliver, hrest⟩ := r.deliver_run size
  rw [hdeliver]
  refine ⟨_, (r.pending.drop r.pendingPos).drop size ++ todo.flatten, rfl, ?_, ?_, ?_⟩
  · rw [ne_eq, List.take_eq_nil_iff]
    rintro (hzero | hnil)
    · omega
    · exact hpending hnil
  · rw [← List.append_assoc, List.take_append_drop]
  · exact .chunked done todo raw state split unfinished data wire (by rw [hrest])

theorem readPlain_emptied {size : ℕ} (hsize : 0 < size) (hraw : r.state.rawMode = false)
    (hpending : r.pending.drop r.pendingPos = []) :
    BodyReader.readPlain crypto size r =
      if r.finished = true then (.ok [], r.clearPending) else (do
        BodyReader.readNextChunk crypto
        let r ← Stateful.get
        if r.pending = [] then return [] else BodyReader.deliver size) r.clearPending := by
  unfold BodyReader.readPlain
  refine (Stateful.run_bind rfl).trans ?_
  rw [if_neg (by omega), hraw]
  simp only [Bool.false_eq_true, if_false]
  rw [if_pos (by rwa [List.drop_eq_nil_iff] at hpending)]
  refine (Stateful.run_bind rfl).trans ?_
  split
  · rfl
  · rfl

theorem readPlain_next {size : ℕ} (hsize : 0 < size) (hraw : r.state.rawMode = false)
    (hpending : r.pending.drop r.pendingPos = []) (hfinished : r.finished = false) {r' : BodyReader}
    (hnext : BodyReader.readNextChunk crypto r.clearPending = (.ok (), r')) :
    BodyReader.readPlain crypto size r =
      if r'.pending = [] then (.ok [], r') else r'.deliver size := by
  rw [readPlain_emptied hsize hraw hpending, if_neg (by simp [hfinished])]
  refine (Stateful.run_bind hnext).trans ?_
  refine (Stateful.run_bind rfl).trans ?_
  split
  · rfl
  · rfl

theorem readPlain_raw {size : ℕ} (hsize : 0 < size) (hraw : r.state.rawMode = true) :
    BodyReader.readPlain crypto size r =
      (.ok (r.inner.read size).1, { r with inner := (r.inner.read size).2 }) := by
  unfold BodyReader.readPlain
  refine (Stateful.run_bind rfl).trans ?_
  rw [if_neg (by omega), hraw]
  rfl

theorem readPlain_pending {size : ℕ} (hsize : 0 < size) (hraw : r.state.rawMode = false)
    (hpending : r.pending.drop r.pendingPos ≠ []) :
    BodyReader.readPlain crypto size r = r.deliver size := by
  unfold BodyReader.readPlain
  refine (Stateful.run_bind rfl).trans ?_
  rw [if_neg (by omega), hraw]
  simp only [Bool.false_eq_true, if_false]
  rw [if_neg (by rwa [ne_eq, List.drop_eq_nil_iff] at hpending)]

theorem readPlain_finished {size : ℕ} (hsize : 0 < size) (hraw : r.state.rawMode = false)
    (hpending : r.pending.drop r.pendingPos = []) (hfinished : r.finished = true) :
    BodyReader.readPlain crypto size r = (.ok [], r.clearPending) := by
  rw [readPlain_emptied hsize hraw hpending, if_pos hfinished]

theorem readNextChunk_wire (hcorrect : crypto.Correct) (hs : r.state.Sound crypto)
    {plaintext : Bytes} {chunks : List Bytes} (hfinished : r.finished = false)
    (hwire : Wire crypto r.state (plaintext :: chunks) r.inner.flatten) :
    ∃ inner, Wire crypto r.state.advance chunks inner.flatten ∧
      BodyReader.readNextChunk crypto r.clearPending = (.ok (),
        { inner, state := r.state.advance, pending := plaintext, pendingPos := 0,
          finished := plaintext = [] }) := by
  generalize hbytes : r.inner.flatten = bytes at hwire
  cases hwire with
  | cons hfits hpadding hmore =>
    obtain ⟨inner, hrest, hread⟩ := BodyReader.readNextChunk_run (r := r.clearPending) hs
      (fun _ size => hcorrect.opens _ _ _) (hcorrect.opens _ _ _) hfits hpadding hbytes
    refine ⟨inner, by rwa [hrest], hread.trans ?_⟩
    show _ = (Outcome.ok (), BodyReader.mk inner r.state.advance plaintext 0
      (decide (plaintext = [])))
    rw [show r.clearPending.finished = false from hfinished, Bool.false_or]
    rfl

theorem readPlain_drains (hcorrect : crypto.Correct) (hs : start.Sound crypto) :
    Drains (BodyReader.readPlain crypto) (Ahead crypto start chunks) where
  part := by
    intro size r left hsize hahead hleft
    cases hahead with
    | raw raw state inner =>
      rw [readPlain_raw hsize (state ▸ raw)]
      refine ⟨_, (r.inner.read size).2.flatten, rfl, ?_, ?_, .raw raw state rfl⟩
      · rwa [ne_eq, Segments.read_eq_nil hsize, inner]
      · rw [Segments.read_append, inner]
    | chunked done todo raw state split unfinished data wire left =>
      have hraw : r.state.rawMode = false := by rw [state, ChunkState.iterate_rawMode, raw]
      by_cases hpending : r.pending.drop r.pendingPos = []
      · rw [hpending, List.nil_append] at left
        cases todo with
        | nil => exact absurd left hleft
        | cons chunk todo =>
          obtain ⟨inner, hwire, hnext⟩ :=
            readNextChunk_wire hcorrect (state ▸ hs.iterate done.length) unfinished wire
          have hchunk : chunk ≠ [] := data chunk List.mem_cons_self
          rw [readPlain_next hsize hraw hpending unfinished hnext, if_neg hchunk, left]
          refine Ahead.deliver (r := ⟨inner, r.state.advance, chunk, 0, decide (chunk = [])⟩)
            hsize hchunk raw (?_ : _ = ChunkState.advance^[(done ++ [chunk]).length] start) ?_
            (decide_eq_false hchunk) (fun c hc => data c (List.mem_cons_of_mem _ hc)) hwire
          · rw [List.length_append, List.length_singleton, Function.iterate_succ_apply', state]
          · rw [split, List.append_assoc]
            rfl
      · rw [readPlain_pending hsize hraw hpending, left]
        exact Ahead.deliver hsize hpending raw state split unfinished data wire
    | finished _ _ _ _ left => exact absurd left hleft
  nothing := by
    intro size r hsize hahead
    cases hahead with
    | raw raw state inner =>
      have hnil : (r.inner.read size).1 = [] := (Segments.read_eq_nil hsize).mpr inner
      have happend := Segments.read_append size r.inner
      rw [hnil, List.nil_append, inner] at happend
      rw [readPlain_raw hsize (state ▸ raw), hnil]
      exact ⟨rfl, .raw raw state happend⟩
    | chunked done todo raw state split unfinished data wire left =>
      have hraw : r.state.rawMode = false := by rw [state, ChunkState.iterate_rawMode, raw]
      obtain ⟨hpending, htodo⟩ := List.append_eq_nil_iff.mp left.symm
      cases todo with
      | nil =>
        obtain ⟨inner, hwire, hnext⟩ :=
          readNextChunk_wire hcorrect (state ▸ hs.iterate done.length) unfinished wire
        rw [readPlain_next hsize hraw hpending unfinished hnext, if_pos rfl]
        refine ⟨rfl, .finished raw ?_ rfl rfl rfl⟩
        show r.state.advance = _
        rw [state, split, List.length_append, List.nil_append, List.length_singleton,
          Function.iterate_succ_apply']
      | cons chunk todo =>
        have hchunk : chunk = [] := (List.append_eq_nil_iff.mp htodo).1
        exact absurd hchunk (data chunk List.mem_cons_self)
    | finished raw state finished pending left =>
      have hraw : r.state.rawMode = false := by rw [state, ChunkState.iterate_rawMode, raw]
      have hread : BodyReader.readPlain crypto size r = (.ok [], r.clearPending) :=
        readPlain_finished hsize hraw (by rw [pending, List.drop_nil]) finished
      rw [hread]
      exact ⟨rfl, .finished raw state finished rfl rfl⟩

end

section

variable {crypto : BodyCrypto} {config : BodyConfig}

theorem writeBody_raw {w : BodyWriter} (hraw : w.state.rawMode = true) (hopen : w.finished = false)
    (writes : List Bytes) :
    BodyWriter.writeBody crypto writes w =
      (.ok (), { w with inner := w.inner ++ writes.flatten, finished := true }) := by
  induction writes generalizing w with
  | nil =>
    unfold BodyWriter.writeBody BodyWriter.finish
    refine (Stateful.run_bind rfl).trans ?_
    rw [hopen, hraw]
    simp [BodyWriter.put]
  | cons data writes ih =>
    have hwrite : BodyWriter.writeAllPlain crypto data w =
      (.ok (), { w with inner := w.inner ++ data }) := by
      unfold BodyWriter.writeAllPlain
      by_cases hdata : data = []
      · subst hdata
        rw [if_pos rfl, List.append_nil]
        rfl
      · rw [if_neg hdata]
        refine (Stateful.run_bind rfl).trans ?_
        refine (Stateful.run_lift_bind (Outcome.ensure_pos (by rw [hopen]; rfl)) _).trans ?_
        rw [hraw]
        rfl
    unfold BodyWriter.writeBody
    refine (Stateful.run_bind hwrite).trans
      ((ih (w := { w with inner := w.inner ++ data }) hraw hopen).trans ?_)
    rw [List.flatten_cons, List.append_assoc]

theorem stateAfter_chunks (entropy : Entropy) {writes done todo : List Bytes}
    (hsplit : BodyWriter.bodyChunks writes ++ [[]] = done ++ todo) :
    (BodyWriter.writeChunks crypto done (BodyWriter.new crypto config entropy)).2.state =
      ChunkState.advance^[done.length] (ChunkState.new crypto config) := by
  have hchunks : ∀ chunk ∈ done, chunk.length ≤ maxChunkPlainLen := by
    intro chunk hchunk
    rcases List.mem_append.mp (hsplit ▸ List.mem_append_left todo hchunk) with hdata | hend
    · exact (BodyWriter.mem_bodyChunks hdata).2
    · rw [List.mem_singleton.mp hend]
      exact Nat.zero_le _
  obtain ⟨bytes, entropy', -, hrun⟩ := BodyWriter.writeChunks_run
    (w := BodyWriter.new crypto config entropy) (ChunkState.sound_new config) hchunks
  rw [hrun]
  rfl

/-- A body is read back from its wire, however the wire is cut and the buffers are sized. After
every call the reader's chunk state is the writer's after the chunks that have been read, and what
is still to come are the pending bytes and the other chunks. -/
theorem body_round_trip (hcorrect : crypto.Correct) (config : BodyConfig) (entropy : Entropy)
    (writes : List Bytes) (segments : Segments) (sizes : ℕ → ℕ) (hsizes : ∀ i, 0 < sizes i)
    (hwire : segments.flatten =
      (BodyWriter.writeBody crypto writes (BodyWriter.new crypto config entropy)).2.inner) :
    (BodyWriter.writeBody crypto writes (BodyWriter.new crypto config entropy)).1 = .ok () ∧
      ∃ pieces : List Bytes, pieces.flatten = writes.flatten ∧ (∀ piece ∈ pieces, piece ≠ []) ∧
        ∀ n,
          callResult (BodyReader.readPlain crypto) sizes (BodyReader.new crypto segments config) n =
            .ok (pieces.getD n []) ∧
          (config.rawMode = false → ∃ r done todo,
            readerAfter (BodyReader.readPlain crypto) sizes
              (BodyReader.new crypto segments config) n = r ∧
            BodyWriter.bodyChunks writes ++ [[]] = done ++ todo ∧
            r.state = (BodyWriter.writeChunks crypto done
              (BodyWriter.new crypto config entropy)).2.state ∧
            (pieces.drop n).flatten = r.pending.drop r.pendingPos ++ todo.flatten) := by
  have hs : (ChunkState.new crypto config).Sound crypto := ChunkState.sound_new config
  have hdrains := @readPlain_drains crypto _ (BodyWriter.bodyChunks writes ++ [[]]) hcorrect hs
  suffices h :
      (BodyWriter.writeBody crypto writes (BodyWriter.new crypto config entropy)).1 = .ok () ∧
      Ahead crypto (ChunkState.new crypto config) (BodyWriter.bodyChunks writes ++ [[]])
        (BodyReader.new crypto segments config) writes.flatten by
    obtain ⟨pieces, hflat, hpieces, hresults, hahead⟩ := hdrains.pieces hsizes h.2
    refine ⟨h.1, pieces, hflat, hpieces, fun n => ⟨hresults n, fun hraw => ?_⟩⟩
    obtain ⟨done, todo, hsplit, hstate, hleft⟩ := (hahead n).inStep hraw
    exact ⟨_, done, todo, rfl, hsplit, hstate.trans (stateAfter_chunks entropy hsplit).symm, hleft⟩
  by_cases hraw : (ChunkState.new crypto config).rawMode = true
  · rw [writeBody_raw (w := BodyWriter.new crypto config entropy) hraw rfl] at hwire ⊢
    exact ⟨rfl, .raw hraw rfl hwire⟩
  · rw [Bool.not_eq_true] at hraw
    obtain ⟨bytes, entropy', sent, hbytes, hrun⟩ := BodyWriter.writeBody_chunked
      (w := BodyWriter.new crypto config entropy) hs hraw rfl writes
    rw [hrun] at hwire ⊢
    refine ⟨rfl, .chunked [] (BodyWriter.bodyChunks writes) hraw rfl rfl rfl
      (fun chunk hchunk => (BodyWriter.mem_bodyChunks hchunk).1) ?_ ?_⟩
    · rwa [show (BodyReader.new crypto segments config).inner.flatten = bytes from hwire]
    · exact (BodyWriter.flatten_bodyChunks writes).symm

def taggedAead : Aead where
  encrypt _ _ plaintext := (plaintext, List.replicate 16 0)
  decrypt _ _ ciphertext _ := some ciphertext
  ciphertext_length _ _ _ := rfl
  tag_length _ _ _ := rfl

def taggedCrypto : BodyCrypto where
  sha256 bytes := bytes
  md5 bytes := bytes
  aes128Gcm := taggedAead
  chaCha20Poly1305 := taggedAead

theorem taggedCrypto_correct : taggedCrypto.Correct := by
  intro aead haead key nonce plaintext
  rcases List.mem_pair.mp haead with rfl | rfl
  · rfl
  · rfl

theorem three_bytes_read_back :
    ∃ request response,
      BodyConfig.newRequest .aes128Gcm 0x1d (List.replicate 16 0x11) (List.replicate 16 0x22) =
        .ok request ∧
      BodyConfig.newResponse taggedCrypto .aes128Gcm 0x1d (List.replicate 16 0x11)
        (List.replicate 16 0x22) = .ok response ∧
      ∀ config ∈ [request, response], ∃ pieces : List Bytes, pieces.flatten = [1, 2, 3] ∧ ∀ n,
        callResult (BodyReader.readPlain taggedCrypto) (fun _ => 2) (BodyReader.new taggedCrypto
          [(BodyWriter.writeBody taggedCrypto [[1, 2], [3]]
            (BodyWriter.new taggedCrypto config fun _ => 0)).2.inner] config) n =
          .ok (pieces.getD n []) := by
  refine ⟨_, _, rfl, rfl, fun config _ => ?_⟩
  obtain ⟨-, pieces, hflat, -, hcalls⟩ := body_round_trip taggedCrypto_correct config (fun _ => 0)
    [[1, 2], [3]] [(BodyWriter.writeBody taggedCrypto [[1, 2], [3]]
      (BodyWriter.new taggedCrypto config fun _ => 0)).2.inner]
    (fun _ => 2) (fun _ => Nat.two_pos) (List.append_nil _)
  exact ⟨pieces, hflat, fun n => (hcalls n).1⟩

end

end Aerion.Vmess.Body
