import Aerion.Lib.Framing
import Aerion.Lib.Words

/-!
# AnyTLS frames

A command, a stream id, a length of two bytes and the payload
(`src/protocol.rs`). `encode_frame` writes the length modulo the word, so
only a payload that fits the length is read back as it was written; the
frames of the model carry that bound.
-/

namespace Aerion.AnyTls

open Lib

def cmdWaste : UInt8 := 0
def cmdSyn : UInt8 := 1
def cmdPsh : UInt8 := 2
def cmdFin : UInt8 := 3
def cmdSettings : UInt8 := 4
def cmdAlert : UInt8 := 5
def cmdUpdatePaddingScheme : UInt8 := 6
def cmdSynack : UInt8 := 7
def cmdHeartRequest : UInt8 := 8
def cmdHeartResponse : UInt8 := 9
def cmdServerSettings : UInt8 := 10

def maxFramePayloadLen : ℕ := 65535
def frameHeaderLen : ℕ := 7

def encodeFrame (cmd : UInt8) (streamId : UInt32) (payload : Bytes) : Bytes :=
  [cmd] ++ toBe 4 streamId.toNat ++ toBe 2 payload.length ++ payload

structure Frame where
  cmd : UInt8
  streamId : UInt32
  payload : Bytes
  fits : payload.length ≤ maxFramePayloadLen
  deriving DecidableEq

def Frame.bytes (f : Frame) : Bytes := encodeFrame f.cmd f.streamId f.payload

/-- A frame of filler. -/
def Frame.IsWaste (f : Frame) : Prop := f.cmd = cmdWaste ∧ f.streamId = 0

instance (f : Frame) : Decidable f.IsWaste := inferInstanceAs (Decidable (_ ∧ _))

def chunksFuel (id : UInt32) : ℕ → Bytes → List Frame
  | 0, _ | _, [] => []
  | fuel + 1, b :: bytes =>
    ⟨cmdPsh, id, (b :: bytes).take maxFramePayloadLen, List.length_take_le _ _⟩ ::
      chunksFuel id fuel ((b :: bytes).drop maxFramePayloadLen)

/-- The frames of `write_payload_chunks`. -/
def payloadChunks (id : UInt32) (payload : Bytes) : List Frame :=
  chunksFuel id payload.length payload

def settingsFrame (settings : {bytes : Bytes // bytes.length ≤ maxFramePayloadLen}) : Frame :=
  ⟨cmdSettings, 0, settings.1, settings.2⟩

def readPayload (high low : UInt8) : Reader {payload : Bytes // payload.length ≤ maxFramePayloadLen} :=
  fun stream =>
    if h : ofBe [high, low] ≤ stream.length then
      .ok (⟨stream.take (ofBe [high, low]), by
        have hlen := ofBe_lt [high, low]
        rw [List.length_take_of_le h]
        unfold maxFramePayloadLen
        simp only [List.length_cons, List.length_nil] at hlen
        omega⟩, stream.drop (ofBe [high, low]))
    else .err "read Aerion frame payload"

def readFrame : Reader Frame := fun stream =>
  match stream with
  | cmd :: s0 :: s1 :: s2 :: s3 :: high :: low :: rest => do
    let (payload, rest) ← readPayload high low rest
    return (⟨cmd, UInt32.ofNat (ofBe [s0, s1, s2, s3]), payload.1, payload.2⟩, rest)
  | _ => .err "read Aerion frame header"

theorem readFrame_bytes (f : Frame) (rest : Bytes) : readFrame (f.bytes ++ rest) = .ok (f, rest) := by
  obtain ⟨cmd, streamId, payload, fits⟩ := f
  have hid : ofBe (toBe 4 streamId.toNat) = streamId.toNat :=
    ofBe_toBe (by simpa using streamId.toNat_lt)
  have hlen : ofBe (toBe 2 payload.length) = payload.length :=
    ofBe_toBe (by unfold maxFramePayloadLen at fits; omega)
  obtain ⟨s0, s1, s2, s3, hs⟩ : ∃ a b c d, toBe 4 streamId.toNat = [a, b, c, d] := ⟨_, _, _, _, rfl⟩
  obtain ⟨high, low, hl⟩ : ∃ a b, toBe 2 payload.length = [a, b] := ⟨_, _, rfl⟩
  rw [hs] at hid
  rw [hl] at hlen
  have hbytes : Frame.bytes ⟨cmd, streamId, payload, fits⟩ ++ rest =
      cmd :: s0 :: s1 :: s2 :: s3 :: high :: low :: (payload ++ rest) := by
    simp [Frame.bytes, encodeFrame, hs, hl]
  rw [hbytes, readFrame]
  unfold readPayload
  rw [dif_pos (by rw [hlen]; simp)]
  simp [hid, hlen]

/-- Frames as `read_frame` reads them. -/
def framing : Framing Frame where
  encode := Frame.bytes
  read stream := match readFrame stream with
    | .ok r => some r
    | _ => none
  encode_pos f := by simp [Frame.bytes, encodeFrame]
  read_encode f rest := by rw [readFrame_bytes]

end Aerion.AnyTls
