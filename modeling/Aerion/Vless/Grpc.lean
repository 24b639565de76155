import Aerion.Lib.Drain
import Aerion.Lib.Segments
import Aerion.Lib.Words
import Aerion.Vless.Request

/-!
# gRPC frames of the VLESS transport

`read_grpc_frame` and `encode_grpc_frame` (`src/vless_h2.rs`). A frame is a
flag, the length of a message in four bytes, and the message: a protobuf
field with the key of field one and the length of its payload as varints. The
body arrives in DATA chunks, cut anywhere.

The reader is compared with `frameAt`, which takes the numbers of a frame as
they are written.
-/

namespace Aerion.Vless.Grpc

open Lib Outcome Aerion.Net

def copyBufferLen : ℕ := 16 * 1024
def maxGrpcFrame : ℕ := 16 * 1024 * 1024

/-! ### The writer -/

def writeVarint (value : ℕ) : Bytes :=
  if 0x80 ≤ value then ((UInt8.ofNat value &&& 0x7f) ||| 0x80) :: writeVarint (value / 128)
  else [UInt8.ofNat value]
termination_by value
decreasing_by omega

def hunk (payload : Bytes) : Bytes := 0x0a :: writeVarint payload.length ++ payload

def encodeGrpcFrame (payload : Bytes) : Bytes := 0 :: toBe 4 (hunk payload).length ++ hunk payload

/-! ### The reader -/

structure Body where
  chunks : Segments
  /-- History variable: the most bytes the reader has held at once. -/
  peak : ℕ
  deriving DecidableEq, Repr

def hold (n : ℕ) : Stateful Body Unit := fun body => (.ok (), { body with peak := max body.peak n })

def readExact (n : ℕ) : Stateful Body (Option Bytes) := fun body =>
  (.ok (body.chunks.readExact n).1, { body with chunks := (body.chunks.readExact n).2 })

section
variable (mode : Overflow)

/-- `read_varint`, from the round that reads at `shift`. -/
def readVarintFrom (bytes : Bytes) (cursor shift : ℕ) (value : UInt64) : Outcome (UInt64 × ℕ) := do
  ensure (cursor < bytes.length) "truncated gRPC varint"
  let byte ← index bytes cursor
  let cursor ← addWord mode cursor 1
  let value := value ||| ((byte &&& 0x7f).toUInt64 <<< shift.toUInt64)
  if byte &&& 0x80 = 0 then
    return (value, cursor)
  if shift + 7 < 64 then readVarintFrom bytes cursor (shift + 7) value
  else .err "gRPC varint is too large"
termination_by 64 - shift

def readVarint (bytes : Bytes) (cursor : ℕ) : Outcome (UInt64 × ℕ) := readVarintFrom mode bytes cursor 0 0

/-- The payload of a message. A length fits `usize` here. -/
def decodeHunk (message : Bytes) : Outcome Bytes := do
  let (key, cursor) ← context "read gRPC hunk field key" (readVarint mode message 0)
  ensure (key = 0x0a) ("unsupported gRPC hunk field key " ++ hexText key.toNat)
  let (dataLen, cursor) ← context "read gRPC hunk length" (readVarint mode message cursor)
  let stop ← addWord mode cursor dataLen.toNat
  ensure (stop = message.length) "invalid gRPC hunk payload length"
  slice message cursor stop

def readMessage (header : Bytes) : Stateful Body Bytes := do
  let flag ← index header 0
  ensure (flag = 0) "compressed gRPC messages are not supported"
  let length := ofBe (header.drop 1)
  ensure (length ≤ maxGrpcFrame)
    ("gRPC frame length " ++ toString length ++ " exceeds " ++ toString maxGrpcFrame)
  hold (5 + length)
  let message ← readExact length
  let message ← need message "read gRPC frame payload"
  let payload ← decodeHunk mode message
  hold (5 + length + payload.length)
  return payload

def onHeader : Option Bytes → Stateful Body (Option Bytes)
  | none => return none
  | some header => do
    let payload ← readMessage mode header
    return some payload

/-- `read_grpc_frame`. The end of the body is the end of the frames, also inside a header. -/
def readGrpcFrame : Stateful Body (Option Bytes) := do
  hold 5
  let header ← readExact 5
  onHeader mode header

end

/-! ### Frames by their numbers -/

def messageAt (stream : Bytes) : Option Bytes :=
  let length := ofBe ((stream.drop 1).take 4)
  if 5 ≤ stream.length ∧ stream.head? = some 0 ∧ length ≤ maxGrpcFrame ∧ 5 + length ≤ stream.length then
    some ((stream.drop 5).take length)
  else none

/-- A message by the numbers of its varints, of ten bytes at most. -/
structure Hunk where
  key : ℕ
  len : ℕ
  payload : Bytes
  deriving DecidableEq, Repr

def hunkOf (message : Bytes) : Option Hunk := do
  let (key, rest) ← Varint.digits 9 message
  let (len, payload) ← Varint.digits 9 rest
  return ⟨key, len, payload⟩

/-- The key of field one, and the length of what follows. -/
def Hunk.WellFormed (h : Hunk) : Prop := h.key = 0x0a ∧ h.len = h.payload.length

instance (h : Hunk) : Decidable h.WellFormed := inferInstanceAs (Decidable (_ ∧ _))

def frameAt (stream : Bytes) : Option Bytes := do
  let message ← messageAt stream
  let h ← hunkOf message
  if h.WellFormed then some h.payload else none

/-- The reader does not panic, and rejects a stream that does not go on with a well-formed frame. -/
def Sound (mode : Overflow) (body : Body) : Prop :=
  (readGrpcFrame mode body).1 ≠ .panic ∧
    (body.chunks.flatten ≠ [] → frameAt body.chunks.flatten = none → ∃ e, (readGrpcFrame mode body).1 = .err e)

/-- The streams on which the reader is no laxer than the format. -/
structure Clear (mode : Overflow) (stream : Bytes) : Prop where
  /-- The stream does not end inside a header. -/
  header : stream = [] ∨ 5 ≤ stream.length
  /-- No number is taken for another one by the bits it loses. -/
  exact : ∀ message h, messageAt stream = some message → hunkOf message = some h →
    h.key % wordSize = 0x0a → h.len % wordSize = h.payload.length → h.WellFormed
  /-- A length added to its position stays in the word, where that is checked. -/
  fits : mode = .checked → ∀ message h, messageAt stream = some message → hunkOf message = some h →
    h.key % wordSize = 0x0a → message.length - h.payload.length + h.len % wordSize < wordSize

/-! ### The varints -/

section
variable {mode : Overflow}

theorem readVarintFrom_agree (bytes : Bytes) (cursor shift : ℕ) (value : UInt64) :
    Agree (readVarintFrom mode bytes cursor shift value) (Vless.readVarintFrom mode bytes cursor shift value) := by
  induction hleft : 64 - shift using Nat.strongRecOn generalizing cursor shift value with
  | _ left ih =>
    rw [readVarintFrom, Vless.readVarintFrom]
    by_cases hbyte : cursor < bytes.length
    · rw [ensure_pos (by simpa using hbyte), ensure_pos (by simpa using hbyte), ok_bind, ok_bind]
      cases index bytes cursor with
      | err e => exact .err e e
      | panic => exact .panic
      | ok byte =>
        rw [ok_bind, ok_bind]
        cases addWord mode cursor 1 with
        | err e => exact .err e e
        | panic => exact .panic
        | ok next =>
          rw [ok_bind, ok_bind]
          dsimp only
          split
          · exact .ok _
          · split
            · exact ih _ (by omega) _ _ _ rfl
            · exact .err _ _
    · rw [ensure_neg (by simpa using hbyte), ensure_neg (by simpa using hbyte)]
      exact .err _ _

variable {bytes : Bytes} {cursor n : ℕ} {rest : Bytes}

theorem readVarint_digits (hlen : bytes.length < wordSize)
    (h : Varint.digits 9 (bytes.drop cursor) = some (n, rest)) :
    ∃ v cursor', readVarint mode bytes cursor = .ok (v, cursor') ∧ v.toNat = n % wordSize ∧
      bytes.drop cursor' = rest ∧ cursor' ≤ bytes.length := by
  have htake : Varint.take (bytes.drop cursor) = some (n % wordSize, rest) := by rw [Varint.take, h]; rfl
  obtain ⟨v, cursor', hok, hv, hrest, -, hle⟩ := @Vless.readVarint_some mode _ hlen _ _ _ htake
  have hagree := @readVarintFrom_agree mode bytes cursor 0 0
  rw [show Vless.readVarintFrom mode bytes cursor 0 0 = .ok (v, cursor') from hok] at hagree
  exact ⟨v, cursor', hagree.eq_ok, hv, hrest, hle⟩

theorem readVarint_no_digits (hlen : bytes.length < wordSize) (h : Varint.digits 9 (bytes.drop cursor) = none) :
    ∃ e, readVarint mode bytes cursor = .err e := by
  have htake : Varint.take (bytes.drop cursor) = none := by rw [Varint.take, h]; rfl
  obtain ⟨e, herr⟩ := @Vless.readVarint_none mode _ hlen _ htake
  have hagree := @readVarintFrom_agree mode bytes cursor 0 0
  rw [show Vless.readVarintFrom mode bytes cursor 0 0 = .err e from herr] at hagree
  exact hagree.eq_err

theorem writeVarint_eq (n : ℕ) : writeVarint n = Varint.encode n := by
  induction n using Nat.strongRecOn with
  | _ n ih =>
    rw [writeVarint, Varint.encode]
    by_cases hlast : n < 128
    · rw [if_neg (by omega), if_pos hlast]
    · have hbyte : (UInt8.ofNat n &&& 0x7f) ||| 0x80 = UInt8.ofNat (n % 128 + 128) := by
        apply UInt8.toNat_inj.mp
        have hlow : (UInt8.ofNat n &&& 0x7f).toNat = n % 128 := by
          rw [low_bits, UInt8.toNat_ofNat']
          omega
        have hhigh : (0x80 : UInt8).toNat = 2 ^ 7 * 1 := rfl
        rw [UInt8.toNat_or, hlow, hhigh, Nat.or_comm,
          ← Nat.two_pow_add_eq_or_of_lt (show n % 128 < 2 ^ 7 by omega), UInt8.toNat_ofNat']
        omega
      rw [if_pos (by omega), if_neg hlast, ih (n / 128) (by omega), hbyte]

end

/-! ### One message -/

def verdict (mode : Overflow) (message : Bytes) : Outcome Bytes :=
  match hunkOf message with
  | none => .err ""
  | some h =>
    if h.key % wordSize ≠ 0x0a then .err ""
    else if message.length - h.payload.length + h.len % wordSize < wordSize then
      if h.len % wordSize = h.payload.length then .ok h.payload else .err ""
    else match mode with
      | .checked => .panic
      | .wrapping => .err ""

section
variable {mode : Overflow} {message : Bytes}

theorem decodeHunk_agree (hlen : message.length < wordSize) :
    Agree (decodeHunk mode message) (verdict mode message) := by
  unfold decodeHunk verdict hunkOf
  cases hkey : Varint.digits 9 message with
  | none =>
    obtain ⟨e, he⟩ := @readVarint_no_digits mode message 0 hlen hkey
    rw [he]
    exact .err _ _
  | some first =>
    obtain ⟨key, rest⟩ := first
    obtain ⟨v, cursor, hok, hv, hrest, hcursor⟩ := @readVarint_digits mode message 0 _ _ hlen hkey
    rw [hok]
    simp only [context, ok_bind, Option.bind_eq_bind, Option.bind_some]
    have hkeyed : v = 0x0a ↔ key % wordSize = 0x0a := by
      rw [← hv, ← UInt64.toNat_inj]
      rfl
    by_cases hten : key % wordSize = 0x0a
    · rw [ensure_pos (by simpa using hkeyed.mpr hten), ok_bind]
      cases hdigits : Varint.digits 9 rest with
      | none =>
        obtain ⟨e, he⟩ := @readVarint_no_digits mode message cursor hlen (hrest ▸ hdigits)
        rw [he]
        exact .err _ _
      | some second =>
        obtain ⟨len, payload⟩ := second
        obtain ⟨w, start, hok, hw, hpayload, hstart⟩ :=
          @readVarint_digits mode message cursor _ _ hlen (hrest ▸ hdigits)
        have htotal : message.length = start + payload.length := by
          rw [← hpayload, List.length_drop]
          omega
        have hposition : message.length - payload.length = start := by omega
        rw [hok]
        simp only [ok_bind, Option.bind_some, Option.pure_def, hw, hposition, hten, ne_eq, not_true_eq_false,
          if_false]
        by_cases hfits : start + len % wordSize < wordSize
        · rw [addWord_of_lt hfits, if_pos hfits, ok_bind]
          by_cases hexact : len % wordSize = payload.length
          · have hstop : start + len % wordSize = message.length := by omega
            rw [ensure_pos (by simpa using hstop), ok_bind, if_pos hexact, hstop,
              slice_ok.mpr ⟨hstart, Nat.le_refl _, rfl⟩, List.take_length, hpayload]
            exact .ok _
          · rw [ensure_neg (by rw [decide_eq_true_iff]; omega), if_neg hexact]
            exact .err _ _
        · unfold addWord
          rw [if_neg hfits, if_neg hfits]
          cases mode with
          | checked => exact .panic
          | wrapping =>
            -- The wrapped end lies before the start, and so is not the end of the message.
            have hlow : (start + len % wordSize) % wordSize < start := by
              have hmod : len % wordSize < wordSize := Nat.mod_lt _ (by decide)
              rw [Nat.mod_eq_sub_mod (by omega), Nat.mod_eq_of_lt (by omega)]
              omega
            rw [ok_bind, ensure_neg (by rw [decide_eq_true_iff]; omega)]
            exact .err _ _
    · rw [ensure_neg (by simpa using mt hkeyed.mp hten)]
      cases Varint.digits 9 rest with
      | none => exact .err _ _
      | some second =>
        simp only [Option.bind_some, Option.pure_def, ne_eq, hten, not_false_eq_true, if_true]
        exact .err _ _

end

/-! ### One frame -/

section
variable {mode : Overflow} {body : Body} {stream message : Bytes}

theorem hunkOf_length {h : Hunk} (hh : hunkOf message = some h) : h.payload.length ≤ message.length := by
  obtain ⟨⟨key, rest⟩, hkey, hh⟩ := Option.bind_eq_some_iff.mp hh
  obtain ⟨⟨len, payload⟩, hlen, hh⟩ := Option.bind_eq_some_iff.mp hh
  cases hh
  exact Nat.le_of_lt ((Varint.digits_length hlen).trans (Varint.digits_length hkey))

theorem verdict_length {payload : Bytes} (h : verdict mode message = .ok payload) :
    payload.length ≤ message.length := by
  unfold verdict at h
  split at h
  · cases h
  · rename_i hunk hhunk
    have hle := hunkOf_length hhunk
    split at h
    · cases h
    · split at h
      · split at h
        · cases h
          exact hle
        · cases h
      · split at h <;> cases h

theorem readMessage_eq (flag : UInt8) (lenBytes : Bytes) (body : Body) :
    readMessage mode (flag :: lenBytes) body =
      if flag = 0 then
        if ofBe lenBytes ≤ maxGrpcFrame then
          let next : Body :=
            ⟨(body.chunks.readExact (ofBe lenBytes)).2, max body.peak (5 + ofBe lenBytes)⟩
          match (body.chunks.readExact (ofBe lenBytes)).1 with
          | none => (.err "read gRPC frame payload", next)
          | some message => match decodeHunk mode message with
            | .ok payload =>
              (.ok payload, { next with peak := max next.peak (5 + ofBe lenBytes + payload.length) })
            | .err e => (.err e, next)
            | .panic => (.panic, next)
        else
          (.err ("gRPC frame length " ++ toString (ofBe lenBytes) ++ " exceeds " ++ toString maxGrpcFrame), body)
      else (.err "compressed gRPC messages are not supported", body) := by
  unfold readMessage
  change ((liftM (ensure (decide (flag = 0)) _) : Stateful Body Unit) >>= fun _ => _) body = _
  by_cases hflag : flag = 0
  · rw [if_pos hflag, ensure_pos (by simpa using hflag)]
    change ((liftM (ensure (decide (ofBe lenBytes ≤ maxGrpcFrame)) _) : Stateful Body Unit)
      >>= fun _ => _) body = _
    by_cases hlen : ofBe lenBytes ≤ maxGrpcFrame
    · rw [if_pos hlen, ensure_pos (by simpa using hlen)]
      dsimp only
      change ((liftM (need (body.chunks.readExact (ofBe lenBytes)).1 _) : Stateful Body Bytes)
        >>= fun _ => _) _ = _
      cases (body.chunks.readExact (ofBe lenBytes)).1 with
      | none => rfl
      | some message =>
        change ((liftM (decodeHunk mode message) : Stateful Body Bytes) >>= fun _ => _) _ = _
        dsimp only
        cases decodeHunk mode message with
        | ok payload => rfl
        | err e => rfl
        | panic => rfl
    · rw [if_neg hlen, ensure_neg (by simpa using hlen)]
      rfl
  · rw [if_neg hflag, ensure_neg (by simpa using hflag)]
    rfl

theorem readGrpcFrame_short (h : body.chunks.flatten.length < 5) : (readGrpcFrame mode body).1 = .ok none := by
  change (onHeader mode (body.chunks.readExact 5).1 _).1 = _
  rw [Segments.readExact_fst, if_neg (by omega)]
  rfl

theorem readGrpcFrame_header {flag : UInt8} {tail : Bytes} (h : body.chunks.flatten = flag :: tail)
    (hlen : 4 ≤ tail.length) :
    ∃ chunks : Segments, chunks.flatten = tail.drop 4 ∧
      (readGrpcFrame mode body).1 =
        (readMessage mode (flag :: tail.take 4) ⟨chunks, max body.peak 5⟩).1 >>= (fun p => .ok (some p)) ∧
      (readGrpcFrame mode body).2 = (readMessage mode (flag :: tail.take 4) ⟨chunks, max body.peak 5⟩).2 := by
  refine ⟨(body.chunks.readExact 5).2, ?_, ?_⟩
  · rw [Segments.readExact_snd, h]
    rfl
  · change (onHeader mode (body.chunks.readExact 5).1 _).1 = _ ∧
      (onHeader mode (body.chunks.readExact 5).1 _).2 = _
    rw [Segments.readExact_fst, h, if_pos (by rw [List.length_cons]; omega), List.take_succ_cons]
    change (Stateful.bind (readMessage mode (flag :: tail.take 4)) (fun payload => pure (some payload)) _).1 = _ ∧
      (Stateful.bind (readMessage mode (flag :: tail.take 4)) (fun payload => pure (some payload)) _).2 = _
    unfold Stateful.bind
    cases readMessage mode (flag :: tail.take 4) ⟨(body.chunks.readExact 5).2, max body.peak 5⟩ with
    | mk result next => cases result <;> exact ⟨rfl, rfl⟩

/-- The most a call can hold: a header, a message of the greatest length and a copy of its payload. -/
def readerBound : ℕ := 5 + 2 * maxGrpcFrame

theorem messageAt_cons {flag : UInt8} {tail : Bytes} (htail : 4 ≤ tail.length) :
    messageAt (flag :: tail) =
      if flag = 0 ∧ ofBe (tail.take 4) ≤ maxGrpcFrame ∧ ofBe (tail.take 4) ≤ (tail.drop 4).length then
        some ((tail.drop 4).take (ofBe (tail.take 4)))
      else none := by
  unfold messageAt
  simp only [List.length_cons, List.head?_cons, Option.some.injEq, List.drop_succ_cons, List.drop_zero,
    List.length_drop]
  refine if_congr ⟨?_, ?_⟩ rfl rfl
  · rintro ⟨-, hflag, hlen, hwhole⟩
    exact ⟨hflag, hlen, by omega⟩
  · rintro ⟨hflag, hlen, hwhole⟩
    exact ⟨by omega, hflag, hlen, by omega⟩

theorem readMessage_whole {lenBytes : Bytes} (hlen : ofBe lenBytes ≤ maxGrpcFrame)
    (hwhole : ofBe lenBytes ≤ body.chunks.flatten.length) :
    Agree (readMessage mode (0 :: lenBytes) body).1 (verdict mode (body.chunks.flatten.take (ofBe lenBytes))) ∧
      (readMessage mode (0 :: lenBytes) body).2.chunks.flatten = body.chunks.flatten.drop (ofBe lenBytes) ∧
      (readMessage mode (0 :: lenBytes) body).2.peak ≤ max body.peak readerBound := by
  have hlength : (body.chunks.flatten.take (ofBe lenBytes)).length = ofBe lenBytes := List.length_take_of_le hwhole
  have hword : maxGrpcFrame < wordSize := by decide
  have hagree := @decodeHunk_agree mode (body.chunks.flatten.take (ofBe lenBytes)) (by omega)
  have hchunks := Segments.readExact_snd (ofBe lenBytes) body.chunks
  rw [readMessage_eq, if_pos rfl, if_pos hlen]
  dsimp only
  rw [Segments.readExact_fst, if_pos hwhole]
  dsimp only
  have hbound : 5 + ofBe lenBytes ≤ readerBound := by unfold readerBound; omega
  cases hdecode : decodeHunk mode (body.chunks.flatten.take (ofBe lenBytes)) with
  | ok payload =>
    rw [hdecode] at hagree
    have hpayload : payload.length ≤ ofBe lenBytes := by
      rw [← hlength]
      exact verdict_length hagree.symm.eq_ok
    refine ⟨hagree, hchunks, ?_⟩
    dsimp only
    have hboth : 5 + ofBe lenBytes + payload.length ≤ readerBound := by unfold readerBound; omega
    omega
  | err e | panic =>
    rw [hdecode] at hagree
    exact ⟨hagree, hchunks, by dsimp only; omega⟩

theorem readMessage_short {flag : UInt8} {lenBytes : Bytes}
    (h : ¬(flag = 0 ∧ ofBe lenBytes ≤ maxGrpcFrame ∧ ofBe lenBytes ≤ body.chunks.flatten.length)) :
    (∃ e, (readMessage mode (flag :: lenBytes) body).1 = .err e) ∧
      (readMessage mode (flag :: lenBytes) body).2.peak ≤ max body.peak readerBound := by
  rw [readMessage_eq]
  by_cases hflag : flag = 0
  · rw [if_pos hflag]
    by_cases hlen : ofBe lenBytes ≤ maxGrpcFrame
    · have hbound : 5 + ofBe lenBytes ≤ readerBound := by unfold readerBound; omega
      rw [if_pos hlen]
      dsimp only
      rw [Segments.readExact_fst, if_neg fun hwhole => h ⟨hflag, hlen, hwhole⟩]
      exact ⟨⟨_, rfl⟩, by dsimp only; omega⟩
    · rw [if_neg hlen]
      exact ⟨⟨_, rfl⟩, Nat.le_max_left _ _⟩
  · rw [if_neg hflag]
    exact ⟨⟨_, rfl⟩, Nat.le_max_left _ _⟩

theorem readGrpcFrame_cases (mode : Overflow) (h : 5 ≤ body.chunks.flatten.length) :
    (messageAt body.chunks.flatten = none ∧ ∃ e, (readGrpcFrame mode body).1 = .err e) ∨
      ∃ message, messageAt body.chunks.flatten = some message ∧ message.length < wordSize ∧
        Agree (readGrpcFrame mode body).1 (verdict mode message >>= fun p => .ok (some p)) ∧
        (readGrpcFrame mode body).2.chunks.flatten = body.chunks.flatten.drop (5 + message.length) := by
  generalize hstream : body.chunks.flatten = stream at h
  obtain ⟨flag, tail, rfl⟩ : ∃ flag tail, stream = flag :: tail :=
    List.exists_cons_of_ne_nil (by rintro rfl; simp at h)
  have htail : 4 ≤ tail.length := by rw [List.length_cons] at h; omega
  obtain ⟨chunks, hchunks, hresult, hnext⟩ := @readGrpcFrame_header mode body flag tail hstream htail
  rw [hresult, hnext, messageAt_cons htail]
  by_cases hall : flag = 0 ∧ ofBe (tail.take 4) ≤ maxGrpcFrame ∧ ofBe (tail.take 4) ≤ (tail.drop 4).length
  · obtain ⟨rfl, hlen, hwhole⟩ := hall
    obtain ⟨hagree, hrest, -⟩ := @readMessage_whole mode ⟨chunks, max body.peak 5⟩ (tail.take 4) hlen
      (by rw [hchunks]; exact hwhole)
    dsimp only at hagree hrest
    rw [hchunks] at hagree hrest
    have hlength : ((tail.drop 4).take (ofBe (tail.take 4))).length = ofBe (tail.take 4) :=
      List.length_take_of_le hwhole
    have hword : maxGrpcFrame < wordSize := by decide
    refine .inr ⟨_, if_pos ⟨rfl, hlen, hwhole⟩, by omega, hagree.bind _, ?_⟩
    rw [hrest, hlength, List.drop_drop, show 5 + ofBe (tail.take 4) = (4 + ofBe (tail.take 4)) + 1 by omega,
      List.drop_succ_cons]
  · obtain ⟨⟨e, he⟩, -⟩ := @readMessage_short mode ⟨chunks, max body.peak 5⟩ flag (tail.take 4)
      (by rw [hchunks]; exact hall)
    exact .inl ⟨if_neg hall, e, by rw [he]; rfl⟩

theorem readGrpcFrame_peak (mode : Overflow) (body : Body) :
    (readGrpcFrame mode body).2.peak ≤ max body.peak readerBound := by
  have hheader : 5 ≤ readerBound := by decide
  rcases Nat.lt_or_ge body.chunks.flatten.length 5 with hshort | h
  · change (onHeader mode (body.chunks.readExact 5).1 _).2.peak ≤ _
    rw [Segments.readExact_fst, if_neg (by omega)]
    show max body.peak 5 ≤ _
    omega
  · generalize hstream : body.chunks.flatten = stream at h
    obtain ⟨flag, tail, rfl⟩ : ∃ flag tail, stream = flag :: tail :=
      List.exists_cons_of_ne_nil (by rintro rfl; simp at h)
    have htail : 4 ≤ tail.length := by rw [List.length_cons] at h; omega
    obtain ⟨chunks, hchunks, -, hnext⟩ := @readGrpcFrame_header mode body flag tail hstream htail
    have hpeak : (readMessage mode (flag :: tail.take 4) ⟨chunks, max body.peak 5⟩).2.peak ≤
        max (max body.peak 5) readerBound := by
      by_cases hall : flag = 0 ∧ ofBe (tail.take 4) ≤ maxGrpcFrame ∧ ofBe (tail.take 4) ≤ chunks.flatten.length
      · obtain ⟨rfl, hlen, hwhole⟩ := hall
        exact (@readMessage_whole mode ⟨chunks, max body.peak 5⟩ (tail.take 4) hlen hwhole).2.2
      · exact (@readMessage_short mode ⟨chunks, max body.peak 5⟩ flag (tail.take 4) hall).2
    rw [hnext]
    omega

end

/-! ### The frames of a stream -/

section
variable {mode : Overflow}

theorem verdict_sound_iff {message : Bytes} (hlen : message.length < wordSize) :
    (verdict mode message ≠ .panic ∧
        ((∀ h, hunkOf message = some h → ¬h.WellFormed) → ∃ e, verdict mode message = .err e)) ↔
      ∀ h, hunkOf message = some h → h.key % wordSize = 0x0a →
        (h.len % wordSize = h.payload.length → h.WellFormed) ∧
          (mode = .checked → message.length - h.payload.length + h.len % wordSize < wordSize) := by
  unfold verdict
  cases hhunk : hunkOf message with
  | none => exact ⟨fun _ _ => nofun, fun _ => ⟨nofun, fun _ => ⟨_, rfl⟩⟩⟩
  | some h =>
    have hpayload := hunkOf_length hhunk
    simp only [Option.some.injEq, forall_eq']
    by_cases hkey : h.key % wordSize = 0x0a
    · rw [if_neg (by simpa using hkey)]
      by_cases hfits : message.length - h.payload.length + h.len % wordSize < wordSize
      · rw [if_pos hfits]
        by_cases hexact : h.len % wordSize = h.payload.length
        · rw [if_pos hexact]
          refine ⟨fun hsound _ => ⟨fun _ => ?_, fun _ => hfits⟩, fun hclear => ⟨nofun, fun hbad => ?_⟩⟩
          · by_contra hbad
            obtain ⟨e, he⟩ := hsound.2 hbad
            cases he
          · exact absurd ((hclear hkey).1 hexact) hbad
        · rw [if_neg hexact]
          exact ⟨fun _ _ => ⟨fun h => absurd h hexact, fun _ => hfits⟩, fun _ => ⟨nofun, fun _ => ⟨_, rfl⟩⟩⟩
      · rw [if_neg hfits]
        cases mode with
        | checked => exact ⟨fun hsound => absurd rfl hsound.1, fun hclear => absurd ((hclear hkey).2 rfl) hfits⟩
        | wrapping =>
          -- An exact length would end within the message, and so within the word.
          refine ⟨fun _ _ => ⟨fun hexact => absurd ?_ hfits, nofun⟩, fun _ => ⟨nofun, fun _ => ⟨_, rfl⟩⟩⟩
          omega
    · rw [if_pos (by simpa using hkey)]
      exact ⟨fun _ h => absurd h hkey, fun _ => ⟨nofun, fun _ => ⟨_, rfl⟩⟩⟩

theorem frameAt_none_iff {stream message : Bytes} (h : messageAt stream = some message) :
    frameAt stream = none ↔ ∀ hunk, hunkOf message = some hunk → ¬hunk.WellFormed := by
  rw [frameAt, h, Option.bind_eq_bind, Option.bind_some]
  cases hunkOf message with
  | none => exact ⟨fun _ _ => nofun, fun _ => rfl⟩
  | some hunk =>
    rw [Option.bind_eq_bind, Option.bind_some]
    by_cases hformed : hunk.WellFormed
    · rw [if_pos hformed]
      exact ⟨nofun, fun hall => absurd hformed (hall hunk rfl)⟩
    · rw [if_neg hformed]
      exact ⟨fun _ _ heq => Option.some.inj heq ▸ hformed, fun _ => rfl⟩

theorem clear_of_no_message {stream : Bytes} (hnone : messageAt stream = none) :
    Clear mode stream ↔ stream = [] ∨ 5 ≤ stream.length := by
  refine ⟨Clear.header, fun hheader => ⟨hheader, fun _ _ hm => ?_, fun _ _ _ hm => ?_⟩⟩
  · rw [hnone] at hm
    cases hm
  · rw [hnone] at hm
    cases hm

theorem agree_sound_iff {result : Outcome (Option Bytes)} {judged : Outcome Bytes} {P : Prop}
    (h : Agree result (judged >>= fun p => .ok (some p))) :
    (result ≠ .panic ∧ (P → ∃ e, result = .err e)) ↔ judged ≠ .panic ∧ (P → ∃ e, judged = .err e) := by
  cases judged with
  | ok p =>
    rw [h.eq_ok]
    exact ⟨fun hs => ⟨nofun, fun hp => nomatch hs.2 hp⟩, fun hs => ⟨nofun, fun hp => nomatch hs.2 hp⟩⟩
  | err e =>
    obtain ⟨e', he⟩ := h.eq_err
    rw [he]
    exact ⟨fun _ => ⟨nofun, fun _ => ⟨e, rfl⟩⟩, fun _ => ⟨nofun, fun _ => ⟨e', rfl⟩⟩⟩
  | panic =>
    rw [h.eq_panic]
    exact ⟨fun hs => absurd rfl hs.1, fun hs => absurd rfl hs.1⟩

theorem sound_iff_clear (body : Body) : Sound mode body ↔ Clear mode body.chunks.flatten := by
  unfold Sound
  rcases Nat.lt_or_ge body.chunks.flatten.length 5 with hshort | hlong
  · have hnone : messageAt body.chunks.flatten = none := if_neg fun h => absurd h.1 (by omega)
    have hframe : frameAt body.chunks.flatten = none := by rw [frameAt, hnone]; rfl
    rw [clear_of_no_message hnone, readGrpcFrame_short hshort, hframe]
    constructor
    · rintro ⟨-, hrejects⟩
      by_contra hopen
      obtain ⟨e, he⟩ := hrejects (fun hnil => hopen (.inl hnil)) rfl
      cases he
    · rintro (hnil | hfive)
      · exact ⟨nofun, fun hne => absurd hnil hne⟩
      · omega
  · have hne : body.chunks.flatten ≠ [] := by
      intro hnil
      rw [hnil] at hlong
      cases hlong
    rcases readGrpcFrame_cases mode hlong with ⟨hnone, e, he⟩ | ⟨message, hmessage, hword, hagree, -⟩
    · rw [clear_of_no_message hnone, he]
      exact ⟨fun _ => .inr hlong, fun _ => ⟨nofun, fun _ _ => ⟨e, rfl⟩⟩⟩
    · rw [frameAt_none_iff hmessage]
      simp only [ne_eq, hne, not_false_eq_true, forall_const]
      rw [agree_sound_iff hagree, verdict_sound_iff hword]
      constructor
      · intro hclear
        refine ⟨.inr hlong, fun m h hm hh hkey => ?_, fun hmode m h hm hh hkey => ?_⟩
        · cases hmessage.symm.trans hm
          exact (hclear h hh hkey).1
        · cases hmessage.symm.trans hm
          exact (hclear h hh hkey).2 hmode
      · intro hclear h hh hkey
        exact ⟨hclear.exact message h hmessage hh hkey, fun hmode => hclear.fits hmode message h hmessage hh hkey⟩

-- What the writer produces.

theorem hunkOf_hunk {payload : Bytes} (h : payload.length < wordSize) :
    hunkOf (hunk payload) = some ⟨0x0a, payload.length, payload⟩ := by
  have hkey : Varint.digits 9 (hunk payload) = some (0x0a, writeVarint payload.length ++ payload) := by
    unfold hunk
    rw [List.cons_append, Varint.digits]
    rfl
  have hlen : Varint.digits 9 (writeVarint payload.length ++ payload) = some (payload.length, payload) := by
    rw [writeVarint_eq]
    exact Varint.digits_encode (Nat.lt_of_lt_of_le h (by decide)) payload
  rw [hunkOf, hkey, Option.bind_eq_bind, Option.bind_some]
  dsimp only
  rw [hlen]
  rfl

theorem hunk_length {payload : Bytes} (h : payload.length ≤ copyBufferLen) :
    (hunk payload).length ≤ maxGrpcFrame := by
  have hsmall : payload.length < 128 ^ (2 + 1) := Nat.lt_of_le_of_lt h (by decide)
  have hdigits := Varint.encode_length_le hsmall
  have hbound : copyBufferLen + 4 ≤ maxGrpcFrame := by decide
  unfold hunk
  rw [writeVarint_eq, List.length_append, List.length_cons]
  omega

theorem readGrpcFrame_encode {payload rest : Bytes} {body : Body} (h : payload.length ≤ copyBufferLen)
    (hbody : body.chunks.flatten = encodeGrpcFrame payload ++ rest) :
    (readGrpcFrame mode body).1 = .ok (some payload) ∧ (readGrpcFrame mode body).2.chunks.flatten = rest := by
  have hfits := hunk_length h
  have hmax : maxGrpcFrame < 256 ^ 4 := by decide
  have hword : copyBufferLen < wordSize := by decide
  have hlength : ofBe (toBe 4 (hunk payload).length) = (hunk payload).length :=
    ofBe_toBe (Nat.lt_of_le_of_lt hfits hmax)
  have hmessage : messageAt body.chunks.flatten = some (hunk payload) := by
    rw [hbody, encodeGrpcFrame, List.cons_append, List.cons_append, List.append_assoc,
      messageAt_cons (by rw [List.length_append, toBe_length]; omega)]
    rw [List.take_left' (toBe_length _ _), List.drop_left' (toBe_length _ _), hlength,
      if_pos ⟨rfl, hfits, by rw [List.length_append]; omega⟩, List.take_left]
  have hlong : 5 ≤ body.chunks.flatten.length := by
    rw [hbody, encodeGrpcFrame, List.length_append, List.cons_append, List.length_cons, List.length_append,
      toBe_length]
    omega
  rcases readGrpcFrame_cases mode hlong with ⟨hnone, -⟩ | ⟨message, hm, -, hagree, hrest⟩
  · rw [hmessage] at hnone
    cases hnone
  · cases hmessage.symm.trans hm
    have hverdict : verdict mode (hunk payload) = .ok payload := by
      have hpayload := hunkOf_length (hunkOf_hunk (Nat.lt_of_le_of_lt h hword))
      have hmod : payload.length % wordSize = payload.length := Nat.mod_eq_of_lt (Nat.lt_of_le_of_lt h hword)
      have hmaxWord : maxGrpcFrame < wordSize := by decide
      unfold verdict
      rw [hunkOf_hunk (Nat.lt_of_le_of_lt h hword)]
      dsimp only at hpayload ⊢
      rw [if_neg (by decide), hmod, if_pos (by omega), if_pos rfl]
    rw [hverdict] at hagree
    refine ⟨hagree.eq_ok, ?_⟩
    rw [hrest, hbody, encodeGrpcFrame, List.drop_left']
    rw [List.cons_append, List.length_cons, List.length_append, toBe_length]
    omega

theorem callResult_encoded {payloads : List Bytes} {body : Body}
    (h : ∀ payload ∈ payloads, payload.length ≤ copyBufferLen)
    (hbody : body.chunks.flatten = (payloads.map encodeGrpcFrame).flatten) (n : ℕ) :
    callResult (fun _ : Unit => readGrpcFrame mode) (fun _ => ()) body n = .ok payloads[n]? := by
  induction n generalizing payloads body with
  | zero =>
    cases payloads with
    | nil =>
      have hshort : body.chunks.flatten.length < 5 := by rw [hbody]; decide
      exact readGrpcFrame_short hshort
    | cons payload payloads =>
      rw [List.map_cons, List.flatten_cons] at hbody
      exact (readGrpcFrame_encode (h payload List.mem_cons_self) hbody).1
  | succ n ih =>
    rw [callResult_succ]
    cases payloads with
    | nil =>
      have hrest : (readGrpcFrame mode body).2.chunks.flatten = [] := by
        change (onHeader mode (body.chunks.readExact 5).1 _).2.chunks.flatten = _
        rw [Segments.readExact_fst, hbody, if_neg (by decide)]
        show (body.chunks.readExact 5).2.flatten = []
        rw [Segments.readExact_snd, hbody]
        rfl
      exact @ih [] _ nofun hrest
    | cons payload payloads =>
      rw [List.map_cons, List.flatten_cons] at hbody
      exact ih (fun p hp => h p (List.mem_cons_of_mem _ hp))
        (readGrpcFrame_encode (h payload List.mem_cons_self) hbody).2

theorem readerAfter_peak (body : Body) (n : ℕ) :
    (readerAfter (fun _ : Unit => readGrpcFrame mode) (fun _ => ()) body n).peak ≤ max body.peak readerBound := by
  induction n with
  | zero => exact Nat.le_max_left _ _
  | succ n ih =>
    have hstep := readGrpcFrame_peak mode (readerAfter (fun _ : Unit => readGrpcFrame mode) (fun _ => ()) body n)
    exact Nat.le_trans hstep (Nat.max_le.mpr ⟨ih, Nat.le_max_right _ _⟩)

end

/-- The reader gives back the payloads of the writer and holds a bounded number of bytes, whatever the
stream and its chunks are; it rejects every other stream exactly where none of its numbers loses bits,
no header is cut off and no checked addition leaves the word. -/
theorem grpc_reader_sound_iff (mode : Overflow) :
    (∀ (payloads : List Bytes) (body : Body), (∀ payload ∈ payloads, payload.length ≤ copyBufferLen) →
      body.chunks.flatten = (payloads.map encodeGrpcFrame).flatten →
      ∀ n, callResult (fun _ : Unit => readGrpcFrame mode) (fun _ => ()) body n = .ok payloads[n]?) ∧
    (∀ (body : Body) (n : ℕ), (readerAfter (fun _ : Unit => readGrpcFrame mode) (fun _ => ()) body n).peak ≤
      max body.peak readerBound) ∧
    ∀ body : Body, Sound mode body ↔ Clear mode body.chunks.flatten :=
  ⟨fun _ _ h hbody n => callResult_encoded h hbody n, readerAfter_peak, sound_iff_clear⟩

-- Streams on which the reader is laxer than the format, or panics.

def longFrame (last : UInt8) (digits : UInt8) : Bytes :=
  [0, 0, 0, 0, 11, 0x0a] ++ List.replicate 9 digits ++ [last]

/-- The end of the stream inside a header passes for the end of the frames, a length of 2^64 for zero,
and a length next to it panics where additions are checked. -/
theorem malformed_frames_pass :
    (readGrpcFrame .wrapping ⟨[[0]], 0⟩).1 = .ok none ∧ ¬Sound .wrapping ⟨[[0]], 0⟩ ∧
      ¬Sound .wrapping ⟨[longFrame 2 0x80], 0⟩ ∧ ¬Sound .checked ⟨[longFrame 1 0xff], 0⟩ := by
  refine ⟨rfl, fun h => ?_, fun h => ?_, fun h => ?_⟩
  · exact absurd ((sound_iff_clear _).mp h).header (by decide)
  · have hformed := ((sound_iff_clear _).mp h).exact ((longFrame 2 0x80).drop 5) ⟨0x0a, 2 ^ 64, []⟩
      (by decide +kernel) (by decide +kernel) (by decide) (by decide)
    exact absurd hformed.2 (by decide)
  · have hfits := ((sound_iff_clear _).mp h).fits rfl ((longFrame 1 0xff).drop 5) ⟨0x0a, 2 ^ 64 - 1, []⟩
      (by decide +kernel) (by decide +kernel) (by decide)
    exact absurd hfits (by decide)

theorem split_frames_read :
    callResult (fun _ : Unit => readGrpcFrame .checked) (fun _ => ())
      ⟨[[0, 0, 0], [0, 3, 0x0a, 1], [7, 0], [0, 0, 0, 2, 0x0a, 0]], 0⟩ 0 = .ok (some [7]) :=
  (grpc_reader_sound_iff .checked).1 [[7], []] _ (by decide) (by decide +kernel) 0

end Aerion.Vless.Grpc
