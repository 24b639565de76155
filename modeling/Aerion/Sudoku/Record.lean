import Aerion.Lib.Words

/-!
# Sudoku records

The AEAD layer of a Sudoku connection (`src/sudoku/record.rs`). A record is a
length of two bytes, a header of epoch and sequence number and the
ciphertext; the header is the nonce. The sender counts its sequence number up
with each record and opens the next epoch, with its own key, after 32 MiB.
The ciphers and the key derivation are parameters.
-/

namespace Aerion.Sudoku

open Lib

inductive Algorithm where
  | aes
  | chaCha
  deriving DecidableEq, Repr

/-- The primitives of the record layer. The header is the nonce and the associated data of a
ciphertext, and the tag takes sixteen bytes. -/
structure Primitives where
  hmac : Bytes → Bytes → Bytes
  encrypt : Algorithm → Bytes → Bytes → Bytes → Bytes
  decrypt : Algorithm → Bytes → Bytes → Bytes → Option Bytes
  decrypt_encrypt : ∀ a key header message,
    decrypt a key header (encrypt a key header message) = some message
  encrypt_length : ∀ a key header message,
    (encrypt a key header message).length = message.length + 16

/-! ### Counters -/

structure Counter where
  epoch : UInt32
  seq : UInt64
  deriving DecidableEq, Repr

def Counter.header (c : Counter) : Bytes := toBe 4 c.epoch.toNat ++ toBe 8 c.seq.toNat

def Counter.ofHeader (header : Bytes) : Counter :=
  ⟨UInt32.ofNat (ofBe (header.take 4)), UInt64.ofNat (ofBe (header.drop 4))⟩

/-- The lexicographic order of headers. -/
def Counter.Before (a b : Counter) : Prop := a.epoch < b.epoch ∨ a.epoch = b.epoch ∧ a.seq < b.seq

instance (a b : Counter) : Decidable (a.Before b) := inferInstanceAs (Decidable (_ ∨ _))

/-- `seq.checked_add(1)`. -/
def Counter.nextSeq (c : Counter) : Option Counter :=
  if c.seq.toNat + 1 < 2 ^ 64 then some { c with seq := c.seq + 1 } else none

/-- `epoch.checked_add(1)`, from where the sequence starts over. -/
def Counter.nextEpoch (c : Counter) : Option Counter :=
  if c.epoch.toNat + 1 < 2 ^ 32 then some ⟨c.epoch + 1, 1⟩ else none

@[simp] theorem Counter.header_length (c : Counter) : c.header.length = 12 := by
  simp [Counter.header]

@[simp] theorem Counter.ofHeader_header (c : Counter) : ofHeader c.header = c := by
  have hepoch : ofBe (toBe 4 c.epoch.toNat) = c.epoch.toNat :=
    ofBe_toBe (by simpa using c.epoch.toNat_lt)
  have hseq : ofBe (toBe 8 c.seq.toNat) = c.seq.toNat :=
    ofBe_toBe (by simpa using c.seq.toNat_lt)
  simp [ofHeader, header, List.take_left', List.drop_left', hepoch, hseq]

theorem Counter.Before.trans {a b c : Counter} (h : a.Before b) (h' : b.Before c) : a.Before c := by
  unfold Before at *
  simp only [UInt32.lt_iff_toNat_lt, UInt64.lt_iff_toNat_lt, ← UInt32.toNat_inj] at *
  omega

theorem Counter.nextSeq_some {c d : Counter} (h : c.nextSeq = some d) :
    c.Before d ∧ d.epoch = c.epoch ∧ d.seq.toNat = c.seq.toNat + 1 := by
  unfold nextSeq at h
  split at h
  · rename_i hlt
    obtain rfl := Option.some.inj h
    have hseq : (c.seq + 1).toNat = c.seq.toNat + 1 := by
      rw [UInt64.toNat_add]
      exact Nat.mod_eq_of_lt hlt
    refine ⟨.inr ⟨rfl, ?_⟩, rfl, hseq⟩
    rw [UInt64.lt_iff_toNat_lt, hseq]
    exact Nat.lt_succ_self _
  · cases h

theorem Counter.nextEpoch_some {c d : Counter} (h : c.nextEpoch = some d) :
    c.Before d ∧ d.epoch.toNat = c.epoch.toNat + 1 := by
  unfold nextEpoch at h
  split at h
  · rename_i hlt
    obtain rfl := Option.some.inj h
    have hepoch : (c.epoch + 1).toNat = c.epoch.toNat + 1 := by
      rw [UInt32.toNat_add]
      exact Nat.mod_eq_of_lt hlt
    refine ⟨.inl ?_, hepoch⟩
    rw [UInt32.lt_iff_toNat_lt, hepoch]
    exact Nat.lt_succ_self _
  · cases h

/-! ### Ciphers -/

structure Cipher where
  algorithm : Algorithm
  key : Bytes
  deriving DecidableEq, Repr

def deriveCipher (p : Primitives) (base : Bytes) (method : String) (epoch : UInt32) :
    Outcome Cipher :=
  let key := p.hmac base
    ("sudoku-record:".toUTF8.toList ++ method.toUTF8.toList ++ toBe 4 epoch.toNat)
  if method = "aes-128-gcm" then .ok ⟨.aes, key.take 16⟩
  else if method = "chacha20-poly1305" then .ok ⟨.chaCha, key⟩
  else .err s!"unsupported Sudoku AEAD {method}"

theorem deriveCipher_ne_panic (p : Primitives) (base : Bytes) (method : String) (epoch : UInt32) :
    deriveCipher p base method epoch ≠ .panic := by
  unfold deriveCipher
  split
  · nofun
  · split <;> nofun

/-- `RecordCrypto`: the cipher it keeps is the one of its epoch under the base key. -/
structure RecordCrypto (p : Primitives) where
  base : Bytes
  method : String
  cipher : Option (UInt32 × Cipher)
  derived : ∀ epoch c, cipher = some (epoch, c) → deriveCipher p base method epoch = .ok c

namespace RecordCrypto

variable {p : Primitives}

def new (base : Bytes) (method : String) : RecordCrypto p := ⟨base, method, none, nofun⟩

def rekey (c : RecordCrypto p) (base : Bytes) : RecordCrypto p := ⟨base, c.method, none, nofun⟩

def select (c : RecordCrypto p) (epoch : UInt32) : Outcome Cipher × RecordCrypto p :=
  match c.cipher.filter (·.1 = epoch) with
  | some (_, cipher) => (.ok cipher, c)
  | none =>
    match h : deriveCipher p c.base c.method epoch with
    | .ok cipher => (.ok cipher, ⟨c.base, c.method, some (epoch, cipher), by
        rintro _ _ ⟨rfl, rfl⟩
        exact h⟩)
    | .err e => (.err e, c)
    | .panic => (.panic, c)

/-- `crypt` with its direction, which is all that follows the choice of the cipher. -/
def crypt (c : RecordCrypto p) (header : Bytes) (run : Cipher → Option Bytes) :
    Outcome Bytes × RecordCrypto p :=
  let selected := c.select (Counter.ofHeader header).epoch
  (selected.1 >>= fun cipher => Outcome.need (run cipher) "Sudoku record authentication failed",
    selected.2)

def encrypt (c : RecordCrypto p) (header input : Bytes) : Outcome Bytes × RecordCrypto p :=
  c.crypt header fun cipher => some (p.encrypt cipher.algorithm cipher.key header input)

def decrypt (c : RecordCrypto p) (header input : Bytes) : Outcome Bytes × RecordCrypto p :=
  c.crypt header fun cipher => p.decrypt cipher.algorithm cipher.key header input

/-- Two ends that derive the same ciphers. -/
def Agrees (c d : RecordCrypto p) : Prop := c.base = d.base ∧ c.method = d.method

theorem select_spec (c : RecordCrypto p) (epoch : UInt32) :
    (c.select epoch).1 = deriveCipher p c.base c.method epoch ∧ (c.select epoch).2.Agrees c := by
  unfold select
  split
  · rename_i cached cipher h
    obtain ⟨hkept, hepoch⟩ := Option.filter_eq_some_iff.mp h
    obtain rfl : cached = epoch := of_decide_eq_true hepoch
    exact ⟨(c.derived cached cipher hkept).symm, rfl, rfl⟩
  · split <;> rename_i h
    · exact ⟨h.symm, rfl, rfl⟩
    · exact ⟨h.symm, rfl, rfl⟩
    · exact ⟨h.symm, rfl, rfl⟩

theorem crypt_spec (c : RecordCrypto p) (header : Bytes) (run : Cipher → Option Bytes) :
    (c.crypt header run).1 =
        (deriveCipher p c.base c.method (Counter.ofHeader header).epoch >>= fun cipher =>
          Outcome.need (run cipher) "Sudoku record authentication failed") ∧
      (c.crypt header run).2.Agrees c := by
  obtain ⟨hcipher, hagrees⟩ := c.select_spec (Counter.ofHeader header).epoch
  refine ⟨?_, hagrees⟩
  rw [← hcipher]
  rfl

theorem crypt_ne_panic (c : RecordCrypto p) (header : Bytes) (run : Cipher → Option Bytes) :
    (c.crypt header run).1 ≠ .panic := by
  rw [(c.crypt_spec header run).1]
  exact Outcome.bind_ne_panic (deriveCipher_ne_panic _ _ _ _) fun _ _ => Outcome.need_ne_panic _ _

end RecordCrypto

/-! ### Records -/

structure Record where
  counter : Counter
  chunk : Bytes
  ciphertext : Bytes
  deriving DecidableEq, Repr

/-- `record_buffer`; the length is cast to its word. -/
def Record.bytes (r : Record) : Bytes :=
  toBe 2 ((12 + r.ciphertext.length) % 2 ^ 16) ++ r.counter.header ++ r.ciphertext

/-- The ciphertext of a chunk of the size `write` makes, under the key of the record's epoch. -/
structure Record.Authentic (p : Primitives) (base : Bytes) (method : String) (r : Record) : Prop where
  small : r.chunk.length ≤ 65507
  ciphertext : ∃ cipher, deriveCipher p base method r.counter.epoch = .ok cipher ∧
    r.ciphertext = p.encrypt cipher.algorithm cipher.key r.counter.header r.chunk

/-- A record as `write` makes it, which is not empty. -/
structure Record.Sealed (p : Primitives) (base : Bytes) (method : String) (r : Record) : Prop
    extends Record.Authentic p base method r where
  nonempty : r.chunk ≠ []

/-! ### The sender -/

structure Sender (p : Primitives) where
  crypto : RecordCrypto p
  counter : Counter
  bytes : ℕ

namespace Sender

variable {p : Primitives}

/-- `rekey` with the twelve random bytes it draws. -/
def rekey (s : Sender p) (base random : Bytes) : Sender p :=
  let drawn := Counter.ofHeader random
  { crypto := s.crypto.rekey base
    counter := ⟨max 1 (min drawn.epoch (0xffffffff - 1)), max 1 (min drawn.seq (0xffffffffffffffff - 1))⟩
    bytes := 0 }

/-- What `write` does after a chunk of `n` bytes is on the wire. -/
def account (mode : Overflow) (s : Sender p) (n : ℕ) : Outcome Unit × Sender p :=
  match addWord mode s.bytes n with
  | .ok bytes =>
    if 32 <<< 20 ≤ bytes then
      match s.counter.nextEpoch with
      | some counter => (.ok (), { s with counter := counter, bytes := 0 })
      | none => (.err "Sudoku epoch exhausted", { s with bytes := bytes })
    else (.ok (), { s with bytes := bytes })
  | .err e => (.err e, s)
  | .panic => (.panic, s)

/-- One turn of the loop of `write`, with the record it puts on the wire. -/
def writeChunk (mode : Overflow) (s : Sender p) (chunk : Bytes) :
    Outcome Unit × Sender p × List Record :=
  match s.crypto.encrypt s.counter.header chunk with
  | (.ok ciphertext, crypto) =>
    match s.counter.nextSeq with
    | some counter =>
      let counted := account mode { s with crypto := crypto, counter := counter } chunk.length
      (counted.1, counted.2, [⟨s.counter, chunk, ciphertext⟩])
    | none => (.err "Sudoku sequence exhausted", { s with crypto := crypto }, [])
  | (.err e, crypto) => (.err e, { s with crypto := crypto }, [])
  | (.panic, crypto) => (.panic, { s with crypto := crypto }, [])

def writeChunks (mode : Overflow) : List Bytes → Sender p → Outcome Unit × Sender p × List Record
  | [], s => (.ok (), s, [])
  | chunk :: chunks, s =>
    match s.writeChunk mode chunk with
    | (.ok _, s', sent) =>
      let rest := writeChunks mode chunks s'
      (rest.1, rest.2.1, sent ++ rest.2.2)
    | (result, s', sent) => (result, s', sent)

def write (mode : Overflow) (s : Sender p) (input : Bytes) : Outcome Unit × Sender p × List Record :=
  writeChunks mode (chunks 65507 input) s

def writeAll (mode : Overflow) : List Bytes → Sender p → List (Outcome Unit) × Sender p × List Record
  | [], s => ([], s, [])
  | input :: inputs, s =>
    let first := s.write mode input
    let rest := writeAll mode inputs first.2.1
    (first.1 :: rest.1, rest.2.1, first.2.2 ++ rest.2.2)

end Sender

/-! ### The receiver -/

/-- The loop of `read`, for a state that takes a record from its decoded bytes and is fed what a read
of the wire brings; the end of the reads is the end of the wire. A record without content is skipped
for more of the wire. -/
def readLoopOf {σ : Type} (take : σ → Outcome (Option Bytes) × σ) (feed : σ → Bytes → Outcome σ)
    (decoded : σ → Bytes) : List Bytes → σ → Outcome Bytes × σ × List Bytes
  | [], s =>
    match take s with
    | (.ok (some (b :: plain)), s) => (.ok (b :: plain), s, [])
    | (.ok _, s) =>
      if decoded s = [] then (.ok [], s, []) else (.err "truncated Sudoku record", s, [])
    | (.err e, s) => (.err e, s, [])
    | (.panic, s) => (.panic, s, [])
  | wire :: wires, s =>
    match take s with
    | (.ok (some (b :: plain)), s) => (.ok (b :: plain), s, wire :: wires)
    | (.ok _, s) =>
      match feed s wire with
      | .ok s => readLoopOf take feed decoded wires s
      | .err e => (.err e, s, wires)
      | .panic => (.panic, s, wires)
    | (.err e, s) => (.err e, s, wire :: wires)
    | (.panic, s) => (.panic, s, wire :: wires)

structure Receiver (p : Primitives) where
  decoded : Bytes
  plain : Bytes
  crypto : RecordCrypto p
  counter : Option Counter

namespace Receiver

variable {p : Primitives}

def new (base : Bytes) (method : String) : Receiver p := ⟨[], [], .new base method, none⟩

def rekey (r : Receiver p) (base : Bytes) : Receiver p :=
  { r with crypto := r.crypto.rekey base, counter := none }

def front (r : Receiver p) : Counter := .ofHeader ((r.decoded.drop 2).take 12)

/-- The check of a header against the counter: the next sequence number, or one of the next eight
epochs. -/
def Admits (expected : Option Counter) (c : Counter) : Prop :=
  ∀ e ∈ expected, c.epoch = e.epoch ∧ c.seq = e.seq ∨ e.epoch < c.epoch ∧ c.epoch - e.epoch ≤ 8

instance (expected : Option Counter) (c : Counter) : Decidable (Admits expected c) :=
  match expected with
  | none => .isTrue nofun
  | some e => decidable_of_iff
      (c.epoch = e.epoch ∧ c.seq = e.seq ∨ e.epoch < c.epoch ∧ c.epoch - e.epoch ≤ 8)
      (by simp [Admits])

def takeRecord (r : Receiver p) : Outcome (Option Bytes) × Receiver p :=
  if r.decoded.length < 2 then (.ok none, r)
  else
    let length := ofBe (r.decoded.take 2)
    if length < 28 then (.err "short Sudoku record", r)
    else if r.decoded.length < length + 2 then (.ok none, r)
    else if Admits r.counter r.front then
      match r.crypto.decrypt ((r.decoded.drop 2).take 12) ((r.decoded.take (length + 2)).drop 14) with
      | (.ok plain, crypto) =>
        match r.front.nextSeq with
        | some counter => (.ok (some plain),
            { r with crypto := crypto, counter := some counter, decoded := r.decoded.drop (length + 2) })
        | none => (.err "Sudoku sequence exhausted", { r with crypto := crypto })
      | (.err e, crypto) => (.err e, { r with crypto := crypto })
      | (.panic, crypto) => (.panic, { r with crypto := crypto })
    else (.err "replayed or out-of-order Sudoku record", r)

/-- `read` without a codec: the segments are what the codec makes of each read of the wire. -/
def readLoop : List Bytes → Receiver p → Outcome Bytes × Receiver p × List Bytes :=
  readLoopOf takeRecord (fun r segment => .ok { r with decoded := r.decoded ++ segment }) decoded

def read (r : Receiver p) (segments : List Bytes) : Outcome Bytes × Receiver p × List Bytes :=
  if r.plain = [] then readLoop segments r else (.ok r.plain, { r with plain := [] }, segments)

/-- The results of `n` calls of `read`. -/
def reads : ℕ → Receiver p → List Bytes → List (Outcome Bytes)
  | 0, _, _ => []
  | n + 1, r, segments =>
    let next := r.read segments
    next.1 :: reads n next.2.1 next.2.2

end Receiver

end Aerion.Sudoku
