import Aerion.Lib.Steps
import Aerion.Net.ReplayHistory
import Aerion.Sudoku.Record
import Aerion.Sudoku.RoundTrip

/-!
# The server's handshake

`server_handshake` of `src/sudoku.rs`. What the client sends is tried under
the tables of every credential until the first record opens as a hello; its
timestamp is compared with the clock and its nonce with those seen in the last
two minutes. Core, the key exchange and the write of the answer are inputs
of a connection. Connections follow each other in the order in which they
reach the cache.
-/

namespace Aerion.Sudoku

open Lib Net Outcome

/-! ### Reading through the codec -/

structure Link (p : Primitives) where
  decoder : Decoder
  receiver : Receiver p

namespace Link

variable {p : Primitives}

def new (table : Table) (down packed : Bool) (base : Bytes) (method : String) : Link p :=
  ⟨.new table down packed, .new base method⟩

def feed (l : Link p) (wire : Bytes) : Outcome (Link p) := do
  let fed ← l.decoder.feed wire
  return ⟨fed.1, { l.receiver with decoded := l.receiver.decoded ++ fed.2 }⟩

def takeRecord (l : Link p) : Outcome (Option Bytes × Link p) := do
  let plain ← l.receiver.takeRecord.1
  return (plain, { l with receiver := l.receiver.takeRecord.2 })

def setPlain (l : Link p) (plain : Bytes) : Link p :=
  { l with receiver := { l.receiver with plain := plain } }

def prepend (l : Link p) (plain : Bytes) : Link p := l.setPlain (plain ++ l.receiver.plain)

/-- The loop of `read`, on what each read of the wire brings. -/
def readLoop (wires : List Bytes) (l : Link p) : Outcome (Bytes × Link p × List Bytes) :=
  let next := readLoopOf (fun l => (l.receiver.takeRecord.1, { l with receiver := l.receiver.takeRecord.2 }))
    feed (·.receiver.decoded) wires l
  (·, next.2) <$> next.1

theorem readLoop_nil (l : Link p) : readLoop [] l = do
    let taken ← l.takeRecord
    match taken.1 with
    | some (b :: plain) => return (b :: plain, taken.2, [])
    | _ =>
      ensure (taken.2.receiver.decoded = []) "truncated Sudoku record"
      return ([], taken.2, []) := by
  unfold readLoop takeRecord readLoopOf
  rcases l.receiver.takeRecord with ⟨(_ | _ | ⟨b, plain⟩) | e | _, r⟩
  iterate 2
    by_cases hnil : r.decoded = []
    · simp [hnil, ensure]
      rfl
    · simp [hnil, ensure]
      rfl
  iterate 3 rfl

theorem readLoop_cons (wire : Bytes) (wires : List Bytes) (l : Link p) : readLoop (wire :: wires) l = (do
    let taken ← l.takeRecord
    match taken.1 with
    | some (b :: plain) => return (b :: plain, taken.2, wire :: wires)
    | _ => taken.2.feed wire >>= readLoop wires) := by
  conv_lhs => unfold readLoop readLoopOf
  unfold takeRecord
  rcases l.receiver.takeRecord with ⟨(_ | _ | ⟨b, plain⟩) | e | _, r⟩
  iterate 2
    show _ = Link.feed ⟨l.decoder, r⟩ wire >>= readLoop wires
    dsimp only
    cases Link.feed ⟨l.decoder, r⟩ wire <;> rfl
  iterate 3 rfl

/-- `exact`: the link's plain bytes are set aside during each read. -/
def exact (length : ℕ) (l : Link p) (wires : List Bytes) : Outcome (Bytes × Link p × List Bytes) :=
  if length ≤ l.receiver.plain.length then
    .ok (l.receiver.plain.take length, l.setPlain (l.receiver.plain.drop length), wires)
  else
    match readLoop wires (l.setPlain []) with
    | .ok next =>
      if next.1 = [] then .err "truncated Sudoku control message"
      else exact length (next.2.1.setPlain (l.receiver.plain ++ next.1)) next.2.2
    | .err e => .err e
    | .panic => .panic
termination_by length - l.receiver.plain.length
decreasing_by
  rename_i hshort hnext
  have hpos : 0 < next.1.length := List.length_pos_iff.mpr hnext
  simp only [setPlain, List.length_append]
  omega

def kip (l : Link p) (wires : List Bytes) : Outcome (UInt8 × Bytes × Link p × List Bytes) := do
  let header ← l.exact 6 wires
  match header.1 with
  | [k, i, p, kind, high, low] =>
    ensure ([k, i, p] = [0x6b, 0x69, 0x70]) "invalid Sudoku KIP magic"
    let payload ← header.2.1.exact (ofBe [high, low]) header.2.2
    return (kind, payload)
  | _ => .panic

theorem exact_of_le {l : Link p} {n : ℕ} {wires : List Bytes}
    (h : n ≤ l.receiver.plain.length) :
    l.exact n wires =
      .ok (l.receiver.plain.take n, l.setPlain (l.receiver.plain.drop n), wires) := by
  rw [Link.exact, if_pos h]

theorem kip_plain {l : Link p} {kind high low : UInt8} {payload : Bytes}
    {wires : List Bytes} (hplain : l.receiver.plain = [0x6b, 0x69, 0x70, kind, high, low] ++ payload)
    (hlen : ofBe [high, low] = payload.length) :
    l.kip wires = .ok (kind, payload, l.setPlain [], wires) := by
  have hheader : l.exact 6 wires =
      .ok ([0x6b, 0x69, 0x70, kind, high, low], l.setPlain payload, wires) := by
    rw [exact_of_le (by rw [hplain]; simp), hplain]
    rfl
  have hpayload : (l.setPlain payload).exact payload.length wires = .ok (payload, l.setPlain [], wires) := by
    rw [exact_of_le (show payload.length ≤ payload.length from le_rfl)]
    simp [setPlain]
  unfold kip
  rw [hheader, ok_bind]
  dsimp only
  rw [ensure_pos (by decide), ok_bind, hlen, hpayload, ok_bind]
  rfl

end Link

/-! ### Candidates -/

structure Credential where
  value : String
  seed : String
  up : Bytes
  down : Bytes
  tables : List Table

structure Candidate (p : Primitives) where
  credential : Credential
  table : Table
  link : Link p

section

variable {p : Primitives}

def candidates (aead : String) (credentials : List Credential) : List (Candidate p) :=
  credentials.flatMap fun credential => credential.tables.map fun table =>
    ⟨credential, table, .new table false false credential.up aead⟩

inductive Verdict (p : Primitives) where
  | selected (c : Candidate p)
  | kept (c : Candidate p)
  | dropped

def Candidate.judge (c : Candidate p) (wire : Bytes) : Outcome (Verdict p) :=
  match c.link.feed wire >>= Link.takeRecord with
  | .ok (some plain, link) =>
    if plain.take 4 = [0x6b, 0x69, 0x70, 1] then
      .ok (.selected { c with link := link.prepend plain })
    else .ok .dropped
  | .ok (none, link) => .ok (.kept { c with link := link })
  | .err _ => .ok .dropped
  | .panic => .panic

def judgeAll (wire : Bytes) : List (Candidate p) → Outcome (Candidate p ⊕ List (Candidate p))
  | [] => .ok (.inr [])
  | c :: cs => do
    match ← c.judge wire with
    | .selected c => return .inl c
    | .kept c =>
      match ← judgeAll wire cs with
      | .inl selected => return .inl selected
      | .inr rest => return .inr (c :: rest)
    | .dropped => judgeAll wire cs

def select : List Bytes → List (Candidate p) → Outcome (Candidate p × List Bytes)
  | _, [] => .err "Sudoku client credential did not authenticate"
  | [], _ :: _ => .err "truncated Sudoku handshake"
  | wire :: wires, cs => do
    match ← judgeAll wire cs with
    | .inl c => return (c, wires)
    | .inr cs => select wires cs

end

/-! ### Connections -/

/-- A listener's options, its primitives and the wall clock at the instant zero. -/
structure Config (p : Primitives) where
  aead : String
  epoch : ℕ
  publicKey : Bytes → Bytes
  diffieHellman : Bytes → Bytes → Bytes
  contributory : Bytes → Bool
  bases : String → Bytes → Bytes → Outcome (Bytes × Bytes)

/-- `timestamp`: whole seconds. -/
def Config.timestamp {p : Primitives} (config : Config p) (at_ : Instant) : ℕ :=
  (at_ + config.epoch) / seconds 1

/-- A connection: the credentials it finds, what its reads bring, when it reads the clock and when
it asks the cache, and what core, the random source and the transport give it. -/
structure Connection where
  credentials : List Credential
  wires : List Bytes
  readAt : Instant
  at_ : Instant
  session : Outcome Unit
  secret : Outcome Bytes
  written : Outcome Unit

structure Hello (p : Primitives) where
  candidate : Candidate p
  bytes : Bytes

namespace Hello

variable {p : Primitives} (h : Hello p)

def timestamp : ℕ := ofBe (h.bytes.take 8)
def nonce : Bytes := (h.bytes.drop 16).take 16
def key : String × Bytes := (h.candidate.credential.seed, h.nonce)

end Hello

structure Accepted (p : Primitives) where
  hello : Hello p
  table : Table
  response : Bytes
  link : Link p
  down : Bytes
  readAt : Instant
  at_ : Instant

section

variable {p : Primitives} (config : Config p)

def readHello (e : Connection) : Outcome (Hello p) := do
  let selected ← select e.wires (candidates config.aead e.credentials)
  let kip ← selected.1.link.kip selected.2
  ensure (kip.1 = 1 ∧ (kip.2.1.length = 68 ∨ kip.2.1.length = 72)) "invalid Sudoku client hello"
  return ⟨{ selected.1 with link := kip.2.2.1 }, kip.2.1⟩

def freshHello (e : Connection) : Outcome (Hello p) := do
  let hello ← readHello config e
  ensure (config.timestamp e.readAt - hello.timestamp ≤ 60 ∧
    hello.timestamp - config.timestamp e.readAt ≤ 60) "expired Sudoku handshake"
  return hello

def Hello.answerTable (h : Hello p) : Outcome Table :=
  if h.bytes.length = 72 then
    need (h.candidate.credential.tables.find? (·.hint = UInt32.ofNat (ofBe (h.bytes.drop 68))))
      "unknown Sudoku table hint"
  else .ok h.candidate.table

def answer (e : Connection) (h : Hello p) : Outcome (Accepted p) := do
  let table ← h.answerTable
  e.session
  let secret ← e.secret
  let shared := config.diffieHellman secret ((h.bytes.drop 32).take 32)
  ensure (config.contributory shared) "invalid Sudoku client ECDH key"
  let response := h.nonce ++ config.publicKey secret ++ toBe 4 (ofBe ((h.bytes.drop 64).take 4) &&& 7)
  e.written
  let bases ← config.bases h.candidate.credential.seed shared h.nonce
  let link := { h.candidate.link with receiver := h.candidate.link.receiver.rekey bases.1 }
  return ⟨h, table, response, link, bases.2, e.readAt, e.at_⟩

/-- A listener: its cache and what became of its connections. -/
structure Listener (p : Primitives) where
  replays : ReplayCache (String × Bytes)
  results : List (Outcome (Accepted p))
  now : Instant

def handshakeReplays : ReplayCache (String × Bytes) := .new (seconds 120) 65536

def Listener.start (now : Instant) : Listener p := ⟨handshakeReplays, [], now⟩

def Listener.serverHandshake (s : Listener p) (e : Connection) :
    Outcome (Accepted p) × ReplayCache (String × Bytes) :=
  match freshHello config e with
  | .ok h =>
    match s.replays.checkAndStore h.key e.at_ with
    | (.ok _, replays) => (answer config e h, replays)
    | (.error .replayed, replays) => (.err "replayed Sudoku handshake", replays)
    | (.error .full, replays) => (.err "Sudoku replay cache is full", replays)
  | .err m => (.err m, s.replays)
  | .panic => (.panic, s.replays)

/-- A connection reaches the cache not before those served so far. -/
def Listener.step (s : Listener p) (e : Connection) : Option (Listener p) :=
  if e.readAt ≤ e.at_ ∧ s.now ≤ e.at_ then
    some ⟨(s.serverHandshake config e).2, s.results ++ [(s.serverHandshake config e).1], e.at_⟩
  else none

end

end Aerion.Sudoku
