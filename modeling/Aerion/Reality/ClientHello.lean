import Aerion.Lib.Words

/-!
# Peeking at a ClientHello

`peek_client_hello` and `parse_client_hello_prefix` (`src/reality.rs`). The
server looks at the bytes a client has sent without consuming them, and looks
again until they hold a whole ClientHello or cannot become one. A look sees
as many bytes as have arrived and fit the buffer, which grows to the size the
parser asks for.
-/

namespace Aerion.Reality

open Lib Lib.Outcome

def tlsContentTypeHandshake : UInt8 := 22
def tlsHandshakeTypeClientHello : UInt8 := 1
def tlsMaxRecordLen : ℕ := 65535

structure RawClientHello where
  peeked : Bytes
  handshake : Bytes
  deriving DecidableEq, Repr

inductive PrefixParse where
  | needMore (size : ℕ)
  | complete (hello : RawClientHello)
  deriving DecidableEq, Repr

/-- The handshake message as far as it has been read, and its length once its header is there. -/
structure Gathered where
  handshake : Bytes
  expected : Option ℕ

/-- The expected length, from the header of the message if it is not known yet. -/
def helloHeader (g : Gathered) (payload : Bytes) : Outcome (ℕ × Gathered × Bytes) :=
  match g.expected with
  | some expectedLen => .ok (expectedLen, g, payload)
  | none => do
    ensure (4 ≤ payload.length) "truncated REALITY ClientHello handshake header"
    ensure (payload.head? = some tlsHandshakeTypeClientHello)
      "REALITY expected ClientHello handshake message"
    let expectedLen := ofBe ((payload.drop 1).take 3) + 4
    return (expectedLen, ⟨g.handshake ++ payload.take 4, some expectedLen⟩, payload.drop 4)

/-- The payload of a record; true when the message is complete with it. Each turn but the last
uses up a byte at least, so the fuel is the length of the payload. -/
def gather : ℕ → Gathered → Bytes → Outcome (Bool × Gathered)
  | 0, g, _ => .ok (false, g)
  | fuel + 1, g, payload =>
    if payload.isEmpty then .ok (false, g)
    else do
      let (expectedLen, g, payload) ← helloHeader g payload
      let missing := expectedLen - g.handshake.length
      let taken := min missing payload.length
      let handshake := g.handshake ++ payload.take taken
      if handshake.length = expectedLen then return (true, ⟨handshake, g.expected⟩)
      else gather fuel ⟨handshake, g.expected⟩ (payload.drop taken)

/-- What a turn over a record comes to: the parser returns, or goes on behind the record. -/
inductive RecordParse where
  | stop (result : PrefixParse)
  | next (offset : ℕ) (g : Gathered)

def parseRecord (data : Bytes) (offset : ℕ) (g : Gathered) : Outcome RecordParse :=
  if data.length < offset + 5 then .ok (.stop (.needMore (offset + 5)))
  else do
    let recordHeader := (data.drop offset).take 5
    ensure (recordHeader.head? = some tlsContentTypeHandshake)
      "REALITY expected initial TLS handshake record"
    let recordLen := ofBe (recordHeader.drop 3)
    ensure (recordLen ≤ tlsMaxRecordLen) "REALITY TLS record is too large"
    let recordEnd := offset + 5 + recordLen
    if data.length < recordEnd then return .stop (.needMore recordEnd)
    else
      let payload := (data.drop (offset + 5)).take recordLen
      let (complete, g) ← gather payload.length g payload
      if complete then return .stop (.complete ⟨data.take recordEnd, g.handshake⟩)
      else return .next recordEnd g

/-- Record after record from the offset on. A record has five bytes at least, so one more than the
length of the data is fuel enough. -/
def parseRecords (data : Bytes) : ℕ → ℕ → Gathered → Outcome PrefixParse
  | 0, offset, _ => .ok (.needMore (offset + 5))
  | fuel + 1, offset, g => do
    match ← parseRecord data offset g with
    | .stop result => return result
    | .next offset g => parseRecords data fuel offset g

def parseClientHelloPrefix (data : Bytes) : Outcome PrefixParse :=
  parseRecords data (data.length + 1) 0 ⟨[], none⟩

/-! ### The loop of looks -/

/-- The task: looking, with a buffer of some size, or done. -/
inductive Peek where
  | looking (size : ℕ)
  | returned (hello : RawClientHello)
  | failed (message : String)
  | panicked
  deriving DecidableEq

/-- One turn of the loop, in which the socket holds the given bytes. A look waits for the first
byte, so it sees none only if the client closed without sending any. -/
def peekTurn (socket : Bytes) : Peek → Peek
  | .looking size =>
    let buffer := socket.take size
    if buffer.isEmpty then .failed "REALITY ClientHello stream closed"
    else
      match parseClientHelloPrefix buffer with
      | .ok (.complete hello) => .returned hello
      -- A buffer that is large enough already is looked at again after a pause.
      | .ok (.needMore wanted) => .looking (if size < wanted then wanted else size)
      | .err e => .failed e
      | .panic => .panicked
  | done => done

/-- `peek_client_hello` after some turns; in turn `n` that many bytes of `sent` have arrived. -/
def peekClientHello (sent : Bytes) (arrived : ℕ → ℕ) : ℕ → Peek
  | 0 => .looking 5
  | n + 1 => peekTurn (sent.take (arrived n)) (peekClientHello sent arrived n)

/-- The bytes arrive in any segments, and a look waits for the first of them. Looking takes nothing
out of the socket, so of a long message it may come to hold a beginning only. -/
structure Arrives (sent : Bytes) (arrived : ℕ → ℕ) : Prop where
  first : sent ≠ [] → ∀ n, 0 < arrived n
  mono : Monotone arrived

def Peek.Done (p : Peek) : Prop := ∀ size, p ≠ .looking size

/-! ### What the parser says stands -/

theorem slice_append {data : Bytes} {start n : ℕ} (tail : Bytes) (h : start + n ≤ data.length) :
    ((data ++ tail).drop start).take n = (data.drop start).take n := by
  rw [List.drop_append_of_le_length (by omega),
    List.take_append_of_le_length (by rw [List.length_drop]; omega)]

theorem parseRecord_cases (data : Bytes) (offset : ℕ) (g : Gathered) :
    (∃ size, data.length < size ∧ parseRecord data offset g = .ok (.stop (.needMore size))) ∨
      ((∀ tail, parseRecord (data ++ tail) offset g = parseRecord data offset g) ∧
        (∀ size, parseRecord data offset g ≠ .ok (.stop (.needMore size))) ∧
        ∀ offset' g', parseRecord data offset g = .ok (.next offset' g') →
          offset < offset' ∧ offset' ≤ data.length) := by
  by_cases hheader : data.length < offset + 5
  · exact .inl ⟨offset + 5, hheader, if_pos hheader⟩
  have happend (tail : Bytes) {n : ℕ} (hn : ¬ data.length < n) : ¬ (data ++ tail).length < n := by
    rw [List.length_append]
    omega
  have hslice (tail : Bytes) : ((data ++ tail).drop offset).take 5 = (data.drop offset).take 5 :=
    slice_append tail (by omega)
  simp only [parseRecord, if_neg hheader, if_neg (happend _ hheader), hslice]
  generalize (data.drop offset).take 5 = recordHeader
  by_cases htype : recordHeader.head? = some tlsContentTypeHandshake
  swap
  · rw [ensure_neg (by simpa using htype)]
    exact .inr ⟨fun _ => rfl, nofun, nofun⟩
  by_cases hlen : ofBe (recordHeader.drop 3) ≤ tlsMaxRecordLen
  swap
  · rw [ensure_pos (decide_eq_true htype), ensure_neg (by simpa using hlen)]
    exact .inr ⟨fun _ => rfl, nofun, nofun⟩
  rw [ensure_pos (decide_eq_true htype), ensure_pos (decide_eq_true hlen)]
  simp only [ok_bind]
  by_cases hend : data.length < offset + 5 + ofBe (recordHeader.drop 3)
  · rw [if_pos hend]
    exact .inl ⟨_, hend, rfl⟩
  · have hpayload (tail : Bytes) := @slice_append data (offset + 5) (ofBe (recordHeader.drop 3)) tail
      (by omega)
    have hfront (tail : Bytes) := @List.take_append_of_le_length _ data tail
      (offset + 5 + ofBe (recordHeader.drop 3)) (by omega)
    simp only [if_neg hend, if_neg (happend _ hend), hpayload, hfront]
    refine .inr ⟨fun _ => trivial, ?_, ?_⟩
    · intro size h
      obtain ⟨⟨complete, g'⟩, -, h⟩ := bind_ok.mp h
      cases complete <;> cases h
    · intro offset' g' h
      obtain ⟨⟨complete, g''⟩, -, h⟩ := bind_ok.mp h
      cases complete
      · cases h
        omega
      · cases h

def resume (data : Bytes) (fuel : ℕ) : RecordParse → Outcome PrefixParse
  | .stop result => .ok result
  | .next offset g => parseRecords data fuel offset g

theorem parseRecords_succ {data : Bytes} {fuel offset : ℕ} {g : Gathered} :
    parseRecords data (fuel + 1) offset g = parseRecord data offset g >>= resume data fuel := rfl

theorem parseRecords_cases {data : Bytes} {fuel offset : ℕ} {g : Gathered}
    (hfuel : data.length < offset + fuel) :
    (∃ size, data.length < size ∧ parseRecords data fuel offset g = .ok (.needMore size)) ∨
      ((∀ size, parseRecords data fuel offset g ≠ .ok (.needMore size)) ∧
        ∀ tail fuel', fuel ≤ fuel' →
          parseRecords (data ++ tail) fuel' offset g = parseRecords data fuel offset g) := by
  induction fuel generalizing offset g with
  | zero => exact .inl ⟨offset + 5, by omega, rfl⟩
  | succ fuel ih =>
    rcases parseRecord_cases data offset g with ⟨size, hsize, hmore⟩ | ⟨hstable, hnot, hnext⟩
    · exact .inl ⟨size, hsize, by rw [parseRecords, hmore]; rfl⟩
    · have hmore (tail : Bytes) {fuel' : ℕ} (hle : fuel + 1 ≤ fuel') :
          parseRecords (data ++ tail) fuel' offset g =
            parseRecord data offset g >>= resume (data ++ tail) (fuel' - 1) := by
        obtain ⟨n, rfl⟩ : ∃ n, fuel' = n + 1 := ⟨fuel' - 1, by omega⟩
        rw [parseRecords_succ, hstable tail]
        rfl
      rw [parseRecords_succ]
      cases hrecord : parseRecord data offset g with
      | err e => exact .inr ⟨nofun, fun tail fuel' hle => by rw [hmore tail hle, hrecord]; rfl⟩
      | panic => exact .inr ⟨nofun, fun tail fuel' hle => by rw [hmore tail hle, hrecord]; rfl⟩
      | ok step =>
        cases step with
        | stop result =>
          refine .inr ⟨fun size h => ?_, fun tail fuel' hle => by rw [hmore tail hle, hrecord]; rfl⟩
          cases h
          exact hnot size hrecord
        | next offset' g' =>
          obtain ⟨hlt, hle⟩ := hnext offset' g' hrecord
          refine (@ih offset' g' (by omega)).imp id fun ⟨hdecided, hsame⟩ => ⟨hdecided, ?_⟩
          intro tail fuel' hfuel'
          rw [hmore tail hfuel', hrecord]
          exact hsame tail (fuel' - 1) (by omega)

theorem needMore_size {data : Bytes} {size : ℕ}
    (h : parseClientHelloPrefix data = .ok (.needMore size)) : data.length < size := by
  rcases @parseRecords_cases data (data.length + 1) 0 ⟨[], none⟩ (by omega) with
    ⟨size', hsize, hmore⟩ | ⟨hnot, -⟩
  · rw [parseClientHelloPrefix, hmore] at h
    cases h
    exact hsize
  · exact absurd h (hnot size)

theorem parse_append {data : Bytes} (tail : Bytes)
    (h : ∀ size, parseClientHelloPrefix data ≠ .ok (.needMore size)) :
    parseClientHelloPrefix (data ++ tail) = parseClientHelloPrefix data := by
  rcases @parseRecords_cases data (data.length + 1) 0 ⟨[], none⟩ (by omega) with
    ⟨size, -, hmore⟩ | ⟨-, hsame⟩
  · exact absurd hmore (h size)
  · exact hsame tail _ (by rw [List.length_append]; omega)

theorem needMore_take {data : Bytes} {size : ℕ}
    (h : parseClientHelloPrefix data = .ok (.needMore size)) (n : ℕ) :
    ∃ size, parseClientHelloPrefix (data.take n) = .ok (.needMore size) := by
  by_contra hnot
  have hsame := parse_append (data.drop n) (fun size hsize => hnot ⟨size, hsize⟩)
  rw [List.take_append_drop, h] at hsame
  exact hnot ⟨size, hsame.symm⟩

theorem helloHeader_ne_panic (g : Gathered) (payload : Bytes) : helloHeader g payload ≠ .panic := by
  unfold helloHeader
  split
  · nofun
  · exact bind_ne_panic (ensure_ne_panic _ _) fun _ _ =>
      bind_ne_panic (ensure_ne_panic _ _) fun _ _ => nofun

theorem gather_ne_panic (fuel : ℕ) (g : Gathered) (payload : Bytes) : gather fuel g payload ≠ .panic := by
  induction fuel generalizing g payload with
  | zero => nofun
  | succ fuel ih =>
    rw [gather]
    split_ifs
    · nofun
    · refine bind_ne_panic (helloHeader_ne_panic g payload) fun header _ => ?_
      dsimp only
      split_ifs
      · nofun
      · exact ih _ _

theorem parseRecord_ne_panic (data : Bytes) (offset : ℕ) (g : Gathered) :
    parseRecord data offset g ≠ .panic := by
  unfold parseRecord
  split_ifs
  · nofun
  · refine bind_ne_panic (ensure_ne_panic _ _) fun _ _ => bind_ne_panic (ensure_ne_panic _ _) fun _ _ => ?_
    dsimp only
    split_ifs
    · nofun
    · refine bind_ne_panic (gather_ne_panic _ _ _) fun gathered _ => ?_
      split_ifs <;> nofun

theorem parse_ne_panic (data : Bytes) : parseClientHelloPrefix data ≠ .panic := by
  have hrecords (fuel offset : ℕ) (g : Gathered) : parseRecords data fuel offset g ≠ .panic := by
    induction fuel generalizing offset g with
    | zero => nofun
    | succ fuel ih =>
      refine bind_ne_panic (parseRecord_ne_panic data offset g) fun step _ => ?_
      cases step with
      | stop result => nofun
      | next offset g => exact ih offset g
  exact hrecords _ _ _

/-! ### When the loop ends -/

/-- The bytes are some, and what the socket comes to hold of them ends inside the ClientHello. -/
def Unfinished (sent : Bytes) (arrived : ℕ → ℕ) : Prop :=
  sent ≠ [] ∧ ∀ n, ∃ size, parseClientHelloPrefix (sent.take (arrived n)) = .ok (.needMore size)

theorem peekTurn_done {socket : Bytes} {p : Peek} (h : p.Done) : (peekTurn socket p).Done := by
  cases p with
  | looking size => exact absurd rfl (h size)
  | returned hello => exact h
  | failed message => exact h
  | panicked => exact h

theorem looking_forever {sent : Bytes} {arrived : ℕ → ℕ} (h : Unfinished sent arrived)
    (hsome : ∀ n, 0 < arrived n) (n : ℕ) : ∃ size, 5 ≤ size ∧ peekClientHello sent arrived n = .looking size := by
  induction n with
  | zero => exact ⟨5, Nat.le_refl 5, rfl⟩
  | succ n ih =>
    obtain ⟨size, hsize, hlooking⟩ := ih
    have hnonempty : ((sent.take (arrived n)).take size).isEmpty = false := by
      have := hsome n
      have := List.length_pos_of_ne_nil h.1
      rw [List.isEmpty_eq_false_iff, ← List.length_pos_iff_ne_nil, List.length_take, List.length_take]
      omega
    obtain ⟨_, hmore⟩ := h.2 n
    obtain ⟨wanted, hwanted⟩ := needMore_take hmore size
    refine ⟨if size < wanted then wanted else size, by split_ifs <;> omega, ?_⟩
    rw [peekClientHello, hlooking]
    simp only [peekTurn, hnonempty, Bool.false_eq_true, if_false, hwanted]

/-- While the socket holds bytes that decide, a turn ends the loop or asks for more of them. -/
theorem peekTurn_grows {held : Bytes} (h : ∀ size, parseClientHelloPrefix held ≠ .ok (.needMore size))
    (tail : Bytes) (size : ℕ) :
    (peekTurn (held ++ tail) (.looking size)).Done ∨
      ∃ size', size < size' ∧ size < held.length ∧ peekTurn (held ++ tail) (.looking size) = .looking size' := by
  by_cases hempty : ((held ++ tail).take size).isEmpty = true
  · left
    simp only [peekTurn, if_pos hempty]
    nofun
  · cases hparse : parseClientHelloPrefix ((held ++ tail).take size) with
    | err e | panic =>
      left
      simp only [peekTurn, if_neg hempty, hparse]
      nofun
    | ok result =>
      cases result with
      | complete hello =>
        left
        simp only [peekTurn, if_neg hempty, hparse]
        nofun
      | needMore wanted =>
        right
        have hwanted := needMore_size hparse
        have hlong : size < held.length := by
          by_contra hshort
          rw [List.take_append, List.take_of_length_le (by omega), parse_append _ h] at hparse
          exact h wanted hparse
        rw [List.length_take, List.length_append, Nat.min_eq_left (by omega)] at hwanted
        refine ⟨wanted, hwanted, hlong, ?_⟩
        simp only [peekTurn, if_neg hempty, hparse, if_pos hwanted]

theorem peek_ne_panicked (sent : Bytes) (arrived : ℕ → ℕ) (n : ℕ) :
    peekClientHello sent arrived n ≠ .panicked := by
  induction n with
  | zero => nofun
  | succ n ih =>
    rw [peekClientHello]
    cases hp : peekClientHello sent arrived n with
    | panicked => exact absurd hp ih
    | returned hello => nofun
    | failed message => nofun
    | looking size =>
      dsimp only [peekTurn]
      split_ifs
      · nofun
      · have hparse := parse_ne_panic ((sent.take (arrived n)).take size)
        split
        · nofun
        · nofun
        · nofun
        · contradiction

theorem peek_cases (p : Peek) : p.Done ∨ ∃ size, p = .looking size := by
  cases p with
  | looking size => exact .inr ⟨size, rfl⟩
  | returned hello => exact .inl nofun
  | failed message => exact .inl nofun
  | panicked => exact .inl nofun

section
variable {sent : Bytes} {arrived : ℕ → ℕ} (hmono : Monotone arrived) {n : ℕ}
  (h : ∀ size, parseClientHelloPrefix (sent.take (arrived n)) ≠ .ok (.needMore size))
include hmono h

/-- From the moment the socket holds bytes that decide, a turn ends the loop or its buffer grows. -/
theorem turn_after_held {m size : ℕ} (hm : n ≤ m) (hlooking : peekClientHello sent arrived m = .looking size) :
    (peekClientHello sent arrived (m + 1)).Done ∨
      ∃ size', size < size' ∧ size < (sent.take (arrived n)).length ∧
        peekClientHello sent arrived (m + 1) = .looking size' := by
  have hheld : (sent.take (arrived m)).take (arrived n) = sent.take (arrived n) := by
    rw [List.take_take, Nat.min_eq_left (hmono hm)]
  have hgrows := peekTurn_grows h ((sent.take (arrived m)).drop (arrived n)) size
  rw [← hheld, List.take_append_drop, hheld] at hgrows
  rw [peekClientHello, hlooking]
  exact hgrows

theorem done_after_held (k : ℕ) :
    (peekClientHello sent arrived (n + k)).Done ∨
      ∃ size, k ≤ size ∧ peekClientHello sent arrived (n + k) = .looking size := by
  induction k with
  | zero => exact (peek_cases _).imp id fun ⟨size, hlooking⟩ => ⟨size, Nat.zero_le _, hlooking⟩
  | succ k ih =>
    rcases ih with hdone | ⟨size, hk, hlooking⟩
    · exact .inl (peekTurn_done hdone)
    · rcases turn_after_held hmono h (Nat.le_add_right n k) hlooking with hdone | ⟨size', hsize, -, hlooking'⟩
      · exact .inl hdone
      · exact .inr ⟨size', by omega, hlooking'⟩

theorem done_in_the_end : ∃ m, (peekClientHello sent arrived m).Done := by
  -- a buffer as large as those bytes would show the parser all of them
  rcases done_after_held hmono h (sent.take (arrived n)).length with hdone | ⟨size, hsize, hlooking⟩
  · exact ⟨_, hdone⟩
  · rcases turn_after_held hmono h (Nat.le_add_right _ _) hlooking with hdone | ⟨_, -, hlong, -⟩
    · exact ⟨_, hdone⟩
    · omega

end

theorem Peek.Done.ended {sent : Bytes} {arrived : ℕ → ℕ} {n : ℕ} (h : (peekClientHello sent arrived n).Done) :
    (∃ hello, peekClientHello sent arrived n = .returned hello) ∨
      ∃ message, peekClientHello sent arrived n = .failed message := by
  cases hp : peekClientHello sent arrived n with
  | looking size => exact absurd hp (h size)
  | returned hello => exact .inl ⟨hello, rfl⟩
  | failed message => exact .inr ⟨message, rfl⟩
  | panicked => exact absurd hp (peek_ne_panicked _ _ _)

/-- Looking at a ClientHello ends, with the ClientHello or an error, unless all that the socket ever
holds is a part of one. -/
theorem peek_ends_iff (sent : Bytes) (arrived : ℕ → ℕ) (h : Arrives sent arrived) :
    (∃ n, (∃ hello, peekClientHello sent arrived n = .returned hello) ∨
        ∃ message, peekClientHello sent arrived n = .failed message) ↔
      (sent = [] ∨ ∃ n, ∀ size, parseClientHelloPrefix (sent.take (arrived n)) ≠ .ok (.needMore size)) := by
  constructor
  · rintro ⟨n, hdone⟩
    by_contra hnot
    rw [not_or, not_exists] at hnot
    have hpart : Unfinished sent arrived := ⟨hnot.1, fun n => by simpa using hnot.2 n⟩
    obtain ⟨size, -, hlooking⟩ := looking_forever hpart (h.first hpart.1) n
    rw [hlooking] at hdone
    rcases hdone with ⟨hello, hdone⟩ | ⟨message, hdone⟩ <;> cases hdone
  · rintro (rfl | ⟨n, hheld⟩)
    · exact ⟨1, .inr ⟨_, by rw [peekClientHello, List.take_nil]; rfl⟩⟩
    · obtain ⟨m, hdone⟩ := done_in_the_end h.mono hheld
      exact ⟨m, hdone.ended⟩

/-- One byte and the end of the stream. -/
theorem one_byte_looked_at_forever :
    Arrives [22] (fun _ => 1) ∧ ∀ n, ∃ size, peekClientHello [22] (fun _ => 1) n = .looking size := by
  refine ⟨⟨fun _ _ => Nat.one_pos, monotone_const⟩, fun n => ?_⟩
  have hpart : Unfinished [22] (fun _ => 1) := ⟨by decide, fun _ => ⟨5, rfl⟩⟩
  obtain ⟨size, -, hlooking⟩ := looking_forever hpart (fun _ => Nat.one_pos) n
  exact ⟨size, hlooking⟩

/-- An empty ClientHello that arrives byte by byte is returned or refused. -/
theorem whole_hello_ends :
    ∃ n, (∃ hello, peekClientHello [22, 3, 1, 0, 4, 1, 0, 0, 0] (· + 1) n = .returned hello) ∨
      ∃ message, peekClientHello [22, 3, 1, 0, 4, 1, 0, 0, 0] (· + 1) n = .failed message := by
  have harrives : Arrives [22, 3, 1, 0, 4, 1, 0, 0, 0] (· + 1) :=
    ⟨fun _ n => Nat.succ_pos n, fun _ _ hle => Nat.succ_le_succ hle⟩
  refine (peek_ends_iff _ _ harrives).mpr (.inr ⟨8, ?_⟩)
  have hparse : parseClientHelloPrefix ([22, 3, 1, 0, 4, 1, 0, 0, 0].take 9) =
      .ok (.complete ⟨[22, 3, 1, 0, 4, 1, 0, 0, 0], [1, 0, 0, 0]⟩) := by decide +kernel
  rw [hparse]
  nofun

end Aerion.Reality
