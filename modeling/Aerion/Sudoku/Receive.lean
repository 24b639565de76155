import Aerion.Sudoku.Handshake
import Aerion.Sudoku.RecordStream

/-!
# What a receiver returns, and when

`Receiver::read` of `src/sudoku/record.rs` takes one record from what was
decoded and reads the wire if that record is not there, or is empty. At the
end of the wire it looks at the decoded bytes but not at what the decoder
holds of a byte to come.
-/

namespace Aerion.Sudoku

open Lib Outcome

/-! ### Calls of `read` -/

namespace Link

variable {p : Primitives}

def read (l : Link p) (wires : List Bytes) : Outcome (Bytes × Link p × List Bytes) :=
  if l.receiver.plain = [] then readLoop wires l else .ok (l.receiver.plain, l.setPlain [], wires)

/-- What calls of `read` return until one returns nothing or fails, each with the number of reads of
the wire that are still to come, and whether the end was clean. -/
inductive Drained : Link p → List Bytes → List (Bytes × ℕ) → Bool → Prop
  | more : l.read wires = .ok (plain, l', wires') → plain ≠ [] → Drained l' wires' returned clean →
      Drained l wires ((plain, wires'.length) :: returned) clean
  | clean : l.read wires = .ok ([], l', wires') → Drained l wires [] true
  | failed : l.read wires = .err e → Drained l wires [] false

theorem Drained.unique {l : Link p} {wires : List Bytes} {x y : List (Bytes × ℕ)} {b c : Bool}
    (h : Drained l wires x b) (h' : Drained l wires y c) : x = y ∧ b = c := by
  induction h generalizing y c with
  | more hread hplain _ ih =>
    cases h' with
    | more hread' _ hrest =>
      cases hread.symm.trans hread'
      obtain ⟨rfl, rfl⟩ := ih hrest
      exact ⟨rfl, rfl⟩
    | clean hread' =>
      cases hread.symm.trans hread'
      exact absurd rfl hplain
    | failed hread' => cases hread.symm.trans hread'
  | clean hread =>
    cases h' with
    | more hread' hplain _ =>
      cases hread.symm.trans hread'
      exact absurd rfl hplain
    | clean _ => exact ⟨rfl, rfl⟩
    | failed hread' => cases hread.symm.trans hread'
  | failed hread =>
    cases h' with
    | more hread' _ _ => cases hread.symm.trans hread'
    | clean hread' => cases hread.symm.trans hread'
    | failed _ => exact ⟨rfl, rfl⟩

theorem Drained.of_read_eq {l l' : Link p} {wires wires' : List Bytes} {x : List (Bytes × ℕ)} {b : Bool}
    (heq : l.read wires = l'.read wires') (h : Drained l' wires' x b) : Drained l wires x b := by
  cases h with
  | more hread hplain hrest => exact .more (heq.trans hread) hplain hrest
  | clean hread => exact .clean (heq.trans hread)
  | failed hread => exact .failed (heq.trans hread)

end Link

/-! ### What arrives -/

inductive Feeds : Decoder → List Bytes → List Bytes → Decoder → Prop
  | nil : Feeds d [] [] d
  | cons {d mid d' : Decoder} {wire out : Bytes} {wires outs : List Bytes} :
      d.feed wire = .ok (mid, out) → Feeds mid wires outs d' → Feeds d (wire :: wires) (out :: outs) d'

/-- Each read of the wire brings some bytes, since a read of none is its end. -/
structure Reads (d : Decoder) (wires outs : List Bytes) (d' : Decoder) : Prop where
  feeds : Feeds d wires outs d'
  nonempty : ∀ wire ∈ wires, wire ≠ []

/-- Authentic records that a receiver admits one after the other. -/
inductive Follows (p : Primitives) (base : Bytes) (method : String) : Option Counter → List Record → Prop
  | nil : Follows p base method expected []
  | cons : Receiver.Admits expected r.counter → r.counter.nextSeq = some next →
      r.Authentic p base method → Follows p base method (some next) records →
      Follows p base method expected (r :: records)

/-- The records that are whole in `n` bytes, the records behind them and the bytes of these. -/
def wholeRecords : List Record → ℕ → List Record × List Record × ℕ
  | [], n => ([], [], n)
  | r :: records, n =>
    if r.bytes.length ≤ n then
      let rest := wholeRecords records (n - r.bytes.length)
      (r :: rest.1, rest.2)
    else ([], r :: records, n)

/-- The records that each read of the wire completes, and how much of a record is there at the end. -/
def batches : List Record → ℕ → List Bytes → List (List Record) × ℕ
  | _, n, [] => ([], n)
  | records, n, out :: outs =>
    let arrived := wholeRecords records (n + out.length)
    let later := batches arrived.2.1 arrived.2.2 outs
    (arrived.1 :: later.1, later.2)

def Record.full (r : Record) : Bool := r.chunk ≠ []

/-- The plaintexts in order, each when its record is there. -/
def prompt : List (List Record) → List (Bytes × ℕ)
  | [] => []
  | batch :: later => ((batch.filter Record.full).map fun r => (r.chunk, later.length)) ++ prompt later

/-! ### The pace -/

/-- No full record stands behind an empty one. -/
def InOrder (records : List Record) : Prop := ∀ r ∈ records.dropWhile Record.full, r.full = false

instance (records : List Record) : Decidable (InOrder records) :=
  inferInstanceAs (Decidable (∀ r ∈ records.dropWhile Record.full, r.full = false))

/-- Of records that are there, those that wait for the next read of the wire. -/
def waiting (records : List Record) : List Record := (records.dropWhile Record.full).tail

/-- How batches must come while so many empty records wait for a read of the wire of their own: a
full record comes only when none waits and not behind an empty one. -/
def Paced (ends : ℕ → Prop) : ℕ → List (List Record) → Prop
  | k, [] => ends k
  | 0, batch :: later => InOrder batch ∧ Paced ends (waiting batch).length later
  | k + 1, batch :: later => (∀ r ∈ batch, r.full = false) ∧ Paced ends (k + batch.length) later

/-- What `read` makes of the records that are there and of those that come: full ones are returned,
and one empty one is taken for each read of the wire. -/
def serve : List Record → List (List Record) → List (Bytes × ℕ) × List Record
  | records, [] => ((records.takeWhile Record.full).map fun r => (r.chunk, 0), waiting records)
  | records, batch :: later =>
    let rest := serve (waiting records ++ batch) later
    (((records.takeWhile Record.full).map fun r => (r.chunk, later.length + 1)) ++ rest.1, rest.2)

theorem serve_full {r : Record} (hr : r.full = true) (records : List Record) (batches : List (List Record)) :
    serve (r :: records) batches =
      ((r.chunk, batches.length) :: (serve records batches).1, (serve records batches).2) := by
  have hwaiting : waiting (r :: records) = waiting records := by rw [waiting, List.dropWhile_cons_of_pos hr]; rfl
  cases batches <;> simp [serve, hr, hwaiting]

theorem serve_empty {records : List Record} (h : ∀ r ∈ records.head?, r.full = false) :
    serve records [] = ([], records.tail) ∧
      ∀ batch later, serve records (batch :: later) = serve (records.tail ++ batch) later := by
  have hkept : records.takeWhile Record.full = [] ∧ waiting records = records.tail := by
    cases records with
    | nil => exact ⟨rfl, rfl⟩
    | cons r records => simp [waiting, h r rfl]
  exact ⟨by simp [serve, hkept], fun batch later => by simp [serve, hkept]⟩

theorem serve_late {records : List Record} {batches : List (List Record)} {entry : Bytes × ℕ}
    (h : entry ∈ (serve records batches).1) : entry.2 ≤ batches.length := by
  induction batches generalizing records with
  | nil =>
    obtain ⟨r, -, rfl⟩ := List.mem_map.mp h
    exact Nat.le_refl 0
  | cons batch later ih =>
    rcases List.mem_append.mp h with h | h
    · obtain ⟨r, -, rfl⟩ := List.mem_map.mp h
      exact Nat.le_refl _
    · exact Nat.le_succ_of_le (ih h)

theorem filter_full (records : List Record) : records.filter Record.full =
    records.takeWhile Record.full ++ (records.dropWhile Record.full).filter Record.full := by
  conv_lhs => rw [← List.takeWhile_append_dropWhile (p := Record.full) (l := records), List.filter_append]
  rw [List.filter_eq_self.mpr fun r hr => List.mem_takeWhile_imp hr]

theorem inOrder_iff {records : List Record} :
    InOrder records ↔ (records.dropWhile Record.full).filter Record.full = [] := by
  rw [List.filter_eq_nil_iff]
  exact forall₂_congr fun r _ => Bool.eq_false_iff

theorem paced_cons {ends : ℕ → Prop} {left batch : List Record} {later : List (List Record)}
    (hleft : ∀ r ∈ left, r.full = false) :
    Paced ends left.length (batch :: later) ↔
      InOrder (left ++ batch) ∧ Paced ends (waiting (left ++ batch)).length later := by
  cases left with
  | nil => exact Iff.rfl
  | cons r left =>
    have hr : r.full = false := hleft r (List.mem_cons_self ..)
    have hdrop : (r :: left ++ batch).dropWhile Record.full = r :: (left ++ batch) := by
      rw [List.cons_append, List.dropWhile_cons_of_neg (by simp [hr])]
    have hlength : (waiting (r :: left ++ batch)).length = left.length + batch.length := by
      rw [waiting, hdrop, List.tail_cons, List.length_append]
    rw [hlength, InOrder, hdrop]
    refine and_congr_left fun _ => ⟨fun hbatch r' hr' => ?_, fun hall r' hr' => ?_⟩
    · rw [← List.cons_append] at hr'
      exact (List.mem_append.mp hr').elim (hleft r') (hbatch r')
    · exact hall r' (List.mem_cons_of_mem _ (List.mem_append_right _ hr'))

theorem serve_iff {ends : ℕ → Prop} {records : List Record} {batches : List (List Record)} :
    ((serve records batches).1 =
        ((records.filter Record.full).map fun r => (r.chunk, batches.length)) ++ prompt batches ∧
      ends (serve records batches).2.length) ↔
    InOrder records ∧ Paced ends (waiting records).length batches := by
  induction batches generalizing records with
  | nil =>
    rw [filter_full, inOrder_iff]
    simp only [serve, prompt, List.length_nil, List.append_nil, List.map_append, Paced]
    refine and_congr_left fun _ => ?_
    rw [List.self_eq_append_right, List.map_eq_nil_iff]
  | cons batch later ih =>
    simp only [serve, prompt, filter_full records, List.length_cons, List.map_append, List.append_assoc,
      List.append_cancel_left_eq]
    by_cases hin : InOrder records
    · have hwaiting : ∀ r ∈ waiting records, r.full = false := fun r hr => hin r (List.mem_of_mem_tail hr)
      have hempty : (waiting records).filter Record.full = [] :=
        List.filter_eq_nil_iff.mpr fun r hr => Bool.eq_false_iff.mp (hwaiting r hr)
      rw [paced_cons hwaiting, ← ih, inOrder_iff.mp hin, List.filter_append, hempty]
      exact (and_iff_right hin).symm
    · refine iff_of_false (fun h => ?_) fun h => hin h.1
      obtain ⟨r, rest, hlate⟩ := List.exists_cons_of_ne_nil (mt inOrder_iff.mpr hin)
      -- A full record behind an empty one is returned after the next read of the wire.
      have hentry : (r.chunk, later.length + 1) ∈ (serve (waiting records ++ batch) later).1 := by
        rw [h.1, hlate]
        exact List.mem_cons_self ..
      exact absurd (serve_late hentry) (Nat.not_succ_le_self _)

/-! ### Records that arrive -/

def stream (records : List Record) : Bytes := (records.map Record.bytes).flatten

theorem stream_append (records more : List Record) : stream (records ++ more) = stream records ++ stream more := by
  simp [stream]

theorem stream_eq_nil {records : List Record} : stream records = [] ↔ records = [] := by
  refine ⟨fun h => ?_, fun h => by rw [h]; rfl⟩
  cases records with
  | nil => rfl
  | cons r records =>
    have hlength := congrArg List.length h
    simp only [stream, List.map_cons, List.flatten_cons, List.length_append, r.bytes_length,
      List.length_nil] at hlength
    omega

/-- `n` bytes of these records hold no whole one. -/
def Short (records : List Record) (n : ℕ) : Prop :=
  n = 0 ∨ ∃ r rest, records = r :: rest ∧ n < r.bytes.length

theorem Short.le {records : List Record} {n : ℕ} (h : Short records n) : n ≤ (stream records).length := by
  rcases h with rfl | ⟨r, rest, rfl, hn⟩
  · exact Nat.zero_le _
  · simp only [stream, List.map_cons, List.flatten_cons, List.length_append]
    omega

theorem Short.room {records : List Record} {n : ℕ} {out : Bytes} (h : Short records n)
    (hout : out <+: (stream records).drop n) : n + out.length ≤ (stream records).length := by
  have hle := hout.length_le
  have hn := h.le
  rw [List.length_drop] at hle
  omega

theorem wholeRecords_spec {records : List Record} {n : ℕ} (hn : n ≤ (stream records).length) :
    records = (wholeRecords records n).1 ++ (wholeRecords records n).2.1 ∧
      n = (stream (wholeRecords records n).1).length + (wholeRecords records n).2.2 ∧
      Short (wholeRecords records n).2.1 (wholeRecords records n).2.2 := by
  induction records generalizing n with
  | nil =>
    obtain rfl : n = 0 := Nat.le_zero.mp hn
    exact ⟨rfl, rfl, .inl rfl⟩
  | cons r records ih =>
    have hlength : (stream (r :: records)).length = r.bytes.length + (stream records).length := by
      simp [stream]
    unfold wholeRecords
    split
    · rename_i hr
      obtain ⟨hrecords, hcount, hshort⟩ := ih (n := n - r.bytes.length) (by omega)
      refine ⟨congrArg (r :: ·) hrecords, ?_, hshort⟩
      have : (stream (r :: (wholeRecords records (n - r.bytes.length)).1)).length =
          r.bytes.length + (stream (wholeRecords records (n - r.bytes.length)).1).length := by
        simp [stream]
      dsimp only
      omega
    · rename_i hr
      exact ⟨rfl, by simp [stream], .inr ⟨r, records, rfl, not_le.mp hr⟩⟩

theorem drop_wholeRecords {records : List Record} {n : ℕ} (hn : n ≤ (stream records).length) :
    (stream (wholeRecords records n).2.1).drop (wholeRecords records n).2.2 = (stream records).drop n := by
  obtain ⟨hrecords, hcount, -⟩ := wholeRecords_spec hn
  generalize wholeRecords records n = arrived at hrecords hcount ⊢
  rw [hcount, hrecords, stream_append, List.drop_length_add_append]

theorem batches_length (records : List Record) (n : ℕ) (outs : List Bytes) :
    (batches records n outs).1.length = outs.length := by
  induction outs generalizing records n with
  | nil => rfl
  | cons out outs ih => exact congrArg (· + 1) (ih _ _)

theorem Feeds.length_eq {d d' : Decoder} {wires outs : List Bytes} (h : Feeds d wires outs d') :
    outs.length = wires.length := by
  induction h with
  | nil => rfl
  | cons _ _ ih => rw [List.length_cons, List.length_cons, ih]

/-! ### The receiver at work -/

namespace Link

variable {p : Primitives} {base : Bytes} {method : String}

/-- The link has these records whole, and of the records behind them `n` bytes. -/
structure Holds (base : Bytes) (method : String) (l : Link p) (here records : List Record) (n : ℕ) : Prop where
  ready : l.receiver.Ready base method
  follows : Follows p base method l.receiver.counter (here ++ records)
  decoded : l.receiver.decoded = stream here ++ (stream records).take n
  short : Short records n

variable {l : Link p} {here records : List Record} {n : ℕ}

theorem takeRecord_here {r : Record} (h : Holds base method l (r :: here) records n) :
    ∃ l', l.takeRecord = .ok (some r.chunk, l') ∧ l'.decoder = l.decoder ∧
      Holds base method l' here records n := by
  obtain ⟨hready, hfollows, hdecoded, hshort⟩ := h
  cases hfollows with
  | cons hadmits hseq hauthentic hrest =>
    have hfront : l.receiver.decoded = r.bytes ++ (stream here ++ (stream records).take n) := by
      rw [hdecoded]
      simp [stream]
    obtain ⟨r', htake, hready', hcounter, hdecoded'⟩ :=
      Receiver.takeRecord_whole hready hauthentic hadmits hseq hfront
    refine ⟨{ l with receiver := r' }, ?_, rfl, hready', hcounter ▸ hrest, hdecoded', hshort⟩
    rw [takeRecord, htake]
    rfl

theorem takeRecord_none (h : Holds base method l [] records n) : l.takeRecord = .ok (none, l) := by
  have htake : l.receiver.takeRecord = (.ok none, l.receiver) := by
    rcases h.short with rfl | ⟨r, rest, rfl, hn⟩
    · have hnil : l.receiver.decoded = [] := by rw [h.decoded]; rfl
      rw [Receiver.takeRecord, if_pos (by rw [hnil]; decide)]
    · have hauthentic : r.Authentic p base method := by
        cases h.follows with
        | cons _ _ hauthentic _ => exact hauthentic
      have hdecoded : l.receiver.decoded = (stream (r :: rest)).take n := h.decoded
      have hstream : stream (r :: rest) = r.bytes ++ stream rest := by simp [stream]
      have hsplit : l.receiver.decoded ++ (stream (r :: rest)).drop n = r.bytes ++ stream rest := by
        rw [hdecoded, List.take_append_drop, hstream]
      refine Receiver.takeRecord_part hauthentic hsplit ?_
      rw [hdecoded, List.length_take]
      omega
  rw [takeRecord, htake]
  rfl

theorem read_full {r : Record} (h : Holds base method l (r :: here) records n) (hr : r.full = true)
    (wires : List Bytes) :
    ∃ l', l.read wires = .ok (r.chunk, l', wires) ∧ l'.decoder = l.decoder ∧
      Holds base method l' here records n := by
  obtain ⟨l', htake, hdecoder, hholds⟩ := takeRecord_here h
  obtain ⟨b, plain, hchunk⟩ := List.exists_cons_of_ne_nil (of_decide_eq_true hr)
  refine ⟨l', ?_, hdecoder, hholds⟩
  rw [read, if_pos h.ready.plain]
  rw [hchunk] at htake ⊢
  cases wires <;> simp only [readLoop_nil, readLoop_cons, htake, ok_bind] <;> rfl

theorem read_nothing {l' : Link p} {found : Option Bytes} (hplain : l.receiver.plain = [])
    (htake : l.takeRecord = .ok (found, l')) (hfound : found.getD [] = []) :
    (∀ wire wires fed, l'.feed wire = .ok fed → fed.receiver.plain = [] →
      l.read (wire :: wires) = fed.read wires) ∧
    l.read [] = if l'.receiver.decoded = [] then .ok ([], l', []) else .err "truncated Sudoku record" := by
  have hread (wires : List Bytes) : l.read wires = readLoop wires l := if_pos hplain
  have hcases : found = none ∨ found = some [] := by
    cases found with
    | none => exact .inl rfl
    | some plain => exact .inr (congrArg some hfound)
  constructor
  · intro wire wires fed hfed hfedPlain
    rw [hread, read, if_pos hfedPlain]
    rcases hcases with rfl | rfl <;> simp only [readLoop_cons, htake, ok_bind, hfed]
  · have hend : l.read [] = (ensure (l'.receiver.decoded = []) "truncated Sudoku record" >>= fun _ =>
        pure ([], l', [])) := by
      rw [hread]
      rcases hcases with rfl | rfl <;> simp only [readLoop_nil, htake, ok_bind]
    rw [hend]
    split
    · rename_i hnil
      rw [ensure_pos (decide_eq_true hnil)]
      rfl
    · rename_i hsome
      rw [ensure_neg (by simpa using hsome)]
      rfl

theorem read_on (h : Holds base method l here records n) (hhere : ∀ r ∈ here.head?, r.full = false) :
    ∃ l' : Link p, l'.decoder = l.decoder ∧ Holds base method l' here.tail records n ∧
      (∀ wire wires fed, l'.feed wire = .ok fed → fed.receiver.plain = [] →
        l.read (wire :: wires) = fed.read wires) ∧
      l.read [] = if l'.receiver.decoded = [] then .ok ([], l', []) else .err "truncated Sudoku record" := by
  cases here with
  | nil => exact ⟨l, rfl, h, read_nothing h.ready.plain (takeRecord_none h) rfl⟩
  | cons r here =>
    obtain ⟨l', htake, hdecoder, hholds⟩ := takeRecord_here h
    have hempty : r.chunk = [] := by simpa [Record.full] using hhere r rfl
    exact ⟨l', hdecoder, hholds, read_nothing h.ready.plain htake hempty⟩

theorem Holds.feed {wire out : Bytes} {d : Decoder} (h : Holds base method l here records n)
    (hfeed : l.decoder.feed wire = .ok (d, out)) (hout : out <+: (stream records).drop n) :
    ∃ fed, l.feed wire = .ok fed ∧ fed.decoder = d ∧
      Holds base method fed (here ++ (wholeRecords records (n + out.length)).1)
        (wholeRecords records (n + out.length)).2.1 (wholeRecords records (n + out.length)).2.2 := by
  refine ⟨⟨d, { l.receiver with decoded := l.receiver.decoded ++ out }⟩, ?_, rfl, ?_⟩
  · rw [Link.feed, hfeed]
    rfl
  · have hlength := h.short.room hout
    obtain ⟨hrecords, hcount, hshort⟩ := wholeRecords_spec hlength
    generalize wholeRecords records (n + out.length) = arrived at hrecords hcount hshort ⊢
    refine ⟨⟨h.ready.plain, h.ready.base, h.ready.method⟩, ?_, ?_, hshort⟩
    · rw [List.append_assoc, ← hrecords]
      exact h.follows
    · have hmore : (stream records).take n ++ out = (stream records).take (n + out.length) := by
        rw [List.take_add, ← List.prefix_iff_eq_take.mp hout]
      show l.receiver.decoded ++ out = _
      rw [h.decoded, List.append_assoc, hmore, stream_append, List.append_assoc, hcount, hrecords,
        stream_append, List.take_length_add_append]

theorem drained_full {d : Decoder} {wires : List Bytes} {later : List (List Record)} {m : ℕ}
    (hlength : later.length = wires.length)
    (hempty : ∀ (l : Link p) here, l.decoder = d → Holds base method l here records n →
      (∀ r ∈ here.head?, r.full = false) →
      Drained l wires (serve here later).1 (decide ((serve here later).2 = [] ∧ m = 0)))
    (hd : l.decoder = d) (h : Holds base method l here records n) :
    Drained l wires (serve here later).1 (decide ((serve here later).2 = [] ∧ m = 0)) := by
  induction here generalizing l with
  | nil => exact hempty l [] hd h nofun
  | cons r here ih =>
    by_cases hr : r.full = true
    · obtain ⟨l', hread, hdecoder, hholds⟩ := read_full h hr wires
      rw [serve_full hr, hlength]
      exact .more hread (of_decide_eq_true hr) (ih (hdecoder.trans hd) hholds)
    · refine hempty l (r :: here) hd h fun r' hr' => ?_
      obtain rfl := Option.some.inj hr'
      exact Bool.eq_false_iff.mpr hr

theorem drained_serve {d d' : Decoder} {wires outs : List Bytes} (hfeeds : Feeds d wires outs d')
    (hd : l.decoder = d) (h : Holds base method l here records n)
    (houts : outs.flatten <+: (stream records).drop n) :
    Drained l wires (serve here (batches records n outs).1).1
      (decide ((serve here (batches records n outs).1).2 = [] ∧ (batches records n outs).2 = 0)) := by
  induction hfeeds generalizing l here records n with
  | nil =>
    refine drained_full rfl (fun l here _ h hhere => ?_) hd h
    obtain ⟨l', -, hholds, -, hend⟩ := read_on h hhere
    have hnil : l'.receiver.decoded = [] ↔ here.tail = [] ∧ n = 0 := by
      rw [hholds.decoded, List.append_eq_nil_iff, stream_eq_nil]
      refine and_congr_right fun _ => ⟨fun htake => ?_, fun hn => by rw [hn]; rfl⟩
      have hlength := congrArg List.length htake
      have hn := hholds.short.le
      rw [List.length_take, List.length_nil] at hlength
      omega
    rw [batches, (serve_empty hhere).1]
    by_cases hclean : here.tail = [] ∧ n = 0
    · rw [decide_eq_true hclean]
      exact .clean (hend.trans (if_pos (hnil.mpr hclean)))
    · rw [decide_eq_false hclean]
      exact .failed (hend.trans (if_neg fun hdecoded => hclean (hnil.mp hdecoded)))
  | @cons d mid d' wire out wires outs hfeed hrest ih =>
    refine drained_full (by rw [batches_length, List.length_cons, List.length_cons, hrest.length_eq])
      (fun l here hd h hhere => ?_) hd h
    obtain ⟨l', hdecoder, hholds, hgoes, -⟩ := read_on h hhere
    rw [← hdecoder.trans hd] at hfeed
    rw [List.flatten_cons] at houts
    have hout : out <+: (stream records).drop n := (List.prefix_append _ _).trans houts
    obtain ⟨fed, hfed, hmid, hnext⟩ := hholds.feed hfeed hout
    have hmore : outs.flatten <+: (stream (wholeRecords records (n + out.length)).2.1).drop
        (wholeRecords records (n + out.length)).2.2 := by
      obtain ⟨rest, hsplit⟩ := houts
      rw [drop_wholeRecords (hholds.short.room hout), ← List.drop_drop, ← hsplit, List.append_assoc,
        List.drop_left]
      exact List.prefix_append _ _
    have hlater := ih hmid hnext hmore
    rw [batches, (serve_empty hhere).2]
    exact hlater.of_read_eq (hgoes wire wires fed hfed hnext.ready.plain)

end Link

/-- Authentic records, of which the wire brings the front in any pieces. The calls of `read` return
the plaintexts that are not empty, each as soon as its record is there, and then report a clean end
exactly where the wire ends with a record and with a byte: if and only if the records come at a pace
at which every empty one has a read of the wire of its own, and the wire does not end inside the
symbols of a byte behind the last record. -/
theorem receive_complete_iff {p : Primitives} (table : Table) (down packed : Bool) (base : Bytes)
    (method : String) (records : List Record) (wires outs : List Bytes) (d : Decoder)
    (hrecords : Follows p base method none records)
    (hreads : Reads (Decoder.new table down packed) wires outs d) (houts : outs.flatten <+: stream records) :
    (Link.new table down packed base method : Link p).Drained wires (prompt (batches records 0 outs).1)
        (decide ((batches records 0 outs).2 = 0 ∧ d.count = 0)) ↔
      Paced (fun left => (batches records 0 outs).2 = 0 → (left = 0 ↔ d.count = 0)) 0
        (batches records 0 outs).1 := by
  have hholds : Link.Holds base method (Link.new table down packed base method : Link p) [] records 0 :=
    ⟨⟨rfl, rfl, rfl⟩, hrecords, rfl, .inl rfl⟩
  have hserved := Link.drained_serve hreads.feeds rfl hholds houts
  generalize batches records 0 outs = arrived at hserved ⊢
  have hpace : ((serve [] arrived.1).1 = prompt arrived.1 ∧
      (arrived.2 = 0 → ((serve [] arrived.1).2.length = 0 ↔ d.count = 0))) ↔
      InOrder [] ∧ Paced (fun left => arrived.2 = 0 → (left = 0 ↔ d.count = 0)) 0 arrived.1 :=
    @serve_iff (fun left => arrived.2 = 0 → (left = 0 ↔ d.count = 0)) [] arrived.1
  rw [List.length_eq_zero_iff] at hpace
  constructor
  · intro hprompt
    obtain ⟨hreturned, hclean⟩ := hserved.unique hprompt
    refine (hpace.mp ⟨hreturned, fun hwhole => ?_⟩).2
    have hiff := decide_eq_decide.mp hclean
    simpa [hwhole] using hiff
  · intro hpaced
    obtain ⟨hreturned, hclean⟩ := hpace.mpr ⟨nofun, hpaced⟩
    have hsame : decide ((serve [] arrived.1).2 = [] ∧ arrived.2 = 0) = decide (arrived.2 = 0 ∧ d.count = 0) := by
      refine decide_eq_decide.mpr ?_
      by_cases hwhole : arrived.2 = 0
      · simp [hwhole, hclean hwhole]
      · simp [hwhole]
    rwa [hreturned, hsame] at hserved

/-! ### Two ends -/

def asciiTable : Table := ⟨[], [], asciiLayout, asciiLayout, 0⟩

def asciiLink : Link plainPrimitives := .new asciiTable false true [7] "aes-128-gcm"

def emptyRecord : Record := ⟨⟨1, 1⟩, [], List.replicate 16 0⟩
def fullRecord : Record := ⟨⟨1, 2⟩, [0x61], 0x61 :: List.replicate 16 0⟩

def packedWire (bytes : Bytes) : Bytes :=
  match encode asciiTable false true bytes 0 fun _ => 0 with
  | .ok wire => wire
  | _ => []

theorem follows_records : Follows plainPrimitives [7] "aes-128-gcm" none [emptyRecord, fullRecord] := by
  have hcipher : deriveCipher plainPrimitives [7] "aes-128-gcm" 1 = .ok ⟨.aes, []⟩ := by decide +kernel
  refine .cons (by decide) (by decide +kernel : _ = some ⟨1, 2⟩) ⟨by decide, _, hcipher, rfl⟩ ?_
  exact .cons (by decide) (by decide +kernel : _ = some ⟨1, 3⟩) ⟨by decide, _, hcipher, rfl⟩ .nil

theorem packed_feed {d : Decoder} {wire out : Bytes} (hpacked : d.packed = true)
    (hout : (d.feedPacked wire).2 = out) : d.feed wire = .ok ((d.feedPacked wire).1, out) := by
  rw [← hout]
  exact if_pos hpacked

theorem Link.drained_end {p : Primitives} {l : Link p} {wires : List Bytes} {clean : Bool}
    (h : (Prod.fst <$> l.read wires : Outcome Bytes) = if clean then .ok [] else .err "truncated Sudoku record") :
    l.Drained wires [] clean := by
  cases hread : l.read wires with
  | ok result =>
    rw [hread] at h
    cases clean with
    | false => cases h
    | true =>
      obtain ⟨plain, l', wires'⟩ := result
      obtain rfl : plain = [] := Outcome.ok.inj h
      exact .clean hread
  | err e =>
    rw [hread] at h
    cases clean with
    | false => exact .failed hread
    | true => cases h
  | panic =>
    rw [hread] at h
    cases clean <;> cases h

/-- A full record that comes with an empty one is not returned when the wire ends, and a wire that
ends with one symbol ends cleanly. -/
theorem record_behind_empty_lost :
    (∃ d, Reads asciiLink.decoder [packedWire (stream [emptyRecord, fullRecord])]
        [stream [emptyRecord, fullRecord]] d ∧ d.count = 0 ∧
      batches [emptyRecord, fullRecord] 0 [stream [emptyRecord, fullRecord]] = ([[emptyRecord, fullRecord]], 0) ∧
      prompt [[emptyRecord, fullRecord]] = [([0x61], 0)] ∧
      asciiLink.Drained [packedWire (stream [emptyRecord, fullRecord])] [] false) ∧
    ∃ d, Reads asciiLink.decoder [[0x40]] [[]] d ∧ d.count = 6 ∧
      batches [fullRecord] 0 [[]] = ([[]], 0) ∧ asciiLink.Drained [[0x40]] [] true := by
  have hboth : Reads asciiLink.decoder [packedWire (stream [emptyRecord, fullRecord])]
      [stream [emptyRecord, fullRecord]]
      (asciiLink.decoder.feedPacked (packedWire (stream [emptyRecord, fullRecord]))).1 :=
    ⟨.cons (packed_feed rfl (by decide +kernel)) .nil, by decide +kernel⟩
  have hsymbol : Reads asciiLink.decoder [[0x40]] [[]] (asciiLink.decoder.feedPacked [0x40]).1 :=
    ⟨.cons (packed_feed rfl (by decide +kernel)) .nil, by decide +kernel⟩
  exact ⟨⟨_, hboth, by decide +kernel, by decide +kernel, by decide +kernel, Link.drained_end (by decide +kernel)⟩,
    _, hsymbol, by decide +kernel, by decide +kernel, Link.drained_end (by decide +kernel)⟩

/-- With a read of its own, the empty record is passed over. -/
theorem record_after_empty_read :
    ∃ wires d, Reads asciiLink.decoder wires [emptyRecord.bytes, fullRecord.bytes] d ∧
      batches [emptyRecord, fullRecord] 0 [emptyRecord.bytes, fullRecord.bytes] =
        ([[emptyRecord], [fullRecord]], 0) ∧
      asciiLink.Drained wires [([0x61], 0)] true := by
  have hbatches : batches [emptyRecord, fullRecord] 0 [emptyRecord.bytes, fullRecord.bytes] =
      ([[emptyRecord], [fullRecord]], 0) := by decide +kernel
  obtain ⟨mid, hmid⟩ : ∃ mid, mid = (asciiLink.decoder.feedPacked (packedWire emptyRecord.bytes)).1 := ⟨_, rfl⟩
  obtain ⟨d, hd⟩ : ∃ d, d = (mid.feedPacked (packedWire fullRecord.bytes)).1 := ⟨_, rfl⟩
  have hfirst : asciiLink.decoder.feed (packedWire emptyRecord.bytes) = .ok (mid, emptyRecord.bytes) := by
    rw [hmid]
    exact packed_feed rfl (by decide +kernel)
  have hsecond : mid.feed (packedWire fullRecord.bytes) = .ok (d, fullRecord.bytes) := by
    rw [hd, hmid]
    exact packed_feed (by decide +kernel) (by decide +kernel)
  have hcount : d.count = 0 := by
    rw [hd, hmid]
    decide +kernel
  have hreads : Reads asciiLink.decoder [packedWire emptyRecord.bytes, packedWire fullRecord.bytes]
      [emptyRecord.bytes, fullRecord.bytes] d := ⟨.cons hfirst (.cons hsecond .nil), by decide +kernel⟩
  have hread := (receive_complete_iff asciiTable false true [7] "aes-128-gcm" [emptyRecord, fullRecord] _ _ d
    follows_records hreads ⟨[], List.append_nil _⟩).mpr (by
      rw [hbatches]
      refine ⟨by decide +kernel, by decide +kernel, fun _ => ?_⟩
      rw [hcount]
      decide)
  rw [hbatches, hcount] at hread
  exact ⟨_, d, hreads, hbatches, hread⟩

end Aerion.Sudoku
