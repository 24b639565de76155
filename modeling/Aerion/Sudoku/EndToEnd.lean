import Aerion.Sudoku.Receive

/-!
# A tunnel from end to end

The sender of `src/sudoku/record.rs`, the appearance codec of
`src/sudoku/table.rs` behind it and the receiver at the other end, put
together: whatever way the wire is read in pieces, the calls of `read` return
what was written. On any other bytes they come to an end as well.
-/

namespace Aerion.Sudoku

open Lib Outcome

theorem feeds_of_transduce {d d' : Decoder} {wires : List Bytes} {out : Bytes}
    (h : transduce Decoder.feed wires d = .ok (d', out)) : ∃ outs, Feeds d wires outs d' ∧ outs.flatten = out := by
  induction wires generalizing d out with
  | nil =>
    cases h
    exact ⟨[], .nil, rfl⟩
  | cons wire wires ih =>
    obtain ⟨⟨mid, first⟩, hfirst, h⟩ := bind_ok.mp h
    obtain ⟨⟨last, rest⟩, hrest, h⟩ := bind_ok.mp h
    cases h
    obtain ⟨outs, hfeeds, rfl⟩ := ih hrest
    exact ⟨first :: outs, .cons hfirst hfeeds, rfl⟩

theorem Numbered.follows {p : Primitives} {base : Bytes} {method : String} {c d : Counter} {records : List Record}
    {expected : Option Counter} (h : Numbered c records d) (hsealed : ∀ r ∈ records, r.Sealed p base method)
    (hadmits : Receiver.Admits expected c) : Follows p base method expected records := by
  induction h generalizing expected with
  | nil => exact .nil
  | @cons r next d e records hseq hnext _ ih =>
    exact .cons hadmits hseq (hsealed r List.mem_cons_self).toAuthentic
      (ih (fun r hr => hsealed r (List.mem_cons_of_mem _ hr)) (Receiver.admits_next hnext))

/-- Once all bytes of the records have arrived, every record has arrived in some batch. -/
theorem batches_whole {records : List Record} {n : ℕ} {outs : List Bytes} (hshort : Short records n)
    (houts : outs.flatten = (stream records).drop n) :
    (batches records n outs).1.flatten = records ∧ (batches records n outs).2 = 0 := by
  induction outs generalizing records n with
  | nil =>
    have hall : (stream records).length ≤ n := List.drop_eq_nil_iff.mp houts.symm
    rcases hshort with rfl | ⟨r, rest, rfl, hn⟩
    · rw [stream_eq_nil.mp (List.length_eq_zero_iff.mp (Nat.le_zero.mp hall))]
      exact ⟨rfl, rfl⟩
    · simp only [stream, List.map_cons, List.flatten_cons, List.length_append] at hall
      omega
  | cons out outs ih =>
    rw [List.flatten_cons] at houts
    have hroom := hshort.room ⟨outs.flatten, houts⟩
    obtain ⟨hrecords, -, hnext⟩ := wholeRecords_spec hroom
    have hrest : outs.flatten = (stream (wholeRecords records (n + out.length)).2.1).drop
        (wholeRecords records (n + out.length)).2.2 := by
      rw [drop_wholeRecords hroom, ← List.drop_drop, ← houts, List.drop_left]
    obtain ⟨hflat, hzero⟩ := ih hnext hrest
    refine ⟨?_, hzero⟩
    rw [batches, List.flatten_cons, hflat]
    exact hrecords.symm

theorem serve_all {here : List Record} {later : List (List Record)} (hhere : ∀ r ∈ here, r.full = true)
    (hlater : ∀ r ∈ later.flatten, r.full = true) :
    (serve here later).2 = [] ∧
      ((serve here later).1.map (·.1)).flatten = ((here ++ later.flatten).map Record.chunk).flatten := by
  have hwaiting : waiting here = [] := by rw [waiting, List.dropWhile_eq_nil_iff.mpr hhere, List.tail_nil]
  have htaken : here.takeWhile Record.full = here := List.takeWhile_eq_self_iff.mpr hhere
  -- batch by batch; no batch leaves a record behind, since none of them is empty
  induction later generalizing here with
  | nil => simp [serve, hwaiting, htaken, Function.comp_def]
  | cons batch later ih =>
    have hbatch : ∀ r ∈ batch, r.full = true := fun r hr => hlater r (by simp [hr])
    obtain ⟨hnone, hall⟩ := ih hbatch (fun r hr => hlater r (List.mem_flatten.mpr (by
        obtain ⟨b, hb, hr⟩ := List.mem_flatten.mp hr
        exact ⟨b, List.mem_cons_of_mem _ hb, hr⟩)))
      (by rw [waiting, List.dropWhile_eq_nil_iff.mpr hbatch, List.tail_nil])
      (List.takeWhile_eq_self_iff.mpr hbatch)
    refine ⟨by rwa [serve, hwaiting, List.nil_append], ?_⟩
    rw [serve, hwaiting, List.nil_append, List.map_append, List.flatten_append, hall, htaken]
    simp [Function.comp_def]

/-- What a sender has written since a change of keys, each of its records hidden in the table's
appearance under any padding, is what the calls of `read` at the other end return, in pieces that are
not empty and up to a clean end, however the wire was cut. -/
theorem tunnel_delivers {sha256 : Bytes → Bytes} {cooked : ℕ → UInt64} {fuel : ℕ} {seed mode pattern : String}
    {t : Table} (h : Table.new sha256 cooked fuel seed mode pattern = some (.ok t)) (down packed : Bool)
    {p : Primitives} (overflow : Overflow) (s : Sender p) (base random : Bytes) (inputs : List Bytes)
    (hok : ∀ result ∈ ((s.rekey base random).writeAll overflow inputs).1, result = .ok ())
    (messages : List Message)
    (hmessages : messages.map (·.1) = ((s.rekey base random).writeAll overflow inputs).2.2.map Record.bytes) :
    ∃ wires, List.Forall₂ (fun m wire => encode t down packed m.1 m.2.1 m.2.2 = .ok wire) messages wires ∧
      ∀ segments : List Bytes, segments.flatten = wires.flatten →
        ∃ returned, (Link.new t down packed base s.crypto.method : Link p).Drained segments returned true ∧
          (returned.map (·.1)).flatten = inputs.flatten := by
  obtain ⟨wires, hwires, hdecodes⟩ := (Table.new_sound h).round_trip down packed messages
  refine ⟨wires, hwires, fun segments hsegments => ?_⟩
  obtain ⟨d, hfed, -⟩ := hdecodes wires.length segments (by rw [List.take_length, hsegments])
  obtain ⟨outs, hfeeds, houts⟩ := feeds_of_transduce hfed
  have hemitted := writeAll_emitted overflow (s.rekey base random) inputs
  have hchunks := writeAll_ok hok
  generalize ((s.rekey base random).writeAll overflow inputs).2.2 = records at hmessages hemitted hchunks
  rw [← hwires.length_eq, List.take_length, hmessages] at houts
  have hfollows : Follows p base s.crypto.method none records :=
    hemitted.numbered.follows hemitted.sealed fun _ h => by cases h
  have hserved := Link.drained_serve hfeeds rfl
    (⟨⟨rfl, rfl, rfl⟩, hfollows, rfl, .inl rfl⟩ :
      Link.Holds base s.crypto.method (Link.new t down packed base s.crypto.method : Link p) [] records 0)
    ⟨[], by rw [List.append_nil, houts]; rfl⟩
  obtain ⟨harrived, hwhole⟩ := batches_whole (.inl rfl) (houts : outs.flatten = (stream records).drop 0)
  have hfull : ∀ r ∈ (batches records 0 outs).1.flatten, r.full = true := fun r hr => by
    rw [harrived] at hr
    exact decide_eq_true (hemitted.sealed r hr).nonempty
  obtain ⟨hnone, hall⟩ := serve_all (List.forall_mem_nil _) hfull
  rw [hnone, hwhole] at hserved
  exact ⟨_, hserved, by rw [hall, harrived]; exact hchunks⟩

theorem tunnel_delivers_pieces :
    ∃ t, ∃ wires : List Bytes, ∀ segments : List Bytes, segments.flatten = wires.flatten →
    ∃ returned, (Link.new t true false [7] "aes-128-gcm" : Link plainPrimitives).Drained segments returned true ∧
      (returned.map (·.1)).flatten = [1, 2, 3, 4] := by
  obtain ⟨t, ht⟩ := exists_table
  obtain ⟨wires, -, h⟩ := tunnel_delivers (ht "") true false .checked plainSender [7] (List.replicate 12 9)
    [[1, 2, 3], [], [4]] (by decide +kernel) (twoRecords.map fun r => (r.bytes, 0, fun _ => 0))
    (by simp [twoRecords, Function.comp_def])
  exact ⟨t, wires, h⟩

/-! ### Streams of any peer -/

/-- What a decoder keeps between two bytes, of whatever stream. -/
structure Decoder.Armed (d : Decoder) : Prop where
  table : d.table.Sound
  aligned : d.packed = true → Aligned d
  started : d.packed = false → d.count < 4

theorem Decoder.new_armed {t : Table} (h : t.Sound) (down packed : Bool) : (Decoder.new t down packed).Armed :=
  ⟨h, fun _ _ => rfl, fun _ => Nat.zero_lt_succ 3⟩

namespace Decoder.Armed

variable {d : Decoder}

theorem pureByte (h : d.Armed) (hpure : d.packed = false) (byte : UInt8) :
    (d.pureByte byte).Meets fun r => (r.1.Armed ∧ r.1.packed = false) ∧ r.2.length ≤ 1 := by
  have hcount := h.started hpure
  have hput (g : Group) : (d.hints.put d.count g).Meets fun _ => True := by
    generalize d.count = i at hcount
    rcases i with _ | _ | _ | _ | i
    iterate 4 exact .ok trivial
    omega
  have hpacked : d.packed = true → False := fun h => by simp [hpure] at h
  unfold Decoder.pureByte
  split
  · exact .ok ⟨⟨h, hpure⟩, Nat.zero_le 1⟩
  · refine (hput _).bind fun hints _ => ?_
    split
    · exact Meets.bind ⟨h.table.decode_ne_panic hints, fun _ _ => trivial⟩ fun byte _ =>
        .ok ⟨⟨⟨h.table, fun h => (hpacked h).elim, fun _ => Nat.zero_lt_succ 3⟩, hpure⟩, Nat.le_refl 1⟩
    · exact .ok ⟨⟨⟨h.table, fun h => (hpacked h).elim, fun _ => by dsimp only; omega⟩, hpure⟩, Nat.zero_le 1⟩

theorem packedByte (h : d.Armed) (hpacked : d.packed = true) (byte : UInt8) :
    ((d.packedByte byte).1.Armed ∧ (d.packedByte byte).1.packed = true) ∧ (d.packedByte byte).2.length ≤ 1 := by
  have hframe : (d.packedByte byte).1.table = d.table ∧ (d.packedByte byte).1.packed = d.packed ∧
      (d.packedByte byte).2.length ≤ 1 := by
    unfold Decoder.packedByte Decoder.packedGroup
    dsimp only
    split <;> split <;> simp
  obtain ⟨htable, hkept, hout⟩ := hframe
  exact ⟨⟨⟨htable ▸ h.table, fun _ => packedByte_aligned (h.aligned hpacked) byte,
    fun hpure => by simp [hkept, hpacked] at hpure⟩, hkept.trans hpacked⟩, hout⟩

theorem feed (h : d.Armed) (wire : Bytes) :
    (d.feed wire).Meets fun r => r.1.Armed ∧ r.2.length ≤ wire.length := by
  unfold Decoder.feed
  split
  · rename_i hpacked
    rw [feedPacked_eq (h.aligned hpacked)]
    exact (transduce_meets (fun d => d.Armed ∧ d.packed = true)
      (fun d b hd => .ok (hd.1.packedByte hd.2 b)) ⟨h, hpacked⟩).mono fun r hr => ⟨hr.1.1, hr.2⟩
  · rename_i hpure
    exact (transduce_meets (fun d => d.Armed ∧ d.packed = false)
      (fun d b hd => hd.1.pureByte hd.2 b) ⟨h, by simpa using hpure⟩).mono fun r hr => ⟨hr.1.1, hr.2⟩

end Decoder.Armed

namespace Link

variable {p : Primitives}

/-- The bytes that are yet to be looked at. -/
def ahead (l : Link p) (wires : List Bytes) : ℕ := l.receiver.decoded.length + wires.flatten.length

/-- A call that returns has nothing set aside; if it returns something it has used up a record. -/
def Progress (l : Link p) (wires : List Bytes) (r : Bytes × Link p × List Bytes) : Prop :=
  r.2.1.decoder.Armed ∧ r.2.1.receiver.plain = [] ∧ (r.1 ≠ [] → r.2.1.ahead r.2.2 + 30 ≤ l.ahead wires)

theorem takeRecord_meets (l : Link p) : l.takeRecord.Meets fun r =>
    r.2.decoder = l.decoder ∧ r.2.receiver.plain = l.receiver.plain ∧
      r.2.receiver.decoded.length + (if r.1 = none then 0 else 30) ≤ l.receiver.decoded.length := by
  have hcrypt := l.receiver.crypto.crypt_ne_panic
  unfold Link.takeRecord Receiver.takeRecord
  split
  · exact .ok ⟨rfl, rfl, by simp⟩
  · dsimp only
    split
    · exact .err _
    · split
      · exact .ok ⟨rfl, rfl, by simp⟩
      · split
        · split
          · split
            · refine .ok ⟨rfl, rfl, ?_⟩
              simp only [List.length_drop, reduceCtorEq, if_false]
              omega
            · exact .err _
          · exact .err _
          · rename_i hopen
            exact absurd (congrArg Prod.fst hopen) (hcrypt _ _)
        · exact .err _

theorem readLoop_meets {l : Link p} (wires : List Bytes) (h : l.decoder.Armed) (hplain : l.receiver.plain = []) :
    (readLoop wires l).Meets (l.Progress wires) := by
  -- on the reads of the wire that are left: each feeds the decoder and looks for a record again
  induction wires generalizing l with
  | nil =>
    rw [readLoop_nil]
    refine l.takeRecord_meets.bind fun taken ⟨hdecoder, hkept, hsize⟩ => ?_
    split
    · rename_i hsome
      refine .ok ⟨hdecoder ▸ h, hkept.trans hplain, fun _ => ?_⟩
      simpa [hsome, ahead] using hsize
    · exact .ensure fun _ => .ok ⟨hdecoder ▸ h, hkept.trans hplain, fun hne => absurd rfl hne⟩
  | cons wire wires ih =>
    rw [readLoop_cons]
    refine l.takeRecord_meets.bind fun taken ⟨hdecoder, hkept, hsize⟩ => ?_
    split
    · rename_i hsome
      refine .ok ⟨hdecoder ▸ h, hkept.trans hplain, fun _ => ?_⟩
      simp only [hsome, reduceCtorEq, if_false] at hsize
      simp only [ahead]
      omega
    · have hfed : (taken.2.feed wire).Meets fun fed => fed.decoder.Armed ∧
          fed.receiver.plain = [] ∧ fed.ahead wires ≤ l.ahead (wire :: wires) := by
        refine ((hdecoder ▸ h).feed wire).bind fun fed hfed => .ok ⟨hfed.1, hkept.trans hplain, ?_⟩
        simp only [ahead, List.length_append, List.flatten_cons]
        have := hfed.2
        split at hsize <;> omega
      refine hfed.bind fun fed ⟨harmed, hnone, hahead⟩ => (ih harmed hnone).mono fun r hr => ?_
      exact ⟨hr.1, hr.2.1, fun hne => Nat.le_trans (hr.2.2 hne) hahead⟩

theorem drained_any {l : Link p} (wires : List Bytes) (h : l.decoder.Armed) (hplain : l.receiver.plain = []) :
    ∃ returned clean, l.Drained wires returned clean ∧ 30 * returned.length ≤ l.ahead wires := by
  induction hn : l.ahead wires using Nat.strong_induction_on generalizing l wires with
  | _ n ih =>
    obtain ⟨hpanic, hnext⟩ := readLoop_meets wires h hplain
    have hread : l.read wires = readLoop wires l := if_pos hplain
    cases hloop : readLoop wires l with
    | panic => exact absurd hloop hpanic
    | err e => exact ⟨[], false, .failed (hread.trans hloop), Nat.zero_le _⟩
    | ok r =>
      obtain ⟨piece, l', wires'⟩ := r
      obtain ⟨harmed, hnone, hless⟩ := hnext _ hloop
      rcases eq_or_ne piece [] with rfl | hne
      · exact ⟨[], true, .clean (hread.trans hloop), Nat.zero_le _⟩
      -- the record that was returned has left the bytes ahead, so the rest of the run is shorter
      have hless : l'.ahead wires' + 30 ≤ n := hn ▸ hless hne
      obtain ⟨returned, clean, hdrained, hcount⟩ := ih (l'.ahead wires') (by omega) wires' harmed hnone rfl
      exact ⟨_, clean, .more (hread.trans hloop) hne hdrained, by simp only [List.length_cons]; omega⟩

end Link

/-- No peer can stop a receiver other than by an error: on any bytes, cut in any way, the calls of
`read` come to the end of the wire or to an error without a panic, and each of them before has used up
thirty bytes or more. -/
theorem any_stream_drained {sha256 : Bytes → Bytes} {cooked : ℕ → UInt64} {fuel : ℕ} {seed mode pattern : String}
    {t : Table} (h : Table.new sha256 cooked fuel seed mode pattern = some (.ok t)) (down packed : Bool)
    {p : Primitives} (base : Bytes) (method : String) (wires : List Bytes) :
    ∃ returned clean, (Link.new t down packed base method : Link p).Drained wires returned clean ∧
      30 * returned.length ≤ wires.flatten.length := by
  have hdrained := Link.drained_any (l := (Link.new t down packed base method : Link p)) wires
    (Decoder.new_armed (Table.new_sound h) down packed) rfl
  simpa [Link.ahead, Link.new, Receiver.new] using hdrained

/-- A record and noise behind it: the record is returned before the noise ends the calls. -/
theorem any_stream_drained_noise : ∃ t wire returned clean,
    (Link.new t false false [7] "aes-128-gcm" : Link plainPrimitives).Drained [wire, [0xff, 0, 1]]
      (([0x61], 1) :: returned) clean ∧ 30 * (returned.length + 1) ≤ wire.length + 3 := by
  obtain ⟨t, ht⟩ := exists_table
  obtain ⟨wires, -, hdecodes⟩ :=
    (Table.new_sound (ht "")).round_trip false false [(fullRecord.bytes, 0, fun _ => 0)]
  obtain ⟨_, hfed, -⟩ := hdecodes 1 [(wires.take 1).flatten] (by simp)
  generalize (wires.take 1).flatten = wire at hfed
  obtain ⟨⟨d, out⟩, hfeed, hfed⟩ := bind_ok.mp hfed
  obtain ⟨-, rfl⟩ : d = _ ∧ out = fullRecord.bytes := by simpa [transduce] using hfed
  have hfollows : Follows plainPrimitives [7] "aes-128-gcm" none [fullRecord] := by
    obtain _ | ⟨-, -, -, _ | ⟨-, hseq, hauthentic, -⟩⟩ := follows_records
    exact .cons (by decide) hseq hauthentic .nil
  have hholds : Link.Holds [7] "aes-128-gcm"
      (Link.new t false false [7] "aes-128-gcm" : Link plainPrimitives) [] [fullRecord] 0 :=
    ⟨⟨rfl, rfl, rfl⟩, hfollows, rfl, .inl rfl⟩
  obtain ⟨fed, hfed, -, hnext⟩ := hholds.feed hfeed ⟨[], by decide +kernel⟩
  rw [show wholeRecords [fullRecord] (0 + fullRecord.bytes.length) = ([fullRecord], [], 0) by
    decide +kernel] at hnext
  have hgoes := (Link.read_nothing hholds.ready.plain (Link.takeRecord_none hholds) rfl).1 wire
    [[0xff, 0, 1]] fed hfed hnext.ready.plain
  obtain ⟨_, hread, -⟩ := Link.read_full hnext (by decide) [[0xff, 0, 1]]
  obtain ⟨returned, clean, hdrained, hcount⟩ :=
    any_stream_drained (ht "") false false (p := plainPrimitives) [7] "aes-128-gcm" [wire, [0xff, 0, 1]]
  rw [← hgoes] at hread
  cases hdrained with
  | more hread' hne hrest =>
    cases hread.symm.trans hread'
    exact ⟨t, wire, _, clean, .more hread hne hrest, by simpa using hcount⟩
  | clean hread' => cases hread.symm.trans hread'
  | failed hread' => cases hread.symm.trans hread'

end Aerion.Sudoku
