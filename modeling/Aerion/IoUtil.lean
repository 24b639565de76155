import Aerion.AnyTls.Writer

/-!
# Frames written in parts

`src/io_util.rs`: a frame goes out as a header and a payload in slices, to a
writer that takes any part of what it is offered with each call. A writer is
given by its answers: how many bytes it would take, or the error of the call.
It may take from all the slices of a call or, as the default of
`write_vectored` does, from the first that is not empty only.
-/

namespace Aerion.IoUtil

open Lib Outcome

inductive IoError where
  | writeZero
  | other (text : String)
  deriving DecidableEq, Repr

structure Writer where
  isWriteVectored : Bool
  /-- Whether `write_vectored` takes from all its slices. -/
  gathers : Bool
  answers : ℕ → Except String ℕ
  calls : ℕ
  written : Bytes

def Writer.took (w : Writer) (bytes : Bytes) : Writer :=
  { w with calls := w.calls + 1, written := w.written ++ bytes }

/-- `poll_write`: as many of the bytes as the answer says, and all of them at the most. -/
def Writer.write (w : Writer) (offered : Bytes) : Except IoError ℕ × Writer :=
  match w.answers w.calls with
  | .error e => (.error (.other e), { w with calls := w.calls + 1 })
  | .ok n => (.ok (min n offered.length), w.took (offered.take n))

/-- What a call of `write_vectored` takes from. -/
def Writer.offered (w : Writer) (bufs : List Bytes) : Bytes :=
  if w.gathers then bufs.flatten else (bufs.find? (· ≠ [])).getD []

def Writer.writeVectored (w : Writer) (bufs : List Bytes) : Except IoError ℕ × Writer :=
  w.write (w.offered bufs)

/-- `IoSlice::advance_slices`; its assertion is that no more is left than the slices hold. -/
def advanceSlices : List Bytes → ℕ → Outcome (List Bytes)
  | [], 0 => .ok []
  | [], _ + 1 => .panic
  | b :: bufs, n => if b.length ≤ n then advanceSlices bufs (n - b.length) else .ok (b.drop n :: bufs)

abbrev Written := Option (Outcome (Except IoError Unit) × Writer)

def writeAllVectored : ℕ → List Bytes → Writer → Written
  | 0, _, _ => none
  | fuel + 1, remaining, w =>
    if remaining = [] then some (.ok (.ok ()), w)
    else match advanceSlices remaining 0 with
      | .ok [] => some (.ok (.ok ()), w)
      | .ok remaining =>
        match w.writeVectored remaining with
        | (.error e, w) => some (.ok (.error e), w)
        | (.ok 0, w) => some (.ok (.error .writeZero), w)
        | (.ok written, w) =>
          match advanceSlices remaining written with
          | .ok remaining => writeAllVectored fuel remaining w
          | .err e => some (.err e, w)
          | .panic => some (.panic, w)
      | .err e => some (.err e, w)
      | .panic => some (.panic, w)

def writeAll : ℕ → Bytes → Writer → Written
  | 0, _, _ => none
  | fuel + 1, buf, w =>
    if buf = [] then some (.ok (.ok ()), w)
    else match w.write buf with
      | (.error e, w) => some (.ok (.error e), w)
      | (.ok 0, w) => some (.ok (.error .writeZero), w)
      | (.ok n, w) => writeAll fuel (buf.drop n) w

def writeFrameParts (fuel : ℕ) (header payload : Bytes) (w : Writer) : Written :=
  if w.isWriteVectored then writeAllVectored fuel [header, payload] w
  else writeAll fuel (header ++ payload) w

/-! ### Slices that move on -/

theorem advanceSlices_spec {bufs : List Bytes} {n : ℕ} (h : n ≤ bufs.flatten.length) :
    ∃ bufs', advanceSlices bufs n = .ok bufs' ∧ bufs'.flatten = bufs.flatten.drop n ∧
      bufs'.head? ≠ some [] := by
  induction bufs generalizing n with
  | nil =>
    obtain rfl : n = 0 := Nat.le_zero.mp h
    exact ⟨[], rfl, rfl, nofun⟩
  | cons b bufs ih =>
    rw [List.flatten_cons, List.length_append] at h
    unfold advanceSlices
    by_cases hb : b.length ≤ n
    · obtain ⟨bufs', hadvance, hflat, hhead⟩ := @ih (n - b.length) (by omega)
      refine ⟨bufs', by rw [if_pos hb, hadvance], ?_, hhead⟩
      rw [hflat, List.flatten_cons, List.drop_append, List.drop_eq_nil_of_le hb, List.nil_append]
    · refine ⟨b.drop n :: bufs, if_neg hb, ?_, ?_⟩
      · rw [List.flatten_cons, List.flatten_cons, List.drop_append_of_le_length (by omega)]
      · simpa using hb

/-! ### One call -/

/-- What a write of `data` can come to: all of it is written once; or a part, and then the writer took
nothing of what was left, or failed. -/
inductive Wrote (w : Writer) (data : Bytes) : Except IoError Unit → Writer → Prop where
  | all (calls : ℕ) : Wrote w data (.ok ()) { w with calls := calls, written := w.written ++ data }
  | zero (calls n : ℕ) (hn : n < data.length) (hzero : w.answers calls = .ok 0) :
      Wrote w data (.error .writeZero) { w with calls := calls + 1, written := w.written ++ data.take n }
  | failed (calls n : ℕ) (e : String) (hn : n < data.length) (hfailed : w.answers calls = .error e) :
      Wrote w data (.error (.other e)) { w with calls := calls + 1, written := w.written ++ data.take n }

theorem Wrote.nil (w : Writer) : Wrote w [] (.ok ()) w := by
  simpa using @Wrote.all w [] w.calls

theorem Wrote.after {w w' : Writer} {data : Bytes} {n : ℕ} {r : Except IoError Unit}
    (h : Wrote (w.took (data.take n)) (data.drop n) r w') : Wrote w data r w' := by
  cases h with
  | all calls' =>
    simpa [Writer.took] using @Wrote.all w data calls'
  | zero calls' k hk hzero =>
    rw [List.length_drop] at hk
    have := @Wrote.zero w data calls' (n + k) (by omega) hzero
    simpa [Writer.took, List.take_add] using this
  | failed calls' k e hk hfailed =>
    rw [List.length_drop] at hk
    have := @Wrote.failed w data calls' (n + k) e (by omega) hfailed
    simpa [Writer.took, List.take_add] using this

theorem Writer.write_cases (w : Writer) {data offered rest : Bytes} (hdata : data = offered ++ rest)
    (hoffered : offered ≠ []) :
    (∃ e w', w.write offered = (.error e, w') ∧ Wrote w data (.error e) w') ∨
      (∃ w', w.write offered = (.ok 0, w') ∧ Wrote w data (.error .writeZero) w') ∨
      ∃ n, n + 1 ≤ data.length ∧ w.write offered = (.ok (n + 1), w.took (data.take (n + 1))) := by
  have hpos : 0 < offered.length := List.length_pos_iff.mpr hoffered
  have hlen : offered.length ≤ data.length := by simp [hdata]
  cases hanswer : w.answers w.calls with
  | error e =>
    have := @Wrote.failed w data w.calls 0 e (by omega) hanswer
    rw [List.take_zero, List.append_nil] at this
    exact .inl ⟨.other e, _, by rw [Writer.write, hanswer], this⟩
  | ok n =>
    cases n with
    | zero =>
      have := @Wrote.zero w data w.calls 0 (by omega) hanswer
      rw [List.take_zero] at this
      refine .inr (.inl ⟨_, ?_, this⟩)
      rw [Writer.write, hanswer]
      simp only [Nat.zero_min, List.take_zero, Writer.took]
    | succ n =>
      obtain ⟨m, hm⟩ : ∃ m, min (n + 1) offered.length = m + 1 := ⟨min (n + 1) offered.length - 1, by omega⟩
      refine .inr (.inr ⟨m, by omega, ?_⟩)
      have htake : offered.take (n + 1) = data.take (m + 1) := by
        rw [hdata, List.take_append_of_le_length (by omega), ← hm, List.take_eq_take_min]
      simp only [Writer.write, hanswer, hm, htake]

theorem Writer.offered_spec (w : Writer) {b : Bytes} {bufs : List Bytes} (hb : b ≠ []) :
    ∃ rest, (b :: bufs).flatten = w.offered (b :: bufs) ++ rest ∧ w.offered (b :: bufs) ≠ [] := by
  unfold Writer.offered
  cases w.gathers with
  | true => exact ⟨[], by simp, by simp [hb]⟩
  | false =>
    have hfind : (b :: bufs).find? (· ≠ []) = some b := List.find?_cons_of_pos (by simpa using hb)
    rw [if_neg Bool.false_ne_true, hfind]
    exact ⟨bufs.flatten, rfl, hb⟩

/-! ### Whole writes -/

theorem writeAllVectored_wrote {fuel : ℕ} {bufs : List Bytes} {w : Writer}
    (hfuel : bufs.flatten.length < fuel) :
    ∃ r w', writeAllVectored fuel bufs w = some (.ok r, w') ∧ Wrote w bufs.flatten r w' := by
  induction fuel generalizing bufs w with
  | zero => exact absurd hfuel (Nat.not_lt_zero _)
  | succ fuel ih =>
    by_cases hempty : bufs = []
    · subst hempty
      exact ⟨.ok (), w, rfl, .nil w⟩
    obtain ⟨remaining, hadvance, hflat, hhead⟩ := @advanceSlices_spec bufs 0 (Nat.zero_le _)
    rw [List.drop_zero] at hflat
    rw [← hflat] at hfuel ⊢
    unfold writeAllVectored
    rw [if_neg hempty, hadvance]
    cases remaining with
    | nil => exact ⟨.ok (), w, rfl, .nil w⟩
    | cons b rest =>
      have hb : b ≠ [] := fun h => hhead (by rw [h]; rfl)
      obtain ⟨tail, hdata, hoffered⟩ := @Writer.offered_spec w b rest hb
      dsimp only
      unfold Writer.writeVectored
      obtain ⟨e, w', hwrite, hwrote⟩ | ⟨w', hwrite, hwrote⟩ | ⟨n, hn, hwrite⟩ :=
        w.write_cases hdata hoffered
      · exact ⟨_, w', by rw [hwrite], hwrote⟩
      · exact ⟨_, w', by rw [hwrite]; rfl, hwrote⟩
      · obtain ⟨next, hnext, hnextflat, -⟩ := advanceSlices_spec hn
        have hless : next.flatten.length < fuel := by
          rw [hnextflat, List.length_drop]
          omega
        obtain ⟨r, w', hrun, hwrote⟩ := @ih next (w.took ((b :: rest).flatten.take (n + 1))) hless
        refine ⟨r, w', ?_, (hnextflat ▸ hwrote).after⟩
        rw [hwrite, ← hrun]
        change (match advanceSlices (b :: rest) (n + 1) with
          | .ok remaining => writeAllVectored fuel remaining _
          | .err e => some (.err e, _)
          | .panic => some (.panic, _)) = _
        rw [hnext]

theorem writeAll_wrote {fuel : ℕ} {buf : Bytes} {w : Writer} (hfuel : buf.length < fuel) :
    ∃ r w', writeAll fuel buf w = some (.ok r, w') ∧ Wrote w buf r w' := by
  induction fuel generalizing buf w with
  | zero => exact absurd hfuel (Nat.not_lt_zero _)
  | succ fuel ih =>
    unfold writeAll
    by_cases hempty : buf = []
    · subst hempty
      exact ⟨.ok (), w, rfl, .nil w⟩
    rw [if_neg hempty]
    obtain ⟨e, w', hwrite, hwrote⟩ | ⟨w', hwrite, hwrote⟩ | ⟨n, hn, hwrite⟩ :=
      w.write_cases (List.append_nil buf).symm hempty
    · exact ⟨_, w', by rw [hwrite], hwrote⟩
    · exact ⟨_, w', by rw [hwrite]; rfl, hwrote⟩
    · have hless : (buf.drop (n + 1)).length < fuel := by
        rw [List.length_drop]
        omega
      obtain ⟨r, w', hrun, hwrote⟩ := @ih (buf.drop (n + 1)) (w.took (buf.take (n + 1))) hless
      exact ⟨r, w', by rw [hwrite]; exact hrun, hwrote.after⟩

theorem writeFrameParts_wrote {fuel : ℕ} {header payload : Bytes} {w : Writer}
    (hfuel : (header ++ payload).length < fuel) :
    ∃ r w', writeFrameParts fuel header payload w = some (.ok r, w') ∧
      Wrote w (header ++ payload) r w' := by
  unfold writeFrameParts
  split
  · have := @writeAllVectored_wrote fuel [header, payload] w
    simp only [List.flatten_cons, List.flatten_nil, List.append_nil] at this
    exact this hfuel
  · exact writeAll_wrote hfuel

/-! ### Frames -/

open AnyTls

inductive FrameError where
  | payloadTooLarge
  | write (e : IoError)
  | flush (text : String)
  deriving DecidableEq, Repr

def FrameError.message : FrameError → String
  | .payloadTooLarge => "Aerion frame payload too large"
  | .write _ => "write Aerion frame"
  | .flush _ => "flush Aerion frame"

def writeVectoredFrameBytes (fuel : ℕ) (cmd : UInt8) (streamId : UInt32) (payload : Bytes) (w : Writer) :
    Written :=
  writeFrameParts fuel ([cmd] ++ toBe 4 streamId.toNat ++ toBe 2 payload.length) payload w

def flushAfter (flushed : Except String Unit) : Except IoError Unit → Except FrameError Unit
  | .error e => .error (.write e)
  | .ok () => flushed.mapError .flush

/-- `write_frame` of `src/protocol.rs`; `flushed` is the answer of the flush. -/
def writeFrame (fuel : ℕ) (flushed : Except String Unit) (cmd : UInt8) (streamId : UInt32)
    (payload : Bytes) (w : Writer) : Option (Outcome (Except FrameError Unit) × Writer) :=
  if payload.length ≤ maxFramePayloadLen then
    let written :=
      if vectoredFrameMinPayload ≤ payload.length ∧ w.isWriteVectored = true then
        writeVectoredFrameBytes fuel cmd streamId payload w
      else writeAll fuel (encodeFrame cmd streamId payload) w
    written.map fun (r, w) => (flushAfter flushed <$> r, w)
  else some (.ok (.error .payloadTooLarge), w)

theorem writeFrame_wrote {fuel : ℕ} {flushed : Except String Unit} {cmd : UInt8} {streamId : UInt32}
    {payload : Bytes} {w : Writer} (hlen : payload.length ≤ maxFramePayloadLen)
    (hfuel : (encodeFrame cmd streamId payload).length < fuel) :
    ∃ r w', Wrote w (encodeFrame cmd streamId payload) r w' ∧
      writeFrame fuel flushed cmd streamId payload w = some (.ok (flushAfter flushed r), w') := by
  have hwritten : ∃ r w', (if vectoredFrameMinPayload ≤ payload.length ∧ w.isWriteVectored = true then
      writeVectoredFrameBytes fuel cmd streamId payload w
      else writeAll fuel (encodeFrame cmd streamId payload) w) = some (.ok r, w') ∧
      Wrote w (encodeFrame cmd streamId payload) r w' := by
    split
    · exact writeFrameParts_wrote hfuel
    · exact writeAll_wrote hfuel
  obtain ⟨r, w', hrun, hwrote⟩ := hwritten
  refine ⟨r, w', hwrote, ?_⟩
  rw [writeFrame, if_pos hlen]
  dsimp only
  rw [hrun]
  rfl

theorem Wrote.complete {w w' : Writer} {data : Bytes} {r : Except IoError Unit} (h : Wrote w data r w')
    (hw : ∀ k, ∃ n, w.answers k = .ok (n + 1)) : r = .ok () ∧ w'.written = w.written ++ data := by
  cases h with
  | all calls => exact ⟨rfl, rfl⟩
  | zero calls n hn hzero =>
    obtain ⟨m, hm⟩ := hw calls
    rw [hm] at hzero
    cases hzero
  | failed calls n e hn hfailed =>
    obtain ⟨m, hm⟩ := hw calls
    rw [hm] at hfailed
    cases hfailed

/-- Slices and one copy of them come to the same: with fuel for each byte the write ends, without a
panic; everything is written once, or the writer failed or took nothing of a rest that is not empty; and
to a writer that always takes something everything is written. -/
theorem vectored_writes_emit (w : Writer) (fuel : ℕ) :
    (∀ bufs : List Bytes, ∃ r w', writeAllVectored (bufs.flatten.length + 1 + fuel) bufs w =
        some (.ok r, w') ∧ Wrote w bufs.flatten r w' ∧
        ((∀ k, ∃ n, w.answers k = .ok (n + 1)) → r = .ok () ∧ w'.written = w.written ++ bufs.flatten)) ∧
      (∀ header payload : Bytes, ∃ r w',
        writeFrameParts ((header ++ payload).length + 1 + fuel) header payload w = some (.ok r, w') ∧
        Wrote w (header ++ payload) r w' ∧
        ((∀ k, ∃ n, w.answers k = .ok (n + 1)) →
          r = .ok () ∧ w'.written = w.written ++ (header ++ payload))) ∧
      ∀ flushed cmd streamId payload, payload.length ≤ maxFramePayloadLen → ∃ r w',
        Wrote w (encodeFrame cmd streamId payload) r w' ∧
        writeFrame ((encodeFrame cmd streamId payload).length + 1 + fuel) flushed cmd streamId payload w =
          some (.ok (flushAfter flushed r), w') := by
  refine ⟨fun bufs => ?_, fun header payload => ?_, fun flushed cmd streamId payload hlen => ?_⟩
  · obtain ⟨r, w', hrun, hwrote⟩ := @writeAllVectored_wrote (bufs.flatten.length + 1 + fuel) bufs w (by omega)
    exact ⟨r, w', hrun, hwrote, hwrote.complete⟩
  · obtain ⟨r, w', hrun, hwrote⟩ :=
      @writeFrameParts_wrote ((header ++ payload).length + 1 + fuel) header payload w (by omega)
    exact ⟨r, w', hrun, hwrote, hwrote.complete⟩
  · exact writeFrame_wrote hlen (by omega)

end Aerion.IoUtil
