import Aerion.Naive.Sources

/-!
# How a Naive reader tells the end of the stream

The callers take a read of zero bytes for the end of the stream. Whether a
read should say so is a question about what the transport still delivers: the
stream is at its end if that is nothing but what is left of the padding and
chunks without data, each complete, and it was cut if it ends inside a chunk.
-/

namespace Aerion.Naive

open Lib Outcome

inductive Verdict where
  | data
  | ended
  | failed
  deriving DecidableEq, Repr

def verdict : Outcome Bytes → Verdict
  | .ok [] => .ended
  | .ok (_ :: _) => .data
  | _ => .failed

def expectedNext : ℕ → Bytes → Verdict
  | 0, bytes => if bytes = [] then .ended else .data
  | _ + 1, [] => .ended
  | _ + 1, [_] => .failed
  | _ + 1, [_, _] => .failed
  | left + 1, high :: low :: paddingSize :: rest =>
    if 0 < ofBe [high, low] then if rest = [] then .failed else .data
    else if rest.length < paddingSize.toNat then .failed
    else expectedNext left (rest.drop paddingSize.toNat)

/-- What a read should say, by all that the transport will deliver. -/
def expected (state : NaiveReadState) (bytes : Bytes) : Verdict :=
  if 0 < state.readRemaining then if bytes = [] then .failed else .data
  else if bytes.length < state.paddingRemaining then .failed
  else expectedNext (naivePaddingCount - state.readPadding) (bytes.drop state.paddingRemaining)

/-- At the header of a padded chunk: the stream does not end here, and the chunk has data and some of
it is there, or there is nothing more to come. -/
def HeaderTold (stalls : Prop) (left : ℕ) : Bytes → Prop
  | [] => False
  | high :: low :: paddingSize :: rest =>
    if 0 < ofBe [high, low] then rest ≠ [] ∧ ¬stalls
    else paddingSize.toNat ≤ rest.length ∧ expectedNext left (rest.drop paddingSize.toNat) = .ended
  | _ => True

/-- Where a reader tells the end from other things. `stalls k` says that the bytes to come have an
empty frame behind the first `k`. -/
def EndTold (stalls : ℕ → Prop) (state : NaiveReadState) (bytes : Bytes) : Prop :=
  if 0 < state.readRemaining then bytes ≠ [] ∧ ¬stalls 0
  else if bytes.length < state.paddingRemaining then True
  else if state.readPadding < naivePaddingCount then
    HeaderTold (stalls (state.paddingRemaining + 3)) (naivePaddingCount - (state.readPadding + 1))
      (bytes.drop state.paddingRemaining)
  else bytes.drop state.paddingRemaining = [] ∨ ¬stalls state.paddingRemaining

theorem verdict_ok (bytes : Bytes) : verdict (.ok bytes) = if bytes = [] then .ended else .data := by
  cases bytes <;> rfl

theorem verdict_err {result : Outcome Bytes} (h : ∃ e, result = .err e) : verdict result = .failed := by
  obtain ⟨e, rfl⟩ := h
  rfl

section

variable {σ : Type} {raw : RawReader σ} {ahead : σ → Bytes} {stalls : ℕ → σ → Prop} {state : NaiveReadState}
  {source : σ} {size : ℕ}

theorem Lawful.header_told_iff (h : Lawful raw ahead stalls) (hsize : 0 < size) (hrest : state.readRemaining = 0)
    (hpadding : state.paddingRemaining ≤ (ahead source).length) (hpadded : state.readPadding < naivePaddingCount) :
    verdict (readNaiveData raw size ⟨state, source⟩).1 =
        expectedNext (naivePaddingCount - (state.readPadding + 1) + 1)
          ((ahead source).drop state.paddingRemaining) ↔
      HeaderTold (stalls (state.paddingRemaining + 3) source) (naivePaddingCount - (state.readPadding + 1))
        ((ahead source).drop state.paddingRemaining) := by
  have hshort := fun hless => verdict_err (@Lawful.header_short _ _ _ _ _ _ size h hrest hpadding hpadded hless)
  have hsplit : ahead source =
      (ahead source).take state.paddingRemaining ++ (ahead source).drop state.paddingRemaining :=
    (List.take_append_drop _ _).symm
  generalize hbytes : (ahead source).drop state.paddingRemaining = bytes at hshort hsplit ⊢
  match bytes with
  | [] =>
    rw [hshort (Nat.succ_pos 2)]
    exact iff_of_false nofun id
  | [_] | [_, _] =>
    rw [hshort (by simp)]
    exact iff_of_true rfl trivial
  | high :: low :: paddingSize :: rest =>
    obtain ⟨bytes, source', hread, happend, hlength, hnone, -⟩ :=
      @Lawful.chunk _ _ _ _ _ _ size h hrest hpadded _ [high, low] rest paddingSize hsplit
        (List.length_take_of_le hpadding) rfl
    rw [hread, verdict_ok, expectedNext, HeaderTold]
    by_cases hdata : 0 < ofBe [high, low]
    · rw [if_pos hdata, if_pos hdata]
      have hnone := hnone (Nat.lt_min.mpr ⟨hdata, hsize⟩)
      by_cases hend : rest = []
      · simp [hend, hnone]
      · by_cases hstall : stalls (state.paddingRemaining + 3) source
        · simp [hend, hnone, hstall]
        · simp [hend, hnone, hstall]
    · have hzero : ofBe [high, low] = 0 := Nat.eq_zero_of_not_pos hdata
      have hempty : bytes = [] := by
        rw [hzero, Nat.zero_min] at hlength
        exact List.length_eq_zero_iff.mp (Nat.le_zero.mp hlength)
      rw [if_neg hdata, if_neg hdata, if_pos hempty]
      by_cases hcut : rest.length < paddingSize.toNat
      · rw [if_pos hcut]
        exact iff_of_false nofun fun htold => Nat.not_le.mpr hcut htold.1
      · rw [if_neg hcut]
        constructor
        · intro hsame
          exact ⟨Nat.not_lt.mp hcut, hsame.symm⟩
        · intro htold
          exact htold.2.symm

theorem Lawful.told_iff (h : Lawful raw ahead stalls) (hsize : 0 < size) :
    verdict (readNaiveData raw size ⟨state, source⟩).1 = expected state (ahead source) ↔
      EndTold (fun k => stalls k source) state (ahead source) := by
  unfold expected EndTold
  by_cases hrest : 0 < state.readRemaining
  · obtain ⟨bytes, source', hread, -, -, hnone, -⟩ := h.rest hsize hrest
    rw [if_pos hrest, if_pos hrest, hread, verdict_ok]
    by_cases hend : ahead source = []
    · simp [hend, hnone]
    · by_cases hstall : stalls 0 source
      · simp [hend, hnone, hstall]
      · simp [hend, hnone, hstall]
  · have hrest' : state.readRemaining = 0 := Nat.eq_zero_of_not_pos hrest
    rw [if_neg hrest, if_neg hrest]
    by_cases hcut : (ahead source).length < state.paddingRemaining
    · rw [if_pos hcut, if_pos hcut, verdict_err (h.skip_short hrest' hcut)]
      exact iff_of_true rfl trivial
    · have hpadding := Nat.not_lt.mp hcut
      rw [if_neg hcut, if_neg hcut]
      by_cases hpadded : state.readPadding < naivePaddingCount
      · rw [if_pos hpadded, show naivePaddingCount - state.readPadding =
          naivePaddingCount - (state.readPadding + 1) + 1 by omega]
        exact h.header_told_iff hsize hrest' hpadding hpadded
      · obtain ⟨bytes, source', hread, -, hnone, -⟩ := h.raw_ hsize hrest' hpadding hpadded
        rw [if_neg hpadded, hread, verdict_ok, Nat.sub_eq_zero_of_le (Nat.not_lt.mp hpadded), expectedNext]
        by_cases hend : (ahead source).drop state.paddingRemaining = []
        · simp [hend, hnone]
        · by_cases hstall : stalls state.paddingRemaining source
          · simp [hend, hnone, hstall]
          · simp [hend, hnone, hstall]

end

/-- For every state of a reader, every transport and every buffer: the read says that the stream is at
its end, was cut or has data exactly as what the transport delivers, if and only if the end is told
there. Over HTTP/2 the library drops empty frames; over HTTP/3 one that is handed over stalls. -/
theorem naive_end_told_iff (state : NaiveReadState) (pending : Bytes) (frames : List Bytes) {size : ℕ}
    (hsize : 0 < size) :
    (verdict (readNaiveH1Data size ⟨state, pending, frames⟩).1 = expected state (pending ++ frames.flatten) ↔
      EndTold (fun _ => False) state (pending ++ frames.flatten)) ∧
    ∀ d : Delivery,
      (d.DropsEmpty →
        (verdict (readNaiveH2Data size ⟨state, pending, d.chunks frames⟩).1 =
            expected state (pending ++ frames.flatten) ↔
          EndTold (fun _ => False) state (pending ++ frames.flatten))) ∧
      ∀ read ∈ [readNaiveH3Data, readNaiveH3ServerData],
        (verdict (read size ⟨state, pending, d.chunks frames⟩).1 = expected state (pending ++ frames.flatten) ↔
          EndTold (fun k => Source.EmptyFrameAt k ⟨pending, d.chunks frames⟩) state
            (pending ++ frames.flatten)) := by
  refine ⟨rawH1_lawful.told_iff hsize, fun d => ?_⟩
  have hframes (closedEarly : String) :=
    @Lawful.told_iff _ _ _ _ state ⟨pending, d.chunks frames⟩ size (readRawFrames_lawful closedEarly) hsize
  simp only [Source.ahead, d.flatten] at hframes
  constructor
  · intro hdrops
    have hnone : (fun k => Source.EmptyFrameAt k ⟨pending, d.chunks frames⟩) = fun _ => False :=
      funext fun k => eq_false (no_emptyFrameAt (hdrops frames) k)
    rw [← hnone]
    exact hframes _
  · intro read hread
    simp only [List.mem_cons, List.not_mem_nil, or_false] at hread
    rcases hread with rfl | rfl
    · exact hframes _
    · exact hframes _

/-- A chunk that announces one byte and has it, over HTTP/2 behind an empty frame. -/
theorem one_byte_told :
    verdict (readNaiveH1Data 4 ⟨⟨0, 0, 0⟩, [0, 1], [[0, 7]]⟩).1 = expected ⟨0, 0, 0⟩ [0, 1, 0, 7] ∧
      verdict (readNaiveH2Data 4 ⟨⟨0, 0, 0⟩, [0, 1], Delivery.nonempty.chunks [[0], [], [7]]⟩).1 =
        expected ⟨0, 0, 0⟩ [0, 1, 0, 7] := by
  have htold : EndTold (fun _ => False) ⟨0, 0, 0⟩ [0, 1, 0, 7] := by
    simp [EndTold, HeaderTold, naivePaddingCount, ofBe]
  have hdrops : Delivery.nonempty.DropsEmpty := fun _ _ hchunk => of_decide_eq_true (List.mem_filter.mp hchunk).2
  exact ⟨(naive_end_told_iff ⟨0, 0, 0⟩ [0, 1] [[0, 7]] (Nat.succ_pos 3)).1.mpr htold,
    ((naive_end_told_iff ⟨0, 0, 0⟩ [0, 1] [[0], [], [7]] (Nat.succ_pos 3)).2 .nonempty).1 hdrops |>.mpr htold⟩

/-- Zero bytes are read of a chunk without data though data follows, and where a chunk of five bytes
was cut off; a stream that carries nothing fails. -/
theorem end_misread :
    (readNaiveH1Data 4 ⟨⟨0, 0, 0⟩, ⟨[], [[0, 0, 0, 0, 1, 0, 7]]⟩⟩).1 = .ok [] ∧
      expected ⟨0, 0, 0⟩ [0, 0, 0, 0, 1, 0, 7] = .data ∧
      (readNaiveH1Data 4 ⟨⟨0, 0, 0⟩, ⟨[], [[0, 5, 0]]⟩⟩).1 = .ok [] ∧ expected ⟨0, 0, 0⟩ [0, 5, 0] = .failed ∧
      (readNaiveH1Data 4 ⟨⟨0, 0, 0⟩, ⟨[], []⟩⟩).1 = .err "read exact Naive HTTP/1.1 data" ∧
      expected ⟨0, 0, 0⟩ [] = .ended := by
  decide +kernel

end Aerion.Naive
