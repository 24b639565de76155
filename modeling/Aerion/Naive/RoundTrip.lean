import Aerion.Lib.Drain
import Aerion.Lib.Relate
import Aerion.Naive.Sources

/-!
# Round trip of the Naive padding codec

What is written through the padding codec is what its readers return, whatever
the draws of the padding, the cuts of the transport and the buffers of the
reader are. The readers of the four transports return the same, call by call.
-/

namespace Aerion.Naive

open Lib Outcome

/-! ### What is on the wire -/

inductive Carries : ℕ → Bytes → Bytes → Prop
  | raw (data : Bytes) : Carries naivePaddingCount data data
  | done {k : ℕ} (hk : k < naivePaddingCount) : Carries k [] []
  | chunk {k : ℕ} {rest left data padding : Bytes} {paddingSize : UInt8}
      (hk : k < naivePaddingCount) (hne : data ≠ []) (hmax : data.length ≤ naiveMaxChunk)
      (hpadding : padding.length = paddingSize.toNat)
      (hrest : Carries (k + 1) rest left) :
      Carries k (toBe 2 data.length ++ (paddingSize :: (data ++ (padding ++ rest)))) (data ++ left)

theorem carries_encodeChunk {draw : ℕ → UInt8} {chunk rest left : Bytes}
    {state : NaiveWriteState} (hne : chunk ≠ []) (hmax : chunk.length ≤ naiveMaxChunk)
    (hrest : Carries (encodeChunk draw chunk state).2.writePadding rest left)
    (hle : state.writePadding ≤ naivePaddingCount) :
    Carries state.writePadding ((encodeChunk draw chunk state).1 ++ rest) (chunk ++ left) := by
  unfold encodeChunk at hrest ⊢
  by_cases hk : state.writePadding < naivePaddingCount
  · rw [if_pos hk] at hrest ⊢
    have hchunk := @Carries.chunk _ rest left chunk
      (List.replicate (draw state.writePadding).toNat 0) _ hk hne hmax
      List.length_replicate hrest
    simpa only [List.append_assoc, List.cons_append] using hchunk
  · rw [if_neg hk] at hrest ⊢
    have hend : state.writePadding = naivePaddingCount := by omega
    rw [hend] at hrest ⊢
    cases hrest with
    | raw => exact .raw _
    | done hk => exact absurd hk (Nat.lt_irrefl _)
    | chunk hk => exact absurd hk (Nat.lt_irrefl _)

theorem encodeChunk_le {draw : ℕ → UInt8} {chunk : Bytes} {state : NaiveWriteState}
    (hle : state.writePadding ≤ naivePaddingCount) :
    (encodeChunk draw chunk state).2.writePadding ≤ naivePaddingCount := by
  unfold encodeChunk
  split
  · assumption
  · exact hle

theorem carries_encodeChunks {draw : ℕ → UInt8} {parts : List Bytes}
    (hparts : ∀ part ∈ parts, part ≠ [] ∧ part.length ≤ naiveMaxChunk) {state : NaiveWriteState}
    (hle : state.writePadding ≤ naivePaddingCount) {rest left : Bytes}
    (hrest : Carries (encodeChunks draw parts state).2.writePadding rest left) :
    Carries state.writePadding ((encodeChunks draw parts state).1.flatten ++ rest)
      (parts.flatten ++ left) := by
  induction parts generalizing state with
  | nil => exact hrest
  | cons part parts ih =>
    obtain ⟨hne, hmax⟩ := hparts part List.mem_cons_self
    have hlater := ih (fun p hp => hparts p (List.mem_cons_of_mem _ hp)) (encodeChunk_le hle) hrest
    have hfirst := carries_encodeChunk hne hmax hlater hle
    simpa only [encodeChunks, List.flatten_cons, List.append_assoc] using hfirst

theorem encodeChunks_le {draw : ℕ → UInt8} {parts : List Bytes} {state : NaiveWriteState}
    (hle : state.writePadding ≤ naivePaddingCount) :
    (encodeChunks draw parts state).2.writePadding ≤ naivePaddingCount := by
  induction parts generalizing state with
  | nil => exact hle
  | cons part parts ih => exact ih (encodeChunk_le hle)

theorem carries_writeAll (draw : ℕ → UInt8) (writes : List Bytes) {state : NaiveWriteState}
    (hle : state.writePadding ≤ naivePaddingCount) :
    Carries state.writePadding (writeAll draw writes state) writes.flatten := by
  induction writes generalizing state with
  | nil =>
    show Carries state.writePadding [] []
    rcases Nat.lt_or_eq_of_le hle with hk | hk
    · exact .done hk
    · rw [hk]
      exact .raw []
  | cons data writes ih =>
    have hparts : ∀ part ∈ chunks naiveMaxChunk data, part ≠ [] ∧ part.length ≤ naiveMaxChunk :=
      fun part hpart => mem_chunks (by decide) hpart
    have hall := carries_encodeChunks hparts hle (ih (@encodeChunks_le draw _ _ hle))
    rwa [flatten_chunks (by decide)] at hall

/-! ### Reading it back -/

section

variable {σ : Type} {raw : RawReader σ} {ahead : σ → Bytes} {stalls : ℕ → σ → Prop}

structure Ahead (ahead : σ → Bytes) (stalls : ℕ → σ → Prop) (reader : NaiveReader σ)
    (left : Bytes) : Prop where
  quiet : ∀ k, ¬stalls k reader.source
  carried : ∃ data padding rest later, ahead reader.source = data ++ (padding ++ rest) ∧
    data.length = reader.state.readRemaining ∧ padding.length = reader.state.paddingRemaining ∧
    left = data ++ later ∧ Carries reader.state.readPadding rest later

theorem append_split {front back front' back' : Bytes} (h : front ++ back = front' ++ back')
    (hle : front'.length ≤ front.length) :
    ∃ middle, front = front' ++ middle ∧ back' = middle ++ back := by
  rcases List.append_eq_append_iff.mp h with ⟨middle, rfl, rfl⟩ | hsplit
  · obtain rfl : middle = [] := by
      rw [List.length_append] at hle
      exact List.length_eq_zero_iff.mp (by omega)
    exact ⟨[], by simp, by simp⟩
  · exact hsplit

theorem Lawful.reads (h : Lawful raw ahead stalls) {size : ℕ} {reader : NaiveReader σ}
    {left : Bytes} (hsize : 0 < size) (hahead : Ahead ahead stalls reader left)
    (hleft : left ≠ []) :
    ∃ bytes rest, (readNaiveData raw size reader).1 = .ok bytes ∧ bytes ≠ [] ∧
      left = bytes ++ rest ∧ Ahead ahead stalls (readNaiveData raw size reader).2 rest := by
  obtain ⟨state, source⟩ := reader
  obtain ⟨hquiet, data, padding, rest, later, hsource, hdata, hpadding, rfl, hcarries⟩ := hahead
  dsimp only at hquiet hsource hdata hpadding hcarries
  by_cases hrest : 0 < state.readRemaining
  · obtain ⟨bytes, source', hread, happend, hlength, hnone, hstalls⟩ := h.rest hsize hrest
    rw [hsource] at happend hnone
    have hne : bytes ≠ [] := by
      rw [Ne, hnone]
      rintro (hempty | hstall)
      · rw [(List.append_eq_nil_iff.mp hempty).1] at hdata
        exact absurd hdata.symm (Nat.ne_of_gt hrest)
      · exact hquiet 0 hstall
    obtain ⟨data', rfl, hafter⟩ := append_split happend (by omega)
    rw [hread]
    refine ⟨bytes, data' ++ later, rfl, hne, List.append_assoc _ _ _, fun k hk =>
      hquiet _ (hstalls k hk), data', padding, rest, later, hafter, ?_, hpadding, rfl, hcarries⟩
    rw [List.length_append] at hdata
    show data'.length = state.readRemaining - bytes.length
    omega
  · have hrest : state.readRemaining = 0 := Nat.eq_zero_of_not_pos hrest
    obtain rfl := List.length_eq_zero_iff.mp (hdata.trans hrest)
    rw [List.nil_append] at hsource hleft ⊢
    have hlong : state.paddingRemaining ≤ (ahead source).length := by
      rw [hsource, List.length_append, ← hpadding]
      exact Nat.le_add_right _ _
    generalize hpadded : state.readPadding = k at hcarries
    cases hcarries with
    | done => exact absurd rfl hleft
    | raw =>
      obtain ⟨bytes, source', hread, happend, hnone, hstalls⟩ :=
        h.raw_ hsize hrest hlong (Nat.not_lt.mpr (Nat.le_of_eq hpadded.symm))
      rw [hsource, ← hpadding, List.drop_left] at happend hnone
      have hne : bytes ≠ [] := by
        rw [Ne, hnone]
        exact fun hend => hend.elim hleft (hquiet _)
      rw [hread]
      refine ⟨bytes, ahead source', rfl, hne, happend, fun k hk => hquiet _ (hstalls k hk),
        [], [], ahead source', ahead source', rfl, hrest.symm, rfl, rfl, ?_⟩
      show Carries state.readPadding _ _
      rw [hpadded]
      exact .raw _
    | @chunk _ rest left data padding' paddingSize hk hdata' hmax hpadding' hcarries =>
      have hword : ofBe (toBe 2 data.length) = data.length :=
        ofBe_toBe (by unfold naiveMaxChunk at hmax; omega)
      obtain ⟨bytes, source', hread, happend, hlength, hnone, hstalls⟩ :=
        @Lawful.chunk _ _ _ _ state source size h hrest (hpadded ▸ hk) _ _ _ _ hsource hpadding
          (toBe_length 2 _)
      rw [hword] at hread hlength hnone
      have hpos := List.length_pos_of_ne_nil hdata'
      have hne : bytes ≠ [] := by
        rw [Ne, hnone (Nat.lt_min.mpr ⟨hpos, hsize⟩)]
        rintro (hempty | hstall)
        · exact hdata' (List.append_eq_nil_iff.mp hempty).1
        · exact hquiet _ hstall
      obtain ⟨data', rfl, hafter⟩ := append_split happend (by omega)
      rw [hread]
      refine ⟨bytes, data' ++ left, rfl, hne, List.append_assoc _ _ _, fun k hk =>
        hquiet _ (hstalls k hk), data', padding', rest, left, hafter, ?_, hpadding', rfl, ?_⟩
      · show data'.length = (bytes ++ data').length - bytes.length
        rw [List.length_append]
        omega
      · show Carries (state.readPadding + 1) rest left
        rw [hpadded]
        exact hcarries

theorem Lawful.stops (h : Lawful raw ahead stalls) {size : ℕ}
    {reader : NaiveReader σ} (hsize : 0 < size) (hahead : Ahead ahead stalls reader []) :
    (readNaiveData raw size reader).1 = .ok [] ∨
      ∃ e, (readNaiveData raw size reader).1 = .err e := by
  obtain ⟨state, source⟩ := reader
  obtain ⟨-, data, padding, rest, later, hsource, hdata, hpadding, hleft, hcarries⟩ := hahead
  dsimp only at hsource hdata hpadding hcarries
  obtain ⟨rfl, rfl⟩ := List.append_eq_nil_iff.mp hleft.symm
  rw [List.nil_append] at hsource
  have hlong : state.paddingRemaining ≤ (ahead source).length := by
    rw [hsource, List.length_append, ← hpadding]
    exact Nat.le_add_right _ _
  generalize hlast : ([] : Bytes) = last at hcarries
  generalize hpadded : state.readPadding = k at hcarries
  cases hcarries with
  | raw =>
    subst hlast
    obtain ⟨bytes, source', hread, -, hnone, -⟩ :=
      h.raw_ hsize hdata.symm hlong (Nat.not_lt.mpr (Nat.le_of_eq hpadded.symm))
    rw [hsource, ← hpadding, List.drop_left] at hnone
    rw [hread, hnone.mpr (.inl rfl)]
    exact .inl rfl
  | done hk =>
    refine .inr (h.header_short hdata.symm hlong (hpadded ▸ hk) ?_)
    rw [hsource, ← hpadding, List.drop_left]
    exact Nat.succ_pos 2
  | chunk _ hne => exact absurd (List.append_eq_nil_iff.mp hlast.symm).1 hne

theorem Lawful.pieces (h : Lawful raw ahead stalls) {sizes : ℕ → ℕ} (hsizes : ∀ i, 0 < sizes i)
    {reader : NaiveReader σ} {left : Bytes} (hahead : Ahead ahead stalls reader left) :
    ∃ pieces : List Bytes, pieces.flatten = left ∧ (∀ piece ∈ pieces, piece ≠ []) ∧
      (∀ n < pieces.length, callResult (readNaiveData raw) sizes reader n =
        .ok (pieces.getD n [])) ∧
      (callResult (readNaiveData raw) sizes reader pieces.length = .ok [] ∨
        ∃ e, callResult (readNaiveData raw) sizes reader pieces.length = .err e) := by
  obtain ⟨pieces, hflat, hpieces, hresults, hafter⟩ := pieces_of_part h.reads hsizes hahead
  refine ⟨pieces, hflat, hpieces, hresults, h.stops (hsizes _) ?_⟩
  simpa using hafter pieces.length (Nat.le_refl _)

end

/-! ### Four readers, one behaviour -/

def Source.segments (source : Source) : List Bytes :=
  (source.pending :: source.incoming).filter (· ≠ [])

def cut : ℕ → List Bytes → List Bytes
  | _, [] => []
  | n, segment :: segments =>
    if n < segment.length then segment.drop n :: segments else cut (n - segment.length) segments

theorem cut_zero (segments : List Bytes) :
    cut 0 (segments.filter (· ≠ [])) = segments.filter (· ≠ []) := by
  induction segments with
  | nil => rfl
  | cons segment segments ih =>
    by_cases hempty : segment = []
    · rw [List.filter_cons_of_neg (by simpa using hempty)]
      exact ih
    · rw [List.filter_cons_of_pos (by simpa using hempty), cut,
        if_pos (List.length_pos_of_ne_nil hempty), List.drop_zero]

theorem cut_cons (n : ℕ) (segment : Bytes) (segments : List Bytes) :
    cut n ((segment :: segments).filter (· ≠ [])) =
      if n < segment.length then segment.drop n :: segments.filter (· ≠ [])
      else cut (n - segment.length) (segments.filter (· ≠ [])) := by
  by_cases hempty : segment = []
  · subst hempty
    rw [List.filter_cons_of_neg (by simp),
      if_neg (show ¬n < ([] : Bytes).length from Nat.not_lt_zero n)]
    rfl
  · rw [List.filter_cons_of_pos (by simpa using hempty), cut]

theorem drop_filter {n : ℕ} {segment : Bytes} (segments : List Bytes) (h : n ≤ segment.length) :
    (segment.drop n :: segments).filter (· ≠ []) =
      cut n ((segment :: segments).filter (· ≠ [])) := by
  rw [cut_cons]
  rcases Nat.lt_or_eq_of_le h with hlt | rfl
  · have hne : segment.drop n ≠ [] := by simpa using hlt
    rw [if_pos hlt, List.filter_cons_of_pos (by simpa using hne)]
  · rw [if_neg (Nat.lt_irrefl _), Nat.sub_self, List.drop_length, cut_zero,
      List.filter_cons_of_neg (by simp)]

theorem segments_readExact {n : ℕ} {incoming : List Bytes} (h : n ≤ incoming.flatten.length) :
    (Segments.readExact n incoming).2.filter (· ≠ []) = cut n (incoming.filter (· ≠ [])) := by
  induction incoming generalizing n with
  | nil => rfl
  | cons segment incoming ih =>
    rw [Segments.readExact]
    rw [List.flatten_cons, List.length_append] at h
    split
    · rename_i hle
      exact drop_filter incoming hle
    · rename_i hlt
      rw [cut_cons, if_neg (by omega)]
      exact ih (by omega)

theorem segments_pullUntil {n : ℕ} {pending : Bytes} {incoming : List Bytes} (closedEarly : String)
    (h : n ≤ (pending ++ incoming.flatten).length) :
    ((pullUntil closedEarly n pending incoming).2.pending.drop n ::
        (pullUntil closedEarly n pending incoming).2.incoming).filter (· ≠ []) =
      cut n ((pending :: incoming).filter (· ≠ [])) := by
  induction incoming generalizing pending with
  | nil =>
    rw [List.flatten_nil, List.append_nil] at h
    rw [pullUntil, if_pos h]
    exact drop_filter [] h
  | cons chunk incoming ih =>
    rw [pullUntil]
    split
    · rename_i hle
      exact drop_filter (chunk :: incoming) hle
    · rename_i hlt
      rw [List.flatten_cons, ← List.append_assoc] at h
      have hdrop : (pending ++ chunk).drop n = chunk.drop (n - pending.length) := by
        rw [List.drop_append, List.drop_of_length_le (by omega), List.nil_append]
      rw [ih h, cut_cons, cut_cons, cut_cons, List.length_append, hdrop,
        if_neg (show ¬n < pending.length by omega), Nat.sub_sub]
      by_cases hchunk : n < pending.length + chunk.length
      · rw [if_pos hchunk, if_pos (by omega)]
      · rw [if_neg hchunk, if_neg (by omega)]

theorem ahead_segments (source : Source) : source.ahead = source.segments.flatten := by
  rw [Source.segments, List.flatten_filter_ne_nil]
  rfl

/-- Two sources deliver the same bytes with the same cuts, and no frame of the second is empty. -/
structure Alike (source source' : Source) : Prop where
  segments : source.segments = source'.segments
  full : ∀ frame ∈ source'.incoming, frame ≠ []

theorem Alike.ahead {source source' : Source} (h : Alike source source') :
    source.ahead = source'.ahead := by
  rw [ahead_segments, ahead_segments, h.segments]

/-- What a read of some bytes takes, and what it leaves. -/
def Source.SomeOf (size : ℕ) (source : Source) (result : Outcome Bytes × Source) : Prop :=
  source.segments = [] ∧ result.1 = .ok [] ∧ result.2.segments = [] ∨
    ∃ segment segments, source.segments = segment :: segments ∧ result.1 = .ok (segment.take size) ∧
      result.2.segments = (segment.drop size :: segments).filter (· ≠ [])

theorem filter_filter_ne (segments : List Bytes) :
    (segments.filter (· ≠ [])).filter (· ≠ []) = segments.filter (· ≠ []) := by
  rw [List.filter_filter]
  simp

theorem someOf_pending {size : ℕ} {pending : Bytes} (hpending : pending ≠ [])
    (incoming : List Bytes) :
    Source.SomeOf size ⟨pending, incoming⟩
      (.ok (pending.take size), ⟨pending.drop size, incoming⟩) := by
  refine .inr ⟨pending, incoming.filter (· ≠ []), ?_, rfl, ?_⟩
  · rw [Source.segments, List.filter_cons_of_pos (by simpa using hpending)]
  · rw [Source.segments, List.filter_cons, List.filter_cons, filter_filter_ne]

theorem someOf_read (size : ℕ) (incoming : List Bytes) :
    Source.SomeOf size ⟨[], incoming⟩
      (.ok (Segments.read size incoming).1, ⟨[], (Segments.read size incoming).2⟩) := by
  induction incoming with
  | nil => exact .inl ⟨rfl, rfl, rfl⟩
  | cons segment incoming ih =>
    cases segment with
    | nil => exact ih
    | cons b segment =>
      have hpending := @someOf_pending size (b :: segment) (by simp) incoming
      have hsame : Source.segments ⟨[], (b :: segment) :: incoming⟩ =
        Source.segments ⟨b :: segment, incoming⟩ := by
        simp [Source.segments]
      unfold Source.SomeOf at hpending ⊢
      rw [hsame]
      simpa [Segments.read, Source.segments] using hpending

theorem readRawH1Some_of (size : ℕ) (source : Source) :
    source.SomeOf size (readRawH1Some size source) := by
  obtain ⟨pending, incoming⟩ := source
  unfold readRawH1Some
  by_cases hpending : pending = []
  · subst hpending
    rw [if_neg (by simp)]
    exact someOf_read size incoming
  · rw [if_pos hpending]
    exact someOf_pending hpending incoming

theorem readRawFramesSome_of (size : ℕ) {source : Source}
    (hfull : ∀ frame ∈ source.incoming, frame ≠ []) :
    source.SomeOf size (readRawFramesSome size source) ∧
      ∀ frame ∈ (readRawFramesSome size source).2.incoming, frame ≠ [] := by
  obtain ⟨pending, incoming⟩ := source
  unfold readRawFramesSome
  rw [Stateful.run_bind (show Stateful.get _ = (.ok _, _) from rfl)]
  by_cases hpending : pending = []
  · subst hpending
    rw [if_pos rfl]
    cases incoming with
    | nil => exact ⟨.inl ⟨rfl, rfl, rfl⟩, hfull⟩
    | cons chunk incoming =>
      have hchunk : chunk ≠ [] := hfull chunk List.mem_cons_self
      have hpending := @someOf_pending size chunk hchunk incoming
      have hsame : Source.segments ⟨[], chunk :: incoming⟩ = Source.segments ⟨chunk, incoming⟩ := by
        simp [Source.segments]
      refine ⟨?_, fun frame hframe => hfull frame (List.mem_cons_of_mem _ hframe)⟩
      unfold Source.SomeOf at hpending ⊢
      rw [hsame]
      exact hpending
  · rw [if_neg hpending]
    exact ⟨someOf_pending hpending incoming, hfull⟩

theorem Source.SomeOf.unique {size : ℕ} {source source' : Source}
    {result result' : Outcome Bytes × Source}
    (h : source.SomeOf size result) (h' : source'.SomeOf size result')
    (hsame : source.segments = source'.segments) :
    result.1 = result'.1 ∧ result.2.segments = result'.2.segments := by
  rcases h with ⟨hnone, hresult, hrest⟩ | ⟨segment, segments, hsegments, hresult, hrest⟩ <;>
    rcases h' with ⟨hnone', hresult', hrest'⟩ | ⟨segment', segments', hsegments', hresult', hrest'⟩
  · exact ⟨hresult.trans hresult'.symm, hrest.trans hrest'.symm⟩
  · rw [← hsame, hnone] at hsegments'
    cases hsegments'
  · rw [hsame, hnone'] at hsegments
    cases hsegments
  · rw [hsame, hsegments'] at hsegments
    cases hsegments
    exact ⟨hresult.trans hresult'.symm, hrest.trans hrest'.symm⟩

theorem relates_readSome (size : ℕ) :
    Stateful.Relates Alike (readRawH1Some size) (readRawFramesSome size) := by
  intro source source' hsame
  obtain ⟨hsome, hfull⟩ := readRawFramesSome_of size hsame.full
  obtain ⟨hresult, hsegments⟩ := (readRawH1Some_of size source).unique hsome hsame.segments
  exact ⟨congrArg Outcome.blank hresult, fun _ _ => ⟨hsegments, hfull⟩⟩

theorem readRawH1Exact_segments {size : ℕ} {source : Source} (h : size ≤ source.ahead.length) :
    (readRawH1Exact size source).2.segments = cut size source.segments := by
  obtain ⟨pending, incoming⟩ := source
  have h : size ≤ (pending ++ incoming.flatten).length := h
  rw [List.length_append] at h
  unfold readRawH1Exact
  dsimp only
  by_cases henough : size ≤ pending.length
  · rw [if_neg (by rw [List.length_take_of_le henough]; exact Nat.lt_irrefl size)]
    exact drop_filter incoming henough
  · have hlength : (pending.take size).length = pending.length := by
      rw [List.take_of_length_le (by omega)]
    rw [if_pos (by omega), hlength]
    have hsegments := @segments_readExact (size - pending.length) incoming (by omega)
    have hdrop : pending.drop size = [] := List.drop_of_length_le (by omega)
    have hcut : cut size (Source.segments ⟨pending, incoming⟩) =
        cut (size - pending.length) (incoming.filter (· ≠ [])) := by
      rw [Source.segments, cut_cons, if_neg (show ¬size < pending.length by omega)]
    rw [hcut, ← hsegments]
    cases hread : Segments.readExact (size - pending.length) incoming with
    | mk result rest =>
      cases result <;> simp [Source.segments, hdrop]

theorem readRawFramesExact_segments (closedEarly : String) {size : ℕ} {source : Source}
    (h : size ≤ source.ahead.length) (hfull : ∀ frame ∈ source.incoming, frame ≠ []) :
    (readRawFramesExact closedEarly size source).2.segments = cut size source.segments ∧
      ∀ frame ∈ (readRawFramesExact closedEarly size source).2.incoming, frame ≠ [] := by
  obtain ⟨pulled, rest, hincoming, hpull, -, -⟩ := pullUntil_ok closedEarly h
  have hsegments := segments_pullUntil closedEarly h
  have hexact : readRawFramesExact closedEarly size source =
      takePending size ⟨source.pending ++ pulled.flatten, rest⟩ := Stateful.run_bind hpull
  rw [hpull] at hsegments
  rw [hexact]
  exact ⟨hsegments, fun frame hframe => hfull frame (hincoming ▸ List.mem_append_right _ hframe)⟩

theorem relates_readExact (closedEarly : String) (size : ℕ) :
    Stateful.Relates Alike (readRawH1Exact size) (readRawFramesExact closedEarly size) := by
  intro source source' hsame
  by_cases henough : size ≤ source.ahead.length
  · have henough' : size ≤ source'.ahead.length := hsame.ahead ▸ henough
    obtain ⟨rest, hread, -⟩ := rawH1_lawful.readExact henough
    obtain ⟨rest', hread', -⟩ := (readRawFrames_lawful closedEarly).readExact henough'
    obtain ⟨hsegments, hfull⟩ := readRawFramesExact_segments closedEarly henough' hsame.full
    refine ⟨?_, fun _ _ => ⟨?_, hfull⟩⟩
    · show (rawH1.readExact size source).1.blank =
        ((⟨readRawFramesSome, readRawFramesExact closedEarly⟩ :
          RawReader Source).readExact size source').1.blank
      rw [hread, hread', hsame.ahead]
    · rw [readRawH1Exact_segments henough, hsegments, hsame.segments]
  · obtain ⟨e, rest, hread⟩ := rawH1_lawful.short (Nat.not_le.mp henough)
    obtain ⟨e', rest', hread'⟩ :=
      (readRawFrames_lawful closedEarly).short (hsame.ahead ▸ Nat.not_le.mp henough)
    have hread : readRawH1Exact size source = (.err e, rest) := hread
    have hread' : readRawFramesExact closedEarly size source' = (.err e', rest') := hread'
    rw [hread, hread']
    exact ⟨rfl, nofun⟩

section

variable {σ τ : Type} {R : σ → τ → Prop} {raw : RawReader σ} {raw' : RawReader τ}

/-- The readers are in the same state over related sources. -/
structure InStep (R : σ → τ → Prop) (reader : NaiveReader σ) (reader' : NaiveReader τ) : Prop where
  state : reader.state = reader'.state
  source : R reader.source reader'.source

theorem relates_onSource {α : Type} {x : Stateful σ α} {y : Stateful τ α}
    (h : Stateful.Relates R x y) :
    Stateful.Relates (InStep R) (onSource x) (onSource y) :=
  h.zoom (fun _ _ hst => hst.source) fun _ _ _ _ hst hsource => ⟨hst.state, hsource⟩

theorem relates_setState (f : NaiveReadState → NaiveReadState) :
    Stateful.Relates (InStep R) (setState f) (setState f) :=
  .update fun _ _ hst => ⟨congrArg f hst.state, hst.source⟩

theorem relates_readNaiveData
    (hsome : ∀ size, Stateful.Relates R (raw.readSome size) (raw'.readSome size))
    (hexact : ∀ size, Stateful.Relates R (raw.readExact size) (raw'.readExact size)) (size : ℕ) :
    Stateful.Relates (InStep R) (readNaiveData raw size) (readNaiveData raw' size) := by
  have hskip : Stateful.Relates (InStep R) (skipPadding raw) (skipPadding raw') := by
    refine .get_bind fun reader reader' hsame => ?_
    rw [hsame.state]
    split
    · exact .bind (relates_onSource (hexact _)) fun _ => relates_setState _
    · exact .pure ()
  have hchunk : Stateful.Relates (InStep R) (readChunk raw size) (readChunk raw' size) := by
    refine .bind (relates_onSource (hexact 3)) fun header => .bind (.lift _) fun paddingSize => ?_
    exact .bind (relates_onSource (hsome _)) fun bytes =>
      .bind (relates_setState _) fun _ => .pure bytes
  refine .get_bind fun reader reader' hsame => ?_
  rw [hsame.state]
  split
  · refine .get_bind fun reader reader' hsame => ?_
    rw [hsame.state]
    exact .bind (relates_onSource (hsome _)) fun bytes =>
      .bind (relates_setState _) fun _ => .pure bytes
  · refine .bind hskip fun _ => .get_bind fun reader reader' hsame => ?_
    rw [hsame.state]
    split
    · exact hchunk
    · exact relates_onSource (hsome size)

end

/-! ### The round trip -/

def naiveReaders : List (ℕ → Stateful (NaiveReader Source) Bytes) :=
  [readNaiveH1Data, readNaiveH2Data, readNaiveH3Data, readNaiveH3ServerData]

theorem ahead_start {stalls : ℕ → Source → Prop} (draw : ℕ → UInt8) (writes : List Bytes)
    (enabled : Bool) {source : Source}
    (hsource : source.ahead = writeAll draw writes (naiveStates enabled).2)
    (hquiet : ∀ k, ¬stalls k source) :
    Ahead Source.ahead stalls ⟨(naiveStates enabled).1, source⟩ writes.flatten := by
  refine ⟨hquiet, [], [], source.ahead, writes.flatten, rfl, ?_, ?_, rfl, ?_⟩
  · cases enabled <;> rfl
  · cases enabled <;> rfl
  · have hcarries := @carries_writeAll draw writes (naiveStates enabled).2
      (by cases enabled <;> decide)
    rw [hsource]
    cases enabled <;> exact hcarries

theorem transcript_frames (closedEarly : String) (sizes : List ℕ) (state : NaiveReadState)
    {source : Source} (hfull : ∀ frame ∈ source.incoming, frame ≠ []) :
    (transcript readNaiveH1Data sizes ⟨state, source⟩).map Outcome.blank =
      (transcript (readNaiveData ⟨readRawFramesSome, readRawFramesExact closedEarly⟩) sizes
        ⟨state, source⟩).map Outcome.blank :=
  Stateful.Relates.transcript
    (relates_readNaiveData (fun size => relates_readSome size) fun size =>
      relates_readExact closedEarly size)
    sizes ⟨rfl, rfl, hfull⟩

/-- With padding or without, whatever the draws, the cuts and the buffers are: each of the readers
returns the bytes that were written, in pieces of at least one byte, before it says that the stream
is at its end or fails. Over the same transport all of them return the same, call by call. -/
theorem naive_round_trip :
    (∀ read ∈ naiveReaders, ∀ draw writes enabled source sizes,
      source.ahead = writeAll draw writes (naiveStates enabled).2 →
        (∀ segment ∈ source.incoming, segment ≠ []) →
      (∀ i, 0 < sizes i) →
      ∃ pieces : List Bytes, pieces.flatten = writes.flatten ∧ (∀ piece ∈ pieces, piece ≠ []) ∧
        (∀ n < pieces.length, callResult read sizes ⟨(naiveStates enabled).1, source⟩ n =
          .ok (pieces.getD n [])) ∧
        (callResult read sizes ⟨(naiveStates enabled).1, source⟩ pieces.length = .ok [] ∨
          ∃ e, callResult read sizes ⟨(naiveStates enabled).1, source⟩ pieces.length = .err e)) ∧
    ∀ read ∈ naiveReaders, ∀ read' ∈ naiveReaders,
      ∀ (state : NaiveReadState) (source : Source) (sizes : List ℕ),
      (∀ segment ∈ source.incoming, segment ≠ []) →
      (transcript read sizes ⟨state, source⟩).map Outcome.blank =
        (transcript read' sizes ⟨state, source⟩).map Outcome.blank := by
  constructor
  · intro read hread draw writes enabled source sizes hsource hfull hsizes
    have hframes := fun closedEarly : String => (readRawFrames_lawful closedEarly).pieces hsizes
      (ahead_start draw writes enabled hsource (no_emptyFrameAt hfull))
    simp only [naiveReaders, List.mem_cons, List.not_mem_nil, or_false] at hread
    rcases hread with rfl | rfl | rfl | rfl
    · exact rawH1_lawful.pieces hsizes (ahead_start draw writes enabled hsource fun _ => not_false)
    · exact hframes _
    · exact hframes _
    · exact hframes _
  · intro read hread read' hread' state source sizes hfull
    have hfirst : ∀ read ∈ naiveReaders,
      (transcript readNaiveH1Data sizes ⟨state, source⟩).map Outcome.blank =
        (transcript read sizes ⟨state, source⟩).map Outcome.blank := by
      intro read hread
      simp only [naiveReaders, List.mem_cons, List.not_mem_nil, or_false] at hread
      rcases hread with rfl | rfl | rfl | rfl
      · rfl
      · exact transcript_frames _ sizes state hfull
      · exact transcript_frames _ sizes state hfull
      · exact transcript_frames _ sizes state hfull
    rw [← hfirst read hread, ← hfirst read' hread']

/-- Two writes in three segments, read two bytes at a time. -/
theorem two_writes_returned :
    ∃ pieces : List Bytes, pieces.flatten = [1, 2, 3] ∧ (∀ piece ∈ pieces, piece ≠ []) ∧
      (∀ n < pieces.length, callResult readNaiveH2Data (fun _ => 2)
        ⟨(naiveStates true).1, ⟨[], [[0, 2, 1, 1], [2, 0, 0, 1], [0, 3]]⟩⟩ n =
          .ok (pieces.getD n [])) ∧
      (callResult readNaiveH2Data (fun _ => 2)
          ⟨(naiveStates true).1, ⟨[], [[0, 2, 1, 1], [2, 0, 0, 1], [0, 3]]⟩⟩
          pieces.length = .ok [] ∨
        ∃ e, callResult readNaiveH2Data (fun _ => 2)
          ⟨(naiveStates true).1, ⟨[], [[0, 2, 1, 1], [2, 0, 0, 1], [0, 3]]⟩⟩
          pieces.length = .err e) :=
  naive_round_trip.1 readNaiveH2Data (by simp [naiveReaders]) (fun n => if n = 0 then 1 else 0)
    [[1, 2], [3]] true _ (fun _ => 2) (by decide +kernel) (by decide) fun _ => Nat.succ_pos 1

end Aerion.Naive
