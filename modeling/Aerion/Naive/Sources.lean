import Aerion.Naive.Codec

/-!
# What the Naive readers fetch

One set of laws for the raw reads of the four readers. A read of so many
bytes takes the bytes that are ahead, or fails if there are fewer. A read of
some bytes takes none at the end, and, over DATA frames, also where it meets
an empty frame: the reader stalls there. Where it stalls is said by the
number of bytes before the empty frame, so that it can be told before they
are read.
-/

namespace Aerion.Naive

open Lib Outcome

structure Lawful {σ : Type} (raw : RawReader σ) (ahead : σ → Bytes) (stalls : ℕ → σ → Prop) : Prop where
  readSome : ∀ size s, ∃ bytes s', raw.readSome size s = (.ok bytes, s') ∧ ahead s = bytes ++ ahead s' ∧
    bytes.length ≤ size ∧ (0 < size → (bytes = [] ↔ ahead s = [] ∨ stalls 0 s)) ∧
    ∀ k, stalls k s' → stalls (bytes.length + k) s
  readExact : ∀ {size s}, size ≤ (ahead s).length →
    ∃ s', raw.readExact size s = (.ok ((ahead s).take size), s') ∧ ahead s' = (ahead s).drop size ∧
      ∀ k, stalls k s' ↔ stalls (size + k) s
  short : ∀ {size s}, (ahead s).length < size → ∃ e s', raw.readExact size s = (.err e, s')

def Source.ahead (source : Source) : Bytes := source.pending ++ source.incoming.flatten

/-! ### The byte stream of HTTP/1.1 -/

theorem take_eq_nil_iff {size : ℕ} (hsize : 0 < size) (bytes : Bytes) : bytes.take size = [] ↔ bytes = [] := by
  rw [List.take_eq_nil_iff]
  exact or_iff_right (Nat.ne_of_gt hsize)

theorem rawH1_lawful : Lawful rawH1 Source.ahead (fun _ _ => False) where
  readSome := by
    intro size source
    show ∃ bytes s', readRawH1Some size source = _ ∧ _
    unfold readRawH1Some
    by_cases hpending : source.pending = []
    · rw [if_neg (by simpa using hpending)]
      have happend := Segments.read_append size source.incoming
      have hlength := Segments.read_length_le size source.incoming
      refine ⟨_, _, rfl, ?_, hlength, fun hsize => ?_, fun _ => id⟩
      · simp only [Source.ahead, hpending, List.nil_append, happend]
      · rw [Segments.read_eq_nil hsize, Source.ahead, hpending, List.nil_append, or_false]
    · rw [if_pos hpending]
      refine ⟨_, _, rfl, ?_, List.length_take_le _ _, fun hsize => ?_, fun _ => id⟩
      · simp only [Source.ahead, ← List.append_assoc, List.take_append_drop]
      · rw [take_eq_nil_iff hsize, or_false]
        simp [Source.ahead, hpending]
  readExact := by
    intro size source hsize
    show ∃ s', readRawH1Exact size source = _ ∧ _
    unfold Source.ahead at hsize
    unfold readRawH1Exact Source.ahead
    rw [List.length_append] at hsize
    by_cases henough : size ≤ source.pending.length
    · have hnot : ¬(source.pending.take size).length < size := by
        rw [List.length_take_of_le henough]
        exact Nat.lt_irrefl size
      simp only [if_neg hnot]
      refine ⟨⟨source.pending.drop size, source.incoming⟩, ?_, ?_, fun _ => trivial⟩
      · rw [List.take_append_of_le_length henough]
      · rw [List.drop_append_of_le_length henough]
    · have htake : source.pending.take size = source.pending := List.take_of_length_le (by omega)
      have hdrop : source.pending.drop size = [] := List.drop_of_length_le (by omega)
      have hfst := Segments.readExact_fst (size - source.pending.length) source.incoming
      have hsnd := Segments.readExact_snd (size - source.pending.length) source.incoming
      rw [if_pos (by omega)] at hfst
      simp only [htake, hdrop, if_pos (show source.pending.length < size by omega)]
      cases hread : Segments.readExact (size - source.pending.length) source.incoming with
      | mk result incoming =>
        rw [hread] at hfst hsnd
        cases hfst
        refine ⟨⟨[], incoming⟩, ?_, ?_, fun _ => trivial⟩
        · rw [List.take_append, htake]
        · rw [List.drop_append, hdrop, List.nil_append, List.nil_append]
          exact hsnd
  short := by
    intro size source hsize
    show ∃ e s', readRawH1Exact size source = _
    unfold Source.ahead at hsize
    unfold readRawH1Exact
    rw [List.length_append] at hsize
    have htake : source.pending.take size = source.pending := List.take_of_length_le (by omega)
    have hfst := Segments.readExact_fst (size - source.pending.length) source.incoming
    rw [if_neg (by omega)] at hfst
    simp only [htake, if_pos (show source.pending.length < size by omega)]
    cases hread : Segments.readExact (size - source.pending.length) source.incoming with
    | mk result incoming =>
      rw [hread] at hfst
      cases hfst
      exact ⟨_, _, rfl⟩

/-! ### DATA frames -/

/-- After so many bytes the next frame is an empty one. -/
def Source.EmptyFrameAt (k : ℕ) (source : Source) : Prop :=
  ∃ before after, source.incoming = before ++ [] :: after ∧ (source.pending ++ before.flatten).length = k

theorem no_emptyFrameAt {source : Source} (hfull : ∀ frame ∈ source.incoming, frame ≠ []) (k : ℕ) :
    ¬source.EmptyFrameAt k := by
  rintro ⟨before, after, hincoming, -⟩
  exact hfull [] (hincoming ▸ List.mem_append_right _ List.mem_cons_self) rfl

theorem pullUntil_ok {size : ℕ} {pending : Bytes} {incoming : List Bytes} (closedEarly : String)
    (h : size ≤ (pending ++ incoming.flatten).length) :
    ∃ pulled rest, incoming = pulled ++ rest ∧
      pullUntil closedEarly size pending incoming = (.ok (), ⟨pending ++ pulled.flatten, rest⟩) ∧
      size ≤ (pending ++ pulled.flatten).length ∧
      ∀ before after, after ≠ [] → pulled = before ++ after → (pending ++ before.flatten).length < size := by
  induction incoming generalizing pending with
  | nil =>
    rw [List.flatten_nil, List.append_nil] at h
    refine ⟨[], [], rfl, ?_, by simpa using h, ?_⟩
    · rw [pullUntil, if_pos h, List.flatten_nil, List.append_nil]
    · intro before after hafter heq
      exact absurd (List.append_eq_nil_iff.mp heq.symm).2 hafter
  | cons chunk incoming ih =>
    by_cases henough : size ≤ pending.length
    · refine ⟨[], chunk :: incoming, rfl, ?_, by simpa using henough, ?_⟩
      · rw [pullUntil, if_pos henough, List.flatten_nil, List.append_nil]
      · intro before after hafter heq
        exact absurd (List.append_eq_nil_iff.mp heq.symm).2 hafter
    · rw [List.flatten_cons, ← List.append_assoc] at h
      obtain ⟨pulled, rest, rfl, hpull, hsize, hleast⟩ := ih h
      refine ⟨chunk :: pulled, rest, rfl, ?_, ?_, ?_⟩
      · rw [pullUntil, if_neg henough, hpull, List.flatten_cons, List.append_assoc]
      · rwa [List.flatten_cons, ← List.append_assoc]
      · intro before after hafter heq
        cases before with
        | nil =>
          rw [List.flatten_nil, List.append_nil]
          omega
        | cons first before =>
          obtain ⟨rfl, hrest⟩ := List.cons.inj heq
          rw [List.flatten_cons, ← List.append_assoc]
          exact hleast before after hafter hrest

theorem pullUntil_short {size : ℕ} {pending : Bytes} {incoming : List Bytes} (closedEarly : String)
    (h : (pending ++ incoming.flatten).length < size) :
    ∃ s', pullUntil closedEarly size pending incoming = (.err closedEarly, s') := by
  induction incoming generalizing pending with
  | nil =>
    rw [List.flatten_nil, List.append_nil] at h
    exact ⟨_, by rw [pullUntil, if_neg (by omega)]⟩
  | cons chunk incoming ih =>
    have hless : pending.length < size := by
      rw [List.length_append] at h
      omega
    rw [List.flatten_cons, ← List.append_assoc] at h
    obtain ⟨s', hpull⟩ := ih h
    exact ⟨s', by rw [pullUntil, if_neg (by omega), hpull]⟩

theorem emptyFrameAt_drop {size k : ℕ} {pending : Bytes} {pulled rest : List Bytes}
    (hsize : size ≤ (pending ++ pulled.flatten).length)
    (hleast : ∀ before after, after ≠ [] → pulled = before ++ after → (pending ++ before.flatten).length < size) :
    Source.EmptyFrameAt k ⟨(pending ++ pulled.flatten).drop size, rest⟩ ↔
      Source.EmptyFrameAt (size + k) ⟨pending, pulled ++ rest⟩ := by
  rw [List.length_append] at hsize
  constructor
  · rintro ⟨before, after, rfl, hlength⟩
    refine ⟨pulled ++ before, after, by rw [List.append_assoc], ?_⟩
    simp only [List.length_append, List.length_drop, List.flatten_append] at hlength ⊢
    omega
  · rintro ⟨before, after, hincoming, hlength⟩
    rcases List.append_eq_append_iff.mp hincoming with ⟨more, rfl, rfl⟩ | ⟨more, rfl, hrest⟩
    · refine ⟨more, after, rfl, ?_⟩
      simp only [List.length_append, List.length_drop, List.flatten_append] at hlength ⊢
      omega
    · by_cases hmore : more = []
      · subst hmore
        refine ⟨[], after, hrest.symm, ?_⟩
        simp only [List.length_append, List.length_drop, List.flatten_append, List.flatten_nil,
          List.length_nil] at hlength ⊢
        omega
      · have hless := hleast before more hmore rfl
        have hlength : (pending ++ before.flatten).length = size + k := hlength
        omega

theorem readRawFrames_lawful (closedEarly : String) :
    Lawful ⟨readRawFramesSome, readRawFramesExact closedEarly⟩ Source.ahead Source.EmptyFrameAt where
  readSome := by
    intro size source
    show ∃ bytes s', readRawFramesSome size source = _ ∧ _
    unfold readRawFramesSome
    rw [Stateful.run_bind (show Stateful.get source = (.ok source, source) from rfl)]
    obtain ⟨pending, incoming⟩ := source
    by_cases hpending : pending = []
    · subst hpending
      rw [if_pos rfl]
      cases incoming with
      | nil => exact ⟨[], ⟨[], []⟩, rfl, rfl, Nat.zero_le _, fun _ => by simp [Source.ahead], by simp⟩
      | cons chunk incoming =>
        refine ⟨chunk.take size, ⟨chunk.drop size, incoming⟩, rfl, ?_, List.length_take_le _ _,
          fun hsize => ?_, ?_⟩
        · simp [Source.ahead, ← List.append_assoc]
        · rw [take_eq_nil_iff hsize]
          constructor
          · rintro rfl
            exact .inr ⟨[], incoming, rfl, rfl⟩
          · rintro (hnone | ⟨before, after, heq, hlength⟩)
            · exact (List.append_eq_nil_iff.mp (show chunk ++ incoming.flatten = [] from hnone)).1
            · cases before with
              | nil => exact (List.cons.inj heq).1
              | cons first before =>
                obtain ⟨rfl, -⟩ := List.cons.inj heq
                simp only [List.flatten_cons, List.length_append, List.length_nil] at hlength
                exact List.length_eq_zero_iff.mp (by omega)
        · rintro k ⟨before, after, heq, hlength⟩
          have heq : incoming = before ++ [] :: after := heq
          subst heq
          refine ⟨chunk :: before, after, rfl, ?_⟩
          simp only [List.length_append, List.length_drop, List.flatten_cons, List.length_take,
            List.nil_append] at hlength ⊢
          omega
    · rw [if_neg hpending]
      refine ⟨pending.take size, ⟨pending.drop size, incoming⟩, rfl, ?_, List.length_take_le _ _,
        fun hsize => ?_, ?_⟩
      · simp [Source.ahead, ← List.append_assoc]
      · rw [take_eq_nil_iff hsize]
        refine iff_of_false hpending ?_
        rintro (hnone | ⟨before, after, -, hlength⟩)
        · exact hpending (List.append_eq_nil_iff.mp hnone).1
        · exact hpending (List.append_eq_nil_iff.mp (List.length_eq_zero_iff.mp hlength)).1
      · rintro k ⟨before, after, heq, hlength⟩
        refine ⟨before, after, heq, ?_⟩
        simp only [List.length_append, List.length_drop, List.length_take] at hlength ⊢
        omega
  readExact := by
    intro size source hsize
    obtain ⟨pulled, rest, hincoming, hpull, henough, hleast⟩ := pullUntil_ok closedEarly hsize
    have hstep : readRawFramesExact closedEarly size source =
        takePending size ⟨source.pending ++ pulled.flatten, rest⟩ := by
      unfold readRawFramesExact
      exact Stateful.run_bind hpull
    have hahead : source.ahead = source.pending ++ pulled.flatten ++ rest.flatten := by
      rw [Source.ahead, hincoming, List.flatten_append, List.append_assoc]
    refine ⟨⟨(source.pending ++ pulled.flatten).drop size, rest⟩, ?_, ?_, fun k => ?_⟩
    · show readRawFramesExact closedEarly size source = _
      rw [hstep, takePending, hahead, List.take_append_of_le_length henough]
    · rw [hahead, Source.ahead, List.drop_append_of_le_length henough]
    · rw [emptyFrameAt_drop henough hleast, ← hincoming]
  short := by
    intro size source hsize
    obtain ⟨s', hpull⟩ := pullUntil_short closedEarly hsize
    refine ⟨closedEarly, s', ?_⟩
    show readRawFramesExact closedEarly size source = _
    unfold readRawFramesExact
    exact Stateful.run_bind_err hpull

/-! ### One call -/

section

variable {σ : Type} {raw : RawReader σ} {ahead : σ → Bytes} {stalls : ℕ → σ → Prop} {state : NaiveReadState}
  {source : σ} {size : ℕ}

theorem run_onSource {α : Type} {x : Stateful σ α} {result : Outcome α} {source' : σ}
    (h : x source = (result, source')) : onSource x ⟨state, source⟩ = (result, ⟨state, source'⟩) := by
  simp only [onSource, Stateful.zoom, h]

theorem readNaiveData_rest (hrest : 0 < state.readRemaining) :
    readNaiveData raw size ⟨state, source⟩ = readRest raw size ⟨state, source⟩ := by
  unfold readNaiveData
  rw [Stateful.run_bind (show Stateful.get _ = (.ok _, _) from rfl), if_pos hrest]

theorem readNaiveData_next (hrest : state.readRemaining = 0) :
    readNaiveData raw size ⟨state, source⟩ = readNext raw size ⟨state, source⟩ := by
  unfold readNaiveData
  rw [Stateful.run_bind (show Stateful.get _ = (.ok _, _) from rfl),
    if_neg (show ¬0 < state.readRemaining from Nat.not_lt.mpr (Nat.le_zero.mpr hrest))]

theorem Lawful.rest (h : Lawful raw ahead stalls) (hsize : 0 < size) (hrest : 0 < state.readRemaining) :
    ∃ bytes source', readNaiveData raw size ⟨state, source⟩ =
        (.ok bytes, ⟨{ state with readRemaining := state.readRemaining - bytes.length }, source'⟩) ∧
      ahead source = bytes ++ ahead source' ∧ bytes.length ≤ min state.readRemaining size ∧
      (bytes = [] ↔ ahead source = [] ∨ stalls 0 source) ∧
        ∀ k, stalls k source' → stalls (bytes.length + k) source := by
  obtain ⟨bytes, source', hread, hahead, hlength, hnone, hstalls⟩ :=
    h.readSome (min state.readRemaining size) source
  refine ⟨bytes, source', ?_, hahead, hlength, hnone (Nat.lt_min.mpr ⟨hrest, hsize⟩), hstalls⟩
  rw [readNaiveData_rest hrest]
  unfold readRest
  rw [Stateful.run_bind (show Stateful.get _ = (.ok _, _) from rfl), Stateful.run_bind (run_onSource hread)]
  rfl

theorem Lawful.skip (h : Lawful raw ahead stalls) (hpadding : state.paddingRemaining ≤ (ahead source).length) :
    ∃ source', skipPadding raw ⟨state, source⟩ = (.ok (), ⟨{ state with paddingRemaining := 0 }, source'⟩) ∧
      ahead source' = (ahead source).drop state.paddingRemaining ∧
      ∀ k, stalls k source' ↔ stalls (state.paddingRemaining + k) source := by
  unfold skipPadding
  rw [Stateful.run_bind (show Stateful.get _ = (.ok _, _) from rfl)]
  by_cases hzero : state.paddingRemaining = 0
  · rw [if_neg (by simp [hzero])]
    refine ⟨source, ?_, by rw [hzero, List.drop_zero], fun k => by rw [hzero, Nat.zero_add]⟩
    rw [← hzero]
    rfl
  · obtain ⟨source', hread, hahead, hstalls⟩ := h.readExact hpadding
    refine ⟨source', ?_, hahead, hstalls⟩
    rw [if_pos (show 0 < state.paddingRemaining from Nat.pos_of_ne_zero hzero)]
    unfold dropPadding
    rw [Stateful.run_bind (run_onSource hread)]
    rfl

theorem Lawful.skip_short (h : Lawful raw ahead stalls) (hrest : state.readRemaining = 0)
    (hpadding : (ahead source).length < state.paddingRemaining) :
    ∃ e, (readNaiveData raw size ⟨state, source⟩).1 = .err e := by
  obtain ⟨e, source', hread⟩ := h.short hpadding
  have hskip : skipPadding raw ⟨state, source⟩ = (.err e, ⟨state, source'⟩) := by
    unfold skipPadding
    rw [Stateful.run_bind (show Stateful.get _ = (.ok _, _) from rfl),
      if_pos (show 0 < state.paddingRemaining from Nat.zero_lt_of_lt hpadding)]
    unfold dropPadding
    exact Stateful.run_bind_err (run_onSource hread)
  rw [readNaiveData_next hrest]
  unfold readNext
  rw [Stateful.run_bind_err hskip]
  exact ⟨e, rfl⟩

theorem Lawful.raw_ (h : Lawful raw ahead stalls) (hsize : 0 < size) (hrest : state.readRemaining = 0)
    (hpadding : state.paddingRemaining ≤ (ahead source).length) (hraw : ¬state.readPadding < naivePaddingCount) :
    ∃ bytes source', readNaiveData raw size ⟨state, source⟩ =
        (.ok bytes, ⟨{ state with paddingRemaining := 0 }, source'⟩) ∧
      (ahead source).drop state.paddingRemaining = bytes ++ ahead source' ∧
      (bytes = [] ↔ (ahead source).drop state.paddingRemaining = [] ∨ stalls state.paddingRemaining source) ∧
      ∀ k, stalls k source' → stalls (state.paddingRemaining + (bytes.length + k)) source := by
  obtain ⟨skipped, hskip, hahead, hstalls⟩ := h.skip hpadding
  obtain ⟨bytes, source', hread, happend, -, hnone, hlater⟩ := h.readSome size skipped
  refine ⟨bytes, source', ?_, by rw [← hahead, happend], ?_, fun k hk => (hstalls _).mp (hlater k hk)⟩
  · rw [readNaiveData_next hrest]
    unfold readNext
    rw [Stateful.run_bind hskip, Stateful.run_bind (show Stateful.get _ = (.ok _, _) from rfl), if_neg hraw]
    exact run_onSource hread
  · rw [hnone hsize, hahead, hstalls 0, Nat.add_zero]

theorem Lawful.header_short (h : Lawful raw ahead stalls) (hrest : state.readRemaining = 0)
    (hpadding : state.paddingRemaining ≤ (ahead source).length) (hpadded : state.readPadding < naivePaddingCount)
    (hheader : ((ahead source).drop state.paddingRemaining).length < 3) :
    ∃ e, (readNaiveData raw size ⟨state, source⟩).1 = .err e := by
  obtain ⟨skipped, hskip, hahead, -⟩ := h.skip hpadding
  rw [← hahead] at hheader
  obtain ⟨e, source', hread⟩ := h.short hheader
  rw [readNaiveData_next hrest]
  unfold readNext
  rw [Stateful.run_bind hskip, Stateful.run_bind (show Stateful.get _ = (.ok _, _) from rfl), if_pos hpadded]
  unfold readChunk
  rw [Stateful.run_bind_err (run_onSource hread)]
  exact ⟨e, rfl⟩

theorem Lawful.chunk (h : Lawful raw ahead stalls) (hrest : state.readRemaining = 0)
    (hpadded : state.readPadding < naivePaddingCount) {padding length data : Bytes} {paddingSize : UInt8}
    (hahead : ahead source = padding ++ (length ++ (paddingSize :: data)))
    (hpadding : padding.length = state.paddingRemaining) (hlength : length.length = 2) :
    ∃ bytes source', readNaiveData raw size ⟨state, source⟩ = (.ok bytes,
        ⟨⟨state.readPadding + 1, ofBe length - bytes.length, paddingSize.toNat⟩, source'⟩) ∧
      data = bytes ++ ahead source' ∧ bytes.length ≤ min (ofBe length) size ∧
      (0 < min (ofBe length) size → (bytes = [] ↔ data = [] ∨ stalls (state.paddingRemaining + 3) source)) ∧
      ∀ k, stalls k source' → stalls (state.paddingRemaining + (3 + (bytes.length + k))) source := by
  have hlong : state.paddingRemaining ≤ (ahead source).length := by
    rw [hahead, List.length_append]
    omega
  obtain ⟨skipped, hskip, hskipped, hstalls⟩ := h.skip hlong
  rw [hahead, ← hpadding, List.drop_left] at hskipped
  have hthree : 3 ≤ (ahead skipped).length := by
    simp only [hskipped, List.length_append, List.length_cons]
    omega
  obtain ⟨opened, hheader, hopened, hstalls'⟩ := h.readExact hthree
  have hlen : (length ++ [paddingSize]).length = 3 := by simp [hlength]
  have hsplit : ahead skipped = (length ++ [paddingSize]) ++ data := by
    rw [hskipped, List.append_assoc]
    rfl
  rw [hsplit, ← hlen, List.take_left] at hheader
  rw [hsplit, ← hlen, List.drop_left] at hopened
  obtain ⟨bytes, source', hread, happend, hbytes, hnone, hlater⟩ := h.readSome (min (ofBe length) size) opened
  rw [hopened] at happend hnone
  refine ⟨bytes, source', ?_, happend, hbytes, fun hpos => ?_,
    fun k hk => (hstalls _).mp ((hstalls' _).mp (hlater k hk))⟩
  · rw [readNaiveData_next hrest]
    unfold readNext
    rw [Stateful.run_bind hskip, Stateful.run_bind (show Stateful.get _ = (.ok _, _) from rfl), if_pos hpadded]
    unfold readChunk
    rw [← hlen, Stateful.run_bind (run_onSource hheader)]
    have htake : (length ++ [paddingSize]).take 2 = length := by rw [← hlength, List.take_left]
    have hindex : index (length ++ [paddingSize]) 2 = .ok paddingSize := by
      rw [index_ok, ← hlength]
      exact List.getElem?_concat_length
    rw [Stateful.run_lift_bind hindex, htake, Stateful.run_bind (run_onSource hread)]
    rfl
  · rw [hnone hpos, hstalls' 0, hstalls, Nat.add_zero]

end

end Aerion.Naive
