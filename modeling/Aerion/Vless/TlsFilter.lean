import Aerion.Vless.Vision

/-!
# The TLS filter of the Vision flow

`TlsFilter::observe` (`src/vless_vision.rs`) looks for the hello messages of
an inner TLS in what passes in each direction. It collects records, and the
handshake messages in them, in two buffers, and stops looking at a direction
for good once that is not a handshake.

The source indexes and slices its buffers; `tryObserve` does so too, and
panics outside of them. It returns what `observe` computes.
-/

namespace Aerion.Vless.Vision

open Lib Outcome

/-! ### The indexing of the source -/

/-- The loop over the extensions; each takes four bytes at least, so their number is fuel enough. -/
def tryNamesTls13 : ℕ → Bytes → Outcome Bool
  | 0, _ => .ok false
  | fuel + 1, extensions =>
    if 4 ≤ extensions.length then do
      let k₀ ← index extensions 0
      let k₁ ← index extensions 1
      let l₀ ← index extensions 2
      let l₁ ← index extensions 3
      match part extensions 4 (ofBe [l₀, l₁]) with
      | some value =>
        if ofBe [k₀, k₁] = 43 ∧ value = [3, 4] then .ok true
        else do
          let rest ← slice extensions (4 + ofBe [l₀, l₁]) extensions.length
          tryNamesTls13 fuel rest
      | none => .ok false
    else .ok false

/-- What follows the cipher suite, which starts at `cipherOffset`. -/
def tryExtensions (hello : Bytes) (cipherOffset : ℕ) : Outcome Bool :=
  match part hello (cipherOffset + 3) 2 with
  | none => .ok false
  | some size => do
    let s₀ ← index size 0
    let s₁ ← index size 1
    match part hello (cipherOffset + 5) (ofBe [s₀, s₁]) with
    | none => .ok false
    | some extensions => tryNamesTls13 extensions.length extensions

def trySuite (hello : Bytes) (cipherOffset : ℕ) : Outcome Bool :=
  match part hello cipherOffset 2 with
  | none => .ok false
  | some suite => do
    let c₀ ← index suite 0
    let c₁ ← index suite 1
    if ofBe [c₀, c₁] < 0x1301 ∨ 0x1304 < ofBe [c₀, c₁] then .ok false
    else tryExtensions hello cipherOffset

def tryServerHelloAllowsDirect (hello : Bytes) : Outcome Bool :=
  if hello.length < 38 then .ok false
  else do
    let version ← slice hello 0 2
    if version ≠ [3, 3] then .ok false
    else do
      let sessionLen ← index hello 34
      trySuite hello (35 + sessionLen.toNat)

/-- Only a server hello has something to say on `direct`. -/
def tryDirect (kind : UInt8) (handshake : Bytes) (len : ℕ) (direct : Bool) : Outcome Bool :=
  if kind = 2 then do
    let hello ← slice handshake 4 (4 + len)
    tryServerHelloAllowsDirect hello
  else .ok direct

def tryReadMessages : ℕ → Bytes → Bool → Bool → Outcome Messages
  | 0, handshake, tls, direct => .ok ⟨handshake, false, tls, direct⟩
  | fuel + 1, handshake, tls, direct =>
    if 4 ≤ handshake.length then do
      let l₀ ← index handshake 1
      let l₁ ← index handshake 2
      let l₂ ← index handshake 3
      if 65536 < ofBe [l₀, l₁, l₂] then .ok ⟨[], true, tls, direct⟩
      else if handshake.length < 4 + ofBe [l₀, l₁, l₂] then .ok ⟨handshake, false, tls, direct⟩
      else do
        let kind ← index handshake 0
        let direct ← tryDirect kind handshake (ofBe [l₀, l₁, l₂]) direct
        let rest ← slice handshake (4 + ofBe [l₀, l₁, l₂]) handshake.length
        tryReadMessages fuel rest (tls || kind = 1 || kind = 2) direct
    else .ok ⟨handshake, false, tls, direct⟩

def tryRecord (buffer : Bytes) (len : ℕ) (seen : Messages) : Outcome (Bytes × Messages) := do
  let record ← slice buffer 5 (5 + len)
  let rest ← slice buffer (5 + len) buffer.length
  let handshake := seen.handshake ++ record
  let seen ← tryReadMessages handshake.length handshake seen.tls seen.direct
  return (rest, seen)

def tryReadRecords : ℕ → Bytes → Messages → Outcome (Bytes × Messages)
  | 0, buffer, seen => .ok (buffer, seen)
  | fuel + 1, buffer, seen =>
    if buffer.length < 5 then .ok (buffer, seen)
    else do
      let kind ← index buffer 0
      let major ← index buffer 1
      if kind ≠ 22 ∨ major ≠ 3 then .ok ([], { seen with handshake := [], stopped := true })
      else do
        let l₀ ← index buffer 3
        let l₁ ← index buffer 4
        if 18432 < ofBe [l₀, l₁] then .ok ([], { seen with stopped := true })
        else if buffer.length < 5 + ofBe [l₀, l₁] then .ok (buffer, seen)
        else do
          let next ← tryRecord buffer (ofBe [l₀, l₁]) seen
          if next.2.stopped then .ok next else tryReadRecords fuel next.1 next.2

namespace TlsFilter

def probe (filter : TlsFilter) (incoming : Bool) : TlsProbe :=
  if incoming then filter.incoming else filter.outgoing

def afterRecords (filter : TlsFilter) (incoming : Bool) (read : Bytes × Messages) : TlsFilter :=
  { incoming := if incoming then ⟨read.1, read.2.handshake, read.2.stopped⟩ else filter.incoming
    outgoing := if incoming then filter.outgoing else ⟨read.1, read.2.handshake, read.2.stopped⟩
    tls := read.2.tls
    direct := read.2.direct }

/-- `TlsFilter::observe`, with the indexing of the source. -/
def tryObserve (filter : TlsFilter) (payload : Bytes) (incoming : Bool) : Outcome TlsFilter :=
  if (filter.probe incoming).stopped then .ok filter
  else do
    let buffer := (filter.probe incoming).buffer ++ payload
    let read ← tryReadRecords buffer.length buffer
      ⟨(filter.probe incoming).handshake, false, filter.tls, filter.direct⟩
    return filter.afterRecords incoming read

end TlsFilter

/-! ### No index is out of bounds -/

theorem part_some {bytes out : Bytes} {start len : ℕ} (h : part bytes start len = some out) :
    start + len ≤ bytes.length ∧ out = (bytes.drop start).take len ∧ out.length = len := by
  unfold part at h
  split at h
  · rename_i hle
    cases h
    exact ⟨hle, rfl, by rw [List.length_take, List.length_drop]; omega⟩
  · cases h

theorem slice_drop {bytes : Bytes} {n : ℕ} (h : n ≤ bytes.length) :
    slice bytes n bytes.length = .ok (bytes.drop n) :=
  slice_ok.mpr ⟨h, Nat.le_refl _, by rw [List.take_length]⟩

theorem slice_part {bytes : Bytes} {start len : ℕ} (h : start + len ≤ bytes.length) :
    slice bytes start (start + len) = .ok ((bytes.drop start).take len) :=
  slice_ok.mpr ⟨Nat.le_add_right _ _, h, by rw [List.drop_take, Nat.add_sub_cancel_left]⟩

theorem exists_pair {bytes : Bytes} (h : bytes.length = 2) : ∃ a b, bytes = [a, b] := by
  match bytes, h with
  | [a, b], _ => exact ⟨a, b, rfl⟩

theorem tryNamesTls13_ok {fuel : ℕ} {extensions : Bytes} (h : extensions.length ≤ fuel) :
    tryNamesTls13 fuel extensions = .ok (namesTls13 extensions) := by
  induction fuel generalizing extensions with
  | zero =>
    obtain rfl := List.length_eq_zero_iff.mp (Nat.le_zero.mp h)
    rw [namesTls13]
    rfl
  | succ fuel ih =>
    rw [tryNamesTls13, namesTls13]
    split
    · match extensions with
      | k₀ :: k₁ :: l₀ :: l₁ :: rest =>
        change (match part (k₀ :: k₁ :: l₀ :: l₁ :: rest) 4 (ofBe [l₀, l₁]) with
          | some value => _
          | none => _) = _
        dsimp only [List.take, List.drop]
        cases hpart : part (k₀ :: k₁ :: l₀ :: l₁ :: rest) 4 (ofBe [l₀, l₁]) with
        | none => rfl
        | some value =>
          have hle := (part_some hpart).1
          dsimp only
          split
          · rfl
          · rw [slice_drop hle, ok_bind, ih]
            rw [List.length_drop]
            omega
    · rfl

theorem tryExtensions_ok (hello : Bytes) (cipherOffset : ℕ) :
    tryExtensions hello cipherOffset = .ok (match part hello (cipherOffset + 3) 2 with
      | none => false
      | some size => match part hello (cipherOffset + 5) (ofBe size) with
        | none => false
        | some extensions => namesTls13 extensions) := by
  unfold tryExtensions
  cases hsize : part hello (cipherOffset + 3) 2 with
  | none => rfl
  | some size =>
    obtain ⟨a, b, rfl⟩ := exists_pair (part_some hsize).2.2
    change (match part hello (cipherOffset + 5) (ofBe [a, b]) with
      | none => _
      | some extensions => _) = _
    dsimp only
    cases part hello (cipherOffset + 5) (ofBe [a, b]) with
    | none => rfl
    | some extensions => exact tryNamesTls13_ok (Nat.le_refl _)

theorem tryServerHelloAllowsDirect_ok (hello : Bytes) :
    tryServerHelloAllowsDirect hello = .ok (serverHelloAllowsDirect hello) := by
  unfold tryServerHelloAllowsDirect serverHelloAllowsDirect
  by_cases hshort : hello.length < 38
  · rw [if_pos hshort, if_pos (.inl hshort)]
  · have hbyte : index hello 34 = .ok (hello.getD 34 0) := by
      rw [index_ok, List.getD_eq_getElem?_getD, List.getElem?_eq_getElem (by omega)]
      rfl
    have hversion : slice hello 0 2 = .ok (hello.take 2) :=
      slice_ok.mpr ⟨Nat.zero_le _, by omega, by rw [List.drop_zero]⟩
    rw [if_neg hshort, hversion, ok_bind]
    by_cases hnot : hello.take 2 ≠ [3, 3]
    · rw [if_pos hnot, if_pos (.inr hnot)]
    · rw [if_neg hnot, if_neg (not_or.mpr ⟨hshort, hnot⟩), hbyte, ok_bind]
      unfold trySuite
      dsimp only
      cases hsuite : part hello (35 + (hello.getD 34 0).toNat) 2 with
      | none => rfl
      | some suite =>
        obtain ⟨a, b, rfl⟩ := exists_pair (part_some hsuite).2.2
        change (if ofBe [a, b] < 0x1301 ∨ 0x1304 < ofBe [a, b] then _ else _) = _
        dsimp only
        split
        · rfl
        · exact tryExtensions_ok hello _

theorem tryDirect_ok {kind : UInt8} {handshake : Bytes} {len : ℕ} {direct : Bool}
    (h : 4 + len ≤ handshake.length) :
    tryDirect kind handshake len direct =
      .ok (if kind = 2 then serverHelloAllowsDirect ((handshake.drop 4).take len) else direct) := by
  unfold tryDirect
  split
  · rw [slice_part h, ok_bind, tryServerHelloAllowsDirect_ok]
  · rfl

theorem tryReadMessages_ok {fuel : ℕ} {handshake : Bytes} (h : handshake.length ≤ fuel)
    (tls direct : Bool) :
    tryReadMessages fuel handshake tls direct = .ok (readMessages handshake tls direct) := by
  induction fuel generalizing handshake tls direct with
  | zero =>
    obtain rfl := List.length_eq_zero_iff.mp (Nat.le_zero.mp h)
    rw [readMessages]
    rfl
  | succ fuel ih =>
    rw [tryReadMessages, readMessages]
    split
    · match handshake with
      | kind :: l₀ :: l₁ :: l₂ :: rest =>
        change (if 65536 < ofBe [l₀, l₁, l₂] then _ else _) = _
        dsimp only [List.take, List.drop, List.headD]
        split
        · rfl
        · split
          · rfl
          · rename_i hlong
            have hle : 4 + ofBe [l₀, l₁, l₂] ≤ (kind :: l₀ :: l₁ :: l₂ :: rest).length :=
              Nat.le_of_not_lt hlong
            change (tryDirect kind _ _ _ >>= fun _ => _) = _
            rw [tryDirect_ok hle, ok_bind, slice_drop hle, ok_bind, ih]
            · rfl
            · rw [List.length_drop]
              omega
    · rfl

theorem exists_header {buffer : Bytes} (h : ¬buffer.length < 5) :
    ∃ kind major minor l₀ l₁ rest, buffer = kind :: major :: minor :: l₀ :: l₁ :: rest := by
  match buffer, h with
  | kind :: major :: minor :: l₀ :: l₁ :: rest, _ => exact ⟨kind, major, minor, l₀, l₁, rest, rfl⟩
  | [], h | [_], h | [_, _], h | [_, _, _], h | [_, _, _, _], h => exact absurd (by simp) h

theorem readRecords_header (kind major minor l₀ l₁ : UInt8) (rest : Bytes) (seen : Messages) :
    readRecords (kind :: major :: minor :: l₀ :: l₁ :: rest) seen =
      if kind ≠ 22 ∨ major ≠ 3 then ([], { seen with handshake := [], stopped := true })
      else if 18432 < ofBe [l₀, l₁] then ([], { seen with stopped := true })
      else if rest.length < ofBe [l₀, l₁] then (kind :: major :: minor :: l₀ :: l₁ :: rest, seen)
      else
        let next := readMessages (seen.handshake ++ rest.take (ofBe [l₀, l₁])) seen.tls seen.direct
        if next.stopped then (rest.drop (ofBe [l₀, l₁]), next)
        else readRecords (rest.drop (ofBe [l₀, l₁])) next := by
  have hdrop : (kind :: major :: minor :: l₀ :: l₁ :: rest).drop (5 + ofBe [l₀, l₁]) =
    rest.drop (ofBe [l₀, l₁]) := by
    rw [← List.drop_drop]
    rfl
  have hlength : (kind :: major :: minor :: l₀ :: l₁ :: rest).length < 5 + ofBe [l₀, l₁] ↔
      rest.length < ofBe [l₀, l₁] := by
    simp only [List.length_cons]
    omega
  rw [readRecords, if_neg (by simp)]
  change (if kind ≠ 22 ∨ major ≠ 3 then _
    else if 18432 < ofBe [l₀, l₁] then _
    else if (kind :: major :: minor :: l₀ :: l₁ :: rest).length < 5 + ofBe [l₀, l₁] then _
    else if (readMessages (seen.handshake ++ rest.take (ofBe [l₀, l₁])) seen.tls
      seen.direct).stopped = true then
      ((kind :: major :: minor :: l₀ :: l₁ :: rest).drop (5 + ofBe [l₀, l₁]), _)
    else readRecords ((kind :: major :: minor :: l₀ :: l₁ :: rest).drop (5 + ofBe [l₀, l₁])) _) = _
  rw [if_congr hlength rfl rfl, hdrop]
  rfl

theorem tryRecord_ok (kind major minor l₀ l₁ : UInt8) {rest : Bytes} (seen : Messages)
    (h : ¬rest.length < ofBe [l₀, l₁]) :
    tryRecord (kind :: major :: minor :: l₀ :: l₁ :: rest) (ofBe [l₀, l₁]) seen =
      .ok (rest.drop (ofBe [l₀, l₁]),
        readMessages (seen.handshake ++ rest.take (ofBe [l₀, l₁])) seen.tls seen.direct) := by
  have hle : 5 + ofBe [l₀, l₁] ≤ (kind :: major :: minor :: l₀ :: l₁ :: rest).length := by
    simp only [List.length_cons]
    omega
  unfold tryRecord
  rw [slice_part hle, ok_bind, slice_drop hle, ok_bind, ← List.drop_drop]
  dsimp only [List.drop]
  rw [tryReadMessages_ok (Nat.le_refl _)]
  rfl

theorem tryReadRecords_ok {fuel : ℕ} {buffer : Bytes} (h : buffer.length ≤ fuel) (seen : Messages) :
    tryReadRecords fuel buffer seen = .ok (readRecords buffer seen) := by
  induction fuel generalizing buffer seen with
  | zero =>
    obtain rfl := List.length_eq_zero_iff.mp (Nat.le_zero.mp h)
    rw [readRecords]
    rfl
  | succ fuel ih =>
    rw [tryReadRecords]
    by_cases hshort : buffer.length < 5
    · rw [if_pos hshort, readRecords, if_pos hshort]
    · rw [if_neg hshort]
      obtain ⟨kind, major, minor, l₀, l₁, rest, rfl⟩ := exists_header hshort
      rw [readRecords_header]
      change (if kind ≠ 22 ∨ major ≠ 3 then _ else _) = _
      by_cases hkind : kind ≠ 22 ∨ major ≠ 3
      · rw [if_pos hkind, if_pos hkind]
      · rw [if_neg hkind, if_neg hkind]
        change (if 18432 < ofBe [l₀, l₁] then _ else _) = _
        by_cases hlen : 18432 < ofBe [l₀, l₁]
        · rw [if_pos hlen, if_pos hlen]
        · rw [if_neg hlen, if_neg hlen]
          by_cases hpart : rest.length < ofBe [l₀, l₁]
          · rw [if_pos (by simp only [List.length_cons]; omega), if_pos hpart]
          · rw [if_neg (by simp only [List.length_cons]; omega), if_neg hpart,
              tryRecord_ok _ _ _ _ _ _ hpart, ok_bind]
            dsimp only
            split
            · rfl
            · rw [ih]
              rw [List.length_drop]
              simp only [List.length_cons] at h
              omega

namespace TlsFilter

theorem observe_eq (filter : TlsFilter) (payload : Bytes) (incoming : Bool) :
    filter.observe payload incoming =
      if (filter.probe incoming).stopped then filter
      else filter.afterRecords incoming (readRecords ((filter.probe incoming).buffer ++ payload)
        ⟨(filter.probe incoming).handshake, false, filter.tls, filter.direct⟩) := rfl

theorem tryObserve_ok (filter : TlsFilter) (payload : Bytes) (incoming : Bool) :
    filter.tryObserve payload incoming = .ok (filter.observe payload incoming) := by
  rw [tryObserve, observe_eq]
  split
  · rfl
  · dsimp only
    rw [tryReadRecords_ok (Nat.le_refl _), ok_bind]
    rfl

end TlsFilter

/-! ### Cuts -/

theorem readRecords_append (buffer more : Bytes) (seen : Messages) (hopen : seen.stopped = false) :
    if (readRecords buffer seen).2.stopped then
      (readRecords (buffer ++ more) seen).2 = (readRecords buffer seen).2
    else
      readRecords (buffer ++ more) seen = readRecords ((readRecords buffer seen).1 ++ more)
        (readRecords buffer seen).2 := by
  induction hlen : buffer.length using Nat.strongRecOn generalizing buffer seen with
  | _ n ih =>
    by_cases hshort : buffer.length < 5
    · have hwait : readRecords buffer seen = (buffer, seen) := by rw [readRecords, if_pos hshort]
      rw [hwait, if_neg (by rw [hopen]; decide)]
    · obtain ⟨kind, major, minor, l₀, l₁, rest, rfl⟩ := exists_header hshort
      simp only [List.cons_append]
      by_cases hkind : kind ≠ 22 ∨ major ≠ 3
      · rw [readRecords_header, readRecords_header, if_pos hkind, if_pos hkind]
        rfl
      · by_cases hlong : 18432 < ofBe [l₀, l₁]
        · rw [readRecords_header, readRecords_header, if_neg hkind, if_neg hkind,
            if_pos hlong, if_pos hlong]
          rfl
        · by_cases hpart : rest.length < ofBe [l₀, l₁]
          · have hwait : readRecords (kind :: major :: minor :: l₀ :: l₁ :: rest) seen =
                (kind :: major :: minor :: l₀ :: l₁ :: rest, seen) := by
              rw [readRecords_header, if_neg hkind, if_neg hlong, if_pos hpart]
            rw [hwait, if_neg (by rw [hopen]; decide)]
            rfl
          · have hle : ofBe [l₀, l₁] ≤ rest.length := Nat.le_of_not_lt hpart
            have hone := readRecords_header kind major minor l₀ l₁ rest seen
            have hmore := readRecords_header kind major minor l₀ l₁ (rest ++ more) seen
            rw [if_neg hkind, if_neg hlong, if_neg hpart] at hone
            rw [if_neg hkind, if_neg hlong, if_neg (by rw [List.length_append]; omega),
              List.take_append_of_le_length hle, List.drop_append_of_le_length hle] at hmore
            dsimp only at hone hmore
            rw [hone, hmore]
            generalize hnext : readMessages (seen.handshake ++ rest.take (ofBe [l₀, l₁])) seen.tls
              seen.direct = next
            by_cases hstop : next.stopped = true
            · rw [if_pos hstop, if_pos hstop, if_pos hstop]
            · rw [if_neg hstop, if_neg hstop]
              refine ih (rest.drop (ofBe [l₀, l₁])).length ?_ _ _ (Bool.eq_false_iff.mpr hstop) rfl
              rw [← hlen, List.length_drop]
              simp only [List.length_cons]
              omega

/-- Two probes that go on alike: they are the same, or both have stopped. -/
def TlsProbe.Same (p q : TlsProbe) : Prop := p = q ∨ p.stopped = true ∧ q.stopped = true

theorem TlsProbe.Same.stopped_eq {p q : TlsProbe} (h : p.Same q) : p.stopped = q.stopped := by
  rcases h with rfl | ⟨hp, hq⟩
  · rfl
  · rw [hp, hq]

namespace TlsFilter

structure Same (f g : TlsFilter) : Prop where
  tls : f.tls = g.tls
  direct : f.direct = g.direct
  probe : ∀ incoming, (f.probe incoming).Same (g.probe incoming)

theorem Same.refl (f : TlsFilter) : f.Same f := ⟨rfl, rfl, fun _ => .inl rfl⟩

theorem probe_afterRecords (filter : TlsFilter) (incoming direction : Bool)
    (read : Bytes × Messages) :
    (filter.afterRecords incoming read).probe direction =
      if direction = incoming then ⟨read.1, read.2.handshake, read.2.stopped⟩
      else filter.probe direction := by
  cases incoming <;> cases direction <;> rfl

theorem afterRecords_afterRecords (filter : TlsFilter) (incoming : Bool)
    (first next : Bytes × Messages) :
    (filter.afterRecords incoming first).afterRecords incoming next =
      filter.afterRecords incoming next := by
  cases incoming <;> rfl

theorem Same.observe {f g : TlsFilter} (h : f.Same g) (payload : Bytes) (incoming : Bool) :
    (f.observe payload incoming).Same (g.observe payload incoming) := by
  rw [observe_eq, observe_eq]
  rcases h.probe incoming with hsame | ⟨hf, hg⟩
  · rw [hsame, h.tls, h.direct]
    split
    · exact h
    · refine ⟨rfl, rfl, fun direction => ?_⟩
      rw [probe_afterRecords, probe_afterRecords]
      split
      · exact .inl rfl
      · exact h.probe direction
  · rw [if_pos hf, if_pos hg]
    exact h

theorem observe_append (f : TlsFilter) (payload more : Bytes) (incoming : Bool) :
    ((f.observe payload incoming).observe more incoming).Same
      (f.observe (payload ++ more) incoming) := by
  rw [observe_eq f payload, observe_eq f (payload ++ more)]
  by_cases hstopped : (f.probe incoming).stopped = true
  · rw [if_pos hstopped, if_pos hstopped, observe_eq, if_pos hstopped]
    exact Same.refl f
  · rw [if_neg hstopped, if_neg hstopped, observe_eq, probe_afterRecords, if_pos rfl,
      ← List.append_assoc]
    have happend := readRecords_append ((f.probe incoming).buffer ++ payload) more
      ⟨(f.probe incoming).handshake, false, f.tls, f.direct⟩ rfl
    revert happend
    generalize readRecords ((f.probe incoming).buffer ++ payload)
      ⟨(f.probe incoming).handshake, false, f.tls, f.direct⟩ = first
    generalize readRecords ((f.probe incoming).buffer ++ payload ++ more)
      ⟨(f.probe incoming).handshake, false, f.tls, f.direct⟩ = whole
    intro happend
    dsimp only
    split at happend
    · rename_i hstop
      rw [if_pos hstop]
      refine ⟨congrArg Messages.tls happend.symm, congrArg Messages.direct happend.symm,
        fun direction => ?_⟩
      rw [probe_afterRecords, probe_afterRecords]
      split
      · exact .inr ⟨hstop, by rw [happend]; exact hstop⟩
      · exact .inl rfl
    · rename_i hopen
      have hseen :
          (⟨first.2.handshake, false, first.2.tls, first.2.direct⟩ : Messages) = first.2 := by
        rw [← Bool.eq_false_iff.mpr hopen]
      rw [if_neg hopen, happend, afterRecords_afterRecords]
      show (f.afterRecords incoming (readRecords (first.1 ++ more)
        ⟨first.2.handshake, false, first.2.tls, first.2.direct⟩)).Same _
      rw [hseen]
      exact Same.refl _

def observeAll (f : TlsFilter) (calls : List (Bytes × Bool)) : TlsFilter :=
  calls.foldl (fun f call => f.observe call.1 call.2) f

def observePieces (f : TlsFilter) (pieces : List Bytes) (incoming : Bool) : TlsFilter :=
  f.observeAll (pieces.map (·, incoming))

def flags (f : TlsFilter) : Bool × Bool × Bool × Bool :=
  (f.tls, f.direct, f.incoming.stopped, f.outgoing.stopped)

theorem Same.flags {f g : TlsFilter} (h : f.Same g) : f.flags = g.flags := by
  have hincoming := (h.probe true).stopped_eq
  have houtgoing := (h.probe false).stopped_eq
  simp only [TlsFilter.probe, if_true, Bool.false_eq_true, if_false] at hincoming houtgoing
  rw [TlsFilter.flags, TlsFilter.flags, h.tls, h.direct, hincoming, houtgoing]

theorem Same.observeAll {f g : TlsFilter} (h : f.Same g) (calls : List (Bytes × Bool)) :
    (f.observeAll calls).Same (g.observeAll calls) := by
  induction calls generalizing f g with
  | nil => exact h
  | cons call calls ih => exact ih (h.observe call.1 call.2)

theorem Same.trans {f g k : TlsFilter} (h : f.Same g) (h' : g.Same k) : f.Same k := by
  refine ⟨h.tls.trans h'.tls, h.direct.trans h'.direct, fun incoming => ?_⟩
  rcases h.probe incoming with heq | ⟨hf, hg⟩
  · rw [heq]
    exact h'.probe incoming
  · exact .inr ⟨hf, (h'.probe incoming).stopped_eq ▸ hg⟩

end TlsFilter

/-! ### What is held between calls -/

def recordBound : ℕ := 5 + 18432
def messageBound : ℕ := 4 + 65536

theorem readMessages_length (handshake : Bytes) (tls direct : Bool) :
    (readMessages handshake tls direct).handshake.length < messageBound := by
  induction hlen : handshake.length using Nat.strongRecOn generalizing handshake tls direct with
  | _ n ih =>
    rw [readMessages]
    split
    · dsimp only
      split
      · exact Nat.zero_lt_succ _
      · split
        · rename_i hsmall hpart
          exact Nat.lt_of_lt_of_le hpart (Nat.add_le_add_left (Nat.le_of_not_lt hsmall) 4)
        · refine ih _ ?_ _ _ _ rfl
          rw [List.length_drop]
          omega
    · rename_i hshort
      exact Nat.lt_of_lt_of_le (Nat.lt_of_not_le hshort) (by decide)

structure Waiting (buffer : Bytes) : Prop where
  short : buffer.length < recordBound
  waits : ∀ seen, readRecords buffer seen = (buffer, seen)

theorem readRecords_ends (buffer : Bytes) (seen : Messages)
    (hseen : seen.handshake.length < messageBound) :
    (readRecords buffer seen).1.length ≤ buffer.length ∧
      (readRecords buffer seen).2.handshake.length < messageBound ∧
      ((readRecords buffer seen).2.stopped = false → Waiting (readRecords buffer seen).1) := by
  induction hlen : buffer.length using Nat.strongRecOn generalizing buffer seen with
  | _ n ih =>
    by_cases hshort : buffer.length < 5
    · have hwait : ∀ seen, readRecords buffer seen = (buffer, seen) := fun seen => by
        rw [readRecords, if_pos hshort]
      rw [hwait seen]
      exact ⟨Nat.le_of_eq hlen, hseen, fun _ => ⟨Nat.lt_of_lt_of_le hshort (by decide), hwait⟩⟩
    · obtain ⟨kind, major, minor, l₀, l₁, rest, rfl⟩ := exists_header hshort
      rw [readRecords_header]
      split
      · exact ⟨Nat.zero_le _, Nat.zero_lt_succ _, fun h => by cases h⟩
      · rename_i hkind
        split
        · exact ⟨Nat.zero_le _, hseen, fun h => by cases h⟩
        · rename_i hsmall
          split
          · rename_i hpart
            refine ⟨Nat.le_of_eq hlen, hseen, fun _ => ⟨?_, fun seen => ?_⟩⟩
            · simp only [List.length_cons, recordBound]
              omega
            · rw [readRecords_header, if_neg hkind, if_neg hsmall, if_pos hpart]
          · have hnext := readMessages_length (seen.handshake ++ rest.take (ofBe [l₀, l₁]))
              seen.tls seen.direct
            have hless : (rest.drop (ofBe [l₀, l₁])).length < n := by
              rw [← hlen, List.length_drop]
              simp only [List.length_cons]
              omega
            dsimp only
            split
            · rename_i hstop
              exact ⟨Nat.le_of_lt hless, hnext, fun hopen =>
                absurd (hopen.symm.trans hstop) Bool.false_ne_true⟩
            · obtain ⟨hfewer, hhandshake, hwaits⟩ := ih _ hless _ _ hnext rfl
              exact ⟨Nat.le_trans hfewer (Nat.le_of_lt hless), hhandshake, hwaits⟩

/-- A probe between calls with payloads of at most `largest` bytes. -/
structure TlsProbe.Settled (largest : ℕ) (p : TlsProbe) : Prop where
  handshake : p.handshake.length < messageBound
  buffer : p.buffer.length < recordBound + largest
  waiting : p.stopped = false → Waiting p.buffer

namespace TlsFilter

theorem settled_observe {f : TlsFilter} {largest : ℕ} {payload : Bytes} {incoming direction : Bool}
    (h : (f.probe direction).Settled largest)
    (hpayload : incoming = direction → payload.length ≤ largest) :
    ((f.observe payload incoming).probe direction).Settled largest := by
  rw [observe_eq]
  split
  · exact h
  · rename_i hopen
    rw [probe_afterRecords]
    split
    · rename_i heq
      subst heq
      have hshort := (h.waiting (Bool.eq_false_iff.mpr hopen)).short
      obtain ⟨hfewer, hhandshake, hwaits⟩ :=
        readRecords_ends ((f.probe direction).buffer ++ payload)
        ⟨(f.probe direction).handshake, false, f.tls, f.direct⟩ h.handshake
      refine ⟨hhandshake, ?_, hwaits⟩
      have hsize := hpayload rfl
      rw [List.length_append] at hfewer
      dsimp only
      omega
    · exact h

theorem settled_observeAll {f : TlsFilter} {largest : ℕ} {direction : Bool}
    {calls : List (Bytes × Bool)}
    (h : (f.probe direction).Settled largest)
    (hcalls : ∀ call ∈ calls, call.2 = direction → call.1.length ≤ largest) :
    ((f.observeAll calls).probe direction).Settled largest := by
  induction calls generalizing f with
  | nil => exact h
  | cons call calls ih =>
    exact ih (settled_observe h (hcalls call List.mem_cons_self))
      fun later hlater => hcalls later (List.mem_cons_of_mem _ hlater)

def largestPayload (calls : List (Bytes × Bool)) (direction : Bool) : ℕ :=
  ((calls.filter (·.2 = direction)).map (·.1.length)).foldr max 0

theorem le_largestPayload {calls : List (Bytes × Bool)} {direction : Bool}
    {call : Bytes × Bool} (h : call ∈ calls)
    (hdirection : call.2 = direction) : call.1.length ≤ largestPayload calls direction := by
  have hmem : call.1.length ∈ (calls.filter (·.2 = direction)).map (·.1.length) :=
    List.mem_map_of_mem (List.mem_filter.mpr ⟨h, decide_eq_true hdirection⟩)
  unfold largestPayload
  generalize (calls.filter (·.2 = direction)).map (·.1.length) = sizes at hmem
  induction sizes with
  | nil => cases hmem
  | cons size sizes ih =>
    rw [List.foldr_cons]
    rcases List.mem_cons.mp hmem with rfl | hlater
    · exact Nat.le_max_left _ _
    · exact Nat.le_trans (ih hlater) (Nat.le_max_right _ _)

theorem settled_reached (calls : List (Bytes × Bool)) (direction : Bool) :
    ((default.observeAll calls).probe direction).Settled (largestPayload calls direction) := by
  refine settled_observeAll ?_ fun call h hdirection => le_largestPayload h hdirection
  cases direction <;>
    exact ⟨Nat.zero_lt_succ _, Nat.lt_of_lt_of_le (Nat.zero_lt_succ _) (Nat.le_add_right _ _),
      fun _ => ⟨Nat.zero_lt_succ _, fun seen => by rw [readRecords]; rfl⟩⟩

theorem observe_nil {f : TlsFilter} {largest : ℕ} {incoming : Bool}
    (h : (f.probe incoming).Settled largest) :
    f.Same (f.observe [] incoming) := by
  rw [observe_eq]
  split
  · exact Same.refl f
  · rename_i hopen
    have hstopped := Bool.eq_false_iff.mpr hopen
    rw [List.append_nil, (h.waiting hstopped).waits]
    refine ⟨rfl, rfl, fun direction => ?_⟩
    rw [probe_afterRecords]
    split
    · rename_i heq
      subst heq
      rw [← hstopped]
      exact .inl rfl
    · exact .inl rfl

theorem observePieces_same {f : TlsFilter} {incoming : Bool} (pieces : List Bytes)
    (h : ∃ largest, (f.probe incoming).Settled largest) :
    (f.observePieces pieces incoming).Same (f.observe pieces.flatten incoming) := by
  induction pieces generalizing f with
  | nil =>
    obtain ⟨largest, hsettled⟩ := h
    exact observe_nil hsettled
  | cons piece pieces ih =>
    obtain ⟨largest, hsettled⟩ := h
    have hlarger : (f.probe incoming).Settled (max largest piece.length) :=
      ⟨hsettled.handshake, by have := hsettled.buffer; omega, hsettled.waiting⟩
    have hnext := @settled_observe f _ piece incoming incoming hlarger fun _ => Nat.le_max_right _ _
    exact (ih ⟨_, hnext⟩).trans (observe_append f piece pieces.flatten incoming)

/-- How a stream is cut into calls changes neither the flags nor the effect of later calls, no call
panics, and what is held of a direction between calls is bounded. -/
theorem segmentation_invariant :
    (∀ (earlier : List (Bytes × Bool)) (pieces : List Bytes) (incoming : Bool)
      (later : List (Bytes × Bool)),
      (((default.observeAll earlier).observePieces pieces incoming).observeAll later).flags =
        (((default.observeAll earlier).observe pieces.flatten incoming).observeAll later).flags) ∧
    (∀ (filter : TlsFilter) (payload : Bytes) (incoming : Bool),
      filter.tryObserve payload incoming = .ok (filter.observe payload incoming)) ∧
    ∀ (calls : List (Bytes × Bool)) (direction : Bool),
      ((default.observeAll calls).probe direction).buffer.length +
          ((default.observeAll calls).probe direction).handshake.length <
        recordBound + messageBound + largestPayload calls direction := by
  refine ⟨fun earlier pieces incoming later => ?_, tryObserve_ok, fun calls direction => ?_⟩
  · exact ((observePieces_same pieces ⟨_, settled_reached earlier incoming⟩).observeAll later).flags
  · have hsettled := settled_reached calls direction
    have hbuffer := hsettled.buffer
    have hhandshake := hsettled.handshake
    omega

end TlsFilter

end Aerion.Vless.Vision
