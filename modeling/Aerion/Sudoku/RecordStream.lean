import Aerion.Lib.Steps
import Aerion.Sudoku.Record

/-!
# Streams of Sudoku records

What a sender puts on the wire is numbered: each record carries the counter
the one before it left, and leaves it one sequence number further or at the
start of the next epoch.
-/

namespace Aerion.Sudoku

open Lib Outcome

variable {p : Primitives}

/-! ### Numbered records -/

/-- Records that continue a counter, and the counter they leave. -/
inductive Numbered : Counter → List Record → Counter → Prop
  | nil {c : Counter} : Numbered c [] c
  | cons {r : Record} {next d e : Counter} {rs : List Record} :
    r.counter.nextSeq = some next → next = d ∨ next.nextEpoch = some d →
      Numbered d rs e → Numbered r.counter (r :: rs) e

theorem Numbered.append {c d e : Counter} {rs ss : List Record} (h : Numbered c rs d)
    (h' : Numbered d ss e) : Numbered c (rs ++ ss) e := by
  induction h with
  | nil => exact h'
  | cons hseq hnext _ ih => exact .cons hseq hnext (ih h')

theorem before_next {c next d : Counter} (hseq : c.nextSeq = some next)
    (hnext : next = d ∨ next.nextEpoch = some d) : c.Before d := by
  have hstep := (Counter.nextSeq_some hseq).1
  rcases hnext with rfl | hepoch
  · exact hstep
  · exact hstep.trans (Counter.nextEpoch_some hepoch).1

theorem Numbered.start_le {c d : Counter} {rs : List Record} (h : Numbered c rs d) :
    ∀ r ∈ rs, c = r.counter ∨ c.Before r.counter := by
  induction h with
  | nil => nofun
  | cons hseq hnext _ ih =>
    rintro r (_ | ⟨_, hr⟩)
    · exact .inl rfl
    · have hstep := before_next hseq hnext
      rcases ih r hr with rfl | hlater
      · exact .inr hstep
      · exact .inr (hstep.trans hlater)

theorem Numbered.increasing {c d : Counter} {rs : List Record} (h : Numbered c rs d) :
    (rs.map Record.counter).Pairwise Counter.Before := by
  induction h with
  | nil => exact .nil
  | cons hseq hnext hrest ih =>
    refine List.pairwise_cons.mpr ⟨fun c hc => ?_, ih⟩
    obtain ⟨r, hr, rfl⟩ := List.mem_map.mp hc
    have hstep := before_next hseq hnext
    rcases hrest.start_le r hr with rfl | hlater
    · exact hstep
    · exact hstep.trans hlater

/-! ### What a sender emits -/

theorem RecordCrypto.Agrees.trans {a b c : RecordCrypto p} (h : a.Agrees b) (h' : b.Agrees c) :
    a.Agrees c :=
  ⟨h.1.trans h'.1, h.2.trans h'.2⟩

/-- From one state of a sender to another these records are on the wire. -/
structure Emitted (s : Sender p) (sent : List Record) (s' : Sender p) : Prop where
  numbered : Numbered s.counter sent s'.counter
  sealed : ∀ r ∈ sent, r.Sealed p s.crypto.base s.crypto.method
  agrees : s'.crypto.Agrees s.crypto

theorem Emitted.silent {s s' : Sender p} (hcounter : s'.counter = s.counter)
    (hcrypto : s'.crypto.Agrees s.crypto) : Emitted s [] s' :=
  ⟨hcounter ▸ .nil, nofun, hcrypto⟩

theorem Emitted.append {s mid s' : Sender p} {sent rest : List Record} (h : Emitted s sent mid)
    (h' : Emitted mid rest s') : Emitted s (sent ++ rest) s' := by
  refine ⟨h.numbered.append h'.numbered, fun r hr => ?_, h'.agrees.trans h.agrees⟩
  rcases List.mem_append.mp hr with hr | hr
  · exact h.sealed r hr
  · have hsealed := h'.sealed r hr
    rwa [h.agrees.1, h.agrees.2] at hsealed

theorem account_counter (mode : Overflow) (s : Sender p) (n : ℕ) :
    (s.counter = (s.account mode n).2.counter ∨
        s.counter.nextEpoch = some (s.account mode n).2.counter) ∧
      (s.account mode n).2.crypto = s.crypto := by
  unfold Sender.account
  split
  · split
    · split
      · rename_i counter hepoch
        exact ⟨.inr hepoch, rfl⟩
      · exact ⟨.inl rfl, rfl⟩
    · exact ⟨.inl rfl, rfl⟩
  · exact ⟨.inl rfl, rfl⟩
  · exact ⟨.inl rfl, rfl⟩

theorem writeChunk_emitted (mode : Overflow) (s : Sender p) {chunk : Bytes} (hne : chunk ≠ [])
    (hlen : chunk.length ≤ 65507) :
    Emitted s (s.writeChunk mode chunk).2.2 (s.writeChunk mode chunk).2.1 := by
  obtain ⟨hresult, hagrees⟩ := s.crypto.crypt_spec s.counter.header fun cipher =>
    some (p.encrypt cipher.algorithm cipher.key s.counter.header chunk)
  unfold Sender.writeChunk RecordCrypto.encrypt
  split
  · rename_i ciphertext crypto hcrypt
    rw [hcrypt] at hresult hagrees
    obtain ⟨cipher, hcipher, hct⟩ := bind_ok.mp hresult.symm
    rw [need_ok, Option.some.injEq] at hct
    rw [Counter.ofHeader_header] at hcipher
    split
    · rename_i counter hseq
      obtain ⟨hcounter, hcrypto⟩ := account_counter mode
        { s with crypto := crypto, counter := counter } chunk.length
      have hone : Numbered s.counter [⟨s.counter, chunk, ciphertext⟩] _ :=
        .cons (r := ⟨s.counter, chunk, ciphertext⟩) hseq hcounter .nil
      refine ⟨hone, ?_, hcrypto ▸ hagrees⟩
      intro r hr
      obtain rfl := List.mem_singleton.mp hr
      exact ⟨⟨hlen, cipher, hcipher, hct.symm⟩, hne⟩
    · exact .silent rfl hagrees
  · rename_i hcrypt
    rw [hcrypt] at hagrees
    exact .silent rfl hagrees
  · rename_i hcrypt
    rw [hcrypt] at hagrees
    exact .silent rfl hagrees

theorem writeChunks_emitted (mode : Overflow) (s : Sender p) {chunks : List Bytes}
    (h : ∀ c ∈ chunks, c ≠ [] ∧ c.length ≤ 65507) :
    Emitted s (s.writeChunks mode chunks).2.2 (s.writeChunks mode chunks).2.1 := by
  induction chunks generalizing s with
  | nil => exact .silent rfl ⟨rfl, rfl⟩
  | cons chunk chunks ih =>
    obtain ⟨hne, hlen⟩ := h chunk List.mem_cons_self
    have hfirst := writeChunk_emitted mode s hne hlen
    unfold Sender.writeChunks
    split
    · rename_i hwrite
      rw [hwrite] at hfirst
      exact hfirst.append (ih _ fun c hc => h c (List.mem_cons_of_mem _ hc))
    · rename_i hwrite
      rwa [hwrite] at hfirst

theorem write_emitted (mode : Overflow) (s : Sender p) (input : Bytes) :
    Emitted s (s.write mode input).2.2 (s.write mode input).2.1 :=
  writeChunks_emitted mode s fun _ hc => mem_chunks (by decide) hc

theorem writeAll_emitted (mode : Overflow) (s : Sender p) (inputs : List Bytes) :
    Emitted s (s.writeAll mode inputs).2.2 (s.writeAll mode inputs).2.1 := by
  induction inputs generalizing s with
  | nil => exact .silent rfl ⟨rfl, rfl⟩
  | cons input inputs ih => exact (write_emitted mode s input).append (ih _)

theorem writeChunk_ok {mode : Overflow} {s : Sender p} {chunk : Bytes}
    (h : (s.writeChunk mode chunk).1 = .ok ()) :
    (s.writeChunk mode chunk).2.2.map Record.chunk = [chunk] := by
  unfold Sender.writeChunk at h ⊢
  split at h
  · split at h
    · rfl
    · cases h
  · cases h
  · cases h

theorem writeChunks_ok {mode : Overflow} {s : Sender p} {chunks : List Bytes}
    (h : (s.writeChunks mode chunks).1 = .ok ()) :
    (s.writeChunks mode chunks).2.2.map Record.chunk = chunks := by
  induction chunks generalizing s with
  | nil => rfl
  | cons chunk chunks ih =>
    unfold Sender.writeChunks at h ⊢
    split at h
    · rename_i u s' sent hwrite
      have hfirst : sent.map Record.chunk = [chunk] := by
        have hok : (s.writeChunk mode chunk).1 = .ok () := by rw [hwrite]
        have := writeChunk_ok hok
        rwa [hwrite] at this
      rw [List.map_append, hfirst, ih h]
      rfl
    · rename_i hne hwrite
      exact absurd h (hne ())

theorem writeAll_ok {mode : Overflow} {s : Sender p} {inputs : List Bytes}
    (h : ∀ result ∈ (s.writeAll mode inputs).1, result = .ok ()) :
    ((s.writeAll mode inputs).2.2.map Record.chunk).flatten = inputs.flatten := by
  induction inputs generalizing s with
  | nil => rfl
  | cons input inputs ih =>
    have hfirst : (s.write mode input).2.2.map Record.chunk = chunks 65507 input :=
      writeChunks_ok (h _ List.mem_cons_self)
    have hrest := ih fun result hr => h result (List.mem_cons_of_mem _ hr)
    rw [Sender.writeAll, List.map_append, List.flatten_append, hfirst, flatten_chunks (by decide),
      hrest, List.flatten_cons]

theorem writeChunk_seq_exhausted (mode : Overflow) {s : Sender p} (chunk : Bytes)
    (h : s.counter.seq = 0xffffffffffffffff) :
    ∃ e, (s.writeChunk mode chunk).1 = .err e ∧ (s.writeChunk mode chunk).2.2 = [] ∧
      (s.writeChunk mode chunk).2.1.counter = s.counter := by
  have hnext : s.counter.nextSeq = none := by
    rw [Counter.nextSeq, h]
    rfl
  unfold Sender.writeChunk RecordCrypto.encrypt
  rw [hnext]
  split
  · exact ⟨_, rfl, rfl, rfl⟩
  · exact ⟨_, rfl, rfl, rfl⟩
  · rename_i hcrypt
    exact absurd (congrArg Prod.fst hcrypt) (s.crypto.crypt_ne_panic _ _)

theorem writeChunk_epoch_exhausted {mode : Overflow} {s : Sender p} {chunk : Bytes} {total : ℕ}
    (h : s.counter.epoch = 0xffffffff) (hbytes : addWord mode s.bytes chunk.length = .ok total)
    (htotal : 32 <<< 20 ≤ total) :
    ∃ e, (s.writeChunk mode chunk).1 = .err e ∧
      (s.writeChunk mode chunk).2.1.counter.epoch = s.counter.epoch := by
  unfold Sender.writeChunk RecordCrypto.encrypt
  split
  · split
    · rename_i counter hseq
      have hepoch : counter.epoch = s.counter.epoch := (Counter.nextSeq_some hseq).2.1
      have hnext : counter.nextEpoch = none := by
        rw [Counter.nextEpoch, hepoch, h]
        rfl
      simp only [Sender.account, hbytes, htotal, if_true, hnext]
      exact ⟨_, rfl, hepoch⟩
    · exact ⟨_, rfl, rfl⟩
  · exact ⟨_, rfl, rfl⟩
  · rename_i hcrypt
    exact absurd (congrArg Prod.fst hcrypt) (s.crypto.crypt_ne_panic _ _)

/-! ### Reading what was emitted -/

theorem Record.bytes_length (r : Record) : r.bytes.length = 14 + r.ciphertext.length := by
  simp only [Record.bytes, List.length_append, toBe_length, Counter.header_length]

namespace Record.Authentic

variable {base : Bytes} {method : String} {r : Record}

theorem ciphertext_length (h : r.Authentic p base method) :
    r.ciphertext.length = r.chunk.length + 16 := by
  obtain ⟨cipher, -, hct⟩ := h.ciphertext
  rw [hct, p.encrypt_length]

theorem length_fits (h : r.Authentic p base method) : 12 + r.ciphertext.length < 2 ^ 16 := by
  have := h.small
  rw [h.ciphertext_length]
  omega

theorem length_field (h : r.Authentic p base method) (rest : Bytes) :
    ofBe ((r.bytes ++ rest).take 2) = 12 + r.ciphertext.length := by
  have hfits := h.length_fits
  have hword : ofBe (toBe 2 ((12 + r.ciphertext.length) % 2 ^ 16)) = 12 + r.ciphertext.length := by
    rw [Nat.mod_eq_of_lt hfits]
    exact ofBe_toBe (by simpa using hfits)
  rw [Record.bytes, List.append_assoc, List.append_assoc, List.take_left' (toBe_length _ _), hword]

end Record.Authentic

namespace Receiver

structure Ready (r : Receiver p) (base : Bytes) (method : String) : Prop where
  plain : r.plain = []
  base : r.crypto.base = base
  method : r.crypto.method = method

variable {base : Bytes} {method : String} {r : Receiver p} {record : Record} {rest : Bytes}

theorem header_of_decoded (h : r.decoded = record.bytes ++ rest) :
    (r.decoded.drop 2).take 12 = record.counter.header := by
  rw [h, Record.bytes, List.append_assoc, List.append_assoc, List.drop_left' (toBe_length _ _),
    List.take_left' record.counter.header_length]

theorem takeRecord_whole {next : Counter} (hr : r.Ready base method)
    (hrecord : record.Authentic p base method) (hadmits : Admits r.counter record.counter)
    (hseq : record.counter.nextSeq = some next) (h : r.decoded = record.bytes ++ rest) :
    ∃ r', r.takeRecord = (.ok (some record.chunk), r') ∧ r'.Ready base method ∧
      r'.counter = some next ∧ r'.decoded = rest := by
  have hfield : ofBe (r.decoded.take 2) = 12 + record.ciphertext.length := by
    rw [h, hrecord.length_field]
  have hlen : r.decoded.length = 14 + record.ciphertext.length + rest.length := by
    rw [h, List.length_append, record.bytes_length]
  have hct := hrecord.ciphertext_length
  have hfront : r.front = record.counter := by
    rw [front, header_of_decoded h, Counter.ofHeader_header]
  have hbody : (r.decoded.take (12 + record.ciphertext.length + 2)).drop 14 = record.ciphertext := by
    rw [h, List.take_left' (by rw [record.bytes_length]; omega), Record.bytes,
      List.drop_left' (by simp)]
  have hdrop : r.decoded.drop (12 + record.ciphertext.length + 2) = rest := by
    rw [h, List.drop_left' (by rw [record.bytes_length]; omega)]
  -- the cipher derived from the same base opens what the other end sealed
  obtain ⟨cipher, hcipher, hencrypt⟩ := hrecord.ciphertext
  obtain ⟨hresult, hagrees⟩ := r.crypto.crypt_spec record.counter.header fun cipher =>
    p.decrypt cipher.algorithm cipher.key record.counter.header record.ciphertext
  have hopen : (r.crypto.decrypt record.counter.header record.ciphertext).1 = .ok record.chunk := by
    rw [RecordCrypto.decrypt, hresult, Counter.ofHeader_header, hr.base, hr.method, hcipher, ok_bind,
      hencrypt, p.decrypt_encrypt, need]
  obtain ⟨crypto, hcrypto⟩ : ∃ crypto, r.crypto.decrypt record.counter.header record.ciphertext =
      (.ok record.chunk, crypto) := ⟨_, Prod.ext hopen rfl⟩
  have hkept : crypto.Agrees r.crypto := by
    rw [RecordCrypto.decrypt] at hcrypto
    rwa [hcrypto] at hagrees
  refine ⟨{ r with crypto := crypto, counter := some next, decoded := rest }, ?_,
    ⟨hr.plain, hkept.1.trans hr.base, hkept.2.trans hr.method⟩, rfl, rfl⟩
  rw [takeRecord, if_neg (by omega)]
  simp only [hfield]
  rw [if_neg (by omega), if_neg (by omega), hfront, if_pos hadmits, header_of_decoded h, hbody,
    hcrypto, hseq, hdrop]

theorem takeRecord_part {more : Bytes} (hrecord : record.Authentic p base method)
    (h : r.decoded ++ more = record.bytes ++ rest) (hlen : r.decoded.length < record.bytes.length) :
    r.takeRecord = (.ok none, r) := by
  unfold takeRecord
  split
  · rfl
  · rename_i htwo
    have hfield : ofBe (r.decoded.take 2) = 12 + record.ciphertext.length := by
      rw [← hrecord.length_field rest, ← h, List.take_append_of_le_length (by omega)]
    have hct := hrecord.ciphertext_length
    rw [record.bytes_length] at hlen
    simp only [hfield]
    rw [if_neg (by omega), if_pos (by omega)]

theorem readLoop_record {next : Counter} {segments : List Bytes} (hr : r.Ready base method)
    (hsealed : record.Sealed p base method) (hadmits : Admits r.counter record.counter)
    (hseq : record.counter.nextSeq = some next)
    (h : r.decoded ++ segments.flatten = record.bytes ++ rest) :
    ∃ r' segments', readLoop segments r = (.ok record.chunk, r', segments') ∧
      r'.Ready base method ∧ r'.counter = some next ∧ r'.decoded ++ segments'.flatten = rest := by
  induction segments generalizing r with
  | nil =>
    rw [List.flatten_nil, List.append_nil] at h
    obtain ⟨r', htake, hr', hcounter, hdecoded⟩ := takeRecord_whole hr hsealed.toAuthentic hadmits hseq h
    obtain ⟨b, bs, hchunk⟩ := List.exists_cons_of_ne_nil hsealed.nonempty
    rw [hchunk] at htake ⊢
    exact ⟨r', [], by simp only [readLoop, readLoopOf, htake], hr', hcounter, by simpa using hdecoded⟩
  | cons segment segments ih =>
    by_cases hlen : r.decoded.length < record.bytes.length
    · have htake := takeRecord_part hsealed.toAuthentic h hlen
      simp only [readLoop, readLoopOf, htake]
      exact ih ⟨hr.plain, hr.base, hr.method⟩ hadmits (by simpa using h)
    · obtain ⟨tail, htail⟩ : ∃ tail, r.decoded = record.bytes ++ tail :=
        (List.prefix_of_prefix_length_le (List.prefix_append _ _) (h ▸ List.prefix_append _ _)
          (not_lt.mp hlen)).imp fun _ => Eq.symm
      obtain ⟨r', htake, hr', hcounter, hdecoded⟩ := takeRecord_whole hr hsealed.toAuthentic hadmits hseq htail
      obtain ⟨b, bs, hchunk⟩ := List.exists_cons_of_ne_nil hsealed.nonempty
      rw [hchunk] at htake ⊢
      refine ⟨r', segment :: segments, by simp only [readLoop, readLoopOf, htake], hr', hcounter, ?_⟩
      rw [htail, List.append_assoc] at h
      rw [hdecoded]
      exact List.append_cancel_left h

theorem readLoop_end {segments : List Bytes} (h : r.decoded ++ segments.flatten = []) :
    readLoop segments r = (.ok [], r, []) := by
  obtain ⟨hdecoded, hsegments⟩ := List.append_eq_nil_iff.mp h
  have htake : r.takeRecord = (.ok none, r) := by simp [takeRecord, hdecoded]
  induction segments with
  | nil => simp only [readLoop, readLoopOf, htake, hdecoded, if_true]
  | cons segment segments ih =>
    obtain ⟨rfl, hrest⟩ := List.append_eq_nil_iff.mp hsegments
    simp only [readLoop, readLoopOf, htake, List.append_nil]
    exact ih (by rw [hdecoded, hrest]; rfl) hrest

theorem admits_next {next d : Counter} (hnext : next = d ∨ next.nextEpoch = some d) :
    Admits (some next) d := by
  rintro _ ⟨⟩
  rcases hnext with rfl | hepoch
  · exact .inl ⟨rfl, rfl⟩
  · obtain ⟨-, hsucc⟩ := Counter.nextEpoch_some hepoch
    have hlt : next.epoch < d.epoch := by
      rw [UInt32.lt_iff_toNat_lt]
      omega
    refine .inr ⟨hlt, ?_⟩
    rw [UInt32.le_iff_toNat_le, UInt32.toNat_sub_of_le _ _ (UInt32.le_of_lt hlt), hsucc]
    simp

theorem reads_numbered {c d : Counter} {records : List Record} {segments : List Bytes}
    (hrecords : Numbered c records d) (hsealed : ∀ r ∈ records, r.Sealed p base method)
    (hr : r.Ready base method) (hadmits : Admits r.counter c)
    (h : r.decoded ++ segments.flatten = (records.map Record.bytes).flatten) :
    r.reads (records.length + 1) segments = records.map (fun record => .ok record.chunk) ++ [.ok []] := by
  induction hrecords generalizing r segments with
  | nil =>
    have hend : r.read segments = (.ok [], r, []) := by rw [read, if_pos hr.plain, readLoop_end h]
    simp only [List.length_nil, reads, hend, List.map_nil, List.nil_append]
  | @cons record next d e records hseq hnext _ ih =>
    obtain ⟨r', segments', hread, hr', hcounter, hrest⟩ :=
      readLoop_record hr (hsealed record List.mem_cons_self) hadmits hseq h
    have hnow : r.read segments = (.ok record.chunk, r', segments') := by
      rw [read, if_pos hr.plain, hread]
    rw [List.length_cons, reads, hnow]
    have hlater := ih (fun r hr => hsealed r (List.mem_cons_of_mem _ hr)) hr'
      (hcounter ▸ admits_next hnext) hrest
    rw [hlater]
    rfl

/-! ### Accepting any bytes -/

theorem takeRecord_cases (r : Receiver p) :
    (∃ plain next, r.takeRecord.1 = .ok (some plain) ∧ Admits r.counter r.front ∧
        r.front.nextSeq = some next ∧ r.takeRecord.2.counter = some next) ∨
      (∀ plain, r.takeRecord.1 ≠ .ok (some plain)) ∧ r.takeRecord.2.counter = r.counter ∧
        r.takeRecord.2.decoded = r.decoded := by
  unfold takeRecord
  split
  · exact .inr ⟨nofun, rfl, rfl⟩
  · simp only
    split
    · exact .inr ⟨nofun, rfl, rfl⟩
    · split
      · exact .inr ⟨nofun, rfl, rfl⟩
      · split
        · rename_i hadmits
          split
          · rename_i plain crypto hopen
            split
            · rename_i next hseq
              exact .inl ⟨plain, next, rfl, hadmits, hseq, rfl⟩
            · exact .inr ⟨nofun, rfl, rfl⟩
          · exact .inr ⟨nofun, rfl, rfl⟩
          · exact .inr ⟨nofun, rfl, rfl⟩
        · exact .inr ⟨nofun, rfl, rfl⟩

/-- The header that the next call of `takeRecord` accepts. -/
def taken (r : Receiver p) : List Counter :=
  match r.takeRecord.1 with
  | .ok (some _) => [r.front]
  | _ => []

end Receiver

inductive Input where
  | segment (bytes : Bytes)
  | take
  deriving DecidableEq, Repr

structure Reception (p : Primitives) where
  receiver : Receiver p
  accepted : List Counter

def Reception.step (s : Reception p) : Input → Option (Reception p)
  | .segment bytes =>
    some { s with receiver := { s.receiver with decoded := s.receiver.decoded ++ bytes } }
  | .take => some
      { receiver := s.receiver.takeRecord.2
        accepted := s.accepted ++ s.receiver.taken }

/-- The headers are in order and the receiver expects one past them. -/
structure Reception.Ordered (s : Reception p) : Prop where
  increasing : s.accepted.Pairwise Counter.Before
  passed : ∀ c ∈ s.accepted, ∃ e, s.receiver.counter = some e ∧ c.Before e

theorem Receiver.Admits.before {c e d : Counter} (h : c.Before e) (hadmits : Admits (some e) d) :
    c.Before d := by
  rcases hadmits e rfl with ⟨hepoch, hseq⟩ | ⟨hepoch, -⟩
  · rcases h with h | ⟨h, h'⟩
    · exact .inl (hepoch ▸ h)
    · exact .inr ⟨hepoch ▸ h, hseq ▸ h'⟩
  · exact h.trans (.inl hepoch)

theorem Reception.Ordered.step {s s' : Reception p} {input : Input} (h : s.Ordered)
    (hstep : s.step input = some s') : s'.Ordered := by
  cases input with
  | segment bytes =>
    obtain rfl := Option.some.inj hstep
    exact ⟨h.increasing, h.passed⟩
  | take =>
    obtain rfl := Option.some.inj hstep
    rcases s.receiver.takeRecord_cases with
      ⟨plain, next, htaken, hadmits, hseq, hcounter⟩ | ⟨hrefused, hcounter, -⟩
    · have hbefore : ∀ c ∈ s.accepted, c.Before s.receiver.front := by
        intro c hc
        obtain ⟨e, he, hce⟩ := h.passed c hc
        exact Receiver.Admits.before hce (he ▸ hadmits)
      have hnext := (Counter.nextSeq_some hseq).1
      have htake : s.receiver.taken = [s.receiver.front] := by
        rw [Receiver.taken, htaken]
      simp only [htake]
      refine ⟨List.pairwise_append.mpr ⟨h.increasing, List.pairwise_singleton _ _, ?_⟩, ?_⟩
      · intro c hc d hd
        obtain rfl := List.mem_singleton.mp hd
        exact hbefore c hc
      · intro c hc
        refine ⟨next, hcounter, ?_⟩
        rcases List.mem_append.mp hc with hc | hc
        · exact (hbefore c hc).trans hnext
        · obtain rfl := List.mem_singleton.mp hc
          exact hnext
    · have hnone : s.receiver.taken = [] := by
        unfold Receiver.taken
        split
        · rename_i plain htaken
          exact absurd htaken (hrefused plain)
        · rfl
      simp only [hnone, List.append_nil]
      exact ⟨h.increasing, fun c hc => hcounter ▸ h.passed c hc⟩

/-! ### The discipline of the record layer -/

theorem Counter.header_ne_of_before {a b : Counter} (h : a.Before b) : a.header ≠ b.header := by
  intro heq
  obtain rfl : a = b := by rw [← ofHeader_header a, heq, ofHeader_header]
  unfold Before at h
  simp at h

/-- What holds of the records a rekeyed sender puts on the wire, whatever it is asked to write. -/
structure Disciplined (p : Primitives) (base : Bytes) (method : String) (sent : List Record) :
    Prop where
  increasing : (sent.map Record.counter).Pairwise Counter.Before
  nonces : (sent.map fun r => r.counter.header).Nodup
  fits : ∀ r ∈ sent, 12 + r.ciphertext.length < 2 ^ 16
  accepted : ∀ (r : Receiver p) (segments : List Bytes), r.Ready base method → r.counter = none →
    r.decoded = [] → segments.flatten = (sent.map Record.bytes).flatten →
      r.reads (sent.length + 1) segments = sent.map (fun record => .ok record.chunk) ++ [.ok []]

theorem Emitted.disciplined {s s' : Sender p} {sent : List Record} (h : Emitted s sent s') :
    Disciplined p s.crypto.base s.crypto.method sent where
  increasing := h.numbered.increasing
  nonces := by
    have hheaders := h.numbered.increasing.map Counter.header fun _ _ => Counter.header_ne_of_before
    rwa [List.map_map] at hheaders
  fits r hr := (h.sealed r hr).toAuthentic.length_fits
  accepted r segments hr hcounter hdecoded hsegments :=
    Receiver.reads_numbered h.numbered h.sealed hr (hcounter ▸ fun _ h => by cases h)
      (by rw [hdecoded, List.nil_append, hsegments])

/-- The records of a sender since its last key carry counters that never repeat, and what they hold
is the input of the writes that succeed; a sender whose counter is used up refuses to write; and a
receiver accepts records in increasing order of their counters only, and keeps its state where it
accepts none. -/
theorem record_discipline (p : Primitives) (mode : Overflow) :
    (∀ (s : Sender p) (base random : Bytes) (inputs : List Bytes),
      let written := (s.rekey base random).writeAll mode inputs
      Disciplined p base s.crypto.method written.2.2 ∧
        ((∀ result ∈ written.1, result = .ok ()) →
          (written.2.2.map Record.chunk).flatten = inputs.flatten)) ∧
    (∀ (s : Sender p) (chunk : Bytes),
      (s.counter.seq = 0xffffffffffffffff →
        ∃ e, (s.writeChunk mode chunk).1 = .err e ∧ (s.writeChunk mode chunk).2.2 = [] ∧
          (s.writeChunk mode chunk).2.1.counter = s.counter) ∧
      ∀ total, s.counter.epoch = 0xffffffff → addWord mode s.bytes chunk.length = .ok total →
        32 <<< 20 ≤ total → ∃ e, (s.writeChunk mode chunk).1 = .err e ∧
          (s.writeChunk mode chunk).2.1.counter.epoch = s.counter.epoch) ∧
    (∀ (r : Receiver p) (inputs : List Input) (s : Reception p),
      Steps Reception.step always ⟨r, []⟩ inputs s →
        s.accepted.Pairwise Counter.Before ∧
        ((∀ plain, s.receiver.takeRecord.1 ≠ .ok (some plain)) →
          s.receiver.takeRecord.2.counter = s.receiver.counter ∧
            s.receiver.takeRecord.2.decoded = s.receiver.decoded)) := by
  refine ⟨fun s base random inputs => ⟨?_, writeAll_ok⟩, fun s chunk => ⟨?_, ?_⟩, ?_⟩
  · exact (writeAll_emitted mode (s.rekey base random) inputs).disciplined
  · exact writeChunk_seq_exhausted mode chunk
  · exact fun total => writeChunk_epoch_exhausted
  · intro r inputs s hrun
    have hordered : s.Ordered := hrun.invariant Reception.Ordered (fun _ _ _ h _ => h.step) ⟨.nil, nofun⟩
    refine ⟨hordered.increasing, fun hrefused => ?_⟩
    rcases s.receiver.takeRecord_cases with ⟨plain, _, htaken, _⟩ | ⟨-, hkept⟩
    · exact absurd htaken (hrefused plain)
    · exact hkept

def plainPrimitives : Primitives where
  hmac _ _ := []
  encrypt _ _ _ message := message ++ List.replicate 16 0
  decrypt _ _ _ ciphertext := some (ciphertext.take (ciphertext.length - 16))
  decrypt_encrypt := by simp
  encrypt_length := by simp

def plainSender : Sender plainPrimitives := ⟨.new [] "aes-128-gcm", ⟨0, 0⟩, 0⟩

def twoRecords : List Record :=
  ((plainSender.rekey [7] (List.replicate 12 9)).writeAll .checked [[1, 2, 3], [], [4]]).2.2

/-- Two writes, read in pieces that do not respect the records. -/
theorem writes_read_in_pieces :
    ((Receiver.new [7] "aes-128-gcm" : Receiver plainPrimitives).reads 3
      [((twoRecords.map Record.bytes).flatten).take 40, ((twoRecords.map Record.bytes).flatten).drop 40]) =
      [.ok [1, 2, 3], .ok [4], .ok []] := by
  have hrecords : twoRecords.map Record.chunk = [[1, 2, 3], [4]] := by decide +kernel
  have hlength : twoRecords.length = 2 := by rw [← List.length_map Record.chunk, hrecords]; rfl
  have hread := ((record_discipline plainPrimitives .checked).1 plainSender [7] (List.replicate 12 9)
    [[1, 2, 3], [], [4]]).1.accepted (.new [7] "aes-128-gcm")
    [((twoRecords.map Record.bytes).flatten).take 40, ((twoRecords.map Record.bytes).flatten).drop 40]
    ⟨rfl, rfl, rfl⟩ rfl rfl (by
      rw [List.flatten_cons, List.flatten_cons, List.flatten_nil, List.append_nil, List.take_append_drop]
      rfl)
  have hchunks : twoRecords.map (fun record => (.ok record.chunk : Outcome Bytes)) =
      (twoRecords.map Record.chunk).map .ok := by rw [List.map_map]; rfl
  rw [show ((plainSender.rekey [7] (List.replicate 12 9)).writeAll .checked [[1, 2, 3], [], [4]]).2.2 =
    twoRecords from rfl, hlength, hchunks, hrecords] at hread
  exact hread

end Aerion.Sudoku
