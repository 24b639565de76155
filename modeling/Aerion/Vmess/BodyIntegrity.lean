import Aerion.Vmess.BodyStream

/-!
# What an attacker can make of a VMess body

The reader of a sealed body is given any bytes in place of the wire. A chunk
that it accepts was sealed by the writer under the reader's counter, and what
it returns comes from accepted chunks only.
-/

namespace Aerion.Vmess.Body

open Lib Net

/-! ### What reading a chunk can do -/

/-- The parts of a chunk state that a size field leaves alone. -/
structure SameKeys (s s' : ChunkState) : Prop where
  config : s'.config = s.config
  cipher : s'.payloadCipher = s.payloadCipher
  counter : s'.payloadCounter = s.payloadCounter

/-- The reader has gone on in the stream, under the same key. -/
structure Moved (r r' : BodyReader) : Prop where
  config : r'.state.config = r.state.config
  cipher : r'.state.payloadCipher = r.state.payloadCipher
  inner : r'.inner.flatten <:+ r.inner.flatten

structure Aside (r r' : BodyReader) : Prop extends Moved r r' where
  counter : r'.state.payloadCounter = r.state.payloadCounter
  pending : r'.pending = r.pending
  pendingPos : r'.pendingPos = r.pendingPos
  finished : r'.finished = r.finished

/-- The reader has accepted a payload and goes on behind it. -/
structure Accepted (crypto : BodyCrypto) (r r' : BodyReader) (payload plaintext : Bytes) : Prop
    extends Moved r r' where
  received : payload <:+: r.inner.flatten
  opened : r.state.payloadCipher.decryptInPlace crypto r.state.payloadNonce payload = .ok plaintext
  counter : r'.state.payloadCounter = r.state.payloadCounter + 1
  pending : r'.pending = plaintext
  pendingPos : r'.pendingPos = 0
  finished : r'.finished = (r.finished || decide (payload.length = r.state.payloadOverhead ∧ plaintext = []))

/-- The reader has failed within a chunk; nothing of the chunk is left. -/
structure Failed (r r' : BodyReader) : Prop extends Moved r r' where
  pending : r'.pending = []
  finished : r'.finished = r.finished

section

variable {crypto : BodyCrypto} {r : BodyReader} {s : ChunkState}

theorem nextPaddingLen_keeps : Stateful.Keeps (SameKeys s) ChunkState.nextPaddingLen := by
  intro s' hs
  rw [ChunkState.nextPaddingLen_run]
  obtain ⟨a, b, h, -⟩ := s'.padded_eq
  rw [h]
  exact ⟨hs.config, hs.cipher, hs.counter⟩

theorem decodeSize_keeps (encoded : Bytes) :
    Stateful.Keeps (SameKeys s) (ChunkState.decodeSize crypto encoded) := by
  unfold ChunkState.decodeSize
  refine .bind .get fun s' => .bind (.lift _) fun _ => ?_
  split
  · refine .bind (fun s hs => ⟨hs.config, hs.cipher, hs.counter⟩) fun nonce => ?_
    exact .bind (.lift _) fun cipher => .bind (.lift _) fun plain => .pure _
  · exact .bind (fun s hs => ⟨hs.config, hs.cipher, hs.counter⟩) fun mask => .pure _

theorem onState_keeps {α : Type} {x : Stateful ChunkState α} (hx : Stateful.Keeps (SameKeys r.state) x) :
    Stateful.Keeps (Aside r) (BodyReader.onState x) :=
  .zoom_part hx (fun _ h => ⟨h.config, h.cipher, h.counter⟩) fun _ _ h hstate =>
    { h with config := hstate.config, cipher := hstate.cipher, counter := hstate.counter }

theorem readExact_keeps (n : ℕ) (message : String) :
    Stateful.Keeps (Aside r) (BodyReader.readExact n message) := fun r' h =>
  { h with
    inner := by
      refine List.IsSuffix.trans ?_ h.inner
      show (r'.inner.readExact n).2.flatten <:+ _
      rw [Segments.readExact_snd]
      exact List.drop_suffix n _ }

theorem readSize_keeps : Stateful.Keeps (Aside r) (BodyReader.readSize crypto) := by
  unfold BodyReader.readSize
  refine .bind .get fun r' => .bind (readExact_keeps _ _) fun sizeBytes => ?_
  have hpad : Stateful.Keeps (Aside r) (BodyReader.onState ChunkState.nextPaddingLen) :=
    onState_keeps nextPaddingLen_keeps
  have hdecode : Stateful.Keeps (Aside r) (BodyReader.onState (ChunkState.decodeSize crypto sizeBytes)) :=
    onState_keeps (decodeSize_keeps sizeBytes)
  split
  · refine .bind hpad fun early => .bind hdecode fun size => ?_
    exact .bind (.pure _) fun _ => .bind (.lift _) fun _ => .bind (.lift _) fun _ => .pure _
  · refine .bind (.pure _) fun early => .bind hdecode fun size => ?_
    exact .bind hpad fun _ => .bind (.lift _) fun _ => .bind (.lift _) fun _ => .pure _

theorem readSome_keeps (n : ℕ) (message : String) :
    Stateful.Keeps (Aside r) (BodyReader.readSome n message) := by
  unfold BodyReader.readSome
  split
  · exact readExact_keeps n message
  · exact .pure _

theorem readSome_received (n : ℕ) (message : String) :
    Stateful.Triple (Aside r) (BodyReader.readSome n message)
      (fun bytes r' => Aside r r' ∧ bytes.length = n ∧ bytes <:+: r.inner.flatten) (Aside r) := by
  intro r' hr
  refine ⟨fun bytes hbytes => ?_, fun _ => readSome_keeps n message r' hr⟩
  refine ⟨readSome_keeps n message r' hr, ?_⟩
  unfold BodyReader.readSome at hbytes
  split at hbytes
  · obtain ⟨hlen, hfront⟩ := Segments.readExact_some (Outcome.need_ok.mp hbytes)
    exact ⟨hlen, List.IsInfix.trans ⟨[], _, hfront.symm⟩ hr.inner.isInfix⟩
  · rename_i hn
    cases hbytes
    exact ⟨(Nat.eq_zero_of_not_pos hn).symm, List.nil_infix⟩

theorem put_triple {P : BodyReader → Prop} {Q : Unit → BodyReader → Prop} {E : BodyReader → Prop}
    {f : BodyReader → BodyReader} (h : ∀ r, P r → Q () (f r)) :
    Stateful.Triple P (BodyReader.put f) Q E := fun r hr =>
  ⟨fun _ _ => h r hr, fun hfail => absurd rfl (hfail ())⟩

theorem decryptPayload_triple (hpending : r.pending = []) (payload : Bytes) :
    Stateful.Triple (Aside r) (BodyReader.onState (ChunkState.decryptPayload crypto payload))
      (fun plaintext r' => (∃ r₁, Aside r r₁ ∧ r' = { r₁ with state := r₁.state.counted }) ∧
        r.state.payloadCipher.decryptInPlace crypto r.state.payloadNonce payload = .ok plaintext)
      (Failed r) := by
  intro r' h
  have hnonce : r'.state.payloadNonce = r.state.payloadNonce := by
    unfold ChunkState.payloadNonce
    rw [h.config, h.counter]
  rw [BodyReader.onState_run (ChunkState.decryptPayload_run crypto r'.state payload), h.cipher, hnonce]
  refine ⟨fun plaintext hopen => ⟨⟨r', h, rfl⟩, hopen⟩, fun _ => ?_⟩
  exact { config := h.config, cipher := h.cipher, inner := h.inner
          pending := h.pending.trans hpending, finished := h.finished }

theorem readNextChunk_triple (hpending : r.pending = []) :
    Stateful.Triple (Aside r) (BodyReader.readNextChunk crypto)
      (fun _ r' => ∃ payload plaintext, Accepted crypto r r' payload plaintext) (Failed r) := by
  have hfailed : ∀ r', Aside r r' → Failed r r' := fun r' h =>
    { h with pending := h.pending.trans hpending, finished := h.finished }
  unfold BodyReader.readNextChunk
  refine .bind ((Stateful.Triple.of_keeps readSize_keeps).mono (fun _ h => h) (fun _ _ h => h) hfailed)
    fun size => ?_
  refine .bind (put_triple (Q := fun _ => Aside r) fun r' h => { h with pending := hpending.symm })
    fun _ => ?_
  refine .bind ((readSome_received _ _).mono (fun _ h => h) (fun _ _ h => h) hfailed) fun payload => ?_
  refine .of_and fun hpayload => ?_
  refine .bind ((Stateful.Triple.of_keeps (readSome_keeps _ _)).mono (fun _ h => h) (fun _ _ h => h) hfailed)
    fun _ => ?_
  refine .bind (decryptPayload_triple hpending payload) fun plaintext => ?_
  refine .of_and fun hopen => put_triple fun r' hr => ?_
  obtain ⟨r₁, h, rfl⟩ := hr
  refine ⟨payload, plaintext, ?_⟩
  have hoverhead : r₁.state.counted.payloadOverhead = r.state.payloadOverhead := by
    unfold ChunkState.payloadOverhead ChunkState.counted
    rw [h.config]
  unfold BodyReader.accept
  rw [hoverhead, ← hpayload.1]
  split
  · rename_i hend
    exact { config := h.config, cipher := h.cipher, inner := h.inner, received := hpayload.2, opened := hopen
            counter := congrArg (· + 1) h.counter, pending := hend.2.symm, pendingPos := rfl
            finished := by simp [hend] }
  · rename_i hend
    exact { config := h.config, cipher := h.cipher, inner := h.inner, received := hpayload.2, opened := hopen
            counter := congrArg (· + 1) h.counter, pending := rfl, pendingPos := rfl
            finished := by simpa [hend] using h.finished }

end

/-! ### What the writer has sealed -/

inductive Write where
  | plain (data : Bytes)
  | packet (data : Bytes)
  | finish

def Write.data : Write → Bytes
  | .plain data | .packet data => data
  | .finish => []

section

variable (crypto : BodyCrypto)

def Write.run : Write → Stateful BodyWriter Unit
  | .plain data => BodyWriter.writeAllPlain crypto data
  | .packet data => BodyWriter.writePacketPlain crypto data
  | .finish => BodyWriter.finish crypto

def writerAfter : List Write → BodyWriter → BodyWriter
  | [], w => w
  | write :: writes, w => writerAfter writes (write.run crypto w).2

def written : List Write → BodyWriter → Bytes
  | [], _ => []
  | write :: writes, w =>
    (if (write.run crypto w).1 = .ok () then write.data else []) ++ written writes (write.run crypto w).2

end

def SentChunk.payload (crypto : BodyCrypto) (config : BodyConfig) (chunk : SentChunk) : Bytes :=
  (BodyCipher.new crypto config.security config.payloadKey).sealedBytes crypto
    (generateChunkNonce config.payloadIv chunk.counter) chunk.plaintext

/-- An ideal AEAD: under the payload key nothing opens but what was sealed, at its nonce. -/
def OnlySentOpens (crypto : BodyCrypto) (config : BodyConfig) (sent : List SentChunk) : Prop :=
  ∀ nonce payload plaintext : Bytes,
    (BodyCipher.new crypto config.security config.payloadKey).decryptInPlace crypto nonce payload =
      .ok plaintext →
    ∃ chunk ∈ sent, nonce = generateChunkNonce config.payloadIv chunk.counter ∧
      payload = chunk.payload crypto config ∧ plaintext = chunk.plaintext

/-- The chunks of a writer are numbered from zero, within a word. -/
structure Orderly (crypto : BodyCrypto) (config : BodyConfig) (w : BodyWriter) : Prop where
  sound : w.state.Sound crypto
  config : w.state.config = config
  counter : w.state.payloadCounter = UInt16.ofNat w.sent.length
  numbered : ∀ i chunk, w.sent[i]? = some chunk → chunk.counter = UInt16.ofNat i

section

variable {crypto : BodyCrypto} {config : BodyConfig} {w : BodyWriter}

theorem generateChunkNonce_injective {base : Bytes} {c c' : UInt16}
    (h : generateChunkNonce base c = generateChunkNonce base c') : c = c' := by
  have hcounter : toBe 2 c.toNat = toBe 2 c'.toNat :=
    (List.append_inj h (by rw [toBe_length, toBe_length])).1
  rw [← wordOf_toBe c, hcounter, wordOf_toBe]

theorem orderly_new (entropy : Entropy) : Orderly crypto config (BodyWriter.new crypto config entropy) :=
  ⟨ChunkState.sound_new config, rfl, rfl, nofun⟩

theorem Orderly.push (h : Orderly crypto config w) {w' : BodyWriter} {plaintext : Bytes}
    (hstate : w'.state = w.state.advance)
    (hsent : w'.sent = w.sent ++ [⟨w.state.payloadCounter, plaintext⟩]) : Orderly crypto config w' where
  sound := hstate ▸ h.sound.advance
  config := by rw [hstate, ChunkState.advance_config, h.config]
  counter := by
    rw [hstate, ChunkState.advance_payloadCounter, h.counter, hsent, List.length_append]
    exact (UInt16.ofNat_add _ _).symm
  numbered := by
    intro i chunk hi
    rw [hsent, List.getElem?_append] at hi
    split at hi
    · exact h.numbered i chunk hi
    · rename_i hge
      obtain ⟨hzero, hchunk⟩ := List.getElem?_eq_some_iff.mp hi
      rw [List.length_singleton] at hzero
      have hlast : i = w.sent.length := by omega
      subst hlast
      rw [← hchunk]
      simpa using h.counter

theorem writeChunk_cases (h : Orderly crypto config w) (plaintext : Bytes) :
    Orderly crypto config (BodyWriter.writeChunk crypto plaintext w).2 ∧
      (((BodyWriter.writeChunk crypto plaintext w).1 = .ok () ∧
        (BodyWriter.writeChunk crypto plaintext w).2.sent =
          w.sent ++ [⟨w.state.payloadCounter, plaintext⟩]) ∨
      ((BodyWriter.writeChunk crypto plaintext w).1 ≠ .ok () ∧
        (BodyWriter.writeChunk crypto plaintext w).2.sent = w.sent)) := by
  by_cases hfits : w.state.totalLen plaintext ≤ 65535
  · obtain ⟨padding, entropy, -, hrun⟩ := BodyWriter.writeChunk_run h.sound hfits
    rw [hrun]
    exact ⟨h.push rfl rfl, .inl ⟨rfl, rfl⟩⟩
  · rw [BodyWriter.writeChunk_large hfits]
    refine ⟨⟨h.sound.padded, ?_, ?_, h.numbered⟩, .inr ⟨nofun, rfl⟩⟩
    · exact (w.state.padded_config).trans h.config
    · exact (w.state.padded_payloadCounter).trans h.counter

theorem writeChunks_orderly (h : Orderly crypto config w) {chunks : List Bytes}
    (hchunks : ∀ chunk ∈ chunks, chunk.length ≤ maxChunkPlainLen) :
    Orderly crypto config (BodyWriter.writeChunks crypto chunks w).2 ∧
      (BodyWriter.writeChunks crypto chunks w).1 = .ok () ∧
      ∃ new, (BodyWriter.writeChunks crypto chunks w).2.sent = w.sent ++ new ∧
        new.map (·.plaintext) = chunks := by
  induction chunks generalizing w with
  | nil => exact ⟨h, rfl, [], (List.append_nil _).symm, rfl⟩
  | cons chunk chunks ih =>
    have hfits : w.state.totalLen chunk ≤ 65535 := BodyWriter.totalLen_le (hchunks chunk List.mem_cons_self)
    obtain ⟨padding, entropy, -, hrun⟩ := BodyWriter.writeChunk_run h.sound hfits
    have hpush : Orderly crypto config (BodyWriter.writeChunk crypto chunk w).2 := by
      rw [hrun]
      exact h.push rfl rfl
    obtain ⟨horderly, hok, new, hnew, hmap⟩ := ih hpush fun c hc => hchunks c (List.mem_cons_of_mem _ hc)
    have hstep : BodyWriter.writeChunks crypto (chunk :: chunks) w =
        BodyWriter.writeChunks crypto chunks (BodyWriter.writeChunk crypto chunk w).2 :=
      Stateful.run_bind (by rw [hrun])
    rw [hstep]
    refine ⟨horderly, hok, ⟨w.state.payloadCounter, chunk⟩ :: new, ?_, by rw [List.map_cons, hmap]⟩
    rw [hnew, hrun, List.append_assoc]
    rfl

theorem Write.unchanged (h : Orderly crypto config w) {write : Write} {result : Outcome Unit}
    (hrun : write.run crypto w = (result, w)) (hdata : result = .ok () → write.data = []) :
    Orderly crypto config (write.run crypto w).2 ∧
      ∃ new : List SentChunk, (write.run crypto w).2.sent = w.sent ++ new ∧
        (new.map (·.plaintext)).flatten = if (write.run crypto w).1 = .ok () then write.data else [] := by
  rw [hrun]
  refine ⟨h, [], (List.append_nil _).symm, ?_⟩
  split
  · rename_i hok
    exact (hdata hok).symm
  · rfl

theorem Write.run_cases (h : Orderly crypto config w) (hraw : config.rawMode = false) (write : Write) :
    Orderly crypto config (write.run crypto w).2 ∧
      ∃ new : List SentChunk, (write.run crypto w).2.sent = w.sent ++ new ∧
        (new.map (·.plaintext)).flatten = if (write.run crypto w).1 = .ok () then write.data else [] := by
  have hstate : w.state.rawMode = false := by
    unfold ChunkState.rawMode
    rw [h.config, hraw]
  cases write with
  | plain data =>
    by_cases hopen : w.finished = false
    · have hfits : ∀ chunk ∈ chunks maxChunkPlainLen data, chunk.length ≤ maxChunkPlainLen :=
        fun chunk hchunk => (mem_chunks (by decide) hchunk).2
      obtain ⟨horderly, hok, new, hnew, hmap⟩ := writeChunks_orderly h hfits
      have hrun : Write.run crypto (.plain data) w =
          BodyWriter.writeChunks crypto (chunks maxChunkPlainLen data) w :=
        BodyWriter.writeAllPlain_chunked hstate hopen data
      have hflat : (chunks maxChunkPlainLen data).flatten = data := flatten_chunks (by decide) data
      rw [hrun, hok, if_pos rfl]
      exact ⟨horderly, new, hnew, by rw [hmap, hflat]; rfl⟩
    · rw [Bool.not_eq_false] at hopen
      by_cases hdata : data = []
      · subst hdata
        exact Write.unchanged h rfl fun _ => rfl
      · refine @Write.unchanged _ _ w h (.plain data) (.err "VMess body writer already finished") ?_ nofun
        show BodyWriter.writeAllPlain crypto data w = _
        unfold BodyWriter.writeAllPlain
        rw [if_neg hdata]
        refine (Stateful.run_bind rfl).trans ?_
        rw [hopen]
        rfl
  | packet data =>
    by_cases hopen : w.finished = false
    · have hrun : Write.run crypto (.packet data) w = BodyWriter.writeChunk crypto data w := by
        show BodyWriter.writePacketPlain crypto data w = _
        unfold BodyWriter.writePacketPlain
        refine (Stateful.run_bind rfl).trans ?_
        rw [hopen, hstate]
        rfl
      rw [hrun]
      obtain ⟨horderly, ⟨hok, hsent⟩ | ⟨hfail, hsent⟩⟩ := writeChunk_cases h data
      · rw [hok, if_pos rfl]
        exact ⟨horderly, _, hsent, List.append_nil data⟩
      · rw [if_neg hfail]
        exact ⟨horderly, [], by rw [hsent, List.append_nil], rfl⟩
    · rw [Bool.not_eq_false] at hopen
      refine @Write.unchanged _ _ w h (.packet data) (.err "VMess body writer already finished") ?_ nofun
      show BodyWriter.writePacketPlain crypto data w = _
      unfold BodyWriter.writePacketPlain
      refine (Stateful.run_bind rfl).trans ?_
      rw [hopen]
      rfl
  | finish =>
    by_cases hopen : w.finished = false
    · obtain ⟨padding, entropy, -, hwrite⟩ :=
        @BodyWriter.writeChunk_run crypto w h.sound [] (BodyWriter.totalLen_le (Nat.zero_le _))
      have hrun : Write.run crypto .finish w =
          (.ok (), { (BodyWriter.writeChunk crypto [] w).2 with finished := true }) := by
        show BodyWriter.finish crypto w = _
        unfold BodyWriter.finish
        refine (Stateful.run_bind rfl).trans ?_
        rw [hopen, hstate]
        refine (Stateful.run_bind hwrite).trans ?_
        rw [hwrite]
        rfl
      rw [hrun, hwrite]
      refine ⟨h.push rfl rfl, _, rfl, ?_⟩
      rfl
    · rw [Bool.not_eq_false] at hopen
      refine @Write.unchanged _ _ w h .finish (.ok ()) ?_ fun _ => rfl
      show BodyWriter.finish crypto w = _
      unfold BodyWriter.finish
      refine (Stateful.run_bind rfl).trans ?_
      rw [hopen]
      rfl

theorem writerAfter_orderly (h : Orderly crypto config w) (hraw : config.rawMode = false) (writes : List Write) :
    Orderly crypto config (writerAfter crypto writes w) ∧
      ∃ new : List SentChunk, (writerAfter crypto writes w).sent = w.sent ++ new ∧
        (new.map (·.plaintext)).flatten = written crypto writes w := by
  induction writes generalizing w with
  | nil => exact ⟨h, [], (List.append_nil _).symm, rfl⟩
  | cons write writes ih =>
    obtain ⟨hstep, new, hnew, hdata⟩ := Write.run_cases h hraw write
    obtain ⟨hrest, more, hmore, hmoredata⟩ := ih hstep
    refine ⟨hrest, new ++ more, ?_, ?_⟩
    · rw [writerAfter, hmore, hnew, List.append_assoc]
    · rw [written, List.map_append, List.flatten_append, hdata, hmoredata]

end

/-! ### What the reader returns -/

inductive Call where
  | plain (size : ℕ)
  | packet

section

variable (crypto : BodyCrypto)

def Call.run : Call → Stateful BodyReader (Option Bytes)
  | .plain size => do
    let bytes ← BodyReader.readPlain crypto size
    return some bytes
  | .packet => BodyReader.readPacket crypto

def runCalls : List Call → BodyReader → List (Outcome (Option Bytes)) × BodyReader
  | [], r => ([], r)
  | call :: calls, r =>
    let more := runCalls calls (call.run crypto r).2
    ((call.run crypto r).1 :: more.1, more.2)

end

def bytesOf : Outcome (Option Bytes) → Bytes
  | .ok (some bytes) => bytes
  | _ => []

def returnedBytes (results : List (Outcome (Option Bytes))) : Bytes := results.flatMap bytesOf

def CleanEnd : Call → Outcome (Option Bytes) → Prop
  | .plain size, .ok (some []) => 0 < size
  | .packet, .ok none => True
  | _, _ => False

/-- What has been returned, and what has been accepted of what was sent. -/
structure Trail (crypto : BodyCrypto) (config : BodyConfig) (sent : List SentChunk) (stream : Bytes)
    (r : BodyReader) (returned : Bytes) (accepted : List SentChunk) : Prop where
  sameConfig : r.state.config = config
  cipher : r.state.payloadCipher = .new crypto config.security config.payloadKey
  inner : r.inner.flatten <:+ stream
  authentic : ∀ chunk ∈ accepted, chunk ∈ sent ∧ chunk.payload crypto config <:+: stream
  bytes : returned ++ r.pending.drop r.pendingPos = (accepted.map (·.plaintext)).flatten
  ended : r.finished = true → ∃ chunk ∈ accepted, chunk.plaintext = []

/-- Nothing has failed: the accepted chunks are the first that were sent. -/
structure InOrder (sent : List SentChunk) (r : BodyReader) (accepted : List SentChunk) : Prop where
  front : accepted <+: sent
  counter : r.state.payloadCounter = UInt16.ofNat accepted.length
  data : r.finished = false → ∀ chunk ∈ accepted, chunk.plaintext ≠ []

/-- The chunks of a body whose numbers are told apart: at most 65536, and so many only if one of
them ends the body. -/
structure Distinct (sent : List SentChunk) : Prop where
  numbered : ∀ i chunk, sent[i]? = some chunk → chunk.counter = UInt16.ofNat i
  bounded : sent.length ≤ 65536
  ended : sent.length = 65536 → ∃ chunk ∈ sent, chunk.plaintext = []

section

variable {crypto : BodyCrypto} {config : BodyConfig} {sent accepted : List SentChunk} {stream returned : Bytes}
  {r r' : BodyReader}

theorem Trail.clearPending (h : Trail crypto config sent stream r returned accepted)
    (hpending : r.pending.drop r.pendingPos = []) :
    Trail crypto config sent stream r.clearPending returned accepted :=
  { h with bytes := by rw [← h.bytes, hpending]; rfl }

theorem Trail.fail (h : Trail crypto config sent stream r returned accepted)
    (hpending : r.pending.drop r.pendingPos = []) (hfail : Failed r r') :
    Trail crypto config sent stream r' returned accepted where
  sameConfig := hfail.config.trans h.sameConfig
  cipher := hfail.cipher.trans h.cipher
  inner := hfail.inner.trans h.inner
  authentic := h.authentic
  bytes := by
    rw [← h.bytes, hpending, hfail.pending, List.drop_nil]
  ended := fun hfinished => h.ended (hfail.finished ▸ hfinished)

theorem InOrder.accept (hdistinct : Distinct sent) (h : InOrder sent r accepted) (hfinished : r.finished = false)
    {chunk : SentChunk} (hchunk : chunk ∈ sent) (hcounter : chunk.counter = r.state.payloadCounter) :
    accepted ++ [chunk] <+: sent := by
  have hle : accepted.length ≤ sent.length := h.front.length_le
  have hbounded := hdistinct.bounded
  -- So many data chunks would be all there is, and then one of them ends the body.
  have hlt : accepted.length < 65536 := by
    by_contra hge
    have hall : accepted = sent := h.front.eq_of_length (by omega)
    obtain ⟨last, hlast, hnil⟩ := hdistinct.ended (by rw [← hall]; omega)
    exact h.data hfinished last (hall ▸ hlast) hnil
  obtain ⟨i, hi⟩ := List.mem_iff_getElem?.mp hchunk
  have hi' : i < sent.length := (List.getElem?_eq_some_iff.mp hi).1
  have hsame : UInt16.ofNat i = UInt16.ofNat accepted.length := by
    rw [← hdistinct.numbered i chunk hi, hcounter, h.counter]
  have hindex : i = accepted.length := by
    have hnat := congrArg UInt16.toNat hsame
    rw [UInt16.toNat_ofNat', UInt16.toNat_ofNat'] at hnat
    omega
  obtain ⟨rest, hrest⟩ := h.front
  rw [hindex, ← hrest, List.getElem?_append_right (Nat.le_refl _), Nat.sub_self] at hi
  cases rest with
  | nil => cases hi
  | cons next rest =>
    cases hi
    exact ⟨rest, by rw [← hrest, List.append_assoc]; rfl⟩

theorem Trail.accept (hideal : OnlySentOpens crypto config sent)
    (h : Trail crypto config sent stream r returned accepted)
    (hpending : r.pending.drop r.pendingPos = []) {payload plaintext : Bytes}
    (haccept : Accepted crypto r r' payload plaintext) :
    ∃ chunk ∈ sent, chunk.counter = r.state.payloadCounter ∧ chunk.plaintext = plaintext ∧
      r'.finished = (r.finished || decide (plaintext = [])) ∧
      Trail crypto config sent stream r' returned (accepted ++ [chunk]) := by
  have hopen := haccept.opened
  rw [h.cipher] at hopen
  obtain ⟨chunk, hchunk, hnonce, hpayload, rfl⟩ := hideal _ _ _ hopen
  have hcounter : chunk.counter = r.state.payloadCounter := by
    unfold ChunkState.payloadNonce at hnonce
    rw [h.sameConfig] at hnonce
    exact (generateChunkNonce_injective hnonce).symm
  have hlength : payload.length = chunk.plaintext.length + r.state.payloadOverhead := by
    rw [ChunkState.payloadOverhead_eq (h.sameConfig ▸ h.cipher), h.cipher, hpayload]
    exact BodyCipher.sealedBytes_length _ _
  have hfinished : r'.finished = (r.finished || decide (chunk.plaintext = [])) := by
    rw [haccept.finished]
    congr 1
    simp only [decide_eq_decide]
    refine ⟨And.right, fun hnil => ⟨?_, hnil⟩⟩
    rw [hlength, hnil, List.length_nil, Nat.zero_add]
  refine ⟨chunk, hchunk, hcounter, rfl, hfinished, ?_⟩
  exact
    { sameConfig := haccept.config.trans h.sameConfig
      cipher := haccept.cipher.trans h.cipher
      inner := haccept.inner.trans h.inner
      authentic := by
        intro c hc
        rcases List.mem_append.mp hc with hc | hc
        · exact h.authentic c hc
        · rw [List.mem_singleton.mp hc]
          exact ⟨hchunk, hpayload ▸ haccept.received.trans h.inner.isInfix⟩
      bytes := by
        rw [List.map_append, List.flatten_append, ← h.bytes, hpending, haccept.pending, haccept.pendingPos]
        simp
      ended := by
        intro hend
        rw [hfinished, Bool.or_eq_true, decide_eq_true_iff] at hend
        rcases hend with hend | hend
        · obtain ⟨c, hc, hnil⟩ := h.ended hend
          exact ⟨c, List.mem_append_left _ hc, hnil⟩
        · exact ⟨chunk, by simp, hend⟩ }

theorem Trail.deliver (h : Trail crypto config sent stream r returned accepted) (size : ℕ) :
    Trail crypto config sent stream (r.deliver size).2
      (returned ++ (r.pending.drop r.pendingPos).take size) accepted := by
  obtain ⟨pending, pendingPos, hdeliver, hrest⟩ := r.deliver_run size
  rw [hdeliver]
  exact { h with bytes := by rw [hrest, List.append_assoc, List.take_append_drop, h.bytes] }

theorem Trail.next (hideal : OnlySentOpens crypto config sent) (hdistinct : Distinct sent)
    (h : Trail crypto config sent stream r returned accepted) (hpending : r.pending = [])
    (hfinished : r.finished = false) :
    ∃ new, Trail crypto config sent stream (BodyReader.readNextChunk crypto r).2 returned (accepted ++ new) ∧
      ((BodyReader.readNextChunk crypto r).1 = .ok () →
        (InOrder sent r accepted → InOrder sent (BodyReader.readNextChunk crypto r).2 (accepted ++ new)) ∧
        ((BodyReader.readNextChunk crypto r).2.finished = true ↔
          (BodyReader.readNextChunk crypto r).2.pending = []) ∧
        (BodyReader.readNextChunk crypto r).2.pendingPos = 0) := by
  have hdrop : r.pending.drop r.pendingPos = [] := by rw [hpending, List.drop_nil]
  obtain ⟨hok, hfail⟩ := @readNextChunk_triple crypto r hpending r
    { config := rfl, cipher := rfl, inner := List.suffix_refl _, counter := rfl, pending := rfl,
      pendingPos := rfl, finished := rfl }
  by_cases hresult : (BodyReader.readNextChunk crypto r).1 = .ok ()
  · obtain ⟨payload, plaintext, haccept⟩ := hok () hresult
    obtain ⟨chunk, hchunk, hcounter, hplain, hend, htrail⟩ := h.accept hideal hdrop haccept
    rw [hfinished, Bool.false_or] at hend
    refine ⟨[chunk], htrail, fun _ => ⟨fun horder => ⟨?_, ?_, ?_⟩, ?_, haccept.pendingPos⟩⟩
    · exact horder.accept hdistinct hfinished hchunk hcounter
    · rw [haccept.counter, horder.counter, List.length_append]
      exact (UInt16.ofNat_add _ _).symm
    · intro hopen c hc
      rw [hend, decide_eq_false_iff_not] at hopen
      rcases List.mem_append.mp hc with hc | hc
      · exact horder.data hfinished c hc
      · rwa [List.mem_singleton.mp hc, hplain]
    · rw [hend, decide_eq_true_iff, haccept.pending]
  · have hfailed := hfail fun u hu => hresult hu
    refine ⟨[], ?_, fun hu => absurd hu hresult⟩
    rw [List.append_nil]
    exact h.fail hdrop hfailed

/-- What a call leaves behind: what it returned comes from accepted chunks, these are still in order
if it succeeded, and an end that it reports is there. -/
structure Kept (crypto : BodyCrypto) (config : BodyConfig) (sent : List SentChunk) (stream : Bytes)
    (r : BodyReader) (returned : Bytes) (accepted : List SentChunk) (call : Call)
    (result : Outcome (Option Bytes)) (r' : BodyReader) (new : List SentChunk) : Prop where
  trail : Trail crypto config sent stream r' (returned ++ bytesOf result) (accepted ++ new)
  inOrder : ∀ value, result = .ok value → InOrder sent r accepted → InOrder sent r' (accepted ++ new)
  ended : CleanEnd call result → r'.finished = true

theorem bytesOf_fail {result : Outcome (Option Bytes)} (h : ∀ value, result ≠ .ok value) :
    bytesOf result = [] := by
  cases result with
  | ok value => exact absurd rfl (h value)
  | err e => rfl
  | panic => rfl

theorem cleanEnd_fail {call : Call} {result : Outcome (Option Bytes)} (h : ∀ value, result ≠ .ok value) :
    ¬CleanEnd call result := by
  cases result with
  | ok value => exact absurd rfl (h value)
  | err e => cases call <;> exact id
  | panic => cases call <;> exact id

theorem Kept.of_fail {call : Call} {result : Outcome (Option Bytes)} {new : List SentChunk}
    (hfail : ∀ value, result ≠ .ok value)
    (htrail : Trail crypto config sent stream r' returned (accepted ++ new)) :
    Kept crypto config sent stream r returned accepted call result r' new where
  trail := by rwa [bytesOf_fail hfail, List.append_nil]
  inOrder := fun value hvalue => absurd hvalue (hfail value)
  ended := fun hend => absurd hend (cleanEnd_fail hfail)

theorem InOrder.of_eq (h : InOrder sent r accepted) (hcounter : r'.state.payloadCounter = r.state.payloadCounter)
    (hfinished : r'.finished = r.finished) : InOrder sent r' accepted :=
  ⟨h.front, hcounter.trans h.counter, fun hopen => h.data (hfinished ▸ hopen)⟩

theorem Kept.deliver {size : ℕ} (hsize : 0 < size) {r₁ : BodyReader} {new : List SentChunk}
    (htrail : Trail crypto config sent stream r₁ returned (accepted ++ new))
    (hpending : r₁.pending.drop r₁.pendingPos ≠ [])
    (horder : InOrder sent r accepted → InOrder sent r₁ (accepted ++ new)) :
    Kept crypto config sent stream r returned accepted (.plain size)
      (.ok (some ((r₁.pending.drop r₁.pendingPos).take size))) (r₁.deliver size).2 new where
  trail := htrail.deliver size
  inOrder := by
    intro _ _ h
    obtain ⟨pending, pendingPos, hdeliver, -⟩ := r₁.deliver_run size
    rw [hdeliver]
    exact (horder h).of_eq rfl rfl
  ended := by
    intro hend
    exfalso
    cases htake : (r₁.pending.drop r₁.pendingPos).take size with
    | nil =>
      rcases List.take_eq_nil_iff.mp htake with hzero | hnil
      · omega
      · exact hpending hnil
    | cons b bytes =>
      rw [htake] at hend
      exact hend

theorem run_plain {size : ℕ} {bytes : Bytes} (h : BodyReader.readPlain crypto size r = (.ok bytes, r')) :
    (Call.plain size).run crypto r = (.ok (some bytes), r') :=
  Stateful.run_bind h

theorem run_plain_fail {size : ℕ} (hsize : 0 < size) (hraw : r.state.rawMode = false)
    (hpending : r.pending.drop r.pendingPos = []) (hfinished : r.finished = false)
    (hfail : ∀ u, (BodyReader.readNextChunk crypto r.clearPending).1 ≠ .ok u) :
    ((Call.plain size).run crypto r).2 = (BodyReader.readNextChunk crypto r.clearPending).2 ∧
      ∀ value, ((Call.plain size).run crypto r).1 ≠ .ok value := by
  have hplain : (BodyReader.readPlain crypto size r).2 =
        (BodyReader.readNextChunk crypto r.clearPending).2 ∧
      ∀ bytes, (BodyReader.readPlain crypto size r).1 ≠ .ok bytes := by
    rw [readPlain_emptied hsize hraw hpending, if_neg (by simp [hfinished])]
    exact Stateful.run_bind_fail hfail
  obtain ⟨hstay, hcall⟩ := Stateful.run_bind_fail (f := fun bytes => pure (some bytes)) hplain.2
  exact ⟨hstay.trans hplain.1, hcall⟩

theorem Trail.readPlain (hideal : OnlySentOpens crypto config sent) (hdistinct : Distinct sent)
    (hraw : config.rawMode = false) (h : Trail crypto config sent stream r returned accepted) (size : ℕ) :
    ∃ new, Kept crypto config sent stream r returned accepted (.plain size)
      ((Call.plain size).run crypto r).1 ((Call.plain size).run crypto r).2 new := by
  have hstate : r.state.rawMode = false := by
    unfold ChunkState.rawMode
    rw [h.sameConfig, hraw]
  by_cases hsize : 0 < size
  · by_cases hpending : r.pending.drop r.pendingPos = []
    · by_cases hfinished : r.finished = true
      · rw [run_plain (readPlain_finished hsize hstate hpending hfinished)]
        refine ⟨[], ?_, fun _ _ horder => ?_, fun _ => hfinished⟩
        · rw [List.append_nil]
          exact (List.append_nil returned).symm ▸ h.clearPending hpending
        · rw [List.append_nil]
          exact horder.of_eq rfl rfl
      · rw [Bool.not_eq_true] at hfinished
        obtain ⟨new, htrail, hnext⟩ := (h.clearPending hpending).next hideal hdistinct rfl hfinished
        refine ⟨new, ?_⟩
        by_cases hok : (BodyReader.readNextChunk crypto r.clearPending).1 = .ok ()
        · obtain ⟨horder, hiff, hpos⟩ := hnext hok
          have hplain := readPlain_next hsize hstate hpending hfinished (Prod.ext hok rfl)
          have horder' := fun hin : InOrder sent r accepted => horder (hin.of_eq rfl rfl)
          by_cases hnil : (BodyReader.readNextChunk crypto r.clearPending).2.pending = []
          · rw [if_pos hnil] at hplain
            rw [run_plain hplain]
            refine ⟨?_, fun _ _ => horder', fun _ => hiff.mpr hnil⟩
            exact (List.append_nil returned).symm ▸ htrail
          · rw [if_neg hnil] at hplain
            rw [run_plain hplain]
            exact Kept.deliver hsize htrail (by rwa [hpos]) horder'
        · obtain ⟨hstay, hfail⟩ := run_plain_fail hsize hstate hpending hfinished fun u hu => hok hu
          rw [hstay]
          exact Kept.of_fail hfail htrail
    · have hdeliver : BodyReader.readPlain crypto size r =
          (.ok ((r.pending.drop r.pendingPos).take size), (r.deliver size).2) :=
        readPlain_pending hsize hstate hpending
      rw [run_plain hdeliver]
      refine ⟨[], Kept.deliver hsize ?_ hpending fun horder => ?_⟩
      · rwa [List.append_nil]
      · rwa [List.append_nil]
  · have hzero : size = 0 := by omega
    subst hzero
    refine ⟨[], ?_, fun _ _ horder => ?_, fun hend => absurd hend hsize⟩
    · rw [List.append_nil]
      exact (List.append_nil returned).symm ▸ h
    · rw [List.append_nil]
      exact horder

theorem readPacket_eq (hraw : r.state.rawMode = false) :
    BodyReader.readPacket crypto r =
      if r.pending.drop r.pendingPos = [] then
        if r.finished then (.ok none, r)
        else (BodyReader.readNextChunk crypto >>= fun _ => BodyReader.takePacket) r.clearPending
      else (.err "VMess packet transfer cannot continue after partial stream reads", r) := by
  unfold BodyReader.readPacket
  refine (Stateful.run_bind rfl).trans ?_
  refine (Stateful.run_lift_bind (Outcome.ensure_pos (by rw [hraw]; rfl)) _).trans ?_
  by_cases hle : r.pending.length ≤ r.pendingPos
  · rw [if_pos (List.drop_eq_nil_iff.mpr hle)]
    refine (Stateful.run_lift_bind (Outcome.ensure_pos (decide_eq_true hle)) _).trans ?_
    split
    · rfl
    · rfl
  · rw [if_neg fun h => hle (List.drop_eq_nil_iff.mp h),
      Outcome.ensure_neg fun h => hle (of_decide_eq_true h)]
    rfl

theorem Trail.readPacket (hideal : OnlySentOpens crypto config sent) (hdistinct : Distinct sent)
    (hraw : config.rawMode = false) (h : Trail crypto config sent stream r returned accepted) :
    ∃ new, Kept crypto config sent stream r returned accepted .packet
      (BodyReader.readPacket crypto r).1 (BodyReader.readPacket crypto r).2 new := by
  have hstate : r.state.rawMode = false := by
    unfold ChunkState.rawMode
    rw [h.sameConfig, hraw]
  have hstay : Trail crypto config sent stream r returned (accepted ++ []) := by rwa [List.append_nil]
  rw [readPacket_eq hstate]
  split
  · rename_i hpending
    split
    · rename_i hfinished
      refine ⟨[], ?_, fun _ _ horder => ?_, fun _ => hfinished⟩
      · exact (List.append_nil returned).symm ▸ hstay
      · rwa [List.append_nil]
    · rename_i hfinished
      rw [Bool.not_eq_true] at hfinished
      obtain ⟨new, htrail, hnext⟩ := (h.clearPending hpending).next hideal hdistinct rfl hfinished
      refine ⟨new, ?_⟩
      by_cases hok : (BodyReader.readNextChunk crypto r.clearPending).1 = .ok ()
      · obtain ⟨horder, -, hpos⟩ := hnext hok
        have horder' := fun hin : InOrder sent r accepted => horder (hin.of_eq rfl rfl)
        rw [Stateful.run_bind (Prod.ext hok rfl)]
        unfold BodyReader.takePacket
        split
        · rename_i hend
          refine ⟨?_, fun _ _ => horder', fun _ => hend⟩
          exact (List.append_nil returned).symm ▸ htrail
        · refine ⟨{ htrail with bytes := ?_ }, fun _ _ hin => (horder' hin).of_eq rfl rfl, ?_⟩
          · rw [← htrail.bytes, hpos, List.append_assoc]
            exact congrArg (returned ++ ·) (List.append_nil _)
          · exact fun hend => hend.elim
      · obtain ⟨hsame, hfail⟩ := Stateful.run_bind_fail (f := fun _ => BodyReader.takePacket)
          fun u hu => hok hu
        rw [hsame]
        exact Kept.of_fail hfail htrail
  · exact ⟨[], Kept.of_fail nofun hstay⟩

theorem Trail.call (hideal : OnlySentOpens crypto config sent) (hdistinct : Distinct sent)
    (hraw : config.rawMode = false) (h : Trail crypto config sent stream r returned accepted) (call : Call) :
    ∃ new, Kept crypto config sent stream r returned accepted call (call.run crypto r).1
      (call.run crypto r).2 new := by
  cases call with
  | plain size => exact h.readPlain hideal hdistinct hraw size
  | packet => exact h.readPacket hideal hdistinct hraw

theorem Trail.runCalls (hideal : OnlySentOpens crypto config sent) (hdistinct : Distinct sent)
    (hraw : config.rawMode = false) (h : Trail crypto config sent stream r returned accepted)
    (calls : List Call) :
    ∃ new, Trail crypto config sent stream (runCalls crypto calls r).2
        (returned ++ returnedBytes (runCalls crypto calls r).1) (accepted ++ new) ∧
      ((∀ result ∈ (runCalls crypto calls r).1, ∃ value, result = .ok value) → InOrder sent r accepted →
        InOrder sent (runCalls crypto calls r).2 (accepted ++ new)) := by
  induction calls generalizing r returned accepted with
  | nil =>
    refine ⟨[], ?_, fun _ horder => ?_⟩
    · rw [List.append_nil]
      exact (List.append_nil returned).symm ▸ h
    · rwa [List.append_nil]
  | cons call calls ih =>
    obtain ⟨new, hkept⟩ := h.call hideal hdistinct hraw call
    obtain ⟨more, htrail, horder⟩ := ih hkept.trail
    refine ⟨new ++ more, ?_, fun hok hin => ?_⟩
    · rw [← List.append_assoc]
      rw [List.append_assoc] at htrail
      exact htrail
    · obtain ⟨value, hvalue⟩ := hok _ List.mem_cons_self
      rw [← List.append_assoc]
      exact horder (fun result hresult => hok result (List.mem_cons_of_mem _ hresult))
        (hkept.inOrder value hvalue hin)

theorem trail_new (segments : Segments) :
    Trail crypto config sent segments.flatten (BodyReader.new crypto segments config) [] [] :=
  ⟨rfl, rfl, List.suffix_refl _, nofun, rfl, nofun⟩

theorem inOrder_new (segments : Segments) : InOrder sent (BodyReader.new crypto segments config) [] :=
  ⟨List.nil_prefix, rfl, nofun⟩

/-- Under an ideal AEAD, and while the chunk counter tells the chunks of a body apart, whatever is
put in place of its wire: up to the first failure the reader returns a front of what was written, an
end that it reports is one that was sent and received, and what it returns, before and after a
failure, is a front of chunks that were sent and received as they were sealed. -/
theorem body_integrity
    (hsecurity : config.security = .aes128Gcm ∨ config.security = .chacha20Poly1305) (entropy : Entropy)
    (writes : List Write)
    (hideal : OnlySentOpens crypto config
      (writerAfter crypto writes (BodyWriter.new crypto config entropy)).sent)
    (hbounded : (writerAfter crypto writes (BodyWriter.new crypto config entropy)).sent.length ≤ 65536)
    (hended : (writerAfter crypto writes (BodyWriter.new crypto config entropy)).sent.length = 65536 →
      ∃ chunk ∈ (writerAfter crypto writes (BodyWriter.new crypto config entropy)).sent, chunk.plaintext = [])
    (segments : Segments) (calls : List Call) :
    let w := BodyWriter.new crypto config entropy
    let sent := (writerAfter crypto writes w).sent
    let run := runCalls crypto calls (BodyReader.new crypto segments config)
    ((∀ result ∈ run.1, ∃ value, result = .ok value) → returnedBytes run.1 <+: written crypto writes w) ∧
      (∀ call : Call, CleanEnd call (call.run crypto run.2).1 →
        ∃ chunk ∈ sent, chunk.plaintext = [] ∧ chunk.payload crypto config <:+: segments.flatten) ∧
      ∃ accepted : List SentChunk,
        (∀ chunk ∈ accepted, chunk ∈ sent ∧ chunk.payload crypto config <:+: segments.flatten) ∧
        returnedBytes run.1 <+: (accepted.map (·.plaintext)).flatten := by
  intro w sent run
  have hraw : config.rawMode = false := by
    unfold BodyConfig.rawMode
    rcases hsecurity with h | h
    · rw [h]
      rfl
    · rw [h]
      rfl
  obtain ⟨horderly, new, hnew, hdata⟩ := writerAfter_orderly (orderly_new entropy) hraw writes
  have hdistinct : Distinct sent := ⟨horderly.numbered, hbounded, hended⟩
  obtain ⟨accepted, htrail, horder⟩ := (trail_new segments).runCalls hideal hdistinct hraw calls
  rw [List.nil_append, List.nil_append] at htrail
  refine ⟨fun hok => ?_, fun call hend => ?_, accepted, htrail.authentic, _, htrail.bytes⟩
  · obtain ⟨rest, hrest⟩ : accepted <+: sent := (horder hok (inOrder_new segments)).front
    have hwritten : (sent.map (·.plaintext)).flatten = written crypto writes w := by
      rw [show sent = new from hnew, hdata]
    rw [← hwritten, ← hrest, List.map_append, List.flatten_append, ← htrail.bytes, List.append_assoc]
    exact List.prefix_append _ _
  · obtain ⟨more, hkept⟩ := htrail.call hideal hdistinct hraw call
    obtain ⟨chunk, hchunk, hnil⟩ := hkept.trail.ended (hkept.ended hend)
    obtain ⟨hsent, hreceived⟩ := hkept.trail.authentic chunk hchunk
    exact ⟨chunk, hsent, hnil, hreceived⟩

end

/-! ### At the last number -/

def guardedAead (issued : Bytes → Bytes → Bool) : Aead where
  encrypt _ _ plaintext := (plaintext, List.replicate 16 0)
  decrypt _ nonce ciphertext tag :=
    if tag = List.replicate 16 0 ∧ issued nonce ciphertext = true then some ciphertext else none
  ciphertext_length := taggedAead.ciphertext_length
  tag_length := taggedAead.tag_length

def guardedCrypto (issued : Bytes → Bytes → Bool) : BodyCrypto where
  sha256 bytes := bytes
  md5 bytes := bytes
  aes128Gcm := guardedAead issued
  chaCha20Poly1305 := guardedAead issued

def plainConfig : BodyConfig where
  security := .aes128Gcm
  options := 0x01
  payloadKey := List.replicate 16 0x11
  payloadIv := List.replicate 16 0x22
  lengthKey := List.replicate 16 0x11
  lengthIv := List.replicate 16 0x22
  normalized := nofun
  sealedLength := by decide
  chunked := by decide
  masked := by decide

section

variable {issued : Bytes → Bytes → Bool} {sent : List SentChunk}

theorem guarded_onlySentOpens
    (h : ∀ nonce text, issued nonce text = true →
      ∃ chunk ∈ sent, nonce = generateChunkNonce plainConfig.payloadIv chunk.counter ∧ text = chunk.plaintext) :
    OnlySentOpens (guardedCrypto issued) plainConfig sent := by
  intro nonce payload plaintext hopen
  change (if aeadTagLen ≤ payload.length then Outcome.need ((guardedAead issued).decrypt _ nonce
    (payload.take (payload.length - aeadTagLen)) (payload.drop (payload.length - aeadTagLen))) _
      else _) = _ at hopen
  split at hopen
  · have hsome := Outcome.need_ok.mp hopen
    change (if _ then _ else _) = _ at hsome
    split at hsome
    · rename_i hissued
      cases hsome
      obtain ⟨chunk, hchunk, hnonce, htext⟩ := h _ _ hissued.2
      refine ⟨chunk, hchunk, hnonce, ?_, htext⟩
      calc payload
        _ = payload.take (payload.length - aeadTagLen) ++ payload.drop (payload.length - aeadTagLen) :=
          (List.take_append_drop _ _).symm
        _ = chunk.plaintext ++ List.replicate 16 0 := by rw [htext, hissued.1]
    · cases hsome
  · cases hopen

end

def issuedPair (nonce text : Bytes) : Bool :=
  (nonce, text) ∈ [(generateChunkNonce plainConfig.payloadIv 0, [1, 2]),
    (generateChunkNonce plainConfig.payloadIv 1, [])]

/-- A body of two chunks, with its first chunk presented twice. -/
theorem repeated_chunk_not_returned :
    let crypto := guardedCrypto issuedPair
    let w := BodyWriter.new crypto plainConfig fun _ => 0
    let run := runCalls crypto [.plain 2, .plain 2]
      (BodyReader.new crypto (List.replicate 2 ([0, 18, 1, 2] ++ List.replicate 16 0)) plainConfig)
    run.1 = [.ok (some [1, 2]), .err "decrypt VMess body"] ∧
      ∃ accepted : List SentChunk,
        (∀ chunk ∈ accepted, chunk ∈ (writerAfter crypto [.plain [1, 2], .finish] w).sent) ∧
        returnedBytes run.1 <+: (accepted.map (·.plaintext)).flatten := by
  intro crypto w run
  refine ⟨by decide +kernel, ?_⟩
  have hsent : (writerAfter crypto [.plain [1, 2], .finish] w).sent = [⟨0, [1, 2]⟩, ⟨1, []⟩] := by
    decide +kernel
  have hideal : OnlySentOpens crypto plainConfig (writerAfter crypto [.plain [1, 2], .finish] w).sent := by
    rw [hsent]
    refine guarded_onlySentOpens fun nonce text hissued => ?_
    rcases List.mem_pair.mp (of_decide_eq_true hissued) with h | h
    · cases h
      exact ⟨⟨0, [1, 2]⟩, by decide, rfl, rfl⟩
    · cases h
      exact ⟨⟨1, []⟩, by decide, rfl, rfl⟩
  obtain ⟨-, -, accepted, haccepted, hreturned⟩ := body_integrity (.inl rfl) (fun _ => 0)
    [.plain [1, 2], .finish] hideal (by rw [hsent]; decide) (by rw [hsent]; decide)
    (List.replicate 2 ([0, 18, 1, 2] ++ List.replicate 16 0)) [.plain 2, .plain 2]
  exact ⟨accepted, fun chunk hchunk => (haccepted chunk hchunk).1, hreturned⟩

def issuedZero (nonce text : Bytes) : Bool :=
  nonce = generateChunkNonce plainConfig.payloadIv (wordOf (nonce.take 2)) ∧ text = [0]

def zeroCrypto : BodyCrypto := guardedCrypto issuedZero

/-- The wire of a chunk with a zero: without masks it is the same under every number. -/
def zeroChunk : Bytes := [0, 17] ++ List.replicate 17 0

def zeroState (counter : UInt16) : ChunkState where
  config := plainConfig
  sizeShake := none
  paddingShake := none
  paddingFromSizeShake := false
  sizeCounter := 0
  payloadCounter := counter
  payloadCipher := .aes plainConfig.payloadKey
  lengthCipher := none

theorem plainConfig_authenticatedLength : authenticatedLength plainConfig.options = false := by decide

theorem zeroState_zero : ChunkState.new zeroCrypto plainConfig = zeroState 0 := by
  have hmasks : chunkMasking plainConfig.options = false := by decide
  simp [ChunkState.new, plainConfig_authenticatedLength, hmasks, zeroState]
  rfl

theorem issuedZero_nonce (counter : UInt16) :
    issuedZero (generateChunkNonce plainConfig.payloadIv counter) [0] = true := by
  refine decide_eq_true ⟨?_, rfl⟩
  have hword : (generateChunkNonce plainConfig.payloadIv counter).take 2 = toBe 2 counter.toNat :=
    List.take_left' (toBe_length _ _)
  rw [hword, wordOf_toBe]

theorem zeroState_sound (counter : UInt16) : (zeroState counter).Sound zeroCrypto := by
  refine ⟨rfl, ?_⟩
  show none = if authenticatedLength plainConfig.options = true then _ else none
  rw [plainConfig_authenticatedLength]
  rfl

theorem zeroState_opens (counter : UInt16) : (zeroState counter).PayloadOpens zeroCrypto [0] := by
  have hdecrypt : (guardedAead issuedZero).decrypt plainConfig.payloadKey
      (generateChunkNonce plainConfig.payloadIv counter) [0] (List.replicate 16 0) = some [0] := by
    unfold guardedAead
    exact if_pos ⟨rfl, issuedZero_nonce counter⟩
  show Outcome.need ((guardedAead issuedZero).decrypt plainConfig.payloadKey
    (generateChunkNonce plainConfig.payloadIv counter) [0] (List.replicate 16 0)) _ = _
  rw [hdecrypt]
  rfl

theorem zeroState_chunkBytes (counter : UInt16) :
    (zeroState counter).chunkBytes zeroCrypto [0] [] = zeroChunk := by
  have hsize : (zeroState counter).padded.sizeField zeroCrypto 17 = [0, 17] := by
    unfold ChunkState.sizeField
    rw [if_neg (by rw [show (zeroState counter).padded.config = plainConfig from rfl,
      plainConfig_authenticatedLength]; decide)]
    show toBe 2 (0 ^^^ 17 : UInt16).toNat = [0, 17]
    decide
  unfold ChunkState.chunkBytes
  rw [show (zeroState counter).totalLen [0] = 17 from rfl]
  show (zeroState counter).padded.sizeField zeroCrypto 17 ++ _ = _
  rw [hsize]
  rfl

theorem zeroState_advance (counter : UInt16) : (zeroState counter).advance = zeroState (counter + 1) := by
  unfold ChunkState.advance ChunkState.sized
  rw [if_neg (by rw [show (zeroState counter).padded.config = plainConfig from rfl,
    plainConfig_authenticatedLength]; decide)]
  rfl

theorem readPlain_zero (counter : UInt16) {n : ℕ} {segments : Segments}
    (hinner : segments.flatten = (List.replicate (n + 1) zeroChunk).flatten) :
    ∃ inner, inner.flatten = (List.replicate n zeroChunk).flatten ∧
      (Call.plain 1).run zeroCrypto ⟨segments, zeroState counter, [], 0, false⟩ =
        (.ok (some [0]), ⟨inner, zeroState (counter + 1), [], 0, false⟩) := by
  have hchunk : segments.flatten = (zeroState counter).chunkBytes zeroCrypto [0] [] ++
      (List.replicate n zeroChunk).flatten := by
    rw [hinner, zeroState_chunkBytes]
    rfl
  have hfits : (zeroState counter).totalLen [0] ≤ 65535 := by
    rw [show (zeroState counter).totalLen [0] = 17 from rfl]
    decide
  have hlength : (zeroState counter).LengthOpens zeroCrypto :=
    fun hauth => absurd (plainConfig_authenticatedLength.symm.trans hauth) Bool.false_ne_true
  obtain ⟨inner, hrest, hnext⟩ := @BodyReader.readNextChunk_run zeroCrypto
    ⟨segments, zeroState counter, [], 0, false⟩ (zeroState_sound counter) hlength [0] [] _
      (zeroState_opens counter)
    hfits rfl hchunk
  have hread := @readPlain_next zeroCrypto ⟨segments, zeroState counter, [], 0, false⟩ 1 Nat.one_pos
    rfl rfl rfl _ hnext
  refine ⟨inner, hrest, run_plain (hread.trans ?_)⟩
  rw [if_neg (List.cons_ne_nil _ _), zeroState_advance]
  rfl

theorem runCalls_zeros (n : ℕ) (counter : UInt16) {segments : Segments}
    (hinner : segments.flatten = (List.replicate n zeroChunk).flatten) :
    (runCalls zeroCrypto (List.replicate n (.plain 1)) ⟨segments, zeroState counter, [], 0, false⟩).1 =
      List.replicate n (.ok (some [0])) := by
  induction n generalizing counter segments with
  | zero => rfl
  | succ n ih =>
    obtain ⟨inner, hrest, hrun⟩ := readPlain_zero counter hinner
    have hmore := ih (counter + 1) hrest
    simp only [List.replicate_succ, runCalls, hrun, hmore]

theorem writeZeros_run (n : ℕ) {w : BodyWriter} (h : Orderly zeroCrypto plainConfig w)
    (hopen : w.finished = false) :
    (writerAfter zeroCrypto (List.replicate n (.plain [0])) w).sent.map (·.plaintext) =
        w.sent.map (·.plaintext) ++ List.replicate n [0] ∧
      written zeroCrypto (List.replicate n (.plain [0])) w = List.replicate n 0 := by
  induction n generalizing w with
  | zero => exact ⟨(List.append_nil _).symm, rfl⟩
  | succ n ih =>
    have hraw : w.state.rawMode = false := by
      unfold ChunkState.rawMode
      rw [h.config]
      rfl
    obtain ⟨bytes, entropy, -, hrun⟩ := @BodyWriter.writeChunks_run zeroCrypto w h.sound [[0]] (by decide)
    have hwrite : Write.run zeroCrypto (.plain [0]) w = _ :=
      (BodyWriter.writeAllPlain_chunked hraw hopen [0]).trans hrun
    have hnext : Orderly zeroCrypto plainConfig (Write.run zeroCrypto (.plain [0]) w).2 :=
      (Write.run_cases h rfl _).1
    rw [hwrite] at hnext
    obtain ⟨hsent, hdata⟩ := ih hnext hopen
    rw [List.replicate_succ, writerAfter, written, hwrite]
    refine ⟨?_, ?_⟩
    · rw [hsent, List.map_append, List.append_assoc]
      rfl
    · rw [hdata]
      rfl

theorem zeros_onlySentOpens {sent : List SentChunk} (hlength : sent.length = 65536)
    (hnumbered : ∀ i chunk, sent[i]? = some chunk → chunk.counter = UInt16.ofNat i)
    (hzero : ∀ chunk ∈ sent, chunk.plaintext = [0]) : OnlySentOpens zeroCrypto plainConfig sent := by
  refine guarded_onlySentOpens fun nonce text hissued => ?_
  obtain ⟨hnonce, rfl⟩ := of_decide_eq_true hissued
  generalize wordOf (nonce.take 2) = counter at hnonce
  have hlt : counter.toNat < sent.length := by
    rw [hlength]
    exact counter.toNat_lt
  have hcounter := hnumbered counter.toNat sent[counter.toNat] (List.getElem?_eq_getElem hlt)
  rw [UInt16.ofNat_toNat] at hcounter
  exact ⟨sent[counter.toNat], List.getElem_mem hlt, by rw [hcounter, hnonce],
    (hzero _ (List.getElem_mem hlt)).symm⟩

theorem zeros_returned_again {n : ℕ} (hn : n = 65536) :
    let w := BodyWriter.new zeroCrypto plainConfig fun _ => 0
    let writes := List.replicate n (Write.plain [0])
    let run := runCalls zeroCrypto (List.replicate (n + 1) (.plain 1))
      (BodyReader.new zeroCrypto (List.replicate (n + 1) zeroChunk) plainConfig)
    OnlySentOpens zeroCrypto plainConfig (writerAfter zeroCrypto writes w).sent ∧
      (writerAfter zeroCrypto writes w).sent.length = n ∧
      (∀ result ∈ run.1, ∃ value, result = .ok value) ∧
      ¬returnedBytes run.1 <+: written zeroCrypto writes w := by
  intro w writes run
  have horderly : Orderly zeroCrypto plainConfig w := orderly_new _
  obtain ⟨hsent, hdata⟩ := writeZeros_run n horderly rfl
  have hlength : (writerAfter zeroCrypto writes w).sent.length = n := by
    have h := congrArg List.length hsent
    rw [List.length_map, List.length_append, List.length_replicate] at h
    exact h.trans (Nat.zero_add n)
  have hrun : run.1 = List.replicate (n + 1) (.ok (some [0])) := by
    have h := @runCalls_zeros (n + 1) 0 (List.replicate (n + 1) zeroChunk) rfl
    rwa [← zeroState_zero] at h
  refine ⟨zeros_onlySentOpens (hlength.trans hn) (writerAfter_orderly horderly rfl writes).1.numbered ?_,
    hlength, ?_, ?_⟩
  · intro chunk hchunk
    have hmem : chunk.plaintext ∈ List.replicate n [0] := by
      have h := List.mem_map_of_mem (f := (·.plaintext)) hchunk
      rwa [hsent] at h
    exact List.eq_of_mem_replicate hmem
  · intro result hresult
    rw [hrun] at hresult
    exact ⟨_, List.eq_of_mem_replicate hresult⟩
  · intro hprefix
    have hle := hprefix.length_le
    rw [hrun, hdata, List.length_replicate] at hle
    have hmore : (returnedBytes (List.replicate (n + 1) (.ok (some [0])))).length = n + 1 := by
      simp [returnedBytes, bytesOf]
    omega

/-- A body of 65536 chunks without an end: its first chunk, presented again behind the last, is
returned once more. -/
theorem first_chunk_returned_again :
    let w := BodyWriter.new zeroCrypto plainConfig fun _ => 0
    let writes := List.replicate 65536 (Write.plain [0])
    let run := runCalls zeroCrypto (List.replicate 65537 (.plain 1))
      (BodyReader.new zeroCrypto (List.replicate 65537 zeroChunk) plainConfig)
    OnlySentOpens zeroCrypto plainConfig (writerAfter zeroCrypto writes w).sent ∧
      (writerAfter zeroCrypto writes w).sent.length = 65536 ∧
      (∀ result ∈ run.1, ∃ value, result = .ok value) ∧
      ¬returnedBytes run.1 <+: written zeroCrypto writes w :=
  zeros_returned_again rfl

end Aerion.Vmess.Body
