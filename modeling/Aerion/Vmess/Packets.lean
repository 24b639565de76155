import Aerion.Vmess.BodyIntegrity

/-!
# Packets in a VMess body

`write_packet_plain` and `read_packet` of `src/vmess_body.rs`: a datagram is
one chunk.
-/

namespace Aerion.Vmess.Body

open Lib Net

variable {crypto : BodyCrypto} {config : BodyConfig} {w : BodyWriter} {r : BodyReader}

/-! ### Writing -/

def acceptedPackets (crypto : BodyCrypto) : List Bytes → BodyWriter → List Bytes
  | [], _ => []
  | data :: packets, w =>
    (if (BodyWriter.writePacketPlain crypto data w).1 = .ok () then [data] else []) ++
      acceptedPackets crypto packets (BodyWriter.writePacketPlain crypto data w).2

/-- A datagram that is not empty and, where chunks are padded, fits with its padding. -/
def Fits (w : BodyWriter) (data : Bytes) : Prop :=
  data ≠ [] ∧ (globalPadding w.state.config.options = true →
    data.length + w.state.payloadOverhead + w.state.paddingLen ≤ 65535)

def AllFit (crypto : BodyCrypto) : List Bytes → BodyWriter → Prop
  | [], _ => True
  | data :: packets, w => Fits w data ∧ AllFit crypto packets (BodyWriter.writePacketPlain crypto data w).2

namespace ChunkState

variable {s : ChunkState}

structure Unpadded (s : ChunkState) : Prop where
  shared : s.paddingFromSizeShake = false
  own : s.paddingShake = none

theorem unpadded_new (h : globalPadding config.options = false) : (new crypto config).Unpadded := by
  refine ⟨?_, ?_⟩ <;> simp [new, h]

theorem Unpadded.padded (h : s.Unpadded) : s.padded = s := by
  obtain ⟨hshared, hown⟩ := h
  cases s
  cases hshared
  cases hown
  rfl

theorem Unpadded.advance (h : s.Unpadded) : s.advance.Unpadded := by
  obtain ⟨a, n, hsized⟩ := s.sized_eq
  rw [ChunkState.advance, h.padded, hsized]
  exact ⟨h.shared, h.own⟩

end ChunkState

theorem writePacketPlain_run (hraw : w.state.rawMode = false) (hopen : w.finished = false) (data : Bytes) :
    BodyWriter.writePacketPlain crypto data w = BodyWriter.writeChunk crypto data w := by
  unfold BodyWriter.writePacketPlain
  refine (Stateful.run_bind rfl).trans ?_
  refine (Stateful.run_lift_bind (Outcome.ensure_pos (by rw [hopen]; rfl)) _).trans ?_
  exact Stateful.run_lift_bind (Outcome.ensure_pos (by rw [hraw]; rfl)) _

structure Steady (crypto : BodyCrypto) (w : BodyWriter) : Prop where
  sound : w.state.Sound crypto
  chunked : w.state.rawMode = false
  unfinished : w.finished = false
  unpadded : globalPadding w.state.config.options = false → w.state.Unpadded

theorem steady_new (hraw : config.rawMode = false) (entropy : Entropy) :
    Steady crypto (.new crypto config entropy) :=
  ⟨ChunkState.sound_new config, hraw, rfl, ChunkState.unpadded_new⟩

theorem Steady.advance (h : Steady crypto w) {inner : Bytes} {entropy : Entropy} {sent : List SentChunk} :
    Steady crypto { w with inner, state := w.state.advance, entropy, sent } := by
  refine ⟨h.sound.advance, (ChunkState.iterate_rawMode w.state 1).trans h.chunked, h.unfinished, ?_⟩
  intro hpad
  simp only [ChunkState.advance_config] at hpad
  exact (h.unpadded hpad).advance

theorem writePackets_run {packets : List Bytes} (h : Steady crypto w) (hfit : AllFit crypto packets w) :
    ∃ bytes, Wire crypto w.state (acceptedPackets crypto packets w) bytes ∧
      (∀ data ∈ acceptedPackets crypto packets w, data ≠ []) ∧
      ∃ w', writerAfter crypto (packets.map .packet) w = w' ∧ Steady crypto w' ∧
        w'.inner = w.inner ++ bytes ∧
        w'.state = ChunkState.advance^[(acceptedPackets crypto packets w).length] w.state := by
  induction packets generalizing w with
  | nil => exact ⟨[], .nil _, nofun, w, rfl, h, (List.append_nil _).symm, rfl⟩
  | cons data packets ih =>
    obtain ⟨⟨hdata, hsize⟩, hrest⟩ := hfit
    have hcall := @writePacketPlain_run crypto w h.chunked h.unfinished data
    by_cases hfits : w.state.totalLen data ≤ 65535
    · obtain ⟨padding, entropy, hpadding, hwrite⟩ := BodyWriter.writeChunk_run h.sound hfits
      rw [hwrite] at hcall
      rw [hcall] at hrest
      obtain ⟨bytes, hwire, hmore, w', hafter, hsteady, hinner, hstate⟩ := ih h.advance hrest
      simp only [acceptedPackets, writerAfter, List.map_cons, Write.run, hcall, if_pos]
      refine ⟨_, .cons hfits hpadding hwire, ?_, w', hafter, hsteady, ?_, ?_⟩
      · intro packet hpacket
        rcases List.mem_cons.mp hpacket with rfl | hpacket
        · exact hdata
        · exact hmore packet hpacket
      · rw [hinner, List.append_assoc]
      · rw [hstate]
        rfl
    · -- without padding nothing was drawn
      have hpad : globalPadding w.state.config.options = false := by
        rw [← Bool.not_eq_true]
        exact fun hpad => hfits (hsize hpad)
      rw [BodyWriter.writeChunk_large hfits, (h.unpadded hpad).padded] at hcall
      rw [hcall] at hrest
      obtain ⟨bytes, hwire, hmore, w', hafter, hsteady, hinner, hstate⟩ := ih h hrest
      simp only [acceptedPackets, writerAfter, List.map_cons, Write.run, hcall, reduceCtorEq, if_false,
        List.nil_append]
      exact ⟨bytes, hwire, hmore, w', hafter, hsteady, hinner, hstate⟩

theorem finish_run (h : Steady crypto w) :
    ∃ bytes, Wire crypto w.state [[]] bytes ∧
      (BodyWriter.finish crypto w).2.inner = w.inner ++ bytes := by
  have hfits : w.state.totalLen [] ≤ 65535 := BodyWriter.totalLen_le (Nat.zero_le _)
  obtain ⟨padding, entropy, hpadding, hwrite⟩ := BodyWriter.writeChunk_run h.sound hfits
  refine ⟨_, .cons hfits hpadding (.nil _), ?_⟩
  have hrun : BodyWriter.finish crypto w = (BodyWriter.writeChunk crypto [] >>= fun _ =>
      BodyWriter.put fun w => { w with finished := true }) w := by
    unfold BodyWriter.finish
    refine (Stateful.run_bind rfl).trans ?_
    rw [h.unfinished, h.chunked]
    rfl
  rw [hrun, Stateful.run_bind hwrite, List.append_nil]
  rfl

/-! ### Reading -/

def terminator (ended : Bool) : List Bytes := if ended then [[]] else []

def afterPackets (ended : Bool) : Outcome (Option Bytes) :=
  if ended then .ok none else .err "read VMess chunk size"

inductive PacketsAhead (crypto : BodyCrypto) (ended : Bool) (r : BodyReader) : List Bytes → Prop
  | chunks {left : List Bytes} (sound : r.state.Sound crypto) (chunked : r.state.rawMode = false)
      (taken : r.pending.drop r.pendingPos = []) (unfinished : r.finished = false)
      (data : ∀ packet ∈ left, packet ≠ [])
      (wire : Wire crypto r.state (left ++ terminator ended) r.inner.flatten) :
      PacketsAhead crypto ended r left
  | finished (chunked : r.state.rawMode = false) (taken : r.pending.drop r.pendingPos = [])
      (finished : r.finished = true) (written : ended = true) : PacketsAhead crypto ended r []

theorem PacketsAhead.packet (hcorrect : crypto.Correct) {ended : Bool} {data : Bytes} {left : List Bytes}
    (h : PacketsAhead crypto ended r (data :: left)) :
    (BodyReader.readPacket crypto r).1 = .ok (some data) ∧
      PacketsAhead crypto ended (BodyReader.readPacket crypto r).2 left := by
  cases h with
  | chunks sound chunked taken unfinished hdata wire =>
    obtain ⟨inner, hwire, hnext⟩ := readNextChunk_wire hcorrect sound unfinished wire
    have hne : data ≠ [] := hdata data List.mem_cons_self
    rw [readPacket_eq chunked, if_pos taken, unfinished]
    simp only [Bool.false_eq_true, if_false]
    rw [Stateful.run_bind hnext, decide_eq_false hne]
    exact ⟨rfl, .chunks sound.advance ((ChunkState.iterate_rawMode r.state 1).trans chunked) rfl rfl
      (fun packet hp => hdata packet (List.mem_cons_of_mem _ hp)) hwire⟩

theorem sizeFieldLen_pos (s : ChunkState) : 0 < s.sizeFieldLen := by
  unfold ChunkState.sizeFieldLen
  split <;> decide

theorem readNextChunk_eof (h : r.inner.flatten = []) :
    ∃ inner, inner.flatten = [] ∧
      BodyReader.readNextChunk crypto r = (.err "read VMess chunk size", { r with inner }) := by
  have hnone : (r.inner.readExact r.state.sizeFieldLen).1 = none := by
    rw [Segments.readExact_fst, h, List.length_nil, if_neg (Nat.not_le_of_lt (sizeFieldLen_pos _))]
  refine ⟨(r.inner.readExact r.state.sizeFieldLen).2, by rw [Segments.readExact_snd, h, List.drop_nil], ?_⟩
  have hfield : BodyReader.readExact r.state.sizeFieldLen "read VMess chunk size" r =
      (.err "read VMess chunk size", { r with inner := (r.inner.readExact r.state.sizeFieldLen).2 }) := by
    unfold BodyReader.readExact
    rw [hnone]
    rfl
  have hsize : BodyReader.readSize crypto r = _ := (Stateful.run_bind rfl).trans (Stateful.run_bind_err hfield)
  exact Stateful.run_bind_err hsize

theorem PacketsAhead.last (hcorrect : crypto.Correct) {ended : Bool}
    (h : PacketsAhead crypto ended r []) :
    (BodyReader.readPacket crypto r).1 = afterPackets ended ∧
      PacketsAhead crypto ended (BodyReader.readPacket crypto r).2 [] := by
  cases h with
  | finished chunked taken finished written =>
    rw [readPacket_eq chunked, if_pos taken, if_pos finished, written]
    exact ⟨rfl, .finished chunked taken finished rfl⟩
  | chunks sound chunked taken unfinished _ wire =>
    rw [readPacket_eq chunked, if_pos taken, unfinished]
    simp only [Bool.false_eq_true, if_false]
    cases ended with
    | true =>
      obtain ⟨inner, -, hnext⟩ := readNextChunk_wire hcorrect sound unfinished wire
      rw [Stateful.run_bind hnext]
      exact ⟨rfl, .finished ((ChunkState.iterate_rawMode r.state 1).trans chunked) rfl rfl rfl⟩
    | false =>
      have heof : r.inner.flatten = [] := by
        generalize r.inner.flatten = bytes at wire
        cases wire
        rfl
      obtain ⟨inner, hinner, hnext⟩ := @readNextChunk_eof crypto r.clearPending heof
      rw [Stateful.run_bind_err hnext]
      exact ⟨rfl, .chunks sound chunked rfl unfinished nofun (hinner ▸ .nil _)⟩

theorem PacketsAhead.calls (hcorrect : crypto.Correct) {ended : Bool} {left : List Bytes}
    (h : PacketsAhead crypto ended r left) (n : ℕ) :
    (runCalls crypto (List.replicate n .packet) r).1 =
      (left.map (Outcome.ok ∘ some) ++ List.replicate n (afterPackets ended)).take n := by
  induction n generalizing r left with
  | zero => rfl
  | succ n ih =>
    cases left with
    | nil =>
      obtain ⟨hresult, hahead⟩ := h.last hcorrect
      have hrest := ih hahead
      simp only [List.replicate_succ, runCalls, Call.run, hresult, hrest]
      simp
    | cons data left =>
      obtain ⟨hresult, hahead⟩ := h.packet hcorrect
      have hrest := ih hahead
      simp only [List.replicate_succ, runCalls, Call.run, hresult, hrest, List.map_cons,
        List.cons_append, List.take_succ_cons, Function.comp_apply]
      congr 1
      rw [← List.replicate_succ]
      simp only [List.take_append, List.take_replicate]
      congr 2
      omega

/-- Where every datagram fits when it is written, `read_packet` returns those whose call succeeded,
one by one and in order, and `None` only behind the end that `finish` has written. -/
theorem packets_round_trip (hcorrect : crypto.Correct) (config : BodyConfig) (hraw : config.rawMode = false)
    (entropy : Entropy) (packets : List Bytes) (hfit : AllFit crypto packets (.new crypto config entropy))
    (ended : Bool) (segments : Segments)
    (hwire : segments.flatten = (writerAfter crypto
      (packets.map .packet ++ if ended then [.finish] else []) (.new crypto config entropy)).inner) (n : ℕ) :
    (runCalls crypto (List.replicate n .packet) (.new crypto segments config)).1 =
      ((acceptedPackets crypto packets (.new crypto config entropy)).map (Outcome.ok ∘ some) ++
        List.replicate n (afterPackets ended)).take n := by
  obtain ⟨bytes, hpackets, hdata, w', hafter, hsteady, hinner, hstate⟩ :=
    writePackets_run (steady_new hraw entropy) hfit
  suffices h : PacketsAhead crypto ended (.new crypto segments config)
      (acceptedPackets crypto packets (.new crypto config entropy)) from h.calls hcorrect n
  refine .chunks (ChunkState.sound_new config) hraw rfl rfl hdata ?_
  show Wire crypto (ChunkState.new crypto config) _ segments.flatten
  have hall : ∀ more w, writerAfter crypto (packets.map .packet ++ more) w =
      writerAfter crypto more (writerAfter crypto (packets.map .packet) w) := by
    intro more
    generalize packets.map Write.packet = first
    induction first with
    | nil => exact fun _ => rfl
    | cons call first ih => exact fun w => ih _
  rw [hwire, hall, hafter]
  cases ended with
  | false =>
    show Wire crypto _ (_ ++ []) w'.inner
    rw [hinner, List.append_nil]
    exact hpackets
  | true =>
    obtain ⟨last, hend, hwritten⟩ := finish_run hsteady
    show Wire crypto _ (_ ++ [[]]) (BodyWriter.finish crypto w').2.inner
    rw [hwritten, hinner]
    exact hpackets.append (hstate ▸ hend)

def plainWriter : BodyWriter := .new taggedCrypto plainConfig fun _ => 0

/-- Both calls succeed, and an empty datagram is read as the end of the body. -/
theorem empty_packet_ends_body :
    acceptedPackets taggedCrypto [[], [5]] plainWriter = [[], [5]] ∧
      (runCalls taggedCrypto (List.replicate 2 .packet) (.new taggedCrypto
        [(writerAfter taggedCrypto [.packet [], .packet [5]] plainWriter).inner] plainConfig)).1 =
        [.ok none, .ok none] := by
  decide +kernel

theorem two_packets_read_back :
    (runCalls taggedCrypto (List.replicate 3 .packet) (.new taggedCrypto [(writerAfter taggedCrypto
      ([[5], [6]].map .packet ++ if true then [.finish] else []) plainWriter).inner] plainConfig)).1 =
      [.ok (some [5]), .ok (some [6]), .ok none] := by
  have hfit : AllFit taggedCrypto [[5], [6]] plainWriter :=
    ⟨⟨nofun, nofun⟩, ⟨nofun, nofun⟩, trivial⟩
  have haccepted : acceptedPackets taggedCrypto [[5], [6]] plainWriter = [[5], [6]] := by decide +kernel
  have hread := packets_round_trip taggedCrypto_correct plainConfig (by decide) (fun _ => 0) [[5], [6]]
    hfit true [(writerAfter taggedCrypto ([[5], [6]].map .packet ++ if true then [.finish] else [])
      plainWriter).inner] (List.append_nil _) 3
  rw [show BodyWriter.new taggedCrypto plainConfig (fun _ => 0) = plainWriter from rfl, haccepted] at hread
  exact hread

end Aerion.Vmess.Body
