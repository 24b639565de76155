import Aerion.AnyTls.Padding
import Aerion.Lib.Steps

/-!
# The padded frame writer

`PaddedFrameWriter` of `src/protocol.rs` writes a frame in pieces of the
sizes its scheme gives for the packet and fills up what the frame leaves with
waste frames.
-/

namespace Aerion.AnyTls

open Lib Outcome

def vectoredFrameMinPayload : ℕ := 32 * 1024

/-- A buffer of `n` bytes; one past `isize::MAX` is a capacity overflow. -/
def buffer (n : ℕ) : Outcome Unit := if n < 2 ^ 63 then .ok () else .panic

/-- The frame of `n` bytes of filler. -/
def wasteFrame (n : ℕ) : Outcome Bytes := do
  buffer n
  buffer (frameHeaderLen + n)
  return encodeFrame cmdWaste 0 (List.replicate n 0)

/-- The bytes that reach the transport, and what the call comes to. -/
structure Emission (α : Type) where
  bytes : Bytes
  result : Outcome α

def Emission.after {α : Type} (bytes : Bytes) (e : Emission α) : Emission α :=
  { e with bytes := bytes ++ e.bytes }

def Emission.context {α : Type} (message : String) (e : Emission α) : Emission α :=
  { e with result := Outcome.context message e.result }

/-- Writes the filler that `write_packet` makes up after `payload`. -/
def withFiller {α : Type} (payload : Bytes) (filler : ℕ) (next : Emission α) : Emission α :=
  match (do let frame ← wasteFrame filler; buffer (payload.length + frame.length); return frame) with
  | .ok frame => next.after (payload ++ frame)
  | .err e => ⟨[], .err e⟩
  | .panic => ⟨[], .panic⟩

/-- The loop of `write_packet` over the sizes of a packet; what it returns is left to write. -/
def padPacket : List Int64 → Bytes → Emission Bytes
  | [], payload => ⟨[], .ok payload⟩
  | size :: sizes, payload =>
    if size = paddingCheckpoint then
      if payload = [] then ⟨[], .ok []⟩ else padPacket sizes payload
    else
      let size := size.toUInt64.toNat
      if size < payload.length then (padPacket sizes (payload.drop size)).after (payload.take size)
      else if payload ≠ [] then
        if payload.length + frameHeaderLen < size then
          withFiller payload (size - payload.length - frameHeaderLen) (padPacket sizes [])
        else (padPacket sizes []).after payload
      else withFiller [] size (padPacket sizes [])

structure PaddedFrameWriter where
  padding : PaddingScheme
  packetCounter : UInt32
  sendPadding : Bool

namespace PaddedFrameWriter

def new (padding : PaddingScheme) : PaddedFrameWriter := ⟨padding, 0, true⟩

/-- The number of the packet to be written: the counter's successor, which stays at the largest. -/
def nextPacket (w : PaddedFrameWriter) : UInt32 :=
  if w.packetCounter = 0xFFFFFFFF then w.packetCounter else w.packetCounter + 1

def pads (w : PaddedFrameWriter) : Bool := w.sendPadding && w.nextPacket < w.padding.stop

def writePadded (padding : PaddingScheme) (packet : UInt32) (draws : List UInt64)
    (payload : Bytes) : Emission Unit :=
  match padding.recordPayloadSizes packet draws with
  | .ok sizes =>
    let padded := padPacket sizes payload
    match padded.result with
    | .ok rest => ⟨padded.bytes ++ rest, .ok ()⟩
    | .err e => ⟨padded.bytes, .err e⟩
    | .panic => ⟨padded.bytes, .panic⟩
  | .err e => ⟨[], .err e⟩
  | .panic => ⟨[], .panic⟩

def writePacket (w : PaddedFrameWriter) (draws : List UInt64) (payload : Bytes) :
    PaddedFrameWriter × Emission Unit :=
  if w.sendPadding then
    if w.nextPacket < w.padding.stop then
      ({ w with packetCounter := w.nextPacket }, writePadded w.padding w.nextPacket draws payload)
    else ({ w with packetCounter := w.nextPacket, sendPadding := false }, ⟨payload, .ok ()⟩)
  else (w, ⟨payload, .ok ()⟩)

/-- `write_frame_with_flush`; `vectored` is what the transport says of itself. -/
def writeFrame (w : PaddedFrameWriter) (vectored : Bool) (draws : List UInt64) (cmd : UInt8)
    (streamId : UInt32) (payload : Bytes) : PaddedFrameWriter × Emission Unit :=
  if payload.length ≤ maxFramePayloadLen then
    if !w.sendPadding && vectoredFrameMinPayload ≤ payload.length && vectored then
      (w, ⟨encodeFrame cmd streamId payload, .ok ()⟩)
    else
      let written := w.writePacket draws (encodeFrame cmd streamId payload)
      (written.1, written.2.context "write Aerion frame")
  else (w, ⟨[], .err "Aerion frame payload too large"⟩)

def updatePaddingScheme (w : PaddedFrameWriter) (raw : String) :
    PaddedFrameWriter × Outcome Unit :=
  match Outcome.context "parse padding scheme update" (fromText raw) with
  | .ok padding => ({ w with padding }, .ok ())
  | .err e => (w, .err e)
  | .panic => (w, .panic)

end PaddedFrameWriter

/-! ### Runs of a writer -/

inductive Op where
  | frame (vectored : Bool) (draws : List UInt64) (cmd : UInt8) (streamId : UInt32)
      (payload : Bytes)
  | update (raw : String)

/-- A writer with the bytes on its wire and the frames it said to have written. -/
structure Wire where
  writer : PaddedFrameWriter
  bytes : Bytes
  written : List Frame

def Wire.new (padding : PaddingScheme) : Wire := ⟨.new padding, [], []⟩

def Wire.step (s : Wire) : Op → Option Wire
  | .frame vectored draws cmd streamId payload =>
    let (writer, emission) := s.writer.writeFrame vectored draws cmd streamId payload
    match emission.result with
    | .ok () =>
      if h : payload.length ≤ maxFramePayloadLen then
        some ⟨writer, s.bytes ++ emission.bytes, s.written ++ [⟨cmd, streamId, payload, h⟩]⟩
      else none
    | .err _ => some { s with writer, bytes := s.bytes ++ emission.bytes }
    | .panic => none
  | .update raw => some { s with writer := (s.writer.updatePaddingScheme raw).1 }

/-- The frames that are written, in order, among frames of filler. -/
inductive Interleaved : List Frame → List Frame → Prop
  | nil : Interleaved [] []
  | waste {f : Frame} {written read : List Frame} :
    f.IsWaste → Interleaved written read → Interleaved written (f :: read)
  | frame {f : Frame} {written read : List Frame} :
    Interleaved written read → Interleaved (f :: written) (f :: read)

/-- The length field can say how long each filler frame of the packet is. -/
def fillersFit : List Int64 → Bytes → Bool
  | [], _ => true
  | size :: sizes, payload =>
    if size = paddingCheckpoint then payload = [] || fillersFit sizes payload
    else
      let size := size.toUInt64.toNat
      if size < payload.length then fillersFit sizes (payload.drop size)
      else
        let header := if payload = [] then 0 else frameHeaderLen
        size - payload.length - header ≤ maxFramePayloadLen && fillersFit sizes []

/-- A packet that is padded asks only for filler frames that the length field allows. -/
def PaddedFrameWriter.FillsWithin (w : PaddedFrameWriter) (draws : List UInt64) (packet : Bytes) : Prop :=
  w.pads = true → match w.padding.recordPayloadSizes w.nextPacket draws with
    | .ok sizes => fillersFit sizes packet = true
    | _ => True

def FillerBounded (s : Wire) : Op → Prop
  | .frame _ draws cmd streamId payload =>
    s.writer.FillsWithin draws (encodeFrame cmd streamId payload)
  | .update _ => True

instance (w : PaddedFrameWriter) (draws : List UInt64) (packet : Bytes) :
    Decidable (w.FillsWithin draws packet) := by
  unfold PaddedFrameWriter.FillsWithin
  cases w.padding.recordPayloadSizes w.nextPacket draws <;> infer_instance

instance (s : Wire) : (op : Op) → Decidable (FillerBounded s op)
  | .frame .. => inferInstanceAs (Decidable (s.writer.FillsWithin ..))
  | .update _ => .isTrue trivial

/-! ### What a packet puts on the wire -/

def filler (n : ℕ) (h : n ≤ maxFramePayloadLen) : Frame :=
  ⟨cmdWaste, 0, List.replicate n 0, by simpa using h⟩

theorem filler_isWaste (n : ℕ) (h : n ≤ maxFramePayloadLen) : (filler n h).IsWaste := ⟨rfl, rfl⟩

theorem encodeFrame_length (cmd : UInt8) (streamId : UInt32) (payload : Bytes) :
    (encodeFrame cmd streamId payload).length = frameHeaderLen + payload.length := by
  simp [encodeFrame, toBe_length, frameHeaderLen]
  omega

theorem buffer_ok {n : ℕ} (h : n < 2 ^ 63) : buffer n = .ok () := if_pos h

theorem withFiller_ok {α : Type} {payload : Bytes} {n : ℕ} (next : Emission α)
    (h : n ≤ maxFramePayloadLen) (hlen : payload.length ≤ frameHeaderLen + maxFramePayloadLen) :
    withFiller payload n next = next.after (payload ++ (filler n h).bytes) := by
  have hframe : wasteFrame n = .ok (filler n h).bytes := by
    unfold wasteFrame frameHeaderLen
    unfold maxFramePayloadLen at h
    rw [buffer_ok (by omega), buffer_ok (by omega)]
    rfl
  have hbuffer : buffer (payload.length + (filler n h).bytes.length) = .ok () := by
    apply buffer_ok
    rw [filler, Frame.bytes, encodeFrame_length, List.length_replicate]
    unfold frameHeaderLen maxFramePayloadLen at *
    omega
  simp only [withFiller, hframe, ok_bind, hbuffer, pure_eq]

/-- The emission and what is left to write make up the payload and whole frames of filler. -/
def Emission.Completes (e : Emission Bytes) (payload : Bytes) : Prop :=
  ∃ rest wastes, e.result = .ok rest ∧ e.bytes ++ rest = payload ++ framing.encodeAll wastes ∧
    ∀ f ∈ wastes, f.IsWaste

theorem Emission.Completes.after {e : Emission Bytes} {tail : Bytes} (h : e.Completes tail)
    (head : Bytes) : (e.after head).Completes (head ++ tail) := by
  obtain ⟨rest, wastes, hresult, hbytes, hwastes⟩ := h
  refine ⟨rest, wastes, hresult, ?_, hwastes⟩
  rw [Emission.after, List.append_assoc, hbytes, List.append_assoc]

theorem Emission.Completes.filled {e : Emission Bytes} (h : e.Completes []) (payload : Bytes)
    {f : Frame} (hf : f.IsWaste) : (e.after (payload ++ f.bytes)).Completes payload := by
  obtain ⟨rest, wastes, hresult, hbytes, hwastes⟩ := h
  refine ⟨rest, f :: wastes, hresult, ?_, List.forall_mem_cons.mpr ⟨hf, hwastes⟩⟩
  rw [Emission.after, List.append_assoc, hbytes, List.nil_append, Framing.encodeAll_cons,
    List.append_assoc]
  rfl

theorem fillersFit_cut {size : Int64} {sizes : List Int64} {payload : Bytes}
    (hcheck : size ≠ paddingCheckpoint) (hcut : size.toUInt64.toNat < payload.length) :
    fillersFit (size :: sizes) payload = fillersFit sizes (payload.drop size.toUInt64.toNat) := by
  simp only [fillersFit, if_neg hcheck, if_pos hcut]

theorem fillersFit_fill {size : Int64} {sizes : List Int64} {payload : Bytes}
    (hcheck : size ≠ paddingCheckpoint) (hcut : ¬size.toUInt64.toNat < payload.length) :
    fillersFit (size :: sizes) payload = true ↔
      size.toUInt64.toNat - payload.length - (if payload = [] then 0 else frameHeaderLen) ≤
        maxFramePayloadLen ∧ fillersFit sizes [] = true := by
  simp only [fillersFit, if_neg hcheck, if_neg hcut, Bool.and_eq_true, decide_eq_true_eq]

theorem padPacket_completes {sizes : List Int64} {payload : Bytes} (hfits : fillersFit sizes payload = true)
    (hlen : payload.length ≤ frameHeaderLen + maxFramePayloadLen) :
    (padPacket sizes payload).Completes payload := by
  -- The induction follows the loop: each size cuts a piece off, ends the packet or adds filler.
  have hnil : ([] : Bytes).length ≤ frameHeaderLen + maxFramePayloadLen := Nat.zero_le _
  fun_induction padPacket sizes payload with
  | case1 payload => exact ⟨payload, [], rfl, by simp, nofun⟩
  | case2 sizes => exact ⟨[], [], rfl, by simp, nofun⟩
  | case3 sizes payload hne ih => exact ih (by simpa [fillersFit, hne] using hfits) hlen
  | case4 size sizes payload hcheck n hcut ih =>
    rw [fillersFit_cut hcheck hcut] at hfits
    have hrest := ih hfits (by rw [List.length_drop]; omega)
    have hall := hrest.after (payload.take n)
    rwa [List.take_append_drop] at hall
  | case5 size sizes payload hcheck n hcut hne hroom ih =>
    obtain ⟨hn, hrest⟩ := (fillersFit_fill hcheck hcut).mp hfits
    rw [if_neg hne] at hn
    rw [withFiller_ok _ hn hlen]
    exact (ih hrest hnil).filled payload (filler_isWaste _ _)
  | case6 size sizes payload hcheck n hcut hne hroom ih =>
    have hall := (ih ((fillersFit_fill hcheck hcut).mp hfits).2 hnil).after payload
    rwa [List.append_nil] at hall
  | case7 size sizes payload hcheck n hcut hne ih =>
    obtain rfl : payload = [] := not_not.mp hne
    obtain ⟨hn, hrest⟩ := (fillersFit_fill hcheck hcut).mp hfits
    have hn' : n ≤ maxFramePayloadLen := hn
    rw [withFiller_ok _ hn' hlen]
    exact (ih hrest hnil).filled [] (filler_isWaste _ _)

/-- The packet goes out whole, with whole frames of filler behind it, or nothing goes out. -/
def Emission.Whole (e : Emission Unit) (packet : Bytes) : Prop :=
  (e.result = .ok () ∧ ∃ wastes : List Frame,
    e.bytes = packet ++ framing.encodeAll wastes ∧ ∀ f ∈ wastes, f.IsWaste) ∨
  ∃ message, e.result = .err message ∧ e.bytes = []

theorem Emission.Whole.plain (packet : Bytes) : (⟨packet, .ok ()⟩ : Emission Unit).Whole packet :=
  .inl ⟨rfl, [], by simp, nofun⟩

theorem Emission.Whole.context {e : Emission Unit} {packet : Bytes} (h : e.Whole packet)
    (message : String) : (e.context message).Whole packet := by
  rcases h with ⟨hresult, hbytes⟩ | ⟨text, hresult, hbytes⟩
  · exact .inl ⟨by rw [Emission.context, hresult]; rfl, hbytes⟩
  · exact .inr ⟨_, by rw [Emission.context, hresult]; rfl, hbytes⟩

theorem drawSizes_ne_panic (rules : List PaddingRule) (draws : List UInt64) :
    drawSizes rules draws ≠ .panic := by
  fun_induction drawSizes rules draws with
  | case1 => exact fun h => by cases h
  | case2 rules draws ih => exact map_ne_panic ih
  | case3 r rules draws _ ih => exact map_ne_panic ih
  | case4 => exact fun h => by cases h
  | case5 r rules _ word draws ih => exact map_ne_panic ih

namespace PaddedFrameWriter

theorem writePacket_whole {w : PaddedFrameWriter} {draws : List UInt64} {payload : Bytes}
    (hfits : w.FillsWithin draws payload)
    (hlen : payload.length ≤ frameHeaderLen + maxFramePayloadLen) :
    (w.writePacket draws payload).2.Whole payload := by
  unfold writePacket
  split
  · rename_i hsend
    split
    · rename_i hstop
      have hpads : w.pads = true := by simp [pads, hsend, hstop]
      replace hfits := hfits hpads
      unfold writePadded
      cases hsizes : w.padding.recordPayloadSizes w.nextPacket draws with
      | ok sizes =>
        rw [hsizes] at hfits
        obtain ⟨rest, wastes, hresult, hbytes, hwastes⟩ := padPacket_completes hfits hlen
        simp only [hresult]
        exact .inl ⟨rfl, wastes, hbytes, hwastes⟩
      | err message => exact .inr ⟨message, rfl, rfl⟩
      | panic => exact absurd hsizes (drawSizes_ne_panic _ _)
    · exact .plain payload
  · exact .plain payload

theorem writeFrame_whole {w : PaddedFrameWriter} {vectored : Bool} {draws : List UInt64}
    {cmd : UInt8} {streamId : UInt32} {payload : Bytes}
    (hfits : w.FillsWithin draws (encodeFrame cmd streamId payload)) :
    (w.writeFrame vectored draws cmd streamId payload).2.Whole
      (encodeFrame cmd streamId payload) := by
  unfold writeFrame
  split
  · rename_i hlen
    split
    · exact .plain _
    · have hpacket : (encodeFrame cmd streamId payload).length ≤
          frameHeaderLen + maxFramePayloadLen := by
        rw [encodeFrame_length]
        omega
      exact (writePacket_whole hfits hpacket).context _
  · exact .inr ⟨_, rfl, rfl⟩

theorem writeFrame_ok_length {w : PaddedFrameWriter} {vectored : Bool} {draws : List UInt64}
    {cmd : UInt8} {streamId : UInt32} {payload : Bytes}
    (h : (w.writeFrame vectored draws cmd streamId payload).2.result = .ok ()) :
    payload.length ≤ maxFramePayloadLen := by
  unfold writeFrame at h
  split at h
  · assumption
  · cases h

end PaddedFrameWriter

/-! ### What a reader makes of a run -/

theorem Interleaved.wastes {wastes : List Frame} (h : ∀ f ∈ wastes, f.IsWaste) :
    Interleaved [] wastes := by
  induction wastes with
  | nil => exact .nil
  | cons f wastes ih =>
    obtain ⟨hf, hrest⟩ := List.forall_mem_cons.mp h
    exact .waste hf (ih hrest)

theorem Interleaved.append {written read written' read' : List Frame} (h : Interleaved written read)
    (h' : Interleaved written' read') : Interleaved (written ++ written') (read ++ read') := by
  induction h with
  | nil => exact h'
  | waste hf _ ih => exact .waste hf ih
  | frame _ ih => exact .frame ih

theorem Interleaved.mem {written read : List Frame} (h : Interleaved written read) {f : Frame}
    (hf : f ∈ written) : f ∈ read := by
  induction h with
  | nil => cases hf
  | waste _ _ ih => exact .tail _ (ih hf)
  | frame _ ih =>
    cases hf with
    | head => exact .head _
    | tail _ hf => exact .tail _ (ih hf)

/-- The bytes are the frames written, among filler. -/
def Wire.Transparent (s : Wire) : Prop :=
  ∃ frames, s.bytes = framing.encodeAll frames ∧ Interleaved s.written frames

theorem Wire.step_frame {s : Wire} {vectored : Bool} {draws : List UInt64} {cmd : UInt8}
    {streamId : UInt32} {payload bytes : Bytes} {writer : PaddedFrameWriter}
    (h : s.writer.writeFrame vectored draws cmd streamId payload = (writer, ⟨bytes, .ok ()⟩))
    (hfits : payload.length ≤ maxFramePayloadLen) :
    s.step (.frame vectored draws cmd streamId payload) =
      some ⟨writer, s.bytes ++ bytes, s.written ++ [⟨cmd, streamId, payload, hfits⟩]⟩ := by
  simp only [step, h, dif_pos hfits]

theorem Wire.transparent_step {s : Wire} {op : Op} (hs : s.Transparent) (hop : FillerBounded s op) :
    ∃ s', s.step op = some s' ∧ s'.Transparent := by
  obtain ⟨frames, hbytes, hframes⟩ := hs
  cases op with
  | update raw => exact ⟨_, rfl, frames, hbytes, hframes⟩
  | frame vectored draws cmd streamId payload =>
    have hwhole := @PaddedFrameWriter.writeFrame_whole s.writer vectored draws cmd streamId payload hop
    have hlen := @PaddedFrameWriter.writeFrame_ok_length s.writer vectored draws cmd streamId payload
    generalize hwrite : s.writer.writeFrame vectored draws cmd streamId payload = written
      at hwhole hlen
    obtain ⟨writer, emission⟩ := written
    dsimp only at hwhole hlen
    rcases hwhole with ⟨hresult, wastes, hemitted, hwastes⟩ | ⟨message, hresult, hemitted⟩
    · obtain ⟨bytes, result⟩ := emission
      obtain rfl : result = .ok () := hresult
      have hfits := hlen rfl
      refine ⟨_, step_frame hwrite hfits, frames ++ ⟨cmd, streamId, payload, hfits⟩ :: wastes, ?_, ?_⟩
      · rw [Framing.encodeAll_append, Framing.encodeAll_cons, ← hbytes]
        exact congrArg _ hemitted
      · exact hframes.append (.frame (.wastes hwastes))
    · refine ⟨{ s with writer, bytes := s.bytes ++ emission.bytes }, ?_, frames, ?_, hframes⟩
      · simp only [step, hwrite, hresult]
      · rw [hemitted, List.append_nil, hbytes]

/-- Whatever scheme a writer starts with, and through every sequence of frames, changes of scheme
and draws whose filler frames are no longer than their length field can say, no write panics, and a
reader of the wire finds the written frames in order among frames of filler. -/
theorem padding_transparent {padding : PaddingScheme} {ops : List Op} {s : Wire}
    (hrun : Steps Wire.step FillerBounded (.new padding) ops s) :
    (∃ frames, framing.readAll s.bytes = some frames ∧ Interleaved s.written frames) ∧
      ∀ op, FillerBounded s op → (s.step op).isSome := by
  have htransparent : s.Transparent := by
    apply hrun.invariant Wire.Transparent _ ⟨[], rfl, .nil⟩
    intro s op s' hs hop hstep
    obtain ⟨next, hnext, htransparent⟩ := Wire.transparent_step hs hop
    obtain rfl := Option.some.inj (hnext.symm.trans hstep)
    exact htransparent
  constructor
  · obtain ⟨frames, hbytes, hframes⟩ := htransparent
    exact ⟨frames, by rw [hbytes, Framing.readAll_encodeAll], hframes⟩
  · intro op hop
    obtain ⟨s', hstep, -⟩ := Wire.transparent_step htransparent hop
    rw [hstep]
    rfl

/-- A run over the default scheme and a change to one that cuts and fills packets. -/
theorem padded_frames_read : ∃ padding, fromText defaultText = .ok padding ∧ ∃ s,
    Steps Wire.step FillerBounded (.new padding)
      [.frame false [5] cmdSyn 1 [], .update "stop=4\n2=9-9,c,20-20\n3=3-3,8-8",
        .frame true [] cmdPsh 1 [1, 2, 3, 4], .frame true [] cmdFin 1 []] s ∧
    s.written.length = 3 ∧ s.bytes.length = 141 ∧
    (∃ frames, framing.readAll s.bytes = some frames ∧ Interleaved s.written frames) ∧
      ∀ op, FillerBounded s op → (s.step op).isSome := by
  have hreplay : ∃ padding, fromText defaultText = .ok padding ∧
      (Lib.replay (guarded Wire.step FillerBounded) (.new padding)
        [.frame false [5] cmdSyn 1 [], .update "stop=4\n2=9-9,c,20-20\n3=3-3,8-8",
          .frame true [] cmdPsh 1 [1, 2, 3, 4], .frame true [] cmdFin 1 []]).any
        (fun s => decide (s.written.length = 3 ∧ s.bytes.length = 141)) = true := by
    decide +kernel
  obtain ⟨padding, hpadding, hreplay⟩ := hreplay
  obtain ⟨s, hrun, hs⟩ := steps_of_replay hreplay
  obtain ⟨hwritten, hbytes⟩ := of_decide_eq_true hs
  exact ⟨padding, hpadding, s, hrun.of_guarded, hwritten, hbytes,
    padding_transparent hrun.of_guarded⟩

/-! ### Filler past the length field -/

theorem encodeAll_replicate_filler (n : ℕ) :
    framing.encodeAll (List.replicate n (filler 0 (Nat.zero_le _))) =
      List.replicate (frameHeaderLen * n) 0 := by
  induction n with
  | zero => rfl
  | succ n ih =>
    rw [List.replicate_succ, Framing.encodeAll_cons, ih, Nat.mul_succ, Nat.add_comm,
      List.replicate_add]
    rfl

theorem padPacket_fill {packet : Bytes} {size : Int64} {n : ℕ} (hpacket : packet ≠ [])
    (hcheck : size ≠ paddingCheckpoint) (hn : 0 < n)
    (hsize : size.toUInt64.toNat = packet.length + frameHeaderLen + n)
    (hlen : packet.length + frameHeaderLen + n < 2 ^ 63) :
    padPacket [size] packet =
      ⟨packet ++ encodeFrame cmdWaste 0 (List.replicate n 0), .ok []⟩ := by
  have hframe : wasteFrame n = .ok (encodeFrame cmdWaste 0 (List.replicate n 0)) := by
    rw [wasteFrame, buffer_ok (by omega), buffer_ok (by omega)]
    rfl
  have hbuffer : buffer (packet.length + (encodeFrame cmdWaste 0 (List.replicate n 0)).length) =
      .ok () := by
    apply buffer_ok
    rw [encodeFrame_length, List.length_replicate]
    omega
  have hfiller : packet.length + frameHeaderLen + n - packet.length - frameHeaderLen = n := by omega
  rw [padPacket, if_neg hcheck]
  simp only [hsize]
  rw [if_neg (by omega), if_pos hpacket, if_pos (by omega)]
  simp only [withFiller, hfiller, hframe, ok_bind, hbuffer, pure_eq]
  simp [padPacket, Emission.after]

def oversizedScheme : PaddingScheme :=
  ⟨8, [(1, [.range ⟨65550, 65550, by decide, by decide⟩])]⟩

/-- An empty frame of stream two, the filler of `n` bytes and another such frame. -/
def filledBytes (n : ℕ) : Bytes :=
  encodeFrame cmdSyn 2 [] ++ encodeFrame cmdWaste 0 (List.replicate n 0) ++ encodeFrame cmdFin 2 []

def misread : List Frame :=
  [⟨cmdSyn, 2, [], Nat.zero_le _⟩] ++ List.replicate 9363 (filler 0 (Nat.zero_le _)) ++
    [⟨0, 0x30000, [0, 0], by decide⟩]

theorem encodeAll_misread {n : ℕ} (hn : n = 65536) :
    framing.encodeAll misread = filledBytes n := by
  have hheader : [cmdWaste] ++ toBe 4 (0 : UInt32).toNat ++ toBe 2 n = List.replicate 7 0 := by
    rw [hn]
    decide
  have hsplit : 7 + n = frameHeaderLen * 9363 + 2 := by
    rw [hn]
    rfl
  have hwaste : encodeFrame cmdWaste 0 (List.replicate n 0) =
      List.replicate (frameHeaderLen * 9363) 0 ++ [0, 0] := by
    rw [encodeFrame, List.length_replicate, hheader, List.replicate_append_replicate, hsplit,
      List.replicate_add]
    rfl
  rw [misread, Framing.encodeAll_append, Framing.encodeAll_append, encodeAll_replicate_filler,
    filledBytes, hwaste]
  simp only [List.append_assoc]
  rfl

theorem misread_cmd {f : Frame} (h : f ∈ misread) : f.cmd ≠ cmdFin := by
  rcases List.mem_append.mp h with h | h
  · rcases List.mem_append.mp h with h | h
    · rw [List.mem_singleton.mp h]
      decide
    · rw [(List.mem_replicate.mp h).2]
      decide
  · rw [List.mem_singleton.mp h]
    decide

theorem oversized_run {n : ℕ} (hn : n = 65536) :
    Steps Wire.step always (.new oversizedScheme)
      [.frame false [] cmdSyn 2 [], .frame false [] cmdFin 2 []]
      ⟨⟨oversizedScheme, 2, true⟩, filledBytes n,
        [⟨cmdSyn, 2, [], Nat.zero_le _⟩, ⟨cmdFin, 2, [], Nat.zero_le _⟩]⟩ := by
  have hsizes : oversizedScheme.recordPayloadSizes 1 [] = .ok [65550] := by decide
  have hfill := @padPacket_fill (encodeFrame cmdSyn 2 []) 65550 n (by decide) (by decide) (by omega)
    (by rw [hn]; decide) (by rw [hn]; decide)
  have hpadded : PaddedFrameWriter.writePadded oversizedScheme 1 [] (encodeFrame cmdSyn 2 []) =
      ⟨encodeFrame cmdSyn 2 [] ++ encodeFrame cmdWaste 0 (List.replicate n 0), .ok ()⟩ := by
    simp only [PaddedFrameWriter.writePadded, hsizes, hfill, List.append_nil]
  have hwrite : (PaddedFrameWriter.new oversizedScheme).writeFrame false [] cmdSyn 2 [] =
      (⟨oversizedScheme, 1, true⟩,
        ⟨encodeFrame cmdSyn 2 [] ++ encodeFrame cmdWaste 0 (List.replicate n 0), .ok ()⟩) := by
    have hpacket : (PaddedFrameWriter.new oversizedScheme).writePacket [] (encodeFrame cmdSyn 2 []) =
        (⟨oversizedScheme, 1, true⟩,
          PaddedFrameWriter.writePadded oversizedScheme 1 [] (encodeFrame cmdSyn 2 [])) := rfl
    rw [PaddedFrameWriter.writeFrame, if_pos (by decide), if_neg (by decide)]
    simp only [hpacket, hpadded]
    rfl
  refine .cons trivial (Wire.step_frame hwrite (Nat.zero_le _)) (.cons trivial ?_ .nil)
  exact Wire.step_frame rfl (Nat.zero_le _)

/-- With `1=65550-65550` the first frame is filled up with 65536 bytes, which the length of the
filler frame gives as none: the reader takes the zeros for frames and then reads the next frame
from two bytes before it, as filler of another stream. -/
theorem oversized_filler_hides_frame : ∃ padding s, fromText "stop=8\n1=65550-65550" = .ok padding ∧
    Steps Wire.step always (.new padding) [.frame false [] cmdSyn 2 [], .frame false [] cmdFin 2 []] s ∧
    s.written.map Frame.cmd = [cmdSyn, cmdFin] ∧
    ∃ frames, framing.readAll s.bytes = some frames ∧ ¬Interleaved s.written frames := by
  refine ⟨oversizedScheme, _, by decide +kernel, oversized_run rfl, rfl, misread, ?_, ?_⟩
  · rw [← encodeAll_misread rfl, Framing.readAll_encodeAll]
  · intro hinterleaved
    exact misread_cmd (hinterleaved.mem (.tail _ (.head _))) rfl

end Aerion.AnyTls
