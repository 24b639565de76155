import Aerion.Lib.Calls
import Aerion.Lib.Segments
import Aerion.Lib.Words

/-!
# The padding codec of Naive

The first eight chunks of each direction of a tunnel are framed: a length of
two bytes, the size of the padding, the data, the padding (`src/naive.rs`).
What follows is raw. The reading half exists four times, over the byte stream
of HTTP/1.1 and over the DATA frames of HTTP/2 and of the two ends of HTTP/3.
The four bodies are the same but for the two functions that fetch bytes, so
here they are one body over a `RawReader`; the three over DATA frames fetch in
the same way and differ in one text.

The byte stream of HTTP/1.1 is a list of segments, of which an empty one
delivers nothing. What the libraries for HTTP/2 and HTTP/3 hand over for the
DATA frames of a stream is a parameter, `Delivery`: that of HTTP/2 drops empty
frames.
-/

namespace Aerion.Naive

open Lib Outcome

def naivePaddingCount : ℕ := 8

def naiveMaxChunk : ℕ := 65535

structure NaiveReadState where
  readPadding : ℕ
  readRemaining : ℕ
  paddingRemaining : ℕ
  deriving DecidableEq, Repr

structure NaiveWriteState where
  writePadding : ℕ
  deriving DecidableEq, Repr

def naiveStates (enabled : Bool) : NaiveReadState × NaiveWriteState :=
  if enabled then (⟨0, 0, 0⟩, ⟨0⟩) else (⟨naivePaddingCount, 0, 0⟩, ⟨naivePaddingCount⟩)

/-! ### Writing -/

/-- One turn of the loop of `encode_naive_chunks`. The draws are numbered like the padded chunks, of
which each takes one. -/
def encodeChunk (draw : ℕ → UInt8) (chunk : Bytes) (state : NaiveWriteState) : Bytes × NaiveWriteState :=
  if state.writePadding < naivePaddingCount then
    let paddingSize := draw state.writePadding
    (toBe 2 chunk.length ++ (paddingSize :: (chunk ++ List.replicate paddingSize.toNat 0)),
      ⟨state.writePadding + 1⟩)
  else (chunk, state)

def encodeChunks (draw : ℕ → UInt8) : List Bytes → NaiveWriteState → List Bytes × NaiveWriteState
  | [], state => ([], state)
  | chunk :: rest, state =>
    let (encoded, state) := encodeChunk draw chunk state
    let (more, state) := encodeChunks draw rest state
    (encoded :: more, state)

def encodeNaiveChunks (draw : ℕ → UInt8) (state : NaiveWriteState) (data : Bytes) : List Bytes × NaiveWriteState :=
  encodeChunks draw (chunks naiveMaxChunk data) state

def writeAll (draw : ℕ → UInt8) : List Bytes → NaiveWriteState → Bytes
  | [], _ => []
  | data :: writes, state =>
    let (encoded, state) := encodeNaiveChunks draw state data
    encoded.flatten ++ writeAll draw writes state

/-! ### Reading -/

/-- The two functions that fetch bytes: at most so many, or exactly so many. -/
structure RawReader (σ : Type) where
  readSome : ℕ → Stateful σ Bytes
  readExact : ℕ → Stateful σ Bytes

structure NaiveReader (σ : Type) where
  state : NaiveReadState
  source : σ

section

variable {σ : Type}

def onSource {α : Type} (x : Stateful σ α) : Stateful (NaiveReader σ) α :=
  Stateful.zoom (·.source) (fun source reader => { reader with source }) x

def setState (f : NaiveReadState → NaiveReadState) : Stateful (NaiveReader σ) Unit :=
  Stateful.update fun reader => .ok { reader with state := f reader.state }

def readRest (raw : RawReader σ) (size : ℕ) : Stateful (NaiveReader σ) Bytes := do
  let reader ← Stateful.get
  let bytes ← onSource (raw.readSome (min reader.state.readRemaining size))
  setState fun state => { state with readRemaining := state.readRemaining - bytes.length }
  return bytes

def dropPadding (raw : RawReader σ) (count : ℕ) : Stateful (NaiveReader σ) Unit := do
  let _ ← onSource (raw.readExact count)
  setState fun state => { state with paddingRemaining := 0 }

def skipPadding (raw : RawReader σ) : Stateful (NaiveReader σ) Unit := do
  let reader ← Stateful.get
  if 0 < reader.state.paddingRemaining then dropPadding raw reader.state.paddingRemaining else return

def readChunk (raw : RawReader σ) (size : ℕ) : Stateful (NaiveReader σ) Bytes := do
  let header ← onSource (raw.readExact 3)
  let dataSize := ofBe (header.take 2)
  let paddingSize ← index header 2
  let bytes ← onSource (raw.readSome (min dataSize size))
  setState fun state =>
    { readPadding := state.readPadding + 1, readRemaining := dataSize - bytes.length,
      paddingRemaining := paddingSize.toNat }
  return bytes

def readNext (raw : RawReader σ) (size : ℕ) : Stateful (NaiveReader σ) Bytes := do
  skipPadding raw
  let reader ← Stateful.get
  if reader.state.readPadding < naivePaddingCount then readChunk raw size else onSource (raw.readSome size)

/-- The body of `read_naive_h1_data` and its three copies, for a buffer of `size` bytes. -/
def readNaiveData (raw : RawReader σ) (size : ℕ) : Stateful (NaiveReader σ) Bytes := do
  let reader ← Stateful.get
  if 0 < reader.state.readRemaining then readRest raw size else readNext raw size

end

/-- The chunks that a library hands over for the DATA frames of a stream. -/
structure Delivery where
  chunks : List Bytes → List Bytes
  flatten : ∀ frames, (chunks frames).flatten = frames.flatten

/-- No empty chunk is handed over, as `h2` has it. -/
def Delivery.DropsEmpty (d : Delivery) : Prop := ∀ frames, ∀ chunk ∈ d.chunks frames, chunk ≠ []

def Delivery.nonempty : Delivery := ⟨fun frames => frames.filter (· ≠ []), fun _ => List.flatten_filter_ne_nil⟩

/-- What was taken from the transport and not used, and what the transport will hand over until it
ends. -/
structure Source where
  pending : Bytes
  incoming : List Bytes
  deriving DecidableEq, Repr

def readRawH1Some (size : ℕ) : Stateful Source Bytes := fun source =>
  if source.pending ≠ [] then
    (.ok (source.pending.take size), { source with pending := source.pending.drop size })
  else
    let (bytes, incoming) := Segments.read size source.incoming
    (.ok bytes, { source with incoming })

def readRawH1Exact (size : ℕ) : Stateful Source Bytes := fun source =>
  let output := source.pending.take size
  let source := { source with pending := source.pending.drop size }
  if output.length < size then
    match Segments.readExact (size - output.length) source.incoming with
    | (some bytes, incoming) => (.ok (output ++ bytes), { source with incoming })
    | (none, incoming) => (.err "read exact Naive HTTP/1.1 data", { source with incoming })
  else (.ok output, source)

/-- `pull_h2_data`, `pull_h3_data` and `pull_h3_server_data`: the next chunk, unless the stream has
ended. -/
def pullData : Stateful Source Bool := fun source =>
  match source.incoming with
  | [] => (.ok false, source)
  | chunk :: incoming => (.ok true, { pending := source.pending ++ chunk, incoming })

def takePending (size : ℕ) : Stateful Source Bytes := fun source =>
  (.ok (source.pending.take size), { source with pending := source.pending.drop size })

def pullSome (size : ℕ) : Stateful Source Bytes := do
  let more ← pullData
  if more then takePending size else return []

def readRawFramesSome (size : ℕ) : Stateful Source Bytes := do
  let source ← Stateful.get
  if source.pending = [] then pullSome size else takePending size

/-- The loop that pulls until there are `size` bytes. -/
def pullUntil (closedEarly : String) (size : ℕ) (pending : Bytes) : List Bytes → Outcome Unit × Source
  | [] => if size ≤ pending.length then (.ok (), ⟨pending, []⟩) else (.err closedEarly, ⟨pending, []⟩)
  | chunk :: incoming =>
    if size ≤ pending.length then (.ok (), ⟨pending, chunk :: incoming⟩)
    else pullUntil closedEarly size (pending ++ chunk) incoming

def fillPending (closedEarly : String) (size : ℕ) : Stateful Source Unit := fun source =>
  pullUntil closedEarly size source.pending source.incoming

def readRawFramesExact (closedEarly : String) (size : ℕ) : Stateful Source Bytes := do
  fillPending closedEarly size
  takePending size

def rawH1 : RawReader Source := ⟨readRawH1Some, readRawH1Exact⟩

def rawH2 : RawReader Source := ⟨readRawFramesSome, readRawFramesExact "Naive HTTP/2 stream closed early"⟩

def rawH3 : RawReader Source := ⟨readRawFramesSome, readRawFramesExact "Naive HTTP/3 stream closed early"⟩

def rawH3Server : RawReader Source :=
  ⟨readRawFramesSome, readRawFramesExact "Naive HTTP/3 server stream closed early"⟩

def readNaiveH1Data (size : ℕ) : Stateful (NaiveReader Source) Bytes := readNaiveData rawH1 size

def readNaiveH2Data (size : ℕ) : Stateful (NaiveReader Source) Bytes := readNaiveData rawH2 size

def readNaiveH3Data (size : ℕ) : Stateful (NaiveReader Source) Bytes := readNaiveData rawH3 size

def readNaiveH3ServerData (size : ℕ) : Stateful (NaiveReader Source) Bytes := readNaiveData rawH3Server size

end Aerion.Naive
