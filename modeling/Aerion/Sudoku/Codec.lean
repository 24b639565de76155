import Aerion.Lib.Transducer
import Aerion.Sudoku.Table

/-!
# The appearance codec

`Encoder::encode` and `Decoder::feed_into` of `src/sudoku/table.rs`. A pure
stream carries each byte as four hints, a packed stream six bits at a time
with a marker behind an incomplete group; padding may stand before any data
byte.
-/

namespace Aerion.Sudoku

open Lib Outcome

/-! ### The decoder -/

structure Decoder where
  table : Table
  layout : Layout
  packed : Bool
  hints : Hints
  bits : ℕ
  count : ℕ

def Decoder.new (table : Table) (down packed : Bool) : Decoder :=
  ⟨table, table.layout down, packed, .zero, 0, 0⟩

/-- `hints[i] = group`. -/
def Hints.put (h : Hints) (i : ℕ) (g : Group) : Outcome Hints :=
  match i with
  | 0 => .ok { h with a := g }
  | 1 => .ok { h with b := g }
  | 2 => .ok { h with c := g }
  | 3 => .ok { h with d := g }
  | _ => .panic

def Decoder.pureGroup (d : Decoder) (g : Group) : Outcome (Decoder × Bytes) := do
  let hints ← d.hints.put d.count g
  if d.count + 1 = 4 then
    let byte ← d.table.decode hints
    return ({ d with hints := hints, count := 0 }, [byte])
  else return ({ d with hints := hints, count := d.count + 1 }, [])

def Decoder.pureByte (d : Decoder) (byte : UInt8) : Outcome (Decoder × Bytes) :=
  match d.layout.decode byte with
  | none => .ok (d, [])
  | some g => d.pureGroup g

def Decoder.packedGroup (d : Decoder) (g : Group) : Decoder × Bytes :=
  let bits := (d.bits <<< 6) ||| g.val
  let count := d.count + 6
  if 8 ≤ count then
    ({ d with bits := bits &&& ((1 <<< (count - 8)) - 1), count := count - 8 },
      [UInt8.ofNat (bits >>> (count - 8))])
  else ({ d with bits := bits, count := count }, [])

def Decoder.packedByte (d : Decoder) (byte : UInt8) : Decoder × Bytes :=
  match d.layout.decode byte with
  | none => if byte = d.layout.marker then ({ d with bits := 0, count := 0 }, []) else (d, [])
  | some g => d.packedGroup g

def threeBytes (a b c d : Group) : Bytes :=
  [UInt8.ofNat ((a.val <<< 2) ||| (b.val >>> 4)), UInt8.ofNat ((b.val <<< 4) ||| (c.val >>> 2)),
    UInt8.ofNat ((c.val <<< 6) ||| d.val)]

/-- `feed_packed`: four data bytes at a byte boundary at once, anything else byte by byte. -/
def Decoder.feedPacked : Bytes → Decoder → Decoder × Bytes
  | [], d => (d, [])
  | w :: x :: y :: z :: input, d =>
    if d.count = 0 then
      match d.layout.decode w, d.layout.decode x, d.layout.decode y, d.layout.decode z with
      | some g, some h, some i, some j =>
        let rest := feedPacked input d
        (rest.1, threeBytes g h i j ++ rest.2)
      | _, _, _, _ =>
        let first := d.packedByte w
        let rest := feedPacked (x :: y :: z :: input) first.1
        (rest.1, first.2 ++ rest.2)
    else
      let first := d.packedByte w
      let rest := feedPacked (x :: y :: z :: input) first.1
      (rest.1, first.2 ++ rest.2)
  | w :: input, d =>
    let first := d.packedByte w
    let rest := feedPacked input first.1
    (rest.1, first.2 ++ rest.2)

def Decoder.feed (d : Decoder) (input : Bytes) : Outcome (Decoder × Bytes) :=
  if d.packed then .ok (d.feedPacked input) else transduce Decoder.pureByte input d

/-! ### The encoder -/

/-- `emit`: a data byte, with padding before it where the draw says so. The draws are taken from
the front. -/
def emit (layout : Layout) (pool : Bytes) (padding : UInt8) (g : Group) (draws : Bytes) :
    Outcome (Bytes × Bytes) :=
  if padding = 0 then .ok ([layout.encode g], draws)
  else
    match draws with
    | [] => .panic
    | chance :: draws =>
      if chance.toNat * 100 < padding.toNat * 256 then
        match draws with
        | [] => .panic
        | choice :: draws =>
          match pool[choice.toNat % pool.length]? with
          | some pad => .ok ([pad, layout.encode g], draws)
          | none => .panic
      else .ok ([layout.encode g], draws)

def emitAll (layout : Layout) (pool : Bytes) (padding : UInt8) : List Group → Bytes → Outcome Bytes
  | [], _ => .ok []
  | g :: groups, draws => do
    let first ← emit layout pool padding g draws
    let rest ← emitAll layout pool padding groups first.2
    return first.1 ++ rest

/-- The inner loop of a packed stream: the groups of the word, and the count of bits left. -/
def drainGroups (bits : ℕ) : ℕ → List Group × ℕ
  | count + 6 =>
    let rest := drainGroups bits count
    (⟨(bits >>> count) % 64, Nat.mod_lt _ (by decide)⟩ :: rest.1, rest.2)
  | count => ([], count)

def packGroups : Bytes → ℕ → ℕ → List Group × ℕ × ℕ
  | [], bits, count => ([], bits, count)
  | byte :: input, bits, count =>
    let bits := (bits <<< 8) ||| byte.toNat
    let drained := drainGroups bits (count + 8)
    let rest := packGroups input (bits &&& ((1 <<< drained.2) - 1)) drained.2
    (drained.1 ++ rest.1, rest.2)

/-- `for i in (1..4).rev() { hints.swap(i, random[i] % (i + 1)) }`. -/
def mixHints (hints : List Group) (r₁ r₂ r₃ : UInt8) : Outcome (List Group) := do
  let hints ← swap hints 3 (r₃.toNat % 4)
  let hints ← swap hints 2 (r₂.toNat % 3)
  swap hints 1 (r₁.toNat % 2)

def chooseHints (choices : List Hints) (r₀ r₁ r₂ r₃ : UInt8) : Outcome (List Group) :=
  match choices[ofBe [r₀, r₁] % choices.length]? with
  | some hints => mixHints hints.toList r₁ r₂ r₃
  | none => .panic

def puzzle (t : Table) (byte : UInt8) (random : Bytes) : Outcome (List Group) :=
  match t.order[byte.toNat]?, random with
  | some grid, [r₀, r₁, r₂, r₃] => chooseHints (encodings grid) r₀ r₁ r₂ r₃
  | _, _ => .panic

def puzzles (t : Table) : Bytes → Bytes → Outcome (List Group)
  | [], _ => .ok []
  | byte :: input, random => do
    let first ← puzzle t byte (random.take 4)
    let rest ← puzzles t input (random.drop 4)
    return first ++ rest

/-- `encode`, with the stream its random bytes are taken from. -/
def encode (t : Table) (down packed : Bool) (input : Bytes) (padding : UInt8) (random : ℕ → UInt8) :
    Outcome Bytes :=
  let layout := t.layout down
  let groups := if packed then (input.length * 8 + 5) / 6 else input.length * 4
  let drawLen := if padding = 0 then 0 else groups * 2
  let puzzleLen := if packed then 0 else input.length * 4
  let filled := (List.range (drawLen + puzzleLen)).map random
  let draws := filled.take drawLen
  if packed then do
    let packing := packGroups input 0 0
    if 0 < packing.2.2 then
      let last : Group := ⟨(packing.2.1 <<< (6 - packing.2.2)) % 64, Nat.mod_lt _ (by decide)⟩
      let wire ← emitAll layout layout.packedPadding padding (packing.1 ++ [last]) draws
      return wire ++ [layout.marker]
    else emitAll layout layout.packedPadding padding packing.1 draws
  else do
    let groups ← puzzles t input (filled.drop drawLen)
    emitAll layout layout.padding padding groups draws

end Aerion.Sudoku
