import Aerion.AnyTls.Frame
import Aerion.Net.Text

/-!
# Padding schemes

`src/padding.rs`: a scheme names, packet by packet, the sizes the writes of
the packet are cut or padded to. A size is a range from which one is drawn;
a checkpoint ends the padding of a packet that has been written out. Sizes
are passed on as signed words, where the checkpoint is minus one.
-/

namespace Aerion.AnyTls

open Lib Outcome Net

/-- The range of a size; `from_text` puts its bounds in order and refuses zero. -/
structure SizeRange where
  min : UInt64
  max : UInt64
  pos : 0 < min
  le : min ≤ max
  deriving DecidableEq

inductive PaddingRule where
  | range (r : SizeRange)
  | checkpoint
  deriving DecidableEq

structure PaddingScheme where
  stop : UInt32
  rules : List (UInt32 × List PaddingRule)
  deriving DecidableEq

def orderedRange (min max : UInt64) : Outcome SizeRange :=
  if hpos : 0 < min ∧ 0 < max then
    if hle : min ≤ max then .ok ⟨min, max, hpos.1, hle⟩
    else .ok ⟨max, min, hpos.2, UInt64.le_of_lt (UInt64.not_le.mp hle)⟩
  else .err "padding range must be positive"

def parseRange (rule : List Char) : Outcome SizeRange := do
  let text := String.ofList rule
  let (min, max) ← need (splitOnce '-' rule) s!"invalid padding range: {text}"
  let min ← context s!"parse padding range minimum: {text}" (parseUnsigned (2 ^ 64) min)
  let max ← context s!"parse padding range maximum: {text}" (parseUnsigned (2 ^ 64) max)
  orderedRange (UInt64.ofNat min) (UInt64.ofNat max)

def parseRule (rule : List Char) : Outcome PaddingRule :=
  if rule = ['c'] then .ok .checkpoint else .range <$> parseRange rule

def parseLine (acc : Option UInt32 × List (UInt32 × List PaddingRule)) (line : List Char) :
    Outcome (Option UInt32 × List (UInt32 × List PaddingRule)) := do
  let text := String.ofList line
  let (key, value) ← need (splitOnce '=' line) s!"invalid padding line: {text}"
  if key = "stop".toList then
    let parsed ← context "parse padding stop" (parseUnsigned (2 ^ 32) value)
    ensure (0 < parsed) "padding stop must be positive"
    return (some (UInt32.ofNat parsed), acc.2)
  else
    let name := String.ofList key
    let packet ← context s!"parse padding packet index: {name}" (parseUnsigned (2 ^ 32) key)
    let packetRules ← (value.splitOn ',').mapM parseRule
    return (acc.1, acc.2 ++ [(UInt32.ofNat packet, packetRules)])

def fromText (raw : String) : Outcome PaddingScheme := do
  let (stop, rules) ← (trimmedLines raw.toList).foldlM parseLine (none, [])
  let stop ← need stop "padding scheme missing stop"
  return ⟨stop, rules⟩

def defaultText : String :=
  "stop=8\n0=30-30\n1=100-400\n2=400-500,c,500-1000,c,500-1000,c,500-1000,c,500-1000\n" ++
    "3=9-9,500-1000\n4=500-1000\n5=500-1000\n6=500-1000\n7=500-1000"

def paddingCheckpoint : Int64 := -1

def PaddingScheme.rulesFor (s : PaddingScheme) (packet : UInt32) : List PaddingRule :=
  ((s.rules.find? (·.1 = packet)).map (·.2)).getD []

/-- The sizes the rules give with the words drawn from the system; a missing word is a failure
of the system's generator. -/
def drawSizes : List PaddingRule → List UInt64 → Outcome (List Int64)
  | [], _ => .ok []
  | .checkpoint :: rules, draws => (paddingCheckpoint :: ·) <$> drawSizes rules draws
  | .range r :: rules, draws =>
    if r.min = r.max then (r.min.toInt64 :: ·) <$> drawSizes rules draws
    else match draws with
      | [] => .err "generate padding randomness"
      | word :: draws => ((r.min + word % (r.max - r.min)).toInt64 :: ·) <$> drawSizes rules draws

def PaddingScheme.recordPayloadSizes (s : PaddingScheme) (packet : UInt32) (draws : List UInt64) :
    Outcome (List Int64) :=
  drawSizes (s.rulesFor packet) draws

end Aerion.AnyTls
