import Aerion.Lib.Segments
import Aerion.Lib.Words

/-!
# What Vision sees of the inner TLS

`TlsFilter` of `src/vless_vision.rs` reads along in both directions of a
connection, and finds out whether the inner TLS allows the direct copy.
-/

namespace Aerion.Vless.Vision

open Lib

/-! ### What is seen of the inner TLS -/

structure TlsProbe where
  buffer : Bytes
  handshake : Bytes
  stopped : Bool
  deriving DecidableEq, Repr

structure TlsFilter where
  incoming : TlsProbe
  outgoing : TlsProbe
  tls : Bool
  direct : Bool
  deriving DecidableEq, Repr

def TlsFilter.default : TlsFilter := ⟨⟨[], [], false⟩, ⟨[], [], false⟩, false, false⟩

/-- `get(start..start + len)` -/
def part (bytes : Bytes) (start len : ℕ) : Option Bytes :=
  if start + len ≤ bytes.length then some ((bytes.drop start).take len) else none

def namesTls13 (extensions : Bytes) : Bool :=
  if 4 ≤ extensions.length then
    let kind := ofBe (extensions.take 2)
    let len := ofBe ((extensions.drop 2).take 2)
    match part extensions 4 len with
    | some value => if kind = 43 ∧ value = [3, 4] then true else namesTls13 (extensions.drop (4 + len))
    | none => false
  else false
termination_by extensions.length
decreasing_by
  rw [List.length_drop]
  omega

def serverHelloAllowsDirect (hello : Bytes) : Bool :=
  if hello.length < 38 ∨ hello.take 2 ≠ [3, 3] then false
  else
    let cipherOffset := 35 + (hello.getD 34 0).toNat
    match part hello cipherOffset 2 with
    | none => false
    | some suite =>
      if ofBe suite < 0x1301 ∨ 0x1304 < ofBe suite then false
      else
        match part hello (cipherOffset + 3) 2 with
        | none => false
        | some size =>
          match part hello (cipherOffset + 5) (ofBe size) with
          | none => false
          | some extensions => namesTls13 extensions

/-- What the messages of a handshake have shown, and the part of it that is not yet a message. -/
structure Messages where
  handshake : Bytes
  stopped : Bool
  tls : Bool
  direct : Bool

/-- The inner loop of `observe`, over the handshake messages. -/
def readMessages (handshake : Bytes) (tls direct : Bool) : Messages :=
  if 4 ≤ handshake.length then
    let len := ofBe ((handshake.drop 1).take 3)
    if 65536 < len then ⟨[], true, tls, direct⟩
    else if handshake.length < 4 + len then ⟨handshake, false, tls, direct⟩
    else
      let kind := handshake.headD 0
      readMessages (handshake.drop (4 + len)) (tls || kind = 1 || kind = 2)
        (if kind = 2 then serverHelloAllowsDirect ((handshake.drop 4).take len) else direct)
  else ⟨handshake, false, tls, direct⟩
termination_by handshake.length
decreasing_by
  rw [List.length_drop]
  omega

/-- The outer loop of `observe`, over the records. -/
def readRecords (buffer : Bytes) (seen : Messages) : Bytes × Messages :=
  if buffer.length < 5 then (buffer, seen)
  else if buffer.headD 0 ≠ 22 ∨ buffer.getD 1 0 ≠ 3 then ([], { seen with handshake := [], stopped := true })
  else
    let len := ofBe ((buffer.drop 3).take 2)
    if 18432 < len then ([], { seen with stopped := true })
    else if buffer.length < 5 + len then (buffer, seen)
    else
      let seen := readMessages (seen.handshake ++ (buffer.drop 5).take len) seen.tls seen.direct
      if seen.stopped then (buffer.drop (5 + len), seen) else readRecords (buffer.drop (5 + len)) seen
termination_by buffer.length
decreasing_by
  rw [List.length_drop]
  omega

def TlsFilter.observe (filter : TlsFilter) (payload : Bytes) (incoming : Bool) : TlsFilter :=
  let probe := if incoming then filter.incoming else filter.outgoing
  if probe.stopped then filter
  else
    let read := readRecords (probe.buffer ++ payload) ⟨probe.handshake, false, filter.tls, filter.direct⟩
    let probe := ⟨read.1, read.2.handshake, read.2.stopped⟩
    { incoming := if incoming then probe else filter.incoming
      outgoing := if incoming then filter.outgoing else probe
      tls := read.2.tls
      direct := read.2.direct }

end Aerion.Vless.Vision
