import Aerion.Lib.Transducer
import Aerion.Net.Octets

/-!
# SOCKS addresses and datagrams

`decode_target` of `src/protocol.rs`, and the datagrams of a SOCKS
association (`src/uot.rs`): two reserved bytes, a fragment number, the
address the datagram goes to or comes from, and the payload. Slices the code
takes are within the bounds it has checked; the one array it copies into
stands as `IpAddr.ofOctets`.
-/

namespace Aerion.Uot

open Lib Lib.Outcome Net

/-! ### Addresses -/

def readIp (short : String) (octets : ℕ) (rest : Bytes) : Outcome (ProxyTarget × Bytes) :=
  if rest.length < octets + 2 then .err short
  else match IpAddr.ofOctets (rest.take octets) with
    | some ip => .ok (.ip ⟨ip, wordOf ((rest.drop octets).take 2)⟩, rest.drop (octets + 2))
    | none => .panic

def readDomain : Bytes → Outcome (ProxyTarget × Bytes)
  | [] => .err "domain target payload is too short"
  | length :: rest =>
    if rest.length < length.toNat + 2 then .err "domain target payload missing port"
    else match fromUtf8 (rest.take length.toNat) with
      | some host => .ok (.domain host (wordOf ((rest.drop length.toNat).take 2)),
          rest.drop (length.toNat + 2))
      | none => .err "decode domain target"

def decodeTarget : Bytes → Outcome (ProxyTarget × Bytes)
  | [] => .err "target payload is empty"
  | kind :: rest =>
    if kind = 0x01 then readIp "IPv4 target payload is too short" 4 rest
    else if kind = 0x03 then readDomain rest
    else if kind = 0x04 then readIp "IPv6 target payload is too short" 16 rest
    else .err ("unsupported target address type: " ++ toString kind.toNat)

/-- A target as `decodeTarget` reads it. -/
def targetBytes : ProxyTarget → Bytes
  | .ip ⟨.v4 a b c d, port⟩ => 0x01 :: IpAddr.octets (.v4 a b c d) ++ toBe 2 port.toNat
  | .ip ⟨.v6 s0 s1 s2 s3 s4 s5 s6 s7, port⟩ =>
    0x04 :: IpAddr.octets (.v6 s0 s1 s2 s3 s4 s5 s6 s7) ++ toBe 2 port.toNat
  | .domain host port => 0x03 :: UInt8.ofNat (hostBytes host).length :: hostBytes host ++
      toBe 2 port.toNat

def hostLength : ProxyTarget → ℕ
  | .ip _ => 0
  | .domain host _ => (hostBytes host).length

/-! ### Datagrams -/

def parseSocksUdpPacket (packet : Bytes) : Outcome (ProxyTarget × Bytes) := do
  ensure (4 ≤ packet.length) "SOCKS UDP packet is too short"
  let first ← index packet 0
  let second ← index packet 1
  ensure (first = 0 && second = 0) "invalid SOCKS UDP reserved bytes"
  let fragment ← index packet 2
  ensure (fragment = 0) "fragmented SOCKS UDP packets are not supported"
  decodeTarget (packet.drop 3)

def encodeSocksUdpPacket (source : ProxyTarget) (payload : Bytes) : Outcome Bytes := do
  return [0, 0, 0] ++ (← encodeTarget source) ++ payload

end Aerion.Uot
