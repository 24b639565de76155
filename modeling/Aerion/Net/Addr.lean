import Aerion.Net.Text

/-!
# Socket addresses

IP addresses with the text `Display` prints for them, and the two ways the
code folds IPv4-mapped IPv6 addresses: `canonicalize_socket_addr`
(`src/protocol.rs`) on addresses and `normalize_ip` (`src/core.rs`) on the
printed text. The flow label and scope id of an IPv6 socket address are left
out; no modelled function reads them.
-/

namespace Aerion.Net

inductive IpAddr where
  | v4 (a b c d : UInt8)
  | v6 (s0 s1 s2 s3 s4 s5 s6 s7 : UInt16)
  deriving DecidableEq, Repr

structure SocketAddr where
  ip : IpAddr
  port : UInt16
  deriving DecidableEq, Repr

inductive ProxyTarget where
  | ip (addr : SocketAddr)
  | domain (host : String) (port : UInt16)
  deriving DecidableEq, Repr

/-- `Ipv6Addr::to_ipv4_mapped`, on either kind of address. -/
def IpAddr.toIpv4Mapped : IpAddr → Option IpAddr
  | .v6 0 0 0 0 0 0xffff hi lo =>
    some (.v4 (hi >>> 8).toUInt8 hi.toUInt8 (lo >>> 8).toUInt8 lo.toUInt8)
  | _ => none

def canonicalizeSocketAddr (addr : SocketAddr) : SocketAddr :=
  match addr.ip.toIpv4Mapped with
  | some ip => { addr with ip := ip }
  | none => addr

/-! ### Display -/

def dotted (a b c d : UInt8) : String :=
  ".".intercalate ([a, b, c, d].map fun o => String.ofList (Nat.toDigits 10 o.toNat))

def groups (segments : List UInt16) : String :=
  ":".intercalate (segments.map fun s => String.ofList (Nat.toDigits 16 s.toNat))

/-- The first longest run of zero segments, as `(start, length)`. -/
def zeroSpan (segments : List UInt16) : Nat × Nat :=
  go segments 0 (0, 0) (0, 0)
where
  go : List UInt16 → Nat → Nat × Nat → Nat × Nat → Nat × Nat
    | [], _, _, longest => longest
    | s :: rest, i, current, longest =>
      if s = 0 then
        let current := (if current.2 = 0 then i else current.1, current.2 + 1)
        go rest (i + 1) current (if longest.2 < current.2 then current else longest)
      else go rest (i + 1) (0, 0) longest

/-- `Display for IpAddr`. -/
def IpAddr.toText (ip : IpAddr) : String :=
  match ip with
  | .v4 a b c d => dotted a b c d
  | .v6 s0 s1 s2 s3 s4 s5 s6 s7 =>
    match ip.toIpv4Mapped with
    | some (.v4 a b c d) => "::ffff:" ++ dotted a b c d
    | _ =>
      let segments := [s0, s1, s2, s3, s4, s5, s6, s7]
      let span := zeroSpan segments
      if 1 < span.2 then
        groups (segments.take span.1) ++ "::" ++ groups (segments.drop (span.1 + span.2))
      else groups segments

/-- `trim_start_matches` on a non-empty pattern; the fuel is the length of the text. -/
def stripLeading (pattern : List Char) : Nat → List Char → List Char
  | 0, cs => cs
  | fuel + 1, cs =>
    if pattern.isPrefixOf cs then stripLeading pattern fuel (cs.drop pattern.length) else cs

def normalizeIp (ip : IpAddr) : String :=
  let text := ip.toText.toList
  String.ofList (stripLeading "::ffff:".toList text.length text)

example : normalizeIp (.v6 0 0 0 0 0 0xffff 0x0102 0x0304) = "1.2.3.4" := by decide
example : normalizeIp (.v6 0x2001 0xdb8 0 0 0 0 0 1) = "2001:db8::1" := by decide

end Aerion.Net
