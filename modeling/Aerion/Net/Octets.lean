import Aerion.Lib.Words
import Aerion.Net.Addr

/-!
# Addresses as bytes

What the protocols put on the wire of an address: the octets of an IP
address, the two bytes of a port and the UTF-8 bytes of a host name. Each is
read back from its bytes.
-/

namespace Aerion.Net

open Lib

def IpAddr.octets : IpAddr → Bytes
  | .v4 a b c d => [a, b, c, d]
  | .v6 s0 s1 s2 s3 s4 s5 s6 s7 =>
    [s0, s1, s2, s3, s4, s5, s6, s7].flatMap fun s => toBe 2 s.toNat

/-- `u16::from_be_bytes`. -/
def wordOf (bytes : Bytes) : UInt16 := UInt16.ofNat (ofBe bytes)

/-- `Ipv4Addr::from` and `Ipv6Addr::from`, on an array of the right length. -/
def IpAddr.ofOctets : Bytes → Option IpAddr
  | [a, b, c, d] => some (.v4 a b c d)
  | [a, a', b, b', c, c', d, d', e, e', f, f', g, g', h, h'] =>
    some (.v6 (wordOf [a, a']) (wordOf [b, b']) (wordOf [c, c']) (wordOf [d, d']) (wordOf [e, e'])
      (wordOf [f, f']) (wordOf [g, g']) (wordOf [h, h']))
  | _ => none

def hostBytes (host : String) : Bytes := host.toUTF8.toList

/-- `encode_target` (`src/protocol.rs`), the SOCKS form of an address. -/
def encodeTarget : ProxyTarget → Outcome Bytes
  | .ip addr =>
    match (canonicalizeSocketAddr addr).ip with
    | .v4 a b c d => .ok (0x01 :: IpAddr.octets (.v4 a b c d) ++ toBe 2 addr.port.toNat)
    | .v6 s0 s1 s2 s3 s4 s5 s6 s7 =>
      .ok (0x04 :: IpAddr.octets (.v6 s0 s1 s2 s3 s4 s5 s6 s7) ++ toBe 2 addr.port.toNat)
  | .domain host port => do
    Outcome.ensure ((hostBytes host).length ≤ 255) "domain too long"
    return 0x03 :: UInt8.ofNat (hostBytes host).length :: hostBytes host ++ toBe 2 port.toNat

theorem wordOf_toBe (w : UInt16) : wordOf (toBe 2 w.toNat) = w := by
  rw [wordOf, ofBe_toBe (by simpa using w.toNat_lt), UInt16.ofNat_toNat]

theorem IpAddr.ofOctets_octets (ip : IpAddr) : ofOctets ip.octets = some ip := by
  cases ip with
  | v4 a b c d => rfl
  | v6 s0 s1 s2 s3 s4 s5 s6 s7 =>
    have h0 := wordOf_toBe s0
    have h1 := wordOf_toBe s1
    have h2 := wordOf_toBe s2
    have h3 := wordOf_toBe s3
    have h4 := wordOf_toBe s4
    have h5 := wordOf_toBe s5
    have h6 := wordOf_toBe s6
    have h7 := wordOf_toBe s7
    show some (IpAddr.v6 (wordOf (toBe 2 s0.toNat)) (wordOf (toBe 2 s1.toNat)) (wordOf (toBe 2 s2.toNat))
      (wordOf (toBe 2 s3.toNat)) (wordOf (toBe 2 s4.toNat)) (wordOf (toBe 2 s5.toNat))
      (wordOf (toBe 2 s6.toNat)) (wordOf (toBe 2 s7.toNat))) = _
    rw [h0, h1, h2, h3, h4, h5, h6, h7]

theorem toBe_wordOf (a b : UInt8) : toBe 2 (wordOf [a, b]).toNat = [a, b] := by
  have hlt : ofBe [a, b] < 65536 := by simpa using ofBe_lt [a, b]
  rw [wordOf, UInt16.toNat_ofNat', Nat.mod_eq_of_lt hlt]
  exact toBe_ofBe [a, b]

theorem IpAddr.ofOctets_four {bytes : Bytes} (h : bytes.length = 4) :
    ∃ a b c d, ofOctets bytes = some (.v4 a b c d) ∧ IpAddr.octets (.v4 a b c d) = bytes := by
  match bytes, h with
  | [a, b, c, d], _ => exact ⟨a, b, c, d, rfl, rfl⟩

theorem IpAddr.ofOctets_sixteen {bytes : Bytes} (h : bytes.length = 16) :
    ∃ s0 s1 s2 s3 s4 s5 s6 s7, ofOctets bytes = some (.v6 s0 s1 s2 s3 s4 s5 s6 s7) ∧
      IpAddr.octets (.v6 s0 s1 s2 s3 s4 s5 s6 s7) = bytes := by
  match bytes, h with
  | [a, a', b, b', c, c', d, d', e, e', f, f', g, g', k, k'], _ =>
    refine ⟨_, _, _, _, _, _, _, _, rfl, ?_⟩
    simp [octets, toBe_wordOf]

theorem IpAddr.ofOctets_isSome {bytes : Bytes} (h : bytes.length = 4 ∨ bytes.length = 16) :
    ∃ ip, ofOctets bytes = some ip := by
  rcases h with h | h
  · obtain ⟨a, b, c, d, hip, -⟩ := ofOctets_four h
    exact ⟨_, hip⟩
  · obtain ⟨s0, s1, s2, s3, s4, s5, s6, s7, hip, -⟩ := ofOctets_sixteen h
    exact ⟨_, hip⟩

theorem toList_loop {bytes : ByteArray} {n i : ℕ} (h : bytes.size = i + n) (read : Bytes) :
    ByteArray.toList.loop bytes i read = read.reverse ++ bytes.data.toList.drop i := by
  have hsize : bytes.data.toList.length = bytes.size := rfl
  induction n generalizing i read with
  | zero =>
    rw [ByteArray.toList.loop, if_neg (by omega), List.drop_eq_nil_of_le (by omega), List.append_nil]
  | succ n ih =>
    have hi : i < bytes.data.toList.length := by omega
    have hbyte : bytes.get! i = bytes.data.toList[i] := by
      cases bytes with
      | mk data => exact getElem!_pos data i hi
    rw [ByteArray.toList.loop, if_pos (by omega), ih (by omega), hbyte, List.drop_eq_getElem_cons hi]
    simp

theorem toList_eq (bytes : ByteArray) : bytes.toList = bytes.data.toList := by
  rw [ByteArray.toList, toList_loop (Nat.zero_add _).symm]
  rfl

theorem fromUtf8_hostBytes (host : String) : fromUtf8 (hostBytes host) = some host := by
  have hbytes : (⟨(hostBytes host).toArray⟩ : ByteArray) = host.toByteArray := by
    rw [hostBytes, toList_eq]
    rfl
  rw [fromUtf8, hbytes, String.fromUTF8?, dif_pos host.isValidUTF8]
  rfl

end Aerion.Net
