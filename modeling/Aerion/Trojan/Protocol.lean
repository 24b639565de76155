import Aerion.Lib.Fetch
import Aerion.Net.Octets

/-!
# Trojan messages

The request a client opens a connection with and the UDP packets of an
associated connection (`src/trojan.rs`). Readers are programs of exact reads,
as the code awaits them.
-/

namespace Aerion.Trojan

open Lib Net

def atypIpv4 : UInt8 := 0x01
def atypDomain : UInt8 := 0x03
def atypIpv6 : UInt8 := 0x04

def cmdConnect : UInt8 := 0x01
def cmdUdpAssociate : UInt8 := 0x03

inductive TrojanRequest where
  | connect (target : ProxyTarget)
  | udpAssociate
  deriving DecidableEq, Repr

structure TrojanUdpPacket where
  target : ProxyTarget
  payload : Bytes
  deriving DecidableEq, Repr

/-! ### Readers -/

def readCrlf : Fetch Unit := do
  let crlf ← Fetch.exact 2 "read CRLF"
  Outcome.ensure (crlf = [0x0d, 0x0a]) "invalid CRLF"

def readU8 : Fetch UInt8 := do
  match ← Fetch.exact 1 "read byte" with
  | [byte] => return byte
  | _ => (Outcome.panic : Outcome UInt8)

def readPort : Fetch UInt16 := do
  let port ← Fetch.exact 2 "read port"
  return wordOf port

def readIp (length : ℕ) (message : String) : Fetch ProxyTarget := do
  match IpAddr.ofOctets (← Fetch.exact length message) with
  | some ip => return .ip ⟨ip, ← readPort⟩
  | none => (Outcome.panic : Outcome ProxyTarget)

def readDomain : Fetch ProxyTarget := do
  let length ← readU8
  let host ← Fetch.exact length.toNat "read Trojan domain"
  let host ← Outcome.need (fromUtf8 host) "Trojan domain address is not valid UTF-8"
  return .domain host (← readPort)

def readTrojanAddressBody (atyp : UInt8) : Fetch ProxyTarget :=
  if atyp = atypIpv4 then readIp 4 "read Trojan IPv4 address"
  else if atyp = atypIpv6 then readIp 16 "read Trojan IPv6 address"
  else if atyp = atypDomain then readDomain
  else (Outcome.err ("unsupported Trojan address type " ++ hexText atyp.toNat) : Outcome ProxyTarget)

/-- `read_trojan_address_or_eof`: no address where the stream ends before its first byte. -/
def readTrojanAddressOrEof : Fetch (Option ProxyTarget) :=
  .read 1 fun
    | some [atyp] => do
      let target ← readTrojanAddressBody atyp
      return some target
    | some _ => .done .panic
    | none => .done (.ok none)

def readTrojanAddress : Fetch ProxyTarget := do
  let target ← readTrojanAddressOrEof
  Outcome.need target "Trojan address reached EOF"

def readTrojanRequest : Fetch TrojanRequest := do
  let command ← readU8
  let target ← readTrojanAddress
  readCrlf
  if command = cmdConnect then return .connect target
  else if command = cmdUdpAssociate then return .udpAssociate
  else (Outcome.err ("unsupported Trojan command " ++ hexText command.toNat) : Outcome TrojanRequest)

def readTrojanUdpPacket : Fetch (Option TrojanUdpPacket) := do
  match ← readTrojanAddressOrEof with
  | none => return none
  | some target =>
    let length ← Fetch.exact 2 "read Trojan UDP packet length"
    readCrlf
    let payload ← Fetch.exact (ofBe length) "read Trojan UDP payload"
    return some ⟨target, payload⟩

/-- `read_authenticated_trojan_request`, with the credential that core knows under a digest. -/
def readAuthenticatedTrojanRequest (lookup : Bytes → Option String) : Fetch (String × TrojanRequest) := do
  let authHex ← Fetch.exact 56 "read Trojan auth"
  let credential ← Outcome.need (lookup authHex) "Trojan authentication failed"
  readCrlf
  let request ← readTrojanRequest
  return (credential, request)

/-! ### Writers -/

def writeTrojanAddressSync : ProxyTarget → Outcome Bytes
  | .ip ⟨.v4 a b c d, port⟩ => .ok (atypIpv4 :: IpAddr.octets (.v4 a b c d) ++ toBe 2 port.toNat)
  | .ip ⟨.v6 s0 s1 s2 s3 s4 s5 s6 s7, port⟩ =>
    .ok (atypIpv6 :: IpAddr.octets (.v6 s0 s1 s2 s3 s4 s5 s6 s7) ++ toBe 2 port.toNat)
  | .domain host port => do
    Outcome.ensure ((hostBytes host).length ≤ 255) "Trojan domain too long"
    return atypDomain :: UInt8.ofNat (hostBytes host).length :: hostBytes host ++ toBe 2 port.toNat

def encodeTrojanUdpPacket (target : ProxyTarget) (payload : Bytes) : Outcome Bytes := do
  Outcome.ensure (payload.length ≤ 65535) "Trojan UDP payload too large"
  let address ← writeTrojanAddressSync target
  return address ++ toBe 2 payload.length ++ [0x0d, 0x0a] ++ payload

/-! ### Packets are read back -/

theorem readPort_reads (port : UInt16) : readPort.Reads (toBe 2 port.toNat) port := by
  refine .seq (.exact (toBe_length 2 port.toNat) _) ?_ (List.append_nil _)
  rw [wordOf_toBe]
  exact .pure port

theorem readCrlf_reads : readCrlf.Reads [0x0d, 0x0a] () :=
  .seq (@Fetch.Reads.exact [0x0d, 0x0a] 2 rfl _) (.lift (Outcome.ensure_pos rfl)) rfl

theorem readU8_reads (b : UInt8) : readU8.Reads [b] b :=
  .seq (@Fetch.Reads.exact [b] 1 rfl _) (.pure b) rfl

theorem readIp_reads {length : ℕ} {ip : IpAddr} (h : ip.octets.length = length) (message : String)
    (port : UInt16) :
    (readIp length message).Reads (ip.octets ++ toBe 2 port.toNat) (.ip ⟨ip, port⟩) := by
  refine .bind (.exact h message) ?_
  rw [IpAddr.ofOctets_octets]
  exact .seq (readPort_reads port) (.pure _) (List.append_nil _)

theorem readDomain_reads {host : String} (h : (hostBytes host).length ≤ 255) (port : UInt16) :
    readDomain.Reads (UInt8.ofNat (hostBytes host).length :: hostBytes host ++ toBe 2 port.toNat)
      (.domain host port) := by
  have hlength : (UInt8.ofNat (hostBytes host).length).toNat = (hostBytes host).length := by
    rw [UInt8.toNat_ofNat']
    omega
  refine .seq (readU8_reads _) ?_ rfl
  rw [hlength]
  refine .bind (.exact rfl _) ?_
  refine .seq (.lift (Outcome.need_ok.mpr (fromUtf8_hostBytes host))) ?_ rfl
  exact .seq (readPort_reads port) (.pure _) (List.append_nil _)

theorem readTrojanAddressOrEof_reads {target : ProxyTarget} {bytes : Bytes}
    (h : writeTrojanAddressSync target = .ok bytes) : readTrojanAddressOrEof.Reads bytes (some target) := by
  have hhead : ∀ atyp rest, (readTrojanAddressBody atyp).Reads rest target →
      readTrojanAddressOrEof.Reads (atyp :: rest) (some target) := by
    intro atyp rest hbody
    show ((readTrojanAddressBody atyp) >>= fun target => pure (some target)).Reads rest (some target)
    exact .seq hbody (.pure _) (List.append_nil _)
  rcases target with ⟨⟨a, b, c, d⟩ | ⟨s0, s1, s2, s3, s4, s5, s6, s7⟩, port⟩ | ⟨host, port⟩
  · cases h
    exact hhead _ _ (@readIp_reads 4 (.v4 a b c d) rfl _ port)
  · cases h
    exact hhead _ _ (@readIp_reads 16 (.v6 s0 s1 s2 s3 s4 s5 s6 s7) rfl _ port)
  · obtain ⟨_, hlen, h⟩ := Outcome.bind_ok.mp h
    cases h
    exact hhead _ _ (readDomain_reads (of_decide_eq_true (Outcome.ensure_ok.mp hlen)) port)

theorem readTrojanUdpPacket_reads {packet : TrojanUdpPacket} {bytes : Bytes}
    (h : encodeTrojanUdpPacket packet.target packet.payload = .ok bytes) :
    readTrojanUdpPacket.Reads bytes (some packet) := by
  obtain ⟨_, hlen, h⟩ := Outcome.bind_ok.mp h
  obtain ⟨address, haddress, h⟩ := Outcome.bind_ok.mp h
  cases h
  have hpayload : ofBe (toBe 2 packet.payload.length) = packet.payload.length := by
    have hsmall := of_decide_eq_true (Outcome.ensure_ok.mp hlen)
    exact ofBe_toBe (by omega)
  rw [List.append_assoc, List.append_assoc]
  refine .bind (readTrojanAddressOrEof_reads haddress) ?_
  refine .bind (.exact (toBe_length 2 _) _) ?_
  refine .bind readCrlf_reads ?_
  rw [hpayload]
  exact .seq (.exact rfl _) (.pure _) (List.append_nil _)

theorem encodeTrojanUdpPacket_ne_nil {target : ProxyTarget} {payload bytes : Bytes}
    (h : encodeTrojanUdpPacket target payload = .ok bytes) : bytes ≠ [] := by
  obtain ⟨_, -, h⟩ := Outcome.bind_ok.mp h
  obtain ⟨address, -, h⟩ := Outcome.bind_ok.mp h
  cases h
  simp

/-! ### Packets are small -/

theorem readCrlf_bounded : readCrlf.Bounded 2 fun _ => True :=
  (Fetch.Bounded.exact 2 _).bind (m := 0) fun _ _ => .lift fun _ _ => trivial

theorem readPort_bounded : readPort.Bounded 2 fun _ => True :=
  (Fetch.Bounded.exact 2 _).bind (m := 0) fun _ _ => .pure trivial

theorem readU8_bounded : readU8.Bounded 1 fun _ => True := by
  refine (Fetch.Bounded.exact 1 _).bind (m := 0) fun bytes _ => ?_
  split
  · exact .pure trivial
  · exact .lift fun _ _ => trivial

theorem readIp_bounded (length : ℕ) (message : String) :
    (readIp length message).Bounded (length + 2) fun _ => True := by
  refine (Fetch.Bounded.exact length message).bind fun bytes _ => ?_
  split
  · exact readPort_bounded.bind (m := 0) fun _ _ => .pure trivial
  · exact Fetch.Bounded.mono (.lift fun _ _ => trivial) (Nat.zero_le 2)

theorem readDomain_bounded : readDomain.Bounded 258 fun _ => True := by
  refine readU8_bounded.bind (m := 257) fun length _ => ?_
  have hlength : length.toNat ≤ 255 := Nat.le_of_lt_succ length.toNat_lt
  refine Fetch.Bounded.mono (n := length.toNat + 2) ?_ (by omega)
  refine (Fetch.Bounded.exact length.toNat _).bind fun host _ => ?_
  refine Fetch.Bounded.bind (n := 0) (m := 2) (Fetch.Bounded.lift (P := fun _ => True) fun _ _ => trivial)
    fun host _ => ?_
  exact readPort_bounded.bind (m := 0) fun _ _ => .pure trivial

theorem readTrojanAddressBody_bounded (atyp : UInt8) :
    (readTrojanAddressBody atyp).Bounded 258 fun _ => True := by
  unfold readTrojanAddressBody
  split
  · exact (readIp_bounded 4 _).mono (by omega)
  · split
    · exact (readIp_bounded 16 _).mono (by omega)
    · split
      · exact readDomain_bounded
      · exact Fetch.Bounded.mono (.lift fun _ _ => trivial) (Nat.zero_le 258)

theorem readTrojanAddressOrEof_bounded : readTrojanAddressOrEof.Bounded 259 fun _ => True := by
  refine ⟨by omega, fun _ _ => trivial, fun bytes hlen => ?_⟩
  match bytes, hlen with
  | [atyp], _ =>
    exact (readTrojanAddressBody_bounded atyp).bind (m := 0) fun _ _ => .pure trivial

theorem readTrojanUdpPacket_bounded : readTrojanUdpPacket.Bounded 65798 fun _ => True := by
  refine readTrojanAddressOrEof_bounded.bind (m := 65539) fun target _ => ?_
  cases target with
  | none => exact Fetch.Bounded.mono (.pure trivial) (Nat.zero_le _)
  | some target =>
    refine (Fetch.Bounded.exact 2 _).bind (m := 65537) fun length hlength => ?_
    refine readCrlf_bounded.bind (m := 65535) fun _ _ => ?_
    have hpayload : ofBe length < 256 ^ 2 := hlength ▸ ofBe_lt length
    refine Fetch.Bounded.mono (n := ofBe length + 0) ?_ (by omega)
    exact (Fetch.Bounded.exact _ _).bind fun _ _ => .pure trivial

end Aerion.Trojan
