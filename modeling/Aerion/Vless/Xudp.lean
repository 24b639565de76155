import Aerion.Lib.Fetch
import Aerion.Net.Octets
import Aerion.Vless.Mux

/-!
# XUDP on both sides

The client sends datagrams over a mux connection in a codec of its own
(`src/vless_xudp.rs`); at the server they are frames of one mux session
(`src/vless_mux.rs`). The two sides differ in when a payload length is
present: the server leaves it out of a frame without payload, and the client
reads one behind every metadata.
-/

namespace Aerion.Vless.Xudp

open Lib Net Mux

def networkTcp : UInt8 := 0x01
def networkUdp : UInt8 := 0x02
def atypIpv4 : UInt8 := 0x01
def atypDomain : UInt8 := 0x02
def atypIpv6 : UInt8 := 0x03
def maxMuxMetadata : ℕ := 4096
def maxMuxPayload : ℕ := 16 * 1024

/-! ### Destinations -/

def parseIp (message : String) (bytes : Bytes) (port : UInt16) (count : ℕ) :
    Outcome (ProxyTarget × ℕ) := do
  Outcome.ensure (3 + count ≤ bytes.length) message
  match IpAddr.ofOctets ((bytes.drop 3).take count) with
  | some ip => return (.ip ⟨ip, port⟩, 3 + count)
  | none => .panic

def parseDomain (name : String) (bytes : Bytes) (port : UInt16) : Outcome (ProxyTarget × ℕ) := do
  Outcome.ensure (4 ≤ bytes.length) ("short " ++ name ++ " domain destination")
  let len ← index bytes 3
  Outcome.ensure (4 + len.toNat ≤ bytes.length) ("short " ++ name ++ " domain destination")
  let host ← Outcome.need (fromUtf8 ((bytes.drop 4).take len.toNat)) ("decode " ++ name ++ " domain")
  return (.domain host port, 4 + len.toNat)

/-- A destination at the front of `bytes` and the number of bytes it takes. -/
def parseDestinationOf (missing name : String) (bytes : Bytes) : Outcome (ProxyTarget × ℕ) :=
  match bytes with
  | high :: low :: atyp :: _ =>
    let port := wordOf [high, low]
    if atyp = atypIpv4 then parseIp ("short " ++ name ++ " IPv4 destination") bytes port 4
    else if atyp = atypIpv6 then parseIp ("short " ++ name ++ " IPv6 destination") bytes port 16
    else if atyp = atypDomain then parseDomain name bytes port
    else .err ("unsupported " ++ name ++ " address type " ++ hexText atyp.toNat)
  | _ => .err missing

/-- `parse_destination` of the mux server. -/
def parseDestination : Bytes → Outcome (ProxyTarget × ℕ) :=
  parseDestinationOf "short VLESS mux destination" "VLESS mux"

def parseDestinationXudp : Bytes → Outcome (ProxyTarget × ℕ) :=
  parseDestinationOf "missing XUDP destination" "XUDP"

def destinationBytes : ProxyTarget → Bytes
  | .ip ⟨.v4 a b c d, port⟩ => toBe 2 port.toNat ++ [atypIpv4] ++ IpAddr.octets (.v4 a b c d)
  | .ip ⟨.v6 s0 s1 s2 s3 s4 s5 s6 s7, port⟩ =>
    toBe 2 port.toNat ++ [atypIpv6] ++ IpAddr.octets (.v6 s0 s1 s2 s3 s4 s5 s6 s7)
  | .domain host port =>
    toBe 2 port.toNat ++ [atypDomain, UInt8.ofNat (hostBytes host).length] ++ hostBytes host

def hostLength : ProxyTarget → ℕ
  | .ip _ => 0
  | .domain host _ => (hostBytes host).length

def writeDestinationXudp (destination : ProxyTarget) : Outcome Bytes := do
  Outcome.ensure (hostLength destination ≤ 255) "XUDP domain too long"
  return destinationBytes destination

/-! ### The client -/

structure ClientPacket where
  destination : ProxyTarget
  payload : Bytes
  deriving DecidableEq

def encodePacketParts (metadata payload : Bytes) : Outcome Bytes := do
  Outcome.ensure (metadata.length ≤ 65535) "XUDP metadata too large"
  Outcome.ensure (payload.length ≤ 65535) "XUDP payload too large"
  return toBe 2 metadata.length ++ metadata ++ toBe 2 payload.length ++ payload

def encodeClientPacket (destination : ProxyTarget) (payload : Bytes) (isNew : Bool)
    (globalId : Vector UInt8 8) : Outcome Bytes := do
  let written ← writeDestinationXudp destination
  let metadata := [0, 0, if isNew then statusNew else statusKeep, 0x01, networkUdp] ++ written ++
    if isNew then globalId.toList else []
  encodePacketParts metadata payload

def readLengthOrEof : Fetch (Option ℕ) :=
  .read 2 fun
    | some bytes => .done (.ok (some (ofBe bytes)))
    | none => .done (.ok none)

def readU16 (context : String) : Fetch ℕ := do
  let bytes ← Fetch.exact 2 context
  return ofBe bytes

/-- `decode_packet_parts`: the packet, or none at the end of the session, and the destination that
packets without one go to. -/
def decodePacketParts (metadata payload : Bytes) (current : Option ProxyTarget) :
    Outcome (Option ClientPacket × Option ProxyTarget) :=
  match metadata with
  | _ :: _ :: status :: _ :: tail =>
    if status = statusEnd then .ok (none, current)
    else do
      Outcome.ensure (status = statusNew ∨ status = statusKeep)
        ("unsupported XUDP status " ++ hexText status.toNat)
      match tail with
      | network :: bytes =>
        Outcome.ensure (network = networkUdp)
          ("unsupported XUDP network type " ++ toString network.toNat)
        let parsed ← parseDestinationXudp bytes
        let trailing := bytes.length - parsed.2
        if status = statusNew then
          Outcome.ensure (trailing = 8)
            ("XUDP NEW metadata must include 8-byte GlobalID, got " ++ toString trailing)
        else
          Outcome.ensure (trailing = 0)
            ("unsupported XUDP metadata tail length " ++ toString trailing)
        return (some ⟨parsed.1, payload⟩, some parsed.1)
      | [] =>
        let destination ← Outcome.need current "XUDP packet is missing destination metadata"
        return (some ⟨destination, payload⟩, current)
  | _ => .panic

def readPacket (current : Option ProxyTarget) : Fetch (Option ClientPacket × Option ProxyTarget) := do
  match ← readLengthOrEof with
  | none => return (none, current)
  | some metadataLen =>
    Outcome.ensure (4 ≤ metadataLen) ("short XUDP metadata length " ++ toString metadataLen)
    let metadata ← Fetch.exact metadataLen "read XUDP metadata"
    let payloadLen ← readU16 "read XUDP payload length"
    let payload ← Fetch.exact payloadLen "read XUDP payload"
    decodePacketParts metadata payload current

/-! ### The server -/

structure Frame where
  sessionId : UInt16
  status : UInt8
  hasData : Bool
  hasError : Bool
  target : Option FrameTarget
  payload : Bytes

def parseTarget (network : UInt8) (bytes : Bytes) : Outcome (FrameTarget × ℕ) := do
  let network ← if network = networkTcp then .ok .tcp
    else if network = networkUdp then .ok .udp
    else .err ("unsupported VLESS mux network type " ++ hexText network.toNat)
  let parsed ← parseDestination bytes
  return (⟨network, parsed.1⟩, parsed.2)

def frameTarget (status : UInt8) (tail : Bytes) : Outcome (Option FrameTarget) :=
  if status = statusNew then
    match tail with
    | [] => .err "VLESS mux new frame missing network"
    | network :: bytes => do
      let parsed ← parseTarget network bytes
      Outcome.ensure (bytes.length = parsed.2 ∨ parsed.1.network = .udp)
        "unsupported VLESS mux metadata tail"
      return some parsed.1
  else if status = statusKeep then
    match tail with
    | [] => .ok none
    | network :: bytes => do
      Outcome.ensure (network = networkUdp)
        ("unsupported VLESS mux keep metadata network " ++ toString network.toNat)
      let parsed ← parseTarget network bytes
      return some parsed.1
  else .ok none

def readPayload (hasData : Bool) : Fetch Bytes :=
  if hasData then do
    let payloadLen ← readU16 "read VLESS mux payload length"
    Outcome.ensure (payloadLen ≤ maxMuxPayload)
      ("VLESS mux payload length " ++ toString payloadLen ++ " exceeds " ++ toString maxMuxPayload)
    Fetch.exact payloadLen "read VLESS mux payload"
  else return []

def readFrame : Fetch (Option Frame) := do
  match ← readLengthOrEof with
  | none => return none
  | some metadataLen =>
    Outcome.ensure (4 ≤ metadataLen) ("short VLESS mux metadata length " ++ toString metadataLen)
    Outcome.ensure (metadataLen ≤ maxMuxMetadata)
      ("VLESS mux metadata length " ++ toString metadataLen ++ " exceeds " ++ toString maxMuxMetadata)
    let metadata ← Fetch.exact metadataLen "read VLESS mux metadata"
    match metadata with
    | high :: low :: status :: option :: tail =>
      let hasData := option &&& optionData != 0
      let hasError := option &&& optionError != 0
      let target ← frameTarget status tail
      let payload ← readPayload hasData
      return some ⟨wordOf [high, low], status, hasData, hasError, target, payload⟩
    | _ => (Outcome.panic : Outcome (Option Frame))

/-! ### Destinations are read back -/

theorem parseIp_octets {ip : IpAddr} {count : ℕ} (h : ip.octets.length = count) (message : String)
    (a b c : UInt8) (port : UInt16) (rest : Bytes) :
    parseIp message (a :: b :: c :: (ip.octets ++ rest)) port count = .ok (.ip ⟨ip, port⟩, 3 + count) := by
  have hlong : 3 + count ≤ (a :: b :: c :: (ip.octets ++ rest)).length := by
    simp only [List.length_cons, List.length_append]
    omega
  have htake : ((a :: b :: c :: (ip.octets ++ rest)).drop 3).take count = ip.octets := by
    rw [← h]
    exact List.take_left
  unfold parseIp
  rw [Outcome.ensure_pos (decide_eq_true hlong), Outcome.ok_bind, htake, IpAddr.ofOctets_octets]
  rfl

theorem parseDomain_host {host : String} (h : (hostBytes host).length ≤ 255) (name : String)
    (a b c : UInt8) (port : UInt16) (rest : Bytes) :
    parseDomain name (a :: b :: c :: UInt8.ofNat (hostBytes host).length :: (hostBytes host ++ rest)) port =
      .ok (.domain host port, 4 + (hostBytes host).length) := by
  have hlen : (UInt8.ofNat (hostBytes host).length).toNat = (hostBytes host).length := by
    rw [UInt8.toNat_ofNat']
    omega
  unfold parseDomain
  rw [Outcome.ensure_pos (by simp), Outcome.ok_bind]
  show (Outcome.ok (UInt8.ofNat (hostBytes host).length) >>= _) = _
  rw [Outcome.ok_bind, hlen, Outcome.ensure_pos (by simp; omega), Outcome.ok_bind]
  have htake : ((a :: b :: c :: UInt8.ofNat (hostBytes host).length ::
      (hostBytes host ++ rest)).drop 4).take (hostBytes host).length = hostBytes host := List.take_left
  rw [htake, fromUtf8_hostBytes]
  rfl

theorem parseDestinationOf_bytes {destination : ProxyTarget} (h : hostLength destination ≤ 255)
    (missing name : String) (rest : Bytes) :
    parseDestinationOf missing name (destinationBytes destination ++ rest) =
      .ok (destination, (destinationBytes destination).length) := by
  have hport : ∀ port : UInt16, ∃ high low, toBe 2 port.toNat = [high, low] ∧ wordOf [high, low] = port :=
    fun port => ⟨_, _, rfl, wordOf_toBe port⟩
  rcases destination with ⟨⟨a, b, c, d⟩ | ⟨s0, s1, s2, s3, s4, s5, s6, s7⟩, port⟩ | ⟨host, port⟩
  all_goals
    obtain ⟨high, low, hbytes, hword⟩ := hport port
    dsimp only [destinationBytes]
    rw [hbytes]
  · show parseIp _ (high :: low :: _ :: (IpAddr.octets (.v4 a b c d) ++ rest)) (wordOf [high, low]) 4 = _
    rw [hword, @parseIp_octets (.v4 a b c d) 4 rfl]
    rfl
  · show parseIp _ (high :: low :: _ :: (IpAddr.octets (.v6 s0 s1 s2 s3 s4 s5 s6 s7) ++ rest))
      (wordOf [high, low]) 16 = _
    rw [hword, @parseIp_octets (.v6 s0 s1 s2 s3 s4 s5 s6 s7) 16 rfl]
    rfl
  · show parseDomain name (high :: low :: _ :: _ :: (hostBytes host ++ rest)) (wordOf [high, low]) = _
    rw [hword, parseDomain_host h]
    simp only [List.cons_append, List.nil_append, List.length_cons]
    rw [Nat.add_comm]

theorem destinationBytes_length_le {destination : ProxyTarget} (h : hostLength destination ≤ 255) :
    (destinationBytes destination).length ≤ 259 := by
  rcases destination with ⟨⟨a, b, c, d⟩ | ⟨s0, s1, s2, s3, s4, s5, s6, s7⟩, port⟩ | ⟨host, port⟩
  · simp [destinationBytes, IpAddr.octets, toBe_length]
  · simp [destinationBytes, IpAddr.octets, toBe_length]
  · have hhost : (hostBytes host).length ≤ 255 := h
    simp only [destinationBytes, List.length_append, toBe_length, List.length_cons, List.length_nil]
    omega

theorem targetBytes_ip (source : SocketAddr) :
    ∃ tail, targetBytes (some ⟨.udp, .ip source⟩) = .ok tail ∧
      tail.1 = networkUdp :: destinationBytes (.ip source) := by
  rcases source with ⟨⟨a, b, c, d⟩ | ⟨s0, s1, s2, s3, s4, s5, s6, s7⟩, port⟩
  · exact ⟨_, rfl, rfl⟩
  · exact ⟨_, rfl, rfl⟩

/-! ### What the readers read -/

theorem readLengthOrEof_reads {n : ℕ} (h : n < 65536) : readLengthOrEof.Reads (toBe 2 n) (some n) := by
  have hof : ofBe (toBe 2 n) = n := ofBe_toBe (by omega)
  show Fetch.Progress.finished (Outcome.ok (some (ofBe (toBe 2 n)))) [] = _
  rw [hof]

theorem readU16_reads {n : ℕ} (h : n < 65536) (context : String) : (readU16 context).Reads (toBe 2 n) n := by
  have hof : ofBe (toBe 2 n) = n := ofBe_toBe (by omega)
  refine .seq (.exact (toBe_length 2 n) _) ?_ (List.append_nil _)
  rw [hof]
  exact .pure n

theorem readFrame_progress {high low status option : UInt8} {tail : Bytes} {target : Option FrameTarget}
    (hshort : tail.length ≤ 4092) (htarget : frameTarget status tail = .ok target) (rest : Bytes) :
    readFrame.progress (toBe 2 (tail.length + 4) ++ (high :: low :: status :: option :: tail ++ rest)) =
      (readPayload (option &&& optionData != 0) >>= fun payload =>
        pure (some ⟨wordOf [high, low], status, option &&& optionData != 0, option &&& optionError != 0,
          target, payload⟩) : Fetch (Option Frame)).progress rest := by
  have hmax : tail.length + 4 ≤ maxMuxMetadata := by
    unfold maxMuxMetadata
    omega
  refine (Fetch.Reads.progress_bind (readLengthOrEof_reads (by omega)) _).trans ?_
  refine (Fetch.progress_lift_bind (Outcome.ensure_pos (decide_eq_true (by omega))) _).trans ?_
  refine (Fetch.progress_lift_bind (Outcome.ensure_pos (decide_eq_true hmax)) _).trans ?_
  refine (Fetch.Reads.progress_bind (@Fetch.Reads.exact (high :: low :: status :: option :: tail) _ rfl _)
    _).trans ?_
  exact Fetch.progress_lift_bind htarget _

theorem readPayload_reads {payload : Bytes} (h : payload.length ≤ maxMuxPayload) :
    (readPayload true).Reads (toBe 2 payload.length ++ payload) payload := by
  have hmax : payload.length ≤ 16384 := h
  refine .bind (readU16_reads (by omega) _) ?_
  exact .seq (.lift (Outcome.ensure_pos (decide_eq_true h))) (.exact rfl _) rfl

theorem readPayload_long {payload : Bytes} (hfits : payload.length ≤ 65535)
    (h : ¬payload.length ≤ maxMuxPayload) (f : Bytes → Fetch (Option Frame)) (rest : Bytes) :
    (readPayload true >>= f).progress (toBe 2 payload.length ++ rest) =
      .finished (.err ("VLESS mux payload length " ++ toString payload.length ++ " exceeds " ++
        toString maxMuxPayload)) rest := by
  refine Fetch.progress_bind_err ((Fetch.Reads.progress_bind (readU16_reads (by omega) _) _).trans ?_)
  rw [Outcome.ensure_neg (by simpa using h)]
  rfl

theorem frameTarget_udp {status : UInt8} (hstatus : status = statusNew ∨ status = statusKeep)
    {destination : ProxyTarget} (h : hostLength destination ≤ 255) (rest : Bytes) :
    frameTarget status (networkUdp :: (destinationBytes destination ++ rest)) =
      .ok (some ⟨.udp, destination⟩) := by
  have hparse : parseTarget networkUdp (destinationBytes destination ++ rest) =
      .ok (⟨.udp, destination⟩, (destinationBytes destination).length) := by
    unfold parseTarget parseDestination
    rw [parseDestinationOf_bytes h]
    rfl
  rcases hstatus with rfl | rfl
  · show (parseTarget networkUdp (destinationBytes destination ++ rest) >>= _) = _
    rw [hparse, Outcome.ok_bind, Outcome.ensure_pos (by simp)]
    rfl
  · show (parseTarget networkUdp (destinationBytes destination ++ rest) >>= _) = _
    rw [hparse]
    rfl

/-! ### From the client to the server -/

/-- What the server should make of a packet of the client. -/
def clientFrame (destination : ProxyTarget) (payload : Bytes) (isNew : Bool) : Frame where
  sessionId := 0
  status := if isNew then statusNew else statusKeep
  hasData := true
  hasError := false
  target := some ⟨.udp, destination⟩
  payload := payload

theorem encodeClientPacket_ok {destination : ProxyTarget} {payload bytes : Bytes} {isNew : Bool}
    {globalId : Vector UInt8 8} (h : encodeClientPacket destination payload isNew globalId = .ok bytes) :
    hostLength destination ≤ 255 ∧ payload.length ≤ 65535 ∧
      ∃ tail, tail = networkUdp :: (destinationBytes destination ++ if isNew then globalId.toList else []) ∧
        bytes = toBe 2 (tail.length + 4) ++
          (0 :: 0 :: (if isNew then statusNew else statusKeep) :: 0x01 :: tail ++
            (toBe 2 payload.length ++ payload)) := by
  obtain ⟨written, hwritten, h⟩ := Outcome.bind_ok.mp h
  obtain ⟨_, hhost, hwritten⟩ := Outcome.bind_ok.mp hwritten
  cases hwritten
  obtain ⟨_, -, h⟩ := Outcome.bind_ok.mp h
  obtain ⟨_, hpayload, h⟩ := Outcome.bind_ok.mp h
  refine ⟨of_decide_eq_true (Outcome.ensure_ok.mp hhost), of_decide_eq_true (Outcome.ensure_ok.mp hpayload),
    _, rfl, ?_⟩
  cases h
  simp

theorem encodeClientPacket_succeeds {destination : ProxyTarget} {payload : Bytes}
    (hhost : hostLength destination ≤ 255) (hpayload : payload.length ≤ 65535) (isNew : Bool)
    (globalId : Vector UInt8 8) :
    ∃ bytes, encodeClientPacket destination payload isNew globalId = .ok bytes := by
  have hmetadata : ([0, 0, if isNew then statusNew else statusKeep, 0x01, networkUdp] ++
      destinationBytes destination ++ if isNew then globalId.toList else []).length ≤ 65535 := by
    have hdestination := destinationBytes_length_le hhost
    have hid : (if isNew then globalId.toList else []).length ≤ 8 := by cases isNew <;> simp
    simp only [List.length_append, List.length_cons, List.length_nil]
    omega
  unfold encodeClientPacket writeDestinationXudp encodePacketParts
  rw [Outcome.ensure_pos (decide_eq_true hhost)]
  simp only [Outcome.ok_bind, Outcome.pure_eq]
  rw [Outcome.ensure_pos (decide_eq_true hmetadata), Outcome.ensure_pos (decide_eq_true hpayload)]
  exact ⟨_, rfl⟩

theorem readFrame_client {destination : ProxyTarget} {payload bytes : Bytes} {isNew : Bool}
    {globalId : Vector UInt8 8} (h : encodeClientPacket destination payload isNew globalId = .ok bytes)
    (rest : Bytes) :
    readFrame.progress (bytes ++ rest) = if payload.length ≤ maxMuxPayload then
      .finished (.ok (some (clientFrame destination payload isNew))) rest
    else .finished (.err ("VLESS mux payload length " ++ toString payload.length ++ " exceeds " ++
        toString maxMuxPayload)) (payload ++ rest) := by
  obtain ⟨hhost, hpayload, tail, htail, hbytes⟩ := encodeClientPacket_ok h
  have hshort : tail.length ≤ 4092 := by
    have hdestination := destinationBytes_length_le hhost
    have hid : (if isNew then globalId.toList else []).length ≤ 8 := by cases isNew <;> simp
    rw [htail, List.length_cons, List.length_append]
    omega
  have htarget : frameTarget (if isNew then statusNew else statusKeep) tail = .ok (some ⟨.udp, destination⟩) := by
    rw [htail]
    exact frameTarget_udp (by cases isNew <;> simp) hhost _
  rw [hbytes, List.append_assoc, List.append_assoc, readFrame_progress hshort htarget]
  show (readPayload true >>= _).progress _ = _
  by_cases hle : payload.length ≤ maxMuxPayload
  · rw [if_pos hle]
    exact (Fetch.Reads.progress_bind (readPayload_reads hle) rest).trans rfl
  · rw [if_neg hle, List.append_assoc, readPayload_long hpayload hle]

/-! ### From the server to the client -/

/-- What the server writes on a UDP session: `relay_udp_to_client` a datagram, `write_end_frame` the
end. -/
inductive Emitted where
  | data (source : SocketAddr) (payload : Bytes)
  | finish (hasError : Bool)

def Emitted.frame (sessionId : UInt16) : Emitted → Outcome MuxFrame
  | .data source payload => encodeFrame sessionId statusKeep (some ⟨.udp, .ip source⟩) payload false
  | .finish hasError => encodeFrame sessionId statusEnd none [] hasError

def Emitted.packet : Emitted → Option ClientPacket
  | .data source payload => some ⟨.ip source, payload⟩
  | .finish _ => none

def Emitted.Carries : Emitted → Prop
  | .data _ payload => payload ≠ []
  | .finish _ => False

def readBody (metadata : Bytes) (current : Option ProxyTarget) :
    Fetch (Option ClientPacket × Option ProxyTarget) := do
  let payloadLen ← readU16 "read XUDP payload length"
  let payload ← Fetch.exact payloadLen "read XUDP payload"
  decodePacketParts metadata payload current

theorem readPacket_progress {metadata : Bytes} (hlong : 4 ≤ metadata.length)
    (hshort : metadata.length < 65536) (current : Option ProxyTarget) (rest : Bytes) :
    (readPacket current).progress (toBe 2 metadata.length ++ (metadata ++ rest)) =
      (readBody metadata current).progress rest := by
  refine (Fetch.Reads.progress_bind (readLengthOrEof_reads hshort) _).trans ?_
  refine (Fetch.progress_lift_bind (Outcome.ensure_pos (decide_eq_true hlong)) _).trans ?_
  exact Fetch.Reads.progress_bind (@Fetch.Reads.exact metadata _ rfl _) _

theorem decodePacketParts_data (high low option : UInt8) (source : SocketAddr) (payload : Bytes)
    (current : Option ProxyTarget) :
    decodePacketParts (high :: low :: statusKeep :: option :: networkUdp :: destinationBytes (.ip source))
      payload current = .ok (some ⟨.ip source, payload⟩, some (.ip source)) := by
  have hparse : parseDestinationXudp (destinationBytes (.ip source)) =
      .ok (.ip source, (destinationBytes (.ip source)).length) := by
    have hbytes := @parseDestinationOf_bytes (.ip source) (Nat.zero_le _) "missing XUDP destination" "XUDP" []
    rwa [List.append_nil] at hbytes
  show (parseDestinationXudp (destinationBytes (.ip source)) >>= _) = _
  rw [hparse, Outcome.ok_bind, Nat.sub_self]
  rfl

theorem encodeFrame_metadata {sessionId : UInt16} {status : UInt8} {target : Option FrameTarget}
    {payload : Bytes} {hasError : Bool} {f : MuxFrame}
    (h : encodeFrame sessionId status target payload hasError = .ok f) :
    payload.length ≤ 65535 ∧ f.payload = payload ∧ ∃ tail, targetBytes target = .ok tail ∧
      f.metadata = toBe 2 sessionId.toNat ++ [status, frameOption payload hasError] ++ tail.1 := by
  unfold encodeFrame at h
  split at h
  · rename_i hfits
    obtain ⟨tail, htail, h⟩ := Outcome.bind_ok.mp h
    cases h
    exact ⟨hfits, rfl, tail, htail, rfl⟩
  · cases h

theorem MuxFrame.bytes_append (f : MuxFrame) (rest : Bytes) :
    f.bytes ++ rest = toBe 2 f.metadata.length ++ (f.metadata ++
      ((if f.payload = [] then [] else toBe 2 f.payload.length ++ f.payload) ++ rest)) := by
  simp [RawFrame.bytes]

theorem readPacket_frame (f : MuxFrame) (current : Option ProxyTarget) (rest : Bytes) :
    (readPacket current).progress (f.bytes ++ rest) = (readBody f.metadata current).progress
      ((if f.payload = [] then [] else toBe 2 f.payload.length ++ f.payload) ++ rest) := by
  rw [MuxFrame.bytes_append]
  exact readPacket_progress f.wellFormed.long f.wellFormed.short current _

theorem readPacket_data {sessionId : UInt16} {source : SocketAddr} {payload : Bytes} {f : MuxFrame}
    (h : Emitted.frame sessionId (.data source payload) = .ok f) (hpayload : payload ≠ [])
    (current : Option ProxyTarget) (rest : Bytes) :
    (readPacket current).progress (f.bytes ++ rest) =
      .finished (.ok (some ⟨.ip source, payload⟩, some (.ip source))) rest := by
  obtain ⟨hfits, hf, tail, htail, hmetadata⟩ := encodeFrame_metadata h
  obtain ⟨tail', htail', hbytes⟩ := targetBytes_ip source
  cases htail.symm.trans htail'
  have hbody : (readBody f.metadata current).Reads (toBe 2 payload.length ++ payload)
      (some ⟨.ip source, payload⟩, some (.ip source)) := by
    refine .bind (readU16_reads (by omega) _) ?_
    refine .seq (.exact rfl _) (.lift ?_) (List.append_nil _)
    rw [hmetadata, hbytes]
    exact decodePacketParts_data _ _ _ source payload current
  rw [readPacket_frame, hf, if_neg hpayload]
  exact hbody.progress rest

theorem readPacket_empty {f : MuxFrame} (h : f.payload = []) (current : Option ProxyTarget)
    {r : Outcome (Option ClientPacket × Option ProxyTarget)} (rest : Bytes) :
    (readPacket current).progress (f.bytes ++ rest) ≠ .finished r rest := by
  rw [readPacket_frame, if_pos h, List.nil_append]
  exact Fetch.progress_read_ne (Nat.two_pos)

theorem Emitted.payload_of_not_carries {sessionId : UInt16} {e : Emitted} {f : MuxFrame}
    (h : e.frame sessionId = .ok f) (he : ¬e.Carries) : f.payload = [] := by
  cases e with
  | data source payload => exact (encodeFrame_metadata h).2.1.trans (not_not.mp he)
  | finish hasError => exact (encodeFrame_metadata h).2.1

/-- The two codecs agree on the packets of the client within the server's payload limit and on the
datagrams of the server that are not empty, and on nothing else. -/
theorem codecs_agree_iff (rest : Bytes) :
    (∀ destination payload isNew globalId bytes,
      encodeClientPacket destination payload isNew globalId = .ok bytes →
      (readFrame.progress (bytes ++ rest) =
          .finished (.ok (some (clientFrame destination payload isNew))) rest ↔
        payload.length ≤ maxMuxPayload)) ∧
    ∀ (sessionId : UInt16) (e : Emitted) (f : MuxFrame) (current : Option ProxyTarget),
      e.frame sessionId = .ok f →
      ((∃ next, (readPacket current).progress (f.bytes ++ rest) =
          .finished (.ok (e.packet, next)) rest) ↔ e.Carries) := by
  constructor
  · intro destination payload isNew globalId bytes h
    rw [readFrame_client h]
    by_cases hle : payload.length ≤ maxMuxPayload
    · rw [if_pos hle]
      exact ⟨fun _ => hle, fun _ => rfl⟩
    · rw [if_neg hle]
      exact ⟨nofun, fun hle' => absurd hle' hle⟩
  · intro sessionId e f current h
    constructor
    · rintro ⟨next, hread⟩
      by_contra hcarries
      exact readPacket_empty (Emitted.payload_of_not_carries h hcarries) current rest hread
    · intro hcarries
      cases e with
      | data source payload => exact ⟨_, readPacket_data h hcarries current rest⟩
      | finish hasError => exact hcarries.elim

theorem datagrams_understood :
    (∃ bytes, encodeClientPacket (.ip ⟨.v4 1 2 3 4, 53⟩) [] true (Vector.replicate 8 0) = .ok bytes ∧
      readFrame.progress (bytes ++ []) =
        .finished (.ok (some (clientFrame (.ip ⟨.v4 1 2 3 4, 53⟩) [] true))) []) ∧
    ∃ f next, (Emitted.data ⟨.v4 1 2 3 4, 53⟩ [7]).frame 0 = .ok f ∧
      (readPacket none).progress (f.bytes ++ [9]) =
        .finished (.ok (some ⟨.ip ⟨.v4 1 2 3 4, 53⟩, [7]⟩, next)) [9] := by
  refine ⟨⟨_, rfl, ((codecs_agree_iff []).1 _ _ _ (Vector.replicate 8 0) _ rfl).mpr (by decide)⟩, ?_⟩
  obtain ⟨next, hnext⟩ := ((codecs_agree_iff [9]).2 0 (.data ⟨.v4 1 2 3 4, 53⟩ [7]) _ none rfl).mpr (by
    exact List.cons_ne_nil 7 [])
  exact ⟨_, next, rfl, hnext⟩

/-- A payload one byte past the server's limit is refused. An end frame at the end of the stream is an
error to the client, and behind an empty datagram it takes the next frame's metadata for a payload. -/
theorem codecs_disagree :
    (∃ bytes, encodeClientPacket (.ip ⟨.v4 1 2 3 4, 53⟩) (List.replicate 16385 0) true
        (Vector.replicate 8 0) = .ok bytes ∧
      readFrame.progress (bytes ++ []) =
        .finished (.err "VLESS mux payload length 16385 exceeds 16384") (List.replicate 16385 0 ++ [])) ∧
    (∃ f, (Emitted.finish false).frame 0 = .ok f ∧
      (readPacket none).atEnd f.bytes = .err "read XUDP payload length") ∧
    ∃ f f', (Emitted.data ⟨.v4 1 2 3 4, 53⟩ []).frame 0 = .ok f ∧
      (Emitted.data ⟨.v4 1 2 3 4, 53⟩ [7]).frame 0 = .ok f' ∧
      (readPacket none).progress (f.bytes ++ f'.bytes) =
        .finished (.ok (some ⟨.ip ⟨.v4 1 2 3 4, 53⟩, f'.metadata⟩, some (.ip ⟨.v4 1 2 3 4, 53⟩)))
          [0, 1, 7] := by
  refine ⟨?_, ⟨_, rfl, by decide +kernel⟩, ⟨_, _, rfl, rfl, by decide +kernel⟩⟩
  have hlong : ¬(List.replicate 16385 (0 : UInt8)).length ≤ maxMuxPayload := by
    rw [List.length_replicate]
    decide
  obtain ⟨bytes, hbytes⟩ := @encodeClientPacket_succeeds (.ip ⟨.v4 1 2 3 4, 53⟩) (List.replicate 16385 0)
    (by decide) (by rw [List.length_replicate]; decide) true (Vector.replicate 8 0)
  refine ⟨bytes, hbytes, ?_⟩
  rw [readFrame_client hbytes, if_neg hlong, List.length_replicate]
  rfl

end Aerion.Vless.Xudp
