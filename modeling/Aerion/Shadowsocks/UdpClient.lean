import Aerion.Lib.FinMap
import Aerion.Lib.Steps
import Aerion.Uot.Codec

/-!
# UDP associations of a Shadowsocks client

`handle_shadowsocks_udp_associate` (`src/shadowsocks.rs`) sends the datagrams
of its local peers to the server, and remembers for each target the peer that
sent to it last. A response carries the address it came from, and is handed
to the peer that is remembered for this address.
-/

namespace Aerion.Shadowsocks.UdpClient

open Aerion.Net Aerion.Uot Lib Outcome

inductive ShadowsocksAddress where
  | socketAddress (addr : SocketAddr)
  | domainNameAddress (host : String) (port : UInt16)
  deriving DecidableEq, Repr

def shadowsocksAddress : ProxyTarget → ShadowsocksAddress
  | .ip addr => .socketAddress (canonicalizeSocketAddr addr)
  | .domain host port => .domainNameAddress host port

def canonicalizeSsAddress : ShadowsocksAddress → ShadowsocksAddress
  | .socketAddress addr => .socketAddress (canonicalizeSocketAddr addr)
  | other => other

def proxyTarget : ShadowsocksAddress → ProxyTarget
  | .socketAddress addr => .ip addr
  | .domainNameAddress host port => .domain host port

/-- `Display for Address` and `Display for SocketAddr`. -/
def addressText : ShadowsocksAddress → String
  | .socketAddress ⟨.v4 a b c d, port⟩ => s!"{IpAddr.toText (.v4 a b c d)}:{port}"
  | .socketAddress ⟨ip, port⟩ => s!"[{ip.toText}]:{port}"
  | .domainNameAddress host port => s!"{host}:{port}"

/-! ### The client -/

/-- What an association remembers, and what it sent to the server and to its local peers. -/
structure Client where
  peers : Map ShadowsocksAddress SocketAddr
  sent : List (ShadowsocksAddress × Bytes)
  delivered : List (SocketAddr × Bytes)

def Client.new : Client := { peers := ∅, sent := [], delivered := [] }

def Client.receiveLocal (c : Client) (peer : SocketAddr) (packet : Bytes) : Outcome Client := do
  let (target, payload) ← parseSocksUdpPacket packet
  let target := shadowsocksAddress target
  return { c with
    sent := c.sent ++ [(target, payload)]
    peers := c.peers.insert (canonicalizeSsAddress target) peer }

def Client.receiveRemote (c : Client) (target : ShadowsocksAddress) (payload : Bytes) : Outcome Client := do
  let target := canonicalizeSsAddress target
  let peer ← need (c.peers.lookup target) ("SOCKS UDP peer for " ++ addressText target ++ " is not known")
  let packet ← encodeSocksUdpPacket (proxyTarget target) payload
  return { c with delivered := c.delivered ++ [(peer, packet)] }

/-! ### The two ends -/

/-- `resolve_shadowsocks_address` at the server, for what the resolver finds. -/
def resolveShadowsocksAddress (found : Option SocketAddr) : ShadowsocksAddress → Option SocketAddr
  | .socketAddress addr => some addr
  | .domainNameAddress .. => found

/-- The address that `relay_shadowsocks_udp_responses` puts into a response. -/
def relayedSource (source : SocketAddr) : ShadowsocksAddress := canonicalizeSsAddress (.socketAddress source)

/-- A datagram that went to the server, and where the server sent it. -/
structure Datagram where
  peer : SocketAddr
  target : ShadowsocksAddress
  destination : Option SocketAddr
  deriving DecidableEq, Repr

def Datagram.to (peer : SocketAddr) (target : ShadowsocksAddress) (found : Option SocketAddr) : Datagram where
  peer := peer
  target := target
  destination := resolveShadowsocksAddress found target

structure Ends where
  client : Client
  log : List Datagram

def Ends.new : Ends := { client := .new, log := [] }

/-- A packet of a local peer, with what the server's resolver finds for its domain, and a packet that the server's
socket receives and relays. -/
inductive Event where
  | datagram (peer : SocketAddr) (packet : Bytes) (found : Option SocketAddr)
  | response (source : SocketAddr) (payload : Bytes)

def Ends.handle (s : Ends) : Event → Outcome Ends
  | .datagram peer packet found => do
    let client ← s.client.receiveLocal peer packet
    let (target, _) ← parseSocksUdpPacket packet
    return { client, log := s.log ++ [.to peer (shadowsocksAddress target) found] }
  | .response source payload => do
    let client ← s.client.receiveRemote (relayedSource source) payload
    return { s with client }

def step (s : Ends) (l : Event) : Option Ends :=
  match s.handle l with
  | .ok s' => some s'
  | _ => none

/-- The peer that sent the last datagram to an address. -/
def Ends.lastTo (s : Ends) (source : SocketAddr) : Option SocketAddr :=
  (s.log.reverse.find? fun d => d.target = .socketAddress (canonicalizeSocketAddr source)).map Datagram.peer

/-- A packet from this address answers the datagram: it comes from where the server sent the datagram. The server's
socket reports a mapped address for a destination of the fourth version. -/
def Answers (source : SocketAddr) (d : Datagram) : Prop :=
  d.destination.map canonicalizeSocketAddr = some (canonicalizeSocketAddr source)

/-! ### What the association remembers -/

theorem canonicalize_idem (addr : SocketAddr) :
    canonicalizeSocketAddr (canonicalizeSocketAddr addr) = canonicalizeSocketAddr addr := by
  cases hip : addr.ip.toIpv4Mapped with
  | none =>
    have hsame : canonicalizeSocketAddr addr = addr := by rw [canonicalizeSocketAddr, hip]
    rw [hsame, hsame]
  | some ip =>
    -- A mapped address is one of the fourth version, which is not mapped itself.
    have hnone : ip.toIpv4Mapped = none := by
      unfold IpAddr.toIpv4Mapped at hip
      split at hip
      · cases hip
        rfl
      · cases hip
    have hmapped : canonicalizeSocketAddr addr = { addr with ip } := by rw [canonicalizeSocketAddr, hip]
    rw [hmapped, canonicalizeSocketAddr]
    dsimp only
    rw [hnone]

/-- The addresses in the log are canonical, and the table holds the last peer of each. -/
structure Remembers (s : Ends) : Prop where
  canonical : ∀ d ∈ s.log, canonicalizeSsAddress d.target = d.target
  peers : ∀ target, s.client.peers.lookup target =
    (s.log.reverse.find? fun d => d.target = target).map Datagram.peer

theorem canonicalize_shadowsocksAddress (target : ProxyTarget) :
    canonicalizeSsAddress (shadowsocksAddress target) = shadowsocksAddress target := by
  cases target with
  | ip addr => exact congrArg ShadowsocksAddress.socketAddress (canonicalize_idem addr)
  | domain host port => rfl

theorem handle_cases {s s' : Ends} {l : Event} (h : s.handle l = .ok s') :
    (∃ peer packet found target payload, l = .datagram peer packet found ∧
      parseSocksUdpPacket packet = .ok (target, payload) ∧
      s'.client.peers = s.client.peers.insert (shadowsocksAddress target) peer ∧
      s'.log = s.log ++ [.to peer (shadowsocksAddress target) found]) ∨
    ∃ source payload, l = .response source payload ∧ s'.client.peers = s.client.peers ∧ s'.log = s.log := by
  cases l with
  | datagram peer packet found =>
    obtain ⟨client, hclient, h⟩ := bind_ok.mp h
    obtain ⟨⟨target, payload⟩, hparse, h⟩ := bind_ok.mp h
    obtain ⟨⟨target', payload'⟩, hparse', hsent⟩ := bind_ok.mp hclient
    rw [hparse] at hparse'
    cases hparse'
    cases hsent
    cases h
    refine .inl ⟨peer, packet, found, target, payload, rfl, hparse, ?_, rfl⟩
    rw [canonicalize_shadowsocksAddress]
  | response source payload =>
    obtain ⟨client, hclient, h⟩ := bind_ok.mp h
    obtain ⟨peer, -, hclient⟩ := bind_ok.mp hclient
    obtain ⟨packet, -, hdelivered⟩ := bind_ok.mp hclient
    cases hdelivered
    cases h
    exact .inr ⟨source, payload, rfl, rfl, rfl⟩

theorem remembers_new : Remembers .new := ⟨nofun, fun _ => rfl⟩

theorem Remembers.preserved {s s' : Ends} {l : Event} (h : Remembers s) (hstep : step s l = some s') :
    Remembers s' := by
  have hok : s.handle l = .ok s' := by
    unfold step at hstep
    split at hstep
    · rename_i heq
      rw [heq, Option.some.inj hstep]
    · cases hstep
  rcases handle_cases hok with ⟨peer, packet, found, target, payload, -, -, hpeers, hlog⟩ | ⟨_, _, -, hpeers, hlog⟩
  · refine ⟨fun d hd => ?_, fun other => ?_⟩
    · rw [hlog] at hd
      rcases List.mem_append.mp hd with hd | hd
      · exact h.canonical d hd
      · rw [List.mem_singleton.mp hd]
        exact canonicalize_shadowsocksAddress target
    · rw [hpeers, hlog, lookup_insert_ite, List.reverse_append, List.reverse_singleton, List.singleton_append,
        h.peers]
      split
      · rename_i hother
        rw [List.find?_cons_of_pos (by simp [Datagram.to, hother])]
        rfl
      · rename_i hother
        rw [List.find?_cons_of_neg fun heq => hother (of_decide_eq_true heq).symm]
  · exact ⟨by rw [hlog]; exact h.canonical, by rw [hpeers, hlog]; exact h.peers⟩

theorem Remembers.lookup {s : Ends} (h : Remembers s) (source : SocketAddr) :
    s.client.peers.lookup (relayedSource source) = s.lastTo source := h.peers _

/-! ### Responses -/

theorem relayedSource_canonical (source : SocketAddr) :
    canonicalizeSsAddress (relayedSource source) = relayedSource source :=
  congrArg ShadowsocksAddress.socketAddress (canonicalize_idem source)

def responsePacket (source : SocketAddr) (payload : Bytes) : Bytes :=
  [0, 0, 0] ++ targetBytes (canonicalTarget (.ip (canonicalizeSocketAddr source))) ++ payload

theorem Remembers.response {s : Ends} (h : Remembers s) (source : SocketAddr) (payload : Bytes) :
    s.handle (.response source payload) =
      match s.lastTo source with
      | some peer => .ok { s with client := { s.client with
          delivered := s.client.delivered ++ [(peer, responsePacket source payload)] } }
      | none => .err ("SOCKS UDP peer for " ++ addressText (relayedSource source) ++ " is not known") := by
  have hencode : encodeSocksUdpPacket (proxyTarget (relayedSource source)) payload =
      .ok (responsePacket source payload) := by
    have hlength : hostLength (.ip (canonicalizeSocketAddr source)) ≤ 255 := Nat.zero_le _
    unfold encodeSocksUdpPacket
    rw [show proxyTarget (relayedSource source) = .ip (canonicalizeSocketAddr source) from rfl,
      encodeTarget_eq hlength]
    rfl
  unfold Ends.handle Client.receiveRemote
  dsimp only
  rw [relayedSource_canonical, h.lookup]
  cases s.lastTo source with
  | none => rfl
  | some peer =>
    dsimp only [need, bind, Outcome.bind]
    rw [hencode]
    rfl

/-- In every state of an association, and for a packet from any address: the packet is handed to the
peer whose datagram it answers exactly when the last datagram to the address it comes from was sent
by that peer, and it ends the association exactly when no datagram was sent to that address. -/
theorem response_delivered_iff {ls : List Event} {s : Ends} (hrun : Steps step always .new ls s)
    (source : SocketAddr)
    (payload : Bytes) :
    (∀ d ∈ s.log, Answers source d →
      (s.handle (.response source payload) = .ok { s with client := { s.client with
          delivered := s.client.delivered ++ [(d.peer, responsePacket source payload)] } } ↔
        s.lastTo source = some d.peer)) ∧
    ((∃ s', s.handle (.response source payload) = .ok s') ↔
      ∃ d ∈ s.log, d.target = .socketAddress (canonicalizeSocketAddr source)) := by
  have hremembers : Remembers s :=
    hrun.invariant Remembers (fun _ _ _ h _ hstep => h.preserved hstep) remembers_new
  rw [hremembers.response]
  constructor
  · intro d hd _
    cases s.lastTo source with
    | none => simp
    | some peer => simp
  · have hsome : (∃ peer, s.lastTo source = some peer) ↔
        ∃ d ∈ s.log, d.target = .socketAddress (canonicalizeSocketAddr source) := by
      rw [← Option.isSome_iff_exists, Ends.lastTo, Option.isSome_map, List.find?_isSome]
      simp
    rw [← hsome]
    cases s.lastTo source with
    | none => simp
    | some peer => simp

/-! ### Domains -/

def localPeer : SocketAddr := { ip := .v4 127 0 0 1, port := 4000 }

def nameServer : SocketAddr := { ip := .v4 192 0 2 1, port := 53 }

/-- A SOCKS packet to `ns.test` at port 53, and one to the address of the name server. -/
def domainPacket : Bytes := [0, 0, 0, 3, 7, 110, 115, 46, 116, 101, 115, 116, 0, 53, 1]

def addressPacket : Bytes := [0, 0, 0, 1, 192, 0, 2, 1, 0, 53, 1]

instance (source : SocketAddr) (d : Datagram) : Decidable (Answers source d) :=
  inferInstanceAs (Decidable (_ = _))

/-- The answer to a datagram that names its target by a domain ends the association. -/
theorem domain_answer_ends :
    ∃ s d, Steps step always .new [.datagram localPeer domainPacket (some nameServer)] s ∧ d ∈ s.log ∧
      Answers nameServer d ∧ ∀ s', s.handle (.response nameServer [2]) ≠ .ok s' := by
  obtain ⟨s, hrun, hs⟩ := steps_of_replay (s := Ends.new) (p := fun s =>
    decide (∃ d ∈ s.log, Answers nameServer d) && (step s (.response nameServer [2])).isNone)
    (show (replay step Ends.new [.datagram localPeer domainPacket (some nameServer)]).any _ = true
      by decide +kernel)
  obtain ⟨hanswers, hends⟩ := Bool.and_eq_true_iff.mp hs
  obtain ⟨d, hd, hanswers⟩ := of_decide_eq_true hanswers
  refine ⟨s, d, hrun, hd, hanswers, fun s' hok => ?_⟩
  rw [step, hok] at hends
  cases hends

theorem address_answer_delivered :
    ∃ s, Steps step always .new [.datagram localPeer addressPacket none] s ∧
      s.handle (.response nameServer [2]) = .ok { s with client := { s.client with
        delivered := s.client.delivered ++ [(localPeer, responsePacket nameServer [2])] } } := by
  obtain ⟨s, hrun, hs⟩ := steps_of_replay (s := Ends.new) (p := fun s =>
    decide (s.lastTo nameServer = some localPeer ∧ ∃ d ∈ s.log, d.peer = localPeer ∧ Answers nameServer d))
    (show (replay step Ends.new [.datagram localPeer addressPacket none]).any _ = true by decide +kernel)
  obtain ⟨hlast, d, hd, hpeer, hanswers⟩ := of_decide_eq_true hs
  refine ⟨s, hrun, ?_⟩
  have hiff := (response_delivered_iff hrun nameServer [2]).1 d hd hanswers
  rw [hpeer] at hiff
  exact hiff.mpr hlast

end Aerion.Shadowsocks.UdpClient
