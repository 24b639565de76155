import Mathlib.Data.List.Forall2
import Aerion.Lib.Steps
import Aerion.Trojan.Protocol
import Aerion.Uot.Packets

/-!
# The downlink of a UDP association

`trojan_to_udp` of `src/trojan.rs`: packets that come back from the server
are sent to the local peer, while the other direction posts the peer of each
local datagram on a channel. The loop selects between the channel and the
read of a packet. Where the channel wins, the read is dropped, and with it the
bytes it has consumed.

The session's accounting and the local socket are taken to succeed.
-/

namespace Aerion.Trojan

open Lib Net Uot

/-- The loop, between two of its polls: what of the server's stream is still under way, what has
arrived, and what the current read has taken of it; the peers on the channel; and what was sent to
the local side. -/
structure Downlink where
  coming : Bytes
  arrived : Bytes
  got : Bytes
  channel : List SocketAddr
  peer : Option SocketAddr
  delivered : List (SocketAddr × Bytes)
  ended : Option (Outcome Unit)
  deriving DecidableEq

def Downlink.start (stream : Bytes) : Downlink := ⟨stream, [], [], [], none, [], none⟩

inductive Event where
  | arrive (n : ℕ)
  | datagram (peer : SocketAddr)
  | nextPeer
  | read (n : ℕ)
  | close
  deriving DecidableEq

namespace Downlink

def forward (s : Downlink) (packet : TrojanUdpPacket) : Downlink :=
  match encodeSocksUdpPacket packet.target packet.payload, s.peer with
  | .ok response, some peer => { s with delivered := s.delivered ++ [(peer, response)] }
  | .ok _, none => { s with ended := some (.err "SOCKS UDP peer is not known yet") }
  | .err e, _ => { s with ended := some (.err e) }
  | .panic, _ => { s with ended := some .panic }

/-- What a finished read leads to; the next turn of the loop starts a new one. -/
def finish (s : Downlink) : Outcome (Option TrojanUdpPacket) → Downlink
  | .ok (some packet) => { s with got := [] }.forward packet
  | .ok none => { s with ended := some (.ok ()) }
  | .err e => { s with ended := some (.err e) }
  | .panic => { s with ended := some .panic }

/-- A poll of the transport hands `n` bytes to the read. -/
def poll (s : Downlink) (n : ℕ) : Downlink :=
  let s := { s with arrived := s.arrived.drop n, got := s.got ++ s.arrived.take n }
  match readTrojanUdpPacket.progress s.got with
  | .waiting _ => s
  | .finished r _ => s.finish r

def wanted (s : Downlink) : ℕ :=
  match readTrojanUdpPacket.progress s.got with
  | .waiting n => n
  | .finished _ _ => 0

def step (s : Downlink) (e : Event) : Option Downlink :=
  if s.ended ≠ none then none
  else
    match e with
    | .arrive n =>
      if n ≤ s.coming.length then
        some { s with coming := s.coming.drop n, arrived := s.arrived ++ s.coming.take n }
      else none
    | .datagram peer =>
      -- `try_send`: a peer that finds the channel full is dropped
      if s.channel.length < 8 then some { s with channel := s.channel ++ [peer] } else some s
    | .nextPeer =>
      match s.channel with
      | [] => none
      -- the future of the read goes, and with it what it holds
      | peer :: channel => some { s with channel := channel, peer := some peer, got := [] }
    | .read n =>
      if 0 < n ∧ n ≤ s.wanted ∧ n ≤ s.arrived.length then some (s.poll n) else none
    | .close =>
      if s.coming = [] ∧ s.arrived = [] then some (s.finish (readTrojanUdpPacket.atEnd s.got)) else none

end Downlink

/-- The channel is taken from between two packets only, and nothing is read before a peer is
known. -/
def Undisturbed (s : Downlink) : Event → Prop
  | .nextPeer => s.got = []
  | .read _ => s.peer ≠ none
  | _ => True

instance (s : Downlink) : (e : Event) → Decidable (Undisturbed s e)
  | .nextPeer => inferInstanceAs (Decidable (s.got = []))
  | .read _ => inferInstanceAs (Decidable (s.peer ≠ none))
  | .arrive _ => .isTrue trivial
  | .datagram _ => .isTrue trivial
  | .close => .isTrue trivial

/-! ### The invariant -/

/-- A packet that a server can send, with its bytes on the wire. -/
structure Transit where
  packet : TrojanUdpPacket
  wire : Bytes
  encoded : encodeTrojanUdpPacket packet.target packet.payload = .ok wire

/-- What was delivered are the first packets, and the rest of the stream is the rest of them; the
current read holds a part of the next. -/
structure Faithful (sent : List Transit) (s : Downlink) : Prop where
  running : s.ended = none ∨ s.ended = some (.ok ()) ∧ s.coming = [] ∧ s.arrived = []
  split : ∃ done rest, sent = done ++ rest ∧
    List.Forall₂ (fun t d => encodeSocksUdpPacket t.packet.target t.packet.payload = .ok d.2)
      done s.delivered ∧
    s.got ++ s.arrived ++ s.coming = (rest.map Transit.wire).flatten ∧
    ∀ t ∈ rest.head?, s.got.length < t.wire.length

theorem Transit.forwards (t : Transit) :
    ∃ response, encodeSocksUdpPacket t.packet.target t.packet.payload = .ok response := by
  obtain ⟨_, -, h⟩ := Outcome.bind_ok.mp t.encoded
  obtain ⟨_, haddress, -⟩ := Outcome.bind_ok.mp h
  obtain ⟨address, htarget⟩ : ∃ address, encodeTarget t.packet.target = .ok address := by
    cases htarget : t.packet.target with
    | ip addr =>
      simp only [encodeTarget]
      split
      · exact ⟨_, rfl⟩
      · exact ⟨_, rfl⟩
    | domain host port =>
      rw [htarget] at haddress
      obtain ⟨_, hlen, -⟩ := Outcome.bind_ok.mp haddress
      exact ⟨_, Outcome.bind_ok.mpr ⟨(), Outcome.ensure_pos (Outcome.ensure_ok.mp hlen), rfl⟩⟩
  exact ⟨_, Outcome.bind_ok.mpr ⟨address, htarget, rfl⟩⟩

theorem next_packet {got stream wire rest : Bytes} (hshort : got.length < wire.length)
    (h : got ++ stream = wire ++ rest) :
    ∃ missing, wire = got ++ missing ∧ missing ≠ [] ∧ stream = missing ++ rest := by
  rcases List.append_eq_append_iff.mp h with ⟨missing, hwire, hstream⟩ | ⟨more, hgot, -⟩
  · refine ⟨missing, hwire, ?_, hstream⟩
    rintro rfl
    rw [hwire, List.append_nil] at hshort
    exact lt_irrefl _ hshort
  · rw [hgot, List.length_append] at hshort
    omega

theorem Faithful.poll {sent : List Transit} {s : Downlink} {n : ℕ} (h : Faithful sent s)
    (hended : s.ended = none) (hpeer : s.peer ≠ none) (hpos : 0 < n) (hwanted : n ≤ s.wanted)
    (harrived : n ≤ s.arrived.length) : Faithful sent (s.poll n) := by
  obtain ⟨done, rest, hsent, hdone, hstream, hgot⟩ := h.split
  cases rest with
  | nil =>
    -- nothing is left to read
    have hnil : s.arrived = [] := by
      rw [List.map_nil, List.flatten_nil, List.append_assoc] at hstream
      exact (List.append_eq_nil_iff.mp (List.append_eq_nil_iff.mp hstream).2).1
    rw [hnil, List.length_nil] at harrived
    omega
  | cons t rest =>
    have hshort : s.got.length < t.wire.length := hgot t rfl
    obtain ⟨missing, hwire, hmissing, hrest⟩ := next_packet hshort
      (show s.got ++ (s.arrived ++ s.coming) = t.wire ++ (rest.map Transit.wire).flatten by
        rw [← List.append_assoc]
        exact hstream)
    have hreads := readTrojanUdpPacket_reads t.encoded
    rw [hwire] at hreads
    obtain ⟨m, hwaiting, -, hm⟩ := hreads.waiting hmissing
    have hn : n ≤ missing.length := by
      rw [Downlink.wanted, hwaiting] at hwanted
      exact hwanted.trans hm
    have htake : s.arrived.take n = missing.take n := by
      have h := congrArg (List.take n) hrest
      rwa [List.take_append_of_le_length harrived, List.take_append_of_le_length hn] at h
    have hdrop : s.arrived.drop n ++ s.coming = missing.drop n ++ (rest.map Transit.wire).flatten := by
      have h := congrArg (List.drop n) hrest
      rwa [List.drop_append_of_le_length harrived, List.drop_append_of_le_length hn] at h
    have hread : s.got ++ s.arrived.take n ++ missing.drop n = t.wire := by
      rw [htake, List.append_assoc, List.take_append_drop, hwire]
    unfold Downlink.poll
    by_cases hlast : missing.drop n = []
    · -- the packet is complete
      rw [hlast, List.append_nil] at hread
      rw [hlast, List.nil_append] at hdrop
      obtain ⟨peer, hsome⟩ := Option.ne_none_iff_exists'.mp hpeer
      obtain ⟨response, hresponse⟩ := t.forwards
      have hfinished : readTrojanUdpPacket.progress (s.got ++ s.arrived.take n) =
          .finished (.ok (some t.packet)) [] := by
        rw [hread]
        exact readTrojanUdpPacket_reads t.encoded
      dsimp only
      rw [hfinished]
      simp only [Downlink.finish, Downlink.forward, hresponse, hsome]
      refine ⟨.inl hended, done ++ [t], rest, by rw [hsent, List.append_assoc]; rfl, ?_, ?_, ?_⟩
      · exact List.rel_append hdone (.cons hresponse .nil)
      · exact hdrop
      · exact fun t' _ => List.length_pos_iff.mpr (encodeTrojanUdpPacket_ne_nil t'.encoded)
    · -- the read goes on waiting
      have hreads' : readTrojanUdpPacket.Reads (s.got ++ s.arrived.take n ++ missing.drop n)
          (some t.packet) := hread ▸ readTrojanUdpPacket_reads t.encoded
      obtain ⟨m', hwaiting', -⟩ := hreads'.waiting hlast
      dsimp only
      rw [hwaiting']
      refine ⟨.inl hended, done, t :: rest, hsent, hdone, ?_, ?_⟩
      · dsimp only
        rw [List.append_assoc, List.append_assoc, ← List.append_assoc (s.arrived.take n),
          List.take_append_drop, ← List.append_assoc]
        exact hstream
      · intro t' ht'
        obtain rfl := Option.some.inj ht'
        have hlen := congrArg List.length hread
        have hpos : 0 < (missing.drop n).length := List.length_pos_iff.mpr hlast
        rw [List.length_append] at hlen
        dsimp only
        omega

theorem Faithful.close {sent : List Transit} {s : Downlink} (h : Faithful sent s)
    (hcoming : s.coming = []) (harrived : s.arrived = []) :
    Faithful sent (s.finish (readTrojanUdpPacket.atEnd s.got)) := by
  obtain ⟨done, rest, hsent, hdone, hstream, hgot⟩ := h.split
  have hnone : rest = [] ∧ s.got = [] := by
    rw [hcoming, harrived, List.append_nil, List.append_nil] at hstream
    cases rest with
    | nil => exact ⟨rfl, hstream⟩
    | cons t rest =>
      have hshort := hgot t rfl
      rw [hstream, List.map_cons, List.flatten_cons, List.length_append] at hshort
      omega
  obtain ⟨rfl, hnil⟩ := hnone
  rw [hnil]
  refine ⟨.inr ⟨rfl, hcoming, harrived⟩, done, [], hsent, hdone, ?_, nofun⟩
  show s.got ++ s.arrived ++ s.coming = _
  rw [hnil, harrived, hcoming]
  rfl

theorem Faithful.step {sent : List Transit} {s s' : Downlink} {e : Event} (h : Faithful sent s)
    (hok : Undisturbed s e) (hstep : s.step e = some s') : Faithful sent s' := by
  unfold Downlink.step at hstep
  split at hstep
  · cases hstep
  rename_i hended
  have hended : s.ended = none := not_not.mp hended
  cases e with
  | arrive n =>
    dsimp only at hstep
    split at hstep
    · cases hstep
      obtain ⟨done, rest, hsent, hdone, hstream, hgot⟩ := h.split
      refine ⟨.inl hended, done, rest, hsent, hdone, ?_, hgot⟩
      dsimp only
      rw [← hstream, ← List.append_assoc, List.append_assoc _ (s.coming.take n), List.take_append_drop]
    · cases hstep
  | datagram peer =>
    dsimp only at hstep
    split at hstep
    · cases hstep
      exact ⟨.inl hended, h.split⟩
    · cases hstep
      exact h
  | nextPeer =>
    dsimp only at hstep
    split at hstep
    · cases hstep
    · cases hstep
      have hnil : s.got = [] := hok
      have hsplit := h.split
      rw [hnil] at hsplit
      exact ⟨.inl hended, hsplit⟩
  | read n =>
    dsimp only at hstep
    split at hstep
    · rename_i hn
      cases hstep
      exact h.poll hended hok hn.1 hn.2.1 hn.2.2
    · cases hstep
  | close =>
    dsimp only at hstep
    split at hstep
    · rename_i hend
      cases hstep
      exact h.close hend.1 hend.2
    · cases hstep

def localPeer : SocketAddr := ⟨.v4 127 0 0 1, 4000⟩

end Aerion.Trojan
