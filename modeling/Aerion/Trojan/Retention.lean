import Aerion.Lib.Steps
import Aerion.Trojan.Protocol

/-!
# What a server keeps of a client

`handle_trojan_stream` of `src/trojan.rs` reads through a `CapturingStream`,
which keeps every byte it hands out so that a connection that fails the
handshake can be replayed to the fallback. The stream is not unwrapped behind
the handshake, so an authenticated connection keeps all it uploads.
-/

namespace Aerion.Trojan

open Lib Net

/-- What core knows: the credential of a digest, and whether its session opens and its target is
reached. -/
structure Core where
  lookup : Bytes → Option String
  admits : String → Bool

/-- Where a connection is: `working` is what the relay holds of the stream. -/
inductive Phase where
  | handshake
  | relayTcp
  | relayUdp
  | fallback
  | closed
  deriving DecidableEq, Repr

structure Connection where
  phase : Phase
  captured : Bytes
  working : Bytes
  deriving DecidableEq, Repr

inductive StreamEvent where
  | read (bytes : Bytes)
  | close
  deriving DecidableEq, Repr

namespace Connection

def start : Connection := ⟨.handshake, [], []⟩

/-- The bytes of the current read: a packet that is complete has been handed on. -/
def packetRead (c : Connection) : Bytes :=
  match readTrojanUdpPacket.progress c.working with
  | .waiting _ => c.working
  | .finished _ _ => []

def room (core : Core) (c : Connection) : ℕ :=
  match c.phase with
  | .handshake =>
    match (readAuthenticatedTrojanRequest core.lookup).progress c.captured with
    | .waiting n => n
    | .finished _ _ => 0
  | .relayTcp => 32 * 1024
  | .relayUdp =>
    match readTrojanUdpPacket.progress c.packetRead with
    | .waiting n => n
    | .finished _ _ => 0
  | .fallback => 8 * 1024
  | .closed => 0

def drop (_ : Connection) : Connection := ⟨.closed, [], []⟩

/-- Behind a read of the handshake. A connection that fails it goes to the fallback, with what was
captured in front. -/
def shake (core : Core) (c : Connection) : Connection :=
  match (readAuthenticatedTrojanRequest core.lookup).progress c.captured with
  | .waiting _ => c
  | .finished (.ok (credential, request)) _ =>
    if core.admits credential then
      match request with
      | .connect _ => { c with phase := .relayTcp }
      | .udpAssociate => { c with phase := .relayUdp }
    else c.drop
  | .finished _ _ => ⟨.fallback, [], c.captured⟩

/-- `poll_read` of the capturing stream, and what its reader does with the bytes. -/
def take (core : Core) (c : Connection) (bytes : Bytes) : Connection :=
  let c := { c with captured := c.captured ++ bytes }
  match c.phase with
  | .handshake => c.shake core
  | .relayTcp => { c with working := bytes }
  | .relayUdp =>
    let c := { c with working := c.packetRead ++ bytes }
    match readTrojanUdpPacket.progress c.working with
    | .finished (.ok (some _)) _ => c
    | .finished _ _ => c.drop
    | .waiting _ => c
  | .fallback => { c with working := bytes }
  | .closed => c

def step (core : Core) (c : Connection) : StreamEvent → Option Connection
  | .read bytes => if bytes ≠ [] ∧ bytes.length ≤ c.room core then some (c.take core bytes) else none
  | .close => if c.phase = .closed then none else some c.drop

def retained (c : Connection) : ℕ := c.captured.length + c.working.length

/-- Past the handshake. -/
def Authenticated (c : Connection) : Prop := c.phase = .relayTcp ∨ c.phase = .relayUdp

end Connection

def uploaded (events : List StreamEvent) : Bytes :=
  events.flatMap fun
    | .read bytes => bytes
    | .close => []

/-! ### The capture -/

/-- Not given up on yet. -/
def Connection.Open (c : Connection) : Prop := c.phase = .handshake ∨ c.Authenticated

theorem not_open_drop (c : Connection) : ¬c.drop.Open := by
  rintro (h | h | h) <;> cases h

theorem shake_cases (core : Core) (c : Connection) :
    (∃ phase, c.shake core = { c with phase := phase } ∧
        (phase = c.phase ∨ phase = .relayTcp ∨ phase = .relayUdp)) ∨
      c.shake core = c.drop ∨ c.shake core = ⟨.fallback, [], c.captured⟩ := by
  unfold Connection.shake
  split
  · exact .inl ⟨c.phase, rfl, .inl rfl⟩
  · split
    · split
      · exact .inl ⟨.relayTcp, rfl, .inr (.inl rfl)⟩
      · exact .inl ⟨.relayUdp, rfl, .inr (.inr rfl)⟩
    · exact .inr (.inl rfl)
  · exact .inr (.inr rfl)

def relayBuffer : ℕ := 65798

theorem packetRead_waiting (c : Connection) :
    ∃ n, readTrojanUdpPacket.progress c.packetRead = .waiting n ∧ c.packetRead.length + n ≤ relayBuffer := by
  obtain ⟨n, hwaiting⟩ : ∃ n, readTrojanUdpPacket.progress c.packetRead = .waiting n := by
    unfold Connection.packetRead
    split
    · rename_i n hwaiting
      exact ⟨n, hwaiting⟩
    · exact ⟨1, rfl⟩
  exact ⟨n, hwaiting, readTrojanUdpPacket_bounded.waiting hwaiting⟩

theorem takePacket_cases (core : Core) (captured working bytes : Bytes) :
    Connection.take core ⟨.relayUdp, captured, working⟩ bytes = ⟨.relayUdp, captured ++ bytes,
        Connection.packetRead ⟨.relayUdp, captured, working⟩ ++ bytes⟩ ∨
      Connection.take core ⟨.relayUdp, captured, working⟩ bytes = ⟨.closed, [], []⟩ := by
  unfold Connection.take
  dsimp only
  split
  · exact .inl rfl
  · exact .inr rfl
  · exact .inl rfl

theorem take_open {core : Core} {c : Connection} {bytes : Bytes} (hroom : bytes.length ≤ c.room core)
    (h : (c.take core bytes).Open) :
    c.Open ∧ (c.take core bytes).captured = c.captured ++ bytes ∧
      (c.working.length ≤ relayBuffer → (c.take core bytes).working.length ≤ relayBuffer) := by
  obtain ⟨phase, captured, working⟩ := c
  cases phase with
  | handshake =>
    show _ ∧ (Connection.shake core ⟨.handshake, captured ++ bytes, working⟩).captured = _ ∧
      (_ → (Connection.shake core ⟨.handshake, captured ++ bytes, working⟩).working.length ≤ _)
    replace h : (Connection.shake core ⟨.handshake, captured ++ bytes, working⟩).Open := h
    refine ⟨.inl rfl, ?_⟩
    rcases shake_cases core ⟨.handshake, captured ++ bytes, working⟩ with ⟨phase, heq, -⟩ | heq | heq
    · rw [heq]
      exact ⟨rfl, id⟩
    · rw [heq] at h
      exact absurd h (not_open_drop _)
    · rw [heq] at h
      rcases h with h | h | h <;> cases h
  | relayTcp =>
    have hchunk : bytes.length ≤ 32 * 1024 := hroom
    exact ⟨.inr (.inl rfl), rfl, fun _ => hchunk.trans (by decide)⟩
  | relayUdp =>
    obtain ⟨n, hwaiting, hn⟩ := packetRead_waiting ⟨.relayUdp, captured, working⟩
    have hpacket : (Connection.packetRead ⟨.relayUdp, captured, working⟩ ++ bytes).length ≤ relayBuffer := by
      simp only [Connection.room, hwaiting] at hroom
      rw [List.length_append]
      omega
    rcases takePacket_cases core captured working bytes with heq | heq
    · rw [heq]
      exact ⟨.inr (.inr rfl), rfl, fun _ => hpacket⟩
    · rw [heq] at h
      exact absurd h (not_open_drop ⟨.closed, [], []⟩)
  | fallback => rcases h with h | h | h <;> cases h
  | closed => rcases h with h | h | h <;> cases h

theorem step_open {core : Core} {c c' : Connection} {e : StreamEvent} (h : c.step core e = some c')
    (hopen : c'.Open) :
    c.Open ∧ c'.captured = c.captured ++ uploaded [e] ∧
      (c.working.length ≤ relayBuffer → c'.working.length ≤ relayBuffer) := by
  unfold Connection.step at h
  cases e with
  | read bytes =>
    dsimp only at h
    split at h
    · rename_i hread
      cases h
      rw [show uploaded [.read bytes] = bytes from List.append_nil bytes]
      exact take_open hread.2 hopen
    · cases h
  | close =>
    dsimp only at h
    split at h
    · cases h
    · cases h
      exact absurd hopen (not_open_drop c)

theorem captured_eq {core : Core} {c c' : Connection} {events : List StreamEvent}
    (h : Steps (Connection.step core) always c events c') (hopen : c'.Open) :
    c.Open ∧ c'.captured = c.captured ++ uploaded events ∧
      (c.working.length ≤ relayBuffer → c'.working.length ≤ relayBuffer) := by
  induction h with
  | nil => exact ⟨hopen, (List.append_nil _).symm, id⟩
  | cons _ hstep _ ih =>
    obtain ⟨hmid, hrest, hheld⟩ := ih hopen
    obtain ⟨hfirst, htaken, hheld'⟩ := step_open hstep hmid
    refine ⟨hfirst, ?_, hheld ∘ hheld'⟩
    rw [hrest, htaken, List.append_assoc]
    simp [uploaded]

/-- What an authenticated connection captures is all that its client has sent: it is within a bound
exactly when the client has sent no more, and besides it there are only the relay's buffers. -/
theorem authenticated_retains (core : Core) (events : List StreamEvent) (c : Connection)
    (h : Steps (Connection.step core) always Connection.start events c) (hauth : c.Authenticated) :
    (∀ bound, c.captured.length ≤ bound ↔ (uploaded events).length ≤ bound) ∧
      c.retained ≤ (uploaded events).length + relayBuffer := by
  obtain ⟨-, hcaptured, hheld⟩ := captured_eq h (.inr hauth)
  have hlength : c.captured.length = (uploaded events).length := by
    rw [hcaptured]
    rfl
  have hworking := hheld (Nat.zero_le _)
  refine ⟨fun bound => by rw [hlength], ?_⟩
  unfold Connection.retained
  omega

/-! ### Two runs -/

def openCore : Core := ⟨fun _ => some "user", fun _ => true⟩

/-- The reads of a handshake that asks for `1.2.3.4:80`. -/
def openingReads : List StreamEvent :=
  [.read (List.replicate 56 0x61), .read [0x0d, 0x0a], .read [1], .read [1], .read [1, 2, 3, 4], .read [0, 80],
    .read [0x0d, 0x0a]]

theorem relaying : ∃ captured, Steps (Connection.step openCore) always Connection.start openingReads
    ⟨.relayTcp, captured, []⟩ := by
  obtain ⟨c, hrun, hc⟩ := steps_of_replay
    (show (Lib.replay (Connection.step openCore) Connection.start openingReads).any
      (fun c => decide (c.phase = .relayTcp ∧ c.working = [])) = true by decide +kernel)
  obtain ⟨phase, captured, working⟩ := c
  obtain ⟨rfl, rfl⟩ := of_decide_eq_true hc
  exact ⟨captured, hrun⟩

theorem relaying_on (captured working : Bytes) (n : ℕ) :
    ∃ c, Steps (Connection.step openCore) always ⟨.relayTcp, captured, working⟩
        (List.replicate n (.read [0])) c ∧ c.Authenticated := by
  induction n generalizing captured working with
  | zero => exact ⟨_, .nil, .inl rfl⟩
  | succ n ih =>
    obtain ⟨c, hrun, hauth⟩ := ih (captured ++ [0]) [0]
    exact ⟨c, .cons trivial rfl hrun, hauth⟩

/-- No bound holds for all authenticated connections. -/
theorem retention_unbounded :
    ¬∃ bound, ∀ events c, Steps (Connection.step openCore) always Connection.start events c →
      c.Authenticated → c.retained ≤ bound := by
  rintro ⟨bound, hbound⟩
  obtain ⟨captured, hopening⟩ := relaying
  obtain ⟨c, hrelay, hauth⟩ := relaying_on captured [] (bound + 1)
  have hretained := hbound _ c (hopening.append hrelay) hauth
  obtain ⟨-, hcaptured, -⟩ := captured_eq hrelay (.inr hauth)
  have hlength : (uploaded (List.replicate (bound + 1) (.read [0]))).length = bound + 1 := by
    simp [uploaded]
  have htotal : c.captured.length = captured.length + (bound + 1) := by
    rw [hcaptured, List.length_append, hlength]
  unfold Connection.retained at hretained
  omega

/-- A client that sends three bytes behind its handshake. -/
theorem short_upload_retained :
    ∃ c, Steps (Connection.step openCore) always Connection.start (openingReads ++ [.read [1, 2, 3]]) c ∧
      c.Authenticated ∧
      (∀ bound, c.captured.length ≤ bound ↔
        (uploaded (openingReads ++ [.read [1, 2, 3]])).length ≤ bound) ∧
      c.retained ≤ (uploaded (openingReads ++ [.read [1, 2, 3]])).length + relayBuffer := by
  obtain ⟨captured, hopening⟩ := relaying
  have hread : Steps (Connection.step openCore) always ⟨.relayTcp, captured, []⟩ [.read [1, 2, 3]]
      ⟨.relayTcp, captured ++ [1, 2, 3], [1, 2, 3]⟩ := .cons trivial rfl .nil
  have hrun := hopening.append hread
  exact ⟨_, hrun, .inl rfl, authenticated_retains openCore _ _ hrun (.inl rfl)⟩

end Aerion.Trojan
