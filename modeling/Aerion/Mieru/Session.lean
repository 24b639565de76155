import Aerion.Mieru.Wire

/-!
# Mieru sessions

What the session map holds for one session (`src/mieru.rs`): the two queues
to its tasks, the reordering buffer, the receive budget and the writer its
answers go through. `routeEntry` is the part of `route_session_segment` on
one entry; `SessionTask` is what the session's own tasks do to it, the SOCKS
handler on one side of the queues and the output task on the other.
-/

namespace Aerion.Mieru

open Lib Aerion.Net

def sessionReceiveBytes : ℕ := 1024 * 1024

/-- `size_of::<ReceivedPayload>() + 64` on a 64-bit target. -/
def receiveItemOverhead : ℕ := 40 + 64

structure ReceivedPayload where
  payload : Bytes
  permit : ℕ
  deriving DecidableEq, Repr

/-- `ReceiveFlow`; `available` are the permits left in its budget. -/
structure ReceiveFlow where
  available : ℕ
  pending : ℕ
  unAckSeq : UInt32
  window : ℕ
  packetSize : ℕ
  deriving DecidableEq, Repr

namespace ReceiveFlow

def refresh (flow : ReceiveFlow) : ReceiveFlow :=
  { flow with
    window := min (flow.available / flow.packetSize) (ackWindowSize.toNat - flow.pending) }

def new (mtu : ℕ) : ReceiveFlow :=
  refresh
    { available := sessionReceiveBytes
      pending := 0
      unAckSeq := 0
      window := 0
      packetSize := max 1 (min (mtu - packetOverhead) maxPdu) + aeadOverhead + receiveItemOverhead }

def release (flow : ReceiveFlow) (permit : ℕ) : ReceiveFlow :=
  { flow with available := flow.available + permit }

end ReceiveFlow

/-- `payload.capacity()`: a payload is decrypted in the buffer that held it with its tag. -/
def capacity (payload : Bytes) : ℕ :=
  if payload.isEmpty then 0 else payload.length + aeadOverhead

def ReceiveFlow.reservePacket (flow : ReceiveFlow) (payload : Bytes) (reordered : Bool) :
    Option (ReceivedPayload × ReceiveFlow) :=
  let bytes := capacity payload + receiveItemOverhead
  let headroom := if reordered then 65535 + aeadOverhead + receiveItemOverhead else 0
  if bytes < 2 ^ 32 ∧ bytes + headroom ≤ flow.available then
    some (⟨payload, bytes⟩, { flow with available := flow.available - bytes })
  else none

/-- `ReceiveFlow::reserve_stream`, or nothing while it waits for permits. -/
def ReceiveFlow.reserveStream (flow : ReceiveFlow) (payload : Bytes) :
    Option (Outcome (ReceivedPayload × ReceiveFlow)) :=
  let bytes := capacity payload + receiveItemOverhead
  if sessionReceiveBytes < bytes then
    some (.err "Mieru receive payload exceeds buffer budget")
  else if bytes ≤ flow.available then
    some (.ok (⟨payload, bytes⟩, { flow with available := flow.available - bytes }))
  else none

inductive SessionCommand where
  | data (payload : Bytes)
  | sendSegment (segment : MieruSegment)
  | sendAck (protocol : UInt8) (immediate : Bool)
  | peerAck (unAckSeq : UInt32) (windowSize : UInt16)
  | close
  deriving DecidableEq, Repr

structure MieruReceiveState where
  nextSeq : UInt32
  pending : Map UInt32 ReceivedPayload
  deriving DecidableEq

structure MieruSessionEntry where
  /-- Payloads the SOCKS handler has not taken yet. -/
  inbound : List ReceivedPayload
  /-- The handler has dropped its end. -/
  readerGone : Bool
  /-- Permits of the payload the handler is reading. -/
  held : ℕ
  /-- Commands the output task has not taken yet. -/
  outbound : List SessionCommand
  outboundClosed : Bool
  ordered : Bool
  recv : MieruReceiveState
  flow : ReceiveFlow
  writer : ℕ
  /-- History variable, which no branch reads: the user that opened the session. -/
  opener : MieruUserSecret
  deriving DecidableEq

namespace MieruSessionEntry

variable (entry : MieruSessionEntry)

/-- A fresh entry of `handle_server_segment`. -/
def new (mtu : ℕ) (reliable : Bool) (writer : ℕ) (opener : MieruUserSecret) :
    MieruSessionEntry where
  inbound := []
  readerGone := false
  held := 0
  outbound := []
  outboundClosed := false
  ordered := reliable
  recv := ⟨0, ∅⟩
  flow := ReceiveFlow.new mtu
  writer
  opener

/-- `entry.outbound.send`, whose failure is ignored. -/
def send (command : SessionCommand) : MieruSessionEntry :=
  if entry.outboundClosed then entry else { entry with outbound := entry.outbound ++ [command] }

/-- `deliver_session_payload`: a payload that is empty or has no reader gives its permits back. -/
def deliver (payload : ReceivedPayload) : MieruSessionEntry :=
  if payload.payload.isEmpty ∨ entry.readerGone then
    { entry with flow := entry.flow.release payload.permit }
  else { entry with inbound := entry.inbound ++ [payload] }

@[simp] theorem deliver_recv (payload : ReceivedPayload) :
    (entry.deliver payload).recv = entry.recv := by
  unfold deliver
  split <;> rfl

def drain (entry : MieruSessionEntry) : MieruSessionEntry :=
  match _h : entry.recv.pending.lookup entry.recv.nextSeq with
  | none => entry
  | some payload =>
    drain
      { entry.deliver payload with
        recv := ⟨entry.recv.nextSeq + 1, entry.recv.pending.erase entry.recv.nextSeq⟩ }
termination_by entry.recv.pending.entries.length
decreasing_by
  exact entries_erase_lt (mem_iff_lookup.mpr ⟨_, _h⟩)

/-- The payload that is next in order, and what it releases from the buffer. When the
budget has no room for it nothing is acknowledged. -/
def acceptNext (payload : Bytes) : MieruSessionEntry × Bool :=
  match entry.flow.reservePacket payload false with
  | some (payload, flow) =>
    let entry := { entry with flow }.deliver payload
    ({ entry with recv := { entry.recv with nextSeq := entry.recv.nextSeq + 1 } }.drain, false)
  | none => (entry, true)

def acceptAhead (seq : UInt32) (payload : Bytes) : MieruSessionEntry :=
  if seq - entry.recv.nextSeq < UInt32.ofNat maxPendingSegments ∧ seq ∉ entry.recv.pending then
    match entry.flow.reservePacket payload true with
    | some (payload, flow) =>
      { entry with
        flow
        recv := { entry.recv with pending := entry.recv.pending.insert seq payload } }
    | none => entry
  else entry

def refreshed : MieruSessionEntry :=
  { entry with flow := { entry.flow with pending := entry.recv.pending.entries.length }.refresh }

def acknowledge (unAckSeq : UInt32) (ackProtocol : Option UInt8) (immediate : Bool) :
    MieruSessionEntry :=
  let entry := { entry with flow := { entry.flow with unAckSeq } }
  match ackProtocol with
  | some protocol => entry.send (.sendAck protocol immediate)
  | none => entry

/-- `route_session_segment` on the entry; nothing while a stream waits for its budget. -/
def route (seq : UInt32) (payload : Bytes) (ackProtocol : Option UInt8) :
    Option (Outcome MieruSessionEntry) :=
  if entry.ordered then
    let (accepted, immediate) :=
      if seq = entry.recv.nextSeq then entry.acceptNext payload
      else (entry.acceptAhead seq payload, true)
    let accepted := accepted.refreshed
    some (.ok (accepted.acknowledge accepted.recv.nextSeq ackProtocol immediate))
  else
    (entry.flow.reserveStream payload).map fun reserved => do
      let (payload, flow) ← reserved
      let entry := { entry with flow }.deliver payload
      return entry.acknowledge (seq + 1) ackProtocol false

end MieruSessionEntry

/-! ### The session's own tasks -/

inductive SessionTask where
  /-- The handler takes the next payload. -/
  | take
  /-- The handler has read the payload it holds. -/
  | release
  | write (payload : Bytes)
  | shutdown
  /-- The handler ends. -/
  | quit
  /-- The output task takes the next command. -/
  | pop
  /-- The output task ends. -/
  | stop
  deriving DecidableEq, Repr

def MieruSessionEntry.act (entry : MieruSessionEntry) : SessionTask → MieruSessionEntry
  | .take =>
    match entry.inbound with
    | [] => entry
    | payload :: rest => { entry with inbound := rest, held := payload.permit }
  | .release =>
    let entry := { entry with held := 0, flow := entry.flow.release entry.held }
    if entry.ordered then
      let previous := entry.flow.window
      let entry := { entry with flow := entry.flow.refresh }
      -- A window that was closed is announced at once.
      if previous = 0 ∧ 0 < entry.flow.window then entry.send (.sendAck ackServerToClient false)
      else entry
    else entry
  | .write payload => entry.send (.data payload)
  | .shutdown => entry.send .close
  | .quit =>
    let permits := entry.held + (entry.inbound.map (·.permit)).sum
    { entry with inbound := [], held := 0, readerGone := true,
                 flow := entry.flow.release permits }.send .close
  | .pop => { entry with outbound := entry.outbound.tail }
  | .stop => { entry with outbound := [], outboundClosed := true }

/-! ### What stays the same for as long as the session is in the map -/

namespace MieruSessionEntry

def fixed (entry : MieruSessionEntry) : Bool × ℕ × MieruUserSecret :=
  (entry.ordered, entry.writer, entry.opener)

variable (entry : MieruSessionEntry)

@[simp] theorem fixed_send (command : SessionCommand) : (entry.send command).fixed = entry.fixed := by
  unfold send
  split <;> rfl

@[simp] theorem fixed_deliver (payload : ReceivedPayload) :
    (entry.deliver payload).fixed = entry.fixed := by
  unfold deliver
  split <;> rfl

@[simp] theorem fixed_drain : entry.drain.fixed = entry.fixed := by
  fun_induction drain entry with
  | case1 => rfl
  | case2 entry payload _ ih =>
    rw [ih]
    exact fixed_deliver entry payload

theorem fixed_acceptNext (payload : Bytes) : (entry.acceptNext payload).1.fixed = entry.fixed := by
  unfold acceptNext
  split
  · rename_i payload flow _
    exact (fixed_drain _).trans (fixed_deliver { entry with flow } payload)
  · rfl

theorem fixed_acceptAhead (seq : UInt32) (payload : Bytes) :
    (entry.acceptAhead seq payload).fixed = entry.fixed := by
  unfold acceptAhead
  split
  · split <;> rfl
  · rfl

theorem fixed_acknowledge (unAckSeq : UInt32) (ackProtocol : Option UInt8) (immediate : Bool) :
    (entry.acknowledge unAckSeq ackProtocol immediate).fixed = entry.fixed := by
  unfold acknowledge
  split
  · exact fixed_send _ _
  · rfl

theorem fixed_route {seq : UInt32} {payload : Bytes} {ackProtocol : Option UInt8}
    {entry' : MieruSessionEntry} (h : entry.route seq payload ackProtocol = some (.ok entry')) :
    entry'.fixed = entry.fixed := by
  unfold route at h
  split at h
  · simp only [Option.some.injEq, Outcome.ok.injEq] at h
    subst h
    rw [fixed_acknowledge]
    show MieruSessionEntry.fixed (ite _ _ _ : MieruSessionEntry × Bool).1 = _
    split
    · exact fixed_acceptNext entry payload
    · exact fixed_acceptAhead entry seq payload
  · obtain ⟨reserved, -, h⟩ := Option.map_eq_some_iff.mp h
    obtain ⟨⟨received, flow⟩, -, h⟩ := Outcome.bind_ok.mp h
    simp only [Outcome.pure_eq, Outcome.ok.injEq] at h
    subst h
    exact (fixed_acknowledge _ _ _ _).trans (fixed_deliver { entry with flow } received)

@[simp] theorem fixed_act (task : SessionTask) : (entry.act task).fixed = entry.fixed := by
  cases task with
  | take =>
    simp only [act]
    split <;> rfl
  | release =>
    simp only [act]
    split
    · split
      · exact fixed_send _ _
      · rfl
    · rfl
  | write payload => exact fixed_send _ _
  | shutdown => exact fixed_send _ _
  | quit => exact fixed_send _ _
  | pop => rfl
  | stop => rfl

theorem route_ordered (h : entry.ordered = true) (seq : UInt32) (payload : Bytes)
    (ackProtocol : Option UInt8) :
    ∃ entry', entry.route seq payload ackProtocol = some (.ok entry') := by
  unfold route
  rw [if_pos h]
  exact ⟨_, rfl⟩

end MieruSessionEntry

end Aerion.Mieru
