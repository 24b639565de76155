import Aerion.Lib.Steps
import Aerion.Mieru.Session
import Mathlib.Algebra.BigOperators.Group.List.Basic

/-!
# What a Mieru session receives

The entry of one session over whole runs: segments come as the network lets
them, and the tasks of the session do what they do in between. Two things are
kept. The permits of the receive budget are all accounted for, whatever the
peer sends; and of a peer that numbers its segments, the reader gets exactly
the ones that were sent, in order, as far as they are acknowledged.
-/

namespace Aerion.Mieru

open Lib Aerion.Net

structure Reception where
  entry : MieruSessionEntry
  /-- History variables: the payloads the handler has taken, and how many segments were delivered. -/
  taken : List Bytes
  next : ℕ

inductive Reception.Arrival where
  | segment (seq : UInt32) (payload : Bytes) (ackProtocol : Option UInt8)
  | task (task : SessionTask)

/-- The payload that a task hands to the handler. -/
def MieruSessionEntry.handed (entry : MieruSessionEntry) : SessionTask → List Bytes
  | .take => (entry.inbound.take 1).map (·.payload)
  | _ => []

namespace Reception

def step (s : Reception) : Arrival → Option Reception
  | .segment seq payload ackProtocol =>
    match s.entry.route seq payload ackProtocol with
    | some (.ok entry) => some { s with entry, next := s.next + (entry.recv.nextSeq - s.entry.recv.nextSeq).toNat }
    | _ => none
  | .task task =>
    -- the handler takes a payload when it has read the one before
    if task = .take ∧ s.entry.held ≠ 0 then none
    else some { s with entry := s.entry.act task, taken := s.taken ++ s.entry.handed task }

def start (mtu : ℕ) (reliable : Bool) (writer : ℕ) (opener : MieruUserSecret) : Reception :=
  ⟨.new mtu reliable writer opener, [], 0⟩

end Reception

/-! ### The receive budget -/

namespace MieruSessionEntry

/-- The permits of the budget, wherever they are. -/
def permits (entry : MieruSessionEntry) : ℕ :=
  entry.flow.available + entry.held + (entry.inbound.map (·.permit)).sum +
    (entry.recv.pending.entries.map (·.2.permit)).sum

variable (entry : MieruSessionEntry)

@[simp] theorem permits_send (command : SessionCommand) : (entry.send command).permits = entry.permits := by
  unfold send
  split <;> rfl

theorem permits_deliver (payload : ReceivedPayload) :
    (entry.deliver payload).permits = entry.permits + payload.permit := by
  unfold deliver
  split
  · simp only [permits, ReceiveFlow.release]
    omega
  · simp only [permits, List.map_append, List.sum_append, List.map_cons, List.map_nil, List.sum_singleton]
    omega

theorem permits_drain : entry.drain.permits = entry.permits := by
  fun_induction drain entry with
  | case1 => rfl
  | case2 entry payload hlookup ih =>
    have hdelivered := entry.permits_deliver payload
    obtain ⟨found, front, back, -, hentries, herased⟩ :=
      List.exists_of_kerase (AList.mem_keys.mp (mem_iff_lookup.mpr ⟨payload, hlookup⟩))
    have hfound : found = payload := by
      have hmem := mem_entries.mp (hentries ▸ List.mem_append_right front List.mem_cons_self)
      exact Option.some.inj (hmem.symm.trans hlookup)
    rw [ih]
    simp only [permits, deliver_recv] at hdelivered ⊢
    rw [show (entry.recv.pending.erase entry.recv.nextSeq).entries = front ++ back from herased]
    rw [hentries, hfound] at hdelivered
    rw [hentries, hfound]
    simp only [List.map_append, List.sum_append, List.map_cons, List.sum_cons] at hdelivered ⊢
    omega

theorem permits_acknowledge (unAckSeq : UInt32) (ackProtocol : Option UInt8) (immediate : Bool) :
    (entry.acknowledge unAckSeq ackProtocol immediate).permits = entry.permits := by
  unfold acknowledge
  split
  · exact permits_send _ _
  · rfl

theorem permits_reserved {flow : ReceiveFlow} {payload : ReceivedPayload}
    (h : flow.available + payload.permit = entry.flow.available) :
    ({ entry with flow }.deliver payload).permits = entry.permits := by
  rw [permits_deliver]
  simp only [permits]
  omega

theorem permits_acceptNext (payload : Bytes) : (entry.acceptNext payload).1.permits = entry.permits := by
  unfold acceptNext ReceiveFlow.reservePacket
  dsimp only
  split
  · rename_i received flow hreserved
    obtain ⟨⟨-, hroom⟩, hreserved⟩ := Option.ite_none_right_eq_some.mp hreserved
    cases hreserved
    rw [permits_drain]
    exact permits_reserved entry (by simp only; omega)
  · rfl

theorem permits_acceptAhead (seq : UInt32) (payload : Bytes) :
    (entry.acceptAhead seq payload).permits = entry.permits := by
  unfold acceptAhead ReceiveFlow.reservePacket
  dsimp only
  split
  · rename_i hnew
    split
    · rename_i received flow hreserved
      obtain ⟨⟨-, hroom⟩, hreserved⟩ := Option.ite_none_right_eq_some.mp hreserved
      cases hreserved
      simp only [permits, AList.entries_insert_of_notMem hnew.2, List.map_cons, List.sum_cons]
      omega
    · rfl
  · rfl

theorem permits_route {seq : UInt32} {payload : Bytes} {ackProtocol : Option UInt8} {entry' : MieruSessionEntry}
    (h : entry.route seq payload ackProtocol = some (.ok entry')) : entry'.permits = entry.permits := by
  unfold route at h
  split at h
  · simp only [Option.some.injEq, Outcome.ok.injEq] at h
    subst h
    rw [permits_acknowledge]
    show MieruSessionEntry.permits (ite _ _ _ : MieruSessionEntry × Bool).1 = _
    split
    · exact permits_acceptNext entry payload
    · exact permits_acceptAhead entry seq payload
  · obtain ⟨reserved, hreserved, h⟩ := Option.map_eq_some_iff.mp h
    obtain ⟨⟨received, flow⟩, hok, h⟩ := Outcome.bind_ok.mp h
    simp only [Outcome.pure_eq, Outcome.ok.injEq] at h
    subst h
    rw [permits_acknowledge]
    rw [hok] at hreserved
    unfold ReceiveFlow.reserveStream at hreserved
    dsimp only at hreserved
    split at hreserved
    · cases hreserved
    · split at hreserved
      · cases hreserved
        exact permits_reserved entry (by simp only; omega)
      · cases hreserved

theorem permits_act {task : SessionTask} (h : task = .take → entry.held = 0) :
    (entry.act task).permits = entry.permits := by
  cases task with
  | take =>
    have hheld := h rfl
    simp only [act]
    split
    · rfl
    · rename_i payload rest hinbound
      simp only [permits, hinbound, List.map_cons, List.sum_cons]
      omega
  | release =>
    simp only [act]
    split
    · split
      · rw [permits_send]
        simp only [permits, ReceiveFlow.refresh, ReceiveFlow.release]
        omega
      · simp only [permits, ReceiveFlow.refresh, ReceiveFlow.release]
        omega
    · simp only [permits, ReceiveFlow.release]
      omega
  | write payload => exact permits_send _ _
  | shutdown => exact permits_send _ _
  | quit =>
    simp only [act, permits_send]
    simp only [permits, ReceiveFlow.release, List.map_nil, List.sum_nil]
    omega
  | pop => rfl
  | stop => rfl

end MieruSessionEntry

namespace Reception

theorem step_cases {s s' : Reception} {a : Arrival} (h : s.step a = some s') :
    (∃ seq payload ackProtocol, a = .segment seq payload ackProtocol ∧
      s.entry.route seq payload ackProtocol = some (.ok s'.entry) ∧ s'.taken = s.taken ∧
      s'.next = s.next + (s'.entry.recv.nextSeq - s.entry.recv.nextSeq).toNat) ∨
    ∃ task, a = .task task ∧ s'.entry = s.entry.act task ∧ s'.next = s.next ∧
      s'.taken = s.taken ++ s.entry.handed task ∧ (task = .take → s.entry.held = 0) := by
  cases a with
  | segment seq payload ackProtocol =>
    simp only [step] at h
    split at h
    · cases h
      exact .inl ⟨seq, payload, ackProtocol, rfl, ‹_›, rfl, rfl⟩
    · cases h
  | task task =>
    obtain ⟨hfree, h⟩ := Option.ite_none_left_eq_some.mp h
    cases h
    exact .inr ⟨task, rfl, rfl, rfl, rfl, fun ht => by simpa [ht] using hfree⟩

/-- Whatever a peer sends and whatever the tasks of the session do, the permits that are free, with
the reader, queued and in the reordering buffer are always those of the budget: a session never
buffers more, and no permit is lost. -/
theorem receive_budget_conserved {mtu : ℕ} {reliable : Bool} {writer : ℕ} {opener : MieruUserSecret}
    {as : List Arrival} {s : Reception} (hrun : Steps step always (start mtu reliable writer opener) as s) :
    s.entry.permits = sessionReceiveBytes := by
  refine hrun.invariant (fun s => s.entry.permits = sessionReceiveBytes) (fun s a s' h _ hstep => ?_) ?_
  · rcases step_cases hstep with ⟨seq, payload, ackProtocol, -, hroute, -⟩ | ⟨task, -, hact, -, -, htake⟩
    · exact (s.entry.permits_route hroute).trans h
    · rw [hact, s.entry.permits_act htake]
      exact h
  · simp [start, MieruSessionEntry.new, MieruSessionEntry.permits, ReceiveFlow.new, ReceiveFlow.refresh]

theorem early_segment_budgeted : ∃ s, Steps step always (start 1400 true 0 ⟨"user", "password", []⟩)
    [.segment 1 [7] none] s ∧ s.entry.permits = sessionReceiveBytes := by
  obtain ⟨entry, hentry⟩ := (start 1400 true 0 ⟨"user", "password", []⟩).entry.route_ordered rfl 1 [7] none
  have hrun : Steps step always (start 1400 true 0 ⟨"user", "password", []⟩) [.segment 1 [7] none] _ :=
    .cons trivial (by rw [step, hentry]) .nil
  exact ⟨_, hrun, receive_budget_conserved hrun⟩

end Reception

/-! ### Delivery in order -/

theorem ofNat_near {k n : ℕ} (h : UInt32.ofNat n = UInt32.ofNat k) (hle : k ≤ n)
    (hlt : n < k + 2 ^ 32) : n = k := by
  have := congrArg UInt32.toNat h
  simp only [UInt32.toNat_ofNat'] at this
  omega

theorem ofNat_sub_toNat {k n : ℕ} (hle : k ≤ n) (hlt : n < k + 2 ^ 32) :
    (UInt32.ofNat n - UInt32.ofNat k).toNat = n - k := by
  simp only [UInt32.toNat_sub, UInt32.toNat_ofNat']
  omega

section

variable (data : ℕ → Bytes)

/-- The first segments of a peer, joined. -/
def sent (k : ℕ) : Bytes := ((List.range k).map data).flatten

/-- Buffered segments of the peer, by their numbers. -/
def Buffered (lo hi : ℕ) (pending : Map UInt32 ReceivedPayload) : Prop :=
  ∀ seq p, pending.lookup seq = some p → ∃ n, lo ≤ n ∧ n < hi ∧ seq = UInt32.ofNat n ∧ p.payload = data n

/-- The entry has delivered `k` segments behind what was taken, and expects the next one. -/
structure Expects (front : Bytes) (k : ℕ) (entry : MieruSessionEntry) : Prop where
  reader : entry.readerGone = false
  seq : entry.recv.nextSeq = UInt32.ofNat k
  text : front ++ (entry.inbound.map (·.payload)).flatten = sent data k

/-- What it has buffered are later segments, within the window. -/
structure Receives (front : Bytes) (k : ℕ) (entry : MieruSessionEntry) : Prop
    extends Expects data front k entry where
  buffered : Buffered data (k + 1) (k + maxPendingSegments) entry.recv.pending

variable {data} {front : Bytes} {k : ℕ} {entry : MieruSessionEntry}

theorem Expects.deliver {payload : ReceivedPayload} (h : Expects data front k entry)
    (hdata : payload.payload = data k)
    (pending : Map UInt32 ReceivedPayload) :
    Expects data front (k + 1) { entry.deliver payload with recv := ⟨entry.recv.nextSeq + 1, pending⟩ } := by
  have hsent : sent data (k + 1) = sent data k ++ payload.payload := by
    rw [hdata]
    simp [sent, List.range_succ]
  have hseq : entry.recv.nextSeq + 1 = UInt32.ofNat (k + 1) := by
    rw [h.seq, UInt32.ofNat_add]
    rfl
  unfold MieruSessionEntry.deliver
  split
  · rename_i hempty
    have hnil : payload.payload = [] := by simpa [h.reader] using hempty
    exact ⟨h.reader, hseq, by rw [hsent, hnil, List.append_nil]; exact h.text⟩
  · exact ⟨h.reader, hseq, by rw [hsent, ← h.text]; simp⟩

/-- Draining goes on to the first segment that is missing. -/
theorem Expects.drain {hi : ℕ} (h : Expects data front k entry) (hbuffered : Buffered data k hi entry.recv.pending)
    (hhi : hi ≤ k + 2 ^ 32) : ∃ k', k ≤ k' ∧ k' ≤ max k hi ∧ Expects data front k' entry.drain ∧
      Buffered data (k' + 1) hi entry.drain.recv.pending := by
  fun_induction MieruSessionEntry.drain entry generalizing k with
  | case1 entry hnone =>
    refine ⟨k, Nat.le_refl k, Nat.le_max_left k hi, h, fun seq p hlookup => ?_⟩
    obtain ⟨n, hlo, hn, rfl, hp⟩ := hbuffered seq p hlookup
    refine ⟨n, Nat.lt_of_le_of_ne hlo ?_, hn, rfl, hp⟩
    rintro rfl
    rw [h.seq, hlookup] at hnone
    cases hnone
  | case2 entry payload hlookup ih =>
    obtain ⟨n, hlo, hn, hseq, hp⟩ := hbuffered _ _ hlookup
    obtain rfl := ofNat_near (hseq.symm.trans h.seq) hlo (by omega)
    obtain ⟨k', hle, hmax, hexpects, hrest⟩ := ih (h.deliver hp _) (fun seq p hp' => by
      rw [lookup_erase_ite] at hp'
      obtain ⟨hne, hp'⟩ := Option.ite_none_left_eq_some.mp hp'
      obtain ⟨m, hlo, hm, rfl, hdata⟩ := hbuffered seq p hp'
      refine ⟨m, Nat.lt_of_le_of_ne hlo ?_, hm, rfl, hdata⟩
      rintro rfl
      exact hne hseq.symm) (by omega)
    exact ⟨k', by omega, by omega, hexpects, hrest⟩

theorem Buffered.mono {lo hi hi' : ℕ} {pending : Map UInt32 ReceivedPayload} (h : Buffered data lo hi pending)
    (hle : hi ≤ hi') : Buffered data lo hi' pending := by
  intro seq p hp
  obtain ⟨n, hlo, hn, hrest⟩ := h seq p hp
  exact ⟨n, hlo, by omega, hrest⟩

theorem Receives.acceptNext (h : Receives data front k entry) : ∃ k', k ≤ k' ∧ k' ≤ k + maxPendingSegments ∧
    Receives data front k' (entry.acceptNext (data k)).1 := by
  unfold MieruSessionEntry.acceptNext
  split
  · rename_i payload flow hreserved
    have hpayload : payload.payload = data k := by
      obtain ⟨-, hreserved⟩ := Option.ite_none_right_eq_some.mp hreserved
      cases hreserved
      rfl
    have hflow : Expects data front k { entry with flow } := ⟨h.reader, h.seq, h.text⟩
    obtain ⟨k', hle, hmax, hexpects, hrest⟩ := (hflow.deliver hpayload entry.recv.pending).drain h.buffered
      (by unfold maxPendingSegments; omega)
    dsimp only
    rw [MieruSessionEntry.deliver_recv]
    exact ⟨k', by omega, by unfold maxPendingSegments at hmax ⊢; omega, hexpects, hrest.mono (by omega)⟩
  · exact ⟨k, Nat.le_refl k, Nat.le_add_right _ _, h⟩

theorem Receives.acceptAhead {n : ℕ} (h : Receives data front k entry) (hnear : n < k + 2 ^ 31 ∧ k < n + 2 ^ 31)
    (hn : UInt32.ofNat n ≠ entry.recv.nextSeq) :
    Receives data front k (entry.acceptAhead (UInt32.ofNat n) (data n)) := by
  unfold MieruSessionEntry.acceptAhead
  split
  · rename_i hwindow
    split
    · rename_i payload flow hreserved
      obtain ⟨-, hreserved⟩ := Option.ite_none_right_eq_some.mp hreserved
      cases hreserved
      -- the segment is ahead, and by less than the window
      have hahead : k < n ∧ n < k + maxPendingSegments := by
        rw [h.seq] at hn hwindow
        have hne : n ≠ k := fun heq => hn (congrArg UInt32.ofNat heq)
        have hlt := UInt32.lt_iff_toNat_lt.mp hwindow.1
        simp only [UInt32.toNat_sub, UInt32.toNat_ofNat', maxPendingSegments] at hlt ⊢
        omega
      refine ⟨⟨h.reader, h.seq, h.text⟩, fun seq p hp => ?_⟩
      rw [lookup_insert_ite] at hp
      split at hp
      · cases hp
        exact ⟨n, hahead.1, hahead.2, ‹_›, rfl⟩
      · exact h.buffered seq p hp
    · exact h
  · exact h

theorem Receives.accept {n : ℕ} {accepted : MieruSessionEntry × Bool} (h : Receives data front k entry)
    (hnear : n < k + 2 ^ 31 ∧ k < n + 2 ^ 31)
    (haccepted : (if UInt32.ofNat n = entry.recv.nextSeq then entry.acceptNext (data n)
      else (entry.acceptAhead (UInt32.ofNat n) (data n), true)) = accepted) :
    ∃ k', k ≤ k' ∧ k' ≤ k + maxPendingSegments ∧ Receives data front k' accepted.1 := by
  split at haccepted
  · rename_i hseq
    -- numbers that agree on the circle are equal, since they are less than half of it apart
    have hk : n = k := by
      have := congrArg UInt32.toNat (hseq.trans h.seq)
      simp only [UInt32.toNat_ofNat'] at this
      omega
    subst hk haccepted
    exact h.acceptNext
  · subst haccepted
    exact ⟨k, Nat.le_refl k, Nat.le_add_right _ _, h.acceptAhead hnear ‹_›⟩

theorem Receives.acknowledge (h : Receives data front k entry) (unAckSeq : UInt32) (ackProtocol : Option UInt8)
    (immediate : Bool) : Receives data front k (entry.refreshed.acknowledge unAckSeq ackProtocol immediate) ∧
      (entry.refreshed.acknowledge unAckSeq ackProtocol immediate).flow.unAckSeq = unAckSeq ∧
      (entry.refreshed.acknowledge unAckSeq ackProtocol immediate).recv = entry.recv := by
  unfold MieruSessionEntry.acknowledge MieruSessionEntry.send
  split
  · dsimp only
    split <;> exact ⟨⟨⟨h.reader, h.seq, h.text⟩, h.buffered⟩, rfl, rfl⟩
  · exact ⟨⟨⟨h.reader, h.seq, h.text⟩, h.buffered⟩, rfl, rfl⟩

theorem Receives.route {n : ℕ} {ackProtocol : Option UInt8} {entry' : MieruSessionEntry}
    (h : Receives data front k entry) (hordered : entry.ordered = true) (hnear : n < k + 2 ^ 31 ∧ k < n + 2 ^ 31)
    (hroute : entry.route (UInt32.ofNat n) (data n) ackProtocol = some (.ok entry')) :
    ∃ k', k ≤ k' ∧ k' ≤ k + maxPendingSegments ∧ Receives data front k' entry' ∧
      entry'.flow.unAckSeq = entry'.recv.nextSeq := by
  unfold MieruSessionEntry.route at hroute
  rw [if_pos hordered] at hroute
  generalize haccepted : (if UInt32.ofNat n = entry.recv.nextSeq then entry.acceptNext (data n)
    else (entry.acceptAhead (UInt32.ofNat n) (data n), true)) = accepted at hroute
  simp only [Option.some.injEq, Outcome.ok.injEq] at hroute
  subst hroute
  obtain ⟨k', hle, hmax, hreceives⟩ := h.accept hnear haccepted
  obtain ⟨hacked, hseq, hrecv⟩ := hreceives.acknowledge accepted.1.refreshed.recv.nextSeq ackProtocol accepted.2
  exact ⟨k', hle, hmax, hacked, by rw [hrecv]; exact hseq⟩

end

namespace Reception

variable (data : ℕ → Bytes)

/-- Segments of a peer that numbers them, none of them half a circle off; and a reader that stays. -/
def Honest (s : Reception) : Arrival → Prop
  | .segment seq payload _ =>
    ∃ n, seq = UInt32.ofNat n ∧ payload = data n ∧ n < s.next + 2 ^ 31 ∧ s.next < n + 2 ^ 31
  | .task task => task ≠ .quit

structure InOrder (s : Reception) : Prop where
  ordered : s.entry.ordered = true
  receives : Receives data s.taken.flatten s.next s.entry
  acked : s.entry.flow.unAckSeq = s.entry.recv.nextSeq

variable {data} {s s' : Reception}

/-- What the delivery depends on is left alone by every task but the one that ends; a payload that
leaves the queue is handed over. -/
theorem act_view {task : SessionTask} (hquit : task ≠ .quit) (entry : MieruSessionEntry) :
    (entry.act task).readerGone = entry.readerGone ∧ (entry.act task).recv = entry.recv ∧
      (entry.act task).flow.unAckSeq = entry.flow.unAckSeq ∧
      entry.handed task ++ (entry.act task).inbound.map (·.payload) = entry.inbound.map (·.payload) := by
  cases task with
  | quit => exact absurd rfl hquit
  | take =>
    cases hin : entry.inbound with
    | nil | cons => simp [MieruSessionEntry.act, MieruSessionEntry.handed, hin]
  | release =>
    simp only [MieruSessionEntry.act, MieruSessionEntry.send]
    split
    · split
      · split <;> exact ⟨rfl, rfl, rfl, rfl⟩
      · exact ⟨rfl, rfl, rfl, rfl⟩
    · exact ⟨rfl, rfl, rfl, rfl⟩
  | write payload | shutdown =>
    simp only [MieruSessionEntry.act, MieruSessionEntry.send]
    split <;> exact ⟨rfl, rfl, rfl, rfl⟩
  | pop | stop => exact ⟨rfl, rfl, rfl, rfl⟩

theorem InOrder.step {a : Arrival} (h : s.InOrder data) (hok : s.Honest data a) (hs : s.step a = some s') :
    s'.InOrder data := by
  rcases step_cases hs with
    ⟨seq, payload, ackProtocol, rfl, hroute, htaken, hnext⟩ | ⟨task, rfl, hact, hnext, htaken, -⟩
  · obtain ⟨n, rfl, rfl, hnear⟩ := hok
    obtain ⟨k', hle, hmax, hreceives, hacked⟩ := h.receives.route h.ordered hnear hroute
    -- the history counts what the entry's own number has advanced by
    have hk : s'.next = k' := by
      rw [hnext, h.receives.seq, hreceives.seq, ofNat_sub_toNat hle (by unfold maxPendingSegments at hmax; omega)]
      omega
    have hordered := congrArg Prod.fst (s.entry.fixed_route hroute)
    exact ⟨hordered.trans h.ordered, by rw [hk, htaken]; exact hreceives, hacked⟩
  · obtain ⟨hreader, hrecv, hack, hinbound⟩ := act_view hok s.entry
    have hordered := congrArg Prod.fst (s.entry.fixed_act task)
    rw [← hact] at hreader hrecv hack hinbound hordered
    have htext : s'.taken.flatten ++ (s'.entry.inbound.map (·.payload)).flatten = sent data s.next := by
      rw [← h.receives.text, ← hinbound, htaken]
      simp
    refine ⟨hordered.trans h.ordered, ?_, by rw [hack, hrecv]; exact h.acked⟩
    rw [hnext]
    exact ⟨⟨hreader.trans h.receives.reader, by rw [hrecv]; exact h.receives.seq, htext⟩,
      by rw [hrecv]; exact h.receives.buffered⟩

/-- Of a peer that numbers its segments the reader of a reliable session gets exactly the first ones,
each once and in order, whatever of them is lost, repeated or overtaken on the way; and the number
that is acknowledged is the number of those. -/
theorem reliable_in_order {mtu writer : ℕ} {opener : MieruUserSecret} {as : List Arrival} {s : Reception}
    (hrun : Steps step (Honest data) (start mtu true writer opener) as s) :
    (s.taken ++ s.entry.inbound.map (·.payload)).flatten = sent data s.next ∧
      s.entry.flow.unAckSeq = UInt32.ofNat s.next := by
  have h : s.InOrder data := by
    refine hrun.invariant (InOrder data) (fun _ _ _ h hok hstep => h.step hok hstep) ?_
    exact ⟨rfl, ⟨⟨rfl, rfl, rfl⟩, fun seq p hp => (by cases hp)⟩, rfl⟩
  exact ⟨by rw [List.flatten_append]; exact h.receives.text, h.acked.trans h.receives.seq⟩

/-- The guard for a peer that sends its own numbers, as a check. -/
def checked (s : Reception) : Arrival → Bool
  | .segment seq payload _ =>
    payload = [UInt8.ofNat seq.toNat] ∧ seq.toNat < s.next + 2 ^ 31 ∧ s.next < seq.toNat + 2 ^ 31
  | .task task => task ≠ .quit

theorem honest_of_checked {a : Arrival} (h : s.checked a = true) :
    s.Honest (fun n => [UInt8.ofNat n]) a := by
  cases a with
  | segment seq payload ackProtocol =>
    obtain ⟨hpayload, hnear⟩ := of_decide_eq_true h
    exact ⟨seq.toNat, UInt32.ofNat_toNat.symm, hpayload, hnear⟩
  | task task =>
    have hquit : task ≠ .quit := of_decide_eq_true h
    exact hquit

/-- Segment 1 overtakes 0 and comes once more, 2 is lost, and the reader takes what has come. -/
theorem overtaken_segment_in_order : ∃ s,
    Steps step (Honest fun n => [UInt8.ofNat n]) (start 1400 true 0 ⟨"user", "password", []⟩)
      [.segment 1 [1] none, .segment 0 [0] none, .task .take, .segment 1 [1] none, .task .release,
        .segment 3 [3] none, .task .take] s ∧ s.taken = [[0], [1]] ∧
    (s.taken ++ s.entry.inbound.map (·.payload)).flatten = sent (fun n => [UInt8.ofNat n]) s.next := by
  obtain ⟨s, hrun, htaken⟩ := @steps_of_replay _ _ (guarded step (checked · ·))
    (start 1400 true 0 ⟨"user", "password", []⟩)
    [.segment 1 [1] none, .segment 0 [0] none, .task .take, .segment 1 [1] none, .task .release,
      .segment 3 [3] none, .task .take] (fun s => decide (s.taken = [[0], [1]])) (by decide +kernel)
  have hhonest : Steps step (Honest fun n => [UInt8.ofNat n]) _ _ s :=
    hrun.of_guarded.mono fun _ _ => honest_of_checked
  exact ⟨s, hhonest, of_decide_eq_true htaken, (reliable_in_order hhonest).1⟩

end Reception

end Aerion.Mieru
