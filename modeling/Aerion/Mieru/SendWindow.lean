import Aerion.Lib.Circular
import Aerion.Mieru.Session

/-!
# The send window of a Mieru packet session

`PacketSendWindow` and the segments that wait for their acknowledgement
(`src/mieru.rs`). The output task numbers its segments with a `u32` that
wraps around; the outstanding ones lie between the last cumulative
acknowledgement and the next number, and `ack` takes those away that an
acknowledgement covers. The window of the congestion control and the
estimate of the round-trip time are floating-point numbers that only decide
when something is sent, so their arithmetic is a parameter.
-/

namespace Aerion.Mieru

open Lib Aerion.Net

structure OutstandingSegment where
  segment : MieruSegment
  attempts : UInt8
  sent : Instant
  deriving DecidableEq, Repr

abbrev Unacked := Map UInt32 OutstandingSegment

/-- `Cubic` and the fields `srtt`, `rtt_var` and `rto`. -/
structure Pacing (κ ρ : Type) where
  cubic : κ
  estimate : ρ
  window : κ → ℕ
  rtt : ρ → ℕ
  rto : ρ → ℕ
  /-- `Cubic::sent`. -/
  onSent : κ → Instant → ℕ → ℕ → κ
  /-- `Cubic::ack`. -/
  onAck : κ → ℕ → ℕ → Instant → Bool → κ
  /-- `Cubic::loss`. -/
  onLoss : κ → Bool → κ
  /-- The estimate after one more sample. -/
  measure : ρ → ℕ → ρ

structure PacketSendWindow (κ ρ : Type) where
  peerAck : UInt32
  peerWindow : ℕ
  congestion : κ
  duplicateAcks : UInt8
  fastRetransmit : Bool
  recoveryUntil : Option UInt32
  estimate : ρ
  deriving DecidableEq, Repr

/-- What the loop of `ack` has found so far. -/
structure Acked where
  unacked : Unacked
  acknowledged : ℕ
  sample : Option ℕ

/-- Removes the acknowledged segments one by one. Every round removes one, so that their number is
fuel enough. -/
def ackLoop (peerAck ack : UInt32) (now : Instant) : ℕ → Acked → Acked
  | 0, acked => acked
  | fuel + 1, acked =>
    match firstFrom peerAck acked.unacked with
    | none => acked
    | some seq =>
      if (ack - seq).toNat = 0 ∨ 2 ^ 31 ≤ (ack - seq).toNat then acked
      else
        -- Only a segment that was sent once gives a sample.
        let sample := match acked.unacked.lookup seq with
          | some segment => if segment.attempts = 1 then some (now - segment.sent) else acked.sample
          | none => acked.sample
        ackLoop peerAck ack now fuel ⟨acked.unacked.erase seq, acked.acknowledged + 1, sample⟩

namespace PacketSendWindow

variable {κ ρ : Type} (P : Pacing κ ρ) (flow : PacketSendWindow κ ρ)

/-- `PacketSendWindow::default`. -/
def new : PacketSendWindow κ ρ where
  peerAck := 0
  peerWindow := 32
  congestion := P.cubic
  duplicateAcks := 0
  fastRetransmit := false
  recoveryUntil := none
  estimate := P.estimate

/-- The third duplicate of an acknowledgement asks for the segment it stops at. -/
def countDuplicate (ack : UInt32) (unacked : Unacked) : PacketSendWindow κ ρ :=
  match unacked.lookup ack with
  | some segment =>
    if ack - flow.peerAck = 0 then
      let duplicateAcks := if flow.duplicateAcks = 255 then 255 else flow.duplicateAcks + 1
      { flow with
        duplicateAcks
        fastRetransmit := flow.fastRetransmit || (duplicateAcks = 3 && segment.attempts = 1) }
    else { flow with duplicateAcks := 0, fastRetransmit := false }
  | none => { flow with duplicateAcks := 0, fastRetransmit := false }

/-- Recovery ends at the number it began with; an acknowledgement on the way to it exposes the next
hole. -/
def recover (advance ack : UInt32) (unacked : Unacked) : PacketSendWindow κ ρ :=
  match flow.recoveryUntil with
  | none => flow
  | some last =>
    if (ack - last).toNat < 2 ^ 31 then { flow with recoveryUntil := none }
    else if 0 < advance ∧ (unacked.lookup ack).any (fun segment => segment.attempts = 1) then
      { flow with fastRetransmit := true }
    else flow

def observe (sample : Option ℕ) : PacketSendWindow κ ρ :=
  match sample with
  | some sample => { flow with estimate := P.measure flow.estimate sample }
  | none => flow

/-- The congestion window grows with what was acknowledged, but not during recovery. -/
def grow (acknowledged : ℕ) (now : Instant) (windowLimited : Bool) : PacketSendWindow κ ρ :=
  if flow.recoveryUntil.isSome then flow
  else
    { flow with
      congestion := P.onAck flow.congestion acknowledged (P.rtt flow.estimate) now windowLimited }

def rejects (ack nextSeq : UInt32) : Bool :=
  2 ^ 31 ≤ (ack - flow.peerAck).toNat || ((ack - nextSeq).toNat < 2 ^ 31 && ack ≠ nextSeq)

def ack (now : Instant) (ack : UInt32) (window : UInt16) (nextSeq : UInt32) (unacked : Unacked) :
    PacketSendWindow κ ρ × Unacked × ℕ :=
  if flow.rejects ack nextSeq then (flow, unacked, 0)
  else
    let advance := ack - flow.peerAck
    let noted := { flow with peerWindow := min window.toNat maxPendingSegments }.countDuplicate ack unacked
    let windowLimited : Bool := P.window noted.congestion ≤ unacked.entries.length * 2
    let acked := ackLoop flow.peerAck ack now unacked.entries.length ⟨unacked, 0, none⟩
    let moved := ({ noted with peerAck := ack }.recover advance ack acked.unacked).observe P acked.sample
    (moved.grow P acked.acknowledged now windowLimited, acked.unacked, acked.acknowledged)

end PacketSendWindow

/-! ### The interval of the outstanding numbers -/

/-- The outstanding numbers lie from `peerAck` up to `nextSeq`, less than half way round. -/
structure Outstanding (peerAck nextSeq : UInt32) (unacked : Unacked) : Prop where
  short : ahead peerAck nextSeq < 2 ^ 31
  inside : ∀ seq ∈ unacked, ahead peerAck seq < ahead peerAck nextSeq

section
variable {peerAck nextSeq ack seq : UInt32} {now : Instant}

theorem stops_iff (hshort : ahead peerAck nextSeq < 2 ^ 31) (hack : ahead peerAck ack ≤ ahead peerAck nextSeq)
    (hseq : ahead peerAck seq < ahead peerAck nextSeq) :
    ((ack - seq).toNat = 0 ∨ 2 ^ 31 ≤ (ack - seq).toNat) ↔ ahead peerAck ack ≤ ahead peerAck seq := by
  change (ahead seq ack = 0 ∨ 2 ^ 31 ≤ ahead seq ack) ↔ _
  rcases Nat.lt_or_ge (ahead peerAck ack) (ahead peerAck seq) with hbefore | hafter
  · rw [ahead_of_beyond hbefore]
    omega
  · rw [ahead_of_passed hafter]
    omega

theorem Outstanding.erase {unacked : Unacked} (h : Outstanding peerAck nextSeq unacked) (first : UInt32) :
    Outstanding peerAck nextSeq (unacked.erase first) :=
  ⟨h.short, fun seq hseq => h.inside seq (AList.mem_erase.mp hseq).2⟩

theorem ackLoop_lookup (hack : ahead peerAck ack ≤ ahead peerAck nextSeq) {fuel : ℕ} {acked : Acked}
    (h : Outstanding peerAck nextSeq acked.unacked) (hfuel : acked.unacked.entries.length ≤ fuel) (seq : UInt32) :
    (ackLoop peerAck ack now fuel acked).unacked.lookup seq =
      if ahead peerAck seq < ahead peerAck ack then none else acked.unacked.lookup seq := by
  induction fuel generalizing acked with
  | zero =>
    have hnil : acked.unacked.entries = [] := List.length_eq_zero_iff.mp (Nat.le_zero.mp hfuel)
    have hnone : acked.unacked.lookup seq = none := by
      rw [AList.lookup, hnil]
      rfl
    rw [ackLoop, hnone, ite_self]
  | succ fuel ih =>
    rw [ackLoop]
    cases hfirst : firstFrom peerAck acked.unacked with
    | none =>
      have hnone : acked.unacked.lookup seq = none := AList.lookup_eq_none.mpr (firstFrom_none hfirst seq)
      rw [hnone, ite_self]
    | some first =>
      have hmem := firstFrom_mem hfirst
      dsimp only
      split
      · -- The first one is not acknowledged, and so none is.
        rename_i hstop
        have hle := (stops_iff h.short hack (h.inside first hmem)).mp hstop
        split
        · rename_i hbefore
          refine AList.lookup_eq_none.mpr fun hseq => ?_
          have hnext := firstFrom_le hfirst hseq
          omega
        · rfl
      · rename_i hgoes
        have hlt := mt (stops_iff h.short hack (h.inside first hmem)).mpr hgoes
        rw [ih (h.erase first) (Nat.le_of_lt_succ (Nat.lt_of_lt_of_le (entries_erase_lt hmem) hfuel)),
          lookup_erase_ite]
        split
        · rfl
        · split
          · rename_i hnot heq
            rw [heq] at hnot
            omega
          · rfl

theorem ackLoop_count {fuel : ℕ} {acked : Acked} :
    (ackLoop peerAck ack now fuel acked).acknowledged +
        (ackLoop peerAck ack now fuel acked).unacked.entries.length =
      acked.acknowledged + acked.unacked.entries.length := by
  induction fuel generalizing acked with
  | zero => rfl
  | succ fuel ih =>
    rw [ackLoop]
    cases hfirst : firstFrom peerAck acked.unacked with
    | none => rfl
    | some first =>
      dsimp only
      split
      · rfl
      · have hone := entries_erase_succ (firstFrom_mem hfirst)
        rw [ih]
        dsimp only
        omega

end

namespace PacketSendWindow

section
variable {κ ρ : Type} {P : Pacing κ ρ} {flow : PacketSendWindow κ ρ} {nextSeq seq : UInt32} {now : Instant}
  {unacked : Unacked}

@[simp] theorem recover_peerAck (advance seq : UInt32) (unacked : Unacked) :
    (flow.recover advance seq unacked).peerAck = flow.peerAck := by
  unfold recover
  split
  · rfl
  · split
    · rfl
    · split <;> rfl

@[simp] theorem observe_peerAck (sample : Option ℕ) : (flow.observe P sample).peerAck = flow.peerAck := by
  unfold observe
  split <;> rfl

@[simp] theorem grow_peerAck (acknowledged : ℕ) (windowLimited : Bool) :
    (flow.grow P acknowledged now windowLimited).peerAck = flow.peerAck := by
  unfold grow
  split <;> rfl

theorem rejects_iff (hshort : ahead flow.peerAck nextSeq < 2 ^ 31) :
    flow.rejects seq nextSeq = true ↔ ahead flow.peerAck nextSeq < ahead flow.peerAck seq := by
  simp only [rejects, Bool.or_eq_true, Bool.and_eq_true, decide_eq_true_eq]
  change (2 ^ 31 ≤ ahead flow.peerAck seq ∨ ahead nextSeq seq < 2 ^ 31 ∧ seq ≠ nextSeq) ↔ _
  rcases Nat.lt_trichotomy (ahead flow.peerAck seq) (ahead flow.peerAck nextSeq) with hbefore | heq | hbeyond
  · rw [ahead_of_beyond hbefore]
    omega
  · have hsame := ahead_inj heq
    simp only [hsame, ne_eq, not_true_eq_false, and_false, or_false]
    omega
  · have hne : seq ≠ nextSeq := by
      rintro rfl
      omega
    rw [ahead_of_passed (Nat.le_of_lt hbeyond)]
    simp only [ne_eq, hne, not_false_eq_true, and_true]
    omega

theorem ack_within (P : Pacing κ ρ) (now : Instant) (window : UInt16)
    (h : Outstanding flow.peerAck nextSeq unacked)
    (hseq : ahead flow.peerAck seq ≤ ahead flow.peerAck nextSeq) :
    (flow.ack P now seq window nextSeq unacked).1.peerAck = seq ∧
      (∀ key, (flow.ack P now seq window nextSeq unacked).2.1.lookup key =
        if ahead flow.peerAck key < ahead flow.peerAck seq then none else unacked.lookup key) ∧
      (flow.ack P now seq window nextSeq unacked).2.2 +
        (flow.ack P now seq window nextSeq unacked).2.1.entries.length = unacked.entries.length := by
  have haccepted : ¬flow.rejects seq nextSeq = true := by
    rw [rejects_iff h.short]
    omega
  rw [ack, if_neg haccepted]
  refine ⟨by simp, fun key => ?_, ?_⟩
  · have hstart : Outstanding flow.peerAck nextSeq (Acked.mk unacked 0 none).unacked := h
    exact ackLoop_lookup hseq hstart (Nat.le_refl _) key
  · rw [ackLoop_count, Nat.zero_add]

theorem ack_outside (P : Pacing κ ρ) (now : Instant) (window : UInt16)
    (h : Outstanding flow.peerAck nextSeq unacked)
    (hseq : ahead flow.peerAck nextSeq < ahead flow.peerAck seq) :
    flow.ack P now seq window nextSeq unacked = (flow, unacked, 0) := by
  rw [ack, if_pos ((rejects_iff h.short).mpr hseq)]

theorem ack_outstanding (P : Pacing κ ρ) (now : Instant) (window : UInt16)
    (h : Outstanding flow.peerAck nextSeq unacked) :
    Outstanding (flow.ack P now seq window nextSeq unacked).1.peerAck nextSeq
      (flow.ack P now seq window nextSeq unacked).2.1 := by
  rcases Nat.lt_or_ge (ahead flow.peerAck nextSeq) (ahead flow.peerAck seq) with hbeyond | hwithin
  · rw [ack_outside P now window h hbeyond]
    exact h
  · have hkept := (ack_within P now window h hwithin).2.1
    rw [(ack_within P now window h hwithin).1]
    have hrest := ahead_of_passed hwithin
    refine ⟨by have := h.short; omega, fun key hkey => ?_⟩
    obtain ⟨segment, hsegment⟩ := mem_iff_lookup.mp hkey
    rw [hkept key] at hsegment
    split at hsegment
    · cases hsegment
    · rename_i hafter
      have hinside := h.inside key (mem_iff_lookup.mpr ⟨segment, hsegment⟩)
      rw [ahead_of_passed (Nat.le_of_not_lt hafter), hrest]
      omega

end

/-- An acknowledgement within the interval of the window, both ends included, removes exactly the
outstanding segments before it; any other changes nothing. -/
theorem ack_removes_exactly {κ ρ : Type} (P : Pacing κ ρ) (flow : PacketSendWindow κ ρ) (now : Instant)
    (seq nextSeq : UInt32) (window : UInt16) (unacked : Unacked) (h : Outstanding flow.peerAck nextSeq unacked) :
    (ahead flow.peerAck seq ≤ ahead flow.peerAck nextSeq →
      ∀ key, (flow.ack P now seq window nextSeq unacked).2.1.lookup key =
        if ahead flow.peerAck key < ahead flow.peerAck seq then none else unacked.lookup key) ∧
      (ahead flow.peerAck nextSeq < ahead flow.peerAck seq →
        flow.ack P now seq window nextSeq unacked = (flow, unacked, 0)) ∧
      Outstanding (flow.ack P now seq window nextSeq unacked).1.peerAck nextSeq
        (flow.ack P now seq window nextSeq unacked).2.1 ∧
      (flow.ack P now seq window nextSeq unacked).2.2 +
        (flow.ack P now seq window nextSeq unacked).2.1.entries.length = unacked.entries.length := by
  refine ⟨fun hwithin => (ack_within P now window h hwithin).2.1,
    fun hbeyond => ack_outside P now window h hbeyond, ack_outstanding P now window h, ?_⟩
  rcases Nat.lt_or_ge (ahead flow.peerAck nextSeq) (ahead flow.peerAck seq) with hbeyond | hwithin
  · rw [ack_outside P now window h hbeyond, Nat.zero_add]
  · exact (ack_within P now window h hwithin).2.2

def constantPacing : Pacing Unit Unit where
  cubic := ()
  estimate := ()
  window _ := 32
  rtt _ := 0
  rto _ := 0
  onSent _ _ _ _ := ()
  onAck _ _ _ _ _ := ()
  onLoss _ _ := ()
  measure _ _ := ()

/-- A segment of data under a number, as it stands among the outstanding ones. -/
def dataSegment (seq : UInt32) : OutstandingSegment where
  segment := ⟨.dataAck ⟨dataClientToServer, 1, seq, 0, 1024, 0, 0, 0, 0⟩, []⟩
  attempts := 1
  sent := 0

def wrappedUnacked : Unacked := (AList.insert 0 (dataSegment 0) ∅).insert 4294967295 (dataSegment 4294967295)

theorem ack_across_wrap :
    Outstanding 4294967295 1 wrappedUnacked ∧
      (({ PacketSendWindow.new constantPacing with peerAck := 4294967295 }).ack constantPacing 5 0 8 1
        wrappedUnacked).2.1.lookup 4294967295 = none ∧
      (({ PacketSendWindow.new constantPacing with peerAck := 4294967295 }).ack constantPacing 5 0 8 1
        wrappedUnacked).2.1.lookup 0 = some (dataSegment 0) := by
  have hkeys : wrappedUnacked.keys = [4294967295, 0] := by decide
  have h : Outstanding 4294967295 1 wrappedUnacked := by
    refine ⟨by decide, fun seq hseq => ?_⟩
    rw [AList.mem_keys, hkeys, List.mem_pair] at hseq
    rcases hseq with rfl | rfl <;> decide
  have hexact := (ack_removes_exactly constantPacing
    { PacketSendWindow.new constantPacing with peerAck := 4294967295 } 5 0 1 8 wrappedUnacked h).1 (by decide)
  exact ⟨h, (hexact 4294967295).trans (by decide), (hexact 0).trans (by decide)⟩

end PacketSendWindow

end Aerion.Mieru
