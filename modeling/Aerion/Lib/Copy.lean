import Aerion.Lib.Outcome
import Aerion.Lib.Steps

/-!
# Copying a stream

One direction of a relay: bytes arrive from a source, are read into a buffer,
and are written to a sink, which is shut down behind the last byte once the
source has ended. Reads and writes move as many bytes as they like. Nothing is
lost, repeated or moved, and a copy that can do nothing has delivered all.
-/

namespace Lib

structure Pipe where
  /-- All that the source has sent. -/
  sent : Bytes
  /-- What has arrived and was not read. -/
  queued : Bytes
  ended : Bool
  held : Bytes
  readDone : Bool
  sunk : Bytes
  shut : Bool
  deriving DecidableEq, Repr

inductive CopyStep where
  | fill (n : ℕ)
  | write (n : ℕ)
  | shutdown
  deriving DecidableEq, Repr

namespace Pipe

def start : Pipe := ⟨[], [], false, [], false, [], false⟩

/-- The source sends. -/
def send (p : Pipe) (bytes : Bytes) : Option Pipe :=
  if p.ended then none else some { p with sent := p.sent ++ bytes, queued := p.queued ++ bytes }

def finish (p : Pipe) : Option Pipe :=
  if p.ended then none else some { p with ended := true }

/-- A read into the free part of the buffer, which notices the end only where nothing is queued. -/
def fill (size : ℕ) (p : Pipe) (n : ℕ) : Option Pipe :=
  if p.readDone then none
  else if p.queued = [] then if p.ended then some { p with readDone := true } else none
  else if 0 < n ∧ n ≤ p.queued.length ∧ p.held.length + n ≤ size then
    some { p with queued := p.queued.drop n, held := p.held ++ p.queued.take n }
  else none

def write (p : Pipe) (n : ℕ) : Option Pipe :=
  if 0 < n ∧ n ≤ p.held.length then
    some { p with held := p.held.drop n, sunk := p.sunk ++ p.held.take n }
  else none

def shutdown (p : Pipe) : Option Pipe :=
  if p.readDone ∧ p.held = [] ∧ ¬p.shut then some { p with shut := true } else none

def step (size : ℕ) (p : Pipe) : CopyStep → Option Pipe
  | .fill n => p.fill size n
  | .write n => p.write n
  | .shutdown => p.shutdown

/-- Every byte that was sent is at one place, and the places are in order. -/
structure Intact (p : Pipe) : Prop where
  bytes : p.sent = p.sunk ++ (p.held ++ p.queued)
  done : p.readDone = true → p.ended = true ∧ p.queued = []
  closed : p.shut = true → p.readDone = true ∧ p.held = []

/-- How much a copy can do without its source. -/
def rank (p : Pipe) : ℕ :=
  2 * p.queued.length + p.held.length + (if p.readDone then 0 else 1) + if p.shut then 0 else 1

/-! ### What one step does -/

section

variable {size n : ℕ} {p p' : Pipe} {bytes : Bytes}

theorem send_some (h : p.send bytes = some p') :
    p.ended = false ∧ p' = { p with sent := p.sent ++ bytes, queued := p.queued ++ bytes } := by
  unfold send at h
  split at h
  · cases h
  · rename_i hopen
    exact ⟨Bool.eq_false_iff.mpr hopen, (Option.some.inj h).symm⟩

theorem finish_some (h : p.finish = some p') : p.ended = false ∧ p' = { p with ended := true } := by
  unfold finish at h
  split at h
  · cases h
  · rename_i hopen
    exact ⟨Bool.eq_false_iff.mpr hopen, (Option.some.inj h).symm⟩

theorem fill_some (h : p.fill size n = some p') :
    p.readDone = false ∧
      ((p.queued = [] ∧ p.ended = true ∧ p' = { p with readDone := true }) ∨
        (0 < n ∧ n ≤ p.queued.length ∧
          p' = { p with queued := p.queued.drop n, held := p.held ++ p.queued.take n })) := by
  unfold fill at h
  split_ifs at h with hdone hqueued hended hfits
  · exact ⟨Bool.eq_false_iff.mpr hdone, .inl ⟨hqueued, hended, (Option.some.inj h).symm⟩⟩
  · exact ⟨Bool.eq_false_iff.mpr hdone, .inr ⟨hfits.1, hfits.2.1, (Option.some.inj h).symm⟩⟩

theorem fill_pos (hreading : p.readDone = false) (hn : 0 < n) (hlen : n ≤ p.queued.length)
    (hroom : p.held.length + n ≤ size) :
    p.fill size n = some { p with queued := p.queued.drop n, held := p.held ++ p.queued.take n } := by
  have hqueued : p.queued ≠ [] := List.ne_nil_of_length_pos (by omega)
  rw [fill, if_neg (Bool.eq_false_iff.mp hreading), if_neg hqueued, if_pos ⟨hn, hlen, hroom⟩]

theorem write_some (h : p.write n = some p') :
    0 < n ∧ n ≤ p.held.length ∧
      p' = { p with held := p.held.drop n, sunk := p.sunk ++ p.held.take n } := by
  unfold write at h
  split at h
  · rename_i hn
    exact ⟨hn.1, hn.2, (Option.some.inj h).symm⟩
  · cases h

theorem write_pos (hn : 0 < n) (hlen : n ≤ p.held.length) :
    p.write n = some { p with held := p.held.drop n, sunk := p.sunk ++ p.held.take n } :=
  if_pos ⟨hn, hlen⟩

theorem write_nil (hheld : p.held = []) : p.write n = none := by
  refine if_neg fun hn => ?_
  rw [hheld, List.length_nil] at hn
  omega

theorem shutdown_some (h : p.shutdown = some p') :
    (p.readDone = true ∧ p.held = [] ∧ ¬p.shut) ∧ p' = { p with shut := true } := by
  unfold shutdown at h
  split at h
  · rename_i hready
    exact ⟨hready, (Option.some.inj h).symm⟩
  · cases h

/-! ### Runs of the copy -/

theorem Intact.start : start.Intact := ⟨rfl, nofun, nofun⟩

theorem Intact.send (hp : p.Intact) (h : p.send bytes = some p') : p'.Intact := by
  obtain ⟨hopen, rfl⟩ := send_some h
  refine ⟨?_, fun hdone => ?_, hp.closed⟩
  · show p.sent ++ bytes = p.sunk ++ (p.held ++ (p.queued ++ bytes))
    rw [hp.bytes]
    simp only [List.append_assoc]
  · rw [(hp.done hdone).1] at hopen
    cases hopen

theorem Intact.finish (hp : p.Intact) (h : p.finish = some p') : p'.Intact := by
  obtain ⟨-, rfl⟩ := finish_some h
  exact ⟨hp.bytes, fun hdone => ⟨rfl, (hp.done hdone).2⟩, hp.closed⟩

theorem Intact.step {c : CopyStep} (hp : p.Intact) (h : p.step size c = some p') : p'.Intact := by
  cases c with
  | fill n =>
    obtain ⟨hreading, ⟨hqueued, hended, rfl⟩ | ⟨-, -, rfl⟩⟩ := fill_some h
    · exact ⟨hp.bytes, fun _ => ⟨hended, hqueued⟩, fun hshut => ⟨rfl, (hp.closed hshut).2⟩⟩
    · refine ⟨?_, fun hdone => ?_, fun hshut => ?_⟩
      · show p.sent = p.sunk ++ (p.held ++ p.queued.take n ++ p.queued.drop n)
        rw [List.append_assoc, List.take_append_drop, hp.bytes]
      · exact absurd hdone (Bool.eq_false_iff.mp hreading)
      · exact absurd (hp.closed hshut).1 (Bool.eq_false_iff.mp hreading)
  | write n =>
    obtain ⟨hn, hlen, rfl⟩ := write_some h
    refine ⟨?_, hp.done, fun hshut => ?_⟩
    · show p.sent = p.sunk ++ p.held.take n ++ (p.held.drop n ++ p.queued)
      rw [List.append_assoc, ← List.append_assoc (p.held.take n), List.take_append_drop, hp.bytes]
    · rw [(hp.closed hshut).2, List.length_nil] at hlen
      omega
  | shutdown =>
    obtain ⟨⟨hdone, hheld, -⟩, rfl⟩ := shutdown_some h
    exact ⟨hp.bytes, hp.done, fun _ => ⟨hdone, hheld⟩⟩

/-- What the sink has is the front of what was sent. -/
theorem Intact.sunk_front (hp : p.Intact) : p.sunk <+: p.sent := ⟨_, hp.bytes.symm⟩

theorem rank_step {c : CopyStep} (h : p.step size c = some p') : p'.rank < p.rank := by
  cases c with
  | fill n =>
    obtain ⟨hreading, ⟨-, -, rfl⟩ | ⟨hn, hlen, rfl⟩⟩ := fill_some h
    · simp [rank, hreading]
    · simp only [rank, List.length_append, List.length_take, List.length_drop]
      omega
  | write n =>
    obtain ⟨hn, hlen, rfl⟩ := write_some h
    simp only [rank, List.length_drop]
    omega
  | shutdown =>
    obtain ⟨⟨-, -, hopen⟩, rfl⟩ := shutdown_some h
    simp [rank, hopen]

/-- A copy that can do nothing has delivered all that was sent, and its end. -/
theorem Intact.delivered (hp : p.Intact) (hsize : 0 < size) (hquiet : ∀ c, p.step size c = none) :
    p.sunk = p.sent ∧ (p.ended = true → p.shut = true) := by
  have hheld : p.held = [] := by
    by_contra hne
    have hpos := List.length_pos_of_ne_nil hne
    cases (hquiet (.write 1)).symm.trans (write_pos Nat.one_pos hpos)
  have hqueued : p.queued = [] := by
    by_contra hne
    have hpos := List.length_pos_of_ne_nil hne
    have hreading : p.readDone = false := Bool.eq_false_iff.mpr fun hdone => hne (hp.done hdone).2
    have hroom : p.held.length + 1 ≤ size := by rwa [hheld, List.length_nil, Nat.zero_add]
    cases (hquiet (.fill 1)).symm.trans (fill_pos hreading Nat.one_pos hpos hroom)
  refine ⟨by rw [hp.bytes, hheld, hqueued, List.append_nil, List.append_nil], fun hended => ?_⟩
  by_contra hopen
  by_cases hdone : p.readDone = true
  · have hshut := hquiet .shutdown
    rw [Pipe.step, Pipe.shutdown, if_pos ⟨hdone, hheld, hopen⟩] at hshut
    cases hshut
  · have hfill := hquiet (.fill 1)
    rw [Pipe.step, Pipe.fill, if_neg hdone, if_pos hqueued, if_pos hended] at hfill
    cases hfill

end

end Pipe

end Lib
