import Aerion.Lib.Outcome
import Mathlib.Data.List.GetD

/-!
# Reading to the end

A reader is called again and again, each time with a buffer of some size. If
every call on a buffer that is not empty returns a part of what is still
ahead, and nothing once nothing is ahead, the calls together return exactly
what was ahead at first, whatever the sizes are.
-/

namespace Lib

open Outcome

variable {σ κ α : Type}

/-- The reader after a number of calls. -/
def readerAfter (read : κ → Stateful σ α) (calls : ℕ → κ) (s : σ) : ℕ → σ
  | 0 => s
  | n + 1 => (read (calls n) (readerAfter read calls s n)).2

/-- What a call returns. -/
def callResult (read : κ → Stateful σ α) (calls : ℕ → κ) (s : σ) (n : ℕ) : Outcome α :=
  (read (calls n) (readerAfter read calls s n)).1

section

variable {read : κ → Stateful σ α} {calls : ℕ → κ} {s : σ}

theorem readerAfter_succ (n : ℕ) :
    readerAfter read calls s (n + 1) =
      readerAfter read (fun i => calls (i + 1)) (read (calls 0) s).2 n := by
  induction n with
  | zero => rfl
  | succ n ih => rw [readerAfter, ih, readerAfter]

theorem callResult_succ (n : ℕ) :
    callResult read calls s (n + 1) =
      callResult read (fun i => calls (i + 1)) (read (calls 0) s).2 n := by
  rw [callResult, readerAfter_succ]
  rfl

end

section

variable {read : ℕ → Stateful σ Bytes} {sizes : ℕ → ℕ} {s : σ}

/-- What one call does with the bytes that are ahead. -/
structure Drains (read : ℕ → Stateful σ Bytes) (Ahead : σ → Bytes → Prop) : Prop where
  part : ∀ {size s left}, 0 < size → Ahead s left → left ≠ [] →
    ∃ bytes rest, (read size s).1 = .ok bytes ∧ bytes ≠ [] ∧ left = bytes ++ rest ∧ Ahead (read size s).2 rest
  nothing : ∀ {size s}, 0 < size → Ahead s [] → (read size s).1 = .ok [] ∧ Ahead (read size s).2 []

variable {Ahead : σ → Bytes → Prop}

theorem Drains.ended (h : Drains read Ahead) (hsizes : ∀ i, 0 < sizes i) (hs : Ahead s []) (n : ℕ) :
    callResult read sizes s n = .ok [] ∧ Ahead (readerAfter read sizes s n) [] := by
  induction n with
  | zero => exact ⟨(h.nothing (hsizes 0) hs).1, hs⟩
  | succ n ih =>
    have hnext := (h.nothing (hsizes n) ih.2).2
    exact ⟨(h.nothing (hsizes (n + 1)) hnext).1, hnext⟩

theorem readerAfter_add (n m : ℕ) :
    readerAfter read sizes s (n + m) =
      readerAfter read (fun i => sizes (n + i)) (readerAfter read sizes s n) m := by
  induction m with
  | zero => rfl
  | succ m ih => rw [Nat.add_succ, readerAfter, ih, readerAfter]

theorem pieces_of_part
    (hpart : ∀ {size s left}, 0 < size → Ahead s left → left ≠ [] →
      ∃ bytes rest, (read size s).1 = .ok bytes ∧ bytes ≠ [] ∧ left = bytes ++ rest ∧ Ahead (read size s).2 rest)
    (hsizes : ∀ i, 0 < sizes i) {left : Bytes} (hs : Ahead s left) :
    ∃ pieces : List Bytes, pieces.flatten = left ∧ (∀ piece ∈ pieces, piece ≠ []) ∧
      (∀ n < pieces.length, callResult read sizes s n = .ok (pieces.getD n [])) ∧
      ∀ n ≤ pieces.length, Ahead (readerAfter read sizes s n) (pieces.drop n).flatten := by
  -- Every piece is at least one byte, so the induction is on the number of bytes ahead.
  induction hlen : left.length using Nat.strongRecOn generalizing left s sizes with
  | _ length ih =>
    by_cases hleft : left = []
    · subst hleft
      refine ⟨[], rfl, nofun, nofun, fun n hn => ?_⟩
      obtain rfl := Nat.le_zero.mp hn
      exact hs
    · obtain ⟨bytes, rest, hresult, hbytes, rfl, hrest⟩ := hpart (hsizes 0) hs hleft
      have hshorter : rest.length < length := by
        have := List.length_pos_of_ne_nil hbytes
        rw [List.length_append] at hlen
        omega
      obtain ⟨pieces, hflat, hpieces, hresults, hahead⟩ :=
        ih rest.length hshorter (fun i => hsizes (i + 1)) hrest rfl
      refine ⟨bytes :: pieces, by rw [List.flatten_cons, hflat], ?_, fun n hn => ?_, fun n hn => ?_⟩
      · simpa using ⟨hbytes, hpieces⟩
      · cases n with
        | zero => exact hresult
        | succ n =>
          rw [callResult_succ, hresults n (Nat.lt_of_succ_lt_succ hn)]
          rfl
      · cases n with
        | zero =>
          rw [List.drop_zero, List.flatten_cons, hflat]
          exact hs
        | succ n =>
          rw [readerAfter_succ]
          exact hahead n (Nat.le_of_succ_le_succ hn)

theorem Drains.pieces (h : Drains read Ahead) (hsizes : ∀ i, 0 < sizes i) {left : Bytes}
    (hs : Ahead s left) :
    ∃ pieces : List Bytes, pieces.flatten = left ∧ (∀ piece ∈ pieces, piece ≠ []) ∧
      (∀ n, callResult read sizes s n = .ok (pieces.getD n [])) ∧
      ∀ n, Ahead (readerAfter read sizes s n) (pieces.drop n).flatten := by
  obtain ⟨pieces, hflat, hpieces, hresults, hahead⟩ := pieces_of_part h.part hsizes hs
  have hend : Ahead (readerAfter read sizes s pieces.length) [] := by
    simpa using hahead pieces.length (Nat.le_refl _)
  have hlater := h.ended (fun i => hsizes (pieces.length + i)) hend
  refine ⟨pieces, hflat, hpieces, fun n => ?_, fun n => ?_⟩
  · by_cases hn : n < pieces.length
    · exact hresults n hn
    · obtain ⟨m, rfl⟩ := Nat.exists_eq_add_of_le (Nat.not_lt.mp hn)
      rw [List.getD_eq_default _ _ (Nat.le_add_right _ m), callResult, readerAfter_add]
      exact (hlater m).1
  · by_cases hn : n ≤ pieces.length
    · exact hahead n hn
    · obtain ⟨m, rfl⟩ := Nat.exists_eq_add_of_le (Nat.le_of_not_le hn)
      rw [List.drop_of_length_le (Nat.le_add_right _ m), readerAfter_add]
      exact (hlater m).2

end

end Lib
