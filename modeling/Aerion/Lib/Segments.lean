import Aerion.Lib.Outcome

/-!
# Streams that arrive in segments

A stream is what the network delivers before it ends, segment by segment. A
read takes bytes of one segment; an exact read goes on until it has them all.
What an exact read returns, and what any read leaves, is determined by the
bytes of the segments and not by where they are cut.
-/

namespace Lib

abbrev Segments := List Bytes

namespace Segments

/-- A read into a buffer of `n` bytes. It returns no byte only at the end; an empty segment delivers
nothing. -/
def read (n : ℕ) : Segments → Bytes × Segments
  | [] => ([], [])
  | [] :: segments => read n segments
  | (b :: segment) :: segments => ((b :: segment).take n, (b :: segment).drop n :: segments)

/-- `read_exact`: reads until there are `n` bytes, or nothing is left. -/
def readExact (n : ℕ) : Segments → Option Bytes × Segments
  | [] => (if n = 0 then some [] else none, [])
  | segment :: segments =>
    if n ≤ segment.length then (some (segment.take n), segment.drop n :: segments)
    else
      let more := readExact (n - segment.length) segments
      (more.1.map (segment ++ ·), more.2)

theorem read_append (n : ℕ) (segments : Segments) :
    (read n segments).1 ++ (read n segments).2.flatten = segments.flatten := by
  induction segments with
  | nil => rfl
  | cons segment segments ih =>
    cases segment with
    | nil => exact ih
    | cons b segment =>
      rw [read, List.flatten_cons, List.flatten_cons, ← List.append_assoc, List.take_append_drop]

theorem read_length_le (n : ℕ) (segments : Segments) : (read n segments).1.length ≤ n := by
  induction segments with
  | nil => exact Nat.zero_le n
  | cons segment segments ih =>
    cases segment with
    | nil => exact ih
    | cons b segment => exact List.length_take_le n _

theorem read_eq_nil {n : ℕ} {segments : Segments} (hn : 0 < n) :
    (read n segments).1 = [] ↔ segments.flatten = [] := by
  induction segments with
  | nil => simp [read]
  | cons segment segments ih =>
    cases segment with
    | nil => exact ih
    | cons b segment =>
      obtain ⟨m, rfl⟩ := Nat.exists_eq_succ_of_ne_zero (Nat.ne_of_gt hn)
      simp [read]

theorem readExact_fst (n : ℕ) (segments : Segments) :
    (readExact n segments).1 =
      if n ≤ segments.flatten.length then some (segments.flatten.take n) else none := by
  induction segments generalizing n with
  | nil =>
    unfold readExact
    cases n <;> rfl
  | cons segment segments ih =>
    unfold readExact
    rw [List.flatten_cons, List.length_append]
    by_cases hn : n ≤ segment.length
    · rw [if_pos hn, if_pos (by omega), List.take_append_of_le_length hn]
    · rw [if_neg hn]
      dsimp only
      rw [ih]
      by_cases hmore : n - segment.length ≤ segments.flatten.length
      · rw [if_pos hmore, if_pos (by omega), Option.map_some, List.take_append,
          List.take_of_length_le (show segment.length ≤ n by omega)]
      · rw [if_neg hmore, if_neg (by omega), Option.map_none]

theorem readExact_snd (n : ℕ) (segments : Segments) :
    (readExact n segments).2.flatten = segments.flatten.drop n := by
  induction segments generalizing n with
  | nil => simp [readExact]
  | cons segment segments ih =>
    unfold readExact
    rw [List.flatten_cons]
    by_cases hn : n ≤ segment.length
    · rw [if_pos hn, List.flatten_cons, List.drop_append_of_le_length hn]
    · rw [if_neg hn, List.drop_append, List.drop_of_length_le (by omega), List.nil_append]
      exact ih _

theorem readExact_append {n : ℕ} {segments : Segments} {bytes rest : Bytes}
    (h : segments.flatten = bytes ++ rest) (hn : bytes.length = n) :
    (readExact n segments).1 = some bytes ∧ (readExact n segments).2.flatten = rest := by
  rw [readExact_fst, readExact_snd, h, List.length_append, if_pos (by omega), ← hn, List.take_left,
    List.drop_left]
  exact ⟨rfl, rfl⟩

theorem readExact_some {n : ℕ} {segments : Segments} {bytes : Bytes}
    (h : (readExact n segments).1 = some bytes) :
    bytes.length = n ∧ segments.flatten = bytes ++ (readExact n segments).2.flatten := by
  rw [readExact_fst] at h
  split at h
  · rename_i hn
    cases h
    rw [readExact_snd, List.take_append_drop]
    exact ⟨List.length_take_of_le hn, rfl⟩
  · cases h

end Segments

end Lib
