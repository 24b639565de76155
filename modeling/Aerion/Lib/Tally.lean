import Mathlib.Data.List.Induction
import Mathlib.Data.List.NodupEquivFin
import Mathlib.Data.Nat.Bitwise

/-!
# Numbers that occur once

One pass over a list of numbers, with two words as sets: the numbers met so
far and the numbers met again. A number outside the second set stands at one
place of the list only.
-/

namespace Lib

/-- The set with one more number, and the repeated ones. -/
def tallyStep (s : ℕ × ℕ) (k : ℕ) : ℕ × ℕ := (s.1 ||| 1 <<< k, s.2 ||| (s.1 &&& 1 <<< k))

def repeated (l : List ℕ) : ℕ := (l.foldl tallyStep (0, 0)).2

theorem testBit_one_shiftLeft (k i : ℕ) : (1 <<< k).testBit i = decide (k = i) := by
  rw [Nat.one_shiftLeft, Nat.testBit_two_pow]

/-- After a list: everything in it is in the first set, and what is outside the second was met at
most once. -/
theorem foldl_tallyStep (l : List ℕ) :
    (∀ k ∈ l, (l.foldl tallyStep (0, 0)).1.testBit k = true) ∧
      ∀ k, (l.foldl tallyStep (0, 0)).2.testBit k = false → l.count k ≤ 1 := by
  induction l using List.reverseRecOn with
  | nil => exact ⟨nofun, fun _ _ => Nat.zero_le 1⟩
  | append_singleton l x ih =>
    obtain ⟨hmet, honce⟩ := ih
    rw [List.foldl_append, List.foldl_cons, List.foldl_nil]
    constructor
    · intro k hk
      rw [tallyStep, Nat.testBit_or, testBit_one_shiftLeft]
      rcases List.mem_append.mp hk with hk | hk
      · rw [hmet k hk, Bool.true_or]
      · rw [List.mem_singleton.mp hk, decide_eq_true rfl, Bool.or_true]
    · intro k hk
      rw [tallyStep, Nat.testBit_or, Nat.testBit_and, testBit_one_shiftLeft, Bool.or_eq_false_iff,
        Bool.and_eq_false_iff, decide_eq_false_iff_not] at hk
      obtain ⟨hbefore, hnew⟩ := hk
      rw [List.count_append, List.count_singleton']
      rcases hnew with hunseen | hne
      · have habsent : l.count k = 0 := List.count_eq_zero.mpr fun hmem => by
          rw [hmet k hmem] at hunseen
          cases hunseen
        rw [habsent]
        split <;> omega
      · rw [if_neg hne]
        exact honce k hbefore

theorem eq_of_not_repeated {l : List ℕ} {i j x : ℕ} (hi : l[i]? = some x) (hj : l[j]? = some x)
    (h : (repeated l).testBit x = false) : i = j := by
  by_contra hne
  obtain ⟨hilt, higet⟩ := List.getElem?_eq_some_iff.mp hi
  obtain ⟨hjlt, hjget⟩ := List.getElem?_eq_some_iff.mp hj
  have hcount := (foldl_tallyStep l).2 x h
  have hdup : List.Duplicate x l := by
    rw [List.duplicate_iff_exists_distinct_get]
    rcases Nat.lt_or_gt_of_ne hne with hlt | hlt
    · exact ⟨⟨i, hilt⟩, ⟨j, hjlt⟩, hlt, higet.symm, hjget.symm⟩
    · exact ⟨⟨j, hjlt⟩, ⟨i, hilt⟩, hlt, hjget.symm, higet.symm⟩
  have := List.duplicate_iff_two_le_count.mp hdup
  omega

end Lib
