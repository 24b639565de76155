import Mathlib.Data.Nat.Choose.Basic

/-!
# Ranks of finite sets of numbers

A set of `k` numbers, written in decreasing order, has a rank below the
number of such sets: the sum of the binomial coefficients of its elements,
each over its place from the end. No two sets of one size share a rank, and
every number below that of the sets is the rank of one.
-/

namespace Lib

def subsetRank : List ℕ → ℕ
  | [] => 0
  | d :: l => d.choose (l.length + 1) + subsetRank l

theorem subsetRank_lt {n : ℕ} {l : List ℕ} (hl : l.Pairwise (· > ·)) (hn : ∀ d ∈ l, d < n) :
    subsetRank l < n.choose l.length := by
  induction l generalizing n with
  | nil => simp [subsetRank]
  | cons d l ih =>
    obtain ⟨hhead, htail⟩ := List.pairwise_cons.mp hl
    have hrest : subsetRank l < d.choose l.length := ih htail hhead
    have hd : d + 1 ≤ n := hn d List.mem_cons_self
    calc d.choose (l.length + 1) + subsetRank l
        < d.choose (l.length + 1) + d.choose l.length := Nat.add_lt_add_left hrest _
      _ = (d + 1).choose (l.length + 1) := by rw [Nat.choose_succ_succ, Nat.add_comm]
      _ ≤ n.choose (l.length + 1) := Nat.choose_le_choose _ hd

/-- The largest element decides the order of two ranks. -/
theorem subsetRank_lt_of_head_lt {d e : ℕ} {l m : List ℕ} (hl : (d :: l).Pairwise (· > ·))
    (hlen : l.length = m.length) (h : d < e) : subsetRank (d :: l) < subsetRank (e :: m) := by
  have hbelow : ∀ x ∈ d :: l, x < e := by
    intro x hx
    rcases List.mem_cons.mp hx with rfl | hx
    · exact h
    · exact ((List.pairwise_cons.mp hl).1 x hx).trans h
  calc subsetRank (d :: l) < e.choose (d :: l).length := subsetRank_lt hl hbelow
    _ = e.choose (m.length + 1) := by rw [List.length_cons, hlen]
    _ ≤ subsetRank (e :: m) := Nat.le_add_right _ _

theorem subsetRank_injective {l m : List ℕ} (hl : l.Pairwise (· > ·)) (hm : m.Pairwise (· > ·))
    (hlen : l.length = m.length) (h : subsetRank l = subsetRank m) : l = m := by
  induction l generalizing m with
  | nil => exact (List.length_eq_zero_iff.mp hlen.symm).symm
  | cons d l ih =>
    cases m with
    | nil => cases hlen
    | cons e m =>
      have htails : l.length = m.length := Nat.succ.inj hlen
      have hhead : d = e := by
        rcases Nat.lt_trichotomy d e with hlt | heq | hlt
        · exact absurd h (subsetRank_lt_of_head_lt hl htails hlt).ne
        · exact heq
        · exact absurd h.symm (subsetRank_lt_of_head_lt hm htails.symm hlt).ne
      subst hhead
      rw [subsetRank, subsetRank, htails] at h
      rw [ih (List.pairwise_cons.mp hl).2 (List.pairwise_cons.mp hm).2 htails
        (Nat.add_left_cancel h)]

/-- The set of a rank is found from its largest element down. -/
theorem exists_subsetRank {n k r : ℕ} (hr : r < n.choose k) :
    ∃ l : List ℕ, l.length = k ∧ l.Pairwise (· > ·) ∧ (∀ d ∈ l, d < n) ∧ subsetRank l = r := by
  induction n generalizing k r with
  | zero =>
    cases k with
    | zero => exact ⟨[], rfl, .nil, nofun, (Nat.lt_one_iff.mp hr).symm⟩
    | succ k => exact absurd hr (Nat.not_lt_zero r)
  | succ n ih =>
    cases k with
    | zero =>
      rw [Nat.choose_zero_right] at hr
      exact ⟨[], rfl, .nil, nofun, (Nat.lt_one_iff.mp hr).symm⟩
    | succ k =>
      -- Below the binomial of `n` the number `n` is not an element; from there on it is the first.
      rcases Nat.lt_or_ge r (n.choose (k + 1)) with hlow | hhigh
      · obtain ⟨l, hlen, hl, hlt, hrank⟩ := ih hlow
        exact ⟨l, hlen, hl, fun d hd => (hlt d hd).trans (Nat.lt_succ_self n), hrank⟩
      · rw [Nat.choose_succ_succ'] at hr
        obtain ⟨l, hlen, hl, hlt, hrank⟩ := @ih k (r - n.choose (k + 1)) (by omega)
        refine ⟨n :: l, by rw [List.length_cons, hlen], List.pairwise_cons.mpr ⟨hlt, hl⟩, ?_, ?_⟩
        · rintro d (_ | ⟨_, hd⟩)
          · exact Nat.lt_succ_self n
          · exact (hlt d hd).trans (Nat.lt_succ_self n)
        · rw [subsetRank, hlen, hrank]
          omega

end Lib
