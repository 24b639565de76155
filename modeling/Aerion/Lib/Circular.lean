import Aerion.Lib.FinMap
import Mathlib.Algebra.Group.Nat.Defs
import Mathlib.Data.List.MinMax
import Mathlib.Data.Nat.Notation

/-!
# Sequence numbers that wrap around

Sequence numbers of 32 bits are compared by how many steps one is ahead of
another. An interval of them is given by its start and by how far ahead its
members may be; it may cross the point at which the numbers start again at
zero.
-/

namespace Lib

/-- The steps up from one number to another. -/
def ahead (a b : UInt32) : ℕ := (b - a).toNat

section
variable {a b c : UInt32}

theorem ahead_of_le (h : a.toNat ≤ b.toNat) : ahead a b = b.toNat - a.toNat := by
  have hb := b.toNat_lt
  rw [ahead, UInt32.toNat_sub]
  omega

theorem ahead_of_lt (h : b.toNat < a.toNat) : ahead a b = 2 ^ 32 - a.toNat + b.toNat := by
  have ha := a.toNat_lt
  rw [ahead, UInt32.toNat_sub]
  omega

theorem ahead_of_passed (h : ahead a b ≤ ahead a c) : ahead b c = ahead a c - ahead a b := by
  unfold ahead at *
  simp only [UInt32.toNat_sub] at *
  have ha := a.toNat_lt
  have hb := b.toNat_lt
  have hc := c.toNat_lt
  omega

/-- Going on from a number beyond is almost all the way round. -/
theorem ahead_of_beyond (h : ahead a c < ahead a b) : ahead b c = 2 ^ 32 - (ahead a b - ahead a c) := by
  unfold ahead at *
  simp only [UInt32.toNat_sub] at *
  have ha := a.toNat_lt
  have hb := b.toNat_lt
  have hc := c.toNat_lt
  omega

theorem ahead_inj (h : ahead a b = ahead a c) : b = c := by
  unfold ahead at h
  simp only [UInt32.toNat_sub] at h
  have ha := a.toNat_lt
  have hb := b.toNat_lt
  have hc := c.toNat_lt
  exact UInt32.toNat_inj.mp (by omega)

end

section
variable {α : Type}

/-- `range(start..).next().or_else(first_key_value)` on an ordered map. -/
def firstFrom (start : UInt32) (m : Map UInt32 α) : Option UInt32 :=
  ((m.keys.filter fun k => start ≤ k).argmin UInt32.toNat).or (m.keys.argmin UInt32.toNat)

variable {start first : UInt32} {m : Map UInt32 α}

theorem firstFrom_none (h : firstFrom start m = none) (k : UInt32) : k ∉ m := by
  rw [firstFrom, Option.or_eq_none_iff, List.argmin_eq_none, List.argmin_eq_none] at h
  intro hk
  have hkeys : k ∈ m.keys := hk
  rw [h.2] at hkeys
  cases hkeys

theorem firstFrom_mem (h : firstFrom start m = some first) : first ∈ m := by
  rw [firstFrom, Option.or_eq_some_iff] at h
  rcases h with h | ⟨-, h⟩
  · exact List.mem_of_mem_filter (List.argmin_mem h)
  · exact List.argmin_mem (f := UInt32.toNat) h

theorem firstFrom_le (h : firstFrom start m = some first) {k : UInt32} (hk : k ∈ m) :
    ahead start first ≤ ahead start k := by
  have hkeys : k ∈ m.keys := hk
  have hfirst := first.toNat_lt
  have hlt := k.toNat_lt
  rw [firstFrom, Option.or_eq_some_iff] at h
  rcases h with h | ⟨hnone, h⟩
  · -- Something is left at or above the start; a key below it comes only after the wrap.
    have hstart : start.toNat ≤ first.toNat :=
      UInt32.le_iff_toNat_le.mp (of_decide_eq_true (List.mem_filter.mp (List.argmin_mem h)).2)
    by_cases habove : start.toNat ≤ k.toNat
    · have hmem : k ∈ m.keys.filter fun k => start ≤ k :=
        List.mem_filter.mpr ⟨hkeys, decide_eq_true (UInt32.le_iff_toNat_le.mpr habove)⟩
      have hle := List.le_of_mem_argmin hmem h
      rw [ahead_of_le hstart, ahead_of_le habove]
      omega
    · rw [ahead_of_le hstart, ahead_of_lt (by omega)]
      omega
  · -- Every key is below the start, and wraps.
    rw [List.argmin_eq_none, List.filter_eq_nil_iff] at hnone
    have hbelow : ∀ k' ∈ m.keys, k'.toNat < start.toNat := fun k' hk' => by
      have hnot := hnone k' hk'
      rw [decide_eq_true_iff, UInt32.le_iff_toNat_le] at hnot
      omega
    have hle := List.le_of_mem_argmin hkeys h
    rw [ahead_of_lt (hbelow first (List.argmin_mem h)), ahead_of_lt (hbelow k hkeys)]
    omega

end

end Lib
