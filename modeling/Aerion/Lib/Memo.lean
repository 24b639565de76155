import Aerion.Lib.FinMap
import Aerion.Lib.Outcome

/-!
# Results kept for later

A list of keys is looked up in a map and computed where the map has no
entry; the first failure ends the loop and keeps what was computed before.
As long as every entry is what its key computes to, the result is that of
computing every key anew.
-/

namespace Lib

open Outcome

section
variable {κ α : Type} [DecidableEq κ] (derive : κ → Outcome α)

/-- The results of the keys in order, and the map with the new ones. -/
def memoized : List κ → Map κ α → Outcome (List α) × Map κ α
  | [], cache => (.ok [], cache)
  | k :: ks, cache =>
    match cache.lookup k with
    | some a =>
      let rest := memoized ks cache
      (rest.1 >>= fun as => .ok (a :: as), rest.2)
    | none =>
      match derive k with
      | .ok a =>
        let rest := memoized ks (cache.insert k a)
        (rest.1 >>= fun as => .ok (a :: as), rest.2)
      | .err e => (.err e, cache)
      | .panic => (.panic, cache)

/-- Every entry is what its key computes to. -/
def Fresh (cache : Map κ α) : Prop := ∀ k a, cache.lookup k = some a → derive k = .ok a

variable {derive} {cache : Map κ α}

theorem Fresh.empty : Fresh derive (∅ : Map κ α) := by
  intro k a h
  simp at h

theorem Fresh.retain (h : Fresh derive cache) (p : κ → α → Bool) : Fresh derive (retain p cache) :=
  fun k a hk => h k a (lookup_retain.mp hk).1

theorem Fresh.insert (h : Fresh derive cache) {k : κ} {a : α} (hk : derive k = .ok a) :
    Fresh derive (cache.insert k a) := by
  intro k' a' hlookup
  rw [lookup_insert_ite] at hlookup
  split at hlookup
  · rename_i heq
    cases hlookup
    rw [heq, hk]
  · exact h k' a' hlookup

theorem Fresh.memoized (h : Fresh derive cache) (ks : List κ) :
    Fresh derive (memoized derive ks cache).2 := by
  induction ks generalizing cache with
  | nil => exact h
  | cons k ks ih =>
    rw [Lib.memoized]
    split
    · exact ih h
    · split
      · rename_i hk
        exact ih (h.insert hk)
      · exact h
      · exact h

theorem Fresh.memoized_fst (h : Fresh derive cache) (ks : List κ) :
    (Lib.memoized derive ks cache).1 = ks.mapM derive := by
  induction ks generalizing cache with
  | nil => rfl
  | cons k ks ih =>
    rw [Lib.memoized, List.mapM_cons]
    split
    · rename_i a hlookup
      rw [h k a hlookup, ok_bind]
      exact congrArg (· >>= fun as => .ok (a :: as)) (ih h)
    · split
      · rename_i a hk
        rw [hk, ok_bind]
        exact congrArg (· >>= fun as => .ok (a :: as)) (ih (h.insert hk))
      · rename_i e hk
        rw [hk]
        rfl
      · rename_i hk
        rw [hk]
        rfl

theorem memoized_mem {ks : List κ} {k : κ} {a : α} (h : (memoized derive ks cache).2.lookup k = some a) :
    k ∈ ks ∨ ∃ a', cache.lookup k = some a' := by
  induction ks generalizing cache with
  | nil => exact .inr ⟨a, h⟩
  | cons k₀ ks ih =>
    rw [memoized] at h
    split at h
    · exact (ih h).imp_left (List.mem_cons_of_mem _)
    · split at h
      · rcases ih h with hmem | ⟨a', hlookup⟩
        · exact .inl (List.mem_cons_of_mem _ hmem)
        · rw [lookup_insert_ite] at hlookup
          split at hlookup
          · rename_i heq
            rw [heq]
            exact .inl List.mem_cons_self
          · exact .inr ⟨a', hlookup⟩
      · exact .inr ⟨a, h⟩
      · exact .inr ⟨a, h⟩

end

end Lib
