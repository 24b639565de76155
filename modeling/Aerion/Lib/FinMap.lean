import Mathlib.Data.List.AList

/-!
# Finite maps

`AList` without dependent values, with lookups stated by cases on the key.
-/

namespace Lib

abbrev Map (κ α : Type) := AList fun _ : κ => α

/-- `HashMap::retain`. -/
def retain {κ α : Type} (p : κ → α → Bool) (m : Map κ α) : Map κ α :=
  ⟨m.entries.filter fun e => p e.1 e.2, m.nodupKeys.sublist List.filter_sublist⟩

section
variable {κ α : Type} [DecidableEq κ] {m : Map κ α} {k k' : κ} {v : α}

theorem lookup_insert_ite :
    (m.insert k v).lookup k' = if k' = k then some v else m.lookup k' := by
  split
  · rename_i h
    subst h
    exact AList.lookup_insert m
  · rename_i h
    exact AList.lookup_insert_ne h

theorem lookup_erase_ite : (m.erase k).lookup k' = if k' = k then none else m.lookup k' := by
  split
  · rename_i h
    subst h
    exact AList.lookup_erase _ _
  · rename_i h
    exact AList.lookup_erase_ne h

theorem mem_entries : ⟨k, v⟩ ∈ m.entries ↔ m.lookup k = some v := AList.mem_lookup_iff.symm

theorem mem_iff_lookup : k ∈ m ↔ ∃ v, m.lookup k = some v := by
  rw [← AList.lookup_isSome, Option.isSome_iff_exists]

theorem lookup_retain {p : κ → α → Bool} :
    (retain p m).lookup k = some v ↔ m.lookup k = some v ∧ p k v = true := by
  rw [← mem_entries, ← mem_entries]
  exact List.mem_filter

theorem entries_erase_succ (h : k ∈ m) : (m.erase k).entries.length + 1 = m.entries.length := by
  have length_keys : ∀ m : Map κ α, m.entries.length = m.keys.length :=
    fun m => (List.length_map _).symm
  have hk : k ∈ m.keys := h
  rw [length_keys, length_keys, AList.keys_erase, List.length_erase_of_mem hk]
  exact Nat.sub_add_cancel (List.length_pos_of_mem hk)

theorem entries_erase_lt (h : k ∈ m) : (m.erase k).entries.length < m.entries.length :=
  Nat.lt_of_succ_le (Nat.le_of_eq (entries_erase_succ h))

end

/-! ### The keys of an update -/

section

variable {κ β : Type} [DecidableEq κ] {m : Map κ β} {k : κ} {v : β}

theorem keys_insert_of_mem (h : k ∈ m) : (m.insert k v).keys.Perm m.keys := by
  rw [AList.keys_insert]
  exact (List.perm_cons_erase (AList.mem_keys.mp h)).symm

theorem keys_insert_of_notMem (h : k ∉ m) : (m.insert k v).keys.Perm (k :: m.keys) := by
  rw [AList.keys_insert, List.erase_of_not_mem (AList.mem_keys.not.mp h)]

theorem keys_erase_of_mem (h : k ∈ m) : (k :: (m.erase k).keys).Perm m.keys := by
  rw [AList.keys_erase]
  exact (List.perm_cons_erase (AList.mem_keys.mp h)).symm

end

end Lib
