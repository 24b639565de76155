import Mathlib.Data.List.Basic

/-!
# Lists that grow at their end

The tasks or associations of a system stand in the order in which they came.
New ones are added at the end, and the one with a given number is changed in
place.
-/

namespace Lib

variable {α : Type} {xs : List α} {a b : α} {n m : ℕ}

theorem getElem?_snoc (h : (xs ++ [b])[n]? = some a) : xs[n]? = some a ∨ n = xs.length ∧ a = b := by
  rcases Nat.lt_or_ge n xs.length with hlt | hge
  · exact .inl (List.getElem?_append_left hlt ▸ h)
  · rw [List.getElem?_append_right hge] at h
    obtain ⟨hlen, rfl⟩ := List.getElem?_eq_some_iff.mp h
    rw [List.length_singleton] at hlen
    exact .inr ⟨by omega, by simp⟩

theorem getElem?_snoc_left (h : xs[n]? = some a) : (xs ++ [b])[n]? = some a :=
  List.getElem?_append_left (List.getElem?_eq_some_iff.mp h).1 ▸ h

theorem modify_snoc (f : α → α) : (xs ++ [a]).modify xs.length f = xs ++ [f a] := by
  induction xs with
  | nil => rfl
  | cons b xs ih => simpa using ih

theorem mem_modify {f : α → α} (h : a ∈ xs.modify n f) : a ∈ xs ∨ ∃ b, xs[n]? = some b ∧ a = f b := by
  obtain ⟨m, hm⟩ := List.mem_iff_getElem?.mp h
  rw [List.getElem?_modify] at hm
  obtain ⟨b, hb, rfl⟩ := Option.map_eq_some_iff.mp hm
  by_cases hn : n = m
  · subst hn
    exact .inr ⟨b, hb, by simp⟩
  · simp only [hn, if_false]
    exact .inl (List.mem_of_getElem? hb)

theorem mem_modify_of_mem {f : α → α} (hb : xs[n]? = some b) (h : a ∈ xs) : a ∈ xs.modify n f ∨ a = b := by
  obtain ⟨m, hm⟩ := List.mem_iff_getElem?.mp h
  by_cases hn : n = m
  · subst hn
    exact .inr (Option.some.inj (hm.symm.trans hb))
  · exact .inl (List.mem_of_getElem? ((List.getElem?_modify_ne _ _ hn).trans hm))

theorem modified_mem {f : α → α} (hb : xs[n]? = some b) : f b ∈ xs.modify n f :=
  List.mem_iff_getElem?.mpr ⟨n, by simp [hb]⟩

theorem exists_mem_modify {f : α → α} {p : α → Prop} (hb : xs[n]? = some b) (hp : p (f b) ↔ p b) :
    (∃ a ∈ xs.modify n f, p a) ↔ ∃ a ∈ xs, p a := by
  constructor
  · rintro ⟨a, ha, hpa⟩
    rcases mem_modify ha with ha | ⟨c, hc, rfl⟩
    · exact ⟨a, ha, hpa⟩
    · obtain rfl := Option.some.inj (hb.symm.trans hc)
      exact ⟨b, List.mem_of_getElem? hb, hp.mp hpa⟩
  · rintro ⟨a, ha, hpa⟩
    rcases mem_modify_of_mem (f := f) hb ha with ha | rfl
    · exact ⟨a, ha, hpa⟩
    · exact ⟨f a, modified_mem hb, hp.mpr hpa⟩

end Lib
