import Aerion.Lib.FinMap
import Aerion.Lib.Outcome
import Aerion.Lib.Tally
import Aerion.Sudoku.Hints
import Mathlib.Data.List.Lex
import Mathlib.Order.Fin.Basic

/-!
# Grids and their clues

The 288 grids of four by four cells, and for each of them the sets of four
hints that no other grid shares (`grids` of `src/sudoku/table.rs`). A byte is
sent as such a set for the grid it stands for.
-/

namespace Aerion.Sudoku

open Lib

/-! ### Grids -/

abbrev Grid := List (ℕ × ℕ)

def Grid.at (g : Grid) (cell : ℕ) : ℕ := (g.lookup cell).getD 0

def sameUnit (i pos : ℕ) : Bool :=
  i / 4 == pos / 4 || i % 4 == pos % 4 || (i / 8 == pos / 4 / 2 && i % 4 / 2 == pos % 4 / 2)

/-- `fill`, with `n + 1` cells left from the position on. -/
def fill : ℕ → Grid → List Grid
  | 0, grid => [grid]
  | n + 1, grid =>
    let pos := 15 - n
    [1, 2, 3, 4].flatMap fun value =>
      if grid.any fun e => e.2 == value && sameUnit e.1 pos then [] else fill n ((pos, value) :: grid)

def grids : List Grid := fill 16 []

/-! ### Clues -/

structure Cells where
  a : ℕ
  b : ℕ
  c : ℕ
  d : ℕ
  deriving DecidableEq, Repr

def cellSets : List Cells :=
  (List.range 13).flatMap fun a => (List.range' (a + 1) (14 - (a + 1))).flatMap fun b =>
    (List.range' (b + 1) (15 - (b + 1))).flatMap fun c =>
      (List.range' (c + 1) (16 - (c + 1))).map fun d => ⟨a, b, c, d⟩

def Grid.hint (g : Grid) (p : ℕ) : Group := ⟨((g.at p - 1) <<< 4 ||| p) % 64, Nat.mod_lt _ (by decide)⟩

def Grid.hints (g : Grid) (s : Cells) : Hints := ⟨g.hint s.a, g.hint s.b, g.hint s.c, g.hint s.d⟩

/-- The keys in the order in which they are entered, with the index of their grid. -/
def clueEntries : List (Hints × ℕ) :=
  grids.zipIdx.flatMap fun e => cellSets.map fun s => (clueKey (e.1.hints s), e.2)

/-- `entry(key).and_modify(..).or_insert(index)`, where `none` is `usize::MAX`. -/
def enterClue (m : Map Hints (Option ℕ)) (e : Hints × ℕ) : Map Hints (Option ℕ) :=
  m.insert e.1 (match m.lookup e.1 with
    | none => some e.2
    | some _ => none)

def clues : Map Hints (Option ℕ) :=
  retain (fun _ v => v.isSome) (clueEntries.foldl enterClue ∅)

/-- `encodings[index]`, sorted. -/
def encodings (index : ℕ) : List Hints :=
  ((clues.entries.filter fun e => e.2 = some index).map fun e => e.1).mergeSort
    fun h k => decide (h.toList ≤ k.toList)

/-- `lookup[clue_index(key).unwrap()] = index`. -/
def storeClue (t : ℕ → Option ℕ) (e : Σ _ : Hints, Option ℕ) : Outcome (ℕ → Option ℕ) :=
  match clueIndex e.1 with
  | some slot => if slot < 635376 then .ok (Function.update t slot e.2) else .panic
  | none => .panic

def clueTable : Outcome (ℕ → Option ℕ) := clues.entries.foldlM storeClue fun _ => none

/-! ### Which clues remain -/

def verdict : List (Hints × ℕ) → Option (Option ℕ)
  | [] => none
  | [e] => some (some e.2)
  | _ => some none

theorem lookup_foldl_enterClue (entries : List (Hints × ℕ)) (key : Hints) :
    (entries.foldl enterClue ∅).lookup key = verdict (entries.filter (·.1 = key)) := by
  induction entries using List.reverseRecOn with
  | nil => rfl
  | append_singleton entries e ih =>
    rw [List.foldl_append, List.foldl_cons, List.foldl_nil, enterClue, lookup_insert_ite,
      List.filter_append]
    split
    · rename_i hkey
      subst hkey
      rw [ih, List.filter_cons_of_pos (by simp), List.filter_nil]
      cases entries.filter (·.1 = e.1) with
      | nil => rfl
      | cons e' rest => cases rest <;> rfl
    · rename_i hkey
      rw [ih, List.filter_cons_of_neg (by simpa using Ne.symm hkey), List.filter_nil, List.append_nil]

theorem verdict_one {l : List (Hints × ℕ)} {i : ℕ} (h : verdict l = some (some i)) :
    ∃ key, l = [(key, i)] := by
  match l with
  | [] => cases h
  | [e] =>
    obtain rfl : e.2 = i := by simpa [verdict] using h
    exact ⟨e.1, rfl⟩
  | _ :: _ :: _ => cases h

theorem lookup_clues {key : Hints} {v : Option ℕ} (h : clues.lookup key = some v) :
    ∃ i, v = some i ∧ (key, i) ∈ clueEntries := by
  obtain ⟨hlookup, hsome⟩ := lookup_retain.mp h
  obtain ⟨i, rfl⟩ := Option.isSome_iff_exists.mp hsome
  rw [lookup_foldl_enterClue] at hlookup
  obtain ⟨key', hone⟩ := verdict_one hlookup
  have hmem : (key', i) ∈ clueEntries.filter (·.1 = key) := hone ▸ List.mem_singleton_self _
  obtain ⟨hentry, hkey⟩ := List.mem_filter.mp hmem
  obtain rfl : key' = key := of_decide_eq_true hkey
  exact ⟨i, rfl, hentry⟩

theorem lookup_clues_of_sole {key : Hints} {i : ℕ} (hnodup : clueEntries.Nodup)
    (hmem : (key, i) ∈ clueEntries) (hsole : ∀ e ∈ clueEntries, e.1 = key → e = (key, i)) :
    clues.lookup key = some (some i) := by
  refine lookup_retain.mpr ⟨?_, rfl⟩
  have hperm : (clueEntries.filter (·.1 = key)).Perm [(key, i)] := by
    rw [List.perm_ext_iff_of_nodup (hnodup.filter _) (List.nodup_singleton _)]
    intro e
    rw [List.mem_filter, List.mem_singleton, decide_eq_true_eq]
    exact ⟨fun h => hsole e h.1 h.2, by rintro rfl; exact ⟨hmem, rfl⟩⟩
  rw [lookup_foldl_enterClue, List.perm_singleton.mp hperm]
  rfl

theorem mem_encodings {index : ℕ} {key : Hints} :
    key ∈ encodings index ↔ clues.lookup key = some (some index) := by
  rw [encodings, List.mem_mergeSort, List.mem_map, ← mem_entries]
  constructor
  · rintro ⟨⟨key', v⟩, he, rfl⟩
    obtain ⟨hmem, hv⟩ := List.mem_filter.mp he
    obtain rfl : v = some index := of_decide_eq_true hv
    exact hmem
  · intro h
    exact ⟨⟨key, some index⟩, List.mem_filter.mpr ⟨h, by simp⟩, rfl⟩

/-! ### Hints of full grids -/

/-- The cells below a position have values. -/
def Grid.Filled (g : Grid) (pos : ℕ) : Prop := ∀ p < pos, 1 ≤ g.at p ∧ g.at p ≤ 4

theorem Grid.Filled.cons {g : Grid} {pos value : ℕ} (h : g.Filled pos) (hv : 1 ≤ value ∧ value ≤ 4) :
    Grid.Filled ((pos, value) :: g) (pos + 1) := by
  intro p hp
  by_cases heq : p = pos
  · subst heq
    simpa [Grid.at, List.lookup_cons] using hv
  · have hat : Grid.at ((pos, value) :: g) p = g.at p := by
      have hbeq : (p == pos) = false := by simpa using heq
      rw [Grid.at, List.lookup_cons, hbeq, Grid.at]
    rw [hat]
    exact h p (by omega)

theorem fill_filled {n : ℕ} {grid g : Grid} (hn : n ≤ 16) (h : grid.Filled (16 - n))
    (hg : g ∈ fill n grid) : g.Filled 16 := by
  induction n generalizing grid with
  | zero =>
    obtain rfl := List.mem_singleton.mp hg
    exact h
  | succ n ih =>
    obtain ⟨value, hvalue, hg⟩ := List.mem_flatMap.mp hg
    split at hg
    · cases hg
    · refine ih (by omega) ?_ hg
      have hrange : 1 ≤ value ∧ value ≤ 4 := by
        simp only [List.mem_cons, List.not_mem_nil, or_false] at hvalue
        omega
      have hnext := (show grid.Filled (15 - n) by rwa [show 15 - n = 16 - (n + 1) by omega]).cons hrange
      rwa [show 15 - n + 1 = 16 - n by omega] at hnext

theorem grids_filled {g : Grid} (hg : g ∈ grids) : g.Filled 16 :=
  fill_filled (Nat.le_refl 16) (fun p hp => absurd hp (by omega)) hg

theorem Grid.hint_val {g : Grid} {p : ℕ} (hg : g.Filled 16) (hp : p < 16) :
    (g.hint p).val = (g.at p - 1) * 16 + p := by
  have hat := (hg p hp).2
  have hor : (g.at p - 1) <<< 4 ||| p = (g.at p - 1) * 16 + p := by
    rw [← Nat.shiftLeft_add_eq_or_of_lt hp, Nat.shiftLeft_eq]
  show ((g.at p - 1) <<< 4 ||| p) % 64 = _
  rw [hor, Nat.mod_eq_of_lt (by omega)]

theorem Grid.hint_injective {g g' : Grid} {p q : ℕ} (hg : g.Filled 16) (hg' : g'.Filled 16)
    (hp : p < 16) (hq : q < 16) (h : g.hint p = g'.hint q) : p = q ∧ g.at p = g'.at q := by
  have hval := congrArg Fin.val h
  rw [hint_val hg hp, hint_val hg' hq] at hval
  have hvalue := hg p hp
  have hvalue' := hg' q hq
  omega

def Cells.Increasing (s : Cells) : Prop := s.a < s.b ∧ s.b < s.c ∧ s.c < s.d ∧ s.d < 16

theorem mem_cellSets {s : Cells} : s ∈ cellSets ↔ s.Increasing := by
  obtain ⟨a, b, c, d⟩ := s
  simp only [cellSets, List.mem_flatMap, List.mem_map, List.mem_range, List.mem_range'_1,
    Cells.mk.injEq, Cells.Increasing]
  constructor
  · rintro ⟨a, ha, b, hb, c, hc, d, hd, rfl, rfl, rfl, rfl⟩
    omega
  · rintro ⟨hab, hbc, hcd, hd⟩
    exact ⟨a, by omega, b, by omega, c, by omega, d, by omega, rfl, rfl, rfl, rfl⟩

theorem Grid.hints_pairwise {g : Grid} {s : Cells} (hg : g.Filled 16) (hs : s.Increasing) :
    (g.hints s).toList.Pairwise fun x y : Group => x.val % 16 < y.val % 16 := by
  obtain ⟨hab, hbc, hcd, hd⟩ := hs
  simp only [Hints.toList, Grid.hints, List.pairwise_cons, List.mem_cons, List.not_mem_nil, or_false,
    forall_eq_or_imp, forall_eq, List.Pairwise.nil, and_true, false_imp_iff, implies_true,
    hint_val hg (show s.a < 16 by omega), hint_val hg (show s.b < 16 by omega),
    hint_val hg (show s.c < 16 by omega), hint_val hg hd]
  omega

/-- Two grids have the same values in these cells. -/
def Cells.Agree (s : Cells) (g g' : Grid) : Prop :=
  g.at s.a = g'.at s.a ∧ g.at s.b = g'.at s.b ∧ g.at s.c = g'.at s.c ∧ g.at s.d = g'.at s.d

theorem clueKey_hints_injective {g g' : Grid} {s s' : Cells} (hg : g.Filled 16) (hg' : g'.Filled 16)
    (hs : s.Increasing) (hs' : s'.Increasing) (h : clueKey (g.hints s) = clueKey (g'.hints s')) :
    s = s' ∧ s.Agree g g' := by
  have hperm : (g.hints s).toList.Perm (g'.hints s').toList :=
    (sortedHints_perm _).symm.trans ((show sortedHints _ = sortedHints _ from h) ▸ sortedHints_perm _)
  have hlists : (g.hints s).toList = (g'.hints s').toList :=
    hperm.eq_of_pairwise (fun _ _ _ _ h h' => absurd h (Nat.lt_asymm h')) (g.hints_pairwise hg hs)
      (g'.hints_pairwise hg' hs')
  obtain ⟨a, b, c, d⟩ := s
  obtain ⟨a', b', c', d'⟩ := s'
  simp only [Hints.toList, Grid.hints, List.cons.injEq, and_true] at hlists
  obtain ⟨ha, hb, hc, hd⟩ := hlists
  simp only [Cells.Increasing] at hs hs'
  obtain ⟨rfl, hva⟩ := Grid.hint_injective hg hg' (by omega) (by omega) ha
  obtain ⟨rfl, hvb⟩ := Grid.hint_injective hg hg' (by omega) (by omega) hb
  obtain ⟨rfl, hvc⟩ := Grid.hint_injective hg hg' (by omega) (by omega) hc
  obtain ⟨rfl, hvd⟩ := Grid.hint_injective hg hg' (by omega) (by omega) hd
  exact ⟨rfl, hva, hvb, hvc, hvd⟩

theorem clueKey_increasing {g : Grid} {s : Cells} (hg : g.Filled 16) (hs : s.Increasing) :
    (clueKey (g.hints s)).Increasing := by
  have hnodup : (g.hints s).toList.Nodup := by
    refine (g.hints_pairwise hg hs).imp ?_
    rintro x y h rfl
    exact Nat.lt_irrefl _ h
  have hsorted := (sortedHints_perm (g.hints s)).nodup_iff.mpr hnodup
  obtain ⟨hab, hbc, hcd⟩ := sortedHints_le (g.hints s)
  simp only [Hints.toList, List.nodup_cons, List.mem_cons, List.not_mem_nil, or_false, not_or,
    not_false_eq_true, List.nodup_nil, and_true] at hsorted
  exact ⟨hab.lt_of_ne hsorted.1.1, hbc.lt_of_ne hsorted.2.1.1, hcd.lt_of_ne hsorted.2.2⟩

/-! ### Entries -/

theorem nodup_flatMap_of_key {α β κ : Type} {l : List α} {f : α → List β} (key : β → κ) (of : α → κ)
    (hl : (l.map of).Nodup) (hf : ∀ x ∈ l, (f x).Nodup) (hkey : ∀ x ∈ l, ∀ y ∈ f x, key y = of x) :
    (l.flatMap f).Nodup := by
  rw [List.nodup_flatMap]
  refine ⟨hf, ?_⟩
  refine (List.pairwise_map.mp hl).imp_of_mem fun {x x'} hx hx' hne => ?_
  intro y hy hy'
  exact hne ((hkey x hx y hy).symm.trans (hkey x' hx' y hy'))

theorem cellSets_nodup : cellSets.Nodup := by
  have hmap : ∀ a b c, ((List.range' (c + 1) (16 - (c + 1))).map fun d => Cells.mk a b c d).Nodup :=
    fun a b c => List.Nodup.map (fun _ _ h => (Cells.mk.inj h).2.2.2) List.nodup_range'
  refine nodup_flatMap_of_key Cells.a id (by simpa using List.nodup_range) (fun a _ => ?_) ?_
  · refine nodup_flatMap_of_key Cells.b id (by simpa using List.nodup_range') (fun b _ => ?_) ?_
    · refine nodup_flatMap_of_key Cells.c id (by simpa using List.nodup_range')
        (fun c _ => hmap a b c) ?_
      rintro c - y hy
      obtain ⟨d, -, rfl⟩ := List.mem_map.mp hy
      rfl
    · rintro b - y hy
      obtain ⟨c, -, hy⟩ := List.mem_flatMap.mp hy
      obtain ⟨d, -, rfl⟩ := List.mem_map.mp hy
      rfl
  · rintro a - y hy
    obtain ⟨b, -, hy⟩ := List.mem_flatMap.mp hy
    obtain ⟨c, -, hy⟩ := List.mem_flatMap.mp hy
    obtain ⟨d, -, rfl⟩ := List.mem_map.mp hy
    rfl

theorem mem_zipIdx_grids {e : Grid × ℕ} (h : e ∈ grids.zipIdx) : grids[e.2]? = some e.1 :=
  List.mem_zipIdx_iff_getElem?.mp h

theorem filled_of_getElem? {g : Grid} {i : ℕ} (h : grids[i]? = some g) : g.Filled 16 :=
  grids_filled (List.mem_of_getElem? h)

theorem mem_clueEntries {key : Hints} {i : ℕ} :
    (key, i) ∈ clueEntries ↔ ∃ g s, grids[i]? = some g ∧ s.Increasing ∧ key = clueKey (g.hints s) := by
  simp only [clueEntries, List.mem_flatMap, List.mem_map, Prod.mk.injEq]
  constructor
  · rintro ⟨e, he, s, hs, rfl, rfl⟩
    exact ⟨e.1, s, mem_zipIdx_grids he, mem_cellSets.mp hs, rfl⟩
  · rintro ⟨g, s, hg, hs, rfl⟩
    exact ⟨(g, i), List.mem_zipIdx_iff_getElem?.mpr hg, s, mem_cellSets.mpr hs, rfl, rfl⟩

theorem clueEntries_nodup : clueEntries.Nodup := by
  refine nodup_flatMap_of_key Prod.snd Prod.snd ?_ (fun e he => ?_) ?_
  · rw [List.zipIdx_map_snd]
    exact List.nodup_range'
  · have hg := filled_of_getElem? (mem_zipIdx_grids he)
    refine List.Nodup.map_on (fun s hs s' hs' h => ?_) cellSets_nodup
    exact (clueKey_hints_injective hg hg (mem_cellSets.mp hs) (mem_cellSets.mp hs') (Prod.mk.inj h).1).1
  · rintro e - y hy
    obtain ⟨s, -, rfl⟩ := List.mem_map.mp hy
    rfl

theorem clues_increasing {key : Hints} {v : Option ℕ} (h : clues.lookup key = some v) :
    key.Increasing := by
  obtain ⟨i, -, hentry⟩ := lookup_clues h
  obtain ⟨g, s, hg, hs, rfl⟩ := mem_clueEntries.mp hentry
  exact clueKey_increasing (filled_of_getElem? hg) hs

/-! ### The table of clues -/

theorem storeClue_increasing {t : ℕ → Option ℕ} {e : Σ _ : Hints, Option ℕ} (h : e.1.Increasing) :
    ∃ slot, clueIndex e.1 = some slot ∧ storeClue t e = .ok (Function.update t slot e.2) := by
  have hindex := clueIndex_of_increasing h
  refine ⟨_, hindex, ?_⟩
  unfold storeClue
  rw [hindex]
  exact if_pos (clueIndex_lt h hindex)

theorem foldlM_storeClue {entries : List (Σ _ : Hints, Option ℕ)} (t : ℕ → Option ℕ)
    (hnodup : (entries.map Sigma.fst).Nodup) (hinc : ∀ e ∈ entries, e.1.Increasing) :
    ∃ t', entries.foldlM storeClue t = .ok t' ∧
      (∀ e ∈ entries, ∀ slot, clueIndex e.1 = some slot → t' slot = e.2) ∧
      ∀ slot, (∀ e ∈ entries, clueIndex e.1 ≠ some slot) → t' slot = t slot := by
  induction entries generalizing t with
  | nil => exact ⟨t, rfl, nofun, fun _ _ => rfl⟩
  | cons e entries ih =>
    obtain ⟨hnew, hnodup⟩ := List.nodup_cons.mp hnodup
    have he := hinc e List.mem_cons_self
    obtain ⟨slot, hslot, hstore⟩ := @storeClue_increasing t e he
    obtain ⟨t', hfold, hkept, hother⟩ := ih (Function.update t slot e.2) hnodup
      fun e' he' => hinc e' (List.mem_cons_of_mem _ he')
    refine ⟨t', by rw [List.foldlM_cons, hstore]; exact hfold, ?_, ?_⟩
    · intro e' he' slot' hslot'
      rcases List.mem_cons.mp he' with rfl | he'
      · obtain rfl := Option.some.inj (hslot.symm.trans hslot')
        rw [hother slot, Function.update_self]
        intro e' he' hsame
        have hkeys := clueIndex_injective (hinc e' (List.mem_cons_of_mem _ he')) he (hsame.trans hslot.symm)
        exact hnew (hkeys ▸ List.mem_map_of_mem he')
      · exact hkept e' he' slot' hslot'
    · intro slot' hslot'
      rw [hother slot' fun e' he' => hslot' e' (List.mem_cons_of_mem _ he'),
        Function.update_of_ne]
      rintro rfl
      exact hslot' e List.mem_cons_self hslot

theorem clueTable_spec : ∃ t, clueTable = .ok t ∧ ∀ index key, key ∈ encodings index →
    ∃ slot, clueIndex key = some slot ∧ slot < 635376 ∧ t slot = some index := by
  have hinc : ∀ e ∈ clues.entries, e.1.Increasing :=
    fun e he => clues_increasing (mem_entries.mp he)
  obtain ⟨t, hfold, hkept, -⟩ := foldlM_storeClue (fun _ => none) clues.nodupKeys hinc
  refine ⟨t, hfold, fun index key hkey => ?_⟩
  have hmem : ⟨key, some index⟩ ∈ clues.entries := mem_entries.mpr (mem_encodings.mp hkey)
  have hkeyinc := hinc _ hmem
  have hslot := clueIndex_of_increasing hkeyinc
  exact ⟨_, hslot, clueIndex_lt hkeyinc hslot, hkept _ hmem _ hslot⟩

theorem clueTable_bound {t : ℕ → Option ℕ} (h : clueTable = .ok t) {slot index : ℕ}
    (hslot : t slot = some index) : index < grids.length := by
  obtain ⟨t', hfold, hkept, hother⟩ := foldlM_storeClue (fun _ => none) clues.nodupKeys
    fun e he => clues_increasing (mem_entries.mp he)
  obtain rfl : t' = t := Outcome.ok.inj (hfold.symm.trans h)
  by_cases hentry : ∃ e ∈ clues.entries, clueIndex e.1 = some slot
  · obtain ⟨e, he, hindex⟩ := hentry
    obtain ⟨i, hi, hclue⟩ := lookup_clues (mem_entries.mp he)
    obtain ⟨g, s, hg, -⟩ := mem_clueEntries.mp hclue
    obtain rfl : i = index := by
      rw [hkept e he slot hindex, hi] at hslot
      exact Option.some.inj hslot
    exact (List.getElem?_eq_some_iff.mp hg).1
  · rw [hother slot fun e he hindex => hentry ⟨e, he, hindex⟩] at hslot
    cases hslot

/-- The rank is a perfect index of the sets of four hints, in whatever order they are given; the table
that is filled by it is filled within its bounds, and each clue stands there under its own grid. -/
theorem clueIndex_perfect :
    (∀ h : Hints, (sortedHints h).toList.Perm h.toList ∧ (sortedHints h).toList.Pairwise (· ≤ ·)) ∧
      (∀ h k : Hints, h.toList.Perm k.toList → clueIndex h = clueIndex k) ∧
      (∀ h : Hints, (clueIndex h).isSome = true ↔ h.toList.Nodup) ∧
      (∀ h slot, clueIndex h = some slot → slot < 635376) ∧
      (∀ h k : Hints, h.toList.Nodup → k.toList.Nodup → clueIndex h = clueIndex k →
        h.toList.Perm k.toList) ∧
      (∀ slot < 635376, ∃ h : Hints, h.toList.Nodup ∧ clueIndex h = some slot) ∧
      ∃ t, clueTable = .ok t ∧ ∀ index key, key ∈ encodings index →
        ∃ slot, clueIndex key = some slot ∧ slot < 635376 ∧ t slot = some index :=
  ⟨fun h => ⟨sortedHints_perm h, sortedHints_sorted h⟩, fun _ _ => clueIndex_eq_of_perm,
    fun _ => clueIndex_isSome, fun _ _ => clueIndex_bound, fun _ _ => perm_of_clueIndex_eq,
    fun _ => exists_clueIndex, clueTable_spec⟩

/-! ### Every grid has clues of its own -/

def tellingSets : List Cells := [⟨0, 3, 13, 14⟩, ⟨0, 2, 9, 11⟩, ⟨0, 3, 9, 10⟩, ⟨0, 2, 13, 15⟩]

def Cells.code (s : Cells) (g : Grid) : ℕ := ((g.at s.a * 5 + g.at s.b) * 5 + g.at s.c) * 5 + g.at s.d

theorem Cells.Agree.code_eq {s : Cells} {g g' : Grid} (h : s.Agree g g') : s.code g = s.code g' := by
  obtain ⟨ha, hb, hc, hd⟩ := h
  rw [Cells.code, Cells.code, ha, hb, hc, hd]

set_option maxRecDepth 10000 in
theorem grids_checked : grids.length = 288 ∧ grids.all (fun g => tellingSets.any fun s =>
    !(repeated (grids.map s.code)).testBit (s.code g)) = true := by
  decide +kernel

theorem grids_length : grids.length = 288 := grids_checked.1

theorem exists_telling {i : ℕ} {g : Grid} (hi : grids[i]? = some g) :
    ∃ s : Cells, s.Increasing ∧ ∀ j g', grids[j]? = some g' → s.Agree g g' → j = i := by
  obtain ⟨s, hs, hsole⟩ := List.any_eq_true.mp
    (List.all_eq_true.mp grids_checked.2 g (List.mem_of_getElem? hi))
  have hinc : ∀ s ∈ tellingSets, s.Increasing := by
    simp [tellingSets, Cells.Increasing]
  refine ⟨s, hinc s hs, fun j g' hj hagree => ?_⟩
  have hicode : (grids.map s.code)[i]? = some (s.code g) := by rw [List.getElem?_map, hi]; rfl
  have hjcode : (grids.map s.code)[j]? = some (s.code g) := by
    rw [List.getElem?_map, hj, hagree.code_eq]
    rfl
  exact eq_of_not_repeated hjcode hicode (by simpa using hsole)

theorem encodings_ne_nil {i : ℕ} (h : i < grids.length) : encodings i ≠ [] := by
  obtain ⟨g, hg⟩ : ∃ g, grids[i]? = some g := ⟨_, List.getElem?_eq_getElem h⟩
  obtain ⟨s, hs, hsole⟩ := exists_telling hg
  have hentry : (clueKey (g.hints s), i) ∈ clueEntries := mem_clueEntries.mpr ⟨g, s, hg, hs, rfl⟩
  refine List.ne_nil_of_mem (mem_encodings.mpr (lookup_clues_of_sole clueEntries_nodup hentry ?_))
  rintro ⟨key, j⟩ he rfl
  obtain ⟨g', s', hg', hs', hkey⟩ := mem_clueEntries.mp he
  obtain ⟨rfl, hagree⟩ := clueKey_hints_injective (filled_of_getElem? hg) (filled_of_getElem? hg') hs hs' hkey
  rw [hsole j g' hg' hagree]

-- from here on the tables are known by the theorems above; nothing evaluates them
attribute [irreducible] grids clues encodings clueTable

end Aerion.Sudoku
