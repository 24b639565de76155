import Aerion.Lib.Signed
import Aerion.Sudoku.GoRand
import Aerion.Sudoku.Grid
import Aerion.Sudoku.Layout

/-!
# Tables

A table orders the grids by the key and gives the first 256 of them to the
bytes (`Table` of `src/sudoku/table.rs`). The digest is a parameter, and so
are the seed constants of the shuffle. Four hints are looked up by their
rank and lead to a grid, and the grid to its byte.
-/

namespace Aerion.Sudoku

open Lib Outcome

structure Table where
  order : List ℕ
  inverse : List ℕ
  up : Layout
  down : Layout
  hint : UInt32

def tableMode (mode : String) : Outcome (Bool × Bool × String) :=
  if mode = "" ∨ mode = "entropy" ∨ mode = "prefer_entropy" then .ok (false, false, "prefer_entropy")
  else if mode = "ascii" ∨ mode = "prefer_ascii" then .ok (true, true, "prefer_ascii")
  else if mode = "up_ascii_down_entropy" then .ok (true, false, "up_ascii_down_entropy")
  else if mode = "up_entropy_down_ascii" then .ok (false, true, "up_entropy_down_ascii")
  else .err s!"invalid Sudoku table type {mode}"

/-- `inverse`: the byte of each grid, and 256 for a grid without one. -/
def inverseOf (order : List ℕ) : List ℕ :=
  (order.take 256).zipIdx.foldl (fun inverse e => inverse.set e.1 e.2) (List.replicate order.length 256)

def fingerprint (parts : List String) : Bytes := ("\x00".intercalate parts).toUTF8.toList

/-- `Table::new`, where the shuffle comes to an end within the fuel. -/
def Table.new (sha256 : Bytes → Bytes) (cooked : ℕ → UInt64) (fuel : ℕ) (seed mode pattern : String) :
    Option (Outcome Table) :=
  match tableMode mode with
  | .err e => some (.err e)
  | .panic => some .panic
  | .ok (up, down, canonical) =>
    (GoRand.shuffle cooked fuel (List.range grids.length)
      (ofBeI64 ((sha256 seed.toUTF8.toList).take 8))).map fun shuffled => do
        let order ← shuffled
        let pattern := normalizePattern pattern.toList
        let upPattern := if up then [] else pattern
        let downPattern := if down then [] else pattern
        let hint := ofBe ((sha256 (fingerprint ["sudoku-table-hint", seed, canonical,
          String.ofList upPattern, String.ofList downPattern])).take 4)
        let up ← Layout.new up upPattern
        let down ← Layout.new down downPattern
        return ⟨order, inverseOf order, up, down, UInt32.ofNat hint⟩

def Table.decode (t : Table) (hints : Hints) : Outcome UInt8 := do
  let slot ← need (clueIndex hints) "invalid Sudoku puzzle"
  let table ← clueTable
  let entry ← if slot < 635376 then .ok (table slot) else .panic
  let index ← need entry "invalid Sudoku puzzle"
  let value ← match t.inverse[index]? with
    | some value => .ok value
    | none => .panic
  ensure (value < 256) "Sudoku puzzle is outside byte mapping"
  return UInt8.ofNat value

def Table.layout (t : Table) (down : Bool) : Layout := if down then t.down else t.up

/-! ### Tables that were built -/

structure Table.Sound (t : Table) : Prop where
  order : t.order.Perm (List.range grids.length)
  inverse : t.inverse = inverseOf t.order
  up : t.up.Sound
  down : t.down.Sound

theorem Table.new_sound {sha256 : Bytes → Bytes} {cooked : ℕ → UInt64} {fuel : ℕ}
    {seed mode pattern : String} {t : Table}
    (h : Table.new sha256 cooked fuel seed mode pattern = some (.ok t)) : t.Sound := by
  unfold Table.new at h
  split at h
  · cases h
  · cases h
  · rename_i up down canonical hmode
    obtain ⟨shuffled, hshuffle, h⟩ := Option.map_eq_some_iff.mp h
    obtain ⟨order, rfl, hperm⟩ := GoRand.shuffle_perm hshuffle
    rw [ok_bind] at h
    obtain ⟨upLayout, hup, h⟩ := bind_ok.mp h
    obtain ⟨downLayout, hdown, h⟩ := bind_ok.mp h
    obtain rfl := Outcome.ok.inj h
    exact ⟨hperm, rfl, Layout.new_sound hup, Layout.new_sound hdown⟩

theorem Table.Sound.layout {t : Table} (h : t.Sound) (down : Bool) : (t.layout down).Sound := by
  unfold Table.layout
  split
  · exact h.down
  · exact h.up

/-! ### Bytes and their grids -/

theorem foldl_set_of_ne {entries : List (ℕ × ℕ)} {l : List ℕ} {k : ℕ} (h : ∀ e ∈ entries, e.1 ≠ k) :
    (entries.foldl (fun l e => l.set e.1 e.2) l)[k]? = l[k]? := by
  induction entries generalizing l with
  | nil => rfl
  | cons e entries ih =>
    rw [List.foldl_cons, ih fun e' he' => h e' (List.mem_cons_of_mem _ he'),
      List.getElem?_set_ne (h e List.mem_cons_self)]

theorem foldl_set {entries : List (ℕ × ℕ)} {l : List ℕ} {k v : ℕ}
    (hnodup : (entries.map Prod.fst).Nodup) (hmem : (k, v) ∈ entries) (hk : k < l.length) :
    (entries.foldl (fun l e => l.set e.1 e.2) l)[k]? = some v := by
  induction entries generalizing l with
  | nil => cases hmem
  | cons e entries ih =>
    obtain ⟨hnew, hnodup⟩ := List.nodup_cons.mp hnodup
    rw [List.foldl_cons]
    rcases List.mem_cons.mp hmem with rfl | hmem
    · rw [foldl_set_of_ne, List.getElem?_set_self hk]
      rintro e' he' rfl
      exact hnew (List.mem_map.mpr ⟨e', he', rfl⟩)
    · exact ih hnodup hmem (by rwa [List.length_set])

section

variable {t : Table}

theorem Table.Sound.length (h : t.Sound) : t.order.length = 288 := by
  rw [h.order.length_eq, List.length_range, grids_length]

theorem Table.Sound.order_lt (h : t.Sound) {i grid : ℕ} (hi : t.order[i]? = some grid) :
    grid < grids.length :=
  List.mem_range.mp (h.order.mem_iff.mp (List.mem_of_getElem? hi))

theorem Table.Sound.inverse_order (h : t.Sound) {i grid : ℕ} (hi : t.order[i]? = some grid)
    (hbyte : i < 256) : t.inverse[grid]? = some i := by
  have hgrid : grid < t.order.length := by
    rw [h.length, ← grids_length]
    exact h.order_lt hi
  have hnodup : t.order.Nodup := h.order.nodup_iff.mpr List.nodup_range
  rw [h.inverse, inverseOf]
  refine foldl_set ?_ ?_ (by rwa [List.length_replicate])
  · rw [List.zipIdx_map_fst]
    exact hnodup.sublist (List.take_sublist _ _)
  · refine List.mem_zipIdx_iff_getElem?.mpr ?_
    rw [List.getElem?_take_of_lt hbyte]
    exact hi

theorem Table.Sound.decode_hints (h : t.Sound) {byte : UInt8} {grid : ℕ} {key hints : Hints}
    (hgrid : t.order[byte.toNat]? = some grid) (hkey : key ∈ encodings grid)
    (hperm : hints.toList.Perm key.toList) : t.decode hints = .ok byte := by
  obtain ⟨table, htable, hspec⟩ := clueTable_spec
  obtain ⟨slot, hslot, hlt, hentry⟩ := hspec grid key hkey
  have hindex : clueIndex hints = some slot := by
    rw [← hslot]
    unfold clueIndex
    rw [sortedHints_eq_of_perm hperm]
  have hbyte := byte.toNat_lt
  simp only [Table.decode, hindex, need, ok_bind, htable, if_pos hlt, hentry,
    h.inverse_order hgrid hbyte]
  rw [ensure_pos (decide_eq_true hbyte)]
  simp

theorem inverseOf_length (order : List ℕ) : (inverseOf order).length = order.length := by
  have hset (entries : List (ℕ × ℕ)) (l : List ℕ) :
      (entries.foldl (fun l e => l.set e.1 e.2) l).length = l.length := by
    induction entries generalizing l with
    | nil => rfl
    | cons e entries ih => rw [List.foldl_cons, ih, List.length_set]
  rw [inverseOf, hset, List.length_replicate]

theorem Table.Sound.decode_ne_panic (h : t.Sound) (hints : Hints) : t.decode hints ≠ .panic := by
  obtain ⟨table, htable, -⟩ := clueTable_spec
  unfold Table.decode
  refine (Meets.need).bind_ne_panic fun slot hslot => ?_
  rw [htable, ok_bind, if_pos (clueIndex_bound hslot), ok_bind]
  refine (Meets.need).bind_ne_panic fun index hindex => ?_
  have hlt : index < t.inverse.length := by
    rw [h.inverse, inverseOf_length, h.length, ← grids_length]
    exact clueTable_bound htable hindex
  rw [List.getElem?_eq_getElem hlt]
  dsimp only
  rw [ok_bind]
  exact bind_ne_panic (ensure_ne_panic _ _) nofun

end

end Aerion.Sudoku
