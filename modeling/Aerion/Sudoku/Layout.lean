import Mathlib.Data.List.FinRange
import Mathlib.Data.Nat.Bitwise
import Aerion.Net.Text
import Aerion.Sudoku.Hints

/-!
# Byte layouts

Which byte of the wire stands for which group of six bits, and which bytes
are padding (`Layout::new` of `src/sudoku/table.rs`). There is one layout for
printable text, one for random bytes and one for each pattern of eight
symbols.
-/

namespace Aerion.Sudoku

open Lib Net

structure Layout where
  encode : Group → UInt8
  decode : UInt8 → Option Group
  padding : Bytes
  packedPadding : Bytes
  marker : UInt8

/-- The table `decode` after the loop over the groups; `none` is 255. -/
def decodeTable (encode : Group → UInt8) : UInt8 → Option Group :=
  (List.finRange 64).foldl (fun t g => Function.update t (encode g) (some g)) fun _ => none

def Layout.assemble (encode : Group → UInt8) (padding : Bytes) (marker : UInt8) : Layout :=
  ⟨encode, decodeTable encode, padding, padding.filter (· ≠ marker), marker⟩

def asciiByte (g : Group) : UInt8 := if g = 63 then 10 else UInt8.ofNat (0x40 ||| g.val)

def Hints.zero : Hints := ⟨0, 0, 0, 0⟩

def asciiLayout : Layout :=
  .assemble asciiByte ((List.range 32).map fun i => UInt8.ofNat (0x20 + i)) 0x3f

def entropyByte (g : Group) : UInt8 := UInt8.ofNat (((g.val &&& 0x30) <<< 1) ||| (g.val &&& 15))

def entropyLayout : Layout :=
  .assemble entropyByte
    ((List.range 8).flatMap fun i => [UInt8.ofNat (0x80 + i), UInt8.ofNat (0x10 + i)]) 0x80

def positions (pattern : Bytes) (symbol : UInt8) : List ℕ :=
  (pattern.zipIdx.filter fun e => e.1 = symbol).map fun e => 7 - e.2

def spread (places : List ℕ) (mask group : ℕ) : ℕ :=
  places.zipIdx.foldl (fun b e => b ||| ((group >>> (5 - e.2)) &&& 1) <<< e.1) mask

/-- `u8::count_ones`. -/
def countOnes (b : ℕ) : ℕ := (List.range 8).countP fun i => b.testBit i

/-- `Vec::dedup`. -/
def dedupRuns {α : Type} [DecidableEq α] : List α → List α
  | [] => []
  | [a] => [a]
  | a :: b :: l => if a = b then dedupRuns (b :: l) else a :: dedupRuns (b :: l)

def clearBit (b bit : ℕ) : ℕ := b &&& (255 ^^^ (1 <<< bit))

def customPadding (x places : List ℕ) (mask : ℕ) : List ℕ :=
  dedupRuns (((List.range 64).flatMap fun group => (x.map (clearBit (spread places mask group))).filter
    fun pad => 5 ≤ countOnes pad).mergeSort)

def customLayout (pattern : Bytes) : Outcome Layout := do
  .ensure (pattern.length = 8) "Sudoku custom table needs eight symbols"
  let x := positions pattern 0x78
  let p := positions pattern 0x70
  let v := positions pattern 0x76
  .ensure (x.length = 2 ∧ p.length = 2 ∧ v.length = 4) "Sudoku custom table needs 2 x, 2 p and 4 v"
  let mask := (1 <<< x.getD 0 0) ||| (1 <<< x.getD 1 0)
  let padding := customPadding x (p ++ v) mask
  match padding with
  | [] => .panic
  | marker :: _ => .ok (.assemble (fun g => UInt8.ofNat (spread (p ++ v) mask g.val))
      (padding.map UInt8.ofNat) (UInt8.ofNat marker))

/-- `pattern.trim().to_ascii_lowercase()`. -/
def normalizePattern (pattern : List Char) : List Char := (trimChars pattern).map Char.toLower

def Layout.new (ascii : Bool) (pattern : List Char) : Outcome Layout :=
  if ascii then .ok asciiLayout
  else if pattern = [] then .ok entropyLayout
  else
    customLayout (String.ofList ((normalizePattern pattern).filter (· ≠ ' '))).toUTF8.toList

/-! ### What a layout guarantees -/

structure Layout.Sound (l : Layout) : Prop where
  decode_encode : ∀ g, l.decode (l.encode g) = some g
  decode_padding : ∀ b ∈ l.padding, l.decode b = none
  marker_mem : l.marker ∈ l.padding
  packed : l.packedPadding = l.padding.filter (· ≠ l.marker)
  packed_ne_nil : l.packedPadding ≠ []

theorem foldl_update_of_ne {encode : Group → UInt8} {b : UInt8} {groups : List Group}
    (t : UInt8 → Option Group) (h : ∀ g ∈ groups, encode g ≠ b) :
    groups.foldl (fun t g => Function.update t (encode g) (some g)) t b = t b := by
  induction groups generalizing t with
  | nil => rfl
  | cons g groups ih =>
    rw [List.foldl_cons, ih _ fun g' hg' => h g' (List.mem_cons_of_mem _ hg'),
      Function.update_of_ne (h g List.mem_cons_self).symm]

theorem decodeTable_of_ne {encode : Group → UInt8} {b : UInt8} (h : ∀ g, encode g ≠ b) :
    decodeTable encode b = none :=
  foldl_update_of_ne _ fun g _ => h g

theorem decodeTable_encode {encode : Group → UInt8} (h : Function.Injective encode) (g : Group) :
    decodeTable encode (encode g) = some g := by
  obtain ⟨before, after, hsplit⟩ := List.append_of_mem (List.mem_finRange g)
  have hnodup := List.nodup_finRange 64
  rw [hsplit, List.nodup_append] at hnodup
  have hafter : ∀ g' ∈ after, encode g' ≠ encode g := by
    intro g' hg' heq
    exact (List.nodup_cons.mp hnodup.2.1).1 (h heq ▸ hg')
  rw [decodeTable, hsplit, List.foldl_append, List.foldl_cons, foldl_update_of_ne _ hafter,
    Function.update_self]

theorem assemble_sound {encode : Group → UInt8} {padding : Bytes} {marker : UInt8}
    (hinj : Function.Injective encode) (hpad : ∀ b ∈ padding, ∀ g, encode g ≠ b)
    (hmarker : marker ∈ padding) (hother : ∃ b ∈ padding, b ≠ marker) :
    (Layout.assemble encode padding marker).Sound where
  decode_encode := decodeTable_encode hinj
  decode_padding b hb := decodeTable_of_ne (hpad b hb)
  marker_mem := hmarker
  packed := rfl
  packed_ne_nil := by
    obtain ⟨b, hb, hne⟩ := hother
    exact List.ne_nil_of_mem (List.mem_filter.mpr ⟨hb, by simpa using hne⟩)

theorem asciiLayout_sound : asciiLayout.Sound := by
  have hinv : Function.LeftInverse (fun b : UInt8 => if b = 10 then 63 else Fin.ofNat 64 b.toNat)
      asciiByte := by
    unfold Function.LeftInverse
    decide
  exact assemble_sound hinv.injective (by decide +kernel) (by decide) ⟨0x20, by decide, by decide⟩

theorem entropyLayout_sound : entropyLayout.Sound := by
  have hinv : Function.LeftInverse
      (fun b : UInt8 => Fin.ofNat 64 (b.toNat / 32 * 16 + b.toNat % 16)) entropyByte := by
    unfold Function.LeftInverse
    decide
  exact assemble_sound hinv.injective (by decide +kernel) (by decide) ⟨0x10, by decide, by decide⟩

/-! ### Patterns -/

theorem mem_positions {pattern : Bytes} {symbol : UInt8} {bit : ℕ} (hlen : pattern.length = 8) :
    bit ∈ positions pattern symbol ↔ bit < 8 ∧ pattern[7 - bit]? = some symbol := by
  simp only [positions, List.mem_map, List.mem_filter, decide_eq_true_eq, List.mem_zipIdx_iff_getElem?]
  constructor
  · rintro ⟨⟨b, i⟩, ⟨hget, rfl⟩, rfl⟩
    have hi := (List.getElem?_eq_some_iff.mp hget).1
    refine ⟨by omega, ?_⟩
    rwa [show 7 - (7 - i) = i by omega]
  · rintro ⟨hbit, hget⟩
    exact ⟨(symbol, 7 - bit), ⟨hget, rfl⟩, by omega⟩

theorem positions_nodup {pattern : Bytes} {symbol : UInt8} (hlen : pattern.length = 8) :
    (positions pattern symbol).Nodup := by
  have hindices : (pattern.zipIdx.map Prod.snd).Nodup := by
    rw [List.zipIdx_map_snd]
    exact List.nodup_range'
  refine List.Nodup.map_on ?_ (hindices.of_map.filter _)
  rintro ⟨b, i⟩ he ⟨b', i'⟩ he' heq
  obtain ⟨he, hb⟩ := List.mem_filter.mp he
  obtain ⟨he', hb'⟩ := List.mem_filter.mp he'
  have hi := (List.getElem?_eq_some_iff.mp (List.mem_zipIdx_iff_getElem?.mp he)).1
  have hi' := (List.getElem?_eq_some_iff.mp (List.mem_zipIdx_iff_getElem?.mp he')).1
  have hsame : i = i' := by dsimp only at hi hi' heq; omega
  have hsymbol : b = b' := (of_decide_eq_true hb).trans (of_decide_eq_true hb').symm
  rw [hsame, hsymbol]

theorem positions_disjoint {pattern : Bytes} {s s' : UInt8} (hlen : pattern.length = 8) (hne : s ≠ s') :
    (positions pattern s).Disjoint (positions pattern s') := by
  intro bit h h'
  have hget := ((mem_positions hlen).mp h).2
  have hget' := ((mem_positions hlen).mp h').2
  exact hne (Option.some.inj (hget.symm.trans hget'))

/-! ### Spreading the bits of a group -/

theorem testBit_bit_shiftLeft (n k place j : ℕ) :
    (((n >>> k) &&& 1) <<< place).testBit j = (decide (place = j) && n.testBit k) := by
  rw [Nat.and_one_is_mod, Nat.testBit_shiftLeft]
  rcases Nat.lt_trichotomy place j with hlt | rfl | hlt
  · have hzero : (n >>> k % 2).testBit (j - place) = false := by
      apply Nat.testBit_lt_two_pow
      calc n >>> k % 2 < 2 ^ 1 := Nat.mod_lt _ (by decide)
        _ ≤ 2 ^ (j - place) := Nat.pow_le_pow_right (by decide) (by omega)
    simp [hzero, hlt.ne]
  · simp [Nat.testBit_eq_decide_div_mod_eq, Nat.shiftRight_eq_div_pow]
  · simp [hlt.ne', Nat.not_le.mpr hlt]

theorem testBit_foldl_spread (entries : List (ℕ × ℕ)) (b group j : ℕ) :
    (entries.foldl (fun b e => b ||| ((group >>> (5 - e.2)) &&& 1) <<< e.1) b).testBit j =
      (b.testBit j || entries.any fun e => decide (e.1 = j) && group.testBit (5 - e.2)) := by
  induction entries generalizing b with
  | nil => simp
  | cons e entries ih =>
    rw [List.foldl_cons, ih, Nat.testBit_or, testBit_bit_shiftLeft, List.any_cons, Bool.or_assoc]

section

variable {places : List ℕ} {mask : ℕ}

theorem testBit_spread_place (hnodup : places.Nodup) (group : ℕ) {i j : ℕ} (hi : places[i]? = some j)
    (hmask : mask.testBit j = false) : (spread places mask group).testBit j = group.testBit (5 - i) := by
  rw [spread, testBit_foldl_spread, hmask, Bool.false_or, Bool.eq_iff_iff]
  simp only [List.any_eq_true, Bool.and_eq_true, decide_eq_true_eq, List.mem_zipIdx_iff_getElem?]
  constructor
  · rintro ⟨⟨j', i'⟩, hget, rfl, hbit⟩
    obtain rfl : i' = i := (List.getElem?_inj (List.getElem?_eq_some_iff.mp hget).1 hnodup).mp
      (hget.trans hi.symm)
    exact hbit
  · exact fun hbit => ⟨(j, i), hi, rfl, hbit⟩

theorem testBit_spread_mask (group : ℕ) {j : ℕ} (hmask : mask.testBit j = true) :
    (spread places mask group).testBit j = true := by
  rw [spread, testBit_foldl_spread, hmask, Bool.true_or]

theorem spread_lt {group : ℕ} (hplaces : ∀ j ∈ places, j < 8) (hmask : mask < 2 ^ 8) :
    spread places mask group < 2 ^ 8 := by
  apply Nat.lt_pow_two_of_testBit
  intro j hj
  have hhigh : mask.testBit j = false :=
    Nat.testBit_lt_two_pow (hmask.trans_le (Nat.pow_le_pow_right (by decide) hj))
  rw [spread, testBit_foldl_spread, hhigh, Bool.false_or, List.any_eq_false]
  rintro ⟨j', i⟩ he
  have hmem : j' ∈ places := List.mem_of_getElem? (List.mem_zipIdx_iff_getElem?.mp he)
  have hne : j' ≠ j := by
    have := hplaces j' hmem
    omega
  simp [hne]

theorem spread_injective (hnodup : places.Nodup) (hlen : places.length = 6)
    (hfree : ∀ j ∈ places, mask.testBit j = false) {g g' : ℕ} (hg : g < 64) (hg' : g' < 64)
    (h : spread places mask g = spread places mask g') : g = g' := by
  apply Nat.eq_of_testBit_eq
  intro k
  by_cases hk : k < 6
  · obtain ⟨j, hj⟩ : ∃ j, places[5 - k]? = some j := ⟨_, List.getElem?_eq_getElem (by omega)⟩
    have hfreej := hfree j (List.mem_of_getElem? hj)
    have hbit := testBit_spread_place hnodup g hj hfreej
    have hbit' := testBit_spread_place hnodup g' hj hfreej
    rw [show 5 - (5 - k) = k by omega] at hbit hbit'
    rw [← hbit, ← hbit', h]
  · have hbound : 2 ^ 6 ≤ 2 ^ k := Nat.pow_le_pow_right (by decide) (by omega)
    rw [Nat.testBit_lt_two_pow (hg.trans_le hbound), Nat.testBit_lt_two_pow (hg'.trans_le hbound)]

end

theorem testBit_clearBit (b bit j : ℕ) (hj : j < 8) :
    (clearBit b bit).testBit j = (b.testBit j && decide (bit ≠ j)) := by
  have hall : Nat.testBit 255 j = true := by
    rw [show (255 : ℕ) = 2 ^ 8 - 1 by decide, Nat.testBit_two_pow_sub_one, decide_eq_true hj]
  rw [clearBit, Nat.testBit_and, Nat.testBit_xor, hall, Nat.one_shiftLeft, Nat.testBit_two_pow]
  by_cases h : bit = j <;> simp [h]

theorem clearBit_lt {b : ℕ} (bit : ℕ) (hb : b < 2 ^ 8) : clearBit b bit < 2 ^ 8 :=
  Nat.and_le_left.trans_lt hb

theorem mem_dedupRuns {α : Type} [DecidableEq α] {l : List α} {x : α} : x ∈ dedupRuns l ↔ x ∈ l := by
  fun_induction dedupRuns l with
  | case1 => rfl
  | case2 a => rfl
  | case3 b l ih => simp [ih]
  | case4 a b l h ih => simp [ih]

/-! ### Custom layouts -/

/-- The places of a pattern that was accepted: two bits of the mask and six of the group. -/
structure Places (x places : List ℕ) : Prop where
  nodup : (x ++ places).Nodup
  small : ∀ j ∈ x ++ places, j < 8
  two : x.length = 2
  six : places.length = 6

namespace Places

variable {x places : List ℕ}

theorem testBit_mask {a b j : ℕ} :
    ((1 <<< a) ||| (1 <<< b)).testBit j = decide (j ∈ [a, b]) := by
  rw [Nat.testBit_or, Nat.one_shiftLeft, Nat.one_shiftLeft, Nat.testBit_two_pow, Nat.testBit_two_pow]
  simp [eq_comm]

variable {a b : ℕ}

theorem mask_lt (h : Places [a, b] places) : (1 <<< a) ||| (1 <<< b) < 2 ^ 8 := by
  apply Nat.lt_pow_two_of_testBit
  intro j hj
  rw [testBit_mask, decide_eq_false_iff_not]
  intro hmem
  have := h.small j (List.mem_append_left _ hmem)
  omega

theorem free (h : Places [a, b] places) : ∀ j ∈ places, ((1 <<< a) ||| (1 <<< b)).testBit j = false := by
  intro j hj
  rw [testBit_mask, decide_eq_false_iff_not]
  exact fun hmem => (List.disjoint_of_nodup_append h.nodup) hmem hj

theorem byte_lt (h : Places [a, b] places) (g : ℕ) :
    spread places ((1 <<< a) ||| (1 <<< b)) g < 2 ^ 8 :=
  spread_lt (fun j hj => h.small j (List.mem_append_right _ hj)) h.mask_lt

theorem byte_injective (h : Places [a, b] places) :
    Function.Injective fun g : Group =>
      UInt8.ofNat (spread places ((1 <<< a) ||| (1 <<< b)) g.val) := by
  intro g g' heq
  have hval := congrArg UInt8.toNat heq
  simp only [UInt8.toNat_ofNat', Nat.mod_eq_of_lt (h.byte_lt _)] at hval
  exact Fin.val_inj.mp (spread_injective (List.nodup_append.mp h.nodup).2.1 h.six h.free g.isLt g'.isLt hval)

theorem clearBit_ne (h : Places [a, b] places) {bit g' : ℕ} (hbit : bit ∈ [a, b]) (g : Group) :
    UInt8.ofNat (spread places ((1 <<< a) ||| (1 <<< b)) g.val) ≠
      UInt8.ofNat (clearBit (spread places ((1 <<< a) ||| (1 <<< b)) g') bit) := by
  intro heq
  have hval := congrArg UInt8.toNat heq
  simp only [UInt8.toNat_ofNat', Nat.mod_eq_of_lt (h.byte_lt _),
    Nat.mod_eq_of_lt (clearBit_lt bit (h.byte_lt _))] at hval
  have hset := @testBit_spread_mask places _ g.val bit (testBit_mask.trans (decide_eq_true hbit))
  rw [hval, testBit_clearBit _ _ _ (h.small bit (List.mem_append_left _ hbit))] at hset
  simp at hset

theorem five_le_countOnes (h : Places [a, b] places) {bit other : ℕ}
    (hx : [bit, other].Perm [a, b]) :
    5 ≤ countOnes (clearBit (spread places ((1 <<< a) ||| (1 <<< b)) 63) bit) := by
  have hnodup : (other :: places).Nodup := by
    have hall : (bit :: other :: places).Nodup := (hx.append_right places).nodup_iff.mpr h.nodup
    exact (List.nodup_cons.mp hall).2
  have hbit : bit ∉ other :: places := by
    have hall : (bit :: other :: places).Nodup := (hx.append_right places).nodup_iff.mpr h.nodup
    exact (List.nodup_cons.mp hall).1
  have hset : ∀ j ∈ other :: places,
      j ∈ (List.range 8).filter fun j =>
        (clearBit (spread places ((1 <<< a) ||| (1 <<< b)) 63) bit).testBit j := by
    intro j hj
    have hsmall : j < 8 := h.small j ((hx.append_right places).subset (List.mem_cons_of_mem _ hj))
    refine List.mem_filter.mpr ⟨List.mem_range.mpr hsmall, ?_⟩
    rw [testBit_clearBit _ _ _ hsmall, Bool.and_eq_true, decide_eq_true_eq]
    refine ⟨?_, by rintro rfl; exact hbit hj⟩
    rcases List.mem_cons.mp hj with rfl | hj
    · exact testBit_spread_mask 63 (testBit_mask.trans (decide_eq_true (hx.subset (by simp))))
    · obtain ⟨i, hi⟩ := List.mem_iff_getElem?.mp hj
      have hi6 : i < 6 := h.six ▸ (List.getElem?_eq_some_iff.mp hi).1
      rw [testBit_spread_place (List.nodup_append.mp h.nodup).2.1 63 hi (h.free j hj),
        show (63 : ℕ) = 2 ^ 6 - 1 by decide, Nat.testBit_two_pow_sub_one, decide_eq_true_eq]
      omega
  have hle := (List.subperm_of_subset hnodup hset).length_le
  rw [List.length_cons, h.six, ← List.countP_eq_length_filter] at hle
  exact Nat.le_trans (by decide) hle

theorem mem_customPadding {mask pad : ℕ} :
    pad ∈ customPadding x places mask ↔
      ∃ g < 64, ∃ bit ∈ x, pad = clearBit (spread places mask g) bit ∧ 5 ≤ countOnes pad := by
  rw [customPadding, mem_dedupRuns, List.mem_mergeSort, List.mem_flatMap]
  constructor
  · rintro ⟨g, hg, hpad⟩
    obtain ⟨hmap, hones⟩ := List.mem_filter.mp hpad
    obtain ⟨bit, hbit, rfl⟩ := List.mem_map.mp hmap
    exact ⟨g, List.mem_range.mp hg, bit, hbit, rfl, of_decide_eq_true hones⟩
  · rintro ⟨g, hg, bit, hbit, rfl, hones⟩
    exact ⟨g, List.mem_range.mpr hg,
      List.mem_filter.mpr ⟨List.mem_map_of_mem hbit, decide_eq_true hones⟩⟩

theorem two_paddings (h : Places [a, b] places) (marker : ℕ) :
    ∃ pad ∈ customPadding [a, b] places ((1 <<< a) ||| (1 <<< b)), UInt8.ofNat pad ≠ UInt8.ofNat marker := by
  have hne : a ≠ b := by
    have := (List.nodup_append.mp h.nodup).1
    simpa using this
  have hfirst : clearBit (spread places ((1 <<< a) ||| (1 <<< b)) 63) a ∈
      customPadding [a, b] places ((1 <<< a) ||| (1 <<< b)) :=
    mem_customPadding.mpr ⟨63, by decide, a, by simp, rfl, h.five_le_countOnes (.refl _)⟩
  have hsecond : clearBit (spread places ((1 <<< a) ||| (1 <<< b)) 63) b ∈
      customPadding [a, b] places ((1 <<< a) ||| (1 <<< b)) :=
    mem_customPadding.mpr ⟨63, by decide, b, by simp, rfl, h.five_le_countOnes (.swap _ _ _)⟩
  have hdiffer : UInt8.ofNat (clearBit (spread places ((1 <<< a) ||| (1 <<< b)) 63) a) ≠
      UInt8.ofNat (clearBit (spread places ((1 <<< a) ||| (1 <<< b)) 63) b) := by
    intro heq
    have hval := congrArg UInt8.toNat heq
    simp only [UInt8.toNat_ofNat', Nat.mod_eq_of_lt (clearBit_lt _ (h.byte_lt _))] at hval
    have hset := @testBit_spread_mask places _ 63 a
      ((@testBit_mask a b a).trans (decide_eq_true (by simp)))
    have ha : a < 8 := h.small a (by simp)
    have hbits := congrArg (Nat.testBit · a) hval
    simp [testBit_clearBit _ _ _ ha, hset, hne.symm] at hbits
  by_cases hmarker : UInt8.ofNat (clearBit (spread places ((1 <<< a) ||| (1 <<< b)) 63) a) =
      UInt8.ofNat marker
  · exact ⟨_, hsecond, fun heq => hdiffer (hmarker.trans heq.symm)⟩
  · exact ⟨_, hfirst, hmarker⟩

end Places

theorem places_of_pattern {pattern : Bytes} (hlen : pattern.length = 8)
    (hx : (positions pattern 0x78).length = 2) (hp : (positions pattern 0x70).length = 2)
    (hv : (positions pattern 0x76).length = 4) :
    Places (positions pattern 0x78) (positions pattern 0x70 ++ positions pattern 0x76) where
  nodup := by
    have hpv := (@positions_nodup pattern 0x70 hlen).append (@positions_nodup pattern 0x76 hlen)
      (positions_disjoint hlen (by decide))
    refine (positions_nodup hlen).append hpv (List.disjoint_append_right.mpr ⟨?_, ?_⟩)
    · exact positions_disjoint hlen (by decide)
    · exact positions_disjoint hlen (by decide)
  small j hj := by
    rcases List.mem_append.mp hj with hj | hj
    · exact ((mem_positions hlen).mp hj).1
    · rcases List.mem_append.mp hj with hj | hj
      · exact ((mem_positions hlen).mp hj).1
      · exact ((mem_positions hlen).mp hj).1
  two := hx
  six := by rw [List.length_append, hp, hv]

theorem customLayout_sound {pattern : Bytes} {l : Layout} (h : customLayout pattern = .ok l) :
    l.Sound := by
  obtain ⟨_, hlen, h⟩ := Outcome.bind_ok.mp h
  obtain ⟨_, hcounts, h⟩ := Outcome.bind_ok.mp h
  have hlen := of_decide_eq_true (Outcome.ensure_ok.mp hlen)
  obtain ⟨hx, hp, hv⟩ := of_decide_eq_true (Outcome.ensure_ok.mp hcounts)
  have hplaces := places_of_pattern hlen hx hp hv
  obtain ⟨a, b, hab⟩ := List.length_eq_two.mp hx
  rw [hab] at hplaces h
  simp only [List.getD_cons_zero, List.getD_cons_succ] at h
  split at h
  · cases h
  · rename_i marker rest hpadding
    obtain rfl := Outcome.ok.inj h
    refine assemble_sound hplaces.byte_injective ?_ ?_ ?_
    · intro pad hpad g
      obtain ⟨pad, hmem, rfl⟩ := List.mem_map.mp hpad
      obtain ⟨g', -, bit, hbit, rfl, -⟩ := Places.mem_customPadding.mp hmem
      exact hplaces.clearBit_ne hbit g
    · exact List.mem_map_of_mem (hpadding ▸ List.mem_cons_self)
    · obtain ⟨pad, hpad, hne⟩ := hplaces.two_paddings marker
      exact ⟨_, List.mem_map_of_mem hpad, hne⟩

theorem Layout.new_sound {ascii : Bool} {pattern : List Char} {l : Layout}
    (h : Layout.new ascii pattern = .ok l) : l.Sound := by
  unfold Layout.new at h
  split at h
  · exact Outcome.ok.inj h ▸ asciiLayout_sound
  · split at h
    · exact Outcome.ok.inj h ▸ entropyLayout_sound
    · exact customLayout_sound h

end Aerion.Sudoku
