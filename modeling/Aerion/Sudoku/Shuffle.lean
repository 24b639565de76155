import Aerion.Sudoku.Table

/-!
# The arithmetic of the shuffle

`shuffle` of `src/sudoku/table/go_rand.rs` with the operations of its machine
types: signed products that are checked, words that are read and written
within an array of 607, the product of a draw in 64 bits and the bound of a
draw cut to 32.
-/

namespace Aerion.Sudoku

open Lib Outcome

namespace GoRand

def normalizeI64 (seed : ℤ) : Outcome ℤ := do
  let seed := seed.tmod 2147483647
  let seed ← if seed < 0 then signedResult .checked (seed + 2147483647) else .ok seed
  return if seed = 0 then 89482311 else seed

def stepI64 (x : ℤ) : Outcome ℤ := do
  let product ← signedResult .checked (48271 * x)
  return product.tmod 2147483647

def wordAt (words : ℕ → UInt64) (i : ℕ) : Outcome UInt64 := if i < 607 then .ok (words i) else .panic

def setWord (words : ℕ → UInt64) (i : ℕ) (w : UInt64) : Outcome (ℕ → UInt64) :=
  if i < 607 then .ok (Function.update words i w) else .panic

/-- The loop over `-20..607`, with the rounds that are left. -/
def seedLoop (cooked : ℕ → UInt64) : ℕ → ℤ → (ℕ → UInt64) → Outcome (ℕ → UInt64)
  | 0, _, state => .ok state
  | k + 1, x, state => do
    let i : ℤ := 607 - (k + 1)
    let x₁ ← stepI64 x
    if 0 ≤ i then do
      let x₂ ← stepI64 x₁
      let x₃ ← stepI64 x₂
      let c ← wordAt cooked i.toNat
      let state ← setWord state i.toNat
        ((UInt64.ofInt x₁ <<< 40) ^^^ (UInt64.ofInt x₂ <<< 20) ^^^ UInt64.ofInt x₃ ^^^ c)
      seedLoop cooked k x₃ state
    else seedLoop cooked k x₁ state

def seededI64 (cooked : ℕ → UInt64) (seed : ℤ) : Outcome Generator := do
  let x ← normalizeI64 seed
  let state ← seedLoop cooked 627 x fun _ => 0
  return ⟨state, 0, 334⟩

/-- The closure `next`. -/
def nextWord (g : Generator) : Outcome (ℕ × Generator) := do
  let tap ← addWord .checked g.tap 606
  let feed ← addWord .checked g.feed 606
  let a ← wordAt g.state (feed % 607)
  let b ← wordAt g.state (tap % 607)
  let state ← setWord g.state (feed % 607) (a + b)
  return ((((a + b) &&& 0x7fffffffffffffff) >>> 31).toNat % 2 ^ 32, ⟨state, tap % 607, feed % 607⟩)

/-- A draw as a 64-bit product with `n`. -/
def product (n : ℕ) (g : Generator) : Outcome (ℕ × Generator) := do
  let drawn ← nextWord g
  if drawn.1 * n < 2 ^ 64 then .ok (drawn.1 * n, drawn.2) else .panic

def rejectLoop (threshold n : ℕ) : ℕ → ℕ → Generator → Option (Outcome (ℕ × Generator))
  | 0, p, g => if p % 2 ^ 32 < threshold then none else some (.ok (p, g))
  | fuel + 1, p, g =>
    if p % 2 ^ 32 < threshold then
      match product n g with
      | .ok (p, g) => rejectLoop threshold n fuel p g
      | .err e => some (.err e)
      | .panic => some .panic
    else some (.ok (p, g))

def drawIndex (fuel n : ℕ) (g : Generator) : Option (Outcome (ℕ × Generator)) :=
  match product n g with
  | .ok (p, g) =>
    if p % 2 ^ 32 < n then
      -- `n.wrapping_neg() % n`, reached for a positive `n` only.
      rejectLoop ((2 ^ 32 - n) % 2 ^ 32 % n) n fuel p g
    else some (.ok (p, g))
  | .err e => some (.err e)
  | .panic => some .panic

def shuffleLoop (fuel : ℕ) : ℕ → List ℕ → Generator → Option (Outcome (List ℕ))
  | 0, order, _ => some (.ok order)
  | i + 1, order, g =>
    (drawIndex fuel ((i + 2) % 2 ^ 32) g).bind fun
      | .ok drawn =>
        match swap order (i + 1) (drawn.1 >>> 32) with
        | .ok order => shuffleLoop fuel i order drawn.2
        | .err e => some (.err e)
        | .panic => some .panic
      | .err e => some (.err e)
      | .panic => some .panic

def shuffleI64 (cooked : ℕ → UInt64) (fuel : ℕ) (order : List ℕ) (seed : Int64) :
    Option (Outcome (List ℕ)) :=
  match seededI64 cooked seed.toInt with
  | .ok g => shuffleLoop fuel (order.length - 1) order g
  | .err e => some (.err e)
  | .panic => some .panic

/-! ### Seeding -/

theorem step_lt (x : ℕ) : step x < 2147483647 := Nat.mod_lt _ (by decide)

theorem stepI64_eq {x : ℕ} (h : x < 2147483647) : stepI64 x = .ok (step x : ℤ) := by
  have hfits : FitsI64 (48271 * (x : ℤ)) := by
    unfold FitsI64
    omega
  rw [stepI64, signedResult_fits hfits, ok_bind]
  simp only [step, Int.natCast_mod, Nat.cast_mul, Nat.cast_ofNat]
  exact congrArg _ (Int.tmod_eq_emod_of_nonneg (by omega))

theorem normalizeI64_eq (seed : ℤ) :
    normalizeI64 seed = .ok (normalize seed : ℤ) ∧ normalize seed < 2147483647 := by
  have hlow : -2147483647 < seed.tmod 2147483647 := Int.lt_tmod_of_pos seed (by decide)
  have hhigh : seed.tmod 2147483647 < 2147483647 := Int.tmod_lt_of_pos seed (by decide)
  unfold normalizeI64 normalize
  generalize seed.tmod 2147483647 = r at hlow hhigh
  dsimp only
  by_cases hr : r < 0
  · have hfits : FitsI64 (r + 2147483647) := by
      unfold FitsI64
      omega
    rw [if_pos hr, signedResult_fits hfits, ok_bind, if_pos hr, if_neg (by omega), if_neg (by omega)]
    exact ⟨congrArg _ (by omega), by omega⟩
  · rw [if_neg hr, ok_bind, if_neg hr]
    by_cases hzero : r = 0
    · rw [if_pos hzero, if_pos hzero]
      exact ⟨rfl, by decide⟩
    · rw [if_neg hzero, if_neg hzero]
      exact ⟨congrArg _ (by omega), by omega⟩

theorem seedLoop_warm {cooked : ℕ → UInt64} {x j : ℕ} {state : ℕ → UInt64} (hx : x < 2147483647) :
    seedLoop cooked (607 + j) x state = seedLoop cooked 607 (step^[j] x : ℕ) state := by
  induction j generalizing x with
  | zero => rfl
  | succ j ih =>
    have hbefore : ¬(0 : ℤ) ≤ 607 - ((607 + j : ℕ) + 1) := by omega
    rw [Function.iterate_succ_apply, ← ih (step_lt x), show 607 + (j + 1) = 607 + j + 1 from rfl, seedLoop,
      stepI64_eq hx, ok_bind, if_neg hbefore]

theorem seedBefore_lt {x : ℕ} (hx : x < 2147483647) (i : ℕ) : seedBefore x i < 2147483647 := by
  cases i with
  | zero => exact hx
  | succ i => exact step_lt _

theorem ofInt_natCast (n : ℕ) : UInt64.ofInt n = UInt64.ofNat n := by
  refine UInt64.toNat_inj.mp ?_
  rw [UInt64.ofInt, UInt64.toNat_ofNat', UInt64.toNat_ofNat']
  omega

theorem seedLoop_words {cooked : ℕ → UInt64} {x k : ℕ} {state : ℕ → UInt64} (hx : x < 2147483647)
    (hk : k ≤ 607) (hstate : ∀ i < 607 - k, state i = seedWord cooked x i) :
    ∃ state', seedLoop cooked k (seedBefore x (607 - k) : ℕ) state = .ok state' ∧
      ∀ i < 607, state' i = seedWord cooked x i := by
  induction k generalizing state with
  | zero => exact ⟨state, rfl, hstate⟩
  | succ k ih =>
    have hindex : (607 : ℤ) - ((k : ℤ) + 1) = ((607 - (k + 1) : ℕ) : ℤ) := by omega
    have hnext : 607 - k = 607 - (k + 1) + 1 := by omega
    generalize hi : 607 - (k + 1) = i at hindex hnext hstate
    have hlt : i < 607 := by omega
    have hseed : seedBefore x (607 - k) = step (step (step (seedBefore x i))) := by
      rw [hnext, seedBefore]
    obtain ⟨state', hrun, hwords⟩ := @ih (Function.update state i (seedWord cooked x i)) (by omega) (by
      intro j hj
      rcases Nat.lt_succ_iff_lt_or_eq.mp (hnext ▸ hj) with hlow | rfl
      · rw [Function.update_of_ne hlow.ne, hstate j hlow]
      · rw [Function.update_self])
    refine ⟨state', ?_, hwords⟩
    rw [← hrun, hseed, seedLoop, hindex, stepI64_eq (seedBefore_lt hx i), ok_bind,
      if_pos (Int.natCast_nonneg i), stepI64_eq (step_lt _), ok_bind, stepI64_eq (step_lt _), ok_bind,
      Int.toNat_natCast, wordAt, if_pos hlt, ok_bind, setWord, if_pos hlt, ok_bind]
    simp only [ofInt_natCast, seedWord]

structure Generator.Same (g g' : Generator) : Prop where
  tap : g.tap = g'.tap
  feed : g.feed = g'.feed
  words : ∀ i < 607, g.state i = g'.state i

theorem seededI64_eq (cooked : ℕ → UInt64) (seed : ℤ) :
    ∃ g, seededI64 cooked seed = .ok g ∧ g.Same (seeded cooked seed) := by
  obtain ⟨hnormal, hlt⟩ := normalizeI64_eq seed
  have hwarm : step^[20] (normalize seed) < 2147483647 := by
    rw [Function.iterate_succ_apply']
    exact step_lt _
  obtain ⟨state, hrun, hwords⟩ :=
    @seedLoop_words cooked _ 607 (fun _ => 0) hwarm le_rfl (fun i hi => absurd hi (Nat.not_lt_zero i))
  refine ⟨⟨state, 0, 334⟩, ?_, rfl, rfl, hwords⟩
  rw [seededI64, hnormal, ok_bind, show 627 = 607 + 20 from rfl, seedLoop_warm hlt]
  exact congrArg (fun r => r >>= fun state => pure (⟨state, 0, 334⟩ : Generator)) hrun

/-! ### Draws -/

/-- The places of a generator are within its array. -/
def Generator.Within (g : Generator) : Prop := g.tap < 607 ∧ g.feed < 607

theorem Generator.next_within (g : Generator) : g.next.2.Within :=
  ⟨Nat.mod_lt _ (by decide), Nat.mod_lt _ (by decide)⟩

theorem product_eq {g : Generator} {n : ℕ} (hg : g.Within) (hn : n < 2 ^ 32) :
    product n g = .ok (g.next.1 * n, g.next.2) := by
  have hplace (i : ℕ) : i % 607 < 607 := Nat.mod_lt i (by decide)
  have hnext : nextWord g = .ok g.next := by
    have htap : g.tap + 606 < wordSize := by unfold wordSize; have := hg.1; omega
    have hfeed : g.feed + 606 < wordSize := by unfold wordSize; have := hg.2; omega
    rw [nextWord, addWord_of_lt htap, ok_bind, addWord_of_lt hfeed, ok_bind, wordAt, if_pos (hplace _),
      ok_bind, wordAt, if_pos (hplace _), ok_bind, setWord, if_pos (hplace _), ok_bind]
    rfl
  have hlt : g.next.1 * n < 2 ^ 64 := by
    calc g.next.1 * n ≤ g.next.1 * 2 ^ 32 := Nat.mul_le_mul_left _ hn.le
      _ < 2 ^ 32 * 2 ^ 32 := Nat.mul_lt_mul_of_pos_right g.next_lt (by decide)
  rw [product, hnext, ok_bind, if_pos hlt]

theorem rejectLoop_zero (threshold n p : ℕ) (g : Generator) : rejectLoop threshold n 0 p g =
    if p % 2 ^ 32 < threshold then none else some (.ok (p, g)) := rfl

theorem rejectLoop_accept {threshold n fuel p : ℕ} {g : Generator} (h : ¬p % 2 ^ 32 < threshold) :
    rejectLoop threshold n (fuel + 1) p g = some (.ok (p, g)) := if_neg h

theorem rejectLoop_again {threshold n fuel p p' : ℕ} {g g' : Generator} (h : p % 2 ^ 32 < threshold)
    (hproduct : product n g = .ok (p', g')) :
    rejectLoop threshold n (fuel + 1) p g = rejectLoop threshold n fuel p' g' := by
  refine (if_pos h).trans ?_
  rw [hproduct]

theorem rejectLoop_eq {threshold n fuel p : ℕ} {g : Generator} (hg : g.Within) (hn : n < 2 ^ 32) :
    rejectLoop threshold n fuel p g = (reject threshold n fuel p g).map .ok := by
  induction fuel generalizing p g with
  | zero =>
    rw [rejectLoop_zero, reject]
    by_cases hlow : p % 2 ^ 32 < threshold
    · rw [if_pos hlow, if_pos hlow, Option.map_none]
    · rw [if_neg hlow, if_neg hlow, Option.map_some]
  | succ fuel ih =>
    rw [reject]
    by_cases hlow : p % 2 ^ 32 < threshold
    · rw [rejectLoop_again hlow (product_eq hg hn), if_pos hlow]
      exact ih g.next_within
    · rw [rejectLoop_accept hlow, if_neg hlow, Option.map_some]

theorem drawIndex_eq {fuel n : ℕ} {g : Generator} (hg : g.Within) (hn : n < 2 ^ 32) :
    drawIndex fuel n g = (draw fuel n g).map .ok := by
  have hdraw : drawIndex fuel n g = if g.next.1 * n % 2 ^ 32 < n then
      rejectLoop ((2 ^ 32 - n) % 2 ^ 32 % n) n fuel (g.next.1 * n) g.next.2
      else some (.ok (g.next.1 * n, g.next.2)) := by
    unfold drawIndex
    rw [product_eq hg hn]
  rw [hdraw, draw]
  by_cases hlow : g.next.1 * n % 2 ^ 32 < n
  · have hneg : 2 ^ 32 - n < 2 ^ 32 := by omega
    rw [if_pos hlow, if_pos hlow, Nat.mod_eq_of_lt hneg, rejectLoop_eq g.next_within hn]
  · rw [if_neg hlow, if_neg hlow, Option.map_some]

theorem reject_within {threshold n fuel p : ℕ} {g : Generator} {r : ℕ × Generator} (hg : g.Within)
    (h : reject threshold n fuel p g = some r) : r.2.Within := by
  induction fuel generalizing p g with
  | zero =>
    unfold reject at h
    split at h
    · cases h
    · obtain rfl := Option.some.inj h
      exact hg
  | succ fuel ih =>
    unfold reject at h
    split at h
    · exact ih g.next_within h
    · obtain rfl := Option.some.inj h
      exact hg

theorem drawIndex_spec {fuel i : ℕ} {g : Generator} {r : Outcome (ℕ × Generator)} (hg : g.Within)
    (h : drawIndex fuel ((i + 2) % 2 ^ 32) g = some r) :
    ∃ drawn, r = .ok drawn ∧ drawn.1 >>> 32 < i + 2 ∧ drawn.2.Within := by
  have hn : (i + 2) % 2 ^ 32 < 2 ^ 32 := Nat.mod_lt _ (by decide)
  rw [drawIndex_eq hg hn] at h
  obtain ⟨drawn, hdraw, rfl⟩ := Option.map_eq_some_iff.mp h
  refine ⟨drawn, rfl, ?_, ?_⟩
  · rcases Nat.eq_zero_or_pos ((i + 2) % 2 ^ 32) with hzero | hpos
    · rw [hzero] at hdraw
      obtain rfl : (0, g.next.2) = drawn := Option.some.inj hdraw
      simp
    · exact (draw_high hpos hdraw).trans_le (Nat.mod_le _ _)
  · unfold draw at hdraw
    dsimp only at hdraw
    split at hdraw
    · exact reject_within g.next_within hdraw
    · obtain rfl := Option.some.inj hdraw
      exact g.next_within

/-! ### The whole shuffle -/

theorem shuffleLoop_perm {fuel i : ℕ} {order : List ℕ} {g : Generator} {r : Outcome (List ℕ)}
    (hg : g.Within) (hi : i < order.length ∨ i = 0) (h : shuffleLoop fuel i order g = some r) :
    ∃ order', r = .ok order' ∧ order'.Perm order := by
  induction i generalizing order g with
  | zero =>
    obtain rfl := Option.some.inj h
    exact ⟨order, rfl, .refl _⟩
  | succ i ih =>
    obtain ⟨result, hdraw, h⟩ := Option.bind_eq_some_iff.mp h
    obtain ⟨drawn, rfl, hindex, hwithin⟩ := drawIndex_spec hg hdraw
    have hlast : i + 1 < order.length := by omega
    obtain ⟨swapped, hswap, hperm⟩ := swap_ok hlast (show drawn.1 >>> 32 < order.length by omega)
    dsimp only at h
    rw [hswap] at h
    obtain ⟨order', hr, hperm'⟩ := ih hwithin (.inl (by rw [hperm.length_eq]; omega)) h
    exact ⟨order', hr, hperm'.trans hperm⟩

theorem within_of_same_seeded {cooked : ℕ → UInt64} {seed : ℤ} {g : Generator}
    (h : g.Same (seeded cooked seed)) : g.Within := by
  rw [Generator.Within, h.tap, h.feed]
  exact ⟨show 0 < 607 by decide, show 334 < 607 by decide⟩

theorem shuffleI64_perm {cooked : ℕ → UInt64} {fuel : ℕ} {order : List ℕ} {seed : Int64}
    {r : Outcome (List ℕ)} (h : shuffleI64 cooked fuel order seed = some r) :
    ∃ order', r = .ok order' ∧ order'.Perm order := by
  obtain ⟨g, hseed, hsame⟩ := seededI64_eq cooked seed.toInt
  rw [shuffleI64, hseed] at h
  exact shuffleLoop_perm (within_of_same_seeded hsame) (by omega) h

section

variable {g g' : Generator}

theorem Generator.Same.next (h : g.Same g') : g.next.1 = g'.next.1 ∧ g.next.2.Same g'.next.2 := by
  have hplace (i : ℕ) : i % 607 < 607 := Nat.mod_lt i (by decide)
  have hsum : g.state ((g.feed + 606) % 607) + g.state ((g.tap + 606) % 607) =
      g'.state ((g'.feed + 606) % 607) + g'.state ((g'.tap + 606) % 607) := by
    rw [h.words _ (hplace _), h.words _ (hplace _), h.tap, h.feed]
  refine ⟨by simp only [Generator.next, hsum], by simp only [Generator.next, h.tap],
    by simp only [Generator.next, h.feed], fun i hi => ?_⟩
  simp only [Generator.next, hsum]
  rw [Function.update_apply, Function.update_apply, h.feed, h.words i hi]

/-- Two results of a draw that differ in words outside the array at the most. -/
def SameDraw (r r' : ℕ × Generator) : Prop := r.1 = r'.1 ∧ r.2.Same r'.2

theorem Generator.Same.reject {threshold n fuel p : ℕ} (h : g.Same g') :
    Option.Rel SameDraw (reject threshold n fuel p g) (reject threshold n fuel p g') := by
  induction fuel generalizing p g g' with
  | zero =>
    unfold GoRand.reject
    split
    · exact .none
    · exact .some ⟨rfl, h⟩
  | succ fuel ih =>
    unfold GoRand.reject
    split
    · rw [h.next.1]
      exact ih h.next.2
    · exact .some ⟨rfl, h⟩

theorem Generator.Same.draw {fuel n : ℕ} (h : g.Same g') :
    Option.Rel SameDraw (draw fuel n g) (draw fuel n g') := by
  unfold GoRand.draw
  rw [h.next.1]
  dsimp only
  split
  · exact h.next.2.reject
  · exact .some ⟨rfl, h.next.2⟩

theorem shuffleLoop_eq {fuel i : ℕ} {order : List ℕ} (h : g.Same g') (hg : g.Within)
    (hi : i + 1 < 2 ^ 32) : shuffleLoop fuel i order g = shuffleFrom fuel i order g' := by
  induction i generalizing order g g' with
  | zero => rfl
  | succ i ih =>
    have hn : (i + 2) % 2 ^ 32 = i + 2 := Nat.mod_eq_of_lt hi
    have hdraw := @drawIndex_eq fuel (i + 2) g hg hi
    have hspec := @drawIndex_spec fuel i g
    rw [hn, hdraw] at hspec
    rw [shuffleLoop, shuffleFrom, hn, hdraw]
    have hrel : Option.Rel SameDraw (draw fuel (i + 2) g) (draw fuel (i + 2) g') := h.draw
    rcases hleft : draw fuel (i + 2) g with _ | drawn <;>
      rcases hright : draw fuel (i + 2) g' with _ | drawn' <;> rw [hleft, hright] at hrel
    · rfl
    · cases hrel
    · cases hrel
    · obtain ⟨hindex, hsame⟩ := Option.rel_some_some.mp hrel
      obtain ⟨_, heq, -, hwithin⟩ := hspec hg (by rw [hleft]; rfl)
      obtain rfl := Outcome.ok.inj heq
      simp only [Option.map_some, Option.bind_some, hindex]
      cases swap order (i + 1) (drawn'.1 >>> 32) with
      | ok swapped => exact ih hsame hwithin (by omega)
      | err e => rfl
      | panic => rfl

end

theorem shuffleI64_eq {cooked : ℕ → UInt64} {fuel : ℕ} {order : List ℕ} {seed : Int64}
    (h : order.length < 2 ^ 32) :
    shuffleI64 cooked fuel order seed = shuffle cooked fuel order seed.toInt := by
  obtain ⟨g, hseed, hsame⟩ := seededI64_eq cooked seed.toInt
  rw [shuffleI64, hseed]
  exact shuffleLoop_eq hsame (within_of_same_seeded hsame) (by omega)

end GoRand

/-! ### The order of the grids and the bytes -/

theorem Table.Sound.order_inverse {t : Table} (h : t.Sound) {grid byte : ℕ}
    (hinverse : t.inverse[grid]? = some byte) (hbyte : byte < 256) : t.order[byte]? = some grid := by
  have hgrid : grid < t.order.length := by
    rw [← inverseOf_length, ← h.inverse]
    exact (List.getElem?_eq_some_iff.mp hinverse).1
  have hmem : grid ∈ t.order := by
    rw [h.order.mem_iff, List.mem_range, grids_length, ← h.length]
    exact hgrid
  obtain ⟨i, hi⟩ := List.mem_iff_getElem?.mp hmem
  rcases Nat.lt_or_ge i 256 with hlow | hhigh
  · have hsame := (h.inverse_order hi hlow).symm.trans hinverse
    obtain rfl := Option.some.inj hsame
    exact hi
  · -- A grid after the first 256 keeps the value that stands for no byte.
    have hnodup : t.order.Nodup := h.order.nodup_iff.mpr List.nodup_range
    have hnone : t.inverse[grid]? = some 256 := by
      rw [h.inverse, inverseOf, foldl_set_of_ne, List.getElem?_replicate_of_lt hgrid]
      rintro ⟨grid', j⟩ he rfl
      have hj : (t.order.take 256)[j]? = some grid' := List.mem_zipIdx_iff_getElem?.mp he
      obtain ⟨hlt, hat⟩ := List.getElem?_eq_some_iff.mp hj
      rw [List.getElem_take] at hat
      rw [List.length_take] at hlt
      obtain ⟨hlen, hgrid'⟩ := List.getElem?_eq_some_iff.mp hi
      have := (hnodup.getElem_inj_iff).mp (hat.trans hgrid'.symm)
      omega
    rw [hnone] at hinverse
    obtain rfl := Option.some.inj hinverse
    exact absurd hbyte (Nat.lt_irrefl 256)

/-- Whatever the seed and however many draws are repeated, the shuffle fails at no operation and
permutes what it is given; a table that was built by it leads from a byte to its grid and back. -/
theorem shuffle_permutes (cooked : ℕ → UInt64) :
    (∀ fuel order (seed : Int64) r, GoRand.shuffleI64 cooked fuel order seed = some r →
        ∃ order', r = .ok order' ∧ order'.Perm order) ∧
      (∀ fuel (order : List ℕ) (seed : Int64), order.length < 2 ^ 32 →
        GoRand.shuffleI64 cooked fuel order seed = GoRand.shuffle cooked fuel order seed.toInt) ∧
      ∀ sha256 fuel seed mode pattern t, Table.new sha256 cooked fuel seed mode pattern = some (.ok t) →
        t.order.Perm (List.range 288) ∧
          (∀ byte < 256, ∃ grid, t.order[byte]? = some grid ∧ t.inverse[grid]? = some byte) ∧
          ∀ grid byte, byte < 256 → (t.inverse[grid]? = some byte ↔ t.order[byte]? = some grid) := by
  refine ⟨fun _ _ _ _ => GoRand.shuffleI64_perm, fun _ _ _ => GoRand.shuffleI64_eq, ?_⟩
  intro sha256 fuel seed mode pattern t hnew
  have hsound := Table.new_sound hnew
  refine ⟨grids_length ▸ hsound.order, fun byte hbyte => ?_, fun grid byte hbyte =>
    ⟨fun h => hsound.order_inverse h hbyte, fun h => hsound.inverse_order h hbyte⟩⟩
  have hlt : byte < t.order.length := by
    rw [hsound.length]
    omega
  have hgrid := List.getElem?_eq_getElem hlt
  exact ⟨t.order[byte], hgrid, hsound.inverse_order hgrid hbyte⟩

end Aerion.Sudoku
