import Mathlib.Data.Nat.Bits
import Mathlib.Logic.Function.Basic
import Aerion.Lib.Words

/-!
# The seeded shuffle

The generator that orders the grids for a key (`src/sudoku/table/go_rand.rs`):
an additive generator over 607 words, and a shuffle that draws an index for
each place from the last one down. The table of seed constants is a
parameter. A draw that would bias the index is repeated; the model bounds
how often, and a shuffle that needs more has no result.
-/

namespace Aerion.Sudoku.GoRand

open Lib

structure Generator where
  state : ℕ → UInt64
  tap : ℕ
  feed : ℕ

def normalize (seed : ℤ) : ℕ :=
  let seed := seed.tmod 2147483647
  let seed := if seed < 0 then seed + 2147483647 else seed
  if seed = 0 then 89482311 else seed.toNat

def step (x : ℕ) : ℕ := 48271 * x % 2147483647

/-- The seed before the word `i` of the state. -/
def seedBefore (x : ℕ) : ℕ → ℕ
  | 0 => x
  | i + 1 => step (step (step (seedBefore x i)))

def seedWord (cooked : ℕ → UInt64) (x i : ℕ) : UInt64 :=
  let x₁ := step (seedBefore x i)
  let x₂ := step x₁
  let x₃ := step x₂
  (UInt64.ofNat x₁ <<< 40) ^^^ (UInt64.ofNat x₂ <<< 20) ^^^ UInt64.ofNat x₃ ^^^ cooked i

def seeded (cooked : ℕ → UInt64) (seed : ℤ) : Generator :=
  ⟨seedWord cooked (step^[20] (normalize seed)), 0, 334⟩

def Generator.next (g : Generator) : ℕ × Generator :=
  let tap := (g.tap + 606) % 607
  let feed := (g.feed + 606) % 607
  let x := g.state feed + g.state tap
  (((x &&& 0x7fffffffffffffff) >>> 31).toNat % 2 ^ 32, ⟨Function.update g.state feed x, tap, feed⟩)

def reject (threshold n : ℕ) : ℕ → ℕ → Generator → Option (ℕ × Generator)
  | 0, product, g => if product % 2 ^ 32 < threshold then none else some (product, g)
  | fuel + 1, product, g =>
    if product % 2 ^ 32 < threshold then reject threshold n fuel (g.next.1 * n) g.next.2
    else some (product, g)

/-- A product of a draw and `n`, whose high word is an index below `n`. -/
def draw (fuel n : ℕ) (g : Generator) : Option (ℕ × Generator) :=
  let product := g.next.1 * n
  if product % 2 ^ 32 < n then reject ((2 ^ 32 - n) % n) n fuel product g.next.2
  else some (product, g.next.2)

def shuffleFrom (fuel : ℕ) : ℕ → List ℕ → Generator → Option (Outcome (List ℕ))
  | 0, order, _ => some (.ok order)
  | i + 1, order, g =>
    (draw fuel (i + 2) g).bind fun drawn =>
      match swap order (i + 1) (drawn.1 >>> 32) with
      | .ok order => shuffleFrom fuel i order drawn.2
      | .err e => some (.err e)
      | .panic => some .panic

def shuffle (cooked : ℕ → UInt64) (fuel : ℕ) (order : List ℕ) (seed : ℤ) :
    Option (Outcome (List ℕ)) :=
  shuffleFrom fuel (order.length - 1) order (seeded cooked seed)

/-! ### A shuffle permutes -/

theorem Generator.next_lt (g : Generator) : g.next.1 < 2 ^ 32 := Nat.mod_lt _ (by decide)

theorem high_lt {x n : ℕ} (hx : x < 2 ^ 32) (hn : 0 < n) : (x * n) >>> 32 < n := by
  rw [Nat.shiftRight_eq_div_pow]
  exact Nat.div_lt_of_lt_mul (Nat.mul_lt_mul_of_pos_right hx hn)

theorem reject_high {threshold n fuel product : ℕ} {g : Generator} {r : ℕ × Generator} (hn : 0 < n)
    (h : reject threshold n fuel product g = some r) (hp : product >>> 32 < n) : r.1 >>> 32 < n := by
  induction fuel generalizing product g with
  | zero =>
    unfold reject at h
    split at h
    · cases h
    · obtain rfl := Option.some.inj h
      exact hp
  | succ fuel ih =>
    unfold reject at h
    split at h
    · exact ih h (high_lt g.next_lt hn)
    · obtain rfl := Option.some.inj h
      exact hp

theorem draw_high {fuel n : ℕ} {g : Generator} {r : ℕ × Generator} (hn : 0 < n)
    (h : draw fuel n g = some r) : r.1 >>> 32 < n := by
  unfold draw at h
  dsimp only at h
  split at h
  · exact reject_high hn h (high_lt g.next_lt hn)
  · obtain rfl := Option.some.inj h
    exact high_lt g.next_lt hn

theorem shuffleFrom_perm {fuel i : ℕ} {order : List ℕ} {g : Generator} {r : Outcome (List ℕ)}
    (hi : i < order.length ∨ i = 0) (h : shuffleFrom fuel i order g = some r) :
    ∃ order', r = .ok order' ∧ order'.Perm order := by
  induction i generalizing order g with
  | zero =>
    obtain rfl := Option.some.inj h
    exact ⟨order, rfl, .refl _⟩
  | succ i ih =>
    obtain ⟨drawn, hdraw, h⟩ := Option.bind_eq_some_iff.mp h
    have hindex := draw_high (Nat.succ_pos _) hdraw
    have hlast : i + 1 < order.length := by omega
    obtain ⟨swapped, hswap, hperm⟩ := swap_ok hlast (show drawn.1 >>> 32 < order.length by omega)
    rw [hswap] at h
    obtain ⟨order', hr, hperm'⟩ := ih (.inl (by rw [hperm.length_eq]; omega)) h
    exact ⟨order', hr, hperm'.trans hperm⟩

theorem shuffle_perm {cooked : ℕ → UInt64} {fuel : ℕ} {order : List ℕ} {seed : ℤ}
    {r : Outcome (List ℕ)} (h : shuffle cooked fuel order seed = some r) :
    ∃ order', r = .ok order' ∧ order'.Perm order :=
  shuffleFrom_perm (by omega) h

def ends (fuel : ℕ) : ℕ → Generator → Bool
  | 0, _ => true
  | i + 1, g => (draw fuel (i + 2) g).any fun drawn => ends fuel i drawn.2

theorem shuffleFrom_some {fuel i : ℕ} {order : List ℕ} {g : Generator} (hi : i < order.length ∨ i = 0)
    (h : ends fuel i g = true) : ∃ order', shuffleFrom fuel i order g = some (.ok order') := by
  induction i generalizing order g with
  | zero => exact ⟨order, rfl⟩
  | succ i ih =>
    obtain ⟨drawn, hdraw, h⟩ := (Option.any_eq_true _ _).mp h
    have hindex := draw_high (Nat.succ_pos _) hdraw
    have hlast : i + 1 < order.length := by omega
    obtain ⟨swapped, hswap, hperm⟩ := swap_ok hlast (show drawn.1 >>> 32 < order.length by omega)
    obtain ⟨order', hrest⟩ := @ih swapped drawn.2 (.inl (by rw [hperm.length_eq]; omega)) h
    exact ⟨order', by simp only [shuffleFrom, hdraw, Option.bind_some, hswap, hrest]⟩

theorem shuffle_some {cooked : ℕ → UInt64} {fuel : ℕ} {order : List ℕ} {seed : ℤ}
    (h : ends fuel (order.length - 1) (seeded cooked seed) = true) :
    ∃ order', shuffle cooked fuel order seed = some (.ok order') :=
  shuffleFrom_some (by omega) h

end Aerion.Sudoku.GoRand
