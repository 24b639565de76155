import Aerion.Lib.Outcome
import Mathlib.Tactic.NormNum
import Mathlib.Tactic.Ring

/-!
# Words

Big-endian words, and the additions of offsets into a slice, which has at
most half the address space, so that they never leave the word.
-/

namespace Lib

/-- `from_be_bytes`. -/
def ofBe (bytes : Bytes) : ℕ := bytes.foldl (fun n b => n * 256 + b.toNat) 0

/-- `to_be_bytes` of a word of `width` bytes. -/
def toBe (width n : ℕ) : Bytes :=
  (List.range width).reverse.map fun i => UInt8.ofNat (n / 256 ^ i)

/-- `slice::chunks`, with as much fuel as there are elements. -/
def chunksFuel {α : Type} (n : ℕ) : ℕ → List α → List (List α)
  | 0, _ | _, [] => []
  | fuel + 1, x :: xs => (x :: xs).take n :: chunksFuel n fuel ((x :: xs).drop n)

def chunks {α : Type} (n : ℕ) (xs : List α) : List (List α) := chunksFuel n xs.length xs

/-- `slice::swap`. -/
def swap {α : Type} (xs : List α) (i j : ℕ) : Outcome (List α) :=
  match xs[i]?, xs[j]? with
  | some a, some b => .ok ((xs.set i b).set j a)
  | _, _ => .panic

theorem addWord_small {mode : Overflow} {a b : ℕ} (ha : a < 2 ^ 63) (hb : b < 2 ^ 63) :
    addWord mode a b = .ok (a + b) :=
  addWord_of_lt (by unfold wordSize; omega)

theorem ofBe_foldl_lt {bytes : Bytes} {n k : ℕ} (h : n < 256 ^ k) :
    bytes.foldl (fun n b => n * 256 + b.toNat) n < 256 ^ (k + bytes.length) := by
  induction bytes generalizing n k with
  | nil => simpa using h
  | cons b bytes ih =>
    have hb : b.toNat < 256 := b.toNat_lt
    have hnext : n * 256 + b.toNat < 256 ^ (k + 1) := by
      rw [pow_succ]
      omega
    have := ih hnext
    rwa [List.length_cons, Nat.add_comm bytes.length 1, ← Nat.add_assoc]

theorem ofBe_lt (bytes : Bytes) : ofBe bytes < 256 ^ bytes.length := by
  have := @ofBe_foldl_lt bytes 0 0 (by norm_num)
  rwa [Nat.zero_add] at this

theorem ofBe_lt_word (a b c d : UInt8) : ofBe [a, b, c, d] < 2 ^ 32 := by
  have := ofBe_lt [a, b, c, d]
  norm_num at this ⊢
  exact this

theorem foldl_ofBe (bytes : Bytes) (n : ℕ) :
    bytes.foldl (fun n b => n * 256 + b.toNat) n = n * 256 ^ bytes.length + ofBe bytes := by
  induction bytes generalizing n with
  | nil => simp [ofBe]
  | cons b bytes ih =>
    have hfirst : ofBe (b :: bytes) = b.toNat * 256 ^ bytes.length + ofBe bytes := by
      rw [ofBe, List.foldl_cons, ih, Nat.zero_mul, Nat.zero_add]
    rw [List.foldl_cons, ih, hfirst, List.length_cons, pow_succ]
    ring

theorem ofBe_cons (b : UInt8) (bytes : Bytes) :
    ofBe (b :: bytes) = b.toNat * 256 ^ bytes.length + ofBe bytes := by
  rw [ofBe, List.foldl_cons, foldl_ofBe]
  simp

@[simp] theorem toBe_length (width n : ℕ) : (toBe width n).length = width := by
  simp [toBe]

theorem toBe_succ (width n : ℕ) :
    toBe (width + 1) n = UInt8.ofNat (n / 256 ^ width) :: toBe width n := by
  simp [toBe, List.range_succ]

theorem ofBe_toBe_mod (width n : ℕ) : ofBe (toBe width n) = n % 256 ^ width := by
  induction width with
  | zero => simp [toBe, ofBe, Nat.mod_one]
  | succ width ih =>
    have hbyte : (UInt8.ofNat (n / 256 ^ width)).toNat = n / 256 ^ width % 256 := by simp
    have hsplit : n % 256 ^ (width + 1) = n % 256 ^ width + 256 ^ width * (n / 256 ^ width % 256) := by
      rw [pow_succ]
      exact Nat.mod_mul
    rw [toBe_succ, ofBe_cons, ih, toBe_length, hbyte, hsplit]
    ring

theorem ofBe_toBe {width n : ℕ} (h : n < 256 ^ width) : ofBe (toBe width n) = n := by
  rw [ofBe_toBe_mod, Nat.mod_eq_of_lt h]

theorem ofBe_div (b : UInt8) (bytes : Bytes) : ofBe (b :: bytes) / 256 ^ bytes.length = b.toNat := by
  have hpos : 0 < 256 ^ bytes.length := Nat.pow_pos (by decide)
  rw [ofBe_cons, Nat.mul_comm, Nat.mul_add_div hpos, Nat.div_eq_of_lt (ofBe_lt bytes), Nat.add_zero]

theorem ofBe_inj {bytes bytes' : Bytes} (hlen : bytes.length = bytes'.length)
    (h : ofBe bytes = ofBe bytes') : bytes = bytes' := by
  induction bytes generalizing bytes' with
  | nil => exact (List.eq_nil_of_length_eq_zero hlen.symm).symm
  | cons b bytes ih =>
    cases bytes' with
    | nil => cases hlen
    | cons b' bytes' =>
      have hrest : bytes.length = bytes'.length := Nat.succ.inj hlen
      have hfirst : b = b' := by
        have hdiv := ofBe_div b bytes
        rw [h, hrest, ofBe_div] at hdiv
        exact (UInt8.toNat_inj.mp hdiv).symm
      subst hfirst
      rw [ofBe_cons, ofBe_cons, hrest] at h
      rw [ih hrest (Nat.add_left_cancel h)]

theorem toBe_ofBe (bytes : Bytes) : toBe bytes.length (ofBe bytes) = bytes :=
  ofBe_inj (toBe_length _ _) (ofBe_toBe (ofBe_lt bytes))

theorem swap_ok {α : Type} {xs : List α} {i j : ℕ} (hi : i < xs.length) (hj : j < xs.length) :
    ∃ ys, swap xs i j = .ok ys ∧ ys.Perm xs := by
  refine ⟨_, ?_, List.set_set_perm hi hj⟩
  unfold swap
  rw [List.getElem?_eq_getElem hi, List.getElem?_eq_getElem hj]

theorem flatten_chunksFuel {α : Type} {n fuel : ℕ} {xs : List α} (hn : 0 < n)
    (h : xs.length ≤ fuel) : (chunksFuel n fuel xs).flatten = xs := by
  induction fuel generalizing xs with
  | zero =>
    obtain rfl := List.length_eq_zero_iff.mp (Nat.le_zero.mp h)
    rfl
  | succ fuel ih =>
    cases xs with
    | nil => rfl
    | cons x xs =>
      have hrest : ((x :: xs).drop n).length ≤ fuel := by
        rw [List.length_drop]
        omega
      rw [chunksFuel, List.flatten_cons, ih hrest, List.take_append_drop]

@[simp] theorem flatten_chunks {α : Type} {n : ℕ} (hn : 0 < n) (xs : List α) :
    (chunks n xs).flatten = xs :=
  flatten_chunksFuel hn (Nat.le_refl _)

theorem mem_chunks {α : Type} {n : ℕ} {xs c : List α} (hn : 0 < n) (h : c ∈ chunks n xs) :
    c ≠ [] ∧ c.length ≤ n := by
  unfold chunks at h
  generalize xs.length = fuel at h
  induction fuel generalizing xs with
  | zero => exact absurd h (by simp [chunksFuel])
  | succ fuel ih =>
    cases xs with
    | nil => exact absurd h (by simp [chunksFuel])
    | cons x xs =>
      rcases List.mem_cons.mp h with rfl | h
      · refine ⟨?_, List.length_take_le _ _⟩
        rw [ne_eq, List.take_eq_nil_iff]
        simp only [reduceCtorEq, or_false]
        omega
      · exact ih h

end Lib
