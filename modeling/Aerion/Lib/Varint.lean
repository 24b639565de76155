import Aerion.Lib.Outcome

/-!
# Base-128 varints

A number as bytes of seven bits each, lowest first, every byte but the last
with its high bit set. `Varint.take` reads one from the front of a byte
string and gives back the bytes after it; ten bytes are the most it accepts,
and the number is reduced to a 64-bit word.
-/

namespace Lib.Varint

/-- At most `more + 1` bytes of a varint, with the number they make. -/
def digits : Nat → Bytes → Option (Nat × Bytes)
  | _, [] => none
  | 0, b :: rest => if b.toNat < 128 then some (b.toNat, rest) else none
  | more + 1, b :: rest =>
    if b.toNat < 128 then some (b.toNat, rest)
    else (digits more rest).map fun (n, tail) => (b.toNat % 128 + 128 * n, tail)

def take (bytes : Bytes) : Option (Nat × Bytes) :=
  (digits 9 bytes).map fun (n, rest) => (n % wordSize, rest)

/-- A number as its seven-bit digits. -/
def encode (n : Nat) : Bytes :=
  if n < 128 then [UInt8.ofNat n] else UInt8.ofNat (n % 128 + 128) :: encode (n / 128)
termination_by n
decreasing_by omega

/-- A number of at most `more + 1` digits is read back. -/
theorem digits_encode {more n : Nat} (h : n < 128 ^ (more + 1)) (rest : Bytes) :
    digits more (encode n ++ rest) = some (n, rest) := by
  induction more generalizing n with
  | zero =>
    rw [encode, if_pos (by omega), List.singleton_append, digits, UInt8.toNat_ofNat', Nat.mod_eq_of_lt (by omega),
      if_pos (by omega)]
  | succ more ih =>
    rw [encode]
    split
    · rename_i hlast
      rw [List.singleton_append, digits, UInt8.toNat_ofNat', Nat.mod_eq_of_lt (by omega), if_pos hlast]
    · have hrest : n / 128 < 128 ^ (more + 1) := Nat.div_lt_of_lt_mul (by rw [← Nat.pow_succ']; exact h)
      have hbyte : (UInt8.ofNat (n % 128 + 128)).toNat = n % 128 + 128 := by
        rw [UInt8.toNat_ofNat', Nat.mod_eq_of_lt (by omega)]
      rw [List.cons_append, digits, hbyte, if_neg (by omega), ih hrest]
      simp only [Option.map_some, Option.some.injEq, Prod.mk.injEq, and_true]
      omega

theorem encode_length_le {more n : Nat} (h : n < 128 ^ (more + 1)) : (encode n).length ≤ more + 1 := by
  induction more generalizing n with
  | zero => rw [encode, if_pos (by omega)]; exact Nat.le_refl _
  | succ more ih =>
    rw [encode]
    split
    · exact Nat.le_add_left _ _
    · exact Nat.succ_le_succ (ih (Nat.div_lt_of_lt_mul (by rw [← Nat.pow_succ']; exact h)))

/-- What is left after a number is shorter than the bytes it stands at the front of. -/
theorem digits_length {more n : Nat} {bytes rest : Bytes} (h : digits more bytes = some (n, rest)) :
    rest.length < bytes.length := by
  induction bytes generalizing more n with
  | nil => cases more <;> cases h
  | cons b bytes ih =>
    cases more with
    | zero =>
      rw [digits] at h
      split at h
      · cases h
        exact Nat.lt_succ_self _
      · cases h
    | succ more =>
      rw [digits] at h
      split at h
      · cases h
        exact Nat.lt_succ_self _
      · obtain ⟨⟨m, tail⟩, hmore, htail⟩ := Option.map_eq_some_iff.mp h
        cases htail
        exact Nat.lt_succ_of_lt (ih hmore)

end Lib.Varint
