import Aerion.Lib.Words
import Mathlib.Data.Int.Order.Basic
import Mathlib.Algebra.Order.Group.Abs

/-!
# Signed machine words

Subtraction and absolute value of 64-bit signed words. A build that checks
overflow panics where the exact result does not fit, a build that does not
wraps it; the absolute value of the least word does not fit.
-/

namespace Lib

/-- The exact integer is the value of a signed word. -/
def FitsI64 (x : ℤ) : Prop := -2 ^ 63 ≤ x ∧ x < 2 ^ 63

instance (x : ℤ) : Decidable (FitsI64 x) := inferInstanceAs (Decidable (_ ∧ _))

/-- The result of an operation whose exact value is `x`. -/
def signedResult (mode : Overflow) (x : ℤ) : Outcome ℤ :=
  if FitsI64 x then .ok x
  else match mode with
    | .checked => .panic
    | .wrapping => .ok (x.bmod (2 ^ 64))

def subI64 (mode : Overflow) (a b : ℤ) : Outcome ℤ := signedResult mode (a - b)

def absI64 (mode : Overflow) (a : ℤ) : Outcome ℤ := signedResult mode |a|

/-- `i64::from_be_bytes`. -/
def ofBeI64 (bytes : Bytes) : ℤ := (ofBe bytes : ℤ).bmod (2 ^ 64)

theorem signedResult_fits {mode : Overflow} {x : ℤ} (h : FitsI64 x) : signedResult mode x = .ok x :=
  if_pos h

theorem signedResult_checked {x : ℤ} (h : ¬FitsI64 x) : signedResult .checked x = .panic :=
  if_neg h

end Lib
