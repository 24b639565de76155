import Mathlib.Data.List.DropRight
import Mathlib.Data.List.SplitOn
import Aerion.Lib.Outcome

/-!
# Rust strings

`str::trim` removes the Unicode `White_Space` characters, a larger set than
Lean's own `String.trim` knows, so it is defined here on the characters.
`parse_uuid` (`src/protocol.rs`) reads a UUID credential as sixteen bytes.
-/

namespace Aerion.Net

open Lib

/-- `char::is_whitespace`: the Unicode `White_Space` property. -/
def isWhitespace (c : Char) : Bool :=
  let n := c.toNat
  (0x9 ≤ n && n ≤ 0xD) || n == 0x20 || n == 0x85 || n == 0xA0 || n == 0x1680 ||
    (0x2000 ≤ n && n ≤ 0x200A) || n == 0x2028 || n == 0x2029 || n == 0x202F || n == 0x205F ||
    n == 0x3000

def trimChars (cs : List Char) : List Char := (cs.dropWhile isWhitespace).rdropWhile isWhitespace

def trim (s : String) : String := String.ofList (trimChars s.toList)

/-- `s.trim().is_empty()`. -/
def isBlank (s : String) : Bool := trim s == ""

/-- `String::from_utf8`. -/
def fromUtf8 (bytes : Bytes) : Option String := String.fromUTF8? ⟨bytes.toArray⟩

/-- The lines of a text, trimmed, without the empty ones. A carriage return is white space, so
trimming takes off what `str::lines` would. -/
def trimmedLines (cs : List Char) : List (List Char) :=
  ((cs.splitOn '\n').map trimChars).filter (· ≠ [])

def splitOnce (sep : Char) : List Char → Option (List Char × List Char)
  | [] => none
  | c :: cs => if c = sep then some ([], cs) else (splitOnce sep cs).map fun (a, b) => (c :: a, b)

def parseDigits (bound n : ℕ) : List Char → Outcome ℕ
  | [] => .ok n
  | c :: cs =>
    if c.isDigit then
      if n * 10 + (c.toNat - 0x30) < bound then parseDigits bound (n * 10 + (c.toNat - 0x30)) cs
      else .err "number too large to fit in target type"
    else .err "invalid digit found in string"

/-- `str::parse` of an unsigned type with the given number of values: decimal digits, after a
plus sign or not. -/
def parseUnsigned (bound : ℕ) : List Char → Outcome ℕ
  | [] => .err "cannot parse integer from empty string"
  | ['+'] => .err "invalid digit found in string"
  | '+' :: digits => parseDigits bound 0 digits
  | digits => parseDigits bound 0 digits

/-- `hex::encode`. -/
def hexEncode (bytes : Bytes) : String :=
  String.ofList (bytes.flatMap fun b => [Nat.digitChar (b.toNat / 16), Nat.digitChar (b.toNat % 16)])

/-- A number as `{:#x}` prints it. -/
def hexText (n : Nat) : String := "0x" ++ String.ofList (Nat.toDigits 16 n)

theorem trimChars_trimChars (cs : List Char) : trimChars (trimChars cs) = trimChars cs := by
  have hdrop : (trimChars cs).dropWhile isWhitespace = trimChars cs := by
    cases htrim : trimChars cs with
    | nil => rfl
    | cons c rest =>
      have hhead : isWhitespace c = false := by
        obtain ⟨tail, htail⟩ : trimChars cs <+: cs.dropWhile isWhitespace := List.rdropWhile_prefix _ _
        rw [htrim] at htail
        have hne : cs.dropWhile isWhitespace ≠ [] := by
          rw [← htail]
          nofun
        have hnot := List.head_dropWhile_not isWhitespace hne
        simpa [← htail] using hnot
      rw [List.dropWhile_cons_of_neg (by rw [hhead]; nofun)]
  unfold trimChars at hdrop ⊢
  rw [hdrop, List.rdropWhile_idempotent]

theorem mem_splitOn {sep : Char} {cs piece : List Char} (h : piece ∈ cs.splitOn sep) : sep ∉ piece := by
  induction cs generalizing piece with
  | nil =>
    rw [List.splitOn_nil, List.mem_singleton] at h
    rw [h]
    nofun
  | cons c cs ih =>
    rw [List.splitOn_cons_eq_if_modifyHead] at h
    split at h
    · rcases List.mem_cons.mp h with rfl | h
      · nofun
      · exact ih h
    · rename_i hc
      cases hsplit : cs.splitOn sep with
      | nil => exact absurd hsplit (List.splitOn_ne_nil _ _)
      | cons first rest =>
        rw [hsplit, List.modifyHead_cons] at h
        rcases List.mem_cons.mp h with rfl | h
        · intro hmem
          rcases List.mem_cons.mp hmem with rfl | hmem
          · simp at hc
          · exact ih (by rw [hsplit]; exact List.mem_cons_self) hmem
        · exact ih (by rw [hsplit]; exact List.mem_cons_of_mem _ h)

theorem trimChars_sublist (cs : List Char) : (trimChars cs).Sublist cs :=
  (List.rdropWhile_prefix _ _).sublist.trans (List.dropWhile_sublist _)

@[simp] theorem isBlank_empty : isBlank "" = true := by decide

/-- `hex::decode` on one character. -/
def hexDigit (c : Char) : Option UInt8 :=
  let n := c.toNat
  if 0x30 ≤ n ∧ n ≤ 0x39 then some (UInt8.ofNat (n - 0x30))
  else if 0x41 ≤ n ∧ n ≤ 0x46 then some (UInt8.ofNat (n - 0x41 + 10))
  else if 0x61 ≤ n ∧ n ≤ 0x66 then some (UInt8.ofNat (n - 0x61 + 10))
  else none

def hexDecode : List Char → Option Bytes
  | [] => some []
  | [_] => none
  | hi :: lo :: rest =>
    match hexDigit hi, hexDigit lo, hexDecode rest with
    | some h, some l, some bytes => some ((h <<< 4 ||| l) :: bytes)
    | _, _, _ => none

end Aerion.Net
