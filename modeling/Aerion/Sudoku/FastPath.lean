import Aerion.Sudoku.RoundTrip

/-!
# The fast path of the packed decoder

`feed_packed` of `src/sudoku/table.rs` takes four data bytes at once where it
stands at a byte boundary and the segment is long enough. Whatever the
segments are, it does what its scalar step does byte by byte.
-/

namespace Aerion.Sudoku

open Lib Outcome

namespace Decoder

def scalar : Bytes → Decoder → Decoder × Bytes
  | [], d => (d, [])
  | byte :: input, d =>
    let first := d.packedByte byte
    let rest := scalar input first.1
    (rest.1, first.2 ++ rest.2)

/-- One call of `feed_packed` for each segment. -/
def feedSegments : List Bytes → Decoder → Decoder × Bytes
  | [], d => (d, [])
  | segment :: segments, d =>
    let first := d.feedPacked segment
    let rest := feedSegments segments first.1
    (rest.1, first.2 ++ rest.2)

structure Fits (d : Decoder) : Prop where
  count : d.count < 8
  bits : d.bits < 2 ^ d.count

theorem Fits.aligned {d : Decoder} (h : d.Fits) : Aligned d := by
  intro hcount
  have hbits := h.bits
  rw [hcount] at hbits
  omega

theorem new_fits (table : Table) (down packed : Bool) : (Decoder.new table down packed).Fits :=
  ⟨Nat.succ_pos 7, Nat.one_pos⟩

theorem Fits.packedGroup {d : Decoder} (h : d.Fits) (g : Group) : (d.packedGroup g).1.Fits := by
  have hcount := h.count
  have hword : (d.bits <<< 6) ||| g.val < 2 ^ (d.count + 6) := by
    have hbits := h.bits
    have hg := g.isLt
    rw [shift_or (k := 6) hg, Nat.pow_add]
    omega
  unfold Decoder.packedGroup
  dsimp only
  split
  · constructor <;> dsimp only
    · omega
    · rw [and_mask]
      exact Nat.mod_lt _ (Nat.two_pow_pos _)
  · rename_i hpart
    exact ⟨Nat.lt_of_not_le hpart, hword⟩

theorem Fits.packedByte {d : Decoder} (h : d.Fits) (byte : UInt8) : (d.packedByte byte).1.Fits := by
  unfold Decoder.packedByte
  split
  · split
    · exact ⟨Nat.succ_pos 7, Nat.one_pos⟩
    · exact h
  · exact h.packedGroup _

theorem Fits.scalar {d : Decoder} (h : d.Fits) (input : Bytes) : (d.scalar input).1.Fits := by
  induction input generalizing d with
  | nil => exact h
  | cons byte input ih => exact ih (h.packedByte byte)

theorem scalar_append (first second : Bytes) (d : Decoder) :
    d.scalar (first ++ second) =
      (((d.scalar first).1.scalar second).1, (d.scalar first).2 ++ ((d.scalar first).1.scalar second).2) := by
  induction first generalizing d with
  | nil => rfl
  | cons byte first ih =>
    rw [List.cons_append, scalar, scalar, ih]
    simp only [List.append_assoc]

theorem scalar_transduce (input : Bytes) (d : Decoder) :
    transduce packedByteStep input d = .ok (d.scalar input) := by
  induction input generalizing d with
  | nil => rfl
  | cons byte input ih => exact transduce_cons_ok.mpr ⟨_, _, _, rfl, ih _, rfl⟩

theorem Fits.feedPacked {d : Decoder} (h : d.Fits) (segment : Bytes) :
    d.feedPacked segment = d.scalar segment :=
  Outcome.ok.inj ((feedPacked_eq h.aligned).trans (scalar_transduce segment d))

theorem Fits.feedSegments {d : Decoder} (h : d.Fits) (segments : List Bytes) :
    d.feedSegments segments = d.scalar segments.flatten := by
  induction segments generalizing d with
  | nil => rfl
  | cons segment segments ih =>
    have hrest := ih (h.scalar segment)
    rw [Decoder.feedSegments, h.feedPacked segment, hrest, List.flatten_cons, scalar_append]

/-- In every state a packed decoder can be in, and for every segmentation of
the bytes to come, the output and the state are those of the scalar step. -/
theorem fast_path_refines (table : Table) (down : Bool) (history segments : List Bytes) :
    let d := ((Decoder.new table down true).feedSegments history).1
    d.Fits ∧ d.feedSegments segments = d.scalar segments.flatten := by
  have hnew := new_fits table down true
  have hd : ((Decoder.new table down true).feedSegments history).1.Fits := by
    rw [hnew.feedSegments history]
    exact hnew.scalar _
  exact ⟨hd, hd.feedSegments segments⟩

end Decoder

end Aerion.Sudoku
