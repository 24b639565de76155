import Aerion.Lib.Varint
import Aerion.Net.Octets
import Mathlib.Logic.Relation
import Mathlib.Tactic.Ring

/-!
# The VLESS request header

`read_vless_request` and the protobuf addons it decodes (`src/vless.rs`),
read from a client that has not authenticated yet. Words are 64 bits wide;
`mode` says whether the build checks additions. The addons are followed
twice: by the code, with a cursor into the block, and by `FieldPassed`, which
goes from suffix to suffix.
-/

namespace Aerion.Vless

open Lib Aerion.Net

/-! ### Addons -/

section

variable (mode : Overflow)

/-- `read_varint`, from the round that reads at `shift`. -/
def readVarintFrom (bytes : Bytes) (cursor shift : Nat) (value : UInt64) :
    Outcome (UInt64 × Nat) := do
  Outcome.ensure (cursor < bytes.length) "truncated VLESS addons varint"
  let byte ← index bytes cursor
  let cursor ← addWord mode cursor 1
  let value := value ||| ((byte &&& 0x7f).toUInt64 <<< shift.toUInt64)
  if byte &&& 0x80 = 0 then
    return (value, cursor)
  if shift + 7 < 64 then readVarintFrom bytes cursor (shift + 7) value
  else .err "VLESS addons varint is too large"
termination_by 64 - shift

def readVarint (bytes : Bytes) (cursor : Nat) : Outcome (UInt64 × Nat) :=
  readVarintFrom mode bytes cursor 0 0

/-- `read_length_delimited`: the payload, and the cursor behind it. -/
def readLengthDelimited (bytes : Bytes) (cursor : Nat) : Outcome (Bytes × Nat) := do
  let (value, cursor) ← readVarint mode bytes cursor
  let len := value.toNat
  let stop ← addWord mode cursor len
  Outcome.ensure (stop ≤ bytes.length) "truncated VLESS addons payload"
  let start := cursor
  let cursor ← addWord mode cursor len
  let stop ← addWord mode start len
  let payload ← slice bytes start stop
  return (payload, cursor)

/-- One round of the loop of `decode_flow_addon`. -/
def readField (addons : Bytes) (cursor : Nat) (flow : String) : Outcome (String × Nat) := do
  let (key, cursor) ← readVarint mode addons cursor
  let fieldNumber := key >>> 3
  let wireType := key &&& 0x07
  if fieldNumber = 1 ∧ wireType = 2 then
    let (value, cursor) ← readLengthDelimited mode addons cursor
    let flow ← Outcome.need (fromUtf8 value) "decode VLESS flow addon"
    return (flow, cursor)
  else if wireType = 0 then
    let (_, cursor) ← readVarint mode addons cursor
    return (flow, cursor)
  else if wireType = 2 then
    let (_, cursor) ← readLengthDelimited mode addons cursor
    return (flow, cursor)
  else .err ("unsupported VLESS addons wire type " ++ toString wireType.toNat)

end

/-! ### What the cursor reads -/

theorem last_byte_iff (b : UInt8) : b &&& 0x80 = 0 ↔ b.toNat < 128 := by
  have hall : ∀ n < 256, (n &&& 128 = 0 ↔ n < 128) := by decide +kernel
  rw [← UInt8.toNat_inj, UInt8.toNat_and]
  exact hall b.toNat b.toNat_lt

theorem low_bits (b : UInt8) : (b &&& 0x7f).toNat = b.toNat % 128 := by
  rw [UInt8.toNat_and]
  exact Nat.and_two_pow_sub_one_eq_mod b.toNat 7

theorem toNat_or_shift {value : UInt64} {b : UInt8} {shift : Nat} (hs : shift < 64)
    (hv : value.toNat < 2 ^ shift) :
    (value ||| ((b &&& 0x7f).toUInt64 <<< shift.toUInt64)).toNat =
      (value.toNat + 2 ^ shift * (b.toNat % 128)) % wordSize := by
  have hshift : shift.toUInt64.toNat = shift := by
    rw [Nat.toUInt64, UInt64.toNat_ofNat']
    omega
  have hsplit : wordSize = 2 ^ shift * 2 ^ (64 - shift) := by
    rw [wordSize, ← Nat.pow_add]
    congr 1
    omega
  have hhigh : 2 ^ shift * (b.toNat % 128) % wordSize =
      2 ^ shift * (b.toNat % 128 % 2 ^ (64 - shift)) := by
    rw [hsplit, Nat.mul_mod_mul_left]
  have hbits : ((b &&& 0x7f).toUInt64 <<< shift.toUInt64).toNat =
      2 ^ shift * (b.toNat % 128 % 2 ^ (64 - shift)) := by
    rw [UInt64.toNat_shiftLeft, hshift, UInt8.toNat_toUInt64, low_bits, Nat.mod_eq_of_lt hs,
      Nat.shiftLeft_eq, Nat.mul_comm]
    exact hhigh
  have hlt : value.toNat + 2 ^ shift * (b.toNat % 128 % 2 ^ (64 - shift)) < wordSize := by
    have hm : b.toNat % 128 % 2 ^ (64 - shift) + 1 ≤ 2 ^ (64 - shift) := Nat.mod_lt _ (Nat.two_pow_pos _)
    calc value.toNat + 2 ^ shift * (b.toNat % 128 % 2 ^ (64 - shift))
        < 2 ^ shift * (b.toNat % 128 % 2 ^ (64 - shift) + 1) := by rw [Nat.mul_succ]; omega
      _ ≤ wordSize := hsplit ▸ Nat.mul_le_mul_left _ hm
  rw [UInt64.toNat_or, hbits, Nat.or_comm, ← Nat.two_pow_add_eq_or_of_lt hv, Nat.add_mod, hhigh,
    Nat.mod_eq_of_lt (lt_of_le_of_lt (Nat.le_add_right _ _) hlt), Nat.mod_eq_of_lt hlt, Nat.add_comm]

section

variable {mode : Overflow} {bytes : Bytes}

theorem drop_eq_cons {b : UInt8} {cursor : Nat} {rest : Bytes} (h : bytes.drop cursor = b :: rest) :
    bytes[cursor]? = some b ∧ bytes.drop (cursor + 1) = rest ∧
      bytes.length = cursor + 1 + rest.length := by
  have hlen := congrArg List.length h
  rw [List.length_drop, List.length_cons] at hlen
  refine ⟨?_, ?_, by omega⟩
  · rw [← List.head?_drop, h]
    rfl
  · rw [← List.tail_drop, h]
    rfl

theorem readVarintFrom_nil {cursor shift : Nat} {value : UInt64} (h : bytes.drop cursor = []) :
    readVarintFrom mode bytes cursor shift value = .err "truncated VLESS addons varint" := by
  have : ¬ cursor < bytes.length := by simpa using h
  rw [readVarintFrom]
  simp [Outcome.ensure, this]

theorem readVarintFrom_cons (hlen : bytes.length < wordSize) {b : UInt8} {rest : Bytes}
    {cursor shift : Nat} {value : UInt64} (h : bytes.drop cursor = b :: rest) :
    readVarintFrom mode bytes cursor shift value =
      let value := value ||| ((b &&& 0x7f).toUInt64 <<< shift.toUInt64)
      if b.toNat < 128 then .ok (value, cursor + 1)
      else if shift + 7 < 64 then readVarintFrom mode bytes (cursor + 1) (shift + 7) value
      else .err "VLESS addons varint is too large" := by
  obtain ⟨hb, -, hlength⟩ := drop_eq_cons h
  rw [readVarintFrom]
  simp only [Outcome.ensure, show cursor < bytes.length by omega, decide_true, if_true,
    Outcome.ok_bind, index_ok.mpr hb, addWord_of_lt (show cursor + 1 < wordSize by omega),
    last_byte_iff, Outcome.pure_eq]

theorem readVarintFrom_spec (hlen : bytes.length < wordSize) {more k cursor : Nat}
    {value : UInt64} {todo : Bytes} (hd : bytes.drop cursor = todo) (hk : more + k = 9)
    (hv : value.toNat < 2 ^ (7 * k)) :
    match Varint.digits more todo with
    | some (n, rest) => ∃ v cursor', readVarintFrom mode bytes cursor (7 * k) value =
        .ok (v, cursor') ∧ bytes.drop cursor' = rest ∧ cursor < cursor' ∧
        cursor' ≤ bytes.length ∧ v.toNat = (value.toNat + 2 ^ (7 * k) * n) % wordSize
    | none => ∃ e, readVarintFrom mode bytes cursor (7 * k) value = .err e := by
  induction todo generalizing more k cursor value with
  | nil => cases more <;> exact ⟨_, readVarintFrom_nil hd⟩
  | cons b rest ih =>
    obtain ⟨-, hrest, hlength⟩ := drop_eq_cons hd
    have hvalue := toNat_or_shift (b := b) (show 7 * k < 64 by omega) hv
    rw [readVarintFrom_cons hlen hd]
    generalize value ||| ((b &&& 0x7f).toUInt64 <<< (7 * k).toUInt64) = value' at hvalue
    by_cases hlast : b.toNat < 128
    · rw [Nat.mod_eq_of_lt hlast] at hvalue
      cases more <;> simpa [Varint.digits, hlast] using ⟨hrest, by omega, hvalue⟩
    · cases more with
      | zero =>
        have : ¬ 7 * k + 7 < 64 := by omega
        simp [Varint.digits, hlast, this]
      | succ more =>
        -- the bits read so far stay below the word, so nothing is lost before the last byte
        have hword : 2 ^ (7 * (k + 1)) ≤ wordSize := Nat.pow_le_pow_right (by decide) (by omega)
        have hpow : 2 ^ (7 * (k + 1)) = 2 ^ (7 * k) * 128 := by rw [Nat.mul_succ, Nat.pow_add]
        have hbits : value.toNat + 2 ^ (7 * k) * (b.toNat % 128) < 2 ^ (7 * (k + 1)) := by
          have hb : b.toNat % 128 + 1 ≤ 128 := Nat.mod_lt _ (by decide)
          calc value.toNat + 2 ^ (7 * k) * (b.toNat % 128)
              < 2 ^ (7 * k) * (b.toNat % 128 + 1) := by rw [Nat.mul_succ]; omega
            _ ≤ 2 ^ (7 * (k + 1)) := hpow ▸ Nat.mul_le_mul_left _ hb
        rw [Nat.mod_eq_of_lt (hbits.trans_le hword)] at hvalue
        have hnext := @ih more (k + 1) (cursor + 1) value' hrest (by omega) (hvalue ▸ hbits)
        simp only [Varint.digits, hlast, if_false, show 7 * k + 7 < 64 by omega, if_true]
        cases hdigits : Varint.digits more rest with
        | none =>
          rw [hdigits] at hnext
          exact hnext
        | some p =>
          rw [hdigits] at hnext
          obtain ⟨v, cursor', hok, hdrop, hgt, hle, hv'⟩ := hnext
          refine ⟨v, cursor', hok, hdrop, by omega, hle, ?_⟩
          rw [hv', hvalue, hpow]
          congr 1
          ring

theorem readVarint_spec (mode : Overflow) (hlen : bytes.length < wordSize) (cursor : Nat) :
    match Varint.take (bytes.drop cursor) with
    | some (n, rest) => ∃ v cursor', readVarint mode bytes cursor = .ok (v, cursor') ∧
        v.toNat = n ∧ bytes.drop cursor' = rest ∧ cursor < cursor' ∧ cursor' ≤ bytes.length
    | none => ∃ e, readVarint mode bytes cursor = .err e := by
  have hspec := @readVarintFrom_spec mode bytes hlen 9 0 cursor 0 _ rfl rfl (by decide)
  rw [Varint.take]
  cases hd : Varint.digits 9 (bytes.drop cursor) with
  | none =>
    rw [hd] at hspec
    exact hspec
  | some p =>
    rw [hd] at hspec
    obtain ⟨v, cursor', hok, hdrop, hgt, hle, hv⟩ := hspec
    exact ⟨v, cursor', hok, by simpa using hv, hdrop, hgt, hle⟩

theorem readVarint_some (hlen : bytes.length < wordSize) {cursor n : Nat} {rest : Bytes}
    (h : Varint.take (bytes.drop cursor) = some (n, rest)) :
    ∃ v cursor', readVarint mode bytes cursor = .ok (v, cursor') ∧ v.toNat = n ∧
      bytes.drop cursor' = rest ∧ cursor < cursor' ∧ cursor' ≤ bytes.length := by
  simpa [h] using readVarint_spec mode hlen cursor

theorem readVarint_none (hlen : bytes.length < wordSize) {cursor : Nat}
    (h : Varint.take (bytes.drop cursor) = none) : ∃ e, readVarint mode bytes cursor = .err e := by
  simpa [h] using readVarint_spec mode hlen cursor

theorem readLengthDelimited_overflow (hlen : bytes.length < wordSize) {cursor n : Nat}
    {payload : Bytes} (h : Varint.take (bytes.drop cursor) = some (n, payload))
    (hover : wordSize ≤ bytes.length - payload.length + n) :
    readLengthDelimited mode bytes cursor = .panic := by
  obtain ⟨v, start, hok, rfl, rfl, -, hle⟩ := @readVarint_some mode _ hlen _ _ _ h
  have hpos : bytes.length - (bytes.drop start).length = start := by
    rw [List.length_drop]
    omega
  rw [hpos] at hover
  have hv : v.toNat < wordSize := v.toNat_lt
  have hnot : ¬ start + v.toNat < wordSize := by omega
  have hwrapped : (start + v.toNat) % wordSize < start := by
    rw [Nat.mod_eq_sub_mod hover, Nat.mod_eq_of_lt (by omega)]
    omega
  cases mode with
  | checked => simp [readLengthDelimited, hok, addWord, hnot]
  | wrapping =>
    have hpanic : slice bytes start ((start + v.toNat) % wordSize) = .panic :=
      slice_panic.mpr (by omega)
    simp [readLengthDelimited, hok, addWord, hnot, Outcome.ensure, hpanic,
      show (start + v.toNat) % wordSize ≤ bytes.length by omega]

theorem readLengthDelimited_fits (hlen : bytes.length < wordSize) {cursor n : Nat}
    {payload : Bytes} (h : Varint.take (bytes.drop cursor) = some (n, payload))
    (hfits : n ≤ payload.length) :
    ∃ cursor', readLengthDelimited mode bytes cursor = .ok (payload.take n, cursor') ∧
      bytes.drop cursor' = payload.drop n ∧ cursor < cursor' ∧ cursor' ≤ bytes.length := by
  obtain ⟨v, start, hok, rfl, rfl, hgt, hle⟩ := @readVarint_some mode _ hlen _ _ _ h
  rw [List.length_drop] at hfits
  have hstop : start + v.toNat ≤ bytes.length := by omega
  have hslice : slice bytes start (start + v.toNat) = .ok ((bytes.drop start).take v.toNat) :=
    slice_ok.mpr ⟨by omega, hstop, by rw [List.drop_take]; congr 1; omega⟩
  refine ⟨start + v.toNat, ?_, (List.drop_drop ..).symm, by omega, hstop⟩
  simp [readLengthDelimited, hok, addWord_of_lt (show start + v.toNat < wordSize by omega),
    Outcome.ensure, hstop, hslice]

theorem readLengthDelimited_short (hlen : bytes.length < wordSize) {cursor n : Nat}
    {payload : Bytes} (h : Varint.take (bytes.drop cursor) = some (n, payload))
    (hshort : payload.length < n) (hword : bytes.length - payload.length + n < wordSize) :
    readLengthDelimited mode bytes cursor = .err "truncated VLESS addons payload" := by
  obtain ⟨v, start, hok, rfl, rfl, hgt, hle⟩ := @readVarint_some mode _ hlen _ _ _ h
  rw [List.length_drop] at hshort hword
  have hstop : ¬ start + v.toNat ≤ bytes.length := by omega
  simp [readLengthDelimited, hok, addWord_of_lt (show start + v.toNat < wordSize by omega),
    Outcome.ensure, hstop]

theorem readLengthDelimited_cases (mode : Overflow) (hlen : bytes.length < wordSize) (cursor : Nat) :
    (∃ n payload, Varint.take (bytes.drop cursor) = some (n, payload) ∧
      (wordSize ≤ bytes.length - payload.length + n ∨ n ≤ payload.length)) ∨
    ∃ e, readLengthDelimited mode bytes cursor = .err e := by
  cases h : Varint.take (bytes.drop cursor) with
  | none =>
    obtain ⟨e, he⟩ := @readVarint_none mode _ hlen _ h
    exact .inr ⟨e, by simp [readLengthDelimited, he]⟩
  | some p =>
    obtain ⟨n, payload⟩ := p
    by_cases hover : wordSize ≤ bytes.length - payload.length + n
    · exact .inl ⟨n, payload, rfl, .inl hover⟩
    by_cases hfits : n ≤ payload.length
    · exact .inl ⟨n, payload, rfl, .inr hfits⟩
    · exact .inr ⟨_, readLengthDelimited_short hlen h (by omega) (by omega)⟩

end

/-! ### Fields -/

/-- `rest` follows a field at the start of `bytes` that decoding accepts. -/
inductive FieldPassed : Bytes → Bytes → Prop where
  | varint {bytes rest rest' : Bytes} {key n : Nat} :
      Varint.take bytes = some (key, rest) → key % 8 = 0 → Varint.take rest = some (n, rest') →
      FieldPassed bytes rest'
  | delimited {bytes rest payload : Bytes} {key n : Nat} :
      Varint.take bytes = some (key, rest) → key % 8 = 2 → Varint.take rest = some (n, payload) →
      n ≤ payload.length → (key / 8 = 1 → (fromUtf8 (payload.take n)).isSome) →
      FieldPassed bytes (payload.drop n)

/-- The field at the start of `field`, in a block of `size` bytes, gives a
length that carries its position past the word. -/
def OverflowsAt (size : Nat) (field : Bytes) : Prop :=
  ∃ key rest n payload, Varint.take field = some (key, rest) ∧ key % 8 = 2 ∧
    Varint.take rest = some (n, payload) ∧ wordSize ≤ size - payload.length + n

section

variable {mode : Overflow} {addons : Bytes}

theorem fieldNumber_eq_one {key : UInt64} : key >>> 3 = 1 ↔ key.toNat / 8 = 1 := by
  rw [← UInt64.toNat_inj, UInt64.toNat_shiftRight]
  simp [Nat.shiftRight_eq_div_pow]

theorem wireType_toNat (key : UInt64) : (key &&& 0x07).toNat = key.toNat % 8 := by
  rw [UInt64.toNat_and]
  exact Nat.and_two_pow_sub_one_eq_mod key.toNat 3

theorem wireType_eq {key : UInt64} {t : UInt64} : key &&& 0x07 = t ↔ key.toNat % 8 = t.toNat := by
  rw [← UInt64.toNat_inj, wireType_toNat]

theorem OverflowsAt.readField (hlen : addons.length < wordSize) {cursor : Nat} (flow : String)
    (h : OverflowsAt addons.length (addons.drop cursor)) :
    readField mode addons cursor flow = .panic := by
  obtain ⟨key, rest, n, payload, hkey, htype, hn, hover⟩ := h
  obtain ⟨v, start, hok, rfl, rfl, -, -⟩ := @readVarint_some mode _ hlen _ _ _ hkey
  have hpanic := @readLengthDelimited_overflow mode _ hlen _ _ _ hn hover
  have h2 : v &&& 0x07 = 2 := wireType_eq.mpr htype
  by_cases h1 : v >>> 3 = 1 <;> simp [Vless.readField, hok, h1, h2, hpanic]

theorem FieldPassed.readField (hlen : addons.length < wordSize) {cursor : Nat} {rest : Bytes}
    (flow : String) (h : FieldPassed (addons.drop cursor) rest) :
    ∃ flow' next, readField mode addons cursor flow = .ok (flow', next) ∧
      addons.drop next = rest := by
  generalize hb : addons.drop cursor = bytes at h
  cases h with
  | varint hkey htype hn =>
    subst hb
    obtain ⟨v, start, hok, rfl, rfl, -, -⟩ := @readVarint_some mode _ hlen _ _ _ hkey
    obtain ⟨v', next, hok', rfl, rfl, -, -⟩ := @readVarint_some mode _ hlen _ _ _ hn
    have h0 : v &&& 0x07 = 0 := wireType_eq.mpr htype
    exact ⟨flow, next, by simp [Vless.readField, hok, h0, hok'], rfl⟩
  | delimited hkey htype hn hfits hutf =>
    subst hb
    obtain ⟨v, start, hok, rfl, rfl, -, -⟩ := @readVarint_some mode _ hlen _ _ _ hkey
    obtain ⟨next, hok', hdrop, -, -⟩ := @readLengthDelimited_fits mode _ hlen _ _ _ hn hfits
    have h2 : v &&& 0x07 = 2 := wireType_eq.mpr htype
    by_cases h1 : v >>> 3 = 1
    · obtain ⟨text, htext⟩ := Option.isSome_iff_exists.mp (hutf (fieldNumber_eq_one.mp h1))
      exact ⟨text, next, by simp [Vless.readField, hok, h1, h2, hok', htext, Outcome.need], hdrop⟩
    · exact ⟨flow, next, by simp [Vless.readField, hok, h1, h2, hok'], hdrop⟩

theorem readField_cases (mode : Overflow) (hlen : addons.length < wordSize) (cursor : Nat)
    (flow : String) :
    OverflowsAt addons.length (addons.drop cursor) ∨
    (∃ flow' next, readField mode addons cursor flow = .ok (flow', next) ∧
      FieldPassed (addons.drop cursor) (addons.drop next) ∧ cursor < next ∧
      next ≤ addons.length) ∨
    ∃ e, readField mode addons cursor flow = .err e := by
  cases hkey : Varint.take (addons.drop cursor) with
  | none =>
    obtain ⟨e, he⟩ := @readVarint_none mode _ hlen _ hkey
    exact .inr (.inr ⟨e, by simp [readField, he]⟩)
  | some p =>
    obtain ⟨key, rest⟩ := p
    obtain ⟨v, start, hok, rfl, rfl, hgt, -⟩ := @readVarint_some mode _ hlen _ _ _ hkey
    by_cases h2 : v &&& 0x07 = 2
    · have htype : v.toNat % 8 = 2 := wireType_eq.mp h2
      rcases readLengthDelimited_cases mode hlen start with ⟨n, payload, hn, hover | hfits⟩ | ⟨e, he⟩
      · exact .inl ⟨_, _, n, payload, hkey, htype, hn, hover⟩
      · obtain ⟨next, hok', hdrop, hgt', hle⟩ := @readLengthDelimited_fits mode _ hlen _ _ _ hn hfits
        by_cases h1 : v >>> 3 = 1
        · cases htext : fromUtf8 (payload.take n) with
          | none =>
            exact .inr (.inr ⟨_, by simp [readField, hok, h1, h2, hok', htext, Outcome.need]; rfl⟩)
          | some text =>
            refine .inr (.inl ⟨text, next,
              by simp [readField, hok, h1, h2, hok', htext, Outcome.need], ?_, by omega, hle⟩)
            exact hdrop ▸ .delimited hkey htype hn hfits fun _ => by simp [htext]
        · refine .inr (.inl ⟨flow, next, by simp [readField, hok, h1, h2, hok'], ?_, by omega, hle⟩)
          exact hdrop ▸ .delimited hkey htype hn hfits fun h => absurd (fieldNumber_eq_one.mpr h) h1
      · refine .inr (.inr ⟨e, ?_⟩)
        by_cases h1 : v >>> 3 = 1 <;> simp [readField, hok, h1, h2, he]
    by_cases h0 : v &&& 0x07 = 0
    · cases hn : Varint.take (addons.drop start) with
      | none =>
        obtain ⟨e, he⟩ := @readVarint_none mode _ hlen _ hn
        exact .inr (.inr ⟨e, by simp [readField, hok, h0, he]⟩)
      | some p =>
        obtain ⟨v', next, hok', -, hdrop, hgt', hle⟩ := @readVarint_some mode _ hlen _ _ _ hn
        refine .inr (.inl ⟨flow, next, by simp [readField, hok, h0, hok'], ?_, by omega, hle⟩)
        exact hdrop ▸ .varint hkey (wireType_eq.mp h0) hn
    · exact .inr (.inr ⟨_, by simp [readField, hok, h0, h2]; rfl⟩)

theorem readField_advances (hlen : addons.length < wordSize) {cursor next : Nat}
    {flow flow' : String} (h : readField mode addons cursor flow = .ok (flow', next)) :
    FieldPassed (addons.drop cursor) (addons.drop next) ∧ cursor < next ∧
      next ≤ addons.length := by
  rcases readField_cases mode hlen cursor flow with hover | ⟨_, _, hok, hpassed⟩ | ⟨e, he⟩
  · rw [hover.readField hlen flow] at h
    cases h
  · rw [h] at hok
    cases hok
    exact hpassed
  · rw [he] at h
    cases h

end

/-- The loop of `decode_flow_addon`; every round moves the cursor on. -/
def decodeFlowAddonFrom (mode : Overflow) (addons : Bytes) (hlen : addons.length < wordSize)
    (cursor : Nat) (flow : String) : Outcome String :=
  if cursor < addons.length then
    match _h : readField mode addons cursor flow with
    | .ok (flow, next) => decodeFlowAddonFrom mode addons hlen next flow
    | .err e => .err e
    | .panic => .panic
  else .ok flow
termination_by addons.length - cursor
decreasing_by
  have := readField_advances hlen _h
  omega

-- A vector as long as the address space cannot be had; allocating it panics.
def decodeFlowAddon (mode : Overflow) (addons : Bytes) : Outcome String :=
  if hlen : addons.length < wordSize then decodeFlowAddonFrom mode addons hlen 0 ""
  else .panic

/-- Decoding the block comes to a field whose length leaves the word. -/
def LengthOverflow (addons : Bytes) : Prop :=
  ∃ field, Relation.ReflTransGen FieldPassed addons field ∧ OverflowsAt addons.length field

theorem not_fieldPassed_nil {rest : Bytes} : ¬ FieldPassed [] rest := by
  rintro (⟨h, -, -⟩ | ⟨h, -, -, -, -⟩) <;> cases h

theorem not_overflow_nil {n : Nat} :
    ¬∃ field, Relation.ReflTransGen FieldPassed [] field ∧ OverflowsAt n field := by
  rintro ⟨field, hreach, hover⟩
  rcases Relation.ReflTransGen.cases_head hreach with rfl | ⟨rest, hfirst, -⟩
  · obtain ⟨_, _, _, _, h, -⟩ := hover
    cases h
  · exact not_fieldPassed_nil hfirst

theorem decodeFlowAddonFrom_panic {mode : Overflow} {addons : Bytes}
    (hlen : addons.length < wordSize) (cursor : Nat) (flow : String) :
    decodeFlowAddonFrom mode addons hlen cursor flow = .panic ↔
      ∃ field, Relation.ReflTransGen FieldPassed (addons.drop cursor) field ∧
        OverflowsAt addons.length field := by
  fun_induction decodeFlowAddonFrom mode addons hlen cursor flow with
  | case1 cursor flow hlt flow' next hok ih =>
    obtain ⟨hpassed, -, -⟩ := readField_advances hlen hok
    rw [ih]
    constructor
    · rintro ⟨field, hreach, hover⟩
      exact ⟨field, .head hpassed hreach, hover⟩
    · rintro ⟨field, hreach, hover⟩
      rcases Relation.ReflTransGen.cases_head hreach with rfl | ⟨rest, hfirst, hreach⟩
      · rw [hover.readField hlen flow] at hok
        cases hok
      · obtain ⟨_, _, hok', rfl⟩ := hfirst.readField hlen flow
        rw [hok] at hok'
        cases hok'
        exact ⟨field, hreach, hover⟩
  | case2 cursor flow hlt e he =>
    simp only [reduceCtorEq, false_iff]
    rintro ⟨field, hreach, hover⟩
    rcases Relation.ReflTransGen.cases_head hreach with rfl | ⟨rest, hfirst, -⟩
    · rw [hover.readField hlen flow] at he
      cases he
    · obtain ⟨_, _, hok, -⟩ := hfirst.readField hlen flow
      rw [hok] at he
      cases he
  | case3 cursor flow hlt hpanic =>
    simp only [true_iff]
    rcases readField_cases mode hlen cursor flow with hover | ⟨_, _, hok, -⟩ | ⟨e, he⟩
    · exact ⟨_, .refl, hover⟩
    · rw [hpanic] at hok
      cases hok
    · rw [hpanic] at he
      cases he
  | case4 cursor flow hge =>
    have hnil : addons.drop cursor = [] := List.drop_eq_nil_of_le (by omega)
    simp only [reduceCtorEq, false_iff, hnil]
    exact not_overflow_nil

/-! ### The request -/

def version : UInt8 := 0x00
def cmdMux : UInt8 := 0x03

structure VlessRequest where
  user : Bytes
  command : UInt8
  target : ProxyTarget
  flow : String
  deriving DecidableEq, Repr

/-- `mux_target` (`src/vless_xudp.rs`). -/
def muxTarget : ProxyTarget := .domain "v1.mux.cool" 666

def readU8 : Reader UInt8 := do
  match ← readExact 1 "read byte" with
  | byte :: _ => return byte
  | [] => (.panic : Outcome UInt8)

def readPort : Reader UInt16 := do
  match ← readExact 2 "read port" with
  | hi :: lo :: _ => return wordOf [hi, lo]
  | _ => (.panic : Outcome UInt16)

def readIp (length : Nat) (message : String) (port : UInt16) : Reader ProxyTarget := do
  match IpAddr.ofOctets (← readExact length message) with
  | some ip => return .ip ⟨ip, port⟩
  | none => (.panic : Outcome ProxyTarget)

def readVlessAddress : Reader ProxyTarget := do
  let port ← readPort
  let kind ← readU8
  if kind = 0x01 then readIp 4 "read VLESS IPv4 address" port
  else if kind = 0x03 then readIp 16 "read VLESS IPv6 address" port
  else if kind = 0x02 then
    let length ← readU8
    let host ← readExact length.toNat "read VLESS domain"
    let host ← Outcome.need (fromUtf8 host) "decode VLESS domain"
    return .domain host port
  else (.err ("unsupported VLESS address type " ++ hexText kind.toNat) : Outcome ProxyTarget)

-- The two conditional parts of `read_vless_request`.
def readFlow (mode : Overflow) (addonsLen : UInt8) : Reader String :=
  if 0 < addonsLen.toNat then do
    let addons ← readExact addonsLen.toNat "read VLESS addons"
    decodeFlowAddon mode addons
  else pure ""

def readTarget (command : UInt8) : Reader ProxyTarget :=
  if command = cmdMux then pure muxTarget else readVlessAddress

def readVlessRequest (mode : Overflow) : Reader VlessRequest := do
  let received ← readU8
  Outcome.ensure (received = version) ("unsupported VLESS version " ++ hexText received.toNat)
  let user ← readExact 16 "read VLESS user id"
  let addonsLen ← readU8
  let flow ← readFlow mode addonsLen
  let command ← readU8
  let target ← readTarget command
  return ⟨user, command, target, flow⟩

/-! ### Only the addons can panic -/

theorem readU8_nil : readU8 [] = .err "read byte" := rfl

theorem readU8_cons (b : UInt8) (rest : Bytes) : readU8 (b :: rest) = .ok (b, rest) := rfl

theorem readU8_ok {input rest : Bytes} {b : UInt8} :
    readU8 input = .ok (b, rest) ↔ input = b :: rest := by
  cases input with
  | nil => simp [readU8_nil]
  | cons x xs => simp [readU8_cons]

@[simp] theorem readU8_panic {input : Bytes} : readU8 input = .panic ↔ False := by
  cases input with
  | nil => simp [readU8_nil]
  | cons x xs => simp [readU8_cons]

@[simp] theorem readPort_panic {input : Bytes} : readPort input = .panic ↔ False := by
  match input with
  | [] | [_] | _ :: _ :: _ => exact ⟨nofun, nofun⟩

theorem readIp_panic {length : Nat} (h : length = 4 ∨ length = 16) {message : String}
    {port : UInt16} {input : Bytes} : readIp length message port input ≠ .panic := by
  intro hp
  obtain h' | ⟨octets, rest, hok, hp⟩ := Reader.bind_panic.mp hp
  · exact readExact_panic.mp h'
  · obtain ⟨hlen, -⟩ := readExact_ok.mp hok
    obtain ⟨ip, hip⟩ := @IpAddr.ofOctets_isSome octets (by omega)
    simp [hip] at hp

theorem readVlessAddress_panic {input : Bytes} : readVlessAddress input ≠ .panic := by
  simp only [readVlessAddress, ne_eq, Reader.bind_panic, readPort_panic, false_or, readU8_panic,
    not_exists, not_and]
  intro port rest _ kind rest' _ hp
  split at hp
  · exact readIp_panic (.inl rfl) hp
  split at hp
  · exact readIp_panic (.inr rfl) hp
  split at hp
  · simp [Reader.bind_panic, -bind_pure_comp] at hp
  · simp at hp

theorem decodeFlowAddon_panic {mode : Overflow} {addons : Bytes} (hlen : addons.length < wordSize) :
    decodeFlowAddon mode addons = .panic ↔ LengthOverflow addons := by
  rw [decodeFlowAddon, dif_pos hlen, decodeFlowAddonFrom_panic]
  rfl

/-- The header as far as its addons, which come to a length that leaves the word. -/
def RequestOverflow (input : Bytes) : Prop :=
  ∃ user addonsLen addons rest, input = version :: (user ++ addonsLen :: (addons ++ rest)) ∧
    user.length = 16 ∧ addons.length = addonsLen.toNat ∧ LengthOverflow addons

theorem readTarget_panic {command : UInt8} {input : Bytes} :
    readTarget command input = .panic ↔ False := by
  unfold readTarget
  split
  · exact ⟨nofun, nofun⟩
  · exact ⟨readVlessAddress_panic, nofun⟩

theorem readFlow_panic {mode : Overflow} {addonsLen : UInt8} {input : Bytes} :
    readFlow mode addonsLen input = .panic ↔ ∃ addons rest, input = addons ++ rest ∧
      addons.length = addonsLen.toNat ∧ LengthOverflow addons := by
  have hword : ∀ addons : Bytes, addons.length = addonsLen.toNat → addons.length < wordSize := by
    intro addons hlen
    have := addonsLen.toNat_lt
    rw [hlen, wordSize]
    omega
  unfold readFlow
  split
  · simp only [Reader.bind_panic, readExact_panic, false_or, Reader.lift_panic, readExact_ok]
    constructor
    · rintro ⟨addons, rest, ⟨hlen, rfl⟩, hp⟩
      exact ⟨addons, rest, rfl, hlen, (decodeFlowAddon_panic (hword addons hlen)).mp hp⟩
    · rintro ⟨addons, rest, rfl, hlen, hover⟩
      exact ⟨addons, rest, ⟨hlen, rfl⟩, (decodeFlowAddon_panic (hword addons hlen)).mpr hover⟩
  · rename_i hzero
    refine ⟨fun h => (by cases h), ?_⟩
    rintro ⟨addons, rest, rfl, hlen, hover⟩
    have hnil : addons = [] := List.length_eq_zero_iff.mp (by omega)
    exact absurd (hnil ▸ hover) not_overflow_nil

theorem readVlessRequest_panic {mode : Overflow} {input : Bytes} :
    readVlessRequest mode input = .panic ↔ RequestOverflow input := by
  simp only [readVlessRequest, Reader.bind_panic, readU8_panic, readExact_panic, Reader.lift_panic,
    Outcome.ensure_panic, readTarget_panic, Reader.pure_apply, reduceCtorEq, false_or, and_false,
    exists_false, or_false, readU8_ok, readExact_ok, Reader.lift_ok, Outcome.ensure_ok,
    decide_eq_true_eq, readFlow_panic]
  constructor
  · rintro ⟨_, _, rfl, _, _, ⟨rfl, rfl⟩, user, _, ⟨huser, rfl⟩, n, _, rfl, addons, rest, rfl, h⟩
    exact ⟨user, n, addons, rest, rfl, huser, h⟩
  · rintro ⟨user, n, addons, rest, rfl, huser, h⟩
    exact ⟨version, _, rfl, (), _, ⟨rfl, rfl⟩, user, _, ⟨huser, rfl⟩, n, _, rfl, addons, rest, rfl, h⟩

/-- Reading a request returns, in either build, unless its addons come to a
length that leaves the word. -/
theorem readVlessRequest_returns_iff (mode : Overflow) (input : Bytes) :
    ((∃ request rest, readVlessRequest mode input = .ok (request, rest)) ∨
      ∃ e, readVlessRequest mode input = .err e) ↔ ¬ RequestOverflow input := by
  rw [← @readVlessRequest_panic mode]
  cases h : readVlessRequest mode input with
  | ok p => exact ⟨nofun, fun _ => .inl ⟨p.1, p.2, rfl⟩⟩
  | err e => simp
  | panic => simp

def overflowingRequest : Bytes :=
  version :: (List.replicate 16 0 ++
    [11, 0x0a, 0xff, 0xff, 0xff, 0xff, 0xff, 0xff, 0xff, 0xff, 0xff, 0x01])

theorem overflowing_length_panics :
    readVlessRequest .checked overflowingRequest = .panic ∧
    readVlessRequest .wrapping overflowingRequest = .panic :=
  ⟨by decide +kernel, by decide +kernel⟩

end Aerion.Vless
