import Aerion.Mieru.Crypto

/-!
# Traffic patterns

`src/mieru/pattern.rs`: a pattern is a protobuf message, read field by field,
whose missing fields are drawn from its seed by a hash; it then rewrites the
beginning of nonces. The hash and the decoding of hexadecimal text are
parameters, and so are the random draws; a draw that is not there is one that
could not be made. A loop that ran out of its rounds would be a panic here.
-/

namespace Aerion.Mieru

open Lib Outcome

/-! ### Protobuf -/

/-- The rounds of `read_protobuf_varint` that are left; a shift of 64 bits would overflow. -/
def varintRounds : ℕ → ℕ → UInt64 → Reader UInt64
  | 0, _, _, _ => .err "Mieru protobuf varint is too long"
  | _ + 1, _, _, [] => .err "truncated Mieru protobuf varint"
  | k + 1, shift, value, byte :: rest =>
    if shift < 64 then
      let value := value ||| ((byte &&& 0x7f).toUInt64 <<< UInt64.ofNat shift)
      if byte &&& 0x80 = 0 then .ok (value, rest) else varintRounds k (shift + 7) value rest
    else .panic

def readProtobufVarint : Reader UInt64 := varintRounds 10 0 0

def readProtobufLen : Reader Bytes := do
  let len ← readProtobufVarint
  readExact len.toNat "truncated Mieru protobuf length-delimited field"

def skipProtobufField (wire : UInt64) : Reader Unit :=
  if wire = 0 then (fun _ => ()) <$> readProtobufVarint
  else if wire = 1 then (fun _ => ()) <$> readExact 8 "truncated Mieru protobuf fixed64"
  else if wire = 2 then (fun _ => ()) <$> readProtobufLen
  else if wire = 5 then (fun _ => ()) <$> readExact 4 "truncated Mieru protobuf fixed32"
  else fun _ => .err ("unsupported Mieru protobuf wire type " ++ toString wire.toNat)

abbrev Fields (α : Type) := (field wire : ℕ) → α → Option (Reader α)

def readField {α : Type} (fields : Fields α) (key : UInt64) (a : α) : Reader α :=
  match fields (key >>> 3).toNat (key &&& 7).toNat a with
  | some read => read
  | none => (fun _ => a) <$> skipProtobufField (key &&& 7)

def decodeFields {α : Type} (fields : Fields α) : ℕ → α → Bytes → Outcome α
  | _, a, [] => .ok a
  | 0, _, _ :: _ => .panic
  | fuel + 1, a, byte :: input => do
    let key ← readProtobufVarint (byte :: input)
    let next ← readField fields key.1 a key.2
    decodeFields fields fuel next.1 next.2

def decodeMessage {α : Type} (fields : Fields α) (init : α) (input : Bytes) : Outcome α :=
  decodeFields fields input.length init input

/-! ### The messages -/

structure RawTcpFragment where
  enable : Option Bool := none
  maxSleepMs : Option UInt8 := none

structure RawNoncePattern where
  kind : Option MieruNonceType := none
  applyToAllUdpPacket : Option Bool := none
  minLen : Option ℕ := none
  maxLen : Option ℕ := none
  customPrefixes : List Bytes := []

structure RawTrafficPattern where
  seed : Option Int32 := none
  unlockAll : Option Bool := none
  tcpFragment : Option RawTcpFragment := none
  nonce : Option RawNoncePattern := none
  padding : Option MieruPaddingPattern := none

def MieruNonceType.fromU64 (value : UInt64) : Outcome MieruNonceType :=
  if value = 0 then .ok .random
  else if value = 1 then .ok .printable
  else if value = 2 then .ok .printableSubset
  else if value = 3 then .ok .fixed
  else .err ("unsupported Mieru nonce type " ++ toString value.toNat)

def varintField {α : Type} (set : UInt64 → Outcome α) : Option (Reader α) := some do
  let value ← readProtobufVarint
  set value

def lenField {α : Type} (set : Bytes → Outcome α) : Option (Reader α) := some do
  let bytes ← readProtobufLen
  set bytes

/-- `as u32 as i32`. -/
def toI32 (value : UInt64) : Int32 := value.toUInt32.toInt32

def paddingFields : Fields MieruPaddingPattern
  | 1, 0, p => varintField fun v => .ok { p with maxMiddlePaddingLen := some (toI32 v) }
  | 2, 0, p => varintField fun v => .ok { p with maxEndPaddingLen := some (toI32 v) }
  | _, _, _ => none

def lowEntropyFields : Fields Unit
  | 1, 0, _ => varintField fun mode => do
    ensure (mode ≤ 4) ("unsupported Mieru low-entropy mode " ++ toString mode.toNat)
    ensure (mode = 0) "Mieru low-entropy traffic pattern is not implemented by the upstream data path"
  | _, _, _ => none

def tcpFragmentFields : Fields RawTcpFragment
  | 1, 0, f => varintField fun v => .ok { f with enable := some (v ≠ 0) }
  | 2, 0, f => varintField fun v => do
    ensure (v ≤ 100) "Mieru TCP fragment maxSleepMs exceeds 100"
    return { f with maxSleepMs := some v.toUInt8 }
  | _, _, _ => none

section

-- `hex::decode` of the trimmed text of some bytes, nothing where they are no such text.
variable (hexText : Bytes → Option Bytes)

def nonceFields : Fields RawNoncePattern
  | 1, 0, p => varintField fun v => do return { p with kind := some (← MieruNonceType.fromU64 v) }
  | 2, 0, p => varintField fun v => .ok { p with applyToAllUdpPacket := some (v ≠ 0) }
  | 3, 0, p => varintField fun v => do
    ensure (v ≤ 12) "Mieru nonce minLen exceeds 12"
    return { p with minLen := some v.toNat }
  | 4, 0, p => varintField fun v => do
    ensure (v ≤ 12) "Mieru nonce maxLen exceeds 12"
    return { p with maxLen := some v.toNat }
  | 5, 2, p => lenField fun bytes => do
    let fixed ← need (hexText bytes) "decode Mieru fixed nonce hex prefix"
    ensure (fixed.length ≤ 12) "Mieru fixed nonce custom prefix exceeds 12 bytes"
    return { p with customPrefixes := p.customPrefixes ++ [fixed] }
  | _, _, _ => none

def decodeNoncePatternBytes (input : Bytes) : Outcome RawNoncePattern := do
  let pattern ← decodeMessage (nonceFields hexText) {} input
  match pattern.minLen, pattern.maxLen with
  | some minLen, some maxLen => ensure (minLen ≤ maxLen) "Mieru nonce minLen is greater than maxLen"
  | _, _ => pure ()
  return pattern

def trafficFields : Fields RawTrafficPattern
  | 1, 0, p => varintField fun v => .ok { p with seed := some (toI32 v) }
  | 2, 0, p => varintField fun v => .ok { p with unlockAll := some (v ≠ 0) }
  | 3, 2, p => lenField fun bytes => do
    return { p with tcpFragment := some (← decodeMessage tcpFragmentFields {} bytes) }
  | 4, 2, p => lenField fun bytes => do
    return { p with nonce := some (← decodeNoncePatternBytes hexText bytes) }
  | 5, 2, p => lenField fun bytes => do
    return { p with padding := some (← decodeMessage paddingFields ⟨none, none⟩ bytes) }
  | 6, 2, p => lenField fun bytes => do
    decodeMessage lowEntropyFields () bytes
    return p
  | _, _, _ => none

/-- `decode_traffic_pattern` behind its base64. -/
def decodeTrafficPattern (input : Bytes) : Outcome RawTrafficPattern :=
  decodeMessage (trafficFields hexText) {} input

end

/-! ### Effective patterns -/

section

variable (sha256 : Bytes → Bytes)

def fixedInt (n : ℕ) (seed : Int32) (hint : String) : ℕ :=
  if n = 0 then 0
  else match (sha256 (toString seed.toInt ++ ":" ++ hint).toUTF8.toList).take 4 with
    | [] => 0
    | b :: rest => ofBe ((b &&& 0x7f) :: rest) % n

/-- `max_len`, whose `13 - min_len` is a subtraction of `usize`. -/
def RawNoncePattern.effectiveMaxLen (raw : RawNoncePattern) (seed : Int32) (minLen : ℕ) : Outcome ℕ :=
  match raw.maxLen with
  | some maxLen => .ok maxLen
  | none => if minLen ≤ 13 then .ok (minLen + fixedInt sha256 (13 - minLen) seed "nonce.maxLen") else .panic

def RawNoncePattern.intoEffective (raw : RawNoncePattern) (seed : Int32) (unlockAll : Bool) :
    Outcome MieruNoncePattern := do
  let kind := raw.kind.getD (if unlockAll then
      match fixedInt sha256 3 seed "nonce.type" with
      | 0 => .random
      | 1 => .printable
      | _ => .printableSubset
    else match fixedInt sha256 2 seed "nonce.type" with
      | 0 => .printable
      | _ => .printableSubset)
  let applyToAllUdpPacket := raw.applyToAllUdpPacket.getD
    (fixedInt sha256 2 seed "nonce.applyToAllUDPPacket" = 1)
  let minLen := raw.minLen.getD (if unlockAll then fixedInt sha256 13 seed "nonce.minLen"
    else fixedInt sha256 7 seed "nonce.minLen" + 6)
  ensure (minLen ≤ 12) "Mieru nonce minLen exceeds 12"
  let maxLen ← raw.effectiveMaxLen sha256 seed minLen
  ensure (maxLen ≤ 12) "Mieru nonce maxLen exceeds 12"
  ensure (minLen ≤ maxLen) "Mieru nonce minLen is greater than maxLen"
  ensure (raw.customPrefixes.all (·.length ≤ 12)) "Mieru fixed nonce custom prefix exceeds 12 bytes"
  return ⟨kind, applyToAllUdpPacket, minLen, maxLen, raw.customPrefixes⟩

/-- `max_sleep_ms`, whose `as u8 + 1` is an addition of `u8`. -/
def RawTcpFragment.effectiveMaxSleepMs (raw : RawTcpFragment) (seed : Int32) (unlockAll : Bool) :
    Outcome UInt8 :=
  match raw.maxSleepMs with
  | some maxSleepMs => .ok maxSleepMs
  | none =>
    let drawn := fixedInt sha256 100 seed "tcpFragment.maxSleepMs" % 256
    if !unlockAll then .ok 0 else if drawn + 1 < 256 then .ok (UInt8.ofNat (drawn + 1)) else .panic

def RawTrafficPattern.effectiveTcpFragment (p : RawTrafficPattern) (seed : Int32) (unlockAll : Bool) :
    Outcome MieruTcpFragment := do
  let raw := p.tcpFragment.getD {}
  let enable := raw.enable.getD (unlockAll && fixedInt sha256 2 seed "tcpFragment.enable" = 1)
  let maxSleepMs ← raw.effectiveMaxSleepMs sha256 seed unlockAll
  ensure (maxSleepMs ≤ 100) "Mieru TCP fragment maxSleepMs exceeds 100"
  return ⟨enable, maxSleepMs⟩

/-- `into_effective`; `drawn` is the seed that is drawn for a pattern without one. -/
def RawTrafficPattern.intoEffective (p : RawTrafficPattern) (drawn : Option Int32) :
    Outcome MieruTrafficPattern := do
  let seed ← need (p.seed <|> drawn) "generate Mieru traffic-pattern seed"
  let unlockAll := p.unlockAll.getD false
  let tcpFragment ← p.effectiveTcpFragment sha256 seed unlockAll
  let nonce ← (p.nonce.getD {}).intoEffective sha256 seed unlockAll
  return ⟨some tcpFragment, some nonce, p.padding⟩

end

/-! ### Nonces -/

def common64Set : Bytes :=
  ("!@#$%^&*()" ++ "ABCDEFGHIJKLMNOPQRSTUVWXYZ" ++ "abcdefghijklmnopqrstuvwxyz" ++ "<>").toList.map
    fun c => UInt8.ofNat c.toNat

abbrev Drawing (α : Type) := StateT (List UInt64) Outcome α

def randomUsizeBelow (n : ℕ) : Drawing ℕ := fun draws =>
  if 0 < n then
    match draws with
    | [] => .err "generate Mieru traffic-pattern randomness"
    | draw :: draws => .ok (draw.toNat % n, draws)
  else .err "Mieru random upper bound must be positive"

def nonceRewriteLen (p : MieruNoncePattern) : Drawing ℕ :=
  let minLen := min p.minLen nonceLen
  let maxLen := min p.maxLen nonceLen
  if maxLen ≤ minLen then pure minLen
  else do
    let drawn ← randomUsizeBelow (maxLen - minLen + 1)
    return minLen + drawn

def printableByte (byte : UInt8) : Drawing UInt8 :=
  if byte < 0x20 ∨ 0x7e < byte then
    let lowBits := byte &&& 0x7f
    if 0x20 ≤ lowBits ∧ lowBits ≤ 0x7e then pure lowBits
    else do
      let drawn ← randomUsizeBelow (0x7f - 0x20)
      if 0x20 + drawn < 256 then pure (UInt8.ofNat (0x20 + drawn)) else fun _ => .panic
  else pure byte

def subsetByte (byte : UInt8) : Drawing UInt8 := fun draws =>
  match common64Set[(byte &&& 0x3f).toNat]? with
  | some b => .ok (b, draws)
  | none => .panic

def rewriteBytes (rewrite : UInt8 → Drawing UInt8) : Bytes → Drawing Bytes
  | [] => pure []
  | byte :: bytes => do
    let byte ← rewrite byte
    let bytes ← rewriteBytes rewrite bytes
    return byte :: bytes

/-- The loop over `nonce[..len]`. -/
def rewriteStart (rewrite : UInt8 → Drawing UInt8) (len : ℕ) (nonce : Bytes) : Drawing Bytes :=
  if len ≤ nonce.length then do
    let bytes ← rewriteBytes rewrite (nonce.take len)
    return bytes ++ nonce.drop len
  else fun _ => .panic

/-- `nonce[..fixed.len()].copy_from_slice(fixed)`, for the prefix at an index. -/
def copyFixed (prefixes : List Bytes) (i : ℕ) (nonce : Bytes) : Drawing Bytes :=
  match prefixes[i]? with
  | some fixed =>
    if fixed.length ≤ nonce.length then pure (fixed ++ nonce.drop fixed.length) else fun _ => .panic
  | none => fun _ => .panic

def applyNoncePattern (nonce : Bytes) (p : MieruNoncePattern) : Drawing Bytes :=
  match p.kind with
  | .random => pure nonce
  | .printable => do
    let len ← nonceRewriteLen p
    rewriteStart printableByte len nonce
  | .printableSubset => do
    let len ← nonceRewriteLen p
    rewriteStart subsetByte len nonce
  | .fixed =>
    if p.customPrefixes = [] then pure nonce
    else do
      let i ← randomUsizeBelow p.customPrefixes.length
      copyFixed p.customPrefixes i nonce

/-! ### Decoding ends -/

/-- A reader that does not panic and leaves no more than it was given. -/
def Shrinks {α : Type} (m : Reader α) : Prop := ∀ input, (m input).Meets (·.2.length ≤ input.length)

section

variable {α β : Type}

theorem Shrinks.bind {m : Reader α} {f : α → Reader β} (hm : Shrinks m) (hf : ∀ a, Shrinks (f a)) :
    Shrinks (m >>= f) :=
  fun input => (hm input).bind fun r hr => (hf r.1 r.2).mono fun _ hle => Nat.le_trans hle hr

theorem Shrinks.lift {x : Outcome α} (hx : x ≠ .panic) : Shrinks (liftM x : Reader α) := by
  refine fun input => ⟨fun h => hx (Reader.lift_panic.mp h), fun r h => ?_⟩
  rw [(Reader.lift_ok.mp h).2]

theorem shrinks_readExact (n : ℕ) (message : String) : Shrinks (readExact n message) := by
  refine fun input => ⟨fun h => readExact_panic.mp h, fun r h => ?_⟩
  rw [(readExact_ok.mp h).2, List.length_append]
  exact Nat.le_add_left _ _

theorem varintRounds_meets {k shift : ℕ} {value : UInt64} {input : Bytes} (h : shift + 7 * k ≤ 70) :
    (varintRounds k shift value input).Meets (·.2.length < input.length) := by
  induction k generalizing shift value input with
  | zero => exact .err _
  | succ k ih =>
    cases input with
    | nil => exact .err _
    | cons byte rest =>
      rw [varintRounds, if_pos (by omega)]
      dsimp only
      split
      · exact .ok (Nat.lt_succ_self _)
      · exact (ih (by omega)).mono fun _ hlt => Nat.lt_succ_of_lt hlt

theorem readProtobufVarint_meets (input : Bytes) :
    (readProtobufVarint input).Meets (·.2.length < input.length) := varintRounds_meets (by decide)

theorem shrinks_varint : Shrinks readProtobufVarint :=
  fun input => (readProtobufVarint_meets input).mono fun _ => Nat.le_of_lt

theorem shrinks_len : Shrinks readProtobufLen := shrinks_varint.bind fun _ => shrinks_readExact _ _

theorem Shrinks.map {m : Reader α} (hm : Shrinks m) (f : α → β) : Shrinks (f <$> m) := by
  intro input
  change (m input >>= fun r => .ok (f r.1, r.2)).Meets _
  exact (hm input).bind fun r hr => .ok hr

theorem shrinks_skip (wire : UInt64) : Shrinks (skipProtobufField wire) := by
  unfold skipProtobufField
  split
  · exact shrinks_varint.map _
  split
  · exact (shrinks_readExact _ _).map _
  split
  · exact shrinks_len.map _
  split
  · exact (shrinks_readExact _ _).map _
  · exact fun _ => .err _

/-- Every field that is known is read by a reader that shrinks its input. -/
def Fields.Shrink (fields : Fields α) : Prop := ∀ field wire a, ∀ m ∈ fields field wire a, Shrinks m

theorem shrink_varint {set : UInt64 → Outcome α} (h : ∀ v, set v ≠ .panic) :
    ∀ m ∈ varintField set, Shrinks m := by
  rintro m ⟨⟩
  exact shrinks_varint.bind fun v => Shrinks.lift (h v)

theorem shrink_len {set : Bytes → Outcome α} (h : ∀ bytes, set bytes ≠ .panic) :
    ∀ m ∈ lenField set, Shrinks m := by
  rintro m ⟨⟩
  exact shrinks_len.bind fun bytes => Shrinks.lift (h bytes)

theorem Fields.Shrink.readField {fields : Fields α} (h : fields.Shrink) (key : UInt64) (a : α) :
    Shrinks (readField fields key a) := by
  unfold Mieru.readField
  split
  · exact h _ _ _ _ ‹_›
  · exact (shrinks_skip _).map _

theorem decodeFields_ne_panic {fields : Fields α} (h : fields.Shrink) {fuel : ℕ} {a : α} {input : Bytes}
    (hfuel : input.length ≤ fuel) : decodeFields fields fuel a input ≠ .panic := by
  induction fuel generalizing a input with
  | zero =>
    obtain rfl := List.length_eq_zero_iff.mp (Nat.le_zero.mp hfuel)
    nofun
  | succ fuel ih =>
    cases input with
    | nil => nofun
    | cons byte input =>
      refine (readProtobufVarint_meets _).bind_ne_panic fun key hkey => ?_
      refine (h.readField key.1 a key.2).bind_ne_panic fun r hr => ih ?_
      exact Nat.le_of_lt_succ (Nat.lt_of_le_of_lt hr (Nat.lt_of_lt_of_le hkey hfuel))

theorem decodeMessage_ne_panic {fields : Fields α} (h : fields.Shrink) (init : α) (input : Bytes) :
    decodeMessage fields init input ≠ .panic := decodeFields_ne_panic h (Nat.le_refl _)

end

theorem fromU64_ne_panic (v : UInt64) : MieruNonceType.fromU64 v ≠ .panic := by
  unfold MieruNonceType.fromU64
  repeat' split
  all_goals nofun

theorem decodeNoncePatternBytes_ne_panic (hexText : Bytes → Option Bytes) (input : Bytes) :
    decodeNoncePatternBytes hexText input ≠ .panic := by
  have hfields : Fields.Shrink (nonceFields hexText) := by
    intro field wire p
    unfold nonceFields
    split
    · exact shrink_varint fun v => bind_ne_panic (fromU64_ne_panic v) nofun
    · exact shrink_varint nofun
    · exact shrink_varint fun v => ensure_bind_ne_panic nofun
    · exact shrink_varint fun v => ensure_bind_ne_panic nofun
    · exact shrink_len fun bytes => bind_ne_panic (need_ne_panic _ _) fun _ _ => ensure_bind_ne_panic nofun
    · nofun
  refine bind_ne_panic (decodeMessage_ne_panic hfields _ _) fun pattern _ => ?_
  split
  · exact ensure_bind_ne_panic nofun
  · nofun

theorem decodeTrafficPattern_ne_panic (hexText : Bytes → Option Bytes) (input : Bytes) :
    decodeTrafficPattern hexText input ≠ .panic := by
  have htcp : Fields.Shrink tcpFragmentFields := by
    intro field wire f
    unfold tcpFragmentFields
    split
    · exact shrink_varint nofun
    · exact shrink_varint fun v => ensure_bind_ne_panic nofun
    · nofun
  have hpadding : Fields.Shrink paddingFields := by
    intro field wire p
    unfold paddingFields
    split
    · exact shrink_varint nofun
    · exact shrink_varint nofun
    · nofun
  have hentropy : Fields.Shrink lowEntropyFields := by
    intro field wire p
    unfold lowEntropyFields
    split
    · exact shrink_varint fun v => ensure_bind_ne_panic fun _ => ensure_ne_panic _ _
    · nofun
  refine decodeMessage_ne_panic (fun field wire p => ?_) _ _
  unfold trafficFields
  split
  · exact shrink_varint nofun
  · exact shrink_varint nofun
  · exact shrink_len fun bytes => bind_ne_panic (decodeMessage_ne_panic htcp _ _) nofun
  · exact shrink_len fun bytes => bind_ne_panic (decodeNoncePatternBytes_ne_panic _ _) nofun
  · exact shrink_len fun bytes => bind_ne_panic (decodeMessage_ne_panic hpadding _ _) nofun
  · exact shrink_len fun bytes => bind_ne_panic (decodeMessage_ne_panic hentropy _ _) nofun
  · nofun

/-! ### Effective patterns are in bounds -/

structure MieruNoncePattern.Bounded (p : MieruNoncePattern) : Prop where
  ordered : p.minLen ≤ p.maxLen
  short : p.maxLen ≤ 12
  fixed : ∀ fixed ∈ p.customPrefixes, fixed.length ≤ 12

section

variable {sha256 : Bytes → Bytes}

theorem fixedInt_lt {n : ℕ} (hn : 0 < n) (seed : Int32) (hint : String) :
    fixedInt sha256 n seed hint < n := by
  rw [fixedInt, if_neg (by omega)]
  split
  · exact hn
  · exact Nat.mod_lt _ hn

theorem RawNoncePattern.intoEffective_meets (raw : RawNoncePattern) (seed : Int32) (unlockAll : Bool) :
    (raw.intoEffective sha256 seed unlockAll).Meets MieruNoncePattern.Bounded := by
  unfold RawNoncePattern.intoEffective
  dsimp only
  generalize raw.minLen.getD _ = minLen
  refine Meets.ensure fun hmin => ?_
  have hmin := of_decide_eq_true hmin
  have hdrawn : raw.effectiveMaxLen sha256 seed minLen ≠ .panic := by
    unfold RawNoncePattern.effectiveMaxLen
    split
    · nofun
    · rw [if_pos (by omega)]
      nofun
  refine Meets.bind ⟨hdrawn, fun _ _ => trivial⟩ fun maxLen _ => ?_
  refine Meets.ensure fun hmax => Meets.ensure fun hordered => Meets.ensure fun hfixed => .ok ⟨?_, ?_, ?_⟩
  · exact of_decide_eq_true hordered
  · exact of_decide_eq_true hmax
  · exact fun fixed hmem => of_decide_eq_true (List.all_eq_true.mp hfixed fixed hmem)

theorem effectiveTcpFragment_ne_panic (p : RawTrafficPattern) (seed : Int32) (unlockAll : Bool) :
    p.effectiveTcpFragment sha256 seed unlockAll ≠ .panic := by
  have hdrawn := @fixedInt_lt sha256 100 (by decide) seed "tcpFragment.maxSleepMs"
  refine bind_ne_panic ?_ fun maxSleepMs _ => ensure_bind_ne_panic fun _ => nofun
  unfold RawTcpFragment.effectiveMaxSleepMs
  split
  · nofun
  dsimp only
  split
  · nofun
  · rw [if_pos (by omega)]
    nofun

theorem RawTrafficPattern.intoEffective_meets (p : RawTrafficPattern) (drawn : Option Int32) :
    (p.intoEffective sha256 drawn).Meets fun t => ∃ nonce, t.nonce = some nonce ∧ nonce.Bounded := by
  refine Meets.need.bind fun seed _ => ?_
  refine Meets.bind ⟨effectiveTcpFragment_ne_panic p _ _, fun _ _ => trivial⟩ fun _ _ => ?_
  exact (RawNoncePattern.intoEffective_meets _ _ _).bind fun nonce h => .ok ⟨nonce, rfl, h⟩

end

/-! ### Nonces are rewritten at their beginning -/

/-- Drawing code that does not panic and whose result has the property. -/
def Draws {α : Type} (m : Drawing α) (P : α → Prop) : Prop := ∀ draws, (m draws).Meets fun r => P r.1

section

variable {α β : Type} {P : α → Prop} {Q : β → Prop}

theorem Draws.pure {a : α} (h : P a) : Draws (pure a) P := fun _ => .ok h

theorem Draws.bind {m : Drawing α} {f : α → Drawing β} (hm : Draws m P) (hf : ∀ a, P a → Draws (f a) Q) :
    Draws (m >>= f) Q :=
  fun draws => (hm draws).bind fun r hr => hf r.1 hr r.2

end

theorem randomUsizeBelow_draws (n : ℕ) : Draws (randomUsizeBelow n) (· < n) := by
  intro draws
  unfold randomUsizeBelow
  split
  · cases draws with
    | nil => exact .err _
    | cons draw draws => exact .ok (Nat.mod_lt _ ‹_›)
  · exact .err _

theorem nonceRewriteLen_draws {p : MieruNoncePattern} (h : p.Bounded) :
    Draws (nonceRewriteLen p) fun len => p.minLen ≤ len ∧ len ≤ p.maxLen := by
  have hordered := h.ordered
  have hshort := h.short
  have hmin : min p.minLen nonceLen = p.minLen := Nat.min_eq_left (by unfold nonceLen; omega)
  have hmax : min p.maxLen nonceLen = p.maxLen := Nat.min_eq_left (by unfold nonceLen; omega)
  unfold nonceRewriteLen
  dsimp only
  rw [hmin, hmax]
  split
  · exact .pure ⟨Nat.le_refl _, hordered⟩
  · exact (randomUsizeBelow_draws _).bind fun drawn hdrawn => .pure ⟨Nat.le_add_right _ _, by omega⟩

theorem printableByte_draws (byte : UInt8) : Draws (printableByte byte) fun b => 0x20 ≤ b ∧ b ≤ 0x7e := by
  unfold printableByte
  split
  · dsimp only
    split
    · exact .pure ‹_›
    · refine (randomUsizeBelow_draws _).bind fun drawn hdrawn => ?_
      have hbyte : (UInt8.ofNat (0x20 + drawn)).toNat = 0x20 + drawn :=
        UInt8.toNat_ofNat_of_lt' (by unfold UInt8.size; omega)
      rw [if_pos (by omega)]
      refine .pure ⟨?_, ?_⟩
      · exact UInt8.le_iff_toNat_le.mpr (by rw [hbyte]; exact Nat.le_add_right _ _)
      · exact UInt8.le_iff_toNat_le.mpr (by rw [hbyte, show (0x7e : UInt8).toNat = 126 from rfl]; omega)
  · rename_i hprintable
    rw [not_or, UInt8.not_lt, UInt8.not_lt] at hprintable
    exact .pure hprintable

theorem subsetByte_draws (byte : UInt8) : Draws (subsetByte byte) (· ∈ common64Set) := by
  have hindex : (byte &&& 0x3f).toNat < common64Set.length := by
    rw [UInt8.toNat_and, show common64Set.length = 64 by decide]
    exact Nat.lt_succ_of_le Nat.and_le_right
  intro draws
  rw [subsetByte, List.getElem?_eq_getElem hindex]
  exact .ok (List.getElem_mem hindex)

theorem rewriteBytes_draws {rewrite : UInt8 → Drawing UInt8} {P : UInt8 → Prop}
    (h : ∀ b, Draws (rewrite b) P) (bytes : Bytes) :
    Draws (rewriteBytes rewrite bytes) fun out => out.length = bytes.length ∧ ∀ b ∈ out, P b := by
  induction bytes with
  | nil => exact .pure ⟨rfl, fun _ hb => (by cases hb)⟩
  | cons b bytes ih =>
    refine (h b).bind fun b' hb' => ih.bind fun out hout => .pure ⟨?_, List.forall_mem_cons.mpr ⟨hb', hout.2⟩⟩
    rw [List.length_cons, hout.1, List.length_cons]

/-- What a pattern puts in the place of the first bytes of a nonce. -/
def MieruNoncePattern.Puts (p : MieruNoncePattern) (start : Bytes) : Prop :=
  match p.kind with
  | .random => start = []
  | .printable => (p.minLen ≤ start.length ∧ start.length ≤ p.maxLen) ∧ ∀ b ∈ start, 0x20 ≤ b ∧ b ≤ 0x7e
  | .printableSubset => (p.minLen ≤ start.length ∧ start.length ≤ p.maxLen) ∧ ∀ b ∈ start, b ∈ common64Set
  | .fixed => if p.customPrefixes = [] then start = [] else start ∈ p.customPrefixes

theorem rewriteStart_draws {rewrite : UInt8 → Drawing UInt8} {P : UInt8 → Prop}
    (h : ∀ b, Draws (rewrite b) P) {len : ℕ} {nonce : Bytes} (hlen : len ≤ nonce.length) :
    Draws (rewriteStart rewrite len nonce) fun out =>
      ∃ start, start.length = len ∧ out = start ++ nonce.drop start.length ∧ ∀ b ∈ start, P b := by
  unfold rewriteStart
  rw [if_pos hlen]
  refine (rewriteBytes_draws h _).bind fun out hout => .pure ⟨out, ?_⟩
  rw [List.length_take_of_le hlen] at hout
  exact ⟨hout.1, by rw [hout.1], hout.2⟩

theorem applyNoncePattern_draws {p : MieruNoncePattern} (h : p.Bounded) {nonce : Bytes}
    (hnonce : nonce.length = nonceLen) :
    Draws (applyNoncePattern nonce p) fun out =>
      ∃ start, start.length ≤ 12 ∧ out = start ++ nonce.drop start.length ∧ p.Puts start := by
  have hshort := h.short
  -- the two printable kinds differ in the bytes they write only
  have hrewrite {rewrite : UInt8 → Drawing UInt8} {P : UInt8 → Prop} (hr : ∀ b, Draws (rewrite b) P) :
      Draws (nonceRewriteLen p >>= fun len => rewriteStart rewrite len nonce) fun out =>
        ∃ start, start.length ≤ 12 ∧ out = start ++ nonce.drop start.length ∧
          (p.minLen ≤ start.length ∧ start.length ≤ p.maxLen) ∧ ∀ b ∈ start, P b := by
    refine (nonceRewriteLen_draws h).bind fun len hlen draws => ?_
    have hfits : len ≤ nonce.length := by rw [hnonce]; unfold nonceLen; omega
    refine (rewriteStart_draws hr hfits draws).mono ?_
    rintro _ ⟨start, rfl, hout, hstart⟩
    exact ⟨start, by omega, hout, hlen, hstart⟩
  unfold applyNoncePattern MieruNoncePattern.Puts
  split
  · exact .pure ⟨[], by decide, rfl, rfl⟩
  · exact hrewrite printableByte_draws
  · exact hrewrite subsetByte_draws
  · split
    · exact .pure ⟨[], by decide, rfl, rfl⟩
    · refine (randomUsizeBelow_draws _).bind fun i hi => ?_
      have hmem : p.customPrefixes[i] ∈ p.customPrefixes := List.getElem_mem hi
      have hfixed := h.fixed _ hmem
      have hfits : p.customPrefixes[i].length ≤ nonce.length := by rw [hnonce]; unfold nonceLen; omega
      rw [copyFixed, List.getElem?_eq_getElem hi]
      dsimp only
      rw [if_pos hfits]
      exact .pure ⟨_, hfixed, rfl, hmem⟩

/-- Every message is decoded or refused, and every pattern that becomes effective, from given fields and
from drawn ones, is in bounds; with a pattern in bounds no nonce makes the rewriting panic, and what it
puts at the beginning is as long as the pattern says and of the bytes its kind asks for, at most 12 of
them, so the last four, which hint at the user, stay. -/
theorem traffic_patterns_safe (hexText : Bytes → Option Bytes) (sha256 : Bytes → Bytes) :
    (∀ input, decodeTrafficPattern hexText input ≠ .panic ∧ decodeNoncePatternBytes hexText input ≠ .panic) ∧
      (∀ (p : RawTrafficPattern) drawn, p.intoEffective sha256 drawn ≠ .panic ∧
        ∀ t, p.intoEffective sha256 drawn = .ok t → ∃ nonce, t.nonce = some nonce ∧ nonce.Bounded) ∧
      (∀ (raw : RawNoncePattern) seed unlockAll, raw.intoEffective sha256 seed unlockAll ≠ .panic ∧
        ∀ p, raw.intoEffective sha256 seed unlockAll = .ok p → p.Bounded) ∧
      ∀ (p : MieruNoncePattern) (nonce : Bytes) (draws : List UInt64), p.Bounded → nonce.length = nonceLen →
        applyNoncePattern nonce p draws ≠ .panic ∧
        ∀ out rest, applyNoncePattern nonce p draws = .ok (out, rest) →
          out.drop 20 = nonce.drop 20 ∧
          ∃ start, start.length ≤ 12 ∧ out = start ++ nonce.drop start.length ∧ p.Puts start := by
  refine ⟨fun input => ⟨decodeTrafficPattern_ne_panic _ _, decodeNoncePatternBytes_ne_panic _ _⟩,
    fun p drawn => p.intoEffective_meets drawn, fun raw seed unlockAll => raw.intoEffective_meets seed unlockAll,
    fun p nonce draws h hnonce => ?_⟩
  have hdraws := applyNoncePattern_draws h hnonce draws
  refine ⟨hdraws.1, fun out rest hout => ?_⟩
  obtain ⟨start, hstart, rfl, hputs⟩ := hdraws.2 _ hout
  refine ⟨?_, start, hstart, rfl, hputs⟩
  rw [List.drop_append, List.drop_drop, List.drop_of_length_le (by omega), List.nil_append,
    show start.length + (20 - start.length) = 20 by omega]

end Aerion.Mieru
