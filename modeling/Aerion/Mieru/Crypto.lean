import Aerion.Lib.FinMap
import Aerion.Lib.Words
import Aerion.Net.Text

/-!
# Mieru keys and ciphers

`src/mieru/crypto.rs`. The hash, the MAC and the AEAD are parameters; the
rest of the module is the code's own: PBKDF2 over the MAC, the keys of the
three time slots around the clock, the cache that holds them, and the cipher
with its implicit or explicit nonce. A clock reading is the number of seconds
since the epoch, or nothing when the clock stands before it.
-/

namespace Aerion.Mieru

open Lib Aerion.Net

structure Crypto where
  sha256 : Bytes → Bytes
  hmacSha256 : (key message : Bytes) → Bytes
  /-- XChaCha20-Poly1305 without associated data, on the ciphertext and its tag. -/
  aeadOpen : (key nonce ciphertext tag : Bytes) → Option Bytes

def nonceLen : ℕ := 24
def aeadOverhead : ℕ := 16
def keyLen : ℕ := 32
def keyIter : ℕ := 64
def keyRefreshSecs : ℕ := 120
def pbkdf2CacheMax : ℕ := 4096

/-- `SystemTime::now().duration_since(UNIX_EPOCH)?`. -/
def sinceEpoch (clock : Option ℕ) : Outcome ℕ :=
  .need clock "second time provided was later than self"

/-! ### Users and traffic patterns -/

structure MieruUserSecret where
  username : String
  password : String
  hashedPassword : Bytes
  deriving DecidableEq, Repr

def MieruUserSecret.coreCredential (user : MieruUserSecret) : String :=
  if user.password = "" then hexEncode user.hashedPassword else user.password

structure MieruTcpFragment where
  enable : Bool
  maxSleepMs : UInt8
  deriving DecidableEq, Repr

inductive MieruNonceType where
  | random
  | printable
  | printableSubset
  | fixed
  deriving DecidableEq, Repr

structure MieruNoncePattern where
  kind : MieruNonceType
  applyToAllUdpPacket : Bool
  minLen : ℕ
  maxLen : ℕ
  customPrefixes : List Bytes
  deriving DecidableEq, Repr

structure MieruPaddingPattern where
  maxMiddlePaddingLen : Option Int32
  maxEndPaddingLen : Option Int32
  deriving DecidableEq

structure MieruTrafficPattern where
  tcpFragment : Option MieruTcpFragment
  nonce : Option MieruNoncePattern
  padding : Option MieruPaddingPattern
  deriving DecidableEq

/-! ### Time keys -/

section

variable (crypto : Crypto)

/-- `mieru_key_epoch` at a clock reading. -/
def mieruKeyEpoch (secs : ℕ) : ℕ := (secs + keyRefreshSecs / 2) / keyRefreshSecs

def keyEpochs (epoch : ℕ) : List ℕ := [epoch - 1, epoch, min (epoch + 1) (wordSize - 1)]

def saltFromEpoch (epoch : ℕ) : List Bytes :=
  (keyEpochs epoch).map fun e => crypto.sha256 (toBe 8 (min (e * keyRefreshSecs) (wordSize - 1)))

def pbkdf2Rounds (password : Bytes) : ℕ → Bytes → Bytes → Bytes
  | 0, _, t => t
  | n + 1, u, t =>
    let u := crypto.hmacSha256 password u
    pbkdf2Rounds password n u (t.zipWith (· ^^^ ·) u)

/-- `pbkdf2_hmac_sha256`. -/
def pbkdf2HmacSha256 (password salt : Bytes) (iterations len : ℕ) : Outcome Bytes := do
  Outcome.ensure (!password.isEmpty) "Mieru password is empty"
  let blocks := (len + keyLen - 1) / keyLen
  let derived := (List.range blocks).flatMap fun i =>
    let u := crypto.hmacSha256 password (salt ++ toBe 4 (i + 1))
    pbkdf2Rounds crypto password (iterations - 1) u u
  return derived.take len

structure TimeKeys where
  epoch : ℕ
  keys : List Bytes
  deriving DecidableEq, Repr

structure KeyCache where
  entries : Map Bytes TimeKeys
  order : List Bytes
  salts : Option (ℕ × List Bytes)
  deriving DecidableEq

def KeyCache.empty : KeyCache := ⟨∅, [], none⟩

/-- `KeyCache::insert`; evicting from an empty queue panics. -/
def KeyCache.insert (cache : KeyCache) (password : Bytes) (keys : TimeKeys) : Outcome KeyCache :=
  if password ∈ cache.entries then
    .ok { cache with entries := cache.entries.insert password keys }
  else if cache.entries.entries.length = pbkdf2CacheMax then
    match cache.order with
    | [] => .panic
    | oldest :: rest =>
      .ok { cache with
        entries := (cache.entries.erase oldest).insert password keys
        order := rest ++ [password] }
  else
    .ok { cache with
      entries := cache.entries.insert password keys
      order := cache.order ++ [password] }

def TimeKeys.reuse (old : TimeKeys) (epoch : ℕ) : Option Bytes :=
  ((keyEpochs old.epoch).idxOf? epoch).bind (old.keys[·]?)

def deriveTimeKeys (hashedPassword : Bytes) (epoch : ℕ) (salts : List Bytes)
    (previous : Option TimeKeys) : Outcome (List Bytes) :=
  ((keyEpochs epoch).zip salts).mapM fun (e, salt) =>
    match previous.bind (·.reuse e) with
    | some key => .ok key
    | none => pbkdf2HmacSha256 crypto hashedPassword salt keyIter keyLen

def saltsFor (epoch : ℕ) : Stateful KeyCache (List Bytes) := fun cache =>
  match cache.salts with
  | some (cached, salts) =>
    if cached = epoch then (.ok salts, cache)
    else (.ok (saltFromEpoch crypto epoch),
      { cache with salts := some (epoch, saltFromEpoch crypto epoch) })
  | none => (.ok (saltFromEpoch crypto epoch),
      { cache with salts := some (epoch, saltFromEpoch crypto epoch) })

/-- The part of `mieru_keys_for_password` behind the cache. -/
def refreshKeys (hashedPassword : Bytes) (epoch : ℕ) (previous : Option TimeKeys) :
    Stateful KeyCache (List Bytes) := do
  let salts ← saltsFor crypto epoch
  let keys ← deriveTimeKeys crypto hashedPassword epoch salts previous
  Stateful.update fun cache => cache.insert hashedPassword ⟨epoch, keys⟩
  return keys

def mieruKeysForPassword (clock : Option ℕ) (hashedPassword : Bytes) :
    Stateful KeyCache (List Bytes) := do
  let secs ← sinceEpoch clock
  let epoch := mieruKeyEpoch secs
  let cache ← Stateful.get
  match cache.entries.lookup hashedPassword with
  | some previous =>
    if previous.epoch = epoch then return previous.keys
    else refreshKeys crypto hashedPassword epoch (some previous)
  | none => refreshKeys crypto hashedPassword epoch none

end

/-- Every cached password waits in the eviction queue. -/
def KeyCache.Queued (cache : KeyCache) : Prop := ∀ p ∈ cache.entries, p ∈ cache.order

theorem KeyCache.queued_empty : KeyCache.empty.Queued := by
  intro p hp
  exact absurd hp (AList.notMem_empty p)

theorem KeyCache.insert_ok {cache cache' : KeyCache} {password : Bytes} {keys : TimeKeys}
    (hq : cache.Queued) (h : cache.insert password keys = .ok cache') : cache'.Queued := by
  unfold KeyCache.insert at h
  split at h
  · rename_i hmem
    cases h
    intro p hp
    rcases (AList.mem_insert _).mp hp with rfl | hp
    · exact hq p hmem
    · exact hq p hp
  split at h
  · split at h
    · cases h
    · rename_i oldest rest horder
      cases h
      intro p hp
      rcases (AList.mem_insert _).mp hp with rfl | hp
      · simp
      · obtain ⟨hne, hp⟩ := (AList.mem_erase).mp hp
        have := hq p hp
        rw [horder] at this
        rcases List.mem_cons.mp this with rfl | hrest
        · exact absurd rfl hne
        · simp [hrest]
  · cases h
    intro p hp
    rcases (AList.mem_insert _).mp hp with rfl | hp
    · simp
    · simp [hq p hp]

theorem KeyCache.insert_ne_panic {cache : KeyCache} {password : Bytes} {keys : TimeKeys}
    (hq : cache.Queued) : cache.insert password keys ≠ .panic := by
  unfold KeyCache.insert
  split
  · nofun
  split
  · rename_i hfull
    -- A full cache is not empty, so the queue is not either.
    obtain ⟨e, he⟩ : ∃ e, e ∈ cache.entries.entries := by
      apply List.exists_mem_of_length_pos
      rw [hfull]
      decide
    have hmem : e.1 ∈ cache.order := hq e.1 (mem_iff_lookup.mpr ⟨e.2, mem_entries.mp he⟩)
    split
    · rename_i hnil
      rw [hnil] at hmem
      exact absurd hmem List.not_mem_nil
    · nofun
  · nofun

section

variable {crypto : Crypto}

theorem pbkdf2HmacSha256_ne_panic {password salt : Bytes} {iterations len : ℕ} :
    pbkdf2HmacSha256 crypto password salt iterations len ≠ .panic :=
  Outcome.bind_ne_panic (Outcome.ensure_ne_panic _ _) fun _ _ => nofun

theorem deriveTimeKeys_ne_panic {hashedPassword : Bytes} {epoch : ℕ} {salts : List Bytes}
    {previous : Option TimeKeys} :
    deriveTimeKeys crypto hashedPassword epoch salts previous ≠ .panic := by
  apply Outcome.mapM_ne_panic
  rintro ⟨e, salt⟩
  dsimp only
  split
  · nofun
  · exact pbkdf2HmacSha256_ne_panic

theorem saltsFor_safe {epoch : ℕ} : Stateful.Safe KeyCache.Queued (saltsFor crypto epoch) := by
  intro cache hq
  unfold saltsFor
  split
  · split
    · exact ⟨nofun, hq⟩
    · exact ⟨nofun, hq⟩
  · exact ⟨nofun, hq⟩

theorem refreshKeys_safe {hashedPassword : Bytes} {epoch : ℕ} {previous : Option TimeKeys} :
    Stateful.Safe KeyCache.Queued (refreshKeys crypto hashedPassword epoch previous) := by
  apply Stateful.Safe.bind saltsFor_safe
  intro salts
  apply Stateful.Safe.bind (Stateful.Safe.lift deriveTimeKeys_ne_panic)
  intro keys
  apply Stateful.Safe.bind (Stateful.Safe.update (fun _ => KeyCache.insert_ne_panic)
    fun _ _ => KeyCache.insert_ok)
  exact fun _ => Stateful.Safe.pure _

theorem mieruKeysForPassword_safe {clock : Option ℕ} {hashedPassword : Bytes} :
    Stateful.Safe KeyCache.Queued (mieruKeysForPassword crypto clock hashedPassword) := by
  apply Stateful.Safe.bind (Stateful.Safe.lift (Outcome.need_ne_panic _ _))
  intro secs
  apply Stateful.Safe.get_bind
  intro cache _
  split
  · split
    · exact Stateful.Safe.pure _
    · exact refreshKeys_safe
  · exact refreshKeys_safe

end

/-! ### Ciphers -/

structure MieruCipher where
  key : Bytes
  implicitNonce : Option Bytes
  implicit : Bool
  username : String
  noncePattern : Option MieruNoncePattern
  noncePatternApplied : Bool
  deriving DecidableEq, Repr

def MieruCipher.new (key : Bytes) (implicit : Bool) (username : String)
    (trafficPattern : Option MieruTrafficPattern) : MieruCipher where
  key
  implicitNonce := none
  implicit
  username
  noncePattern := trafficPattern.bind (·.nonce)
  noncePatternApplied := false

/-- The cipher after `random_nonce` has drawn a nonce. -/
def MieruCipher.drewNonce (c : MieruCipher) : MieruCipher :=
  match c.noncePattern with
  | some pattern =>
    if c.implicit ∨ !c.noncePatternApplied ∨ pattern.applyToAllUdpPacket then
      { c with noncePatternApplied := true }
    else c
  | none => c

def carry : Bytes → Bytes
  | [] => []
  | b :: rest => if b + 1 ≠ 0 then (b + 1) :: rest else 0 :: carry rest

def incrementNonce (nonce : Bytes) : Outcome Bytes := do
  Outcome.ensure (nonce.length = nonceLen) "invalid Mieru nonce length"
  return (carry nonce.reverse).reverse

/-- `increase_nonce`, whose two `expect`s panic on a missing or misshapen nonce. -/
def increaseNonce : Stateful MieruCipher Unit := Stateful.update fun c =>
  match c.implicitNonce with
  | none => .panic
  | some nonce =>
    match incrementNonce nonce with
    | .ok next => .ok { c with implicitNonce := some next }
    | _ => .panic

/-- The nonce of the next ciphertext and how many bytes of it carry the nonce. -/
def takeNonce (ciphertext : Bytes) : Stateful MieruCipher (Bytes × ℕ) := do
  let c ← Stateful.get
  match c.implicit, c.implicitNonce with
  | true, some _ =>
    increaseNonce
    let c ← Stateful.get
    let nonce ← Outcome.need c.implicitNonce "implicit nonce is set"
    return (nonce, 0)
  | implicit, _ =>
    Outcome.ensure (nonceLen ≤ ciphertext.length) "Mieru ciphertext is shorter than nonce"
    let nonce ← slice ciphertext 0 nonceLen
    Stateful.update fun c => .ok (if implicit then { c with implicitNonce := some nonce } else c)
    return (nonce, nonceLen)

section

variable (crypto : Crypto)

def decrypt (ciphertext : Bytes) : Stateful MieruCipher Bytes := do
  let (nonce, prefixLen) ← takeNonce ciphertext
  Outcome.ensure (prefixLen + aeadOverhead ≤ ciphertext.length)
    "Mieru ciphertext is shorter than authentication tag"
  let tagOffset := ciphertext.length - aeadOverhead
  let tag ← slice ciphertext tagOffset ciphertext.length
  let body ← slice ciphertext prefixLen tagOffset
  let c ← Stateful.get
  Outcome.need (crypto.aeadOpen c.key nonce body tag) "Mieru XChaCha20-Poly1305 decrypt failed"

def decryptWithNonce (c : MieruCipher) (ciphertext nonce : Bytes) : Outcome Bytes := do
  Outcome.ensure (nonce.length = nonceLen) "invalid Mieru nonce length"
  let cut := ciphertext.length - aeadOverhead
  let opened := if aeadOverhead ≤ ciphertext.length then
    crypto.aeadOpen c.key nonce (ciphertext.take cut) (ciphertext.drop cut) else none
  Outcome.need opened "Mieru XChaCha20-Poly1305 decrypt failed"

def checkUserFromHint (username : String) (nonce : Bytes) : Bool :=
  if username = "" ∨ nonce.length < 20 then false
  else (crypto.sha256 (username.toUTF8.data.toList ++ nonce.take 16)).take 4 ==
    nonce.drop (nonce.length - 4)

end

/-- A cipher whose nonce comes with every packet. -/
def MieruCipher.Stateless (c : MieruCipher) : Prop := c.implicit = false

theorem MieruCipher.stateless_new {key : Bytes} {username : String}
    {pattern : Option MieruTrafficPattern} :
    (MieruCipher.new key false username pattern).Stateless := rfl

theorem takeNonce_safe {c : MieruCipher} (hc : c.Stateless) {ciphertext : Bytes} :
    Stateful.Safe (· = c) (takeNonce ciphertext) := by
  apply Stateful.Safe.get_bind
  intro s hs
  rw [hs, show c.implicit = false from hc]
  apply Stateful.Safe.ensure_bind
  intro hlen
  apply Stateful.Safe.bind (Stateful.Safe.lift _)
  · intro nonce
    apply Stateful.Safe.bind (Stateful.Safe.update _ _)
    · exact fun _ => Stateful.Safe.pure _
    · exact fun _ _ => nofun
    · rintro _ _ rfl h
      cases h
      rfl
  · rw [ne_eq, slice_panic]
    simp only [decide_eq_true_eq] at hlen
    simp [hlen]

theorem decrypt_safe {crypto : Crypto} {c : MieruCipher} (hc : c.Stateless) {ciphertext : Bytes} :
    Stateful.Safe (· = c) (decrypt crypto ciphertext) := by
  apply Stateful.Safe.bind (takeNonce_safe hc)
  rintro ⟨nonce, prefixLen⟩
  apply Stateful.Safe.ensure_bind
  intro hlen
  simp only [decide_eq_true_eq] at hlen
  apply Stateful.Safe.bind (Stateful.Safe.lift (by rw [ne_eq, slice_panic]; omega))
  intro tag
  apply Stateful.Safe.bind (Stateful.Safe.lift (by rw [ne_eq, slice_panic]; omega))
  intro body
  apply Stateful.Safe.get_bind
  intro _ _
  exact Stateful.Safe.lift (Outcome.need_ne_panic _ _)

theorem decryptWithNonce_ne_panic {crypto : Crypto} {c : MieruCipher} {ciphertext nonce : Bytes} :
    decryptWithNonce crypto c ciphertext nonce ≠ .panic :=
  Outcome.bind_ne_panic (Outcome.ensure_ne_panic _ _) fun _ _ => Outcome.need_ne_panic _ _

end Aerion.Mieru
