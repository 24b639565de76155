import Aerion.Lib.Signed
import Aerion.Net.ReplayCache
import Aerion.Vless.Request

/-!
# The VMess request

`read_vmess_request` and what it calls (`src/vmess.rs`). The first sixteen
bytes, the AuthID, name a user and a time; the header that follows is sealed
under the user's key. The primitives are parameters. The user map is the
list in the order its iteration gives.
-/

namespace Aerion.Vmess

open Lib Net

structure Crypto where
  md5 : Bytes → Bytes
  /-- `kdf key salt path` -/
  kdf : Bytes → String → List Bytes → Bytes
  /-- `aes_128_ecb_decrypt key block` -/
  aes128EcbDecrypt : Bytes → Bytes → Bytes
  /-- `decrypt_aes_gcm key nonce ciphertext aad`, on a ciphertext no shorter than its tag -/
  decryptAesGcm : Bytes → Bytes → Bytes → Bytes → Option Bytes

variable (crypto : Crypto) (mode : Overflow)

/-! ### Checksums -/

def fnv1a32 (data : Bytes) : UInt32 :=
  data.foldl (fun hash byte => (hash ^^^ byte.toUInt32) * 0x01000193) 0x811c9dc5

/-- One bit of `crc32_ieee`. -/
def crcBit (crc : UInt32) : UInt32 :=
  if crc &&& 1 != 0 then (crc >>> 1) ^^^ 0xedb88320 else crc >>> 1

def crc32Ieee (data : Bytes) : UInt32 :=
  ~~~data.foldl (fun crc byte => crcBit^[8] (crc ^^^ byte.toUInt32)) 0xffffffff

/-! ### AuthID -/

def vmessCmdKey (uuid : Bytes) : Bytes :=
  (crypto.md5 (uuid ++ "c48619fe-8f02-49e0-b9e9-edf763e17e21".toUTF8.toList)).take 16

def kdf16 (key : Bytes) (salt : String) (path : List Bytes) : Bytes := (crypto.kdf key salt path).take 16

def decodeAuthId (cmdKey authId : Bytes) : Outcome ℤ := do
  let key := kdf16 crypto cmdKey "AES Auth ID Encryption" []
  let plain := crypto.aes128EcbDecrypt key authId
  .ensure (ofBe ((plain.drop 12).take 4) == (crc32Ieee (plain.take 12)).toNat)
    "invalid VMess auth id checksum"
  return ofBeI64 (plain.take 8)

/-- `(timestamp - now).abs() <= 120`. -/
def isFresh (timestamp now : ℤ) : Outcome Bool := do
  let difference ← subI64 mode timestamp now
  let distance ← absI64 mode difference
  return distance ≤ 120

def findUser (now : ℤ) (authId : Bytes) : List (Bytes × String) → Outcome (Option (Bytes × String))
  | [] => .ok none
  | (user, credential) :: users =>
    match decodeAuthId crypto (vmessCmdKey crypto user) authId with
    | .ok timestamp => do
      if ← isFresh mode timestamp now then return some (user, credential)
      else findUser now authId users
    | _ => findUser now authId users

/-! ### Header -/

def decryptAesGcm (key nonce ciphertext aad : Bytes) : Outcome Bytes := do
  .ensure (16 ≤ ciphertext.length) "AES-GCM ciphertext too short"
  .need (crypto.decryptAesGcm key nonce ciphertext aad) "decrypt AES-128-GCM"

def openVmessAeadHeader (cmdKey authId : Bytes) : Reader Bytes := do
  let encryptedLength ← readExact 18 "read VMess AEAD header length"
  let connectionNonce ← readExact 8 "read VMess AEAD header nonce"
  let path := [authId, connectionNonce]
  let lengthKey := kdf16 crypto cmdKey "VMess Header AEAD Key_Length" path
  let lengthNonce := (crypto.kdf cmdKey "VMess Header AEAD Nonce_Length" path).take 12
  let lengthPlain ← decryptAesGcm crypto lengthKey lengthNonce encryptedLength authId
  Outcome.ensure (lengthPlain.length == 2) "invalid VMess header length payload"
  let encryptedPayload ← readExact (ofBe lengthPlain + 16) "read VMess AEAD header payload"
  let payloadKey := kdf16 crypto cmdKey "VMess Header AEAD Key" path
  let payloadNonce := (crypto.kdf cmdKey "VMess Header AEAD Nonce" path).take 12
  decryptAesGcm crypto payloadKey payloadNonce encryptedPayload authId

inductive SecurityType where
  | aes128Gcm
  | chacha20Poly1305
  | none
  | zero
  deriving DecidableEq, Repr

def SecurityType.fromRaw (raw : UInt8) : Outcome SecurityType :=
  match raw with
  | 0x03 => .ok .aes128Gcm
  | 0x04 => .ok .chacha20Poly1305
  | 0x05 => .ok .none
  | 0x06 => .ok .zero
  | 0x01 => .err "VMess legacy security is not supported"
  | 0x02 => .err "VMess auto security must not appear on the wire"
  | other => .err ("unsupported VMess security type: " ++ hexText other.toNat)

def SecurityType.normalized : SecurityType → SecurityType
  | .zero => .none
  | other => other

/-- `SUPPORTED_OPTION_BITS` of `src/vmess_body.rs`. -/
def supportedOptionBits : UInt8 := 0x1f

def clearZeroOptions (options : UInt8) : UInt8 := options &&& ~~~0x01 &&& ~~~0x04 &&& ~~~0x10

def readVmessAddressSync (data : Bytes) : Outcome (ProxyTarget × ℕ) := do
  .ensure (3 ≤ data.length) "short VMess address"
  let port := wordOf [← index data 0, ← index data 1]
  let kind ← index data 2
  match kind with
  | 0x01 => do
    .ensure (7 ≤ data.length) "short VMess IPv4 address"
    match IpAddr.ofOctets (← slice data 3 7) with
    | some ip => return (.ip ⟨ip, port⟩, 7)
    | none => .panic
  | 0x03 => do
    .ensure (19 ≤ data.length) "short VMess IPv6 address"
    match IpAddr.ofOctets (← slice data 3 19) with
    | some ip => return (.ip ⟨ip, port⟩, 19)
    | none => .panic
  | 0x02 => do
    .ensure (4 ≤ data.length) "short VMess domain address"
    let length ← index data 3
    .ensure (4 + length.toNat ≤ data.length) "short VMess domain address"
    let host ← slice data 4 (4 + length.toNat)
    let host ← .need (fromUtf8 host) "decode VMess domain"
    return (.domain host port, 4 + length.toNat)
  | other => .err ("unsupported VMess address type " ++ hexText other.toNat)

structure VmessRequest where
  command : UInt8
  target : ProxyTarget
  responseHeader : UInt8
  requestBodyKey : Bytes
  requestBodyIv : Bytes
  options : UInt8
  security : SecurityType
  deriving DecidableEq, Repr

def cmdUdp : UInt8 := 0x02
def cmdMux : UInt8 := 0x03

def readTarget (command : UInt8) (data : Bytes) : Outcome (ProxyTarget × ℕ) :=
  if command = cmdMux then .ok (Vless.muxTarget, 0) else readVmessAddressSync data

/-- The two hexadecimal digits of `{:02x}`. -/
def hexByte (b : UInt8) : String := String.ofList ((Nat.toDigits 16 b.toNat).leftpad 2 '0')

def parseVmessHeader (header : Bytes) : Outcome VmessRequest := do
  let len := header.length
  .ensure (42 ≤ len) "VMess request header too short"
  let version ← index header 0
  .ensure (version == 0x01) s!"unsupported VMess version {version}"
  let checked ← slice header 0 (len - 4)
  let checksum ← slice header (len - 4) len
  .ensure ((fnv1a32 checked).toNat == ofBe checksum) "invalid VMess request checksum"
  let requestBodyIv ← slice header 1 17
  let requestBodyKey ← slice header 17 33
  let responseHeader ← index header 33
  let options ← index header 34
  .ensure (options &&& ~~~supportedOptionBits == 0)
    ("unsupported VMess request option bits: 0x" ++ hexByte (options &&& ~~~supportedOptionBits))
  let packed ← index header 35
  let paddingLen := (packed >>> 4).toNat
  let rawSecurity ← SecurityType.fromRaw (packed &&& 0x0f)
  let options := if rawSecurity = .zero then clearZeroOptions options else options
  let reserved ← index header 36
  .ensure (reserved == 0) s!"unsupported VMess reserved byte {reserved}"
  let command ← index header 37
  .ensure (!(rawSecurity == .zero && (command == cmdUdp || command == cmdMux)))
    "VMess security=zero does not support UDP"
  let rest ← slice header 38 len
  let (target, targetLen) ← readTarget command rest
  .ensure (len == 38 + targetLen + paddingLen + 4) "invalid VMess padding length"
  return ⟨command, target, responseHeader, requestBodyKey, requestBodyIv, options,
    rawSecurity.normalized⟩

end Aerion.Vmess
