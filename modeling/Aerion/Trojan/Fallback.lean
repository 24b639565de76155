import Aerion.Lib.Copy
import Aerion.Trojan.Protocol

/-!
# The fallback of a Trojan server

A connection that does not open with an authenticated request is relayed to
the fallback server (`handle_trojan_stream`, `relay_trojan_fallback` and
`CapturingStream` of `src/trojan.rs`): first the bytes that the handshake has
consumed, then the two streams as they come. The handshake may fail at any
byte. `RequestBytes` says independently of the readers which bytes are a
request.
-/

namespace Aerion.Trojan

open Lib Net

/-! ### Requests -/

inductive AddressBytes : Bytes → Prop
  | ipv4 : octets.length = 4 → port.length = 2 → AddressBytes (atypIpv4 :: (octets ++ port))
  | ipv6 : octets.length = 16 → port.length = 2 → AddressBytes (atypIpv6 :: (octets ++ port))
  | domain (length : UInt8) : host.length = length.toNat → (fromUtf8 host).isSome → port.length = 2 →
      AddressBytes (atypDomain :: length :: (host ++ port))

/-- An authenticated request: a digest that core knows, a command and an address, each line closed. -/
inductive RequestBytes (lookup : Bytes → Option String) : Bytes → Prop
  | mk : authHex.length = 56 → (lookup authHex).isSome → command = cmdConnect ∨ command = cmdUdpAssociate →
      AddressBytes address →
      RequestBytes lookup (authHex ++ ([0x0d, 0x0a] ++ (command :: (address ++ [0x0d, 0x0a]))))

/-- No request stands at the front of these bytes. -/
def NoRequest (lookup : Bytes → Option String) (bytes : Bytes) : Prop :=
  ∀ front rest, bytes = front ++ rest → ¬RequestBytes lookup front

theorem NoRequest.of_append {lookup : Bytes → Option String} {bytes more : Bytes}
    (h : NoRequest lookup (bytes ++ more)) : NoRequest lookup bytes :=
  fun front rest hbytes => h front (rest ++ more) (by rw [hbytes, List.append_assoc])

theorem readCrlf_strict : readCrlf.Strict fun bytes _ => bytes = [0x0d, 0x0a] := by
  refine (Fetch.Strict.exact 2 _).bind fun bytes crlf hcrlf => ?_
  obtain ⟨rfl, -⟩ := hcrlf
  by_cases h : bytes = [0x0d, 0x0a]
  · rw [Outcome.ensure_pos (decide_eq_true h)]
    exact .lift nofun fun _ _ => by rw [List.append_nil, h]
  · rw [Outcome.ensure_neg (by simpa using h)]
    exact .lift nofun nofun

theorem readU8_strict : readU8.Strict fun bytes b => bytes = [b] := by
  refine (Fetch.Strict.exact 1 _).bind fun bytes byte hbyte => ?_
  obtain ⟨rfl, hlen⟩ := hbyte
  match bytes, hlen with
  | [b], _ => exact .pure rfl

theorem readPort_strict : readPort.Strict fun bytes _ => bytes.length = 2 := by
  refine (Fetch.Strict.exact 2 _).bind fun bytes port hport => .pure ?_
  obtain ⟨rfl, hlen⟩ := hport
  rwa [List.append_nil]

theorem readIp_strict {length : ℕ} (hip : ∀ octets : Bytes, octets.length = length →
    ∃ ip, IpAddr.ofOctets octets = some ip) (message : String) :
    (readIp length message).Strict fun bytes _ =>
      ∃ octets port : Bytes, bytes = octets ++ port ∧ octets.length = length ∧ port.length = 2 := by
  refine (Fetch.Strict.exact length message).bind fun bytes octets hoctets => ?_
  obtain ⟨rfl, hlen⟩ := hoctets
  obtain ⟨ip, hip⟩ := hip bytes hlen
  rw [hip]
  exact readPort_strict.bind fun port _ hport => .pure
    ⟨bytes, port, by rw [List.append_nil], hlen, hport⟩

theorem readDomain_strict : readDomain.Strict fun bytes _ =>
    ∃ (length : UInt8) (host port : Bytes), bytes = length :: (host ++ port) ∧
      host.length = length.toNat ∧ (fromUtf8 host).isSome ∧ port.length = 2 := by
  refine readU8_strict.bind fun bytes length hlength => ?_
  subst hlength
  refine (Fetch.Strict.exact _ _).bind fun bytes host hhost => ?_
  obtain ⟨rfl, hlen⟩ := hhost
  cases hutf8 : fromUtf8 bytes with
  | none => exact ⟨nofun, nofun⟩
  | some text =>
    refine Fetch.Strict.bind (Fetch.Strict.lift (G := fun front _ => front = []) nofun fun _ _ => rfl) ?_
    rintro _ host rfl
    exact readPort_strict.bind fun port _ hport => .pure
      ⟨length, bytes, port, by simp, hlen, by rw [hutf8]; rfl, hport⟩

theorem readTrojanAddressBody_strict (atyp : UInt8) :
    (readTrojanAddressBody atyp).Strict fun bytes _ => AddressBytes (atyp :: bytes) := by
  unfold readTrojanAddressBody
  split_ifs with h4 h6 hdomain
  · subst h4
    refine (readIp_strict (fun octets hlen => ?_) _).mono ?_
    · obtain ⟨a, b, c, d, hip, -⟩ := IpAddr.ofOctets_four hlen
      exact ⟨_, hip⟩
    · rintro _ _ ⟨octets, port, rfl, hlen, hport⟩
      exact .ipv4 hlen hport
  · subst h6
    refine (readIp_strict (fun octets hlen => ?_) _).mono ?_
    · obtain ⟨_, _, _, _, _, _, _, _, hip, -⟩ := IpAddr.ofOctets_sixteen hlen
      exact ⟨_, hip⟩
    · rintro _ _ ⟨octets, port, rfl, hlen, hport⟩
      exact .ipv6 hlen hport
  · subst hdomain
    refine readDomain_strict.mono ?_
    rintro _ _ ⟨length, host, port, rfl, hlen, hutf8, hport⟩
    exact .domain length hlen hutf8 hport
  · exact ⟨nofun, nofun⟩

theorem readTrojanAddress_strict : readTrojanAddress.Strict fun bytes _ => AddressBytes bytes := by
  refine ⟨⟨_, rfl⟩, fun bytes hlen => ?_⟩
  match bytes, hlen with
  | [atyp], _ =>
    have hbody : (readTrojanAddressBody atyp >>= fun target => pure (some target) :
        Fetch (Option ProxyTarget)).Strict fun bytes found => AddressBytes (atyp :: bytes) ∧ found.isSome :=
      (readTrojanAddressBody_strict atyp).bind fun front target hfront =>
        .pure ⟨by rwa [List.append_nil], rfl⟩
    refine hbody.bind ?_
    rintro front (_ | target) ⟨hfront, hsome⟩
    · cases hsome
    · exact .lift nofun fun _ _ => by rwa [List.append_nil]

theorem readTrojanRequest_strict : readTrojanRequest.Strict fun bytes _ =>
    ∃ (command : UInt8) (address : Bytes), bytes = command :: (address ++ [0x0d, 0x0a]) ∧
      (command = cmdConnect ∨ command = cmdUdpAssociate) ∧ AddressBytes address := by
  refine readU8_strict.bind fun bytes command hcommand => ?_
  subst hcommand
  refine readTrojanAddress_strict.bind fun address target haddress => ?_
  refine readCrlf_strict.bind fun crlf _ hcrlf => ?_
  subst hcrlf
  split_ifs with hconnect hudp
  · exact .pure ⟨command, address, by simp, .inl hconnect, haddress⟩
  · exact .pure ⟨command, address, by simp, .inr hudp, haddress⟩
  · exact ⟨nofun, nofun⟩

theorem readAuthenticatedTrojanRequest_strict (lookup : Bytes → Option String) :
    (readAuthenticatedTrojanRequest lookup).Strict fun bytes _ => RequestBytes lookup bytes := by
  refine (Fetch.Strict.exact 56 _).bind fun bytes authHex hauth => ?_
  obtain ⟨rfl, hlen⟩ := hauth
  cases hlookup : lookup bytes with
  | none => exact ⟨nofun, nofun⟩
  | some known =>
    refine Fetch.Strict.bind (Fetch.Strict.lift (G := fun front _ => front = []) nofun fun _ _ => rfl) ?_
    rintro _ credential rfl
    refine readCrlf_strict.bind fun crlf _ hcrlf => ?_
    subst hcrlf
    refine readTrojanRequest_strict.bind fun request _ hrequest => .pure ?_
    obtain ⟨command, address, rfl, hcommand, haddress⟩ := hrequest
    rw [List.append_nil, List.nil_append]
    exact .mk hlen (by rw [hlookup]; rfl) hcommand haddress

/-! ### How much of a stream tells -/

/-- How many bytes of a stream tell whether an address and the end of its line open it. -/
def addressLen : Bytes → ℕ
  | [] => 1
  | atyp :: rest =>
    if atyp = atypIpv4 then 1 + 4 + 2 + 2
    else if atyp = atypIpv6 then 1 + 16 + 2 + 2
    else if atyp = atypDomain then
      match rest with
      | [] => 2
      | length :: rest =>
        if (fromUtf8 (rest.take length.toNat)).isSome then 2 + length.toNat + 2 + 2 else 2 + length.toNat
    else 1

/-- How many bytes of a stream tell whether a request opens it. -/
def requestLen (lookup : Bytes → Option String) (bytes : Bytes) : ℕ :=
  if lookup (bytes.take 56) = none then 56
  else if (bytes.drop 56).take 2 ≠ [0x0d, 0x0a] then 58
  else 59 + addressLen (bytes.drop 59)

section
variable {α : Type} {g : ProxyTarget → Fetch α} {P : α → Prop} (hg : ∀ target, (g target).Bounded 2 P)
include hg

theorem readDomain_waiting {bytes : Bytes} {room : ℕ} (h : (readDomain >>= g).progress bytes = .waiting room) :
    bytes.length + 1 < addressLen (atypDomain :: bytes) := by
  match bytes with
  | [] => exact Nat.one_lt_two
  | length :: rest =>
    have hhost : (Fetch.exact length.toNat "read Trojan domain" >>= fun host =>
        liftM (Outcome.need (fromUtf8 host) "Trojan domain address is not valid UTF-8") >>= fun host =>
          readPort >>= fun port => g (.domain host port)).progress rest = .waiting room := by
      rw [← h, readDomain, Fetch.bind_bind]
      simp only [Fetch.bind_bind]
      rfl
    rw [Fetch.progress_exact_bind] at hhost
    show rest.length + 1 + 1 < if (fromUtf8 (rest.take length.toNat)).isSome then _ else _
    split at hhost
    · cases hutf8 : fromUtf8 (rest.take length.toNat) with
      | none =>
        rw [hutf8] at hhost
        cases hhost
      | some host =>
        rw [hutf8] at hhost
        have hport := (readPort_bounded.bind fun port _ => hg (.domain host port)).waiting hhost
        have hpos := Fetch.waiting_pos h
        rw [List.length_drop] at hport
        rw [if_pos (Option.isSome_some)]
        omega
    · split <;> omega

theorem readTrojanAddress_waiting {bytes : Bytes} {room : ℕ}
    (h : (readTrojanAddress >>= g).progress bytes = .waiting room) : bytes.length < addressLen bytes := by
  have hpos := Fetch.waiting_pos h
  match bytes with
  | [] => exact Nat.one_pos
  | atyp :: rest =>
    have hbody : (readTrojanAddressBody atyp >>= g).progress rest = .waiting room := by
      rw [← h]
      show _ = (((readTrojanAddressBody atyp >>= fun target => pure (some target)) >>= fun found =>
        liftM (Outcome.need found "Trojan address reached EOF")) >>= g).progress rest
      simp only [Fetch.bind_bind]
      rfl
    have hip (length : ℕ) (message : String)
        (hread : (readIp length message >>= g).progress rest = .waiting room) :=
      ((readIp_bounded length message).bind fun target _ => hg target).waiting hread
    rw [addressLen.eq_def, List.length_cons]
    dsimp only
    unfold readTrojanAddressBody at hbody
    split_ifs at hbody ⊢ with h4 h6 hdomain
    · have := hip _ _ hbody
      omega
    · have := hip _ _ hbody
      omega
    · have := readDomain_waiting hg hbody
      rw [addressLen.eq_def] at this
      exact this
    · cases hbody

end

theorem readTrojanRequest_waiting {α : Type} {k : TrojanRequest → Fetch α} {P : α → Prop}
    (hk : ∀ request, (k request).Bounded 0 P) {bytes : Bytes} {room : ℕ}
    (h : (readTrojanRequest >>= k).progress bytes = .waiting room) :
    bytes.length < 1 + addressLen (bytes.drop 1) := by
  match bytes with
  | [] => exact Nat.lt_add_right _ Nat.one_pos
  | command :: rest =>
    -- behind the address there are two bytes left to read, whatever the command
    have hclosed (target : ProxyTarget) := readCrlf_bounded.bind (m := 0) (Q := P)
      (f := fun _ => (if command = cmdConnect then pure (.connect target)
        else if command = cmdUdpAssociate then pure .udpAssociate
        else (liftM (Outcome.err ("unsupported Trojan command " ++ hexText command.toNat) :
          Outcome TrojanRequest) :
          Fetch TrojanRequest)) >>= k) fun _ _ => by
      split_ifs
      · exact hk _
      · exact hk _
      · exact fun _ herr => (by cases herr)
    rw [readTrojanRequest, Fetch.bind_bind] at h
    simp only [Fetch.bind_bind] at h
    have := @readTrojanAddress_waiting _ _ _ hclosed rest room h
    rw [List.length_cons, List.drop_one, List.tail_cons]
    omega

/-- The handshake waits only while the stream does not tell. -/
theorem waiting_requestLen {lookup : Bytes → Option String} {bytes : Bytes} {room : ℕ}
    (h : (readAuthenticatedTrojanRequest lookup).progress bytes = .waiting room) :
    bytes.length < requestLen lookup bytes := by
  rw [readAuthenticatedTrojanRequest, Fetch.progress_exact_bind] at h
  unfold requestLen
  split at h
  swap
  · split_ifs <;> omega
  cases hlookup : lookup (bytes.take 56) with
  | none =>
    rw [hlookup] at h
    cases h
  | some credential =>
    have hneed : Outcome.need (some credential) "Trojan authentication failed" = .ok credential := rfl
    rw [hlookup, Fetch.progress_lift_bind hneed, readCrlf, Fetch.bind_bind, Fetch.progress_exact_bind,
      List.length_drop] at h
    rw [if_neg (by simp)]
    split at h
    swap
    · split_ifs <;> omega
    by_cases hcrlf : (bytes.drop 56).take 2 = [0x0d, 0x0a]
    · rw [Fetch.progress_lift_bind (Outcome.ensure_pos (decide_eq_true hcrlf)), List.drop_drop] at h
      have hrequest := readTrojanRequest_waiting (P := fun _ => True) (fun _ => .pure trivial) h
      rw [List.drop_drop, List.length_drop, show 56 + 2 + 1 = 59 from rfl] at hrequest
      rw [if_neg (by simpa using hcrlf)]
      omega
    · rw [Outcome.ensure_neg (by simpa using hcrlf)] at h
      cases h

/-! ### The connection -/

namespace Fallback

/-- The buffer of one direction of `copy_bidirectional`. -/
def bufferSize : ℕ := 8 * 1024

inductive Phase where
  | handshake
  /-- `write_all` of what was captured, with what is left of it. -/
  | replaying (left : Bytes)
  | relaying
  | served (credential : String) (request : TrojanRequest)
  | panicked
  deriving DecidableEq, Repr

/-- `up` is the way from the client to the fallback server, `down` the way back. -/
structure Connection where
  phase : Phase
  captured : Bytes
  up : Pipe
  down : Pipe
  deriving DecidableEq, Repr

inductive Event where
  | clientSends (bytes : Bytes)
  | clientEnds
  | fallbackSends (bytes : Bytes)
  | fallbackEnds
  | read (n : ℕ)
  | replay (n : ℕ)
  | relay
  | up (c : CopyStep)
  | down (c : CopyStep)
  deriving DecidableEq, Repr

def Event.Server : Event → Prop
  | .clientSends _ | .clientEnds | .fallbackSends _ | .fallbackEnds => False
  | .read _ | .replay _ | .relay | .up _ | .down _ => True

def Phase.connected : Phase → Bool
  | .replaying _ | .relaying => true
  | .handshake | .served _ _ | .panicked => false

namespace Connection

def start : Connection := ⟨.handshake, [], Pipe.start, Pipe.start⟩

/-- The end of `read_authenticated_trojan_request`: on an error, `take_captured`. -/
def settle (c : Connection) : Outcome (String × TrojanRequest) → Connection
  | .ok (credential, request) => { c with phase := .served credential request }
  | .err _ => { c with phase := .replaying c.captured, captured := [] }
  | .panic => { c with phase := .panicked }

/-- `poll_read` of the capturing stream. -/
def take (c : Connection) (n : ℕ) : Connection :=
  { c with captured := c.captured ++ c.up.queued.take n, up := { c.up with queued := c.up.queued.drop n } }

def read (lookup : Bytes → Option String) (c : Connection) (n : ℕ) : Option Connection :=
  match (readAuthenticatedTrojanRequest lookup).progress c.captured with
  | .finished _ _ => none
  | .waiting room =>
    if c.up.queued = [] then
      if c.up.ended then some (c.settle ((readAuthenticatedTrojanRequest lookup).atEnd c.captured)) else none
    else if 0 < n ∧ n ≤ room ∧ n ≤ c.up.queued.length then
      match (readAuthenticatedTrojanRequest lookup).progress (c.take n).captured with
      | .waiting _ => some (c.take n)
      | .finished result _ => some ((c.take n).settle result)
    else none

/-- The relay reads through the capturing stream as well, which keeps what it hands out. -/
def copyUp (c : Connection) (s : CopyStep) : Option Connection :=
  (c.up.step bufferSize s).map fun up =>
    match s with
    | .fill n => { c with up, captured := c.captured ++ c.up.queued.take n }
    | .write _ | .shutdown => { c with up }

def step (lookup : Bytes → Option String) (c : Connection) : Event → Option Connection
  | .clientSends bytes => (c.up.send bytes).map fun up => { c with up }
  | .clientEnds => c.up.finish.map fun up => { c with up }
  | .fallbackSends bytes =>
    if c.phase.connected then (c.down.send bytes).map fun down => { c with down } else none
  | .fallbackEnds => if c.phase.connected then c.down.finish.map fun down => { c with down } else none
  | .read n => if c.phase = .handshake then c.read lookup n else none
  | .replay n =>
    match c.phase with
    | .replaying left =>
      if 0 < n ∧ n ≤ left.length then
        some { c with phase := .replaying (left.drop n), up := { c.up with sunk := c.up.sunk ++ left.take n } }
      else none
    | _ => none
  | .relay => if c.phase = .replaying [] then some { c with phase := .relaying } else none
  | .up s => if c.phase = .relaying then c.copyUp s else none
  | .down s =>
    if c.phase = .relaying then (c.down.step bufferSize s).map fun down => { c with down } else none

/-- The server can do nothing before it is sent something. -/
def Quiet (lookup : Bytes → Option String) (c : Connection) : Prop :=
  ∀ e : Event, e.Server → c.step lookup e = none

/-- The client's stream has ended, or is long enough for the handshake to tell that it is no request. -/
def Decided (lookup : Bytes → Option String) (c : Connection) : Prop :=
  c.up.ended = true ∨ requestLen lookup c.up.sent ≤ c.up.sent.length

def holding (c : Connection) : Bytes :=
  match c.phase with
  | .handshake | .served _ _ | .panicked => c.captured
  | .replaying left => left
  | .relaying => c.up.held

def uplink (c : Connection) : Pipe := { c.up with held := c.holding }

structure Sound (lookup : Bytes → Option String) (c : Connection) : Prop where
  up : c.uplink.Intact
  down : c.down.Intact
  /-- The copy has not begun. -/
  early : c.phase ≠ .relaying → c.up.held = [] ∧ c.up.readDone = false ∧ c.up.shut = false
  waiting : c.phase = .handshake → c.up.sunk = [] ∧
    ∃ room, (readAuthenticatedTrojanRequest lookup).progress c.captured = .waiting room
  served : ∀ credential request, c.phase = .served credential request → ¬NoRequest lookup c.up.sent
  safe : c.phase ≠ .panicked

def Phase.left : Phase → ℕ
  | .handshake => 2
  | .replaying _ => 1
  | .relaying | .served _ _ | .panicked => 0

def rank (c : Connection) : ℕ := c.uplink.rank + c.down.rank + Phase.left c.phase

/-- What a step of the server is to the two copies: a step of one of them, or nothing. -/
inductive Moves (c c' : Connection) : Prop
  | up (size : ℕ) (s : CopyStep) : c.uplink.step size s = some c'.uplink → c'.down = c.down →
      Phase.left c'.phase ≤ Phase.left c.phase → Moves c c'
  | down (size : ℕ) (s : CopyStep) : c'.uplink = c.uplink → c.down.step size s = some c'.down →
      Phase.left c'.phase ≤ Phase.left c.phase → Moves c c'
  | phase : c'.uplink = c.uplink → c'.down = c.down → Phase.left c'.phase < Phase.left c.phase → Moves c c'

variable {lookup : Bytes → Option String} {c c' : Connection} {e : Event}

theorem Sound.start : Sound lookup start :=
  ⟨Pipe.Intact.start, Pipe.Intact.start, fun _ => ⟨rfl, rfl, rfl⟩, fun _ => ⟨rfl, 56, rfl⟩, nofun, nofun⟩

theorem uplink_up (c : Connection) {p : Pipe} (hp : p.held = c.up.held) :
    { c with up := p }.uplink = { p with held := c.holding } := by
  unfold uplink holding
  cases c.phase with
  | relaying => exact congrArg (fun held => { p with held }) hp
  | _ => rfl

/-! ### What the server is sent -/

theorem Sound.clientSends {bytes : Bytes} (hc : Sound lookup c)
    (h : c.step lookup (.clientSends bytes) = some c') : Sound lookup c' := by
  obtain ⟨p, hp, rfl⟩ := Option.map_eq_some_iff.mp h
  obtain ⟨hopen, rfl⟩ := Pipe.send_some hp
  have hsend : c.uplink.send bytes = some _ := if_neg (Bool.eq_false_iff.mp hopen)
  have hup := hc.up.send hsend
  refine ⟨by rwa [uplink_up c]; rfl, hc.down, hc.early, hc.waiting,
    fun credential request hphase hno => ?_, hc.safe⟩
  exact hc.served credential request hphase (NoRequest.of_append hno)

theorem Sound.clientEnds (hc : Sound lookup c) (h : c.step lookup .clientEnds = some c') :
    Sound lookup c' := by
  obtain ⟨p, hp, rfl⟩ := Option.map_eq_some_iff.mp h
  obtain ⟨hopen, rfl⟩ := Pipe.finish_some hp
  have hup := hc.up.finish (if_neg (Bool.eq_false_iff.mp hopen))
  exact ⟨by rwa [uplink_up c]; rfl, hc.down, hc.early, hc.waiting, hc.served, hc.safe⟩

theorem Sound.withDown {p : Pipe} (hc : Sound lookup c) (hp : p.Intact) :
    Sound lookup { c with down := p } :=
  ⟨hc.up, hp, hc.early, hc.waiting, hc.served, hc.safe⟩

/-! ### The handshake -/

theorem settle_uplink (hphase : c.phase = .handshake) (r : Outcome (String × TrojanRequest)) :
    (c.settle r).uplink = c.uplink := by
  cases r <;> simp [settle, uplink, holding, hphase]

theorem settle_left (r : Outcome (String × TrojanRequest)) : Phase.left (c.settle r).phase ≤ 1 := by
  cases r <;> simp [settle, Phase.left]

theorem settle_sound (hphase : c.phase = .handshake) (hup : c.uplink.Intact) (hdown : c.down.Intact)
    (hearly : c.up.held = [] ∧ c.up.readDone = false ∧ c.up.shut = false)
    {r : Outcome (String × TrojanRequest)} (hpanic : r ≠ .panic)
    (hok : ∀ a, r = .ok a → ¬NoRequest lookup c.up.sent) : Sound lookup (c.settle r) := by
  rw [← settle_uplink hphase r] at hup
  cases r with
  | ok a => exact ⟨hup, hdown, fun _ => hearly, nofun, fun _ _ _ => hok a rfl, nofun⟩
  | err e => exact ⟨hup, hdown, fun _ => hearly, nofun, nofun, nofun⟩
  | panic => exact absurd rfl hpanic

theorem Sound.captured_front (hc : Sound lookup c) (hphase : c.phase = .handshake) :
    c.up.sent = c.captured ++ c.up.queued := by
  have hbytes : c.up.sent = c.up.sunk ++ (c.holding ++ c.up.queued) := hc.up.bytes
  rw [(hc.waiting hphase).1, List.nil_append] at hbytes
  rw [hbytes]
  simp only [holding, hphase]

theorem take_fills (hphase : c.phase = .handshake) (hearly : c.up.readDone = false) {n : ℕ} (hn : 0 < n)
    (hlen : n ≤ c.up.queued.length) :
    c.uplink.step (c.holding.length + n) (.fill n) = some (c.take n).uplink := by
  refine (Pipe.fill_pos (p := c.uplink) hearly hn hlen (Nat.le_refl _)).trans (congrArg some ?_)
  simp [take, uplink, holding, hphase]

theorem Sound.read {n : ℕ} (hc : Sound lookup c) (h : c.step lookup (.read n) = some c') :
    Sound lookup c' ∧ Moves c c' := by
  obtain ⟨hphase, h⟩ := Option.ite_none_right_eq_some.mp h
  have hstrict := readAuthenticatedTrojanRequest_strict lookup
  have hearly := hc.early (by rw [hphase]; nofun)
  obtain ⟨hsunk, room, hroom⟩ := hc.waiting hphase
  have hleft : Phase.left c.phase = 2 := by rw [hphase]; rfl
  rw [Connection.read, hroom] at h
  dsimp only at h
  split_ifs at h with hqueued hended hn
  · -- The stream ends inside the handshake, which is an error of the current read.
    obtain ⟨e, he⟩ := hstrict.atEnd hroom
    cases h
    refine ⟨settle_sound hphase hc.up hc.down hearly (by rw [he]; nofun) (by rw [he]; nofun), ?_⟩
    refine .phase (settle_uplink hphase _) ?_ ?_
    · rw [he]
      rfl
    · have := settle_left (c := c) ((readAuthenticatedTrojanRequest lookup).atEnd c.captured)
      omega
  · have hfills := take_fills hphase hearly.2.1 hn.1 hn.2.2
    have hup := hc.up.step hfills
    have hsent : c.up.sent = (c.take n).captured ++ (c.take n).up.queued := by
      rw [hc.captured_front hphase]
      show _ = c.captured ++ c.up.queued.take n ++ c.up.queued.drop n
      rw [List.append_assoc, List.take_append_drop]
    split at h
    · rename_i room' hroom'
      cases h
      exact ⟨⟨hup, hc.down, fun _ => hearly, fun _ => ⟨hsunk, room', hroom'⟩, hc.served, hc.safe⟩,
        .up _ _ hfills rfl (Nat.le_refl _)⟩
    · rename_i result rest hresult
      obtain ⟨hpanic, hok⟩ := hstrict.finished hresult
      cases h
      refine ⟨settle_sound (c := c.take n) hphase hup hc.down hearly hpanic fun a ha hno => ?_, ?_⟩
      · obtain ⟨front, hfront, hrequest⟩ := hok a ha
        refine hno front (rest ++ (c.take n).up.queued) ?_ hrequest
        rw [← List.append_assoc, ← hfront]
        exact hsent
      · refine .up _ _ (hfills.trans (congrArg some (settle_uplink (c := c.take n) hphase _).symm)) ?_ ?_
        · cases result <;> rfl
        · have := settle_left (c := c.take n) result
          omega

/-! ### The relay -/

theorem Sound.replay {n : ℕ} (hc : Sound lookup c) (h : c.step lookup (.replay n) = some c') :
    Sound lookup c' ∧ Moves c c' := by
  rw [step] at h
  split at h
  case h_2 => cases h
  rename_i left hphase
  obtain ⟨hn, h⟩ := Option.ite_none_right_eq_some.mp h
  cases h
  have hearly := hc.early (by rw [hphase]; nofun)
  have hheld : c.uplink.held = left := by simp only [uplink, holding, hphase]
  have hwrite : c.uplink.step bufferSize (.write n) = some (uplink ⟨.replaying (left.drop n), c.captured,
      { c.up with sunk := c.up.sunk ++ left.take n }, c.down⟩) := by
    refine (Pipe.write_pos hn.1 (hheld ▸ hn.2)).trans (congrArg some ?_)
    rw [hheld]
    rfl
  exact ⟨⟨hc.up.step hwrite, hc.down, fun _ => hearly, nofun, nofun, nofun⟩,
    .up _ _ hwrite rfl (by rw [hphase]; exact Nat.le_refl 1)⟩

theorem Sound.relay (hc : Sound lookup c) (h : c.step lookup .relay = some c') :
    Sound lookup c' ∧ Moves c c' := by
  obtain ⟨hphase, h⟩ := Option.ite_none_right_eq_some.mp h
  cases h
  have hearly := hc.early (by rw [hphase]; nofun)
  have hsame : uplink { c with phase := .relaying } = c.uplink := by
    simp only [uplink, holding, hphase, hearly.1]
  exact ⟨⟨hsame ▸ hc.up, hc.down, fun hne => absurd rfl hne, nofun, nofun, nofun⟩,
    .phase hsame rfl (by rw [hphase]; exact Nat.one_pos)⟩

theorem Sound.copyUp {s : CopyStep} (hc : Sound lookup c) (h : c.step lookup (.up s) = some c') :
    Sound lookup c' ∧ Moves c c' := by
  obtain ⟨hphase, h⟩ := Option.ite_none_right_eq_some.mp h
  obtain ⟨p, hp, hc'⟩ := Option.map_eq_some_iff.mp h
  have hsame : c'.phase = .relaying ∧ c'.uplink = p ∧ c'.down = c.down := by
    cases s <;> cases hc' <;> exact ⟨hphase, by simp only [uplink, holding, hphase], rfl⟩
  have hstep : c.uplink.step bufferSize s = some c'.uplink := by
    rw [hsame.2.1, ← hp]
    simp only [uplink, holding, hphase]
  refine ⟨⟨hc.up.step hstep, hsame.2.2 ▸ hc.down, fun hne => absurd hsame.1 hne, ?_, ?_, ?_⟩, ?_⟩
  · exact fun hne => nomatch hne.symm.trans hsame.1
  · exact fun _ _ hne => nomatch hne.symm.trans hsame.1
  · exact fun hne => nomatch hne.symm.trans hsame.1
  · exact .up _ _ hstep hsame.2.2 (by rw [hsame.1, hphase])

theorem Sound.copyDown {s : CopyStep} (hc : Sound lookup c) (h : c.step lookup (.down s) = some c') :
    Sound lookup c' ∧ Moves c c' := by
  obtain ⟨-, h⟩ := Option.ite_none_right_eq_some.mp h
  obtain ⟨p, hp, rfl⟩ := Option.map_eq_some_iff.mp h
  exact ⟨hc.withDown (hc.down.step hp), .down _ _ rfl hp (Nat.le_refl _)⟩

/-! ### Runs -/

theorem Sound.server (hc : Sound lookup c) (he : e.Server) (h : c.step lookup e = some c') :
    Sound lookup c' ∧ Moves c c' := by
  cases e with
  | read n => exact hc.read h
  | replay n => exact hc.replay h
  | relay => exact hc.relay h
  | up s => exact hc.copyUp h
  | down s => exact hc.copyDown h
  | _ => exact he.elim

theorem Sound.step (hc : Sound lookup c) (h : c.step lookup e = some c') : Sound lookup c' := by
  by_cases he : e.Server
  · exact (hc.server he h).1
  · cases e with
    | clientSends bytes => exact hc.clientSends h
    | clientEnds => exact hc.clientEnds h
    | fallbackSends bytes =>
      obtain ⟨-, h⟩ := Option.ite_none_right_eq_some.mp h
      obtain ⟨p, hp, rfl⟩ := Option.map_eq_some_iff.mp h
      exact hc.withDown (hc.down.send hp)
    | fallbackEnds =>
      obtain ⟨-, h⟩ := Option.ite_none_right_eq_some.mp h
      obtain ⟨p, hp, rfl⟩ := Option.map_eq_some_iff.mp h
      exact hc.withDown (hc.down.finish hp)
    | _ => exact absurd trivial he

theorem Moves.rank_lt (h : Moves c c') : c'.rank < c.rank := by
  unfold rank
  cases h with
  | up size s hstep hdown hleft =>
    have := Pipe.rank_step hstep
    rw [hdown]
    omega
  | down size s hup hstep hleft =>
    have := Pipe.rank_step hstep
    rw [hup]
    omega
  | phase hup hdown hleft =>
    rw [hup, hdown]
    omega

theorem Sound.bounded {more : List Event} (hc : Sound lookup c)
    (h : Steps (Connection.step lookup) always c more c') (hserver : ∀ e ∈ more, e.Server) :
    more.length ≤ c.rank := by
  induction h with
  | nil => exact Nat.zero_le _
  | cons _ hstep _ ih =>
    obtain ⟨hsound, hmoves⟩ := hc.server (hserver _ (List.mem_cons_self ..)) hstep
    have hrest := ih hsound fun e he => hserver e (List.mem_cons_of_mem _ he)
    have hless := hmoves.rank_lt
    rw [List.length_cons]
    omega

theorem Sound.delivered (hc : Sound lookup c) (hno : NoRequest lookup c.up.sent)
    (hdecided : c.Decided lookup) (hquiet : c.Quiet lookup) :
    c.up.sunk = c.up.sent ∧ c.down.sunk = c.down.sent ∧
      (c.up.ended = true → c.up.shut = true) ∧ (c.down.ended = true → c.down.shut = true) := by
  cases hphase : c.phase with
  | handshake =>
    -- a handshake that can do nothing waits for the client
    obtain ⟨-, room, hroom⟩ := hc.waiting hphase
    have hread : c.read lookup 1 = none := by
      have := hquiet (.read 1) trivial
      rwa [Connection.step, if_pos hphase] at this
    rw [Connection.read, hroom] at hread
    dsimp only at hread
    have hqueued : c.up.queued = [] := by
      by_contra hne
      rw [if_neg hne, if_pos ⟨Nat.one_pos, Fetch.waiting_pos hroom, List.length_pos_of_ne_nil hne⟩] at hread
      split at hread <;> cases hread
    have hsent := hc.captured_front hphase
    rw [hqueued, List.append_nil] at hsent
    rcases hdecided with hended | hsettled
    · rw [if_pos hqueued, if_pos hended] at hread
      cases hread
    · exact absurd (waiting_requestLen (hsent ▸ hroom)) (Nat.not_lt.mpr hsettled)
  | replaying left =>
    by_cases hleft : left = []
    · have := hquiet .relay trivial
      rw [Connection.step, if_pos (by rw [hphase, hleft])] at this
      cases this
    · have := hquiet (.replay 1) trivial
      rw [Connection.step, hphase] at this
      dsimp only at this
      rw [if_pos ⟨Nat.one_pos, List.length_pos_of_ne_nil hleft⟩] at this
      cases this
  | relaying =>
    have hup : ∀ s, c.up.step bufferSize s = none := fun s => by
      have := hquiet (.up s) trivial
      rw [Connection.step, if_pos hphase] at this
      exact Option.map_eq_none_iff.mp this
    have hdown : ∀ s, c.down.step bufferSize s = none := fun s => by
      have := hquiet (.down s) trivial
      rw [Connection.step, if_pos hphase] at this
      exact Option.map_eq_none_iff.mp this
    have hintact : c.up.Intact := by
      have := hc.up
      simpa only [uplink, holding, hphase] using this
    obtain ⟨hupSunk, hupShut⟩ := hintact.delivered (by decide) hup
    obtain ⟨hdownSunk, hdownShut⟩ := hc.down.delivered (by decide) hdown
    exact ⟨hupSunk, hdownSunk, hupShut, hdownShut⟩
  | served credential request => exact absurd hno (hc.served credential request hphase)
  | panicked => exact absurd hphase hc.safe

/-- A client whose stream does not open with a request talks to the fallback server: at every moment
each side has the front of what the other has sent. The server does stop, and where the stream has
ended or is long enough it stops only once it has passed on all of it. -/
theorem fallback_transparent (lookup : Bytes → Option String) (events : List Event) (c : Connection)
    (hrun : Steps (Connection.step lookup) always start events c) (hno : NoRequest lookup c.up.sent) :
    c.up.sunk <+: c.up.sent ∧ c.down.sunk <+: c.down.sent ∧
    (∃ bound, ∀ more c', Steps (Connection.step lookup) always c more c' → (∀ e ∈ more, e.Server) →
      more.length ≤ bound) ∧
    (c.Decided lookup → c.Quiet lookup → c.up.sunk = c.up.sent ∧ c.down.sunk = c.down.sent ∧
      (c.up.ended = true → c.up.shut = true) ∧ (c.down.ended = true → c.down.shut = true)) := by
  have hsound : Sound lookup c :=
    hrun.invariant (Sound lookup) (fun _ _ _ hs _ hstep => hs.step hstep) Sound.start
  refine ⟨hsound.up.sunk_front, hsound.down.sunk_front, ⟨c.rank, fun more c' => hsound.bounded⟩, ?_⟩
  exact hsound.delivered hno

def oneUser : Bytes → Option String := fun authHex =>
  if authHex = List.replicate 56 0x61 then some "user" else none

def malformed : Bytes := List.replicate 56 0x61 ++ [0x20, 0x20, 0x20]

def relayed : Connection :=
  ⟨.relaying, [0x20], ⟨malformed, [], true, [], true, malformed, true⟩,
    ⟨[1, 2], [], false, [], false, [1, 2], false⟩⟩

theorem malformed_relayed :
    ∃ events, Steps (Connection.step oneUser) always start events relayed ∧
      NoRequest oneUser relayed.up.sent ∧ relayed.Decided oneUser ∧ relayed.Quiet oneUser ∧
      relayed.up.sunk = relayed.up.sent ∧ relayed.down.sunk = relayed.down.sent := by
  have hrun : Steps (Connection.step oneUser) always start
      [.clientSends malformed, .read 20, .read 36, .clientEnds, .read 2, .replay 58, .relay, .fallbackSends [1, 2],
        .down (.fill 2), .up (.fill 1), .up (.fill 1), .down (.write 2), .up (.write 1), .up .shutdown] relayed :=
    replay_steps (by decide +kernel)
  have hno : NoRequest oneUser relayed.up.sent := by
    rintro front rest hsent ⟨hauth, -, -, -⟩
    have hlen := congrArg List.length hsent
    simp only [List.length_append, List.length_cons, hauth] at hlen
    change 59 = _ at hlen
    omega
  have hdecided : relayed.Decided oneUser := .inl rfl
  have hquiet : relayed.Quiet oneUser := by
    intro e he
    cases e with
    | up s | down s =>
      rw [Connection.step, if_pos (show relayed.phase = .relaying from rfl)]
      refine Option.map_eq_none_iff.mpr ?_
      cases s with
      | write n => exact Pipe.write_nil rfl
      | _ => rfl
    | read n => rfl
    | replay n => rfl
    | relay => rfl
    | _ => exact he.elim
  obtain ⟨-, -, -, hall⟩ := fallback_transparent oneUser _ relayed hrun hno
  obtain ⟨hup, hdown, -⟩ := hall hdecided hquiet
  exact ⟨_, hrun, hno, hdecided, hquiet, hup, hdown⟩

/-- `GET / HTTP/1.1` and an empty line. -/
def get : Bytes := [71, 69, 84, 32, 47, 32, 72, 84, 84, 80, 47, 49, 46, 49, 13, 10, 13, 10]

/-- Whatever follows these bytes they open no request; but the server waits for 38 more of them and
passes none on. -/
theorem short_stream_held :
    ∃ c, Steps (Connection.step oneUser) always start [.clientSends get, .read 18] c ∧
      (∀ more, NoRequest oneUser (c.up.sent ++ more)) ∧ c.Quiet oneUser ∧ c.up.sent = get ∧ c.up.sunk = [] := by
  refine ⟨⟨.handshake, get, ⟨get, [], false, [], false, [], false⟩, Pipe.start⟩, replay_steps (by decide +kernel),
    fun more front rest hsent hrequest => ?_, fun e he => ?_, rfl, rfl⟩
  · obtain ⟨hauth, hknown, -, -⟩ := hrequest
    rename_i authHex _ _
    -- the digest that core knows begins with another byte
    have hhead := congrArg List.head? hsent
    unfold oneUser at hknown
    split at hknown
    · rename_i hdigest
      rw [hdigest] at hhead
      cases hhead
    · cases hknown
  · cases e with
    | _ => first | exact he.elim | rfl

end Connection

end Fallback

end Aerion.Trojan
