import Aerion.Lib.Steps
import Aerion.Net.Octets
import Aerion.AnyTls.Padding

/-!
# Negotiating the padding scheme

A client announces the MD5 of its scheme when it connects; a server whose
scheme has another one sends its own text (`src/server.rs`), which the client
parses and keeps for its later connections (`src/client.rs`).
-/

namespace Aerion.AnyTls

open Lib Outcome Net

/-! ### The text of a scheme -/

/-- A scheme with the lines it was read from and their MD5. -/
structure TextScheme extends PaddingScheme where
  raw : List (List Char)
  md5 : String
  deriving DecidableEq

def joinLines (raw : List (List Char)) : String := String.ofList (['\n'].intercalate raw)

def TextScheme.rawText (s : TextScheme) : String := joinLines s.raw

/-- `PaddingScheme::from_text`, with all that it keeps. -/
def parseText (md5 : Bytes → Bytes) (text : String) : Outcome TextScheme := do
  let raw := trimmedLines text.toList
  let (stop, rules) ← raw.foldlM parseLine (none, [])
  let stop ← need stop "padding scheme missing stop"
  return { stop, rules, raw, md5 := hexEncode (md5 (hostBytes (joinLines raw))) }

theorem mem_trimmedLines {cs line : List Char} (h : line ∈ trimmedLines cs) :
    trimChars line = line ∧ line ≠ [] ∧ '\n' ∉ line := by
  obtain ⟨hmem, hne⟩ := List.mem_filter.mp h
  obtain ⟨piece, hpiece, rfl⟩ := List.mem_map.mp hmem
  refine ⟨trimChars_trimChars piece, of_decide_eq_true hne, fun hbreak => ?_⟩
  exact mem_splitOn hpiece ((trimChars_sublist piece).subset hbreak)

theorem trimmedLines_joinLines (cs : List Char) :
    trimmedLines (joinLines (trimmedLines cs)).toList = trimmedLines cs := by
  generalize hlines : trimmedLines cs = lines
  have hmem : ∀ line ∈ lines, trimChars line = line ∧ line ≠ [] ∧ '\n' ∉ line := fun line hline =>
    mem_trimmedLines (hlines ▸ hline)
  unfold joinLines
  rw [String.toList_ofList]
  by_cases hnil : lines = []
  · subst hnil
    decide
  · rw [trimmedLines, List.splitOn_intercalate _ (fun line hline => (hmem line hline).2.2) hnil,
      List.map_congr_left fun line hline => (hmem line hline).1, List.map_id', List.filter_eq_self]
    exact fun line hline => decide_eq_true (hmem line hline).2.1

theorem parseText_raw {md5 : Bytes → Bytes} {text : String} {scheme : TextScheme}
    (h : parseText md5 text = .ok scheme) : scheme.raw = trimmedLines text.toList := by
  obtain ⟨⟨stop, rules⟩, -, h⟩ := bind_ok.mp h
  obtain ⟨stop', -, h⟩ := bind_ok.mp h
  cases h
  rfl

theorem parseText_rawText {md5 : Bytes → Bytes} {text : String} {scheme : TextScheme}
    (h : parseText md5 text = .ok scheme) : parseText md5 scheme.rawText = .ok scheme := by
  have hlines : trimmedLines scheme.rawText.toList = trimmedLines text.toList := by
    rw [TextScheme.rawText, parseText_raw h, trimmedLines_joinLines]
  rw [← h, parseText, parseText, hlines]

/-! ### Settings -/

def clientName : String := "aerion/0.1.0"

/-- The text of `write_client_settings`. -/
def settingsLines (scheme : TextScheme) : List (List Char) :=
  ["v=2".toList, "client=".toList ++ clientName.toList, "padding-md5=".toList ++ scheme.md5.toList]

def settingsBytes (scheme : TextScheme) : Bytes := hostBytes (joinLines (settingsLines scheme))

def stripReturn (line : List Char) : List Char :=
  if line.getLast? = some '\r' then line.dropLast else line

/-- `str::lines`: a line break may have a carriage return before it. An empty last line, which is
none, has no effect on settings. -/
def textLines (cs : List Char) : List (List Char) :=
  (cs.splitOn '\n').dropLast.map stripReturn ++ (cs.splitOn '\n').getLast?.toList

/-- `String::from_utf8_lossy`, where `replaced` is the text of bytes that are not UTF-8. -/
def fromUtf8Lossy (replaced : Bytes → String) (bytes : Bytes) : String := (fromUtf8 bytes).getD (replaced bytes)

def parseSettings (replaced : Bytes → String) (bytes : Bytes) : List (List Char × List Char) :=
  (textLines (fromUtf8Lossy replaced bytes).toList).filterMap (splitOnce '=')

def setting (settings : List (List Char × List Char)) (key : String) : Option (List Char) :=
  (settings.reverse.find? (·.1 = key.toList)).map (·.2)

theorem digitChar_ne_break : ∀ n < 16, Nat.digitChar n ≠ '\n' := by decide

theorem hexEncode_no_break (bytes : Bytes) : '\n' ∉ (hexEncode bytes).toList := by
  rw [hexEncode, String.toList_ofList, List.mem_flatMap]
  rintro ⟨b, -, hb⟩
  have hlt := b.toNat_lt
  rcases List.mem_pair.mp hb with h | h
  · exact digitChar_ne_break _ (by omega) h.symm
  · exact digitChar_ne_break _ (by omega) h.symm

theorem parseText_md5 {md5 : Bytes → Bytes} {text : String} {scheme : TextScheme}
    (h : parseText md5 text = .ok scheme) : scheme.md5 = hexEncode (md5 (hostBytes scheme.rawText)) := by
  obtain ⟨⟨stop, rules⟩, -, h⟩ := bind_ok.mp h
  obtain ⟨stop', -, h⟩ := bind_ok.mp h
  cases h
  rfl

theorem setting_settingsBytes (replaced : Bytes → String) {scheme : TextScheme} (h : '\n' ∉ scheme.md5.toList) :
    setting (parseSettings replaced (settingsBytes scheme)) "padding-md5" = some scheme.md5.toList := by
  have hsplit : (joinLines (settingsLines scheme)).toList.splitOn '\n' = settingsLines scheme := by
    rw [joinLines, String.toList_ofList]
    refine List.splitOn_intercalate _ ?_ nofun
    intro line hline
    rcases List.mem_cons.mp hline with rfl | hline
    · decide
    · rcases List.mem_pair.mp hline with rfl | rfl
      · decide
      · rw [List.mem_append, not_or]
        exact ⟨by decide, h⟩
  rw [parseSettings, fromUtf8Lossy, settingsBytes, fromUtf8_hostBytes, Option.getD_some, textLines, hsplit]
  rfl

/-! ### Connections of one client -/

/-- `CMD_SETTINGS` at a server: the payload of the update that it sends, if it sends one. A text
that no frame can carry ends the session instead. -/
def serverUpdate (replaced : Bytes → String) (server : TextScheme) (settings : Bytes) : Option Bytes :=
  if setting (parseSettings replaced settings) "padding-md5" = some server.md5.toList then none
  else if (hostBytes server.rawText).length ≤ maxFramePayloadLen then some (hostBytes server.rawText)
  else none

/-- `CMD_UPDATE_PADDING_SCHEME` at a client. -/
def clientUpdate (md5 : Bytes → Bytes) (payload : Bytes) : Outcome TextScheme := do
  let raw ← need (fromUtf8 payload) "decode padding scheme update"
  context "parse server padding scheme update" (parseText md5 raw)

/-- A client, the settings of its connections in the order in which they were opened, the updates
that are on their way, and how many connections there were when an update was first applied. -/
structure Negotiation where
  shared : TextScheme
  announced : List Bytes
  updates : List (ℕ × Bytes)
  applied : Option ℕ

inductive Negotiation.Event where
  | connect
  | settings (connection : ℕ)
  | update (connection : ℕ) (payload : Bytes)

namespace Negotiation

def start (scheme : TextScheme) : Negotiation := ⟨scheme, [], [], none⟩

def apply (md5 : Bytes → Bytes) (payload : Bytes) (s : Negotiation) : Negotiation :=
  match clientUpdate md5 payload with
  | .ok scheme => { s with shared := scheme, applied := some (s.applied.getD s.announced.length) }
  | _ => s

def step (md5 : Bytes → Bytes) (replaced : Bytes → String) (server : TextScheme) (s : Negotiation) :
    Event → Option Negotiation
  | .connect => some { s with announced := s.announced ++ [settingsBytes s.shared] }
  | .settings connection => do
    let settings ← s.announced[connection]?
    return { s with updates := s.updates ++ ((serverUpdate replaced server settings).map (connection, ·)).toList }
  | .update connection payload =>
    if (connection, payload) ∈ s.updates then
      some ({ s with updates := s.updates.erase (connection, payload) }.apply md5 payload)
    else none

end Negotiation

section

variable {md5 : Bytes → Bytes} {replaced : Bytes → String} {server : TextScheme} {text : String}

theorem clientUpdate_rawText (h : parseText md5 text = .ok server) :
    clientUpdate md5 (hostBytes server.rawText) = .ok server := by
  rw [clientUpdate, fromUtf8_hostBytes]
  show context _ (parseText md5 server.rawText) = .ok server
  rw [parseText_rawText h]
  rfl

theorem serverUpdate_some {settings payload : Bytes} (h : serverUpdate replaced server settings = some payload) :
    payload = hostBytes server.rawText := by
  unfold serverUpdate at h
  split_ifs at h
  exact (Option.some.inj h).symm

theorem serverUpdate_own (h : parseText md5 text = .ok server) :
    serverUpdate replaced server (settingsBytes server) = none := by
  refine if_pos (setting_settingsBytes replaced ?_)
  rw [parseText_md5 h]
  exact hexEncode_no_break _

/-- Updates carry the text of the server; once one is applied the client has its scheme, and no
connection opened since then is sent another. -/
structure Negotiation.Settled (server : TextScheme) (s : Negotiation) : Prop where
  updates : ∀ update ∈ s.updates, update.1 < s.announced.length ∧ update.2 = hostBytes server.rawText
  shared : s.applied ≠ none → s.shared = server
  announced : ∀ n, s.applied = some n → n ≤ s.announced.length ∧
    ∀ k settings, n ≤ k → s.announced[k]? = some settings → settings = settingsBytes server
  quiet : ∀ n, s.applied = some n → ∀ update ∈ s.updates, update.1 < n

theorem Negotiation.settled_step (h : parseText md5 text = .ok server) {s s' : Negotiation} {event : Event}
    (hs : Settled server s) (hstep : step md5 replaced server s event = some s') : Settled server s' := by
  cases event with
  | connect =>
    cases hstep
    have hlength : (s.announced ++ [settingsBytes s.shared]).length = s.announced.length + 1 :=
      List.length_append
    refine ⟨fun update hmem => ?_, hs.shared, fun n hn => ?_, hs.quiet⟩
    · obtain ⟨hopen, hpayload⟩ := hs.updates update hmem
      exact ⟨by rw [hlength]; omega, hpayload⟩
    · obtain ⟨hle, hold⟩ := hs.announced n hn
      refine ⟨by rw [hlength]; omega, fun k settings hk hsettings => ?_⟩
      rw [List.getElem?_append] at hsettings
      split at hsettings
      · exact hold k settings hk hsettings
      · have hnew : settings ∈ [settingsBytes s.shared] := List.mem_of_getElem? hsettings
        rw [List.mem_singleton.mp hnew, hs.shared (by rw [hn]; nofun)]
  | settings connection =>
    obtain ⟨settings, hsettings, hstep⟩ := Option.bind_eq_some_iff.mp hstep
    cases hstep
    have hupdate : ∀ update ∈ ((serverUpdate replaced server settings).map (connection, ·)).toList,
        update.1 = connection ∧ serverUpdate replaced server settings = some update.2 := by
      intro update hmem
      obtain ⟨payload, hpayload, rfl⟩ := Option.map_eq_some_iff.mp (Option.mem_toList.mp hmem)
      exact ⟨rfl, hpayload⟩
    refine ⟨fun update hmem => ?_, hs.shared, hs.announced, fun n hn update hmem => ?_⟩
    · rcases List.mem_append.mp hmem with hmem | hmem
      · exact hs.updates update hmem
      · obtain ⟨hconnection, hsome⟩ := hupdate update hmem
        exact ⟨hconnection ▸ (List.getElem?_eq_some_iff.mp hsettings).1, serverUpdate_some hsome⟩
    · rcases List.mem_append.mp hmem with hmem | hmem
      · exact hs.quiet n hn update hmem
      · obtain ⟨hconnection, hsome⟩ := hupdate update hmem
        by_contra hge
        rw [(hs.announced n hn).2 connection settings (by omega) hsettings, serverUpdate_own h] at hsome
        cases hsome
  | update connection payload =>
    change (if (connection, payload) ∈ s.updates then _ else none) = some s' at hstep
    split_ifs at hstep with hmem
    cases hstep
    have hpayload : payload = hostBytes server.rawText := (hs.updates _ hmem).2
    subst hpayload
    rw [apply, clientUpdate_rawText h]
    have hrest : ∀ update ∈ s.updates.erase (connection, hostBytes server.rawText), update ∈ s.updates :=
      fun update => List.mem_of_mem_erase
    refine ⟨fun update hupdate => hs.updates update (hrest update hupdate), fun _ => rfl, fun n hn => ?_,
      fun n hn update hupdate => ?_⟩
    · cases happlied : s.applied with
      | some m =>
        rw [happlied] at hn
        exact hs.announced n (happlied.trans hn)
      | none =>
        rw [happlied] at hn
        cases hn
        refine ⟨Nat.le_refl _, fun k settings hk hsettings => ?_⟩
        exact absurd (List.getElem?_eq_some_iff.mp hsettings).1 (Nat.not_lt.mpr hk)
    · cases happlied : s.applied with
      | some m =>
        rw [happlied] at hn
        exact hs.quiet n (happlied.trans hn) update (hrest update hupdate)
      | none =>
        rw [happlied] at hn
        cases hn
        exact (hs.updates update (hrest update hupdate)).1

/-- A scheme is read back from its own text as it is. In every run of connections between a client
and a server, however their messages are delayed or lost, once the client has applied an update every
connection that it opens announces the server's MD5, and the server sends no update on it. -/
theorem negotiation_converges :
    (∀ (md5 : Bytes → Bytes) (text : String) (scheme : TextScheme), parseText md5 text = .ok scheme →
      parseText md5 scheme.rawText = .ok scheme) ∧
    ∀ (md5 : Bytes → Bytes) (replaced : Bytes → String) (serverText : String) (server client : TextScheme)
      (events : List Negotiation.Event) (s : Negotiation), parseText md5 serverText = .ok server →
      Steps (Negotiation.step md5 replaced server) always (.start client) events s →
      ∀ n, s.applied = some n →
        setting (parseSettings replaced (settingsBytes s.shared)) "padding-md5" = some server.md5.toList ∧
        (∀ k settings, n ≤ k → s.announced[k]? = some settings →
          setting (parseSettings replaced settings) "padding-md5" = some server.md5.toList ∧
          serverUpdate replaced server settings = none) ∧
        ∀ update ∈ s.updates, update.1 < n := by
  refine ⟨fun md5 text scheme h => parseText_rawText h, ?_⟩
  intro md5 replaced serverText server client events s h hrun n hn
  have hstart : Negotiation.Settled server (.start client) := ⟨nofun, fun h => absurd rfl h, nofun, nofun⟩
  have hs : Negotiation.Settled server s :=
    hrun.invariant _ (fun s event s' hs _ hstep => Negotiation.settled_step h hs hstep) hstart
  have hmd5 : setting (parseSettings replaced (settingsBytes server)) "padding-md5" = some server.md5.toList := by
    refine setting_settingsBytes replaced ?_
    rw [parseText_md5 h]
    exact hexEncode_no_break _
  refine ⟨by rw [hs.shared (by rw [hn]; nofun)]; exact hmd5, fun k settings hk hsettings => ?_, hs.quiet n hn⟩
  rw [(hs.announced n hn).2 k settings hk hsettings]
  exact ⟨hmd5, serverUpdate_own h⟩

/-- The second connection of a client that started with another scheme. -/
theorem second_connection_agrees :
    ∃ server client : TextScheme, parseText id "stop=1\n1=3-4" = .ok server ∧
      parseText id " stop=2 " = .ok client ∧
      ∃ s, Steps (Negotiation.step id (fun _ => "") server) always (.start client)
          [.connect, .settings 0, .update 0 (hostBytes "stop=1\n1=3-4"), .connect] s ∧
        s.announced.length = 2 ∧
        ∀ k settings, 1 ≤ k → s.announced[k]? = some settings →
          serverUpdate (fun _ => "") server settings = none := by
  have hreplay : ∃ server, parseText id "stop=1\n1=3-4" = .ok server ∧
      ∃ client, parseText id " stop=2 " = .ok client ∧
        (replay (Negotiation.step id (fun _ => "") server) (.start client)
          [.connect, .settings 0, .update 0 (hostBytes "stop=1\n1=3-4"), .connect]).any
          (fun s => s.announced.length = 2 ∧ s.applied = some 1) = true := by decide +kernel
  obtain ⟨server, hserver, client, hclient, hreplay⟩ := hreplay
  obtain ⟨s, hrun, hs⟩ := steps_of_replay hreplay
  obtain ⟨hlength, happlied⟩ := of_decide_eq_true hs
  obtain ⟨-, hquiet, -⟩ := negotiation_converges.2 id (fun _ => "") _ server client _ s hserver hrun 1 happlied
  exact ⟨server, client, hserver, hclient, s, hrun, hlength, fun k settings hk h => (hquiet k settings hk h).2⟩

end

end Aerion.AnyTls
