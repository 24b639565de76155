import Aerion.Core.Lifecycle

/-!
# Who a credential belongs to

The three ways a client presents a credential (`src/core.rs`,
`src/vless.rs`): as a text, which `authenticate` trims; as the SHA-256 of the
password; and as the sixteen bytes of a UUID.
-/

namespace Aerion.Core

open Aerion.Net Lib

namespace CoreInner

variable (c : CoreInner)

def authenticateWithSource (credential : String) (sourceIp : Option IpAddr) :
    Except String ActiveSession × CoreInner :=
  match c.credentials.users.lookup (trim credential) with
  | some userId => c.openSessionWithSource userId sourceIp
  | none => (.error "core authentication failed", c)

def authenticate (credential : String) : Except String ActiveSession × CoreInner :=
  c.authenticateWithSource credential none

def authenticateFrom (credential : String) (source : IpAddr) :
    Except String ActiveSession × CoreInner :=
  c.authenticateWithSource credential (some source)

def knownCredentials : List String := c.credentials.users.keys

end CoreInner

/-! ### VLESS users -/

section

variable {passwordHash : String → Bytes} {users : List CoreUser} {c c' : CoreInner}

/-- The user's credentials carry no surrounding white space, and nobody else's is one of them with
white space around it. -/
structure Unpadded (users : List CoreUser) (id : String) : Prop where
  own : ∀ u ∈ users, u.id = id → trim u.credential = u.credential
  others : ∀ u ∈ users, ∀ v ∈ users, u.id = id → trim v.credential = u.credential → v.id = id

end

def CoreUser.limited (id credential : String) (limits : CoreUserLimits) : CoreUser :=
  { CoreUser.password id credential with
    uploadLimitBps := limits.uploadLimitBps
    downloadLimitBps := limits.downloadLimitBps
    quotaBytes := limits.quotaBytes
    maxOnlineSessions := limits.maxOnlineSessions
    maxOnlineIps := limits.maxOnlineIps }

@[simp] theorem CoreUser.limited_limits (id credential : String) (limits : CoreUserLimits) :
    (CoreUser.limited id credential limits).limits = limits := rfl

/-- One round of the loop over the user strings, on `seen` and `entries`. -/
def collectEntry (limits : CoreUserLimits) (acc : Finset String × List CoreUser)
    (credential : String) : Finset String × List CoreUser :=
  if credential = "" ∨ credential ∈ acc.1 then acc
  else (insert credential acc.1, acc.2 ++ [.limited credential credential limits])

def credentialEntries (password : String) (users : List String) (limits : CoreUserLimits) :
    List CoreUser :=
  let start := if password = "" then (∅, [])
    else ({password}, [CoreUser.limited "default" password limits])
  (users.foldl (collectEntry limits) start).2

def CoreInner.new (passwordHash : String → Bytes) (users : List CoreUser) : Outcome CoreInner :=
  match CoreInner.empty.replaceUsers passwordHash users with
  | (.ok (), c) => .ok c
  | (.err e, _) => .err e
  | (.panic, _) => .panic

/-- `from_credentials_with_limits`; its `expect` turns an error into a panic. -/
def CoreInner.fromCredentialsWithLimits (passwordHash : String → Bytes) (password : String)
    (users : List String) (limits : CoreUserLimits) : Outcome CoreInner :=
  match CoreInner.new passwordHash (credentialEntries password users limits) with
  | .ok c => .ok c
  | .err _ => .panic
  | .panic => .panic

/-- The entries that a part `visited` of the user strings has led to. -/
structure Collected (password : String) (limits : CoreUserLimits) (visited : List String)
    (acc : Finset String × List CoreUser) : Prop where
  seen : ∀ s, s ∈ acc.1 ↔ ∃ u ∈ acc.2, u.credential = s
  nodup : (acc.2.map (·.credential)).Nodup
  entries : ∀ u, u ∈ acc.2 ↔ password ≠ "" ∧ u = .limited "default" password limits ∨
    ∃ s ∈ visited, s ≠ "" ∧ s ≠ password ∧ u = .limited s s limits

section

variable {password : String} {limits : CoreUserLimits} {visited : List String}
  {acc : Finset String × List CoreUser}

theorem Collected.mem_seen (h : Collected password limits visited acc) {s : String} :
    s ∈ acc.1 ↔ s ≠ "" ∧ (s = password ∨ s ∈ visited) := by
  simp only [h.seen, h.entries]
  constructor
  · rintro ⟨u, ⟨hne, rfl⟩ | ⟨s', hs', hne, -, rfl⟩, rfl⟩
    · exact ⟨hne, .inl rfl⟩
    · exact ⟨hne, .inr hs'⟩
  · rintro ⟨hne, hs⟩
    by_cases hp : s = password
    · exact ⟨_, .inl ⟨hp ▸ hne, rfl⟩, hp.symm⟩
    · exact ⟨_, .inr ⟨s, hs.resolve_left hp, hne, hp, rfl⟩, rfl⟩

theorem Collected.step (h : Collected password limits visited acc) (s : String) :
    Collected password limits (visited ++ [s]) (collectEntry limits acc s) := by
  by_cases hskip : s = "" ∨ s ∈ acc.1
  · rw [collectEntry, if_pos hskip]
    refine ⟨h.seen, h.nodup, fun u => ?_⟩
    rw [h.entries]
    have hold := h.mem_seen (s := s)
    grind
  · rw [collectEntry, if_neg hskip]
    obtain ⟨hne, hnew⟩ := not_or.mp hskip
    have hpassword : s ≠ password := by
      have := h.mem_seen (s := s)
      grind
    refine ⟨fun s' => ?_, ?_, fun u => ?_⟩
    · simp only [Finset.mem_insert, h.seen, List.mem_append, List.mem_singleton, or_and_right,
        exists_or, exists_eq_left]
      exact or_comm.trans (or_congr_right eq_comm)
    · rw [List.map_append, List.map_singleton, List.nodup_append]
      refine ⟨h.nodup, by simp, fun a ha b hb heq => hnew ((h.seen s).mpr ?_)⟩
      rw [List.mem_singleton] at hb
      obtain ⟨u, hu, hcred⟩ := List.mem_map.mp ha
      exact ⟨u, hu, hcred.trans (heq.trans hb)⟩
    · simp only [List.mem_append, h.entries]
      grind

theorem Collected.foldl (h : Collected password limits visited acc) (users : List String) :
    Collected password limits (visited ++ users) (users.foldl (collectEntry limits) acc) := by
  induction users generalizing visited acc with
  | nil => simpa using h
  | cons s users ih => simpa using ih (h.step s)

theorem credentialEntries_collected (password : String) (users : List String)
    (limits : CoreUserLimits) :
    ∃ seen, Collected password limits users (seen, credentialEntries password users limits) := by
  have hstart : Collected password limits []
      (if password = "" then (∅, [])
        else ({password}, [CoreUser.limited "default" password limits])) := by
    split
    · constructor <;> simp [*]
    · constructor <;> simp [*, CoreUser.limited, CoreUser.password, eq_comm]
  exact ⟨_, hstart.foldl users⟩

/-- Every configured credential leads to an account, and no two to the same. -/
structure CoreInner.Separate (c : CoreInner) (password : String) (users : List String) : Prop where
  kept : ∀ s, s ≠ "" → s = password ∨ s ∈ users → s ∈ c.credentials.users
  apart : ∀ a b ida idb, c.credentials.users.lookup a = some ida →
    c.credentials.users.lookup b = some idb → a ≠ b →
    ida ≠ idb ∧ c.users.lookup ida ≠ c.users.lookup idb

theorem credentialEntries_accepted {users : List String} :
    Accepted (credentialEntries password users limits) ↔
      (password = "" ∨ isBlank password = false) ∧ ∀ u ∈ users, u = "" ∨ isBlank u = false := by
  obtain ⟨seen, h⟩ := credentialEntries_collected password users limits
  constructor
  · intro ha
    have hkept : ∀ s, s ≠ "" → s = password ∨ s ∈ users → isBlank s = false := by
      intro s hne hs
      obtain ⟨u, hu, rfl⟩ := (h.seen s).mp (h.mem_seen.mpr ⟨hne, hs⟩)
      exact (ha.blank u hu).2
    grind
  · rintro ⟨hp, hu⟩
    refine ⟨fun u hin => ?_, h.nodup, fun u hu v hv _ => ?_⟩
    · rcases (h.entries u).mp hin with ⟨hne, rfl⟩ | ⟨s, hs, hne, -, rfl⟩
      · exact ⟨(by decide : isBlank "default" = false), hp.resolve_left hne⟩
      · exact ⟨(hu s hs).resolve_left hne, (hu s hs).resolve_left hne⟩
    · have hlimits : ∀ w ∈ credentialEntries password users limits, w.limits = limits := by
        intro w hw
        rcases (h.entries w).mp hw with ⟨-, rfl⟩ | ⟨s, -, -, -, rfl⟩ <;> simp
      rw [hlimits u hu, hlimits v hv]

theorem CoreInner.new_cases (passwordHash : String → Bytes) (users : List CoreUser) :
    (Accepted users ∧ ∃ c, CoreInner.new passwordHash users = .ok c ∧ Replaced users .empty c) ∨
    (¬ Accepted users ∧ ∃ e, CoreInner.new passwordHash users = .err e) := by
  have hs : Steps (machine passwordHash).step always System.empty [] System.empty := .nil
  have hw := wellFormed passwordHash hs
  cases hplan : plan passwordHash users with
  | error e =>
    refine .inr ⟨fun ha => ?_, e, by simp [CoreInner.new, CoreInner.replaceUsers, hplan]⟩
    obtain ⟨p, hp⟩ := plan_isOk passwordHash ha
    rw [hplan] at hp
    cases hp
  | ok p =>
    have hp := plan_spec passwordHash hplan
    rcases replaceUsers_cases passwordHash CoreInner.empty users with ⟨e, he⟩ | ⟨c, hc⟩
    · simp [CoreInner.replaceUsers, hplan, hp.entries] at he
    · exact .inl ⟨hp.accepted, c, by simp [CoreInner.new, hc], (replaceUsers_change hw hc).replaced hw⟩

theorem Replaced.separate_iff {c : CoreInner} {users : List String}
    (hr : Replaced (credentialEntries password users limits) .empty c) :
    c.Separate password users ↔ ¬(password ≠ "" ∧ password ≠ "default" ∧ "default" ∈ users) := by
  obtain ⟨seen, h⟩ := credentialEntries_collected password users limits
  constructor
  · rintro hsep ⟨hne, hnd, hin⟩
    have hfirst := (hr.resolves password "default").mpr
      ⟨_, (h.entries _).mpr (.inl ⟨hne, rfl⟩), rfl, rfl⟩
    have hsecond := (hr.resolves "default" "default").mpr
      ⟨_, (h.entries _).mpr (.inr ⟨"default", hin, by decide, hnd.symm, rfl⟩), rfl, rfl⟩
    exact (hsep.apart _ _ _ _ hfirst hsecond hnd).1 rfl
  · intro hnot
    refine ⟨fun s hne hs => ?_, fun a b ida idb ha hb hab => ?_⟩
    · obtain ⟨u, hu, hcred⟩ := (h.seen s).mp (h.mem_seen.mpr ⟨hne, hs⟩)
      exact mem_iff_lookup.mpr ⟨u.id, (hr.resolves _ _).mpr ⟨u, hu, hcred, rfl⟩⟩
    · obtain ⟨u, hu, rfl, rfl⟩ := (hr.resolves _ _).mp ha
      obtain ⟨v, hv, rfl, rfl⟩ := (hr.resolves _ _).mp hb
      have hids : u.id ≠ v.id := by
        rcases (h.entries u).mp hu with ⟨hne, rfl⟩ | ⟨s, hs, hne, hsp, rfl⟩ <;>
          rcases (h.entries v).mp hv with ⟨hne', rfl⟩ | ⟨s', hs', hne', hsp', rfl⟩
        · exact absurd rfl hab
        · rintro rfl
          exact hnot ⟨hne, hsp'.symm, hs'⟩
        · rintro rfl
          exact hnot ⟨hne', hsp.symm, hs⟩
        · exact hab
      refine ⟨hids, fun hrefs => hids ?_⟩
      obtain ⟨ref, su, href, hsu, hname, -⟩ := hr.stored u hu
      obtain ⟨ref', sv, href', hsv, hname', -⟩ := hr.stored v hv
      rw [href, href'] at hrefs
      cases hrefs
      rw [hsu] at hsv
      cases hsv
      exact hname.symm.trans hname'

end

/-- The constructor returns separate accounts exactly when no kept text is
blank and no user string is the fixed id of the password's account. -/
theorem fromCredentials_separate_iff (passwordHash : String → Bytes) (password : String)
    (users : List String) (limits : CoreUserLimits) :
    (∃ c, CoreInner.fromCredentialsWithLimits passwordHash password users limits = .ok c ∧
      c.Separate password users) ↔
    (password = "" ∨ isBlank password = false) ∧ (∀ u ∈ users, u = "" ∨ isBlank u = false) ∧
      ¬(password ≠ "" ∧ password ≠ "default" ∧ "default" ∈ users) := by
  rw [← and_assoc, ← @credentialEntries_accepted password limits users]
  rcases CoreInner.new_cases passwordHash (credentialEntries password users limits) with
    ⟨ha, c, hc, hr⟩ | ⟨hna, e, he⟩
  · simp [CoreInner.fromCredentialsWithLimits, hc, ha, hr.separate_iff]
  · simp [CoreInner.fromCredentialsWithLimits, he, hna]

/-- A blank user string panics, and a user string `default` shares the account
of the password. -/
theorem fromCredentials_panics_or_merges :
    CoreInner.fromCredentialsWithLimits textHash "secret" [" "] .unlimited = .panic ∧
    ∃ c, CoreInner.fromCredentialsWithLimits textHash "secret" ["default"] .unlimited = .ok c ∧
      c.credentials.users.lookup "secret" = some "default" ∧
      c.credentials.users.lookup "default" = some "default" :=
  ⟨by decide, _, rfl, by decide, by decide⟩

end Aerion.Core
