import Aerion.Core.Machine

/-!
# What one action does

`World.exec` read by what it changes: the user states (`exec_heap`), the
published maps, the events sent, the handles and the flags set. Every
invariant of the machine is proved from these lemmas, without going through
the actions again.
-/

namespace Aerion.Core

open Aerion.Net Lib

/-! ### User states -/

/-- The change an action can make to the user state behind a reference. -/
inductive UserStep (c : CoreInner) : Action → Nat → (UserState → UserState) → Prop
  | register : c.heap[ref]? = some u → u.admits limits (source.map normalizeIp) = .ok () →
      UserStep c (.insertSession ref sid limits via source) ref
        (·.register sid (source.map normalizeIp))
  | unregister : UserStep c (.closeSession ref sid) ref (·.unregister sid)
  | clear : UserStep c (.takeSessions ref) ref UserState.clearSessions
  | limits : UserStep c (.writeLimits ref limits) ref (·.writeLimits limits)
  | rate : UserStep c (.setRate direction ref n) ref (·.setRate direction n)
  | credentials : UserStep c (.writeCredentials ref s) ref (·.setCredentials s)
  | reserve : c.heap[session.user]? = some u → u.reserves bytes = true →
      UserStep c (.reserve direction session bytes) session.user (·.reserve bytes)
  | upload : UserStep c (.addUpload session bytes) session.user (·.addUpload bytes)
  | download : UserStep c (.addDownload session bytes upload) session.user (·.addDownload bytes)

/-- The new states of a replacement: nobody's yet. -/
def Fresh (u : UserState) : Prop :=
  u.sessions = ∅ ∧ u.online = 0 ∧ u.onlineIps = 0 ∧ u.upload = 0 ∧ u.download = 0 ∧ u.total = 0

theorem allocate_heap (current : Map String Nat) (entries : List (CoreUser × Finset String))
    (acc : List UserState × Map String Nat) : ∃ new : List UserState,
    (entries.foldl (allocate current) acc).1 = acc.1 ++ new ∧ ∀ u ∈ new, Fresh u := by
  induction entries generalizing acc with
  | nil => exact ⟨[], by simp, by simp⟩
  | cons e entries ih =>
    obtain ⟨new, hnew, hfresh⟩ := ih (allocate current acc e)
    rw [List.foldl_cons, hnew]
    unfold allocate
    split
    · exact ⟨new, rfl, hfresh⟩
    · refine ⟨UserState.new e.1 e.2 :: new, by simp, ?_⟩
      intro u hu
      rcases List.mem_cons.mp hu with rfl | hu
      · exact ⟨rfl, rfl, rfl, rfl, rfl, rfl⟩
      · exact hfresh u hu

theorem insertSession_cases (c : CoreInner) (ref sid : Nat) (limits : CoreUserLimits)
    (source : Option IpAddr) :
    (∃ e, c.insertSession ref sid limits source = (.error e, c)) ∨
    ∃ u, c.heap[ref]? = some u ∧ u.admits limits (source.map normalizeIp) = .ok () ∧
      c.insertSession ref sid limits source = (.ok ⟨ref, sid⟩,
        (c.modifyUser ref (·.register sid (source.map normalizeIp))).send
          (.sessionOpened u.id sid (source.map normalizeIp))) := by
  unfold CoreInner.insertSession
  split
  · exact .inl ⟨_, rfl⟩
  · rename_i u hu
    dsimp only
    split
    · exact .inl ⟨_, rfl⟩
    · rename_i hadm
      exact .inr ⟨u, hu, hadm, rfl⟩

theorem insertSession_admitted {c : CoreInner} {ref : Nat} {u : UserState} {limits : CoreUserLimits}
    {source : Option IpAddr} (hu : c.heap[ref]? = some u)
    (h : u.admits limits (source.map normalizeIp) = .ok ()) (sid : Nat) :
    c.insertSession ref sid limits source = (.ok ⟨ref, sid⟩,
      (c.modifyUser ref (·.register sid (source.map normalizeIp))).send
        (.sessionOpened u.id sid (source.map normalizeIp))) := by
  simp [CoreInner.insertSession, hu, h]

theorem closeSession_heap (c : CoreInner) (ref sid : Nat) :
    (c.closeSession ref sid).heap = c.heap.modify ref (·.unregister sid) := by
  unfold CoreInner.closeSession
  split
  · rename_i h
    rw [List.modify_eq_self (List.getElem?_eq_none_iff.mp h)]
  · dsimp only
    split <;> rfl

namespace World

variable (w : World) (call : Call)

theorem exec_insertSession (ref sid : Nat) (limits : CoreUserLimits) (via : Option String)
    (source : Option IpAddr) :
    (∃ e, w.exec call (.insertSession ref sid limits via source) = w.fail e) ∨
    ∃ u, w.core.heap[ref]? = some u ∧ u.admits limits (source.map normalizeIp) = .ok () ∧
      w.exec call (.insertSession ref sid limits via source) =
        World.reply { w with
          core := (w.core.modifyUser ref (·.register sid (source.map normalizeIp))).send
            (.sessionOpened u.id sid (source.map normalizeIp))
          handles := w.handles ++ [⟨⟨ref, sid⟩, via⟩] } (.session ⟨ref, sid⟩) := by
  rcases insertSession_cases w.core ref sid limits source with ⟨e, h⟩ | ⟨u, hu, hadm, h⟩
  · exact .inl ⟨e, by simp only [exec, h]⟩
  · exact .inr ⟨u, hu, hadm, by simp only [exec, h]⟩

theorem exec_reserve (direction : TrafficDirection) (session : ActiveSession) (bytes : Nat) :
    (∃ e, w.exec call (.reserve direction session bytes) = w.fail e) ∨
    ∃ u, w.core.heap[session.user]? = some u ∧ u.reserves bytes = true ∧
      w.exec call (.reserve direction session bytes) = w.onUser session.user (·.reserve bytes)
        (match direction with
          | .upload => [[.addUpload session bytes]]
          | .download => [[.loadUpload session bytes]]) := by
  simp only [exec]
  split
  · rename_i u hu
    split
    · exact .inr ⟨u, hu, ‹_›, rfl⟩
    · exact .inl ⟨_, rfl⟩
  · exact .inl ⟨_, rfl⟩

theorem exec_heap (a : Action) :
    (w.exec call a).shared.core.heap = w.core.heap ∨
    (∃ ref f, UserStep w.core a ref f ∧ (w.exec call a).shared.core.heap = w.core.heap.modify ref f) ∨
    ∃ p entries new, a = .readUsers p entries ∧ (∀ u ∈ new, Fresh u) ∧
      (entries.foldl (allocate w.core.users) (w.core.heap, ∅)).1 = w.core.heap ++ new ∧
      (w.exec call a).shared.core.heap = w.core.heap ++ new := by
  cases a with
  | insertSession ref sid limits via source =>
    rcases w.exec_insertSession call ref sid limits via source with ⟨e, h⟩ | ⟨u, hu, hadm, h⟩
    · exact .inl (by rw [h]; rfl)
    · exact .inr (.inl ⟨ref, _, .register hu hadm, by rw [h]; rfl⟩)
  | closeSession ref sid => exact .inr (.inl ⟨ref, _, .unregister, closeSession_heap _ _ _⟩)
  | takeSessions ref =>
    simp only [exec]
    split
    · exact .inr (.inl ⟨ref, _, .clear, rfl⟩)
    · exact .inl rfl
  | writeLimits ref limits => exact .inr (.inl ⟨ref, _, .limits, rfl⟩)
  | setRate direction ref rate => exact .inr (.inl ⟨ref, _, .rate, rfl⟩)
  | writeCredentials ref s => exact .inr (.inl ⟨ref, _, .credentials, rfl⟩)
  | reserve direction session bytes =>
    rcases w.exec_reserve call direction session bytes with ⟨e, h⟩ | ⟨u, hu, hres, h⟩
    · exact .inl (by rw [h]; rfl)
    · exact .inr (.inl ⟨session.user, _, .reserve hu hres, by rw [h]; rfl⟩)
  | addUpload session bytes => exact .inr (.inl ⟨session.user, _, .upload, rfl⟩)
  | addDownload session bytes upload => exact .inr (.inl ⟨session.user, _, .download, rfl⟩)
  | readUsers p entries =>
    obtain ⟨new, hnew, hfresh⟩ := allocate_heap w.core.users entries (w.core.heap, ∅)
    exact .inr (.inr ⟨p, entries, new, rfl, hfresh, hnew, hnew⟩)
  | hashLookup | credentialLookup | userLookup | cancelLookup | limitsLookup | dispatch | ret
  | checkActive | recheckActive =>
    left
    simp only [exec, lookupUser, ifActive]
    split <;> rfl
  | drawSessionId | readLimits | cancelAllLookup | notifyCancelled | trigger | compareCredentials
  | publishUsers | publishCredentials | sendReplaced | waitLimiter | loadDownload | loadUpload
  | sendTraffic | subscribe | hangUp => exact .inl rfl

end World

/-! ### Everything but the user states -/

/-- The actions that change more than user states and the bus's subscribers. -/
def Action.loud : Action → Bool
  | .drawSessionId .. | .insertSession .. | .closeSession .. | .notifyCancelled .. | .trigger ..
  | .publishUsers .. | .publishCredentials .. | .sendReplaced .. | .sendTraffic .. | .ret .. => true
  | _ => false

structure Quiet (w w' : World) : Prop where
  users : w'.core.users = w.core.users
  credentials : w'.core.credentials = w.core.credentials
  sessionSeq : w'.core.sessionSeq = w.core.sessionSeq
  cancelled : w'.core.cancelled = w.core.cancelled
  trace : w'.core.bus.trace = w.core.bus.trace
  handles : w'.handles = w.handles
  installed : w'.installed = w.installed

theorem Quiet.refl (w : World) : Quiet w w := ⟨rfl, rfl, rfl, rfl, rfl, rfl, rfl⟩

theorem World.exec_quiet (w : World) (call : Call) {a : Action} (ha : a.loud = false) :
    Quiet w (w.exec call a).shared := by
  cases a with
  | hashLookup | credentialLookup | dispatch =>
    simp only [exec]
    split <;> exact .refl w
  | userLookup | cancelLookup | limitsLookup =>
    simp only [exec, lookupUser]
    split <;> exact .refl w
  | checkActive | recheckActive =>
    simp only [exec, ifActive]
    split <;> exact .refl w
  | takeSessions =>
    simp only [exec]
    split
    · exact ⟨rfl, rfl, rfl, rfl, rfl, rfl, rfl⟩
    · exact .refl w
  | reserve =>
    simp only [exec]
    split
    · split
      · exact ⟨rfl, rfl, rfl, rfl, rfl, rfl, rfl⟩
      · exact .refl w
    · exact .refl w
  | drawSessionId | insertSession | closeSession | notifyCancelled | trigger | publishUsers
  | publishCredentials | sendReplaced | sendTraffic | ret => cases ha
  | _ => exact ⟨rfl, rfl, rfl, rfl, rfl, rfl, rfl⟩

theorem World.exec_users (w : World) (call : Call) (a : Action) :
    (w.exec call a).shared.core.users = w.core.users ∨
      ∃ userMap, a = .publishUsers userMap ∧ (w.exec call a).shared.core.users = userMap := by
  by_cases ha : a.loud = false
  · exact .inl (w.exec_quiet call ha).users
  cases a with
  | publishUsers userMap => exact .inr ⟨userMap, rfl, rfl⟩
  | insertSession ref sid limits via source =>
    rcases w.exec_insertSession call ref sid limits via source with ⟨e, h⟩ | ⟨u, -, -, h⟩ <;>
    · rw [h]
      exact .inl rfl
  | closeSession ref sid =>
    left
    simp only [exec, proceed, withCore, CoreInner.closeSession]
    split
    · rfl
    · split <;> rfl
  | ret r =>
    simp only [exec]
    split <;> exact .inl rfl
  | drawSessionId | notifyCancelled | trigger | publishCredentials | sendReplaced | sendTraffic =>
    exact .inl rfl
  | _ => exact absurd rfl ha

/-! ### How a call starts -/

section
variable (passwordHash : String → Bytes)

inductive Begins : Call → Action → Prop
  | authenticate : Begins (.authenticate credential source) (.credentialLookup credential source)
  | authenticatePasswordHash : Begins (.authenticatePasswordHash digest ip)
      (.hashLookup digest (some ip))
  | openSession : Begins (.openSession userId source) (.userLookup userId none source)
  | dropSession : Begins (.dropSession session) (.closeSession session.user session.sessionId)
  | cancelUserSessions : Begins (.cancelUserSessions userId) (.cancelLookup userId)
  | cancelAllSessions : Begins .cancelAllSessions .cancelAllLookup
  | setLimits : Begins (.setLimits userId limits) (.limitsLookup userId limits)
  | refused : plan passwordHash users = .error e → Begins (.replaceUsers users) (.ret (.failed e))
  | replaceUsers : plan passwordHash users = .ok p → p.entries = some entries →
      Begins (.replaceUsers users) (.readUsers p entries)
  | recordNothing : Begins (.record direction session 0) (.ret .done)
  | record : Begins (.record direction session bytes) (.checkActive direction session bytes)
  | subscribe : Begins .subscribe .subscribe
  | hangUp : Begins (.hangUp subscriber) (.hangUp subscriber)

theorem start_begins {w w' : World} {call : Call} {todo : List (List Action)}
    (h : w.start passwordHash call = some (w', todo)) :
    ∃ z, todo = [[z]] ∧ Begins passwordHash call z ∧ w'.core = w.core ∧
      w'.installed = w.installed ∧
      ((∀ session, call ≠ .dropSession session) ∧ w' = w ∨
        ∃ session, call = .dropSession session ∧ session ∈ w.handles.map (·.session) ∧
          w' = { w with handles := w.handles.filter (·.session ≠ session) }) := by
  cases call with
  | replaceUsers users =>
    simp only [World.start] at h
    split at h
    · cases h
      exact ⟨_, rfl, .refused ‹_›, rfl, rfl, .inl ⟨by simp, rfl⟩⟩
    · rename_i p hp
      rw [(plan_spec passwordHash hp).entries] at h
      cases h
      exact ⟨_, rfl, .replaceUsers hp ((plan_spec passwordHash hp).entries passwordHash), rfl, rfl,
        .inl ⟨by simp, rfl⟩⟩
  | dropSession session =>
    simp only [World.start] at h
    split at h
    · cases h
      exact ⟨_, rfl, .dropSession, rfl, rfl, .inr ⟨session, rfl, ‹_›, rfl⟩⟩
    · cases h
  | record direction session bytes =>
    simp only [World.start] at h
    split at h
    · cases h
      refine ⟨_, rfl, ?_, rfl, rfl, .inl ⟨by simp, rfl⟩⟩
      split
      · rename_i hb
        subst hb
        exact .recordNothing
      · exact .record
    · cases h
  | _ =>
    cases h
    exact ⟨_, rfl, by constructor, rfl, rfl, .inl ⟨by simp, rfl⟩⟩

theorem step_cases {s s' : System} {l : Move Call} (h : (machine passwordHash).step s l = some s') :
    (∃ c z w, l = .call c ∧ Begins passwordHash c z ∧ w.core = s.shared.core ∧
      w.installed = s.shared.installed ∧
      ((∀ session, c ≠ .dropSession session) ∧ w = s.shared ∨ ∃ session, c = .dropSession session ∧
        session ∈ s.shared.handles.map (·.session) ∧
        w = { s.shared with handles := s.shared.handles.filter (·.session ≠ session) }) ∧
      s' = ⟨w, s.tasks ++ [⟨c, [[z]], none⟩]⟩) ∨
    (∃ i k t a rest, l = .run i k ∧ s.tasks[i]? = some t ∧ pick t.todo k = some (a, rest) ∧
      s' = ⟨(s.shared.exec t.call a).shared, s.tasks.set i (t.after (s.shared.exec t.call a) rest)⟩) ∨
    (∃ i t direction session bytes, l = .abandon i ∧ s.tasks[i]? = some t ∧
      t.todo = [[.waitLimiter direction session bytes]] ∧
      s' = ⟨s.shared, s.tasks.set i { t with todo := [] }⟩) := by
  rcases (machine passwordHash).step_cases h with ⟨c, w, todo, rfl, hst, rfl⟩ |
    ⟨i, k, t, a, rest, rfl, ht, hp, rfl⟩ | ⟨i, t, a, rfl, ht, htodo, haw, rfl⟩
  · obtain ⟨z, rfl, hz, hcore, hinst, hw⟩ := start_begins passwordHash hst
    exact .inl ⟨c, z, w, rfl, hz, hcore, hinst, hw, rfl⟩
  · exact .inr (.inl ⟨i, k, t, a, rest, rfl, ht, hp, rfl⟩)
  · cases a with
    | waitLimiter direction session bytes =>
      exact .inr (.inr ⟨i, t, direction, session, bytes, rfl, ht, htodo, rfl⟩)
    | _ => cases haw

end

/-! ### What a task does next -/

def Action.fallible : Action → Bool
  | .hashLookup .. | .credentialLookup .. | .userLookup .. | .insertSession .. | .cancelLookup ..
  | .limitsLookup .. | .checkActive .. | .recheckActive .. | .reserve .. => true
  | _ => false

/-- The part of an update that stores limits, of `set_limits` and `apply_user_update`. -/
def limitWrites (ref : Nat) (limits : CoreUserLimits) : List Action :=
  [.writeLimits ref limits, .setRate .upload ref (rateValue limits.uploadLimitBps),
    .setRate .download ref (rateValue limits.downloadLimitBps)]

theorem mem_updates {current : Map String Nat} {entries : List (CoreUser × Finset String)}
    {a : Action} : a ∈ updates current entries ↔ ∃ e ∈ entries, ∃ ref,
      current.lookup e.1.id = some ref ∧ a = .compareCredentials ref e.1 e.2 := by
  simp only [updates, List.mem_filterMap, Option.map_eq_some_iff]
  constructor
  · rintro ⟨e, he, ref, href, rfl⟩
    exact ⟨e, he, ref, href, rfl⟩
  · rintro ⟨e, he, ref, href, rfl⟩
    exact ⟨e, he, ref, href, rfl⟩

theorem mem_sweeps {current : Map String Nat} {p : Plan} {a : Action} : a ∈ sweeps current p ↔
    ∃ e ∈ CoreInner.removedUsers current p, a = .takeSessions e.2 := by
  simp only [sweeps, List.mem_map]
  constructor
  · rintro ⟨e, he, rfl⟩
    exact ⟨e, he, rfl⟩
  · rintro ⟨e, he, rfl⟩
    exact ⟨e, he, rfl⟩

theorem World.mem_readUsers {w : World} (call : Call) {p : Plan}
    {entries : List (CoreUser × Finset String)} {a : Action} :
    a ∈ (w.exec call (.readUsers p entries)).todo.flatten ↔
      a ∈ updates w.core.users entries ∨ a ∈ sweeps w.core.users p ∨
      a = .publishUsers (entries.foldl (allocate w.core.users) (w.core.heap, ∅)).2 ∨
      a = .publishCredentials ⟨p.credentialMap, p.passwordHashes⟩ ∨
      a = .sendReplaced p.eventUserIds ∨ a = .ret .done := by
  simp [exec, proceed]

/-- The actions an action puts in front of its task, and the reply it gives. -/
inductive Next (w : World) : Call → Action → List Action → Option Reply → Prop
  | failed : a.fallible = true → Next w call a [] (some (.failed message))
  | hashLookup : w.core.credentials.passwordHashes.lookup digest = some credential →
      Next w call (.hashLookup digest source) [.credentialLookup credential source] none
  | credentialLookup : w.core.credentials.users.lookup (trim credential) = some userId →
      Next w call (.credentialLookup credential source)
        [.userLookup userId (some (trim credential)) source] none
  | userLookup : w.core.users.lookup userId = some ref →
      Next w call (.userLookup userId via source) [.drawSessionId ref via source] none
  | drawSessionId : Next w call (.drawSessionId ref via source)
      [.readLimits ref (w.core.sessionSeq + 1) via source] none
  | readLimits : Next w call (.readLimits ref sid via source)
      [.insertSession ref sid (((w.user ref).map UserState.limits).getD .unlimited) via source] none
  | insertSession : Next w call (.insertSession ref sid limits via source) []
      (some (.session ⟨ref, sid⟩))
  | closeSession : Next w call (.closeSession ref sid) [.ret .done] none
  | cancelLookup : w.core.users.lookup userId = some ref →
      Next w call (.cancelLookup userId) [.takeSessions ref, .ret .done] none
  | cancelAllLookup : Next w call .cancelAllLookup
      ((w.core.users.entries.map fun e => .takeSessions e.2) ++ [.ret .done]) none
  | takeSessions : w.user ref = some u → Next w call (.takeSessions ref)
      (u.sessions.entries.map fun e => .notifyCancelled u.id e.1 e.2.sourceIp) none
  | takeNothing : w.user ref = none → Next w call (.takeSessions ref) [] none
  | notifyCancelled : Next w call (.notifyCancelled userId sid sourceIp) [.trigger sid] none
  | trigger : Next w call (.trigger sid) [] none
  | limitsLookup : w.core.users.lookup userId = some ref →
      Next w call (.limitsLookup userId limits) (limitWrites ref limits ++ [.ret .done]) none
  | writeLimits : Next w call (.writeLimits ref limits) [] none
  | setRate : Next w call (.setRate direction ref rate) [] none
  | readUsers : Next w call (.readUsers p entries)
      (updates w.core.users entries ++ sweeps w.core.users p ++
        [.publishUsers (entries.foldl (allocate w.core.users) (w.core.heap, ∅)).2,
          .publishCredentials ⟨p.credentialMap, p.passwordHashes⟩, .sendReplaced p.eventUserIds,
          .ret .done]) none
  | rotate : (w.user ref).map (·.credentials) ≠ some credentials →
      Next w call (.compareCredentials ref user credentials)
        (.takeSessions ref :: .writeCredentials ref credentials :: limitWrites ref user.limits) none
  | keep : (w.user ref).map (·.credentials) = some credentials →
      Next w call (.compareCredentials ref user credentials) (limitWrites ref user.limits) none
  | writeCredentials : Next w call (.writeCredentials ref credentials) [] none
  | publishUsers : Next w call (.publishUsers userMap) [] none
  | publishCredentials : Next w call (.publishCredentials newIndex) [] none
  | sendReplaced : Next w call (.sendReplaced userIds) [] none
  | checkActive : Next w call (.checkActive direction session bytes)
      [.waitLimiter direction session bytes] none
  | waitLimiter : Next w call (.waitLimiter direction session bytes)
      [.recheckActive direction session bytes] none
  | recheckActive : Next w call (.recheckActive direction session bytes)
      [.reserve direction session bytes] none
  | reserveUpload : w.user session.user = some u → u.reserves bytes = true →
      Next w call (.reserve .upload session bytes) [.addUpload session bytes] none
  | reserveDownload : w.user session.user = some u → u.reserves bytes = true →
      Next w call (.reserve .download session bytes) [.loadUpload session bytes] none
  | addUpload : Next w call (.addUpload session bytes) [.loadDownload session bytes upload] none
  | loadDownload : Next w call (.loadDownload session bytes upload) [.dispatch traffic] none
  | loadUpload : Next w call (.loadUpload session bytes) [.addDownload session bytes upload] none
  | addDownload : Next w call (.addDownload session bytes upload) [.dispatch traffic] none
  | unheard : Next w call (.dispatch traffic) [.ret .done] none
  | heard : Next w call (.dispatch traffic) [.sendTraffic traffic, .ret .done] none
  | sendTraffic : Next w call (.sendTraffic traffic) [] none
  | subscribe : Next w call .subscribe [] (some .done)
  | hangUp : Next w call (.hangUp subscriber) [] (some .done)
  | ret : Next w call (.ret r) [] (some r)

theorem World.exec_next (w : World) (call : Call) (a : Action) :
    Next w call a (w.exec call a).todo.flatten (w.exec call a).reply := by
  cases a with
  | hashLookup hash source =>
    simp only [exec]
    split
    · exact .hashLookup ‹_›
    · exact .failed rfl
  | credentialLookup credential source =>
    simp only [exec]
    split
    · exact .credentialLookup ‹_›
    · exact .failed rfl
  | userLookup userId via source =>
    simp only [exec, lookupUser]
    split
    · exact .userLookup ‹_›
    · exact .failed rfl
  | insertSession ref sid limits via source =>
    rcases w.exec_insertSession call ref sid limits via source with ⟨e, h⟩ | ⟨u, -, -, h⟩
    · rw [h]; exact .failed rfl
    · rw [h]; exact .insertSession
  | cancelLookup userId =>
    simp only [exec, lookupUser]
    split
    · exact .cancelLookup ‹_›
    · exact .failed rfl
  | cancelAllLookup => exact .cancelAllLookup
  | takeSessions ref =>
    simp only [exec]
    split
    · rename_i u hu
      simpa [onUser, proceed] using Next.takeSessions hu
    · exact .takeNothing ‹_›
  | limitsLookup userId limits =>
    simp only [exec, lookupUser]
    split
    · exact .limitsLookup ‹_›
    · exact .failed rfl
  | readUsers p entries => simpa [exec, proceed] using Next.readUsers
  | compareCredentials ref user credentials =>
    by_cases h : (w.user ref).map (·.credentials) = some credentials
    · have := @Next.keep w ref credentials call user h
      simpa [exec, proceed, h, limitWrites] using this
    · have := @Next.rotate w ref credentials call user h
      simpa [exec, proceed, h, limitWrites] using this
  | checkActive direction session bytes =>
    simp only [exec, ifActive]
    split
    · exact .failed rfl
    · exact .checkActive
  | recheckActive direction session bytes =>
    simp only [exec, ifActive]
    split
    · exact .failed rfl
    · exact .recheckActive
  | reserve direction session bytes =>
    rcases w.exec_reserve call direction session bytes with ⟨e, h⟩ | ⟨u, hu, hres, h⟩
    · rw [h]; exact .failed rfl
    · rw [h]
      cases direction with
      | upload => exact .reserveUpload hu hres
      | download => exact .reserveDownload hu hres
  | dispatch traffic =>
    simp only [exec]
    split
    · exact .unheard
    · exact .heard
  | ret r =>
    simp only [exec]
    split <;> exact .ret
  | drawSessionId => exact .drawSessionId
  | readLimits => exact .readLimits
  | closeSession => exact .closeSession
  | notifyCancelled => exact .notifyCancelled
  | trigger => exact .trigger
  | writeLimits => exact .writeLimits
  | setRate => exact .setRate
  | writeCredentials => exact .writeCredentials
  | publishUsers => exact .publishUsers
  | publishCredentials => exact .publishCredentials
  | sendReplaced => exact .sendReplaced
  | waitLimiter => exact .waitLimiter
  | addUpload => exact .addUpload
  | loadDownload => exact .loadDownload
  | loadUpload => exact .loadUpload
  | addDownload => exact .addDownload
  | sendTraffic => exact .sendTraffic
  | subscribe => exact .subscribe
  | hangUp => exact .hangUp

inductive Spawns : Action → Action → Prop
  | hashLookup : Spawns (.hashLookup digest source) (.credentialLookup credential source)
  | credentialLookup : Spawns (.credentialLookup credential source)
      (.userLookup userId (some (trim credential)) source)
  | userLookup : Spawns (.userLookup userId via source) (.drawSessionId ref via source)
  | drawSessionId : Spawns (.drawSessionId ref via source) (.readLimits ref sid via source)
  | readLimits : Spawns (.readLimits ref sid via source) (.insertSession ref sid limits via source)
  | closeSession : Spawns (.closeSession ref sid) (.ret .done)
  | cancelLookup : Spawns (.cancelLookup userId) (.takeSessions ref)
  | cancelled : Spawns (.cancelLookup userId) (.ret .done)
  | cancelAllLookup : Spawns .cancelAllLookup (.takeSessions ref)
  | cancelledAll : Spawns .cancelAllLookup (.ret .done)
  | takeSessions : Spawns (.takeSessions ref) (.notifyCancelled userId sid sourceIp)
  | notifyCancelled : Spawns (.notifyCancelled userId sid sourceIp) (.trigger sid)
  | limitsLookup : Spawns (.limitsLookup userId limits) (.writeLimits ref limits)
  | limitsRate : Spawns (.limitsLookup userId limits) (.setRate direction ref rate)
  | limitsSet : Spawns (.limitsLookup userId limits) (.ret .done)
  | readUpdate : Spawns (.readUsers p entries) (.compareCredentials ref user credentials)
  | readSweep : Spawns (.readUsers p entries) (.takeSessions ref)
  | readUsers : Spawns (.readUsers p entries) (.publishUsers userMap)
  | readCredentials : Spawns (.readUsers p entries) (.publishCredentials newIndex)
  | readEvent : Spawns (.readUsers p entries) (.sendReplaced userIds)
  | replaced : Spawns (.readUsers p entries) (.ret .done)
  | rotate : Spawns (.compareCredentials ref user credentials) (.takeSessions ref)
  | writeCredentials : Spawns (.compareCredentials ref user credentials)
      (.writeCredentials ref credentials)
  | writeLimits : Spawns (.compareCredentials ref user credentials) (.writeLimits ref user.limits)
  | setRate : Spawns (.compareCredentials ref user credentials) (.setRate direction ref rate)
  | checkActive : Spawns (.checkActive direction session bytes)
      (.waitLimiter direction session bytes)
  | waitLimiter : Spawns (.waitLimiter direction session bytes)
      (.recheckActive direction session bytes)
  | recheckActive : Spawns (.recheckActive direction session bytes)
      (.reserve direction session bytes)
  | reserveUpload : Spawns (.reserve .upload session bytes) (.addUpload session bytes)
  | reserveDownload : Spawns (.reserve .download session bytes) (.loadUpload session bytes)
  | addUpload : Spawns (.addUpload session bytes) (.loadDownload session bytes upload)
  | loadDownload : Spawns (.loadDownload session bytes upload) (.dispatch traffic)
  | loadUpload : Spawns (.loadUpload session bytes) (.addDownload session bytes upload)
  | addDownload : Spawns (.addDownload session bytes upload) (.dispatch traffic)
  | heard : Spawns (.dispatch traffic) (.sendTraffic traffic)
  | dispatched : Spawns (.dispatch traffic) (.ret .done)

theorem Next.spawns {w : World} {call : Call} {a b : Action} {todo : List Action}
    {r : Option Reply} (h : Next w call a todo r) (hm : b ∈ todo) : Spawns a b := by
  cases h with
  | cancelAllLookup =>
    rcases List.mem_append.mp hm with hm | hm
    · obtain ⟨_, _, rfl⟩ := List.mem_map.mp hm
      constructor
    · rw [List.mem_singleton.mp hm]
      constructor
  | takeSessions =>
    obtain ⟨_, _, rfl⟩ := List.mem_map.mp hm
    constructor
  | readUsers =>
    simp only [List.mem_append, mem_updates, mem_sweeps, List.mem_cons, List.not_mem_nil,
      or_false] at hm
    rcases hm with (⟨_, _, _, _, rfl⟩ | ⟨_, _, rfl⟩) | rfl | rfl | rfl | rfl <;> constructor
  | rotate | keep | limitsLookup =>
    simp only [limitWrites, List.cons_append, List.nil_append, List.mem_cons, List.not_mem_nil,
      or_false] at hm
    rcases hm with rfl | rfl | rfl | rfl | rfl <;> constructor
  | _ =>
    simp only [List.mem_cons, List.not_mem_nil, or_false] at hm
    try rcases hm with rfl | rfl <;> constructor

end Aerion.Core
