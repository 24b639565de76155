import Aerion.Lib.Pool
import Aerion.Core.Replace

/-!
# The core under concurrent calls

Every public call of `ProxyCore` and `CoreSession` as the atomic sections it
is made of: one action for each lock section or atomic operation of
`src/core.rs`, in program order. Calls run side by side as tasks of a
`Lib.Pool`, so a reachable pool is any interleaving of any calls.

Two records the source does not keep are needed to speak about what it
promises: which handles are live and with which credential each was obtained
(`Handle.via`), and the list of the last `replace_users` that returned `Ok`
(`World.installed`). No action reads them.

A handle is dropped by `dropSession`, once, and only while it is live. A
record call may be abandoned while it waits for its rate limiter, the only
place where it awaits.
-/

namespace Aerion.Core

open Aerion.Net Lib

inductive Call where
  | authenticate (credential : String) (source : Option IpAddr)
  | authenticatePasswordHash (hash : Bytes) (source : IpAddr)
  | openSession (userId : String) (source : Option IpAddr)
  | dropSession (session : ActiveSession)
  | cancelUserSessions (userId : String)
  | cancelAllSessions
  | setLimits (userId : String) (limits : CoreUserLimits)
  | replaceUsers (users : List CoreUser)
  | record (direction : TrafficDirection) (session : ActiveSession) (bytes : Nat)
  | subscribe
  | hangUp (subscriber : Nat)
  deriving DecidableEq

inductive Reply where
  | done
  | session (session : ActiveSession)
  | failed (message : String)
  | panicked
  deriving DecidableEq, Repr

/-- The data of a `TrafficRecorded` event, which `dispatch` builds only for a
subscriber. -/
structure Traffic where
  userId : String
  sessionId : Nat
  direction : TrafficDirection
  bytes : Nat
  uploadBytes : Nat
  downloadBytes : Nat
  deriving DecidableEq, Repr

def Traffic.event (t : Traffic) : CoreEvent :=
  .trafficRecorded t.userId t.sessionId t.direction t.bytes t.uploadBytes t.downloadBytes

inductive Action where
  -- `authenticate_*` and `open_session_with_source`
  | hashLookup (hash : Bytes) (source : Option IpAddr)
  | credentialLookup (credential : String) (source : Option IpAddr)
  | userLookup (userId : String) (via : Option String) (source : Option IpAddr)
  | drawSessionId (ref : Nat) (via : Option String) (source : Option IpAddr)
  | readLimits (ref sessionId : Nat) (via : Option String) (source : Option IpAddr)
  | insertSession (ref sessionId : Nat) (limits : CoreUserLimits) (via : Option String)
      (source : Option IpAddr)
  -- `Drop for ActiveSession`
  | closeSession (ref sessionId : Nat)
  -- `cancel_user_sessions`, `cancel_all_sessions` and `cancel_sessions`
  | cancelLookup (userId : String)
  | cancelAllLookup
  | takeSessions (ref : Nat)
  | notifyCancelled (userId : String) (sessionId : Nat) (sourceIp : Option String)
  | trigger (sessionId : Nat)
  -- `set_limits`
  | limitsLookup (userId : String) (limits : CoreUserLimits)
  | writeLimits (ref : Nat) (limits : CoreUserLimits)
  | setRate (direction : TrafficDirection) (ref rate : Nat)
  -- `replace_users` after its first loop
  | readUsers (p : Plan) (entries : List (CoreUser × Finset String))
  | compareCredentials (ref : Nat) (user : CoreUser) (credentials : Finset String)
  | writeCredentials (ref : Nat) (credentials : Finset String)
  | publishUsers (userMap : Map String Nat)
  | publishCredentials (index : CredentialIndex)
  | sendReplaced (userIds : List String)
  -- `record_traffic`
  | checkActive (direction : TrafficDirection) (session : ActiveSession) (bytes : Nat)
  | waitLimiter (direction : TrafficDirection) (session : ActiveSession) (bytes : Nat)
  | recheckActive (direction : TrafficDirection) (session : ActiveSession) (bytes : Nat)
  | reserve (direction : TrafficDirection) (session : ActiveSession) (bytes : Nat)
  | addUpload (session : ActiveSession) (bytes : Nat)
  | loadDownload (session : ActiveSession) (bytes upload : Nat)
  | loadUpload (session : ActiveSession) (bytes : Nat)
  | addDownload (session : ActiveSession) (bytes upload : Nat)
  | dispatch (traffic : Traffic)
  | sendTraffic (traffic : Traffic)
  -- the event bus
  | subscribe
  | hangUp (subscriber : Nat)
  | ret (reply : Reply)
  deriving DecidableEq

/-- A live `CoreSession` and the credential that authenticated it, if one did. -/
structure Handle where
  session : ActiveSession
  via : Option String
  deriving DecidableEq, Repr

structure World where
  core : CoreInner
  handles : List Handle
  installed : Option (List CoreUser)
  deriving DecidableEq

def World.empty : World := ⟨.empty, [], none⟩

def CoreEventBus.hangUp (bus : CoreEventBus) (subscriber : Nat) : CoreEventBus :=
  { bus with subscribers := bus.subscribers.modify subscriber fun s => { s with connected := false } }

/-! ### Steps on one user state -/

namespace UserState

def writeLimits (u : UserState) (limits : CoreUserLimits) : UserState := { u with limits }

def setRate (u : UserState) (direction : TrafficDirection) (rate : Nat) : UserState :=
  match direction with
  | .upload => { u with uploadRate := rate }
  | .download => { u with downloadRate := rate }

/-- The reservation of `record_traffic`: `checked_add` on the total, then the quota. -/
def reserves (u : UserState) (bytes : Nat) : Bool :=
  decide (u.total + bytes < 2 ^ 64) &&
    match u.limits.quotaBytes with
    | some quota => decide (u.total + bytes ≤ quota)
    | none => true

def reserve (u : UserState) (bytes : Nat) : UserState := { u with total := u.total + bytes }

-- `fetch_add` wraps around.
def addUpload (u : UserState) (bytes : Nat) : UserState :=
  { u with upload := (u.upload + bytes) % 2 ^ 64 }

def addDownload (u : UserState) (bytes : Nat) : UserState :=
  { u with download := (u.download + bytes) % 2 ^ 64 }

end UserState

/-! ### The states a replacement will publish -/

/-- One round of the second loop of `replace_users` without its updates: the
new states are not shared before the users map is published, so they are
made when the old map is read. -/
def allocate (current : Map String Nat) (acc : List UserState × Map String Nat)
    (entry : CoreUser × Finset String) : List UserState × Map String Nat :=
  match current.lookup entry.1.id with
  | some existing => (acc.1, acc.2.insert entry.1.id existing)
  | none =>
    (acc.1 ++ [UserState.new entry.1 entry.2], acc.2.insert entry.1.id acc.1.length)

def updates (current : Map String Nat) (entries : List (CoreUser × Finset String)) : List Action :=
  entries.filterMap fun e =>
    (current.lookup e.1.id).map fun ref => .compareCredentials ref e.1 e.2

def sweeps (current : Map String Nat) (p : Plan) : List Action :=
  (CoreInner.removedUsers current p).map fun e => .takeSessions e.2

/-! ### The actions -/

namespace World

variable (w : World)

def proceed (todo : List (List Action)) : Effect World Action Reply := ⟨w, todo, none⟩

def reply (r : Reply) : Effect World Action Reply := ⟨w, [], some r⟩

def fail (message : String) : Effect World Action Reply := w.reply (.failed message)

def withCore (core : CoreInner) : World := { w with core }

/-- `ensure_active`. -/
def ifActive (session : ActiveSession) (todo : List (List Action)) : Effect World Action Reply :=
  if session.sessionId ∈ w.core.cancelled then w.fail "core session cancelled" else w.proceed todo

def lookupUser (userId : String) (next : Nat → List (List Action)) : Effect World Action Reply :=
  match w.core.users.lookup userId with
  | some ref => w.proceed (next ref)
  | none => w.fail ("core user not found: " ++ userId)

/-- The step on the user state behind `ref`, and what the task does after it. -/
def onUser (ref : Nat) (f : UserState → UserState) (todo : List (List Action)) :
    Effect World Action Reply :=
  (w.withCore (w.core.modifyUser ref f)).proceed todo

def user (ref : Nat) : Option UserState := w.core.heap[ref]?

def traffic (direction : TrafficDirection) (session : ActiveSession) (bytes upload download : Nat) :
    List (List Action) :=
  [[.dispatch ⟨((w.user session.user).map (·.id)).getD "", session.sessionId, direction, bytes,
    upload, download⟩]]

/-- One action of the call `call`. -/
def exec (call : Call) : Action → Effect World Action Reply
  | .hashLookup hash source =>
    match w.core.credentials.passwordHashes.lookup hash with
    | some credential => w.proceed [[.credentialLookup credential source]]
    | none => w.fail "authentication failed"
  | .credentialLookup credential source =>
    match w.core.credentials.users.lookup (trim credential) with
    | some userId => w.proceed [[.userLookup userId (some (trim credential)) source]]
    | none => w.fail "core authentication failed"
  | .userLookup userId via source =>
    w.lookupUser userId fun ref => [[.drawSessionId ref via source]]
  | .drawSessionId ref via source =>
    (w.withCore { w.core with sessionSeq := w.core.sessionSeq + 1 }).proceed
      [[.readLimits ref (w.core.sessionSeq + 1) via source]]
  | .readLimits ref sessionId via source =>
    w.proceed [[.insertSession ref sessionId
      (((w.user ref).map UserState.limits).getD .unlimited) via source]]
  | .insertSession ref sessionId limits via source =>
    match w.core.insertSession ref sessionId limits source with
    | (.ok session, core) =>
      World.reply { w with core, handles := w.handles ++ [⟨session, via⟩] } (.session session)
    | (.error e, _) => w.fail e
  | .closeSession ref sessionId =>
    (w.withCore (w.core.closeSession ref sessionId)).proceed [[.ret .done]]
  | .cancelLookup userId => w.lookupUser userId fun ref => [[.takeSessions ref], [.ret .done]]
  | .cancelAllLookup =>
    w.proceed [w.core.users.entries.map fun e => .takeSessions e.2, [.ret .done]]
  | .takeSessions ref =>
    match w.user ref with
    | some u => w.onUser ref UserState.clearSessions
        [u.sessions.entries.map fun e => .notifyCancelled u.id e.1 e.2.sourceIp]
    | none => w.proceed []
  | .notifyCancelled userId sessionId sourceIp =>
    (w.withCore (w.core.send (.sessionCancelled userId sessionId sourceIp))).proceed
      [[.trigger sessionId]]
  | .trigger sessionId => (w.withCore (w.core.trigger sessionId)).proceed []
  | .limitsLookup userId limits =>
    w.lookupUser userId fun ref => [[.writeLimits ref limits],
      [.setRate .upload ref (rateValue limits.uploadLimitBps)],
      [.setRate .download ref (rateValue limits.downloadLimitBps)], [.ret .done]]
  | .writeLimits ref limits => w.onUser ref (·.writeLimits limits) []
  | .setRate direction ref rate => w.onUser ref (·.setRate direction rate) []
  | .readUsers p entries =>
    let current := w.core.users
    let (heap, userMap) := entries.foldl (allocate current) (w.core.heap, ∅)
    (w.withCore { w.core with heap }).proceed
      [updates current entries, sweeps current p, [.publishUsers userMap],
        [.publishCredentials ⟨p.credentialMap, p.passwordHashes⟩], [.sendReplaced p.eventUserIds],
        [.ret .done]]
  | .compareCredentials ref user credentials =>
    let rotate : List (List Action) :=
      if (w.user ref).map (·.credentials) ≠ some credentials then
        [[.takeSessions ref], [.writeCredentials ref credentials]]
      else []
    w.proceed (rotate ++ [[.writeLimits ref user.limits],
      [.setRate .upload ref (rateValue user.limits.uploadLimitBps)],
      [.setRate .download ref (rateValue user.limits.downloadLimitBps)]])
  | .writeCredentials ref credentials => w.onUser ref (·.setCredentials credentials) []
  | .publishUsers userMap => (w.withCore { w.core with users := userMap }).proceed []
  | .publishCredentials index => (w.withCore { w.core with credentials := index }).proceed []
  | .sendReplaced userIds => (w.withCore (w.core.send (.usersReplaced userIds))).proceed []
  | .checkActive direction session bytes =>
    w.ifActive session [[.waitLimiter direction session bytes]]
  -- A cancelled wait and a finished one both come to `ensure_active`, which
  -- then fails with the text of the cancelled wait.
  | .waitLimiter direction session bytes => w.proceed [[.recheckActive direction session bytes]]
  | .recheckActive direction session bytes =>
    w.ifActive session [[.reserve direction session bytes]]
  | .reserve direction session bytes =>
    match w.user session.user with
    | some u =>
      if u.reserves bytes then
        w.onUser session.user (·.reserve bytes) (match direction with
          | .upload => [[.addUpload session bytes]]
          | .download => [[.loadUpload session bytes]])
      else w.fail ("traffic quota exceeded for user " ++ u.id)
    | none => w.fail "dangling user"
  | .addUpload session bytes =>
    w.onUser session.user (·.addUpload bytes) [[.loadDownload session bytes
      ((((w.user session.user).map (·.upload)).getD 0 + bytes) % 2 ^ 64)]]
  | .loadDownload session bytes upload =>
    w.proceed (w.traffic .upload session bytes upload
      (((w.user session.user).map (·.download)).getD 0))
  | .loadUpload session bytes =>
    w.proceed [[.addDownload session bytes (((w.user session.user).map (·.upload)).getD 0)]]
  | .addDownload session bytes upload =>
    w.onUser session.user (·.addDownload bytes) (w.traffic .download session bytes upload
      ((((w.user session.user).map (·.download)).getD 0 + bytes) % 2 ^ 64))
  | .dispatch traffic =>
    if w.core.bus.subscriberCount = 0 then w.proceed [[.ret .done]]
    else w.proceed [[.sendTraffic traffic], [.ret .done]]
  | .sendTraffic traffic => (w.withCore (w.core.send traffic.event)).proceed []
  | .subscribe => (w.withCore { w.core with bus := w.core.bus.subscribe }).reply .done
  | .hangUp subscriber =>
    (w.withCore { w.core with bus := w.core.bus.hangUp subscriber }).reply .done
  | .ret r =>
    match call, r with
    | .replaceUsers users, .done => World.reply { w with installed := some users } .done
    | _, r => w.reply r

end World

section
variable (passwordHash : String → Bytes)

/-- The first actions of a call; `none` if the caller has no such handle. -/
def World.start (w : World) : Call → Option (World × List (List Action))
  | .authenticate credential source => some (w, [[.credentialLookup credential source]])
  | .authenticatePasswordHash hash source => some (w, [[.hashLookup hash (some source)]])
  | .openSession userId source => some (w, [[.userLookup userId none source]])
  | .dropSession session =>
    if session ∈ w.handles.map (·.session) then
      some ({ w with handles := w.handles.filter (·.session ≠ session) },
        [[.closeSession session.user session.sessionId]])
    else none
  | .cancelUserSessions userId => some (w, [[.cancelLookup userId]])
  | .cancelAllSessions => some (w, [[.cancelAllLookup]])
  | .setLimits userId limits => some (w, [[.limitsLookup userId limits]])
  | .replaceUsers users =>
    match plan passwordHash users with
    | .error e => some (w, [[.ret (.failed e)]])
    | .ok p =>
      match p.entries with
      | some entries => some (w, [[.readUsers p entries]])
      | none => some (w, [[.ret .panicked]])
  | .record direction session bytes =>
    if session ∈ w.handles.map (·.session) then
      some (w, [[if bytes = 0 then .ret .done else .checkActive direction session bytes]])
    else none
  | .subscribe => some (w, [[.subscribe]])
  | .hangUp subscriber => some (w, [[.hangUp subscriber]])

def Action.awaits : Action → Bool
  | .waitLimiter .. => true
  | _ => false

def machine : Machine World Call Action Reply :=
  ⟨World.start passwordHash, World.exec, Action.awaits⟩

@[simp] theorem machine_start : (machine passwordHash).start = World.start passwordHash := rfl
@[simp] theorem machine_exec : (machine passwordHash).exec = World.exec := rfl
@[simp] theorem machine_awaits : (machine passwordHash).awaits = Action.awaits := rfl

end

abbrev System := Pool World Call Action Reply

def System.empty : System := ⟨.empty, []⟩

-- For concrete runs: the text as its own digest, and a task that takes the
-- first of its next actions `n` times.
def textHash (text : String) : Bytes := text.toUTF8.data.toList

def runs (task n : Nat) : List (Move Call) := List.replicate n (.run task 0)

end Aerion.Core
