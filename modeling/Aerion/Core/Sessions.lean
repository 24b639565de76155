import Aerion.Core.Types

/-!
# Sessions of one user

The locked sections of `open_session`, `close_session` and `cancel_sessions`
(`src/core.rs`), and the calls built from them. Each section leaves the two
cached counters at what the session map holds (`UserState.CountsOk`).
-/

namespace Aerion.Core

open Aerion.Net Lib

def sourceIps (sessions : Map Nat SessionSlot) : Finset String :=
  (sessions.entries.filterMap fun e => e.2.sourceIp).toFinset

-- A limit of zero means the same as none.
def positive (limit : Option Nat) : Option Nat := limit.filter (0 < ·)

namespace UserState

/-- `update_online_counts`, after the session map became `sessions`. -/
def updateOnlineCounts (u : UserState) (sessions : Map Nat SessionSlot) : UserState :=
  { u with sessions, online := sessions.entries.length, onlineIps := (sourceIps sessions).card }

-- The two checks of `open_session`, under the session lock.
def sessionsWithin (u : UserState) (limits : CoreUserLimits) : Bool :=
  match positive limits.maxOnlineSessions with
  | some limit => decide (u.sessions.entries.length < limit)
  | none => true

def ipsWithin (u : UserState) (limits : CoreUserLimits) (sourceIp : Option String) : Bool :=
  match positive limits.maxOnlineIps, sourceIp with
  | some limit, some ip =>
    decide (ip ∈ sourceIps u.sessions) || decide ((insert ip (sourceIps u.sessions)).card ≤ limit)
  | _, _ => true

def admits (u : UserState) (limits : CoreUserLimits) (sourceIp : Option String) :
    Except String Unit :=
  if u.sessionsWithin limits = false then
    .error ("online session limit exceeded for user " ++ u.id)
  else if u.ipsWithin limits sourceIp = false then
    .error ("online IP limit exceeded for user " ++ u.id)
  else .ok ()

def register (u : UserState) (sessionId : Nat) (sourceIp : Option String) : UserState :=
  u.updateOnlineCounts (u.sessions.insert sessionId ⟨sourceIp⟩)

def unregister (u : UserState) (sessionId : Nat) : UserState :=
  u.updateOnlineCounts (u.sessions.erase sessionId)

/-- The locked part of `cancel_sessions`. -/
def clearSessions (u : UserState) : UserState :=
  { u with sessions := ∅, online := 0, onlineIps := 0 }

/-- The limits a hot update stores, with the rates it hands to the limiters. -/
def setLimits (u : UserState) (limits : CoreUserLimits) : UserState :=
  { u with limits, uploadRate := rateValue limits.uploadLimitBps,
           downloadRate := rateValue limits.downloadLimitBps }

theorem mem_sourceIps {sessions : Map Nat SessionSlot} {ip : String} :
    ip ∈ sourceIps sessions ↔ ∃ e ∈ sessions.entries, e.2.sourceIp = some ip := by
  simp [sourceIps]

end UserState

/-! ### Calls on the core -/

/-- `ActiveSession`: the handle a successful open returns. -/
structure ActiveSession where
  user : Nat
  sessionId : Nat
  deriving DecidableEq, Repr

namespace CoreInner

/-- The locked section of `UserState::open_session`. A reference always has
its user state, so the first case does not occur. -/
def insertSession (c : CoreInner) (ref sessionId : Nat) (limits : CoreUserLimits)
    (source : Option IpAddr) : Except String ActiveSession × CoreInner :=
  match c.heap[ref]? with
  | none => (.error "dangling user", c)
  | some u =>
    let sourceIp := source.map normalizeIp
    match u.admits limits sourceIp with
    | .error e => (.error e, c)
    | .ok () =>
      (.ok ⟨ref, sessionId⟩, (c.modifyUser ref (·.register sessionId sourceIp)).send
        (.sessionOpened u.id sessionId sourceIp))

/-- `open_session_with_source`. The session id is drawn before the limits are checked. -/
def openSessionWithSource (c : CoreInner) (userId : String) (source : Option IpAddr) :
    Except String ActiveSession × CoreInner :=
  match c.users.lookup userId with
  | none => (.error ("core user not found: " ++ userId), c)
  | some ref =>
    let limits := ((c.heap[ref]?).map UserState.limits).getD .unlimited
    { c with sessionSeq := c.sessionSeq + 1 }.insertSession ref (c.sessionSeq + 1) limits source

/-- `close_session`, run when the last clone of a handle is dropped. -/
def closeSession (c : CoreInner) (ref sessionId : Nat) : CoreInner :=
  match c.heap[ref]? with
  | none => c
  | some u =>
    let closed := c.modifyUser ref (·.unregister sessionId)
    match u.sessions.lookup sessionId with
    | some slot => closed.send (.sessionClosed u.id sessionId slot.sourceIp)
    | none => closed

/-- One round of the loop that ends `cancel_sessions`. -/
def cancelSession (userId : String) (c : CoreInner) (e : Σ _ : Nat, SessionSlot) : CoreInner :=
  (c.send (.sessionCancelled userId e.1 e.2.sourceIp)).trigger e.1

def cancelSessions (c : CoreInner) (ref : Nat) : CoreInner :=
  match c.heap[ref]? with
  | none => c
  | some u =>
    u.sessions.entries.foldl (cancelSession u.id) (c.modifyUser ref UserState.clearSessions)

end CoreInner

end Aerion.Core
