import Aerion.Lib.Steps
import Aerion.Vmess.Request

/-!
# A VMess server reading requests

Connections share one `VmessReplayFilter`. A request is read in two
sections: the first reads the AuthID and the clock, finds the user and
stores the AuthID; the second, which waits for the client, opens the header
and stores the session. Between the two sections anything can happen on the
other connections. Both caches read the monotonic clock under their lock, so
the instants of the accesses never go back.
-/

namespace Aerion.Vmess

open Lib Net

abbrev SessionKey := Bytes × Bytes × Bytes

structure VmessReplayFilter where
  authIds : ReplayCache Bytes
  sessions : ReplayCache SessionKey
  deriving DecidableEq

def authIdReplayTtl : ℕ := seconds 120
def sessionHistoryTtl : ℕ := seconds 180

namespace VmessReplayFilter

def new : VmessReplayFilter := ⟨.new authIdReplayTtl 65536, .new sessionHistoryTtl 65536⟩

def checkAuthId (replay : VmessReplayFilter) (authId : Bytes) (now : Instant) :
    Outcome Unit × VmessReplayFilter :=
  match replay.authIds.checkAndStore authId now with
  | (.ok (), authIds) => (.ok (), { replay with authIds })
  | (.error .replayed, authIds) => (.err "VMess AuthID replay detected", { replay with authIds })
  | (.error .full, authIds) => (.err "VMess AuthID replay cache is full", { replay with authIds })

def checkSession (replay : VmessReplayFilter) (key : SessionKey) (now : Instant) :
    Outcome Unit × VmessReplayFilter :=
  match replay.sessions.checkAndStore key now with
  | (.ok (), sessions) => (.ok (), { replay with sessions })
  | (.error .replayed, sessions) => (.err "VMess session replay detected", { replay with sessions })
  | (.error .full, sessions) =>
    (.err "VMess session replay cache is full", { replay with sessions })

end VmessReplayFilter

/-- The users, in the order of the map, and the wall clock at instant zero. -/
structure Config where
  users : List (Bytes × String)
  epoch : ℕ

/-- `unix_time`: whole seconds. `SystemTime` holds no more of them than an `i64`. -/
def Config.unixTime (config : Config) (at_ : Instant) : ℤ := ((at_ + config.epoch) / seconds 1 : ℕ)

structure Pending where
  user : Bytes
  credential : String
  authId : Bytes
  rest : Bytes
  readAt : Instant
  authAt : Instant
  deriving DecidableEq

/-- A request `read_vmess_request` has returned, with the bytes it was read from. -/
structure Accepted where
  pending : Pending
  request : VmessRequest
  header : Bytes
  sessionAt : Instant
  deriving DecidableEq

def Accepted.bytes (a : Accepted) : Bytes := a.pending.authId ++ a.header

structure Server where
  replay : VmessReplayFilter
  pending : List Pending
  results : List (Outcome Accepted)
  now : Instant
  deriving DecidableEq

def Server.start (now : Instant) : Server := ⟨.new, [], [], now⟩

inductive Event where
  /-- A connection on which the client sends `stream`: the clock is read at one instant and the
  cache at another. -/
  | authId (stream : Bytes) (readAt at_ : Instant)
  /-- The header of a pending request has arrived. -/
  | header (i : ℕ) (at_ : Instant)
  /-- A pending connection ends. -/
  | gone (i : ℕ)

variable (crypto : Crypto) (mode : Overflow) (config : Config)

def readUser (stream : Bytes) (readAt at_ : Instant) : Outcome Pending := do
  let (authId, rest) ← readExact 16 "read VMess auth id" stream
  let found ← findUser crypto mode (config.unixTime readAt) authId config.users
  let (user, credential) ← .need found "VMess authentication failed"
  return ⟨user, credential, authId, rest, readAt, at_⟩

def readHeader (p : Pending) (at_ : Instant) : Outcome Accepted := do
  let (header, rest) ← openVmessAeadHeader crypto (vmessCmdKey crypto p.user) p.authId p.rest
  let request ← parseVmessHeader header
  return ⟨p, request, p.rest.take (p.rest.length - rest.length), at_⟩

namespace Server

def result (s : Server) (o : Outcome Accepted) : Server := { s with results := s.results ++ [o] }

def handleAuthId (s : Server) (stream : Bytes) (readAt at_ : Instant) : Server :=
  match readUser crypto mode config stream readAt at_ with
  | .ok p =>
    match s.replay.checkAuthId p.authId at_ with
    | (.ok (), replay) => { s with replay, pending := s.pending ++ [p] }
    | (.err e, replay) => { s with replay }.result (.err e)
    | (.panic, replay) => { s with replay }.result .panic
  | .err e => s.result (.err e)
  | .panic => s.result .panic

def handleHeader (s : Server) (p : Pending) (at_ : Instant) : Server :=
  match readHeader crypto p at_ with
  | .ok a =>
    let key := (p.user, a.request.requestBodyKey, a.request.requestBodyIv)
    match s.replay.checkSession key at_ with
    | (.ok (), replay) => { s with replay }.result (.ok a)
    | (.err e, replay) => { s with replay }.result (.err e)
    | (.panic, replay) => { s with replay }.result .panic
  | .err e => s.result (.err e)
  | .panic => s.result .panic

def step (s : Server) : Event → Option Server
  | .authId stream readAt at_ =>
    if s.now ≤ at_ ∧ readAt ≤ at_ then
      some { s.handleAuthId crypto mode config stream readAt at_ with now := at_ }
    else none
  | .header i at_ =>
    match s.pending[i]? with
    | some p =>
      if s.now ≤ at_ then
        some { { s with pending := s.pending.eraseIdx i }.handleHeader crypto p at_ with now := at_ }
      else none
    | none => none
  | .gone i =>
    if i < s.pending.length then some { s with pending := s.pending.eraseIdx i } else none

end Server

end Aerion.Vmess
