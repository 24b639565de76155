import Mathlib.Data.Finset.Card
import Mathlib.Data.Finset.Dedup
import Aerion.Lib.FinMap
import Aerion.Net.Addr

/-!
# The shared state of the proxy core

The data of `src/core.rs` and `src/core/events.rs`. An `Arc<UserState>` is a
reference: a position in the heap `CoreInner.heap`, so that the users map, a
session handle and a call in progress can name the same user state. The
control of a session is named by its session id; `cancelled` holds the ids
whose abort flag is set. Hash maps are `Map`s and hash sets are `Finset`s.

Left out: the clock of a rate limiter (`ByteRateLimiter::next`), since a
wait may take any time here, and the configured rates are its only other
state.
-/

namespace Aerion.Core

open Aerion.Net Lib

structure CoreUserLimits where
  uploadLimitBps : Option Nat
  downloadLimitBps : Option Nat
  quotaBytes : Option Nat
  maxOnlineSessions : Option Nat
  maxOnlineIps : Option Nat
  deriving DecidableEq, Repr

/-- `CoreUserLimits::default`. -/
def CoreUserLimits.unlimited : CoreUserLimits := ⟨none, none, none, none, none⟩

structure CoreUser where
  id : String
  credential : String
  uploadLimitBps : Option Nat
  downloadLimitBps : Option Nat
  quotaBytes : Option Nat
  maxOnlineSessions : Option Nat
  maxOnlineIps : Option Nat
  deriving DecidableEq, Repr

def CoreUser.password (id credential : String) : CoreUser :=
  ⟨id, credential, none, none, none, none, none⟩

def CoreUser.limits (u : CoreUser) : CoreUserLimits :=
  ⟨u.uploadLimitBps, u.downloadLimitBps, u.quotaBytes, u.maxOnlineSessions, u.maxOnlineIps⟩

inductive TrafficDirection where
  | upload
  | download
  deriving DecidableEq, Repr

inductive CoreEvent where
  | usersReplaced (userIds : List String)
  | sessionOpened (userId : String) (sessionId : Nat) (sourceIp : Option String)
  | sessionClosed (userId : String) (sessionId : Nat) (sourceIp : Option String)
  | sessionCancelled (userId : String) (sessionId : Nat) (sourceIp : Option String)
  | trafficRecorded (userId : String) (sessionId : Nat) (direction : TrafficDirection)
      (bytes uploadBytes downloadBytes : Nat)
  deriving DecidableEq, Repr

/-! ### The event bus -/

structure Subscriber where
  queue : List CoreEvent
  connected : Bool
  deriving DecidableEq, Repr

/-- `CoreEventBus`. `trace` is every event sent so far; the source keeps none. -/
structure CoreEventBus where
  subscribers : List Subscriber
  subscriberCount : Nat
  trace : List CoreEvent
  deriving DecidableEq, Repr

namespace CoreEventBus

def empty : CoreEventBus := ⟨[], 0, []⟩

def subscribe (bus : CoreEventBus) : CoreEventBus :=
  let subscribers := bus.subscribers ++ [⟨[], true⟩]
  { bus with subscribers, subscriberCount := subscribers.length }

def send (bus : CoreEventBus) (event : CoreEvent) : CoreEventBus :=
  let subscribers := (bus.subscribers.filter (·.connected)).map fun s =>
    { s with queue := s.queue ++ [event] }
  { subscribers, subscriberCount := subscribers.length, trace := bus.trace ++ [event] }

@[simp] theorem trace_subscribe (bus : CoreEventBus) : bus.subscribe.trace = bus.trace := rfl

@[simp] theorem trace_send (bus : CoreEventBus) (event : CoreEvent) :
    (bus.send event).trace = bus.trace ++ [event] := rfl

end CoreEventBus

/-! ### Users -/

structure SessionSlot where
  sourceIp : Option String
  deriving DecidableEq, Repr

/-- `rate_value` (`src/core/limiter.rs`). -/
def rateValue (bytesPerSecond : Option Nat) : Nat := bytesPerSecond.getD 0

structure UserState where
  id : String
  credentials : Finset String
  upload : Nat
  download : Nat
  total : Nat
  online : Nat
  onlineIps : Nat
  limits : CoreUserLimits
  uploadRate : Nat
  downloadRate : Nat
  sessions : Map Nat SessionSlot
  deriving DecidableEq

def UserState.new (user : CoreUser) (credentials : Finset String) : UserState where
  id := user.id
  credentials := credentials
  upload := 0
  download := 0
  total := 0
  online := 0
  onlineIps := 0
  limits := user.limits
  uploadRate := rateValue user.uploadLimitBps
  downloadRate := rateValue user.downloadLimitBps
  sessions := ∅

structure CredentialIndex where
  users : Map String String
  passwordHashes : Map Bytes String
  deriving DecidableEq

def CredentialIndex.empty : CredentialIndex := ⟨∅, ∅⟩

structure CoreInner where
  heap : List UserState
  users : Map String Nat
  credentials : CredentialIndex
  -- a `u64` in the source; its wrap-around is left out
  sessionSeq : Nat
  bus : CoreEventBus
  cancelled : Finset Nat
  deriving DecidableEq

/-- `CoreInner::default`, the state of `ProxyCore::empty`. -/
def CoreInner.empty : CoreInner := ⟨[], ∅, .empty, 0, .empty, ∅⟩

namespace CoreInner

variable (c : CoreInner)

def modifyUser (ref : Nat) (f : UserState → UserState) : CoreInner :=
  { c with heap := c.heap.modify ref f }

def send (event : CoreEvent) : CoreInner := { c with bus := c.bus.send event }

/-- `SessionControl::cancel`. -/
def trigger (sessionId : Nat) : CoreInner := { c with cancelled := insert sessionId c.cancelled }

@[simp] theorem modifyUser_heap (ref : Nat) (f : UserState → UserState) :
    (c.modifyUser ref f).heap = c.heap.modify ref f := rfl
@[simp] theorem modifyUser_users (ref : Nat) (f : UserState → UserState) :
    (c.modifyUser ref f).users = c.users := rfl
@[simp] theorem modifyUser_credentials (ref : Nat) (f : UserState → UserState) :
    (c.modifyUser ref f).credentials = c.credentials := rfl
@[simp] theorem modifyUser_sessionSeq (ref : Nat) (f : UserState → UserState) :
    (c.modifyUser ref f).sessionSeq = c.sessionSeq := rfl
@[simp] theorem modifyUser_bus (ref : Nat) (f : UserState → UserState) :
    (c.modifyUser ref f).bus = c.bus := rfl
@[simp] theorem modifyUser_cancelled (ref : Nat) (f : UserState → UserState) :
    (c.modifyUser ref f).cancelled = c.cancelled := rfl

@[simp] theorem send_heap (event : CoreEvent) : (c.send event).heap = c.heap := rfl
@[simp] theorem send_users (event : CoreEvent) : (c.send event).users = c.users := rfl
@[simp] theorem send_credentials (event : CoreEvent) :
    (c.send event).credentials = c.credentials := rfl
@[simp] theorem send_sessionSeq (event : CoreEvent) :
    (c.send event).sessionSeq = c.sessionSeq := rfl
@[simp] theorem send_bus (event : CoreEvent) : (c.send event).bus = c.bus.send event := rfl
@[simp] theorem send_cancelled (event : CoreEvent) : (c.send event).cancelled = c.cancelled := rfl

@[simp] theorem trigger_heap (sid : Nat) : (c.trigger sid).heap = c.heap := rfl
@[simp] theorem trigger_users (sid : Nat) : (c.trigger sid).users = c.users := rfl
@[simp] theorem trigger_credentials (sid : Nat) : (c.trigger sid).credentials = c.credentials := rfl
@[simp] theorem trigger_sessionSeq (sid : Nat) : (c.trigger sid).sessionSeq = c.sessionSeq := rfl
@[simp] theorem trigger_bus (sid : Nat) : (c.trigger sid).bus = c.bus := rfl
@[simp] theorem trigger_cancelled (sid : Nat) :
    (c.trigger sid).cancelled = insert sid c.cancelled := rfl

end CoreInner

end Aerion.Core
