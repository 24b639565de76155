import Aerion.Core.Credentials
import Aerion.Lib.Ledger
import Mathlib.Data.Option.Basic

/-!
# The UDP side of a Shadowsocks server

`run_shadowsocks_udp_server` opens a core session for every datagram it
receives and hands the datagram to a task of its own
(`relay_shadowsocks_udp_packet`, `src/shadowsocks.rs`). The tasks share the
NAT table. A task looks its key up under the lock; if the key is missing it
leaves the lock, binds a socket, takes the lock again and inserts an entry,
unless another task was first. With the entry it starts a response task,
which keeps the core session of the datagram until it ends, and removes the
key after that.

Entries are numbered in the order in which they are made. A session is closed
when nobody holds it any more.
-/

namespace Aerion.Shadowsocks.UdpNat

open Aerion.Core Aerion.Net Lib

def maxSsUdpNat : ℕ := 1024

structure NatKey where
  user : String
  peer : SocketAddr
  clientSessionId : UInt64
  deriving DecidableEq, Repr

/-- `UdpSocketControlData`, as far as it is read. -/
structure Control where
  clientSessionId : UInt64
  user : Option String
  deriving DecidableEq, Repr

/-- Where the task of a datagram is: before it resolves its target, before the first lock, between
the locks, before the second lock, and with an entry before it records the upload and sends. -/
inductive Phase where
  | resolving
  | looking
  | binding
  | inserting
  | recording (entry : ℕ)
  | sending (entry : ℕ)
  | ended
  deriving DecidableEq, Repr

structure Packet where
  key : NatKey
  session : ActiveSession
  phase : Phase
  deriving DecidableEq, Repr

/-- Where a response task is. It has given up its session when it comes to remove its entry. -/
inductive Response where
  | relaying
  | removing
  | ended
  deriving DecidableEq, Repr

structure Association where
  key : NatKey
  session : ActiveSession
  response : Response
  deriving DecidableEq, Repr

/-- `others` are the core sessions of other connections, and `sent` which datagram was sent through
which entry. -/
structure Server where
  core : CoreInner
  nat : Map NatKey ℕ
  packets : List Packet
  associations : List Association
  others : List ActiveSession
  sent : List (ℕ × ℕ)

def Server.new (core : CoreInner) : Server where
  core := core
  nat := ∅
  packets := []
  associations := []
  others := []
  sent := []

inductive Event where
  | receive (peer : SocketAddr) (control : Option Control)
  | resolve (n : ℕ) (ok : Bool)
  | lookup (n : ℕ)
  | bind (n : ℕ) (ok : Bool)
  | insert (n : ℕ)
  | record (n : ℕ) (ok : Bool)
  | send (n : ℕ) (ok : Bool)
  | close (e : ℕ)
  | remove (e : ℕ)
  | openOther (user : String) (source : Option IpAddr)
  | closeOther (i : ℕ)
  | cancel (ref : ℕ)
  | setLimits (ref : ℕ) (limits : CoreUserLimits)
  deriving DecidableEq

def shadowsocksUdpCoreSession (password : String) (core : CoreInner) (peer : SocketAddr)
    (control : Option Control) :
    Except String ActiveSession × CoreInner :=
  match control.bind (·.user) with
  | some user => core.openSessionWithSource user (some peer.ip)
  | none => core.authenticateFrom password peer.ip

def clientSessionId (control : Option Control) : UInt64 := (control.map (·.clientSessionId)).getD 0

def userId (core : CoreInner) (session : ActiveSession) : String :=
  ((core.heap[session.user]?).map UserState.id).getD ""

namespace Server

def enter (s : Server) (n : ℕ) (phase : Phase) : Server :=
  { s with packets := s.packets.modify n fun p => { p with phase } }

def respond (s : Server) (e : ℕ) (response : Response) : Server :=
  { s with associations := s.associations.modify e fun a => { a with response } }

def holders (s : Server) : List ActiveSession :=
  (s.packets.filter fun p => p.phase ≠ .ended).map Packet.session ++
    (s.associations.filter fun a => a.response = .relaying).map Association.session ++ s.others

def release (s : Server) (session : ActiveSession) : Server :=
  if session ∈ s.holders then s
  else { s with core := s.core.closeSession session.user session.sessionId }

def finish (s : Server) (n : ℕ) (p : Packet) : Server := (s.enter n .ended).release p.session

/-- The first lock of `get_or_create_ss_udp_nat`. -/
def lookUp (s : Server) (n : ℕ) (p : Packet) : Server :=
  match s.nat.lookup p.key with
  | some e => s.enter n (.recording e)
  | none => if s.nat.entries.length < maxSsUdpNat then s.enter n .binding else s.finish n p

def insertEntry (s : Server) (n : ℕ) (p : Packet) : Server :=
  match s.nat.lookup p.key with
  | some e => s.enter n (.recording e)
  | none =>
    { s.enter n (.recording s.associations.length) with
      nat := s.nat.insert p.key s.associations.length
      associations := s.associations ++
        [{ key := p.key, session := p.session, response := .relaying }] }

def receive (password : String) (s : Server) (peer : SocketAddr) (control : Option Control) :
    Server :=
  match shadowsocksUdpCoreSession password s.core peer control with
  | (.ok session, core) =>
    let key := { user := userId core session, peer, clientSessionId := clientSessionId control }
    { s with core, packets := s.packets ++ [{ key, session, phase := .resolving }] }
  | (.error _, core) => { s with core }

def openOther (s : Server) (user : String) (source : Option IpAddr) : Server :=
  match s.core.openSessionWithSource user source with
  | (.ok session, core) => { s with core, others := s.others ++ [session] }
  | (.error _, core) => { s with core }

end Server

def step (password : String) (s : Server) : Event → Option Server
  | .receive peer control => some (s.receive password peer control)
  | .resolve n ok => do
    let p ← s.packets[n]?
    guard (p.phase = .resolving)
    return if ok then s.enter n .looking else s.finish n p
  | .lookup n => do
    let p ← s.packets[n]?
    guard (p.phase = .looking)
    return s.lookUp n p
  | .bind n ok => do
    let p ← s.packets[n]?
    guard (p.phase = .binding)
    return if ok then s.enter n .inserting else s.finish n p
  | .insert n => do
    let p ← s.packets[n]?
    guard (p.phase = .inserting)
    return s.insertEntry n p
  | .record n ok => do
    let p ← s.packets[n]?
    match p.phase with
    | .recording e => return if ok then s.enter n (.sending e) else s.finish n p
    | _ => none
  | .send n ok => do
    let p ← s.packets[n]?
    match p.phase with
    | .sending e => return { s.finish n p with sent := if ok then s.sent ++ [(n, e)] else s.sent }
    | _ => none
  | .close e => do
    let a ← s.associations[e]?
    guard (a.response = .relaying)
    return (s.respond e .removing).release a.session
  | .remove e => do
    let a ← s.associations[e]?
    guard (a.response = .removing)
    return { s.respond e .ended with nat := s.nat.erase a.key }
  | .openOther user source => some (s.openOther user source)
  | .closeOther i => do
    let session ← s.others[i]?
    return { s with others := s.others.eraseIdx i }.release session
  | .cancel ref => some { s with core := s.core.cancelSessions ref }
  | .setLimits ref limits => some { s with core := s.core.modifyUser ref (·.setLimits limits) }

/-! ### What a step does -/

section
variable {password : String} {s s' : Server} {l : Event}

@[simp] theorem release_nat (s : Server) (session : ActiveSession) :
    (s.release session).nat = s.nat := by
  unfold Server.release
  split <;> rfl

@[simp] theorem release_associations (s : Server) (session : ActiveSession) :
    (s.release session).associations = s.associations := by
  unfold Server.release
  split <;> rfl

@[simp] theorem release_packets (s : Server) (session : ActiveSession) :
    (s.release session).packets = s.packets := by
  unfold Server.release
  split <;> rfl

def Quiet (s : Server) : Event → Prop
  | .insert n => ∀ p, s.packets[n]? = some p → s.nat.lookup p.key ≠ none
  | .remove _ => False
  | _ => True

/-- What a step can do. Most steps of a datagram's task move it on; its last drops its session. -/
inductive Does (password : String) (s : Server) : Event → Server → Prop where
  | receive (peer : SocketAddr) (control : Option Control) :
    Does password s (.receive peer control) (s.receive password peer control)
  | openOther (user : String) (source : Option IpAddr) :
    Does password s (.openOther user source) (s.openOther user source)
  | move {l : Event} {n : ℕ} {p : Packet} {phase : Phase} : Quiet s l → s.packets[n]? = some p →
    p.phase ≠ .ended → phase ≠ .ended → (∀ e, phase = .recording e → s.nat.lookup p.key = some e) →
    (∀ e, phase = .sending e → p.phase = .recording e) →
    (phase = .binding → l = .lookup n ∧ s.nat.lookup p.key = none ∧
      s.nat.entries.length < maxSsUdpNat) →
    (phase = .inserting → p.phase = .binding) → Does password s l (s.enter n phase)
  | finish {l : Event} {n : ℕ} {p : Packet} (sent : List (ℕ × ℕ)) : Quiet s l →
    s.packets[n]? = some p →
    p.phase ≠ .ended → (sent = s.sent ∨ ∃ e, p.phase = .sending e ∧ sent = s.sent ++ [(n, e)]) →
    Does password s l { s.finish n p with sent }
  | insert {n : ℕ} {p : Packet} : s.packets[n]? = some p → p.phase = .inserting →
    s.nat.lookup p.key = none → Does password s (.insert n) (s.insertEntry n p)
  | close {e : ℕ} {a : Association} : s.associations[e]? = some a → a.response = .relaying →
    Does password s (.close e) ((s.respond e .removing).release a.session)
  | remove {e : ℕ} {a : Association} : s.associations[e]? = some a → a.response = .removing →
    Does password s (.remove e) { s.respond e .ended with nat := s.nat.erase a.key }
  | closeOther {i : ℕ} {session : ActiveSession} : s.others[i]? = some session →
    Does password s (.closeOther i) ({ s with others := s.others.eraseIdx i }.release session)
  | cancel (ref : ℕ) : Does password s (.cancel ref) { s with core := s.core.cancelSessions ref }
  | setLimits (ref : ℕ) (limits : CoreUserLimits) :
    Does password s (.setLimits ref limits)
      { s with core := s.core.modifyUser ref (·.setLimits limits) }

theorem step_does (h : step password s l = some s') : Does password s l s' := by
  have hsent : ∀ (n : ℕ) (p : Packet), { s.finish n p with sent := s.sent } = s.finish n p := by
    intro n p
    unfold Server.finish Server.release
    split <;> rfl
  cases l with
  | receive peer control => cases h; exact .receive peer control
  | openOther user source => cases h; exact .openOther user source
  | cancel ref => cases h; exact .cancel ref
  | setLimits ref limits => cases h; exact .setLimits ref limits
  | resolve n ok =>
    obtain ⟨p, hp, hphase, rfl⟩ := some_of_guarded h
    cases ok with
    | true => exact .move trivial hp (by simp [hphase]) nofun nofun nofun nofun nofun
    | false => exact hsent n p ▸ .finish s.sent trivial hp (by simp [hphase]) (.inl rfl)
  | bind n ok =>
    obtain ⟨p, hp, hphase, rfl⟩ := some_of_guarded h
    cases ok with
    | true => exact .move trivial hp (by simp [hphase]) nofun nofun nofun nofun fun _ => hphase
    | false => exact hsent n p ▸ .finish s.sent trivial hp (by simp [hphase]) (.inl rfl)
  | lookup n =>
    obtain ⟨p, hp, hphase, rfl⟩ := some_of_guarded h
    unfold Server.lookUp
    split
    · rename_i e he
      exact .move trivial hp (by simp [hphase]) nofun (fun e' he' => by cases he'; exact he)
        nofun nofun nofun
    · rename_i hnone
      split
      · rename_i hroom
        exact .move trivial hp (by simp [hphase]) nofun nofun nofun
          (fun _ => ⟨rfl, hnone, hroom⟩) nofun
      · exact hsent n p ▸ .finish s.sent trivial hp (by simp [hphase]) (.inl rfl)
  | insert n =>
    obtain ⟨p, hp, hphase, rfl⟩ := some_of_guarded h
    cases hkey : s.nat.lookup p.key with
    | none => exact .insert hp hphase hkey
    | some e =>
      have hfound : s.insertEntry n p = s.enter n (.recording e) := by
        simp only [Server.insertEntry, hkey]
      show Does password s (.insert n) (s.insertEntry n p)
      rw [hfound]
      have hquiet : Quiet s (.insert n) := by
        intro q hq
        rw [← Option.some.inj (hp.symm.trans hq), hkey]
        nofun
      exact .move hquiet hp (by simp [hphase]) nofun (fun e' he' => by cases he'; exact hkey)
        nofun nofun nofun
  | record n ok =>
    obtain ⟨p, hp, h⟩ := Option.bind_eq_some_iff.mp h
    split at h
    · rename_i e hphase
      cases h
      cases ok with
      | true =>
        exact .move trivial hp (by simp [hphase]) nofun nofun
          (fun e' he' => by cases he'; exact hphase)
          nofun nofun
      | false => exact hsent n p ▸ .finish s.sent trivial hp (by simp [hphase]) (.inl rfl)
    · cases h
  | send n ok =>
    obtain ⟨p, hp, h⟩ := Option.bind_eq_some_iff.mp h
    split at h
    · rename_i e hphase
      cases h
      refine .finish _ trivial hp (by simp [hphase]) ?_
      cases ok with
      | true => exact .inr ⟨e, hphase, rfl⟩
      | false => exact .inl rfl
    · cases h
  | close e =>
    obtain ⟨a, ha, hresponse, rfl⟩ := some_of_guarded h
    exact .close ha hresponse
  | remove e =>
    obtain ⟨a, ha, hresponse, rfl⟩ := some_of_guarded h
    exact .remove ha hresponse
  | closeOther i =>
    obtain ⟨session, hsession, h⟩ := Option.bind_eq_some_iff.mp h
    cases h
    exact .closeOther hsession

end

/-! ### The table and the response tasks -/

section
variable {password : String} {s s' : Server} {l : Event}

@[simp] theorem receive_nat (peer : SocketAddr) (control : Option Control) :
    (s.receive password peer control).nat = s.nat := by
  unfold Server.receive
  split <;> rfl

@[simp] theorem receive_associations (peer : SocketAddr) (control : Option Control) :
    (s.receive password peer control).associations = s.associations := by
  unfold Server.receive
  split <;> rfl

@[simp] theorem openOther_nat (user : String) (source : Option IpAddr) :
    (s.openOther user source).nat = s.nat := by
  unfold Server.openOther
  split <;> rfl

@[simp] theorem openOther_associations (user : String) (source : Option IpAddr) :
    (s.openOther user source).associations = s.associations := by
  unfold Server.openOther
  split <;> rfl

theorem insertEntry_new {n : ℕ} {p : Packet} (h : s.nat.lookup p.key = none) :
    s.insertEntry n p = { s.enter n (.recording s.associations.length) with
      nat := s.nat.insert p.key s.associations.length
      associations := s.associations ++
        [{ key := p.key, session := p.session, response := .relaying }] } := by
  simp only [Server.insertEntry, h]

theorem step_nat (h : step password s l = some s') :
    (Quiet s l ∧ s'.nat = s.nat ∧ s'.associations = s.associations) ∨
      (∃ n p, l = .insert n ∧ s.packets[n]? = some p ∧ s.nat.lookup p.key = none ∧
        s'.nat = s.nat.insert p.key s.associations.length ∧
        s'.associations = s.associations ++
          [{ key := p.key, session := p.session, response := .relaying }]) ∨
      (∃ e a, l = .close e ∧ s.associations[e]? = some a ∧ a.response = .relaying ∧ s'.nat = s.nat ∧
        s'.associations = (s.respond e .removing).associations) ∨
      ∃ e a, l = .remove e ∧ s.associations[e]? = some a ∧ a.response = .removing ∧
        s'.nat = s.nat.erase a.key ∧ s'.associations = (s.respond e .ended).associations := by
  cases step_does h with
  | receive | openOther | closeOther | cancel | setLimits => exact .inl ⟨trivial, by simp, by simp⟩
  | move hl => exact .inl ⟨hl, rfl, rfl⟩
  | finish sent hl =>
    exact .inl ⟨hl, by simp [Server.finish, Server.enter], by simp [Server.finish, Server.enter]⟩
  | @insert n p hp _ hkey =>
    rw [insertEntry_new hkey]
    exact .inr (.inl ⟨n, p, rfl, hp, hkey, rfl, rfl⟩)
  | @close e a ha hrelaying =>
    refine .inr (.inr (.inl ⟨e, a, rfl, ha, hrelaying, ?_, ?_⟩))
    · rw [release_nat]
      rfl
    · rw [release_associations]
  | @remove e a ha hremoving => exact .inr (.inr (.inr ⟨e, a, rfl, ha, hremoving, rfl, rfl⟩))

theorem respond_lookup (e : ℕ) (response : Response) (m : ℕ) :
    (s.respond e response).associations[m]? =
      (s.associations[m]?).map fun a => if e = m then { a with response } else a :=
  List.getElem?_modify _ e s.associations m

/-- The table holds the entries whose response task has not ended. -/
def Owned (s : Server) : Prop :=
  ∀ key e, s.nat.lookup key = some e ↔ ∃ a, s.associations[e]? = some a ∧ a.key = key ∧
    a.response ≠ .ended

theorem owned_new (core : CoreInner) : Owned (.new core) := by
  intro key e
  simp [Server.new]

theorem Owned.unique (h : Owned s) {e e' : ℕ} {a a' : Association}
    (ha : s.associations[e]? = some a)
    (ha' : s.associations[e']? = some a') (hkey : a.key = a'.key) (hlive : a.response ≠ .ended)
    (hlive' : a'.response ≠ .ended) : e = e' := by
  have hentry := (h a.key e).mpr ⟨a, ha, rfl, hlive⟩
  rw [(h a.key e').mpr ⟨a', ha', hkey.symm, hlive'⟩] at hentry
  exact (Option.some.inj hentry).symm

theorem Owned.preserved (h : Owned s) (hstep : step password s l = some s') : Owned s' := by
  intro key e
  rcases step_nat hstep with ⟨-, hnat, hassoc⟩ | ⟨n, p, -, -, hnone, hnat, hassoc⟩ |
    ⟨i, b, -, hb, hrelaying, hnat, hassoc⟩ | ⟨i, b, -, hb, hremoving, hnat, hassoc⟩
  · rw [hnat, hassoc]
    exact h key e
  · rw [hnat, hassoc, lookup_insert_ite]
    split
    · rename_i hkey
      subst hkey
      constructor
      · intro he
        cases he
        exact ⟨_, List.getElem?_concat_length, rfl, nofun⟩
      · rintro ⟨a, ha, hkey, hlive⟩
        rcases getElem?_snoc ha with hold | ⟨rfl, -⟩
        · exact absurd ((h p.key e).mpr ⟨a, hold, hkey, hlive⟩) (by rw [hnone]; nofun)
        · rfl
    · rename_i hkey
      rw [h key e]
      constructor
      · rintro ⟨a, ha, hown⟩
        exact ⟨a, getElem?_snoc_left ha, hown⟩
      · rintro ⟨a, ha, rfl, hlive⟩
        rcases getElem?_snoc ha with hold | ⟨-, rfl⟩
        · exact ⟨a, hold, rfl, hlive⟩
        · exact absurd rfl hkey
  · rw [hnat, hassoc, respond_lookup, h key e]
    constructor
    · rintro ⟨a, ha, rfl, hlive⟩
      rw [ha]
      by_cases hi : i = e
      · exact ⟨_, rfl, by simp [hi], by simp [hi]⟩
      · exact ⟨_, rfl, by simp [hi], by simpa [hi] using hlive⟩
    · rintro ⟨a, ha, rfl, hlive⟩
      obtain ⟨c, hc, rfl⟩ := Option.map_eq_some_iff.mp ha
      by_cases hi : i = e
      · subst hi
        obtain rfl : b = c := Option.some.inj (hb.symm.trans hc)
        exact ⟨b, hc, by simp, by simp [hrelaying]⟩
      · exact ⟨c, hc, by simp [hi], by simpa [hi] using hlive⟩
  · have hown : s.nat.lookup b.key = some i := (h b.key i).mpr ⟨b, hb, rfl, by simp [hremoving]⟩
    rw [hnat, hassoc, respond_lookup, lookup_erase_ite]
    by_cases hi : i = e
    · subst hi
      have hgone : ¬∃ a, ((s.associations[i]?).map fun a =>
        if i = i then { a with response := .ended } else a) = some a ∧
          a.key = key ∧ a.response ≠ .ended := by
        rintro ⟨a, ha, -, hlive⟩
        obtain ⟨c, -, rfl⟩ := Option.map_eq_some_iff.mp ha
        simp at hlive
      refine iff_of_false ?_ hgone
      split
      · nofun
      · rename_i hkey
        intro he
        obtain ⟨a, ha, rfl, -⟩ := (h key i).mp he
        exact hkey (by rw [Option.some.inj (ha.symm.trans hb)])
    · simp only [hi, if_false, Option.map_id']
      split
      · rename_i hkey
        subst hkey
        refine iff_of_false nofun ?_
        rintro ⟨a, ha, hkey, hlive⟩
        exact hi (h.unique hb ha hkey.symm (by simp [hremoving]) hlive)
      · exact h key e

/-- A task has left the first lock and has not come to the second. -/
def Packet.Between (p : Packet) : Prop := p.phase = .binding ∨ p.phase = .inserting

instance (p : Packet) : Decidable p.Between := inferInstanceAs (Decidable (_ ∨ _))

/-- The keys of the table, and those of the tasks between the locks. -/
def Server.reserved (s : Server) : Finset NatKey :=
  (s.nat.keys ++ (s.packets.filter Packet.Between).map Packet.key).toFinset

theorem mem_reserved {key : NatKey} :
    key ∈ s.reserved ↔
      key ∈ s.nat ∨ ∃ (n : ℕ) (p : Packet), s.packets[n]? = some p ∧ p.Between ∧ p.key = key := by
  simp only [Server.reserved, List.mem_toFinset, List.mem_append, AList.mem_keys, List.mem_map,
    List.mem_filter,
    decide_eq_true_eq]
  refine or_congr_right ⟨?_, ?_⟩
  · rintro ⟨p, ⟨hmem, hbetween⟩, hkey⟩
    obtain ⟨n, hp⟩ := List.mem_iff_getElem?.mp hmem
    exact ⟨n, p, hp, hbetween, hkey⟩
  · rintro ⟨n, p, hp, hbetween, hkey⟩
    exact ⟨p, ⟨List.mem_of_getElem? hp, hbetween⟩, hkey⟩

theorem entries_le_reserved : s.nat.entries.length ≤ s.reserved.card := by
  have hkeys : s.nat.keys.toFinset ⊆ s.reserved := by
    intro key hkey
    exact mem_reserved.mpr (.inl (AList.mem_keys.mp (List.mem_toFinset.mp hkey)))
  have hlength : s.nat.keys.toFinset.card = s.nat.entries.length := by
    rw [List.toFinset_card_of_nodup s.nat.keys_nodup]
    exact List.length_map ..
  exact hlength ▸ Finset.card_le_card hkeys

/-- A task that the first lock lets pass finds room for its key beside those of the table and of the
tasks that are on their way to the second lock. -/
def Room (s : Server) : Event → Prop
  | .lookup n => ∀ p ∈ s.packets[n]?, s.nat.lookup p.key = none →
    s.nat.entries.length < maxSsUdpNat → (insert p.key s.reserved).card ≤ maxSsUdpNat
  | _ => True

instance (s : Server) : (l : Event) → Decidable (Room s l)
  | .lookup n => inferInstanceAs (Decidable (∀ p ∈ s.packets[n]?, _))
  | .insert .. | .receive .. | .resolve .. | .bind .. | .record .. | .send ..
    | .close .. | .remove ..
  | .openOther .. | .closeOther .. | .cancel .. | .setLimits .. => .isTrue trivial

theorem mem_reserved_enter {n : ℕ} {p : Packet} {phase : Phase} {key : NatKey}
    (hp : s.packets[n]? = some p)
    (h : key ∈ (s.enter n phase).reserved) :
    key ∈ s.reserved ∨ (phase = .binding ∨ phase = .inserting) ∧ p.key = key := by
  rcases mem_reserved.mp h with hkey | ⟨m, q, hq, hbetween, rfl⟩
  · exact .inl (mem_reserved.mpr (.inl hkey))
  · rw [Server.enter, List.getElem?_modify] at hq
    obtain ⟨q', hq', rfl⟩ := Option.map_eq_some_iff.mp hq
    by_cases hm : n = m
    · subst hm
      obtain rfl := Option.some.inj (hp.symm.trans hq')
      rw [if_pos rfl] at hbetween
      exact .inr ⟨hbetween, by rw [if_pos rfl]⟩
    · rw [if_neg hm] at hbetween ⊢
      exact .inl (mem_reserved.mpr (.inr ⟨m, q', hq', hbetween, rfl⟩))

theorem reserved_congr {t : Server} (hnat : t.nat = s.nat) (hpackets : t.packets = s.packets) :
    t.reserved = s.reserved := by
  rw [Server.reserved, Server.reserved, hnat, hpackets]

/-- Only the first lock reserves a key. -/
theorem reserved_step {key : NatKey} (hstep : step password s l = some s') (h : key ∈ s'.reserved) :
    key ∈ s.reserved ∨ ∃ n p, l = .lookup n ∧ s.packets[n]? = some p ∧ p.key = key ∧
      s.nat.lookup p.key = none ∧ s.nat.entries.length < maxSsUdpNat := by
  cases step_does hstep with
  | receive peer control =>
    unfold Server.receive at h
    split at h
    · rcases mem_reserved.mp h with hkey | ⟨n, p, hp, hbetween, rfl⟩
      · exact .inl (mem_reserved.mpr (.inl hkey))
      · rcases getElem?_snoc hp with hold | ⟨-, rfl⟩
        · exact .inl (mem_reserved.mpr (.inr ⟨n, p, hold, hbetween, rfl⟩))
        · rcases hbetween with hbetween | hbetween <;> cases hbetween
    · exact .inl h
  | openOther user source =>
    unfold Server.openOther at h
    split at h <;> exact .inl h
  | cancel | setLimits => exact .inl h
  | closeOther | close =>
    rw [reserved_congr (release_nat _ _) (release_packets _ _)] at h
    exact .inl h
  | @move _ n p phase _ hp _ _ _ _ hbinding hinserting =>
    rcases mem_reserved_enter hp h with hold | ⟨rfl | rfl, rfl⟩
    · exact .inl hold
    · obtain ⟨rfl, hnone, hroom⟩ := hbinding rfl
      exact .inr ⟨n, p, rfl, hp, rfl, hnone, hroom⟩
    · exact .inl (mem_reserved.mpr (.inr ⟨n, p, hp, .inl (hinserting rfl), rfl⟩))
  | @finish _ n p sent _ hp =>
    have hended : key ∈ (s.enter n .ended).reserved := by
      rwa [← reserved_congr (release_nat _ p.session) (release_packets _ p.session)]
    exact .inl ((mem_reserved_enter hp hended).resolve_right (by simp))
  | @insert n p hp hphase hnone =>
    rw [insertEntry_new hnone] at h
    have hown : p.key ∈ s.reserved := mem_reserved.mpr (.inr ⟨n, p, hp, .inr hphase, rfl⟩)
    rcases mem_reserved.mp h with hkey | hpacket
    · rcases AList.mem_insert _ |>.mp hkey with rfl | hkey
      · exact .inl hown
      · exact .inl (mem_reserved.mpr (.inl hkey))
    · exact .inl ((mem_reserved_enter hp (mem_reserved.mpr (.inr hpacket))).resolve_right (by simp))
  | @remove e a =>
    rcases mem_reserved.mp h with hkey | hpacket
    · exact .inl (mem_reserved.mpr (.inl (AList.mem_erase.mp hkey).2))
    · exact .inl (mem_reserved.mpr (.inr hpacket))

theorem reserved_bounded (hbound : s.reserved.card ≤ maxSsUdpNat) (hroom : Room s l)
    (hstep : step password s l = some s') : s'.reserved.card ≤ maxSsUdpNat := by
  by_cases hold : s'.reserved ⊆ s.reserved
  · exact (Finset.card_le_card hold).trans hbound
  · -- then the step is a look-up that passes, and reserves its own key
    obtain ⟨key, hkey, hnew⟩ := Finset.not_subset.mp hold
    obtain ⟨n, p, rfl, hp, -, hnone, hfull⟩ := (reserved_step hstep hkey).resolve_left hnew
    refine (Finset.card_le_card fun key' hkey' => ?_).trans (hroom p hp hnone hfull)
    rcases reserved_step hstep hkey' with hold' | ⟨m, q, hl, hq, rfl, -⟩
    · exact Finset.mem_insert_of_mem hold'
    · cases hl
      rw [Option.some.inj (hq.symm.trans hp)]
      exact Finset.mem_insert_self _ _

end

/-- At every moment of every run a key has at most one response task that has not ended, and the
task that removes its entry finds its own entry under its key. The table stays within its bound as
long as every task that passes the first lock finds room for the keys that are on their way into
the table, too. -/
theorem nat_table_bounded (password : String) (core : CoreInner) :
    (∀ ls s, Steps (step password) always (.new core) ls s →
      (∀ (e e' : ℕ) (a a' : Association), s.associations[e]? = some a →
        s.associations[e']? = some a' →
        a.key = a'.key → a.response ≠ .ended → a'.response ≠ .ended → e = e') ∧
      (∀ (e : ℕ) (a : Association), s.associations[e]? = some a → a.response = .removing →
        s.nat.lookup a.key = some e ∧ ∃ s', step password s (.remove e) = some s' ∧
          s'.nat = s.nat.erase a.key) ∧
      ∀ l s' key e, step password s l = some s' → s.nat.lookup key = some e →
        s'.nat.lookup key ≠ some e → l = .remove e) ∧
    ∀ ls s, Steps (step password) Room (.new core) ls s → s.nat.entries.length ≤ maxSsUdpNat := by
  constructor
  · intro ls s hrun
    have howned : Owned s := hrun.invariant Owned (fun _ _ _ h _ hstep => h.preserved hstep)
      (owned_new core)
    refine ⟨fun e e' a a' ha ha' => howned.unique ha ha', fun e a ha hremoving => ⟨?_, ?_⟩, ?_⟩
    · exact (howned a.key e).mpr ⟨a, ha, rfl, by simp [hremoving]⟩
    · exact ⟨{ s.respond e .ended with nat := s.nat.erase a.key },
        by simp [step, ha, hremoving, guard], rfl⟩
    · intro l s' key e hstep hentry hgone
      rcases step_nat hstep with ⟨-, hnat, -⟩ | ⟨n, p, -, -, hnone, hnat, -⟩ |
        ⟨i, b, -, -, -, hnat, -⟩ | ⟨i, b, rfl, hb, hremoving, hnat, -⟩
      · exact absurd (hnat ▸ hentry) hgone
      · rw [hnat, lookup_insert_ite] at hgone
        split at hgone
        · rename_i hkey
          rw [hkey, hnone] at hentry
          cases hentry
        · exact absurd hentry hgone
      · exact absurd (hnat ▸ hentry) hgone
      · rw [hnat, lookup_erase_ite] at hgone
        split at hgone
        · rename_i hkey
          have hown := (howned b.key i).mpr ⟨b, hb, rfl, by simp [hremoving]⟩
          rw [hkey, hown] at hentry
          rw [Option.some.inj hentry]
        · exact absurd hentry hgone
  · intro ls s hrun
    have hbound : s.reserved.card ≤ maxSsUdpNat :=
      hrun.invariant (fun s => s.reserved.card ≤ maxSsUdpNat)
        (fun _ _ _ hbound hroom hstep => reserved_bounded hbound hroom hstep) (Nat.zero_le _)
    exact entries_le_reserved.trans hbound

/-! ### More tasks than the table has room for -/

def openCore : CoreInner :=
  { CoreInner.empty with
    heap := [UserState.new (CoreUser.password "user" "secret") ∅]
    users := (∅ : Map String ℕ).insert "user" 0 }

def floodPeer (i : ℕ) : SocketAddr := { ip := .v4 10 0 0 1, port := UInt16.ofNat i }

def floodControl : Option Control := some { clientSessionId := 0, user := some "user" }

def floodKey (i : ℕ) : NatKey := { user := "user", peer := floodPeer i, clientSessionId := 0 }

theorem floodKey_inj {i j : ℕ} (hi : i < 65536) (hj : j < 65536) (h : floodKey i = floodKey j) :
    i = j := by
  have hport : UInt16.ofNat i = UInt16.ofNat j := congrArg (fun key => key.peer.port) h
  have := congrArg UInt16.toNat hport
  rwa [UInt16.toNat_ofNat_of_lt' hi, UInt16.toNat_ofNat_of_lt' hj] at this

/-- The user is known and has no limits. -/
def Unlimited (core : CoreInner) : Prop :=
  core.users.lookup "user" = some 0 ∧ ∃ u, core.heap[0]? = some u ∧ u.id = "user" ∧
    u.limits = .unlimited

theorem Unlimited.opens {core : CoreInner} (h : Unlimited core) (source : Option IpAddr) :
    ∃ session core', core.openSessionWithSource "user" source = (.ok session, core') ∧
      userId core' session = "user" ∧ Unlimited core' := by
  obtain ⟨huser, u, hu, hid, hlimits⟩ := h
  have hadmits : ∀ ip, u.admits u.limits ip = .ok () := by
    intro ip
    rw [hlimits]
    rfl
  refine ⟨⟨0, core.sessionSeq + 1⟩, ({ core with sessionSeq := core.sessionSeq + 1 }.modifyUser 0
      (·.register (core.sessionSeq + 1) (source.map normalizeIp))).send
        (.sessionOpened u.id (core.sessionSeq + 1) (source.map normalizeIp)), ?_, ?_, huser,
          u.register (core.sessionSeq + 1) (source.map normalizeIp), ?_,
    hid, hlimits⟩
  · simp only [CoreInner.openSessionWithSource, huser, hu, Option.map_some, Option.getD_some]
    exact @insertSession_admitted { core with sessionSeq := core.sessionSeq + 1 } 0 u u.limits
      source hu (hadmits _) _
  · simp [userId, hu, UserState.register, UserState.updateOnlineCounts, hid]
  · simp [hu]

def arrival (i n : ℕ) : List Event :=
  [.receive (floodPeer i) floodControl, .resolve n true, .lookup n, .bind n true]

theorem arrival_run {password : String} {s : Server} (hcore : Unlimited s.core)
    (hnat : s.nat = ∅) (i : ℕ) :
    ∃ s' session, Steps (step password) always s (arrival i s.packets.length) s' ∧
      Unlimited s'.core ∧ s'.nat = ∅ ∧
      s'.packets = s.packets ++ [{ key := floodKey i, session, phase := .inserting }] := by
  obtain ⟨session, core, hopen, huser, hcore'⟩ := hcore.opens (some (floodPeer i).ip)
  have hreceive : s.receive password (floodPeer i) floodControl =
      { s with core, packets := s.packets ++
        [{ key := floodKey i, session, phase := .resolving }] } := by
    have hsession : shadowsocksUdpCoreSession password s.core (floodPeer i) floodControl =
      (.ok session, core) := hopen
    simp only [Server.receive, hsession, huser]
    rfl
  refine ⟨{ s with core, packets := s.packets ++
    [{ key := floodKey i, session, phase := .inserting }] }, session,
    replay_steps ?_, hcore', hnat, rfl⟩
  simp [replay, arrival, step, hreceive, Server.enter, Server.lookUp, modify_snoc, guard,
    hnat, maxSsUdpNat]

theorem flood_run (password : String) (count : ℕ) :
    ∃ ls s, Steps (step password) always (.new openCore) ls s ∧ Unlimited s.core ∧ s.nat = ∅ ∧
      s.packets.length = count ∧
      ∀ i < count, ∃ session, s.packets[i]? =
        some { key := floodKey i, session, phase := .inserting } := by
  induction count with
  | zero => exact ⟨[], _, .nil, ⟨rfl, _, rfl, rfl, rfl⟩, rfl, rfl, nofun⟩
  | succ count ih =>
    obtain ⟨ls, s, hrun, hcore, hnat, hlength, hpackets⟩ := ih
    obtain ⟨s', session, harrival, hcore', hnat', hpackets'⟩ := arrival_run hcore hnat count
    refine ⟨_, s', hrun.append harrival, hcore', hnat', by simp [hpackets', hlength], fun i hi =>
      ?_⟩
    rw [hpackets']
    rcases Nat.lt_succ_iff_lt_or_eq.mp hi with hi | rfl
    · obtain ⟨old, hold⟩ := hpackets i hi
      exact ⟨old, getElem?_snoc_left hold⟩
    · exact ⟨session, by rw [← hlength]; exact List.getElem?_concat_length⟩

theorem insert_run {password : String} {s : Server} {count : ℕ} (hcount : count ≤ 65536)
    (hnat : s.nat = ∅)
    (hpackets : ∀ i < count, ∃ session,
      s.packets[i]? = some { key := floodKey i, session, phase := .inserting })
    (j : ℕ) (hj : j ≤ count) :
    ∃ ls s', Steps (step password) always s ls s' ∧ s'.nat.entries.length = j ∧
      ∀ i < count, j ≤ i → s'.nat.lookup (floodKey i) = none ∧
        ∃ session, s'.packets[i]? = some { key := floodKey i, session, phase := .inserting } := by
  induction j with
  | zero => exact ⟨[], s, .nil, by rw [hnat]; rfl, fun i hi _ => ⟨by rw [hnat]; rfl, hpackets i hi⟩⟩
  | succ j ih =>
    obtain ⟨ls, mid, hrun, hlength, hrest⟩ := ih (by omega)
    obtain ⟨hnone, session, hp⟩ := hrest j (by omega) (Nat.le_refl _)
    have hstep : step password mid (.insert j) =
        some (mid.insertEntry j { key := floodKey j, session, phase := .inserting }) := by
      simp [step, hp, guard]
    rw [insertEntry_new hnone] at hstep
    refine ⟨_, _, hrun.append (.cons trivial hstep .nil), ?_, fun i hi hji => ?_⟩
    · show (mid.nat.insert (floodKey j) _).entries.length = j + 1
      rw [AList.entries_insert_of_notMem (AList.lookup_eq_none.mp hnone), List.length_cons, hlength]
    · obtain ⟨hnone', session', hp'⟩ := hrest i hi (by omega)
      have hne : i ≠ j := by omega
      refine ⟨?_, session', ?_⟩
      · show (mid.nat.insert (floodKey j) _).lookup (floodKey i) = none
        rw [lookup_insert_ite, if_neg fun h => hne (floodKey_inj (by omega) (by omega) h)]
        exact hnone'
      · show (mid.packets.modify j _)[i]? = _
        rw [List.getElem?_modify_ne _ _ hne.symm]
        exact hp'

/-- 1025 tasks look the table up while it is empty, and insert their entries one after the other. -/
theorem table_outgrows_bound :
    ∃ ls s, Steps (step "secret") always (.new openCore) ls s ∧
      maxSsUdpNat < s.nat.entries.length := by
  obtain ⟨ls, s, hrun, -, hnat, -, hpackets⟩ := flood_run "secret" 1025
  obtain ⟨ls', s', hrun', hlength, -⟩ :=
    @insert_run "secret" s 1025 (by omega) hnat hpackets 1025 (Nat.le_refl _)
  exact ⟨ls ++ ls', s', hrun.append hrun', by rw [hlength, maxSsUdpNat]; omega⟩

/-- Two datagrams of one peer at once share an entry. -/
theorem shared_entry_bounded :
    ∃ s, Steps (step "secret") Room (.new openCore)
        (arrival 7 0 ++ arrival 7 1 ++ [.insert 0, .insert 1, .close 0, .remove 0]) s ∧
      s.nat.entries.length ≤ maxSsUdpNat := by
  have hrun : ∃ s, Steps (guarded (step "secret") Room) always (.new openCore)
      (arrival 7 0 ++ arrival 7 1 ++ [.insert 0, .insert 1, .close 0, .remove 0]) s ∧
        s.nat.entries.length = 0 := by
    exact (steps_of_replay (p := fun s : Server => s.nat.entries.length = 0)
      (by decide +kernel)).imp fun _ h =>
      ⟨h.1, of_decide_eq_true h.2⟩
  obtain ⟨s, hrun, -⟩ := hrun
  exact ⟨s, hrun.of_guarded, (nat_table_bounded "secret" openCore).2 _ s hrun.of_guarded⟩

end Aerion.Shadowsocks.UdpNat
