import Aerion.Core.Leases
import Aerion.Shadowsocks.UdpNat

/-!
# Session limits of Shadowsocks datagrams

Every datagram opens a core session of its own before the NAT table is looked
at, and the response task of an association keeps the session of the datagram
that made it. So an association occupies a session of its user as long as it
lives, and each of its datagrams needs a further one.

The sessions that are open are counted from the tasks that hold them.
-/

namespace Aerion.Shadowsocks.UdpNat

open Aerion.Core Aerion.Net Lib

/-- The sessions of a user that are held and were not cancelled. -/
def Server.occupied (s : Server) (ref : ℕ) : Finset ℕ :=
  ((s.holders.filter fun x => x.user = ref).map ActiveSession.sessionId).toFinset \ s.core.cancelled

/-- The account of a datagram: the user that its control data name, or that the password has. -/
def accountOf (password : String) (core : CoreInner) (control : Option Control) : Option ℕ :=
  match control.bind (·.user) with
  | some user => core.users.lookup user
  | none => (core.credentials.users.lookup (trim password)).bind core.users.lookup

def delivery (peer : SocketAddr) (control : Option Control) (n : ℕ) : List Event :=
  [.receive peer control, .resolve n true, .lookup n, .record n true, .send n true]

/-- A datagram that arrives now is sent through an entry. -/
def Forwarded (password : String) (s : Server) (peer : SocketAddr) (control : Option Control)
    (e : ℕ) : Prop :=
  ∃ s', replay (step password) s (delivery peer control s.packets.length) = some s' ∧
    s'.sent = s.sent ++ [(s.packets.length, e)]

/-- No session is open. -/
def Idle (core : CoreInner) : Prop :=
  (∀ u ∈ core.heap, u.sessions = ∅) ∧ ∀ id ∈ core.cancelled, id ≤ core.sessionSeq

theorem mem_occupied {s : Server} {ref id : ℕ} :
    id ∈ s.occupied ref ↔ ⟨ref, id⟩ ∈ s.holders ∧ id ∉ s.core.cancelled := by
  simp only [Server.occupied, Finset.mem_sdiff, List.mem_toFinset, List.mem_map, List.mem_filter,
    decide_eq_true_eq]
  refine and_congr_left fun _ => ⟨?_, fun h => ⟨_, ⟨h, rfl⟩, rfl⟩⟩
  rintro ⟨x, ⟨hx, rfl⟩, rfl⟩
  exact hx

/-! ### The tasks hold the sessions that are open -/

section
variable {password : String} {s s' : Server} {l : Event} {x : ActiveSession}

theorem mem_holders : x ∈ s.holders ↔
    (∃ p ∈ s.packets, p.phase ≠ .ended ∧ p.session = x) ∨
      (∃ a ∈ s.associations, a.response = .relaying ∧ a.session = x) ∨ x ∈ s.others := by
  simp [Server.holders, and_assoc]

/-- The open sessions are the ones that are held, each registered for the key it belongs to. -/
structure Counted (s : Server) : Prop where
  leases : Leases s.core (· ∈ s.holders)
  packets : ∀ p ∈ s.packets, p.phase ≠ .ended → Placed s.core p.key.user p.key.peer.ip p.session
  associations : ∀ a ∈ s.associations, a.response = .relaying →
    Placed s.core a.key.user a.key.peer.ip a.session

theorem counted_new {core : CoreInner} (h : Idle core) : Counted (.new core) := by
  refine ⟨⟨fun ref u id hu => ?_, nofun, nofun, nofun, h.2⟩, nofun, nofun⟩
  rw [h.1 u (List.mem_of_getElem? hu)]
  exact iff_of_false (AList.notMem_empty id) nofun

theorem Counted.drawn (h : Counted s) (hx : x ∈ s.holders) : x.sessionId ≤ s.core.sessionSeq :=
    h.leases.drawn x hx

theorem Counted.packet_held (h : Counted s) {p : Packet} (hp : p ∈ s.packets)
    (hphase : p.phase ≠ .ended) :
    p.session.sessionId ≤ s.core.sessionSeq :=
  h.drawn (mem_holders.mpr (.inl ⟨p, hp, hphase, rfl⟩))

theorem Counted.association_held (h : Counted s) {a : Association} (ha : a ∈ s.associations)
    (hresponse : a.response = .relaying) : a.session.sessionId ≤ s.core.sessionSeq :=
  h.drawn (mem_holders.mpr (.inr (.inl ⟨a, ha, hresponse, rfl⟩)))

theorem Counted.core (h : Counted s) {core : CoreInner} (hleases : Leases core (· ∈ s.holders))
    (hplaced : ∀ user ip x, x ∈ s.holders → Placed s.core user ip x → Placed core user ip x) :
    Counted { s with core } where
  leases := hleases
  packets p hp hphase := hplaced _ _ _ (mem_holders.mpr (.inl ⟨p, hp, hphase, rfl⟩))
    (h.packets p hp hphase)
  associations a ha hresponse :=
    hplaced _ _ _ (mem_holders.mpr (.inr (.inl ⟨a, ha, hresponse, rfl⟩)))
      (h.associations a ha hresponse)

theorem Counted.released (h : Counted s) {t : Server} (hcore : t.core = s.core) (hx : x ∈ s.holders)
    (hless : ∀ y ∈ t.holders, y ∈ s.holders) (hkept : ∀ y ∈ s.holders, y ∈ t.holders ∨ y = x)
    (hpackets : ∀ p ∈ t.packets, p.phase ≠ .ended →
      Placed s.core p.key.user p.key.peer.ip p.session)
    (hassociations : ∀ a ∈ t.associations, a.response = .relaying →
      Placed s.core a.key.user a.key.peer.ip a.session) : Counted (t.release x) := by
  unfold Server.release
  split
  · rename_i hheld
    refine ⟨?_, fun p hp hphase => hcore ▸ hpackets p hp hphase, fun a ha hr =>
      hcore ▸ hassociations a ha hr⟩
    rw [hcore]
    refine h.leases.congr fun y => ⟨hless y, fun hy => ?_⟩
    rcases hkept y hy with hy | rfl
    · exact hy
    · exact hheld
  · rename_i hgone
    rw [hcore]
    refine ⟨?_, fun p hp hphase => ?_, fun a ha hr => ?_⟩
    · refine h.leases.closed.congr fun y => ⟨fun hy => ⟨hless y hy, ?_⟩, fun ⟨hy, hne⟩ => ?_⟩
      · rintro rfl
        exact hgone hy
      · exact (hkept y hy).resolve_right hne
    · refine (hpackets p hp hphase).closed ?_
      rintro rfl
      exact hgone (mem_holders.mpr (.inl ⟨p, hp, hphase, rfl⟩))
    · refine (hassociations a ha hr).closed ?_
      rintro rfl
      exact hgone (mem_holders.mpr (.inr (.inl ⟨a, ha, hr, rfl⟩)))

end

section
variable {password : String} {s s' : Server} {l : Event} {x : ActiveSession}

theorem holders_enter {n : ℕ} {p : Packet} {phase : Phase} (hp : s.packets[n]? = some p)
    (hphase : p.phase ≠ .ended)
    (hnext : phase ≠ .ended) : x ∈ (s.enter n phase).holders ↔ x ∈ s.holders := by
  rw [mem_holders, mem_holders]
  exact or_congr_left (exists_mem_modify hp (by simp [hphase, hnext]))

theorem Counted.enter (h : Counted s) {n : ℕ} {p : Packet} {phase : Phase}
    (hp : s.packets[n]? = some p)
    (hphase : p.phase ≠ .ended) (hnext : phase ≠ .ended) : Counted (s.enter n phase) where
  leases := h.leases.congr fun _ => holders_enter hp hphase hnext
  packets q hq hlive := by
    rcases mem_modify hq with hq | ⟨b, hb, rfl⟩
    · exact h.packets q hq hlive
    · obtain rfl := Option.some.inj (hp.symm.trans hb)
      exact h.packets p (List.mem_of_getElem? hp) hphase
  associations := h.associations

theorem Counted.finish (h : Counted s) {n : ℕ} {p : Packet} (hp : s.packets[n]? = some p)
    (hphase : p.phase ≠ .ended) :
    Counted (s.finish n p) := by
  have hmem := List.mem_of_getElem? hp
  have hlive : ∀ q ∈ (s.enter n .ended).packets, q.phase ≠ .ended → q ∈ s.packets := by
    intro q hq hlive
    rcases mem_modify hq with hq | ⟨b, -, rfl⟩
    · exact hq
    · exact absurd rfl hlive
  refine h.released rfl (mem_holders.mpr (.inl ⟨p, hmem, hphase, rfl⟩)) ?_ ?_ ?_ h.associations
  · intro y hy
    rcases mem_holders.mp hy with ⟨q, hq, hqphase, rfl⟩ | hy
    · exact mem_holders.mpr (.inl ⟨q, hlive q hq hqphase, hqphase, rfl⟩)
    · exact mem_holders.mpr (.inr hy)
  · intro y hy
    rcases mem_holders.mp hy with ⟨q, hq, hqphase, rfl⟩ | hy
    · rcases mem_modify_of_mem (f := fun p => { p with phase := Phase.ended }) hp hq with hq | rfl
      · exact .inl (mem_holders.mpr (.inl ⟨q, hq, hqphase, rfl⟩))
      · exact .inr rfl
    · exact .inl (mem_holders.mpr (.inr hy))
  · intro q hq hqphase
    exact h.packets q (hlive q hq hqphase) hqphase

theorem Counted.close (h : Counted s) {e : ℕ} {a : Association} (ha : s.associations[e]? = some a)
    (hrelaying : a.response = .relaying) : Counted ((s.respond e .removing).release a.session) := by
  have hmem := List.mem_of_getElem? ha
  have hlive : ∀ b ∈ (s.respond e .removing).associations, b.response = .relaying →
    b ∈ s.associations := by
    intro b hb hlive
    rcases mem_modify hb with hb | ⟨c, -, rfl⟩
    · exact hb
    · cases hlive
  refine h.released rfl (mem_holders.mpr (.inr (.inl ⟨a, hmem, hrelaying, rfl⟩))) ?_ ?_ h.packets ?_
  · intro y hy
    rcases mem_holders.mp hy with hy | ⟨b, hb, hbresponse, rfl⟩ | hy
    · exact mem_holders.mpr (.inl hy)
    · exact mem_holders.mpr (.inr (.inl ⟨b, hlive b hb hbresponse, hbresponse, rfl⟩))
    · exact mem_holders.mpr (.inr (.inr hy))
  · intro y hy
    rcases mem_holders.mp hy with hy | ⟨b, hb, hbresponse, rfl⟩ | hy
    · exact .inl (mem_holders.mpr (.inl hy))
    · rcases mem_modify_of_mem (f := fun a => { a with response := Response.removing }) ha
        hb with hb | rfl
      · exact .inl (mem_holders.mpr (.inr (.inl ⟨b, hb, hbresponse, rfl⟩)))
      · exact .inr rfl
    · exact .inl (mem_holders.mpr (.inr (.inr hy)))
  · intro b hb hbresponse
    exact h.associations b (hlive b hb hbresponse) hbresponse

theorem Counted.closeOther (h : Counted s) {i : ℕ} (hx : s.others[i]? = some x) :
    Counted ({ s with others := s.others.eraseIdx i }.release x) := by
  refine h.released rfl (mem_holders.mpr (.inr (.inr (List.mem_of_getElem? hx)))) ?_ ?_ h.packets
    h.associations
  · intro y hy
    rcases mem_holders.mp hy with hy | hy | hy
    · exact mem_holders.mpr (.inl hy)
    · exact mem_holders.mpr (.inr (.inl hy))
    · exact mem_holders.mpr (.inr (.inr (List.mem_of_mem_eraseIdx hy)))
  · intro y hy
    rcases mem_holders.mp hy with hy | hy | hy
    · exact .inl (mem_holders.mpr (.inl hy))
    · exact .inl (mem_holders.mpr (.inr (.inl hy)))
    · by_cases hyx : y = x
      · exact .inr hyx
      · obtain ⟨j, hj⟩ := List.mem_iff_getElem?.mp hy
        have hij : j ≠ i := by
          rintro rfl
          exact hyx (Option.some.inj (hj.symm.trans hx))
        exact .inl (mem_holders.mpr (.inr (.inr (List.mem_eraseIdx_iff_getElem?.mpr ⟨j, hij, hj⟩))))

theorem coreSession_eq (password : String) (peer : SocketAddr) (control : Option Control)
    (core : CoreInner) :
    (∃ user, shadowsocksUdpCoreSession password core peer control = core.openSessionWithSource user
      (some peer.ip) ∧ core.users.lookup user = accountOf password core control) ∨
      shadowsocksUdpCoreSession password core peer control =
        (.error "core authentication failed", core) ∧ accountOf password core control = none := by
  unfold shadowsocksUdpCoreSession accountOf CoreInner.authenticateFrom
    CoreInner.authenticateWithSource
  cases control.bind (·.user) with
  | some user => exact .inl ⟨user, rfl, rfl⟩
  | none =>
    dsimp only
    cases core.credentials.users.lookup (trim password) with
    | some user => exact .inl ⟨user, rfl, rfl⟩
    | none => exact .inr ⟨rfl, rfl⟩

theorem Counted.openedBy (h : Counted s) {user : String} {source : Option IpAddr} {core : CoreInner}
    (hopen : s.core.openSessionWithSource user source = (.ok x, core))
    {t : Server} (hcore : t.core = core)
    (hholders : ∀ y, y ∈ t.holders ↔ y ∈ s.holders ∨ y = x)
    (hpackets : ∀ p ∈ t.packets, p ∈ s.packets ∨ Placed core p.key.user p.key.peer.ip p.session)
    (hassociations : t.associations = s.associations) : Counted t := by
  refine ⟨?_, fun p hp hphase => ?_, fun a ha hresponse => ?_⟩
  · rw [hcore]
    exact (h.leases.opened hopen).congr hholders
  · rw [hcore]
    rcases hpackets p hp with hp | hplaced
    · exact (h.packets p hp hphase).opened hopen (h.packet_held hp hphase)
    · exact hplaced
  · rw [hcore]
    rw [hassociations] at ha
    exact (h.associations a ha hresponse).opened hopen (h.association_held ha hresponse)

theorem Counted.refusedBy (h : Counted s) {user e : String} {source : Option IpAddr}
    {core : CoreInner}
    (hopen : s.core.openSessionWithSource user source = (.error e, core)) :
      Counted { s with core } :=
  h.core (h.leases.refused hopen) fun _ _ _ _ hplaced => hplaced.refused hopen

theorem Counted.receive (h : Counted s) (peer : SocketAddr) (control : Option Control) :
    Counted (s.receive password peer control) := by
  unfold Server.receive
  rcases coreSession_eq password peer control s.core with ⟨user, hsession, -⟩ | ⟨hsession, -⟩
  · rw [hsession]
    split
    · rename_i x core hopen
      obtain ⟨u, hu, hplaced⟩ := placed_opened hopen
      have hname : userId core x = u.id := by
        obtain ⟨v, hv, hid, -⟩ := hplaced
        simp [userId, hv, hid]
      refine h.openedBy hopen rfl (fun y => ?_) (fun p hp => ?_) rfl
      · rw [mem_holders, mem_holders]
        simp [or_and_right, exists_or, or_assoc, or_comm, or_left_comm, eq_comm]
      · rcases List.mem_append.mp hp with hp | hp
        · exact .inl hp
        · rw [List.mem_singleton.mp hp]
          refine .inr ?_
          show Placed core (userId core x) peer.ip x
          rw [hname]
          exact hplaced
    · rename_i e core hopen
      exact h.refusedBy hopen
  · rw [hsession]
    exact h

theorem Counted.openOther (h : Counted s) (user : String) (source : Option IpAddr) :
    Counted (s.openOther user source) := by
  unfold Server.openOther
  split
  · rename_i x core hopen
    refine h.openedBy hopen rfl (fun y => ?_) (fun p hp => .inl hp) rfl
    rw [mem_holders, mem_holders]
    simp [or_assoc]
  · rename_i e core hopen
    exact h.refusedBy hopen

theorem Counted.preserved (h : Counted s) (hstep : step password s l = some s') : Counted s' := by
  cases step_does hstep with
  | receive peer control => exact h.receive peer control
  | openOther user source => exact h.openOther user source
  | move _ hp hphase hnext => exact h.enter hp hphase hnext
  | finish sent _ hp hphase =>
    obtain ⟨hleases, hpackets, hassociations⟩ := h.finish hp hphase
    exact ⟨hleases, hpackets, hassociations⟩
  | @insert n p hp hphase hkey =>
    have hlive : p.phase ≠ .ended := by simp [hphase]
    have hnext : Phase.recording s.associations.length ≠ .ended := nofun
    have hmoved := h.enter hp hlive hnext
    have hheld := mem_holders.mpr (.inl ⟨p, List.mem_of_getElem? hp, hlive, rfl⟩)
    rw [insertEntry_new hkey]
    refine ⟨hmoved.leases.congr fun y => ?_, hmoved.packets, fun a ha hresponse => ?_⟩
    · -- The session of the new response task is held by the task of the datagram already.
      have hadded : y ∈ (s.enter n (.recording s.associations.length)).holders ∨ y = p.session ↔
          y ∈ (s.enter n (.recording s.associations.length)).holders := by
        refine or_iff_left_of_imp ?_
        rintro rfl
        exact (holders_enter hp hlive hnext).mpr hheld
      rw [← hadded, mem_holders, mem_holders]
      simp [Server.enter, or_and_right, exists_or, or_assoc, or_comm, or_left_comm, eq_comm]
    · rcases List.mem_append.mp ha with ha | ha
      · exact h.associations a ha hresponse
      · rw [List.mem_singleton.mp ha]
        exact h.packets p (List.mem_of_getElem? hp) hlive
  | close ha hrelaying => exact h.close ha hrelaying
  | @remove e a ha hremoving =>
    have hiff : ∀ y, y ∈ (s.respond e .ended).holders ↔ y ∈ s.holders := by
      intro y
      rw [mem_holders, mem_holders]
      exact or_congr_right (or_congr_left (exists_mem_modify ha (by simp [hremoving])))
    refine ⟨h.leases.congr hiff, h.packets, fun b hb hresponse => ?_⟩
    rcases mem_modify hb with hb | ⟨c, -, rfl⟩
    · exact h.associations b hb hresponse
    · cases hresponse
  | closeOther hx => exact h.closeOther hx
  | cancel ref => exact h.core (h.leases.cancel ref) fun _ _ _ _ hplaced => hplaced.cancel ref
  | setLimits ref limits =>
    exact h.core (h.leases.setLimits ref limits) fun _ _ _ _ hplaced => hplaced.setLimits ref limits

end

/-! ### Datagrams of an association that exists -/

section
variable {password : String} {s : Server} {e : ℕ} {a : Association} {control : Option Control}
    {u : UserState}

/-- The datagram is one of the association: it has the same account and the same client session. -/
def Belongs (password : String) (s : Server) (control : Option Control) (a : Association) : Prop :=
  accountOf password s.core control = some a.session.user ∧
    clientSessionId control = a.key.clientSessionId

theorem Counted.admits_iff (h : Counted s) (ha : s.associations[e]? = some a)
    (hlive : a.response = .relaying)
    (hactive : a.session.sessionId ∉ s.core.cancelled)
    (hu : s.core.heap[a.session.user]? = some u) :
    u.admits u.limits (some (normalizeIp a.key.peer.ip)) = .ok () ↔
      ∀ limit, positive u.limits.maxOnlineSessions = some limit →
        (s.occupied a.session.user).card < limit := by
  have hcount : u.sessions.entries.length = (s.occupied a.session.user).card :=
    h.leases.count hu fun id => mem_occupied
  have hips : u.ipsWithin u.limits (some (normalizeIp a.key.peer.ip)) = true := by
    obtain ⟨v, hv, -, hslot⟩ := h.associations a (List.mem_of_getElem? ha) hlive
    obtain rfl := Option.some.inj (hu.symm.trans hv)
    have honline : normalizeIp a.key.peer.ip ∈ sourceIps u.sessions :=
      UserState.mem_sourceIps.mpr ⟨_, mem_entries.mpr (hslot hactive), rfl⟩
    unfold UserState.ipsWithin
    split
    · rename_i limit ip _ hip
      cases hip
      simp [honline]
    · rfl
  have hwithin : u.sessionsWithin u.limits = true ↔
      ∀ limit, positive u.limits.maxOnlineSessions = some limit →
        (s.occupied a.session.user).card < limit := by
    unfold UserState.sessionsWithin
    split
    · rename_i limit hlimit
      simp [hcount, hlimit]
    · rename_i hnone
      simp [hnone]
  rw [← hwithin, UserState.admits]
  cases u.sessionsWithin u.limits <;> simp [hips]

theorem forwarded_of_received {peer : SocketAddr} {x : ActiveSession} {core : CoreInner}
    {key : NatKey}
    (hreceive : s.receive password peer control =
      { s with core, packets := s.packets ++ [{ key, session := x, phase := .resolving }] })
    (hentry : s.nat.lookup key = some e) : Forwarded password s peer control e := by
  let p : Packet := { key, session := x, phase := .sending e }
  refine ⟨{ ({ s with core, packets := s.packets ++ [p] } : Server).finish s.packets.length p with
    sent := s.sent ++ [(s.packets.length, e)] }, ?_, rfl⟩
  simp [replay, delivery, step, hreceive, Server.enter, Server.lookUp, modify_snoc, guard, hentry, p]

theorem not_forwarded_of_refused {peer : SocketAddr} {core : CoreInner}
    (hreceive : s.receive password peer control = { s with core }) :
      ¬Forwarded password s peer control e := by
  rintro ⟨s', hreplay, -⟩
  simp [replay, delivery, step, hreceive] at hreplay

/-- In every state that is reached, an association that relays occupies a session of its user, and
a datagram of it is forwarded exactly when the sessions that are held leave one free. -/
theorem datagram_forwarded_iff {core : CoreInner} (hidle : Idle core) {ls : List Event}
    (hrun : Steps (step password) always (.new core) ls s) (ha : s.associations[e]? = some a)
    (hlive : a.response = .relaying) (hactive : a.session.sessionId ∉ s.core.cancelled)
    (hbelongs : Belongs password s control a) (hu : s.core.heap[a.session.user]? = some u) :
    a.session.sessionId ∈ s.occupied a.session.user ∧
      (Forwarded password s a.key.peer control e ↔
        ∀ limit, positive u.limits.maxOnlineSessions = some limit →
          (s.occupied a.session.user).card < limit) := by
  have hcounted : Counted s := hrun.invariant Counted (fun _ _ _ h _ hstep => h.preserved hstep)
    (counted_new hidle)
  have howned : Owned s := hrun.invariant Owned (fun _ _ _ h _ hstep => h.preserved hstep)
    (owned_new core)
  refine ⟨mem_occupied.mpr ⟨mem_holders.mpr (.inr (.inl ⟨a, List.mem_of_getElem? ha, hlive, rfl⟩)),
    hactive⟩, ?_⟩
  rw [← hcounted.admits_iff ha hlive hactive hu]
  obtain ⟨haccount, hclient⟩ := hbelongs
  rcases coreSession_eq password a.key.peer control s.core with ⟨user, hsession, huser⟩ | ⟨-, hnone⟩
  · rw [haccount] at huser
    cases hopen : s.core.openSessionWithSource user (some a.key.peer.ip) with
    | mk result core' =>
      cases result with
      | ok x =>
        obtain ⟨v, huser', hv, hadmits, -, -⟩ := openSession_ok hopen
        obtain ⟨w, hw, hplaced⟩ := placed_opened hopen
        have hsame : a.session.user = x.user := Option.some.inj (huser.symm.trans huser')
        rw [← hsame] at hv hw
        obtain rfl := Option.some.inj (hu.symm.trans hv)
        obtain rfl := Option.some.inj (hu.symm.trans hw)
        obtain ⟨v, hv, hname, -⟩ := hcounted.associations a (List.mem_of_getElem? ha) hlive
        obtain rfl := Option.some.inj (hu.symm.trans hv)
        have hkey : (⟨userId core' x, a.key.peer, clientSessionId control⟩ : NatKey) = a.key := by
          obtain ⟨w, hw, hid, -⟩ := hplaced
          rw [hclient, show userId core' x = a.key.user by simp [userId, hw, hid, hname]]
        have hreceive : s.receive password a.key.peer control = { s with
            core := core'
            packets := s.packets ++ [{ key := a.key, session := x, phase := .resolving }] } := by
          rw [Server.receive, hsession, hopen]
          simp only [hkey]
        have hentry : s.nat.lookup a.key = some e :=
          (howned a.key e).mpr ⟨a, ha, rfl, by simp [hlive]⟩
        exact iff_of_true (forwarded_of_received hreceive hentry) hadmits
      | error message =>
        have hreceive : s.receive password a.key.peer control = { s with core := core' } := by
          rw [Server.receive, hsession, hopen]
        refine iff_of_false (not_forwarded_of_refused hreceive) fun hadmits => ?_
        have hok := @insertSession_admitted { s.core with sessionSeq := s.core.sessionSeq + 1 }
          a.session.user u
          u.limits (some a.key.peer.ip) hu hadmits (s.core.sessionSeq + 1)
        simp only [CoreInner.openSessionWithSource, huser, hu, Option.map_some,
          Option.getD_some] at hopen
        rw [hok] at hopen
        cases hopen
  · rw [haccount] at hnone
    cases hnone

end

def limitedCore (limit : ℕ) : CoreInner :=
  { CoreInner.empty with
    heap := [UserState.new
      { CoreUser.password "user" "secret" with maxOnlineSessions := some limit } ∅]
    users := (∅ : Map String ℕ).insert "user" 0 }

def firstDatagram : List Event := arrival 7 0 ++ [.insert 0, .record 0 true, .send 0 true]

theorem limitedCore_idle (limit : ℕ) : Idle (limitedCore limit) := by
  refine ⟨fun u hu => ?_, nofun⟩
  rw [List.mem_singleton.mp hu]
  rfl

/-- The first association relays, and a datagram of it comes for a user whose limit is as given. -/
def secondArrives (limit : ℕ) (s : Server) (a : Association) (u : UserState) : Prop :=
  a.response = .relaying ∧ a.session.sessionId ∉ s.core.cancelled ∧
    Belongs "secret" s floodControl a ∧ u.limits.maxOnlineSessions = some limit

instance (password : String) (s : Server) (control : Option Control) (a : Association) :
    Decidable (Belongs password s control a) :=
  inferInstanceAs (Decidable (_ ∧ _))

instance (limit : ℕ) (s : Server) (a : Association) (u : UserState) :
    Decidable (secondArrives limit s a u) :=
  inferInstanceAs (Decidable (_ ∧ _ ∧ _ ∧ _))

theorem after_first {limit : ℕ} {test : Server → Association → Bool}
    (h : (replay (step "secret") (.new (limitedCore limit)) firstDatagram).any (fun s =>
      (s.associations[0]?).any fun a => (s.core.heap[a.session.user]?).any fun u =>
        decide (secondArrives limit s a u) && test s a) = true) :
    ∃ s a u, Steps (step "secret") always (.new (limitedCore limit)) firstDatagram s ∧
      s.associations[0]? = some a ∧
      s.core.heap[a.session.user]? = some u ∧ secondArrives limit s a u ∧ test s a = true := by
  obtain ⟨s, hrun, hs⟩ := steps_of_replay h
  obtain ⟨a, ha, hs⟩ := Option.any_eq_true _ _ |>.mp hs
  obtain ⟨u, hu, hs⟩ := Option.any_eq_true _ _ |>.mp hs
  obtain ⟨harrives, htest⟩ := Bool.and_eq_true_iff.mp hs
  exact ⟨s, a, u, hrun, ha, hu, of_decide_eq_true harrives, htest⟩

/-- With a limit of one session the second datagram of the association is refused. -/
theorem second_datagram_refused :
    ∃ s a u, Steps (step "secret") always (.new (limitedCore 1)) firstDatagram s ∧
      s.associations[0]? = some a ∧ s.core.heap[a.session.user]? = some u ∧ secondArrives 1 s a u ∧
      ¬Forwarded "secret" s a.key.peer floodControl 0 := by
  obtain ⟨s, a, u, hrun, ha, hu, harrives, hnone⟩ := @after_first 1
    (fun s a => (replay (step "secret") s
      (delivery a.key.peer floodControl s.packets.length)).isNone) (by decide +kernel)
  refine ⟨s, a, u, hrun, ha, hu, harrives, ?_⟩
  rintro ⟨s', hreplay, -⟩
  rw [hreplay] at hnone
  cases hnone

theorem second_datagram_forwarded :
    ∃ s a u, Steps (step "secret") always (.new (limitedCore 2)) firstDatagram s ∧
      s.associations[0]? = some a ∧ s.core.heap[a.session.user]? = some u ∧ secondArrives 2 s a u ∧
      Forwarded "secret" s a.key.peer floodControl 0 := by
  obtain ⟨s, a, u, hrun, ha, hu, harrives, hfree⟩ := @after_first 2
    (fun s a => decide ((s.occupied a.session.user).card < 2)) (by decide +kernel)
  obtain ⟨hlive, hactive, hbelongs, hlimit⟩ := harrives
  refine ⟨s, a, u, hrun, ha, hu, ⟨hlive, hactive, hbelongs, hlimit⟩, ?_⟩
  refine (datagram_forwarded_iff (limitedCore_idle 2) hrun ha hlive hactive hbelongs hu).2.mpr ?_
  intro limit hpositive
  rw [hlimit] at hpositive
  cases hpositive
  exact of_decide_eq_true hfree

end Aerion.Shadowsocks.UdpNat
