import Aerion.Lib.FinMap
import Aerion.Lib.Ledger
import Aerion.Lib.Steps
import Mathlib.Data.Option.Basic

/-!
# UDP associations of a TUIC client

The client of one connection numbers its UDP associations with a counter of
sixteen bits (`next_assoc_id`, `src/tuic.rs`) and keeps the sender of each
one under its number.

Associations are told apart by the order in which they were opened, which the
code does not know.
-/

namespace Aerion.Tuic.Associations

open Lib

/-- Where `handle_tuic_udp_associate` is. -/
inductive Phase where
  | named
  | relaying
  | ended
  | unregistered
  | closed
  deriving DecidableEq, Repr

/-- `received` lists the associations whose responses were handed to this one. -/
structure Association where
  assocId : UInt16
  phase : Phase
  received : List ℕ
  deriving DecidableEq, Repr

/-- `associations` stands in the order of opening, `dissociated` is what was sent to the server. -/
structure Client where
  nextAssocId : UInt16
  udpSessions : Map UInt16 ℕ
  associations : List Association
  dissociated : List UInt16

def Client.new : Client where
  nextAssocId := 1
  udpSessions := ∅
  associations := []
  dissociated := []

/-- Which future of the handler's `select!` completed. -/
inductive Cause where
  | udpToTuic
  | tuicToUdp
  | controlClosed
  deriving DecidableEq, Repr

/-- The steps between which a handler can be suspended. A packet is a response to the association it
names, and finds room in the queue of its receiver or not. -/
inductive Event where
  | start
  | register (n : ℕ)
  | packet (owner : ℕ) (room : Bool)
  | select (n : ℕ) (cause : Cause)
  | unregister (n : ℕ)
  | dissociate (n : ℕ) (sent : Bool)
  deriving DecidableEq, Repr

def Client.modify (s : Client) (n : ℕ) (f : Association → Association) : Client :=
  { s with associations := s.associations.modify n f }

def Client.enter (s : Client) (n : ℕ) (phase : Phase) : Client :=
  s.modify n fun a => { a with phase }

/-- `try_send`, which fails if the receiver is gone or the queue is full. -/
def Association.trySend (owner : ℕ) (room : Bool) (a : Association) : Association :=
  if room ∧ a.phase = .relaying then { a with received := a.received ++ [owner] } else a

def Client.deliver (s : Client) (owner : ℕ) (room : Bool) (n : ℕ) : Client :=
  s.modify n (Association.trySend owner room)

/-- The channel of an association closes when its sender is no longer registered. -/
def Client.mayEnd (s : Client) (n : ℕ) (a : Association) : Cause → Bool
  | .tuicToUdp => s.udpSessions.lookup a.assocId ≠ some n
  | _ => true

def step (s : Client) : Event → Option Client
  | .start => some { s with
      nextAssocId := s.nextAssocId + 1
      associations := s.associations ++
        [{ assocId := s.nextAssocId, phase := .named, received := [] }] }
  | .register n => do
    let a ← s.associations[n]?
    guard (a.phase = .named)
    return { s.enter n .relaying with udpSessions := s.udpSessions.insert a.assocId n }
  | .packet owner room => do
    let a ← s.associations[owner]?
    match s.udpSessions.lookup a.assocId with
    | some n => return s.deliver owner room n
    | none => return s
  | .select n cause => do
    let a ← s.associations[n]?
    guard (a.phase = .relaying ∧ s.mayEnd n a cause)
    return s.enter n .ended
  | .unregister n => do
    let a ← s.associations[n]?
    guard (a.phase = .ended)
    return { s.enter n .unregistered with udpSessions := s.udpSessions.erase a.assocId }
  | .dissociate n sent => do
    let a ← s.associations[n]?
    guard (a.phase = .unregistered)
    return { s.enter n .closed with
      dissociated := if sent then s.dissociated ++ [a.assocId] else s.dissociated }

/-- An association lives from the moment it has its number until its handler has returned. -/
def Client.Live (s : Client) (n : ℕ) (a : Association) : Prop :=
  s.associations[n]? = some a ∧ a.phase ≠ .closed

/-- Every live association has a number of its own. -/
def Client.UniqueIds (s : Client) : Prop :=
  ∀ n m a b, s.Live n a → s.Live m b → a.assocId = b.assocId → n = m

/-! ### What a step does -/

section

variable {s s' : Client} {l : Event} {n : ℕ} {a : Association}

theorem modify_lookup (s : Client) (n m : ℕ) (f : Association → Association) :
    (s.modify n f).associations[m]? = (s.associations[m]?).map fun a => if n = m then f a else a :=
  List.getElem?_modify f n s.associations m

theorem modify_own (ha : s.associations[n]? = some a) (f : Association → Association) :
    (s.modify n f).associations[n]? = some (f a) := by
  rw [modify_lookup, ha, Option.map_some, if_pos rfl]

@[simp] theorem trySend_assocId (owner : ℕ) (room : Bool) (a : Association) :
    (a.trySend owner room).assocId = a.assocId := by
  unfold Association.trySend
  split <;> rfl

@[simp] theorem trySend_phase (owner : ℕ) (room : Bool) (a : Association) :
    (a.trySend owner room).phase = a.phase := by
  unfold Association.trySend
  split <;> rfl

theorem step_cases (h : step s l = some s') :
    (l = .start ∧ s' = { s with
        nextAssocId := s.nextAssocId + 1
        associations := s.associations ++
          [{ assocId := s.nextAssocId, phase := .named, received := [] }] }) ∨
      (∃ owner room a, l = .packet owner room ∧ s.associations[owner]? = some a ∧
        (s.udpSessions.lookup a.assocId = none ∧ s' = s ∨
          ∃ n, s.udpSessions.lookup a.assocId = some n ∧ s' = s.deliver owner room n)) ∨
      ∃ n a phase, s.associations[n]? = some a ∧ a.phase ≠ .closed ∧
        (l = .register n ∧ phase = .relaying ∧ a.phase = .named ∧
            s' = { s.enter n phase with udpSessions := s.udpSessions.insert a.assocId n } ∨
          (∃ cause, l = .select n cause ∧ phase = .ended ∧ a.phase = .relaying ∧
            s' = s.enter n phase) ∨
          l = .unregister n ∧ phase = .unregistered ∧ a.phase = .ended ∧
            s' = { s.enter n phase with udpSessions := s.udpSessions.erase a.assocId } ∨
          ∃ sent, l = .dissociate n sent ∧ phase = .closed ∧ a.phase = .unregistered ∧
            s' = { s.enter n phase with
              dissociated := if sent then s.dissociated ++ [a.assocId] else s.dissociated }) := by
  cases l with
  | start => exact .inl ⟨rfl, (Option.some.inj h).symm⟩
  | packet owner room =>
    obtain ⟨a, ha, h⟩ := Option.bind_eq_some_iff.mp h
    refine .inr (.inl ⟨owner, room, a, rfl, ha, ?_⟩)
    split at h
    · rename_i n hn
      exact .inr ⟨n, hn, (Option.some.inj h).symm⟩
    · rename_i hnone
      exact .inl ⟨hnone, (Option.some.inj h).symm⟩
  | register n =>
    obtain ⟨a, ha, hphase, rfl⟩ := some_of_guarded h
    exact .inr (.inr ⟨n, a, _, ha, by simp [hphase], .inl ⟨rfl, rfl, hphase, rfl⟩⟩)
  | select n cause =>
    obtain ⟨a, ha, hphase, rfl⟩ := some_of_guarded h
    exact .inr (.inr ⟨n, a, _, ha, by simp [hphase.1],
      .inr (.inl ⟨cause, rfl, rfl, hphase.1, rfl⟩)⟩)
  | unregister n =>
    obtain ⟨a, ha, hphase, rfl⟩ := some_of_guarded h
    exact .inr (.inr ⟨n, a, _, ha, by simp [hphase], .inr (.inr (.inl ⟨rfl, rfl, hphase, rfl⟩))⟩)
  | dissociate n sent =>
    obtain ⟨a, ha, hphase, rfl⟩ := some_of_guarded h
    exact .inr (.inr ⟨n, a, _, ha, by simp [hphase],
      .inr (.inr (.inr ⟨sent, rfl, rfl, hphase, rfl⟩))⟩)

/-- What every step but an opening keeps: the numbers, and that what has closed stays closed. -/
structure Keeps (s s' : Client) : Prop where
  next : s'.nextAssocId = s.nextAssocId
  length : s'.associations.length = s.associations.length
  from_ : ∀ {n : ℕ} {b : Association}, s'.associations[n]? = some b →
    ∃ a, s.associations[n]? = some a ∧ a.assocId = b.assocId ∧
    (a.phase = .closed → b.phase = .closed)

theorem keeps_modify {f : Association → Association} (hid : ∀ a, (f a).assocId = a.assocId)
    (hclosed : ∀ a, s.associations[n]? = some a → a.phase = .closed → (f a).phase = .closed) :
    Keeps s (s.modify n f) where
  next := rfl
  length := List.length_modify _ _ _
  from_ := by
    intro m b hb
    rw [modify_lookup] at hb
    obtain ⟨a, ha, rfl⟩ := Option.map_eq_some_iff.mp hb
    refine ⟨a, ha, ?_⟩
    split
    · rename_i hm
      subst hm
      exact ⟨(hid a).symm, hclosed a ha⟩
    · exact ⟨rfl, id⟩

theorem keeps_enter (ha : s.associations[n]? = some a) (hphase : a.phase ≠ .closed)
    (phase : Phase) :
    Keeps s (s.enter n phase) :=
  keeps_modify (fun _ => rfl) fun b hb hclosed => by
    rw [ha] at hb
    cases hb
    exact absurd hclosed hphase

theorem keeps_step (h : step s l = some s') (hl : l ≠ .start) : Keeps s s' := by
  rcases step_cases h with ⟨hstart, -⟩ | ⟨owner, room, a, -, -, ⟨-, rfl⟩ | ⟨n, -, rfl⟩⟩ |
    ⟨n, a, phase, ha, hphase,
      ⟨-, -, -, rfl⟩ | ⟨_, -, -, -, rfl⟩ | ⟨-, -, -, rfl⟩ | ⟨_, -, -, -, rfl⟩⟩
  · exact absurd hstart hl
  · exact ⟨rfl, rfl, fun hb => ⟨_, hb, rfl, id⟩⟩
  · exact keeps_modify (fun a => trySend_assocId owner room a) fun a _ hclosed => by
      rw [trySend_phase, hclosed]
  all_goals
    have hkeeps := keeps_enter ha hphase phase
    exact ⟨hkeeps.next, hkeeps.length, hkeeps.from_⟩

/-! ### Numbers -/

theorem ofNat_eq_iff {i j : ℕ} : UInt16.ofNat i = UInt16.ofNat j ↔ i % 65536 = j % 65536 := by
  rw [← UInt16.toNat_inj, UInt16.toNat_ofNat', UInt16.toNat_ofNat']

/-- An association has the number of its place, and what is registered is live under its number. -/
structure Numbered (s : Client) : Prop where
  next : s.nextAssocId = UInt16.ofNat (s.associations.length + 1)
  ids : ∀ {n : ℕ} {a : Association}, s.associations[n]? = some a → a.assocId = UInt16.ofNat (n + 1)
  registered : ∀ {assocId : UInt16} {n : ℕ}, s.udpSessions.lookup assocId = some n →
    ∃ a, s.associations[n]? = some a ∧ a.assocId = assocId ∧
      (a.phase = .relaying ∨ a.phase = .ended)

theorem numbered_new : Numbered .new where
  next := rfl
  ids := by simp [Client.new]
  registered := by simp [Client.new]

theorem Numbered.live_registered (h : Numbered s) {assocId : UInt16}
    (hn : s.udpSessions.lookup assocId = some n) :
    ∃ a, s.Live n a ∧ a.assocId = assocId := by
  obtain ⟨a, ha, hid, hphase⟩ := h.registered hn
  refine ⟨a, ⟨ha, ?_⟩, hid⟩
  rcases hphase with hphase | hphase <;> simp [hphase]

theorem step_registered (h : step s l = some s') {assocId : UInt16} {m : ℕ}
    (hm : s'.udpSessions.lookup assocId = some m) :
    (s.udpSessions.lookup assocId = some m ∧
        ∀ a, l = .unregister m → s.associations[m]? = some a → a.assocId ≠ assocId) ∨
      ∃ a, l = .register m ∧ s.associations[m]? = some a ∧ a.assocId = assocId ∧
        a.phase = .named := by
  rcases step_cases h with ⟨rfl, rfl⟩ | ⟨owner, room, a, rfl, -, ⟨-, rfl⟩ | ⟨n, -, rfl⟩⟩ |
    ⟨n, a, phase, ha, -,
      ⟨rfl, -, hphase, rfl⟩ | ⟨_, rfl, -, -, rfl⟩ | ⟨rfl, -, -, rfl⟩ | ⟨_, rfl, -, -, rfl⟩⟩
  · exact .inl ⟨hm, nofun⟩
  · exact .inl ⟨hm, nofun⟩
  · exact .inl ⟨hm, nofun⟩
  · by_cases hid : assocId = a.assocId
    · subst hid
      rw [AList.lookup_insert] at hm
      cases hm
      exact .inr ⟨a, rfl, ha, rfl, hphase⟩
    · rw [AList.lookup_insert_ne hid] at hm
      exact .inl ⟨hm, nofun⟩
  · exact .inl ⟨hm, nofun⟩
  · by_cases hid : assocId = a.assocId
    · subst hid
      rw [AList.lookup_erase] at hm
      cases hm
    · rw [AList.lookup_erase_ne hid] at hm
      refine .inl ⟨hm, ?_⟩
      rintro b ⟨⟩ hb
      rw [ha] at hb
      cases hb
      exact Ne.symm hid
  · exact .inl ⟨hm, nofun⟩

theorem step_phase (h : step s l = some s') {m : ℕ} (ha : s.associations[m]? = some a)
    (hphase : a.phase = .relaying ∨ a.phase = .ended) (hkept : l ≠ .unregister m) :
    ∃ b, s'.associations[m]? = some b ∧ b.assocId = a.assocId ∧
      (b.phase = .relaying ∨ b.phase = .ended) := by
  have hmoved : ∀ {n : ℕ} {phase : Phase} {c : Association}, s.associations[n]? = some c →
      (n = m → phase = .relaying ∨ phase = .ended) →
      ∃ b, (s.enter n phase).associations[m]? = some b ∧ b.assocId = a.assocId ∧
        (b.phase = .relaying ∨ b.phase = .ended) := by
    intro n phase c hc hnew
    refine ⟨_, (modify_lookup s n m _).trans (congrArg _ ha), ?_⟩
    split
    · exact ⟨rfl, hnew ‹_›⟩
    · exact ⟨rfl, hphase⟩
  have hnot : ∀ {n : ℕ} {c : Association} {phase : Phase}, s.associations[n]? = some c →
    c.phase = phase → phase ≠ .relaying → phase ≠ .ended → n ≠ m := by
    rintro n c phase hc rfl hrelaying hended rfl
    rw [ha] at hc
    cases hc
    exact hphase.elim hrelaying hended
  rcases step_cases h with ⟨rfl, rfl⟩ | ⟨owner, room, c, rfl, -, ⟨-, rfl⟩ | ⟨n, -, rfl⟩⟩ |
    ⟨n, c, phase, hc, -, ⟨rfl, rfl, hat, rfl⟩ | ⟨_, rfl, rfl, -, rfl⟩ |
      ⟨rfl, rfl, -, rfl⟩ | ⟨_, rfl, rfl, hat, rfl⟩⟩
  · exact ⟨a, List.getElem?_append_left (List.getElem?_eq_some_iff.mp ha).1 ▸ ha, rfl, hphase⟩
  · exact ⟨a, ha, rfl, hphase⟩
  · refine ⟨_, (modify_lookup s n m _).trans (congrArg _ ha), ?_⟩
    split
    · simpa using hphase
    · exact ⟨rfl, hphase⟩
  · exact hmoved hc fun _ => .inl rfl
  · exact hmoved hc fun _ => .inr rfl
  · exact hmoved hc fun hn => absurd (congrArg Event.unregister hn) hkept
  · exact hmoved hc fun hn => absurd hn (hnot hc hat nofun nofun)

theorem Numbered.preserved (h : Numbered s) (hstep : step s l = some s') : Numbered s' := by
  have hregistered : ∀ {assocId : UInt16} {n : ℕ}, s'.udpSessions.lookup assocId = some n →
      ∃ a, s'.associations[n]? = some a ∧ a.assocId = assocId ∧
        (a.phase = .relaying ∨ a.phase = .ended) := by
    intro assocId n hn
    rcases step_registered hstep hn with ⟨hold, hkept⟩ | ⟨a, rfl, ha, hid, hphase⟩
    · obtain ⟨a, ha, hid, hphase⟩ := h.registered hold
      obtain ⟨b, hb, hsame, hphase⟩ := step_phase hstep ha hphase fun hl => hkept a hl ha hid
      exact ⟨b, hb, hsame.trans hid, hphase⟩
    · rcases step_cases hstep with ⟨⟨⟩, -⟩ | ⟨_, _, _, ⟨⟩, -⟩ |
        ⟨_, b, _, hb, -, ⟨⟨⟩, rfl, -, rfl⟩ | ⟨_, ⟨⟩, -⟩ | ⟨⟨⟩, -⟩ | ⟨_, ⟨⟩, -⟩⟩
      exact ⟨_, modify_own ha _, hid, .inl rfl⟩
  by_cases hl : l = .start
  · subst hl
    rcases step_cases hstep with ⟨-, rfl⟩ | ⟨_, _, _, ⟨⟩, -⟩ |
      ⟨_, _, _, -, -, ⟨⟨⟩, -⟩ | ⟨_, ⟨⟩, -⟩ | ⟨⟨⟩, -⟩ | ⟨_, ⟨⟩, -⟩⟩
    refine ⟨?_, ?_, hregistered⟩
    · show s.nextAssocId + 1 = UInt16.ofNat ((s.associations ++ [_]).length + 1)
      rw [h.next, List.length_append, List.length_singleton]
      exact (UInt16.ofNat_add _ 1).symm
    · intro n a ha
      rcases Nat.lt_or_ge n s.associations.length with hlt | hge
      · exact h.ids (by rwa [List.getElem?_append_left hlt] at ha)
      · rw [List.getElem?_append_right hge, List.getElem?_singleton] at ha
        split at ha
        · cases ha
          rw [show n = s.associations.length by omega]
          exact h.next
        · cases ha
  · have hkeeps := keeps_step hstep hl
    refine ⟨?_, ?_, hregistered⟩
    · rw [hkeeps.next, hkeeps.length]
      exact h.next
    · intro n b hb
      obtain ⟨a, ha, hid, -⟩ := hkeeps.from_ hb
      rw [← hid]
      exact h.ids ha

/-! ### Uniqueness -/

/-- No live association was opened a multiple of 65536 openings ago. -/
def Client.NumberFree (s : Client) : Prop :=
  ∀ n a, s.Live n a → ¬65536 ∣ s.associations.length - n

/-- No live association but the one itself is a multiple of 65536 openings away. -/
def Client.NumberOwn (s : Client) (n : ℕ) : Prop :=
  ∀ m a, s.Live m a → m % 65536 = n % 65536 → m = n

theorem Numbered.same_id_iff (h : Numbered s) {m : ℕ} {b : Association}
    (ha : s.associations[n]? = some a)
    (hb : s.associations[m]? = some b) : a.assocId = b.assocId ↔ n % 65536 = m % 65536 := by
  rw [h.ids ha, h.ids hb, ofNat_eq_iff]
  omega

theorem Numbered.unique_step_iff (h : Numbered s) (hunique : s.UniqueIds)
    (hstep : step s l = some s') :
    s'.UniqueIds ↔ (l = .start → s.NumberFree) := by
  by_cases hl : l = .start
  · subst hl
    have hnumbered := h.preserved hstep
    obtain rfl := Option.some.inj hstep
    have hnew : (s.associations ++ [⟨s.nextAssocId, .named, []⟩])[s.associations.length]? =
        some ⟨s.nextAssocId, .named, []⟩ := by simp
    have hold : ∀ {n a}, s.associations[n]? = some a →
        n < s.associations.length ∧
          (s.associations ++ [⟨s.nextAssocId, .named, []⟩])[n]? = some a := by
      intro n a ha
      have hlt := (List.getElem?_eq_some_iff.mp ha).1
      exact ⟨hlt, by rw [List.getElem?_append_left hlt, ha]⟩
    have hcases : ∀ {n a}, (s.associations ++ [⟨s.nextAssocId, .named, []⟩])[n]? = some a →
        s.associations[n]? = some a ∨ n = s.associations.length := by
      intro n a ha
      have hlt := (List.getElem?_eq_some_iff.mp ha).1
      rw [List.length_append, List.length_singleton] at hlt
      rcases Nat.lt_or_ge n s.associations.length with hless | hge
      · exact .inl (by rwa [List.getElem?_append_left hless] at ha)
      · exact .inr (by omega)
    constructor
    · intro hafter _ n a hlive hdvd
      obtain ⟨hlt, ha⟩ := hold hlive.1
      have hsame := (hnumbered.same_id_iff ha hnew).mpr (by omega)
      have := hafter n s.associations.length a _ ⟨ha, hlive.2⟩ ⟨hnew, nofun⟩ hsame
      omega
    · intro hfree n m a b hn hm hid
      have hmod := (hnumbered.same_id_iff hn.1 hm.1).mp hid
      rcases hcases hn.1 with ha | hn' <;> rcases hcases hm.1 with hb | hm'
      · exact hunique n m a b ⟨ha, hn.2⟩ ⟨hb, hm.2⟩ hid
      · have hlt := (hold ha).1
        exact absurd (by omega) (hfree rfl n a ⟨ha, hn.2⟩)
      · have hlt := (hold hb).1
        exact absurd (by omega) (hfree rfl m b ⟨hb, hm.2⟩)
      · omega
  · refine iff_of_true ?_ fun hstart => absurd hstart hl
    have hkeeps := keeps_step hstep hl
    intro n m a b hn hm hid
    obtain ⟨a', ha, hida, hclosed⟩ := hkeeps.from_ hn.1
    obtain ⟨b', hb, hidb, hclosed'⟩ := hkeeps.from_ hm.1
    exact hunique n m a' b' ⟨ha, fun h => hn.2 (hclosed h)⟩ ⟨hb, fun h => hm.2 (hclosed' h)⟩
      (hida.trans (hid.trans hidb.symm))

/-- What a step does to associations other than the one it is about: a response is handed to its own
association or to none, and a closing association takes no other entry away and names no other live
association to the server. -/
def Faithful (s : Client) : Event → Prop
  | .packet owner room => ∀ s', step s (.packet owner room) = some s' →
    ∀ n, n ≠ owner → s'.associations[n]? = s.associations[n]?
  | .unregister n => ∀ s', step s (.unregister n) = some s' →
    ∀ assocId m, m ≠ n → s.udpSessions.lookup assocId = some m →
      s'.udpSessions.lookup assocId = some m
  | .dissociate n _ => ∀ a, s.associations[n]? = some a → a.phase = .unregistered →
    ∀ m b, m ≠ n → s.Live m b → b.assocId ≠ a.assocId
  | _ => True

/-- The number an opening draws is free, and the number of a response's association is its own. -/
def Apart (s : Client) : Event → Prop
  | .start => s.NumberFree
  | .packet owner _ => s.NumberOwn owner
  | _ => True

theorem Numbered.faithful (h : Numbered s) (hunique : s.UniqueIds) (happart : Apart s l) :
    Faithful s l := by
  cases l with
  | start => trivial
  | register n => trivial
  | select n cause => trivial
  | packet owner room =>
    intro s' hstep m hm
    rcases step_cases hstep with ⟨⟨⟩, -⟩ | ⟨_, _, a, ⟨⟩, ha, ⟨-, rfl⟩ | ⟨n, hn, rfl⟩⟩ |
      ⟨_, _, _, -, -, ⟨⟨⟩, -⟩ | ⟨_, ⟨⟩, -⟩ | ⟨⟨⟩, -⟩ | ⟨_, ⟨⟩, -⟩⟩
    · rfl
    · obtain ⟨b, hlive, hid⟩ := h.live_registered hn
      obtain rfl := happart n b hlive ((h.same_id_iff hlive.1 ha).mp hid)
      rw [show s.deliver n room n = s.modify n (Association.trySend n room) from rfl, modify_lookup]
      simp [Ne.symm hm]
  | unregister n =>
    intro s' hstep assocId m hm hlookup
    rcases step_cases hstep with ⟨⟨⟩, -⟩ | ⟨_, _, _, ⟨⟩, -⟩ |
      ⟨_, a, _, ha, hphase, ⟨⟨⟩, -⟩ | ⟨_, ⟨⟩, -⟩ | ⟨⟨⟩, -, -, rfl⟩ | ⟨_, ⟨⟩, -⟩⟩
    obtain ⟨b, hlive, hid⟩ := h.live_registered hlookup
    have hne : assocId ≠ a.assocId := fun hsame =>
      hm (hunique m n b a hlive ⟨ha, hphase⟩ (hid.trans hsame))
    exact (AList.lookup_erase_ne hne).trans hlookup
  | dissociate n sent =>
    intro a ha hphase m b hm hlive hid
    exact hm (hunique m n b a hlive ⟨ha, by simp [hphase]⟩ hid)

theorem numbered_steps {ok : Client → Event → Prop} {ls : List Event}
    (h : Steps step ok .new ls s) : Numbered s :=
  h.invariant Numbered (fun _ _ _ hs _ hstep => hs.preserved hstep) numbered_new

theorem unique_new : Client.new.UniqueIds := by
  intro n m a b hn
  simp [Client.Live, Client.new] at hn

/-- In every history, an opening keeps the numbers of the live associations apart exactly if none of
them was opened a multiple of 65536 openings ago. Where that holds at every opening, and every
response comes while no later association has the number of its own, the numbers are apart at every
moment, every response goes to the association it belongs to, and no closing touches another one. -/
theorem association_ids_apart (ls : List Event) (s : Client) :
    (∀ l s', Steps step always .new ls s → s.UniqueIds → step s l = some s' →
      (s'.UniqueIds ↔ (l = .start → s.NumberFree))) ∧
    (Steps step Apart .new ls s → s.UniqueIds ∧ ∀ l, Apart s l → Faithful s l) := by
  refine ⟨fun l s' hrun hunique hstep => (numbered_steps hrun).unique_step_iff hunique hstep, ?_⟩
  intro hrun
  have hboth : Numbered s ∧ s.UniqueIds := by
    refine hrun.invariant (fun s => Numbered s ∧ s.UniqueIds) ?_ ⟨numbered_new, unique_new⟩
    rintro s l s' ⟨hnumbered, hunique⟩ happart hstep
    refine ⟨hnumbered.preserved hstep, (hnumbered.unique_step_iff hunique hstep).mpr ?_⟩
    rintro rfl
    exact happart
  exact ⟨hboth.2, fun l happart => hboth.1.faithful hboth.2 happart⟩

theorem second_association_apart :
    ∃ s, Steps step Apart .new [.start, .register 0, .start] s ∧ s.UniqueIds := by
  have hempty : Client.new.NumberFree := by
    intro n a hlive
    simp [Client.Live, Client.new] at hlive
  have hone : ∀ {s : Client}, s.associations.length = 1 → s.NumberFree := by
    intro s hlength n a hlive
    have := (List.getElem?_eq_some_iff.mp hlive.1).1
    omega
  have hrun : ∃ s, Steps step Apart .new [.start, .register 0, .start] s :=
    ⟨_, .cons hempty rfl (.cons trivial rfl (.cons (hone rfl) rfl .nil))⟩
  obtain ⟨s, hrun⟩ := hrun
  exact ⟨s, hrun, ((association_ids_apart _ s).2 hrun).1⟩

end

/-! ### The counter comes round -/

def round (n : ℕ) : List Event :=
  [.start, .register n, .select n .controlClosed, .unregister n, .dissociate n true]

def rounds (n : ℕ) : ℕ → List Event
  | 0 => []
  | count + 1 => round n ++ rounds (n + 1) count

theorem round_run (s : Client) :
    Steps step always s (round s.associations.length)
      { nextAssocId := s.nextAssocId + 1
        udpSessions := (s.udpSessions.insert s.nextAssocId s.associations.length).erase
          s.nextAssocId
        associations := s.associations ++ [⟨s.nextAssocId, .closed, []⟩]
        dissociated := s.dissociated ++ [s.nextAssocId] } := by
  apply replay_steps
  simp [replay, round, step, Client.enter, Client.modify, Client.mayEnd, modify_snoc, guard]

theorem rounds_run (count : ℕ) (s : Client) :
    ∃ s', Steps step always s (rounds s.associations.length count) s' ∧
      s'.nextAssocId = s.nextAssocId + UInt16.ofNat count ∧
      (∃ gone, s'.associations = s.associations ++ gone ∧ gone.length = count) ∧
      ∀ assocId, (∀ i < count, assocId ≠ s.nextAssocId + UInt16.ofNat i) →
        s'.udpSessions.lookup assocId = s.udpSessions.lookup assocId := by
  induction count generalizing s with
  | zero => exact ⟨s, .nil, by simp, ⟨[], by simp, rfl⟩, fun _ _ => rfl⟩
  | succ count ih =>
    have hround := round_run s
    generalize hmid : Client.mk _ _ _ _ = mid at hround
    obtain ⟨s', hrun, hnext, ⟨gone, hgone, hcount⟩, hlookup⟩ := ih mid
    have hlength : mid.associations.length = s.associations.length + 1 := by
      rw [← hmid]
      simp
    refine ⟨s', ?_, ?_, ⟨⟨s.nextAssocId, .closed, []⟩ :: gone, ?_, by simp [hcount]⟩, ?_⟩
    · rw [hlength] at hrun
      exact hround.append hrun
    · rw [hnext, ← hmid, UInt16.ofNat_add count 1, UInt16.add_assoc,
        UInt16.add_comm (UInt16.ofNat count)]
      rfl
    · rw [hgone, ← hmid, List.append_assoc]
      rfl
    · intro assocId hother
      have hfirst : assocId ≠ s.nextAssocId := by simpa using hother 0 (Nat.succ_pos _)
      rw [hlookup assocId fun i hi => ?_, ← hmid]
      · exact (AList.lookup_erase_ne hfirst).trans (AList.lookup_insert_ne hfirst)
      · rw [← hmid]
        have := hother (i + 1) (Nat.succ_lt_succ hi)
        rwa [UInt16.ofNat_add i 1, UInt16.add_comm (UInt16.ofNat i), ← UInt16.add_assoc] at this

theorem open_run (s : Client) :
    Steps step always s [.start, .register s.associations.length]
      { nextAssocId := s.nextAssocId + 1
        udpSessions := s.udpSessions.insert s.nextAssocId s.associations.length
        associations := s.associations ++ [⟨s.nextAssocId, .relaying, []⟩]
        dissociated := s.dissociated } := by
  apply replay_steps
  simp [replay, step, Client.enter, Client.modify, modify_snoc, guard]

/-- The first association stays open while 65535 others come and go. The next one is given its
number and its responses, and loses its entry when the first one is closed. -/
theorem number_given_twice :
    ∃ ls s, Steps step always .new ls s ∧ ¬s.UniqueIds ∧
      (∃ s', step s (.packet 0 true) = some s' ∧
        (s'.associations[65536]?).map (·.received) = some [0]) ∧
      ∃ s', Steps step always s [.select 0 .controlClosed, .unregister 0] s' ∧
        s.udpSessions.lookup 1 = some 65536 ∧ s'.udpSessions.lookup 1 = none := by
  have hfirst := open_run .new
  generalize hopened : Client.mk _ _ _ _ = opened at hfirst
  obtain ⟨before, hrounds, hnext, ⟨gone, hgone, hcount⟩, -⟩ := rounds_run 65535 opened
  have hlast := open_run before
  have hassociations : before.associations = ⟨1, .relaying, []⟩ :: gone := by
    rw [hgone, ← hopened]
    rfl
  have hlength : before.associations.length = 65536 := by
    rw [hassociations, List.length_cons, hcount]
  have hnumber : before.nextAssocId = 1 := by
    rw [hnext, ← hopened]
    rfl
  generalize hboth : Client.mk _ _ _ _ = both at hlast
  have hold : both.associations[0]? = some ⟨1, .relaying, []⟩ := by
    rw [← hboth, hassociations]
    rfl
  have hnew : both.associations[65536]? = some ⟨1, .relaying, []⟩ := by
    rw [← hlength, ← hboth, hnumber]
    exact List.getElem?_concat_length
  have hentry : both.udpSessions.lookup 1 = some 65536 := by
    rw [← hboth, hnumber, hlength]
    exact AList.lookup_insert _
  have hpacket : step both (.packet 0 true) = some (both.deliver 0 true 65536) := by
    simp [step, hold, hentry]
  have hselect : step both (.select 0 .controlClosed) = some (both.enter 0 .ended) := by
    simp [step, hold, Client.mayEnd, guard]
  have hended := modify_own hold fun a => { a with phase := .ended }
  have hunregister : step (both.enter 0 .ended) (.unregister 0) = some
      { (both.enter 0 .ended).enter 0 .unregistered with
        udpSessions := both.udpSessions.erase 1 } := by
    simp [step, Client.enter, hended, guard]
    rfl
  refine ⟨_, both, hfirst.append (hrounds.append hlast), ?_, ⟨_, hpacket, ?_⟩,
    _, .cons trivial hselect (.cons trivial hunregister .nil), hentry, AList.lookup_erase _ _⟩
  · intro hunique
    cases hunique 0 65536 _ _ ⟨hold, nofun⟩ ⟨hnew, nofun⟩ rfl
  · rw [Client.deliver, modify_own hnew]
    rfl

end Aerion.Tuic.Associations
