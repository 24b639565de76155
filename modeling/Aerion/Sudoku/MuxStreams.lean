import Aerion.Lib.FinMap
import Aerion.Lib.Ledger
import Aerion.Sudoku.Mux
import Aerion.Uot.Packets

/-!
# The streams of the Sudoku mux server

`mux_server` of `src/sudoku.rs` once more, now with the table of streams and
the channel of completion notices. The frame loop is the only one that
changes the table: it takes the notices out of the channel before it reads a
frame. The task of a stream acts while it is polled; an abort drops it at
once or, if it is being polled, when it next suspends. A frame is written in
one step.

Two things are not in the source: a notice carries the number of the task
that sent it, and the frames of both directions are kept in `log`.
-/

namespace Aerion.Sudoku.MuxStreams

open Lib Net Uot
open Mux (Payload maxMuxFrame)

inductive Logged where
  | received (kind : UInt8) (id : UInt32) (payload : Bytes)
  | sent (kind : UInt8) (id : UInt32) (payload : Bytes)
  deriving DecidableEq

/-! ### Tasks -/

/-- Where the task of a stream stands; `joining` is the join of the relay and the sender, with
which of them still runs. -/
inductive Phase where
  | joining (relay send : Bool)
  | resetting (text : Bytes)
  | notifying
  | ended
  | dropped
  deriving DecidableEq

structure Task where
  id : UInt32
  phase : Phase := .joining true true
  polled : Bool := false
  aborted : Bool := false
  deriving DecidableEq

inductive TaskEvent where
  | poll
  | suspend
  | drop
  | relayDone
  | data (payload : Bytes)
  | fin
  | failed (error : Bytes)
  | reset (written : Bool)
  | notify
  deriving DecidableEq

namespace Task

def isOver (t : Task) : Bool := t.phase = .ended || t.phase = .dropped

def joined (t : Task) (relay send : Bool) : Task :=
  { t with phase := if relay || send then .joining relay send else .notifying }

def act (t : Task) : TaskEvent → Option (Task × List Logged)
  | .suspend => some ({ t with polled := false }, [])
  | .relayDone => match t.phase with
    | .joining true send => some (t.joined false send, [])
    | _ => none
  | .data payload => match t.phase with
    | .joining _ true => some (t, [.sent 2 t.id payload])
    | _ => none
  | .fin => match t.phase with
    | .joining relay true => some (t.joined relay false, [.sent 3 t.id []])
    | _ => none
  | .failed error => match t.phase with
    | .joining _ _ => some ({ t with phase := .resetting error }, [])
    | _ => none
  | .reset written => match t.phase with
    | .resetting text => some ({ t with phase := .notifying }, if written then [.sent 4 t.id text] else [])
    | _ => none
  | .notify => match t.phase with
    | .notifying => some ({ t with phase := .ended, polled := false }, [])
    | _ => none
  | .poll | .drop => none

def step (t : Task) (e : TaskEvent) : Option (Task × List Logged) :=
  if t.isOver then none
  else if t.polled then t.act e
  else match e with
    | .poll => if t.aborted then none else some ({ t with polled := true }, [])
    | .drop => if t.aborted then some ({ t with phase := .dropped }, []) else none
    | _ => none

end Task

/-! ### The frame loop -/

structure Entry where
  up : Bool
  task : ℕ
  deriving DecidableEq

inductive Loop where
  | receive
  | read
  | write (id : UInt32)
  | reset (id : UInt32)
  | shutdown
  | pong (id : UInt32) (payload : Payload)
  | join
  | ended (result : Outcome Unit)
  deriving DecidableEq

structure Server where
  streams : Map UInt32 Entry := ∅
  tasks : List Task := []
  completion : List (UInt32 × ℕ) := []
  loop : Loop := .receive
  -- the latest frame first
  log : List Logged := []

inductive Event where
  | receive
  | frame (kind : UInt8) (id : UInt32) (payload : Payload)
  | eof
  | readFailed (error : String)
  | awaited (error : Option String)
  | joined
  | task (n : ℕ) (e : TaskEvent)

namespace Server

def abort (s : Server) (n : ℕ) : Server :=
  { s with tasks := s.tasks.modify n fun t => { t with aborted := true } }

/-- `mux_server` returns; the drop of the `JoinSet` aborts every task. -/
def close (s : Server) (result : Outcome Unit) : Server :=
  { s with
    loop := .ended result, streams := ∅, tasks := s.tasks.map fun t => { t with aborted := true } }

def sent (s : Server) (kind : UInt8) (id : UInt32) (payload : Bytes) : Server :=
  { s with log := .sent kind id payload :: s.log }

/-- `streams.remove(&id)` and the abort of its task. -/
def removeStream (s : Server) (id : UInt32) : Server :=
  match s.streams.lookup id with
  | some e => { s.abort e.task with streams := s.streams.erase id }
  | none => s

def handleOpen (s : Server) (id : UInt32) (payload : Bytes) : Server :=
  if id ∈ s.streams then s.close (.err "duplicate Sudoku mux stream")
  else match decodeTarget payload with
    | .ok (_, []) =>
      { s with
        streams := s.streams.insert id ⟨true, s.tasks.length⟩
        tasks := s.tasks ++ [{ id := id }]
        loop := .receive }
    | .ok (_, _ :: _) => s.close (.err "trailing Sudoku mux target")
    | .err e => s.close (.err e)
    | .panic => s.close .panic

def handleData (s : Server) (id : UInt32) : Server :=
  match s.streams.lookup id with
  | some ⟨true, _⟩ => { s with loop := .write id }
  | _ => { s with loop := .receive }

def handleFin (s : Server) (id : UInt32) : Server :=
  match s.streams.lookup id with
  | some ⟨true, n⟩ => { s with streams := s.streams.insert id ⟨false, n⟩, loop := .shutdown }
  | _ => { s with loop := .receive }

def handleFrame (s : Server) (kind : UInt8) (id : UInt32) (payload : Payload) : Server :=
  if payload.1.length ≤ maxMuxFrame then
    if kind = 1 then s.handleOpen id payload.1
    else if kind = 2 then s.handleData id
    else if kind = 3 then s.handleFin id
    else if kind = 4 then { s.removeStream id with loop := .receive }
    else if kind = 5 then { s with loop := .pong id payload }
    else if kind = 6 then { s with loop := .receive }
    else s.close (.err s!"invalid Sudoku mux frame {kind}")
  else s.close (.err "oversized Sudoku mux frame")

/-- One turn of `while let Ok(id) = completion.try_recv()`. -/
def receive (s : Server) : Server :=
  match s.completion with
  | [] => { s with loop := .read }
  | (id, _) :: completion => { s with completion, streams := s.streams.erase id }

def awaited (s : Server) (error : Option String) : Option Server :=
  match s.loop, error with
  | .write _, none => some { s with loop := .receive }
  | .write id, some _ => some { s.removeStream id with loop := .reset id }
  | .reset id, none => some { s.sent 4 id "stream closed".toUTF8.toList with loop := .receive }
  | .shutdown, _ => some { s with loop := .receive }
  | .pong id payload, none => some { s.sent 6 id payload.1 with loop := .receive }
  | .reset _, some e | .pong _ _, some e => some (s.close (.err e))
  | _, _ => none

/-- The end of the client's frames: the write halves are taken, and the tasks waited for. -/
def takeAll (s : Server) : Server :=
  { s with
    streams := ⟨s.streams.entries.map fun e => ⟨e.1, { e.2 with up := false }⟩, by
      have h := s.streams.nodupKeys
      unfold List.NodupKeys at h ⊢
      rwa [List.keys, List.map_map]⟩
    loop := .join }

def taskStep (s : Server) (n : ℕ) (e : TaskEvent) : Option Server :=
  s.tasks[n]?.bind fun t => (t.step e).map fun (t', frames) =>
    { s with
      tasks := s.tasks.set n t'
      completion := if e = .notify then s.completion ++ [(t.id, n)] else s.completion
      log := frames ++ s.log }

def step (s : Server) : Event → Option Server
  | .receive => match s.loop with
    | .receive => some s.receive
    | _ => none
  | .frame kind id payload => match s.loop with
    | .read => some { s.handleFrame kind id payload with log := .received kind id payload.1 :: s.log }
    | _ => none
  | .eof => match s.loop with
    | .read => some s.takeAll
    | _ => none
  | .readFailed error => match s.loop with
    | .read => some (s.close (.err error))
    | _ => none
  | .awaited error => s.awaited error
  | .joined => match s.loop with
    | .join => if s.tasks.all Task.isOver then some (s.close (.ok ())) else none
    | _ => none
  | .task n e => s.taskStep n e

end Server

/-! ### Which stream an entry belongs to -/

namespace Server

def owner (s : Server) (id : UInt32) : Option ℕ := (s.streams.lookup id).map Entry.task

/-- The task will not act any more, gone or aborted while it is not polled, and no notice of it is
in the channel. -/
def Silent (s : Server) (n : ℕ) (t : Task) : Prop :=
  (t.isOver = true ∨ t.aborted = true ∧ t.polled = false) ∧
    (t.phase = .ended → (t.id, n) ∉ s.completion)

/-- All streams there were with an id are silent. -/
def Over (s : Server) (id : UInt32) : Prop :=
  ∀ n t, s.tasks[n]? = some t → t.id = id → s.Silent n t

/-- An entry belongs to a stream that is not aborted and whose notice has not been received; other
streams of its id are silent. -/
structure Owned (s : Server) (id : UInt32) (n : ℕ) : Prop where
  task : ∃ t, s.tasks[n]? = some t ∧ t.id = id ∧ t.aborted = false ∧ t.phase ≠ .dropped ∧
    (t.phase = .ended → (id, n) ∈ s.completion)
  others : ∀ m t, s.tasks[m]? = some t → t.id = id → m ≠ n → s.Silent m t

structure Sound (s : Server) : Prop where
  owned : ∀ id n, s.owner id = some n → s.Owned id n
  notices : ∀ id n, (id, n) ∈ s.completion → ∃ t, s.tasks[n]? = some t ∧ t.id = id ∧ t.phase = .ended

variable {s s' : Server}

theorem Sound.keeps (h : s.Sound) (htasks : s'.tasks = s.tasks) (hqueue : s'.completion = s.completion)
    (howner : ∀ id n, s'.owner id = some n → s.owner id = some n) : s'.Sound where
  owned id n hn := by
    obtain ⟨task, others⟩ := h.owned id n (howner id n hn)
    unfold Silent at others
    exact ⟨by rwa [htasks, hqueue], by unfold Silent; rwa [htasks, hqueue]⟩
  notices := by
    rw [htasks, hqueue]
    exact h.notices

theorem Sound.notice_owner (h : s.Sound) {id : UInt32} {n m : ℕ} (hn : (id, n) ∈ s.completion)
    (hm : s.owner id = some m) : m = n := by
  by_contra hne
  obtain ⟨t, ht, hid, hended⟩ := h.notices id n hn
  have habsent := ((h.owned id m hm).others n t ht hid (Ne.symm hne)).2 hended
  rw [hid] at habsent
  exact habsent hn

theorem Sound.absent_of_over (h : s.Sound) {id : UInt32} (hover : s.Over id) : s.owner id = none := by
  by_contra hne
  obtain ⟨n, hn⟩ := Option.ne_none_iff_exists'.mp hne
  obtain ⟨t, ht, hid, halive, hdropped, hnotice⟩ := (h.owned id n hn).task
  obtain ⟨hgone | ⟨haborted, -⟩, habsent⟩ := hover n t ht hid
  · have hended : t.phase = .ended := by simpa [Task.isOver, hdropped] using hgone
    rw [hid] at habsent
    exact habsent hended (hnotice hended)
  · rw [halive] at haborted
    cases haborted

/-! ### Steps -/

theorem getElem?_abort (s : Server) (n m : ℕ) :
    (s.abort n).tasks[m]? = s.tasks[m]?.map fun t => if m = n then { t with aborted := true } else t := by
  unfold abort
  rw [List.getElem?_modify]
  by_cases h : n = m
  · subst h
    simp
  · simp [h, Ne.symm h]

theorem Sound.removeStream (h : s.Sound) (id : UInt32) : (s.removeStream id).Sound := by
  unfold Server.removeStream
  split
  · rename_i e he
    have howned := h.owned id e.task (by rw [owner, he]; rfl)
    refine ⟨fun id' n hn => ?_, fun id' n hn => ?_⟩
    · rw [owner, lookup_erase_ite] at hn
      split at hn
      · cases hn
      · rename_i hne
        obtain ⟨⟨t, ht, hid, halive⟩, others⟩ := h.owned id' n hn
        obtain ⟨t₀, ht₀, hid₀, -⟩ := howned.task
        have hother : n ≠ e.task := by
          rintro rfl
          cases ht.symm.trans ht₀
          exact hne (hid.symm.trans hid₀)
        refine ⟨⟨t, ?_, hid, halive⟩, fun m u hu => ?_⟩
        · exact (getElem?_abort ..).trans (by rw [ht, Option.map_some, if_neg hother])
        · obtain ⟨u₀, hu₀, rfl⟩ := Option.map_eq_some_iff.mp ((getElem?_abort ..).symm.trans hu)
          intro hid' hm
          have hsilent := others m u₀ hu₀ (by split at hid' <;> exact hid') hm
          split
          · exact ⟨hsilent.1.imp_right fun haborted => ⟨rfl, haborted.2⟩, hsilent.2⟩
          · exact hsilent
    · obtain ⟨t, ht, hid, hended⟩ := h.notices id' n hn
      refine ⟨_, (getElem?_abort ..).trans (by rw [ht]; rfl), ?_, ?_⟩
      · split <;> exact hid
      · split <;> exact hended
  · exact h

theorem Sound.close (h : s.Sound) (result : Outcome Unit) : (s.close result).Sound where
  owned id n hn := by
    cases hn
  notices id n hn := by
    obtain ⟨t, ht, hid, hended⟩ := h.notices id n hn
    exact ⟨{ t with aborted := true }, by simp [Server.close, ht], hid, hended⟩

theorem owner_eq_none {id : UInt32} : s.owner id = none ↔ id ∉ s.streams := by
  rw [owner, Option.map_eq_none_iff, AList.lookup_eq_none]

theorem Sound.handleOpen (h : s.Sound) {id : UInt32} (hover : s.Over id) (payload : Bytes) :
    (s.handleOpen id payload).Sound := by
  unfold Server.handleOpen
  split
  · exact h.close _
  · split
    · have hold {n : ℕ} {t : Task} (ht : s.tasks[n]? = some t) : (s.tasks ++ [{ id := id }])[n]? = some t := by
        rw [List.getElem?_append_left (List.getElem?_eq_some_iff.mp ht).1]
        exact ht
      refine ⟨fun id' n hn => ?_, fun id' n hn => ?_⟩
      · rw [owner, lookup_insert_ite] at hn
        split at hn
        · rename_i heq
          subst heq
          cases hn
          refine ⟨⟨{ id := id' }, by simp, rfl, rfl, nofun, nofun⟩, fun m t ht hid hm => ?_⟩
          rcases getElem?_snoc ht with ht | ⟨rfl, -⟩
          · exact hover m t ht hid
          · exact absurd rfl hm
        · rename_i hne
          obtain ⟨⟨t, ht, halive⟩, others⟩ := h.owned id' n hn
          refine ⟨⟨t, hold ht, halive⟩, fun m u hu hid hm => ?_⟩
          rcases getElem?_snoc hu with hu | ⟨-, rfl⟩
          · exact others m u hu hid hm
          · exact absurd hid.symm hne
      · obtain ⟨t, ht, hid, hended⟩ := h.notices id' n hn
        exact ⟨t, hold ht, hid, hended⟩
    all_goals exact h.close _

theorem Sound.handleData (h : s.Sound) (id : UInt32) : (s.handleData id).Sound := by
  unfold Server.handleData
  split
  · exact h.keeps rfl rfl fun _ _ hn => hn
  · exact h.keeps rfl rfl fun _ _ hn => hn

theorem Sound.handleFin (h : s.Sound) (id : UInt32) : (s.handleFin id).Sound := by
  unfold Server.handleFin
  split
  · rename_i n hn
    refine h.keeps rfl rfl fun id' m hm => ?_
    rw [owner, lookup_insert_ite] at hm
    split at hm
    · rename_i heq
      subst heq
      rw [owner, hn]
      exact hm
    · exact hm
  · exact h.keeps rfl rfl fun _ _ hn => hn

theorem Sound.handleFrame (h : s.Sound) {kind : UInt8} {id : UInt32} (hover : kind = 1 → s.Over id)
    (payload : Payload) : (s.handleFrame kind id payload).Sound := by
  unfold Server.handleFrame
  split
  · split
    · rename_i hkind
      exact h.handleOpen (hover hkind) payload.1
    · split
      · exact h.handleData id
      · split
        · exact h.handleFin id
        · split
          · exact (h.removeStream id).keeps rfl rfl fun _ _ hn => hn
          · split
            · exact h.keeps rfl rfl fun _ _ hn => hn
            · split
              · exact h.keeps rfl rfl fun _ _ hn => hn
              · exact h.close _
  · exact h.close _

theorem Sound.receive (h : s.Sound) : s.receive.Sound := by
  unfold Server.receive
  split
  · exact h.keeps rfl rfl fun _ _ hn => hn
  · rename_i id n completion hqueue
    have hless {x : UInt32 × ℕ} (hx : x ∈ completion) : x ∈ s.completion := by
      rw [hqueue]
      exact List.mem_cons_of_mem _ hx
    refine ⟨fun id' m hm => ?_, fun id' m hm => h.notices id' m (hless hm)⟩
    rw [owner, lookup_erase_ite] at hm
    split at hm
    · cases hm
    · rename_i hne
      obtain ⟨⟨t, ht, hid, haborted, hdropped, hnotice⟩, others⟩ := h.owned id' m hm
      refine ⟨⟨t, ht, hid, haborted, hdropped, fun hended => ?_⟩, fun k u hu hid hk => ?_⟩
      · have hmem := hnotice hended
        rw [hqueue] at hmem
        rcases List.mem_cons.mp hmem with heq | hmem
        · exact absurd (congrArg Prod.fst heq) hne
        · exact hmem
      · exact (others k u hu hid hk).imp_right fun habsent hended hmem => habsent hended (hless hmem)

theorem Sound.takeAll (h : s.Sound) : s.takeAll.Sound := by
  refine h.keeps rfl rfl fun id n hn => ?_
  obtain ⟨e, he, rfl⟩ := Option.map_eq_some_iff.mp hn
  obtain ⟨e', he', heq⟩ := List.mem_map.mp (mem_entries.mpr he)
  cases heq
  rw [owner, mem_entries.mp he']
  rfl

theorem Sound.awaited (h : s.Sound) {error : Option String} (hs : s.awaited error = some s') : s'.Sound := by
  unfold Server.awaited at hs
  split at hs <;> cases hs
  case h_2 => exact (h.removeStream _).keeps rfl rfl fun _ _ hn => hn
  case h_6 | h_7 => exact h.close _
  all_goals exact h.keeps rfl rfl fun _ _ hn => hn

end Server

namespace Task

theorem joined_phase (t : Task) (relay send : Bool) :
    (t.joined relay send).phase ≠ .ended ∧ (t.joined relay send).phase ≠ .dropped := by
  unfold joined
  cases relay <;> cases send <;> exact ⟨nofun, nofun⟩

theorem act_some {t t' : Task} {e : TaskEvent} {frames : List Logged} (hover : t.isOver = false)
    (h : t.act e = some (t', frames)) :
    t'.id = t.id ∧ t'.aborted = t.aborted ∧ (t'.phase = .ended ↔ e = .notify) ∧ t'.phase ≠ .dropped := by
  simp only [isOver, Bool.or_eq_false_iff, decide_eq_false_iff_not] at hover
  cases e with
  | poll | drop => cases h
  | suspend =>
    cases h
    exact ⟨rfl, rfl, iff_of_false hover.1 nofun, hover.2⟩
  | relayDone | fin =>
    simp only [act] at h
    split at h
    · cases h
      exact ⟨rfl, rfl, iff_of_false (joined_phase ..).1 nofun, (joined_phase ..).2⟩
    · cases h
  | data payload =>
    simp only [act] at h
    split at h
    · cases h
      exact ⟨rfl, rfl, iff_of_false hover.1 nofun, hover.2⟩
    · cases h
  | failed error | reset written =>
    simp only [act] at h
    split at h
    · cases h
      exact ⟨rfl, rfl, iff_of_false nofun nofun, nofun⟩
    · cases h
  | notify =>
    simp only [act] at h
    split at h
    · cases h
      exact ⟨rfl, rfl, iff_of_true rfl rfl, nofun⟩
    · cases h

theorem step_some {t t' : Task} {e : TaskEvent} {frames : List Logged} (h : t.step e = some (t', frames)) :
    t.isOver = false ∧ t'.id = t.id ∧ t'.aborted = t.aborted ∧ (t'.phase = .ended ↔ e = .notify) ∧
      (t'.phase = .dropped → t.aborted = true) := by
  unfold step at h
  split at h
  · cases h
  · rename_i hover
    have hover : t.isOver = false := by simpa using hover
    split at h
    · obtain ⟨hid, haborted, hended, hdropped⟩ := act_some hover h
      exact ⟨hover, hid, haborted, hended, fun hphase => absurd hphase hdropped⟩
    · simp only [isOver, Bool.or_eq_false_iff, decide_eq_false_iff_not] at hover
      split at h
      · split at h
        · cases h
        · cases h
          exact ⟨by simpa [isOver] using hover, rfl, rfl, iff_of_false hover.1 nofun,
            fun hphase => absurd hphase hover.2⟩
      · split at h
        · rename_i haborted
          cases h
          exact ⟨by simpa [isOver] using hover, rfl, rfl, iff_of_false nofun nofun, fun _ => haborted⟩
        · cases h
      · cases h

/-- An abort that finds the task suspended leaves it only the drop. -/
theorem step_of_aborted {t t' : Task} {e : TaskEvent} {frames : List Logged}
    (haborted : t.aborted = true) (hpolled : t.polled = false)
    (h : t.step e = some (t', frames)) : t'.phase = .dropped := by
  unfold step at h
  rw [hpolled, haborted] at h
  split at h
  · cases h
  · cases e with
    | drop =>
      cases h
      rfl
    | _ => cases h

end Task

namespace Server

variable {s s' : Server}

theorem taskStep_some {n : ℕ} {e : TaskEvent} (h : s.taskStep n e = some s') :
    ∃ t t' frames, s.tasks[n]? = some t ∧ t.step e = some (t', frames) ∧
      s' = { s with
        tasks := s.tasks.set n t'
        completion := if e = .notify then s.completion ++ [(t.id, n)] else s.completion
        log := frames ++ s.log } := by
  obtain ⟨t, ht, h⟩ := Option.bind_eq_some_iff.mp h
  obtain ⟨⟨t', frames⟩, hstep, rfl⟩ := Option.map_eq_some_iff.mp h
  exact ⟨t, t', frames, ht, hstep, rfl⟩

theorem Sound.taskStep (h : s.Sound) {n : ℕ} {e : TaskEvent} (hs : s.taskStep n e = some s') : s'.Sound := by
  obtain ⟨t, t', frames, ht, hstep, rfl⟩ := taskStep_some hs
  obtain ⟨hover, hid, haborted, hended, hdropped⟩ := Task.step_some hstep
  simp only [Task.isOver, Bool.or_eq_false_iff, decide_eq_false_iff_not] at hover
  have hset : (s.tasks.set n t')[n]? = some t' :=
    List.getElem?_set_self (List.getElem?_eq_some_iff.mp ht).1
  have hother {m : ℕ} (hm : m ≠ n) : (s.tasks.set n t')[m]? = s.tasks[m]? := List.getElem?_set_ne hm.symm
  have hmore {x : UInt32 × ℕ} (hx : x ∈ s.completion) :
      x ∈ if e = .notify then s.completion ++ [(t.id, n)] else s.completion := by
    split
    · exact List.mem_append_left _ hx
    · exact hx
  have hless {x : UInt32 × ℕ} (hx : x ∈ if e = .notify then s.completion ++ [(t.id, n)] else s.completion) :
      x ∈ s.completion ∨ x = (t.id, n) ∧ e = .notify := by
    split at hx
    · rename_i he
      exact (List.mem_append.mp hx).imp_right fun hx => ⟨List.mem_singleton.mp hx, he⟩
    · exact .inl hx
  refine ⟨fun id k hk => ?_, fun id k hk => ?_⟩
  · obtain ⟨⟨u, hu, huid, huaborted, hudropped, hnotice⟩, others⟩ := h.owned id k hk
    refine ⟨?_, fun m v hv hvid hm => ?_⟩
    · by_cases hkn : k = n
      · subst hkn
        cases hu.symm.trans ht
        refine ⟨t', hset, hid.trans huid, haborted.trans huaborted, fun hphase => ?_, fun hphase => ?_⟩
        · rw [hdropped hphase] at huaborted
          cases huaborted
        · rw [if_pos (hended.mp hphase), ← huid]
          exact List.mem_append_right _ List.mem_cons_self
      · exact ⟨u, (hother hkn).trans hu, huid, huaborted, hudropped, fun hphase => hmore (hnotice hphase)⟩
    · by_cases hmn : m = n
      · -- A stream that is gone does not act, and one that is aborted is dropped.
        subst hmn
        cases hset.symm.trans hv
        obtain ⟨hgone | ⟨hgone, hpolled⟩, -⟩ := others m t ht (hid.symm.trans hvid) hm
        · exact absurd hgone (by simpa [Task.isOver] using hover)
        · have hphase := Task.step_of_aborted hgone hpolled hstep
          refine ⟨.inl (by rw [Task.isOver, hphase]; rfl), fun hended => ?_⟩
          rw [hphase] at hended
          cases hended
      · refine (others m v ((hother hmn).symm.trans hv) hvid hm).imp_right fun habsent hgone hmem => ?_
        rcases hless hmem with hmem | ⟨heq, -⟩
        · exact habsent hgone hmem
        · exact hmn (congrArg Prod.snd heq)
  · rcases hless hk with hk | ⟨heq, he⟩
    · obtain ⟨u, hu, huid, huended⟩ := h.notices id k hk
      have hkn : k ≠ n := by
        rintro rfl
        cases hu.symm.trans ht
        exact hover.1 huended
      exact ⟨u, (hother hkn).trans hu, huid, huended⟩
    · obtain ⟨rfl, rfl⟩ := Prod.mk.inj heq
      exact ⟨t', hset, hid, hended.mpr he⟩

/-- Every OPEN comes when the streams there were with its id are silent. -/
def Settled (s : Server) : Event → Prop
  | .frame kind id _ => kind = 1 → s.Over id
  | _ => True

theorem Sound.step (h : s.Sound) {ev : Event} (hok : s.Settled ev) (hs : s.step ev = some s') : s'.Sound := by
  cases ev with
  | receive =>
    simp only [Server.step] at hs
    split at hs
    · cases hs
      exact h.receive
    · cases hs
  | frame kind id payload =>
    simp only [Server.step] at hs
    split at hs
    · cases hs
      exact (h.handleFrame hok payload).keeps rfl rfl fun _ _ hn => hn
    · cases hs
  | eof =>
    simp only [Server.step] at hs
    split at hs
    · cases hs
      exact h.takeAll
    · cases hs
  | readFailed error =>
    simp only [Server.step] at hs
    split at hs
    · cases hs
      exact h.close _
    · cases hs
  | awaited error => exact h.awaited hs
  | joined =>
    simp only [Server.step] at hs
    split at hs
    · split at hs
      · cases hs
        exact h.close _
      · cases hs
    · cases hs
  | task n e => exact h.taskStep hs

end Server

/-! ### Reused ids -/

/-- Where every OPEN comes after the streams there were with its id fell silent, it is accepted, and a
notice removes no entry but that of its own stream. -/
theorem reused_ids_kept_apart {evs : List Event} {s : Server}
    (hrun : Steps Server.step Server.Settled {} evs s) :
    (∀ id (payload : Payload) target, s.loop = .read → s.Over id → payload.1.length ≤ maxMuxFrame →
      decodeTarget payload.1 = .ok (target, []) →
      ∃ s', s.step (.frame 1 id payload) = some s' ∧ s'.loop = .receive ∧
        s'.owner id = some s.tasks.length ∧ ∀ other, other ≠ id → s'.owner other = s.owner other) ∧
    ∀ id n rest m, s.loop = .receive → s.completion = (id, n) :: rest → s.owner id = some m → m = n := by
  have hsound : s.Sound :=
    hrun.invariant Server.Sound (fun _ _ _ h hok hs => h.step hok hs) ⟨nofun, nofun⟩
  constructor
  · intro id payload target hloop hover hsize htarget
    have habsent : id ∉ s.streams := Server.owner_eq_none.mp (hsound.absent_of_over hover)
    have hopen : s.handleFrame 1 id payload =
        { s with
          streams := s.streams.insert id ⟨true, s.tasks.length⟩
          tasks := s.tasks ++ [{ id := id }]
          loop := .receive } := by
      simp only [Server.handleFrame, if_pos hsize, if_true, Server.handleOpen, if_neg habsent, htarget]
    refine ⟨_, by simp only [Server.step, hloop, hopen]; rfl, rfl, ?_, fun other hne => ?_⟩
    · simp only [Server.owner, lookup_insert_ite, if_true, Option.map_some]
    · simp only [Server.owner, lookup_insert_ite, if_neg hne]
  · intro id n rest m _ hqueue hm
    exact hsound.notice_owner (by rw [hqueue]; exact List.mem_cons_self) hm

def Logged.sends (kind : UInt8) (id : UInt32) : Logged → Bool
  | .sent kind' id' _ => kind' = kind && id' = id
  | .received .. => false

def Logged.brings (kind : UInt8) (id : UInt32) : Logged → Bool
  | .received kind' id' _ => kind' = kind && id' = id
  | .sent .. => false

def since (id : UInt32) (log : List Logged) : List Logged := log.takeWhile fun l => !l.brings 1 id

/-- The peer may use an id that is new, that the server has reset, or that both ends have finished
with. -/
def Reusable (log : List Logged) (id : UInt32) : Prop :=
  (∀ l ∈ log, l.brings 1 id = false) ∨ (∃ l ∈ since id log, l.sends 4 id = true) ∨
    (∃ l ∈ since id log, l.sends 3 id = true) ∧ ∃ l ∈ since id log, l.brings 3 id = true

instance (log : List Logged) (id : UInt32) : Decidable (Reusable log id) :=
  inferInstanceAs (Decidable (_ ∨ _ ∨ _))

def Obeys (s : Server) : Event → Prop
  | .frame kind id _ => kind = 1 → Reusable s.log id
  | _ => True

instance (s : Server) : (ev : Event) → Decidable (Obeys s ev)
  | .frame .. => inferInstanceAs (Decidable (_ → _))
  | .receive | .eof | .readFailed _ | .awaited _ | .joined | .task .. => .isTrue trivial

def resolver : Payload := ⟨[1, 8, 8, 8, 8, 0, 53], by decide⟩

/-- A stream of id one on which both ends finish; its id is used again before the next frame. -/
def finishedThenReused : List Event :=
  [.receive, .frame 1 1 resolver, .receive, .frame 3 1 Mux.empty, .awaited none, .receive, .task 0 .poll,
    .task 0 .relayDone, .task 0 .fin, .task 0 .notify, .frame 1 1 resolver]

/-- A stream of id one that resets itself while data for it arrives; its id is used again before it
sends its notice. -/
def resetThenReused : List Event :=
  [.receive, .frame 1 1 resolver, .receive, .task 0 .poll, .task 0 (.failed [33]), .task 0 (.reset true),
    .frame 2 1 Mux.empty, .awaited (some "broken pipe"), .awaited none, .receive, .frame 1 1 resolver,
    .task 0 .notify]

/-- In the first run the session ends at the OPEN; in the second the next notice to be received is
that of the old stream, and the entry of its id belongs to the new one. -/
theorem reused_id_confused :
    (∃ s, Steps Server.step Obeys {} finishedThenReused s ∧
      s.loop = .ended (.err "duplicate Sudoku mux stream")) ∧
    ∃ s s', Steps Server.step Obeys {} resetThenReused s ∧ s.completion = [(1, 0)] ∧ s.owner 1 = some 1 ∧
      s.tasks[1]? = some { id := 1 } ∧ s.step .receive = some s' ∧ s'.owner 1 = none := by
  constructor
  · obtain ⟨s, hrun, hs⟩ := steps_of_replay
      (show (replay (guarded Server.step Obeys) {} finishedThenReused).any (fun s =>
        decide (s.loop = .ended (.err "duplicate Sudoku mux stream"))) = true by decide +kernel)
    exact ⟨s, hrun.of_guarded, of_decide_eq_true hs⟩
  · obtain ⟨s, hrun, hs⟩ := steps_of_replay
      (show (replay (guarded Server.step Obeys) {} resetThenReused).any (fun s =>
        decide (s.completion = [(1, 0)] ∧ s.owner 1 = some 1 ∧ s.tasks[1]? = some { id := 1 } ∧
          (s.step .receive).any fun s' => s'.owner 1 = none)) = true by decide +kernel)
    obtain ⟨hqueue, howner, htask, hnext⟩ := of_decide_eq_true hs
    obtain ⟨s', hs', hgone⟩ := (Option.any_eq_true _ _).mp hnext
    exact ⟨s, s', hrun.of_guarded, hqueue, howner, htask, hs', of_decide_eq_true hgone⟩

instance (s : Server) (n : ℕ) (t : Task) : Decidable (s.Silent n t) :=
  inferInstanceAs (Decidable ((_ ∨ _ ∧ _) ∧ (_ → _)))

instance (s : Server) (id : UInt32) : Decidable (s.Over id) :=
  decidable_of_iff (∀ p ∈ s.tasks.zipIdx, p.1.id = id → s.Silent p.2 p.1)
    ⟨fun h n t ht => h (t, n) (List.mem_zipIdx_iff_getElem?.mpr ht),
      fun h p hp => h p.2 p.1 (List.mem_zipIdx_iff_getElem?.mp hp)⟩

instance (s : Server) : (ev : Event) → Decidable (s.Settled ev)
  | .frame .. => inferInstanceAs (Decidable (_ → _))
  | .receive | .eof | .readFailed _ | .awaited _ | .joined | .task .. => .isTrue trivial

/-- As `finishedThenReused`, with a ping in between, at which the notice is received. -/
def pingThenReused : List Event :=
  [.receive, .frame 1 1 resolver, .receive, .frame 3 1 Mux.empty, .awaited none, .receive, .task 0 .poll,
    .task 0 .relayDone, .task 0 .fin, .task 0 .notify, .frame 5 9 Mux.empty, .awaited none, .receive, .receive]

theorem reused_id_accepted :
    ∃ s s', Steps Server.step Server.Settled {} pingThenReused s ∧ s.tasks.length = 1 ∧
      s.step (.frame 1 1 resolver) = some s' ∧ s'.owner 1 = some 1 := by
  obtain ⟨s, hrun, hs⟩ := steps_of_replay
    (show (replay (guarded Server.step Server.Settled) {} pingThenReused).any (fun s =>
      decide (s.loop = .read ∧ s.Over 1 ∧ s.tasks.length = 1)) = true by decide +kernel)
  obtain ⟨hloop, hover, hcount⟩ := of_decide_eq_true hs
  obtain ⟨s', hstep, -, howner, -⟩ := (reused_ids_kept_apart hrun.of_guarded).1 1 resolver
    (.ip ⟨.v4 8 8 8 8, 53⟩) hloop hover (by decide) (by decide +kernel)
  exact ⟨s, s', hrun.of_guarded, hcount, hstep, by rw [howner, hcount]⟩

end Aerion.Sudoku.MuxStreams
