import Aerion.Core.Life
import Aerion.Core.Phases

/-!
# Sessions of a running core

`lifeOf` reads off a state of the core the account that `Aerion.Core.Life`
keeps of a session id. Every step of the core changes it by a `LifeStep`
(`life_step`), so the abstract invariant holds in every reachable state.
-/

namespace Aerion.Core

open Aerion.Net Lib

inductive Stage where
  | notice
  | draw
  | close
  | trigger
  deriving DecidableEq, Repr

def Action.stage : Action → Option (Stage × Nat)
  | .notifyCancelled _ sid _ => some (.notice, sid)
  | .readLimits _ sid _ _ | .insertSession _ sid _ _ _ => some (.draw, sid)
  | .closeSession _ sid => some (.close, sid)
  | .trigger sid => some (.trigger, sid)
  | _ => none

def Action.at (stage : Stage) (sid : Nat) (a : Action) : Nat :=
  if a.stage = some (stage, sid) then 1 else 0

def CoreEvent.life (sid : Nat) : CoreEvent → Option LifeEvent
  | .sessionOpened _ id _ => if id = sid then some .opened else none
  | .sessionClosed _ id _ => if id = sid then some .closed else none
  | .sessionCancelled _ id _ => if id = sid then some .cancelled else none
  | _ => none

/-- The lifecycle events of a session id, in the order they were sent. -/
def CoreInner.story (c : CoreInner) (sid : Nat) : List LifeEvent :=
  c.bus.trace.filterMap (CoreEvent.life sid)

def CoreInner.registered (c : CoreInner) (sid : Nat) : Nat :=
  (c.heap.map fun u => if sid ∈ u.sessions then 1 else 0).sum

def World.held (w : World) (sid : Nat) : Nat := w.handles.countP (·.session.sessionId = sid)

/-- The account of a session id, given how many actions are ahead at each stage. -/
def World.life (w : World) (n : Stage → Nat) (sid : Nat) : Life where
  story := w.core.story sid
  registered := w.core.registered sid
  notices := n .notice
  drawn := n .draw
  handles := w.held sid
  closing := n .close
  triggers := n .trigger
  flag := sid ∈ w.core.cancelled

def lifeOf (s : System) (sid : Nat) : Life :=
  s.shared.life (fun stage => s.owed (Action.at stage sid)) sid

namespace CoreInner

variable (c : CoreInner) (sid : Nat)

@[simp] theorem story_modifyUser (ref : Nat) (f : UserState → UserState) :
    (c.modifyUser ref f).story sid = c.story sid := rfl
@[simp] theorem story_trigger (id : Nat) : (c.trigger id).story sid = c.story sid := rfl
@[simp] theorem story_send (event : CoreEvent) :
    (c.send event).story sid = c.story sid ++ (event.life sid).toList := by
  cases h : event.life sid <;> simp [story, h]

@[simp] theorem registered_send (event : CoreEvent) :
    (c.send event).registered sid = c.registered sid := rfl
@[simp] theorem registered_trigger (id : Nat) :
    (c.trigger id).registered sid = c.registered sid := rfl

end CoreInner

/-! ### The registration count -/

theorem registered_modify {c : CoreInner} {ref : Nat} {u : UserState} (f : UserState → UserState)
    (hu : c.heap[ref]? = some u) (sid : Nat) :
    (c.modifyUser ref f).registered sid + (if sid ∈ u.sessions then 1 else 0) =
      c.registered sid + if sid ∈ (f u).sessions then 1 else 0 :=
  sum_modify f _ hu

theorem registered_modify_same {c : CoreInner} {ref : Nat} {f : UserState → UserState} {sid : Nat}
    (h : ∀ u, sid ∈ (f u).sessions ↔ sid ∈ u.sessions) :
    (c.modifyUser ref f).registered sid = c.registered sid := by
  cases hu : c.heap[ref]? with
  | none =>
    rw [CoreInner.registered, CoreInner.modifyUser_heap,
      List.modify_eq_self (List.getElem?_eq_none_iff.mp hu)]
    rfl
  | some u =>
    have := registered_modify f hu sid
    simp only [h] at this
    omega

theorem one_le_registered {c : CoreInner} {ref sid : Nat} {u : UserState}
    (hu : c.heap[ref]? = some u) (hs : sid ∈ u.sessions) : 1 ≤ c.registered sid := by
  have := registered_modify UserState.clearSessions hu sid
  simp only [hs, ↓reduceIte, UserState.clearSessions, AList.notMem_empty] at this
  omega

theorem two_le_registered {c : CoreInner} {r r' sid : Nat} {u u' : UserState}
    (hu : c.heap[r]? = some u) (hu' : c.heap[r']? = some u') (hs : sid ∈ u.sessions)
    (hs' : sid ∈ u'.sessions) (hne : r ≠ r') : 2 ≤ c.registered sid := by
  have h1 := registered_modify UserState.clearSessions hu sid
  have hu'' : (c.modifyUser r UserState.clearSessions).heap[r']? = some u' := by simp [hne, hu']
  have h2 := one_le_registered hu'' hs'
  simp only [hs, ↓reduceIte, UserState.clearSessions, AList.notMem_empty] at h1
  have h1 : (c.modifyUser r UserState.clearSessions).registered sid + 1 = c.registered sid + 0 := h1
  omega

theorem exists_of_registered {c : CoreInner} {sid : Nat} (h : 0 < c.registered sid) :
    ∃ (ref : Nat) (u : UserState), c.heap[ref]? = some u ∧ sid ∈ u.sessions := by
  obtain ⟨n, hn, hpos⟩ := List.exists_mem_ne_zero_of_sum_ne_zero (Nat.pos_iff_ne_zero.mp h)
  obtain ⟨u, hu, rfl⟩ := List.mem_map.mp hn
  obtain ⟨ref, href⟩ := List.mem_iff_getElem?.mp hu
  refine ⟨ref, u, href, ?_⟩
  by_contra hs
  simp [hs] at hpos

theorem registered_append {c : CoreInner} {new : List UserState} (h : ∀ u ∈ new, Fresh u)
    (sid : Nat) : CoreInner.registered { c with heap := c.heap ++ new } sid = c.registered sid := by
  have hzero : (new.map fun u => if sid ∈ u.sessions then 1 else 0).sum = 0 := by
    rw [List.sum_eq_zero_iff]
    intro n hn
    obtain ⟨u, hu, rfl⟩ := List.mem_map.mp hn
    simp [(h u hu).1, AList.notMem_empty]
  simp [CoreInner.registered, hzero]

/-! ### The effect of one action on the account -/

/-- Actions that pass a session id on, take ids out of a map or are at a stage. -/
def Action.lively : Action → Bool
  | .drawSessionId .. | .readLimits .. | .insertSession .. | .closeSession .. | .takeSessions ..
  | .notifyCancelled .. | .trigger .. => true
  | _ => false

theorem Spawns.stage {a b : Action} (h : Spawns a b) (ha : a.lively = false) : b.stage = none := by
  cases h <;> first | rfl | cases ha

theorem UserStep.sessions {c : CoreInner} {a : Action} {ref : Nat} {f : UserState → UserState}
    (h : UserStep c a ref f) (ha : a.lively = false) (u : UserState) :
    (f u).sessions = u.sessions := by
  cases h with
  | rate =>
    rename_i direction _
    cases direction <;> rfl
  | register | unregister | clear => cases ha
  | _ => rfl

theorem exec_registered (w : World) (call : Call) {a : Action} (ha : a.lively = false) (sid : Nat) :
    (w.exec call a).shared.core.registered sid = w.core.registered sid := by
  rcases w.exec_heap call a with h | ⟨r, f, hf, h⟩ | ⟨p, entries, new, -, hfresh, -, h⟩
  · rw [CoreInner.registered, h]
    rfl
  · rw [CoreInner.registered, h]
    exact registered_modify_same fun u => by rw [hf.sessions ha]
  · rw [CoreInner.registered, h]
    exact registered_append hfresh sid

theorem exec_story (w : World) (call : Call) {a : Action} (ha : a.lively = false) (sid : Nat) :
    (w.exec call a).shared.core.story sid = w.core.story sid ∧
      (w.exec call a).shared.handles = w.handles ∧
      (w.exec call a).shared.core.cancelled = w.core.cancelled := by
  by_cases hl : a.loud = false
  · have hq := w.exec_quiet call hl
    exact ⟨by rw [CoreInner.story, hq.trace]; rfl, hq.handles, hq.cancelled⟩
  cases a with
  | publishUsers | publishCredentials => exact ⟨rfl, rfl, rfl⟩
  | sendReplaced | sendTraffic =>
    exact ⟨by simp [World.exec, World.proceed, World.withCore, CoreInner.story, CoreEvent.life,
      Traffic.event], rfl, rfl⟩
  | ret r =>
    simp only [World.exec]
    split <;> exact ⟨rfl, rfl, rfl⟩
  | drawSessionId | insertSession | closeSession | notifyCancelled | trigger => cases ha
  | _ => exact absurd rfl hl

theorem life_quiet (w : World) (call : Call) {a : Action} (ha : a.lively = false) (sid : Nat)
    {n n' : Stage → Nat} (hn : ∀ stage, n' stage + a.at stage sid =
      n stage + ((w.exec call a).todo.flatten.map (Action.at stage sid)).sum) :
    (w.exec call a).shared.life n' sid = w.life n sid := by
  have hstage : a.stage = none := by cases a <;> first | rfl | cases ha
  have hpush : ∀ stage, ((w.exec call a).todo.flatten.map (Action.at stage sid)).sum = 0 := by
    intro stage
    rw [List.sum_eq_zero_iff]
    intro m hm
    obtain ⟨b, hb, rfl⟩ := List.mem_map.mp hm
    simp [Action.at, ((w.exec_next call a).spawns hb).stage ha]
  have heq : n' = n := by
    funext stage
    have := hn stage
    rw [hpush, Action.at, hstage] at this
    simpa using this
  obtain ⟨h1, h2, h3⟩ := exec_story w call ha sid
  rw [heq, World.life, World.life, World.held, World.held, h1, h2, h3, exec_registered w call ha]

section
variable {w : World} {call : Call} {sid : Nat} {n n' : Stage → Nat}

/-- How the stage counts change when the action `a` is taken. -/
def Counted (w : World) (call : Call) (a : Action) (sid : Nat) (n n' : Stage → Nat) : Prop :=
  ∀ stage, n' stage + a.at stage sid =
    n stage + ((w.exec call a).todo.flatten.map (Action.at stage sid)).sum

theorem life_draw {ref : Nat} {via : Option String} {source : Option IpAddr}
    (hn : Counted w call (.drawSessionId ref via source) sid n n')
    (hfresh : sid = w.core.sessionSeq + 1 → w.life n sid = .unused) :
    LifeStep (w.life n sid) ((w.exec call (.drawSessionId ref via source)).shared.life n' sid) := by
  have hstage : ∀ stage, n' stage = n stage + if stage = .draw ∧ sid = w.core.sessionSeq + 1
      then 1 else 0 := by
    intro stage
    simpa [World.exec, World.proceed, Action.at, Action.stage, eq_comm] using hn stage
  have hlife : (w.exec call (.drawSessionId ref via source)).shared.life n' sid = w.life n' sid := rfl
  rw [hlife]
  by_cases hsid : sid = w.core.sessionSeq + 1
  · have hun := hfresh hsid
    have : w.life n' sid = { w.life n sid with drawn := n .draw + 1 } := by
      simp [World.life, hstage, hsid]
    rw [this, hun]
    have hd : n .draw = 0 := congrArg Life.drawn hun
    rw [hd]
    exact .draw
  · have : n' = n := by
      funext stage
      simp [hstage, hsid]
    rw [this]
    exact .stay

theorem life_readLimits {ref sid' : Nat} {via : Option String} {source : Option IpAddr}
    (hn : Counted w call (.readLimits ref sid' via source) sid n n') :
    LifeStep (w.life n sid) ((w.exec call (.readLimits ref sid' via source)).shared.life n' sid) := by
  have : n' = n := by
    funext stage
    simpa [World.exec, World.proceed, Action.at, Action.stage] using hn stage
  rw [this]
  exact .stay

theorem mem_register {u : UserState} {sid' : Nat} {sourceIp : Option String} :
    sid ∈ (u.register sid' sourceIp).sessions ↔ sid = sid' ∨ sid ∈ u.sessions := by
  simp [UserState.register, UserState.updateOnlineCounts]

theorem mem_unregister {u : UserState} {sid' : Nat} :
    sid ∈ (u.unregister sid').sessions ↔ sid ≠ sid' ∧ sid ∈ u.sessions := by
  simp [UserState.unregister, UserState.updateOnlineCounts]

theorem life_insert {ref sid' : Nat} {limits : CoreUserLimits} {via : Option String}
    {source : Option IpAddr} (hok : (w.life n sid).Ok)
    (hn : Counted w call (.insertSession ref sid' limits via source) sid n n') :
    LifeStep (w.life n sid)
      ((w.exec call (.insertSession ref sid' limits via source)).shared.life n' sid) := by
  have hnone : (w.exec call (.insertSession ref sid' limits via source)).todo = [] := by
    rcases w.exec_insertSession call ref sid' limits via source with ⟨e, he⟩ | ⟨u, -, -, he⟩ <;>
    · rw [he]
      rfl
  have hstage : ∀ stage, n' stage + (if stage = .draw ∧ sid = sid' then 1 else 0) = n stage := by
    intro stage
    simpa [hnone, Action.at, Action.stage, eq_comm] using hn stage
  have hother : ∀ stage, stage ≠ .draw → n' stage = n stage := by
    intro stage hne
    simpa [hne] using hstage stage
  have hdraw := hstage .draw
  simp only [true_and] at hdraw
  rcases w.exec_insertSession call ref sid' limits via source with ⟨e, he⟩ | ⟨u, hu, -, he⟩
  · -- Refused: the id is given up.
    rw [he]
    have hlife : w.life n' sid = { w.life n sid with drawn := n' .draw } := by
      simp [World.life, hother]
    show LifeStep (w.life n sid) (w.life n' sid)
    rw [hlife]
    by_cases hsid : sid = sid'
    · rw [if_pos hsid] at hdraw
      exact .refuse hdraw.symm
    · rw [if_neg hsid, Nat.add_zero] at hdraw
      rw [hdraw]
      exact .stay
  · rw [he]
    have hreg := registered_modify (·.register sid' (source.map normalizeIp)) hu sid
    simp only [mem_register] at hreg
    by_cases hsid : sid = sid'
    · subst hsid
      rw [if_pos rfl] at hdraw
      have hzero : w.core.registered sid = 0 := by
        rcases hok.stage with h | h | h | ⟨h, -⟩
        · exact h.registered
        · have : n .draw = 0 := h.drawn
          omega
        · exact h.2.2.1
        · exact h.2.2.1
      have hnot : sid ∉ u.sessions := by
        intro hin
        have := one_le_registered hu hin
        omega
      simp only [hnot, ↓reduceIte, or_false, Nat.add_zero] at hreg
      refine Eq.subst (motive := LifeStep _) (Life.ext ?_ ?_ ?_ ?_ ?_ ?_ ?_ ?_) (.insert hdraw.symm)
      · simp [World.life, World.reply, CoreEvent.life]
      · exact hreg.symm
      · exact (hother _ (by decide)).symm
      · rfl
      · simp [World.life, World.reply, World.held]
      · exact (hother _ (by decide)).symm
      · exact (hother _ (by decide)).symm
      · rfl
    · have hn' : n' = n := by
        funext stage
        simpa [hsid] using hstage stage
      simp only [hsid, false_or, Nat.add_right_cancel_iff] at hreg
      refine Eq.subst (motive := LifeStep _) (Life.ext ?_ ?_ ?_ ?_ ?_ ?_ ?_ ?_) .stay
      · simp [World.life, World.reply, CoreEvent.life, Ne.symm hsid]
      · exact hreg.symm
      · rw [hn']; rfl
      · rw [hn']; rfl
      · simp [World.life, World.reply, World.held, Ne.symm hsid]
      · rw [hn']; rfl
      · rw [hn']; rfl
      · rfl

theorem closeSession_cases (c : CoreInner) (ref sid' : Nat) :
    (∃ u slot, c.heap[ref]? = some u ∧ u.sessions.lookup sid' = some slot ∧
      c.closeSession ref sid' = (c.modifyUser ref (·.unregister sid')).send
        (.sessionClosed u.id sid' slot.sourceIp)) ∨
    (∀ u, c.heap[ref]? = some u → sid' ∉ u.sessions) ∧
      c.closeSession ref sid' = c.modifyUser ref (·.unregister sid') := by
  unfold CoreInner.closeSession
  split
  · rename_i hu
    refine .inr ⟨by simp [hu], ?_⟩
    rw [CoreInner.modifyUser, List.modify_eq_self (List.getElem?_eq_none_iff.mp hu)]
  · rename_i u hu
    dsimp only
    split
    · rename_i slot hslot
      exact .inl ⟨u, slot, hu, hslot, rfl⟩
    · rename_i hslot
      refine .inr ⟨fun v hv => ?_, rfl⟩
      rw [hu] at hv
      cases hv
      exact AList.lookup_eq_none.mp hslot

theorem life_close {ref sid' : Nat} (hn : Counted w call (.closeSession ref sid') sid n n')
    (howner : sid = sid' → ∀ (r : Nat) (u : UserState),
      w.core.heap[r]? = some u → sid ∈ u.sessions → r = ref) :
    LifeStep (w.life n sid) ((w.exec call (.closeSession ref sid')).shared.life n' sid) := by
  have hstage : ∀ stage, n' stage + (if stage = .close ∧ sid = sid' then 1 else 0) = n stage := by
    intro stage
    simpa [World.exec, World.proceed, Action.at, Action.stage, eq_comm] using hn stage
  have hother : ∀ stage, stage ≠ .close → n' stage = n stage := by
    intro stage hne
    simpa [hne] using hstage stage
  have hclose := hstage .close
  simp only [true_and] at hclose
  show LifeStep (w.life n sid) ((w.withCore (w.core.closeSession ref sid')).life n' sid)
  by_cases hsid : sid = sid'
  · subst hsid
    rw [if_pos rfl] at hclose
    rcases closeSession_cases w.core ref sid with ⟨u, slot, hu, hslot, he⟩ | ⟨hnot, he⟩
    · have hin : sid ∈ u.sessions := mem_iff_lookup.mpr ⟨slot, hslot⟩
      have hreg := registered_modify (·.unregister sid) hu sid
      simp only [mem_unregister, hin, ne_eq, not_true_eq_false, false_and, ↓reduceIte,
        Nat.add_zero] at hreg
      rw [he]
      refine Eq.subst (motive := LifeStep _) (Life.ext ?_ ?_ ?_ ?_ ?_ ?_ ?_ ?_)
        (.close hclose.symm hreg.symm)
      · simp [World.life, World.withCore, CoreEvent.life]
      · rfl
      · exact (hother _ (by decide)).symm
      · exact (hother _ (by decide)).symm
      · rfl
      · rfl
      · exact (hother _ (by decide)).symm
      · rfl
    · -- Not registered here, so nowhere: the drop holds the only reference.
      have hzero : w.core.registered sid = 0 := by
        by_contra hne
        obtain ⟨r, u, hu, hin⟩ := exists_of_registered (Nat.pos_of_ne_zero hne)
        cases howner rfl r u hu hin
        exact hnot u hu hin
      have hreg : (w.core.modifyUser ref (·.unregister sid)).registered sid =
          w.core.registered sid := by
        by_contra hne
        cases hu : w.core.heap[ref]? with
        | none =>
          rw [CoreInner.modifyUser, List.modify_eq_self (List.getElem?_eq_none_iff.mp hu)] at hne
          exact hne rfl
        | some u =>
          have := registered_modify (·.unregister sid) hu sid
          simp only [mem_unregister, hnot u hu, and_false, ↓reduceIte, Nat.add_zero] at this
          exact hne this
      rw [he]
      refine Eq.subst (motive := LifeStep _) (Life.ext ?_ ?_ ?_ ?_ ?_ ?_ ?_ ?_)
        (.closeGone hclose.symm hzero)
      · rfl
      · exact hreg.symm
      · exact (hother _ (by decide)).symm
      · exact (hother _ (by decide)).symm
      · rfl
      · rfl
      · exact (hother _ (by decide)).symm
      · rfl
  · have hn' : n' = n := by
      funext stage
      simpa [hsid] using hstage stage
    have hreg : (w.core.modifyUser ref (·.unregister sid')).registered sid =
        w.core.registered sid := registered_modify_same fun u => by simp [mem_unregister, hsid]
    have hstory : (w.core.closeSession ref sid').story sid = w.core.story sid ∧
        (w.core.closeSession ref sid').registered sid = w.core.registered sid ∧
        (w.core.closeSession ref sid').cancelled = w.core.cancelled := by
      rcases closeSession_cases w.core ref sid' with ⟨u, slot, -, -, he⟩ | ⟨-, he⟩
      · rw [he]
        exact ⟨by simp [CoreEvent.life, Ne.symm hsid], hreg, rfl⟩
      · rw [he]
        exact ⟨rfl, hreg, rfl⟩
    have : (w.withCore (w.core.closeSession ref sid')).life n' sid = w.life n sid := by
      rw [hn', World.life, World.life]
      simp only [World.withCore, World.held, hstory.1, hstory.2.1, hstory.2.2]
    rw [this]
    exact .stay

theorem sum_keys {es : List (Σ _ : Nat, SessionSlot)} (h : es.NodupKeys) :
    (es.map fun e => if e.1 = sid then 1 else 0).sum = if sid ∈ es.keys then 1 else 0 := by
  induction es with
  | nil => rfl
  | cons e es ih =>
    obtain ⟨hnot, hrest⟩ := List.nodupKeys_cons.mp h
    rw [List.map_cons, List.sum_cons, ih hrest, List.keys_cons]
    by_cases he : e.1 = sid
    · subst he
      simp [hnot]
    · simp [he, Ne.symm he]

theorem sum_notices (userId : String) (sessions : Map Nat SessionSlot) (stage : Stage) :
    ((sessions.entries.map fun e => Action.notifyCancelled userId e.1 e.2.sourceIp).map
      (Action.at stage sid)).sum = if stage = .notice ∧ sid ∈ sessions then 1 else 0 := by
  rw [List.map_map]
  by_cases hs : stage = .notice
  · subst hs
    have hfun : (Action.at .notice sid ∘ fun e : Σ _ : Nat, SessionSlot =>
        Action.notifyCancelled userId e.1 e.2.sourceIp) = fun e => if e.1 = sid then 1 else 0 := by
      funext e
      simp [Action.at, Action.stage]
    rw [hfun, sum_keys sessions.nodupKeys]
    simp [AList.mem_keys, AList.keys]
  · have hfun : (Action.at stage sid ∘ fun e : Σ _ : Nat, SessionSlot =>
        Action.notifyCancelled userId e.1 e.2.sourceIp) = fun _ => 0 := by
      funext e
      simp [Action.at, Action.stage, Ne.symm hs]
    simp [hfun, hs]

theorem life_take {ref : Nat} (hn : Counted w call (.takeSessions ref) sid n n') :
    LifeStep (w.life n sid) ((w.exec call (.takeSessions ref)).shared.life n' sid) := by
  cases hu : w.user ref with
  | none =>
    have he : w.exec call (.takeSessions ref) = w.proceed [] := by simp [World.exec, hu]
    have hn' : n' = n := by
      funext stage
      simpa [he, World.proceed, Action.at, Action.stage] using hn stage
    rw [he, hn']
    exact .stay
  | some u =>
    have he : w.exec call (.takeSessions ref) = w.onUser ref UserState.clearSessions
        [u.sessions.entries.map fun e => .notifyCancelled u.id e.1 e.2.sourceIp] := by
      simp [World.exec, hu]
    have hstage : ∀ stage, n' stage = n stage +
        if stage = .notice ∧ sid ∈ u.sessions then 1 else 0 := by
      intro stage
      have := hn stage
      rw [he, World.onUser, World.proceed, List.flatten_cons, List.flatten_nil, List.append_nil,
        sum_notices] at this
      simpa [Action.at, Action.stage] using this
    have hreg := registered_modify UserState.clearSessions hu sid
    have hclear : sid ∉ u.clearSessions.sessions := AList.notMem_empty _
    rw [if_neg hclear, Nat.add_zero] at hreg
    rw [he]
    by_cases hin : sid ∈ u.sessions
    · rw [if_pos hin] at hreg
      refine Eq.subst (motive := LifeStep _) (Life.ext ?_ ?_ ?_ ?_ ?_ ?_ ?_ ?_) (.take hreg.symm)
      · rfl
      · rfl
      · simp [World.life, World.onUser, World.proceed, hstage, hin]
      · simp [World.life, World.onUser, World.proceed, hstage]
      · rfl
      · simp [World.life, World.onUser, World.proceed, hstage]
      · simp [World.life, World.onUser, World.proceed, hstage]
      · rfl
    · have hn' : n' = n := by
        funext stage
        simp [hstage, hin]
      rw [if_neg hin, Nat.add_zero] at hreg
      refine Eq.subst (motive := LifeStep _) (Life.ext ?_ ?_ ?_ ?_ ?_ ?_ ?_ ?_) .stay
      · rfl
      · exact hreg.symm
      all_goals first | rfl | (rw [hn']; rfl)

theorem life_notify {userId : String} {sid' : Nat} {sourceIp : Option String}
    (hn : Counted w call (.notifyCancelled userId sid' sourceIp) sid n n') :
    LifeStep (w.life n sid)
      ((w.exec call (.notifyCancelled userId sid' sourceIp)).shared.life n' sid) := by
  have hstage : ∀ stage, n' stage + (if stage = .notice ∧ sid = sid' then 1 else 0) =
      n stage + if stage = .trigger ∧ sid = sid' then 1 else 0 := by
    intro stage
    simpa [World.exec, World.proceed, Action.at, Action.stage, eq_comm] using hn stage
  by_cases hsid : sid = sid'
  · subst hsid
    have h1 : n' .notice + 1 = n .notice := by simpa using hstage .notice
    have h2 : n' .trigger = n .trigger + 1 := by simpa using hstage .trigger
    have h3 : n' .draw = n .draw := by simpa using hstage .draw
    have h4 : n' .close = n .close := by simpa using hstage .close
    refine Eq.subst (motive := LifeStep _) (Life.ext ?_ ?_ ?_ ?_ ?_ ?_ ?_ ?_) (.notify h1.symm)
    · simp [World.life, World.exec, World.proceed, World.withCore, CoreEvent.life]
    · rfl
    · rfl
    · exact h3.symm
    · rfl
    · exact h4.symm
    · exact h2.symm
    · rfl
  · have hn' : n' = n := by
      funext stage
      simpa [hsid] using hstage stage
    refine Eq.subst (motive := LifeStep _) (Life.ext ?_ ?_ ?_ ?_ ?_ ?_ ?_ ?_) .stay
    · simp [World.life, World.exec, World.proceed, World.withCore, CoreEvent.life, Ne.symm hsid]
    all_goals first | rfl | (rw [hn']; rfl)

theorem life_trigger {sid' : Nat} (hn : Counted w call (.trigger sid') sid n n') :
    LifeStep (w.life n sid) ((w.exec call (.trigger sid')).shared.life n' sid) := by
  have hstage : ∀ stage, n' stage + (if stage = .trigger ∧ sid = sid' then 1 else 0) = n stage := by
    intro stage
    simpa [World.exec, World.proceed, Action.at, Action.stage, eq_comm] using hn stage
  by_cases hsid : sid = sid'
  · subst hsid
    have h1 : n' .trigger + 1 = n .trigger := by simpa using hstage .trigger
    refine Eq.subst (motive := LifeStep _) (Life.ext ?_ ?_ ?_ ?_ ?_ ?_ ?_ ?_) (.trigger h1.symm)
    · rfl
    · rfl
    · exact (show n' .notice = n .notice by simpa using hstage .notice).symm
    · exact (show n' .draw = n .draw by simpa using hstage .draw).symm
    · rfl
    · exact (show n' .close = n .close by simpa using hstage .close).symm
    · rfl
    · simp [World.life, World.exec, World.proceed, World.withCore]
  · have hn' : n' = n := by
      funext stage
      simpa [hsid] using hstage stage
    refine Eq.subst (motive := LifeStep _) (Life.ext ?_ ?_ ?_ ?_ ?_ ?_ ?_ ?_) .stay
    case refine_8 => simp [World.life, World.exec, World.proceed, World.withCore, hsid]
    all_goals first | rfl | (rw [hn']; rfl)

end

/-! ### Every reachable state -/

structure Alive (s : System) : Prop where
  ok : ∀ sid, (lifeOf s sid).Ok
  unused : ∀ sid, s.shared.core.sessionSeq < sid → lifeOf s sid = .unused
  drawn : ∀ a sid, s.Pending a → a.stage = some (.draw, sid) → sid ≤ s.shared.core.sessionSeq
  owner : ∀ (r : Nat) (u : UserState) sid, s.shared.core.heap[r]? = some u → sid ∈ u.sessions →
    (⟨r, sid⟩ : ActiveSession) ∈ s.shared.handles.map (·.session) ∨ s.Pending (.closeSession r sid)

theorem held_pos {w : World} {session : ActiveSession} (h : session ∈ w.handles.map (·.session)) :
    0 < w.held session.sessionId := by
  obtain ⟨handle, hm, rfl⟩ := List.mem_map.mp h
  exact List.countP_pos_iff.mpr ⟨handle, hm, by simp⟩

theorem Alive.closing_owner {s : System} (h : Alive s) {ref sid r : Nat} {u : UserState}
    (hp : s.Pending (.closeSession ref sid)) (hu : s.shared.core.heap[r]? = some u)
    (hs : sid ∈ u.sessions) : r = ref := by
  have hone : s.owed (Action.at .draw sid) + s.shared.held sid + s.owed (Action.at .close sid) ≤ 1 :=
    (h.ok sid).one
  have hat : ∀ x, Action.at .close sid (.closeSession x sid) = 1 := by simp [Action.at, Action.stage]
  rcases h.owner r u sid hu hs with hh | hp'
  · have h1 := Pool.le_owed (Action.at .close sid) hp
    have h2 := held_pos hh
    rw [hat] at h1
    dsimp only at h2
    omega
  · by_contra hne
    have := Pool.add_le_owed (Action.at .close sid) hp hp' (by simpa using Ne.symm hne)
    rw [hat, hat] at this
    omega

theorem exec_sessionSeq (w : World) (call : Call) (a : Action) :
    (w.exec call a).shared.core.sessionSeq = w.core.sessionSeq ∨
      (∃ ref via source, a = .drawSessionId ref via source) ∧
        (w.exec call a).shared.core.sessionSeq = w.core.sessionSeq + 1 := by
  by_cases hl : a.loud = false
  · exact .inl (w.exec_quiet call hl).sessionSeq
  cases a with
  | drawSessionId ref via source => exact .inr ⟨⟨ref, via, source, rfl⟩, rfl⟩
  | insertSession ref sid limits via source =>
    rcases w.exec_insertSession call ref sid limits via source with ⟨e, h⟩ | ⟨u, -, -, h⟩ <;>
    · rw [h]
      exact .inl rfl
  | closeSession ref sid =>
    left
    show (w.core.closeSession ref sid).sessionSeq = _
    rcases closeSession_cases w.core ref sid with ⟨u, slot, -, -, h⟩ | ⟨-, h⟩ <;> rw [h] <;> rfl
  | ret r =>
    simp only [World.exec]
    split <;> exact .inl rfl
  | notifyCancelled | trigger | publishUsers | publishCredentials | sendReplaced | sendTraffic =>
    exact .inl rfl
  | _ => exact absurd rfl hl

section
variable (passwordHash : String → Bytes)

theorem life_run {s : System} (h : Alive s) {i k : Nat} {t : Task Call Action Reply} {a : Action}
    {rest : List (List Action)} (ht : s.tasks[i]? = some t) (hp : pick t.todo k = some (a, rest))
    (sid : Nat) : LifeStep (lifeOf s sid) (lifeOf ⟨(s.shared.exec t.call a).shared,
      s.tasks.set i (t.after (s.shared.exec t.call a) rest)⟩ sid) := by
  have hn : Counted s.shared t.call a sid (fun stage => s.owed (Action.at stage sid)) fun stage =>
      Pool.owed ⟨(s.shared.exec t.call a).shared,
        s.tasks.set i (t.after (s.shared.exec t.call a) rest)⟩ (Action.at stage sid) :=
    fun stage => Pool.owed_run _ ht hp _ _
  have hpend := Pool.pending_taken ht hp
  unfold lifeOf
  by_cases ha : a.lively = false
  · rw [life_quiet s.shared t.call ha sid hn]
    exact .stay
  cases a with
  | drawSessionId => exact life_draw hn fun hsid => h.unused sid (by omega)
  | readLimits => exact life_readLimits hn
  | insertSession => exact life_insert (h.ok sid) hn
  | closeSession ref sid' =>
    refine life_close hn fun hsid r u hu hs => ?_
    subst hsid
    exact h.closing_owner hpend hu hs
  | takeSessions => exact life_take hn
  | notifyCancelled => exact life_notify hn
  | trigger => exact life_trigger hn
  | _ => exact absurd rfl ha

theorem Begins.stage {call : Call} {z : Action} (h : Begins passwordHash call z) :
    z.stage = none ∨ ∃ session, call = .dropSession session ∧
      z = .closeSession session.user session.sessionId := by
  cases h with
  | dropSession => exact .inr ⟨_, rfl, rfl⟩
  | _ => exact .inl rfl

theorem held_filter (w : World) (session : ActiveSession) (sid : Nat) :
    w.held sid = World.held { w with handles := w.handles.filter (·.session ≠ session) } sid +
      (w.handles.filter (·.session = session)).countP (·.session.sessionId = sid) := by
  unfold World.held
  rw [List.countP_eq_countP_filter_add _ _ fun h => decide (h.session ≠ session)]
  simp

theorem life_drop {w : World} {n : Stage → Nat} {session : ActiveSession} {sid : Nat}
    (hok : (w.life n sid).Ok) (hin : session ∈ w.handles.map (·.session)) :
    LifeStep (w.life n sid)
      (World.life { w with handles := w.handles.filter (·.session ≠ session) }
        (fun stage => n stage + Action.at stage sid (.closeSession session.user session.sessionId))
        sid) := by
  have hsplit := held_filter w session sid
  by_cases hsid : sid = session.sessionId
  · subst hsid
    have hpos : 0 < (w.handles.filter (·.session = session)).countP
        (·.session.sessionId = session.sessionId) := by
      obtain ⟨handle, hm, rfl⟩ := List.mem_map.mp hin
      exact List.countP_pos_iff.mpr ⟨handle, by simp [hm], by simp⟩
    have hone : n .draw + w.held session.sessionId + n .close ≤ 1 := hok.one
    have hheld : w.held session.sessionId =
        World.held { w with handles := w.handles.filter (·.session ≠ session) } session.sessionId + 1 := by
      omega
    refine Eq.subst (motive := LifeStep _) (Life.ext ?_ ?_ ?_ ?_ ?_ ?_ ?_ ?_) (.drop hheld)
    all_goals first | rfl | simp [World.life, Action.at, Action.stage]
  · have hzero : (w.handles.filter (·.session = session)).countP (·.session.sessionId = sid) = 0 := by
      rw [List.countP_eq_zero]
      intro handle hm
      have : handle.session = session := by simpa using (List.mem_filter.mp hm).2
      simpa [this] using Ne.symm hsid
    rw [hzero, Nat.add_zero] at hsplit
    refine Eq.subst (motive := LifeStep _) (Life.ext ?_ ?_ ?_ ?_ ?_ ?_ ?_ ?_) .stay
    case refine_5 => exact hsplit
    all_goals first | rfl | simp [World.life, Action.at, Action.stage, Ne.symm hsid]

theorem life_step {s s' : System} (h : Alive s) {l : Move Call}
    (hstep : (machine passwordHash).step s l = some s') (sid : Nat) :
    LifeStep (lifeOf s sid) (lifeOf s' sid) := by
  rcases step_cases passwordHash hstep with ⟨c, z, w, -, hz, -, -, hw, rfl⟩ |
    ⟨i, k, t, a, rest, -, ht, hp, rfl⟩ | ⟨i, t, direction, session, bytes, -, ht, htodo, rfl⟩
  · have howed : ∀ stage, Pool.owed ⟨w, s.tasks ++ [⟨c, [[z]], none⟩]⟩ (Action.at stage sid) =
        s.owed (Action.at stage sid) + Action.at stage sid z := by
      intro stage
      rw [Pool.owed_call]
      simp
    unfold lifeOf
    simp only [howed]
    rcases hw with ⟨hdrop, rfl⟩ | ⟨session, rfl, hin, rfl⟩
    · rcases hz.stage with hnone | ⟨session, heq, -⟩
      · simp only [Action.at, hnone, reduceCtorEq, ↓reduceIte, Nat.add_zero]
        exact .stay
      · exact absurd heq (hdrop session)
    · cases hz
      exact life_drop (h.ok sid) hin
  · exact life_run h ht hp sid
  · have howed : ∀ stage, Pool.owed ⟨s.shared, s.tasks.set i { t with todo := [] }⟩
        (Action.at stage sid) = s.owed (Action.at stage sid) := by
      intro stage
      have := Pool.owed_abandon (Action.at stage sid) ht htodo
      simpa [Action.at, Action.stage] using this
    unfold lifeOf
    simp only [howed]
    exact .stay

theorem Spawns.draw {a b : Action} (h : Spawns a b) {sid : Nat}
    (hb : b.stage = some (.draw, sid)) :
    (∃ ref via source, a = .drawSessionId ref via source) ∨ a.stage = some (.draw, sid) := by
  cases h with
  | drawSessionId => exact .inl ⟨_, _, _, rfl⟩
  | readLimits => exact .inr hb
  | _ => cases hb

theorem exec_handles (w : World) (call : Call) (a : Action) :
    w.handles.Sublist (w.exec call a).shared.handles := by
  by_cases hl : a.loud = false
  · rw [(w.exec_quiet call hl).handles]
  cases a with
  | insertSession ref sid limits via source =>
    rcases w.exec_insertSession call ref sid limits via source with ⟨e, h⟩ | ⟨u, -, -, h⟩ <;> rw [h]
    · exact List.Sublist.refl _
    · exact List.sublist_append_left _ _
  | ret r =>
    simp only [World.exec]
    split <;> exact List.Sublist.refl _
  | drawSessionId | closeSession | notifyCancelled | trigger | publishUsers | publishCredentials
  | sendReplaced | sendTraffic => exact List.Sublist.refl _
  | _ => exact absurd rfl hl

theorem exec_mem_sessions {w : World} {call : Call} {a : Action} {r sid : Nat} {u' : UserState}
    (hu' : (w.exec call a).shared.core.heap[r]? = some u') (hs : sid ∈ u'.sessions) :
    (∃ u, w.core.heap[r]? = some u ∧ sid ∈ u.sessions ∧ a ≠ .closeSession r sid) ∨
      (⟨r, sid⟩ : ActiveSession) ∈ (w.exec call a).shared.handles.map (·.session) := by
  by_cases ha : a = .closeSession r sid
  · subst ha
    rw [show (w.exec call (.closeSession r sid)).shared.core.heap = _ from closeSession_heap _ _ _,
      List.getElem?_modify_eq] at hu'
    obtain ⟨u, -, rfl⟩ := Option.map_eq_some_iff.mp hu'
    exact absurd rfl (mem_unregister.mp hs).1
  rcases w.exec_heap call a with h | ⟨ref, f, hf, h⟩ | ⟨p, entries, new, -, hfresh, -, h⟩
  · exact .inl ⟨u', by rw [← h, hu'], hs, ha⟩
  · rw [h, List.getElem?_modify] at hu'
    by_cases hr : ref = r
    · subst hr
      simp only [↓reduceIte, Option.map_eq_map, Option.map_eq_some_iff] at hu'
      obtain ⟨u, hu, rfl⟩ := hu'
      by_cases hl : a.lively = false
      · exact .inl ⟨u, hu, hf.sessions hl u ▸ hs, ha⟩
      cases hf with
      | register hu₀ hadm =>
        rcases mem_register.mp hs with rfl | hs
        · right
          simp [World.exec, insertSession_admitted hu₀ hadm, World.reply]
        · exact .inl ⟨u, hu, hs, ha⟩
      | unregister => exact .inl ⟨u, hu, (mem_unregister.mp hs).2, ha⟩
      | clear => exact absurd hs (AList.notMem_empty _)
      | _ => exact absurd rfl hl
    · exact .inl ⟨u', by simpa [hr] using hu', hs, ha⟩
  · rw [h] at hu'
    by_cases hlt : r < w.core.heap.length
    · exact .inl ⟨u', by rwa [List.getElem?_append_left hlt] at hu', hs, ha⟩
    · rw [List.getElem?_append_right (by omega)] at hu'
      rw [(hfresh u' (List.mem_of_getElem? hu')).1] at hs
      exact absurd hs (AList.notMem_empty _)

theorem alive_step {s s' : System} (h : Alive s) {l : Move Call}
    (hstep : (machine passwordHash).step s l = some s') : Alive s' := by
  have hlife := life_step passwordHash h hstep
  have hok : ∀ sid, (lifeOf s' sid).Ok := fun sid => (h.ok sid).step (hlife sid)
  have hseq : s.shared.core.sessionSeq ≤ s'.shared.core.sessionSeq := by
    rcases step_cases passwordHash hstep with ⟨c, z, w, -, -, hcore, -, -, rfl⟩ |
      ⟨i, k, t, a, rest, -, -, -, rfl⟩ | ⟨i, t, direction, session, bytes, -, -, -, rfl⟩
    · rw [hcore]
    · rcases exec_sessionSeq s.shared t.call a with he | ⟨-, he⟩ <;> rw [he]
      exact Nat.le_succ _
    · exact le_rfl
  have hdrawn : ∀ a sid, s'.Pending a → a.stage = some (.draw, sid) →
      sid ≤ s'.shared.core.sessionSeq := by
    intro b sid hb hstage
    rcases step_cases passwordHash hstep with ⟨c, z, w, -, hz, -, -, -, rfl⟩ |
      ⟨i, k, t, a, rest, -, ht, hp, rfl⟩ | ⟨i, t, direction, session, bytes, -, -, -, rfl⟩
    · rcases Pool.pending_call.mp hb with hb | hb
      · exact (h.drawn b sid hb hstage).trans hseq
      · rw [List.mem_singleton.mp hb] at hstage
        rcases hz.stage with hnone | ⟨session, -, rfl⟩
        · rw [hnone] at hstage
          cases hstage
        · cases hstage
    · rcases Pool.pending_run ht hp hb with hb | hb
      · exact (h.drawn b sid hb hstage).trans hseq
      · rcases ((s.shared.exec_next t.call a).spawns hb).draw hstage with ⟨ref, via, source, rfl⟩ | ha
        · rw [List.mem_singleton.mp hb] at hstage
          cases hstage
          exact le_rfl
        · exact (h.drawn a sid (Pool.pending_taken ht hp) ha).trans hseq
    · exact h.drawn b sid (Pool.pending_abandon hb) hstage
  refine ⟨hok, fun sid hsid => ?_, hdrawn, ?_⟩
  · have hold := h.unused sid (by omega)
    have := hlife sid
    rw [hold] at this
    rcases Life.step_unused this with hu | hd
    · exact hu
    · have hpos : 0 < s'.owed (Action.at .draw sid) := by
        have : s'.owed (Action.at .draw sid) = 1 := congrArg Life.drawn hd
        omega
      obtain ⟨a, ha, hat⟩ := Pool.exists_of_owed hpos
      have hstage : a.stage = some (.draw, sid) := by
        by_contra hne
        simp [Action.at, hne] at hat
      have := hdrawn a sid ha hstage
      omega
  · intro r u' sid hu' hs
    rcases step_cases passwordHash hstep with ⟨c, z, w, -, hz, hcore, -, hw, rfl⟩ |
      ⟨i, k, t, a, rest, -, ht, hp, rfl⟩ | ⟨i, t, direction, session, bytes, -, ht, htodo, rfl⟩
    · dsimp only at hu'
      rw [hcore] at hu'
      rcases h.owner r u' sid hu' hs with hh | hp
      · rcases hw with ⟨-, rfl⟩ | ⟨session, rfl, -, rfl⟩
        · exact .inl hh
        · by_cases heq : session = ⟨r, sid⟩
          · subst heq
            cases hz
            exact .inr (Pool.pending_call.mpr (.inr (by simp)))
          · obtain ⟨handle, hm, hsess⟩ := List.mem_map.mp hh
            exact .inl (List.mem_map.mpr ⟨handle, by simp [hm, hsess, Ne.symm heq], hsess⟩)
      · exact .inr (Pool.pending_call.mpr (.inl hp))
    · rcases exec_mem_sessions hu' hs with ⟨u, hu, hsu, hne⟩ | hh
      · rcases h.owner r u sid hu hsu with hh | hpend
        · exact .inl ((exec_handles s.shared t.call a).map _ |>.subset hh)
        · exact .inr (Pool.pending_run_of_ne ht hp _ _ hpend (Ne.symm hne))
      · exact .inl hh
    · rcases h.owner r u' sid hu' hs with hh | hpend
      · exact .inl hh
      · exact .inr (Pool.pending_abandon_of_ne ht htodo hpend (by simp))

theorem alive {ok : System → Move Call → Prop} {ls : List (Move Call)} {s : System}
    (h : Steps (machine passwordHash).step ok System.empty ls s) : Alive s := by
  refine h.invariant Alive (fun _ _ _ ha _ hstep => alive_step passwordHash ha hstep) ⟨?_, ?_, ?_, ?_⟩
  · intro sid
    exact Life.ok_unused
  · intro sid _
    rfl
  · rintro a sid ⟨t, ht, -⟩
    cases ht
  · intro r u sid hu
    cases hu

/-! ### Cached counters -/

end

/-- The map names states that carry the name they are under. -/
def Named (heap : List UserState) (users : Map String Nat) : Prop :=
  ∀ id ref, users.lookup id = some ref → ∃ u, heap[ref]? = some u ∧ u.id = id

/-- The published users map and those on their way are named. -/
def NamesOk (s : System) : Prop :=
  Named s.shared.core.heap s.shared.core.users ∧
    ∀ userMap, s.Pending (.publishUsers userMap) → Named s.shared.core.heap userMap

theorem namesOk_empty : NamesOk System.empty :=
  ⟨fun _ _ hl => (by cases hl), fun _ ⟨_, ht, _⟩ => (by cases ht)⟩

theorem UserStep.id {c : CoreInner} {a : Action} {ref : Nat} {f : UserState → UserState}
    (h : UserStep c a ref f) (u : UserState) : (f u).id = u.id := by
  cases h with
  | rate =>
    rename_i direction _
    cases direction <;> rfl
  | _ => rfl

theorem exec_id {w : World} {call : Call} {a : Action} {r : Nat} {u : UserState}
    (hu : w.core.heap[r]? = some u) :
    ∃ u', (w.exec call a).shared.core.heap[r]? = some u' ∧ u'.id = u.id := by
  rcases w.exec_heap call a with h | ⟨ref, f, hf, h⟩ | ⟨p, entries, new, -, -, -, h⟩
  · exact ⟨u, by rw [h, hu], rfl⟩
  · rw [h]
    by_cases hr : ref = r
    · exact ⟨f u, by simp [hr, hu], hf.id u⟩
    · exact ⟨u, by simp [hr, hu], rfl⟩
  · exact ⟨u, by rw [h, List.getElem?_append_left (lt_of_getElem? hu), hu], rfl⟩

theorem Named.exec {w : World} {call : Call} {a : Action} {users : Map String Nat}
    (h : Named w.core.heap users) : Named (w.exec call a).shared.core.heap users := by
  intro id ref href
  obtain ⟨u, hu, rfl⟩ := h id ref href
  exact exec_id hu

theorem named_allocate {heap : List UserState} {current : Map String Nat} (hc : Named heap current)
    (entries : List (CoreUser × Finset String)) (acc : List UserState × Map String Nat)
    (hpre : heap <+: acc.1) (hacc : Named acc.1 acc.2) :
    Named (entries.foldl (allocate current) acc).1 (entries.foldl (allocate current) acc).2 := by
  induction entries generalizing acc with
  | nil => exact hacc
  | cons e entries ih =>
    rw [List.foldl_cons]
    cases hcur : current.lookup e.1.id with
    | some ref =>
      have he : allocate current acc e = (acc.1, acc.2.insert e.1.id ref) := by simp [allocate, hcur]
      rw [he]
      refine ih _ hpre fun id ref' hnew => ?_
      rw [lookup_insert_ite] at hnew
      split at hnew
      · rename_i heq
        cases hnew
        obtain ⟨u, hu, hid⟩ := hc _ _ hcur
        obtain ⟨new, hnew⟩ := hpre
        exact ⟨u, by rw [← hnew, List.getElem?_append_left (lt_of_getElem? hu), hu],
          hid.trans heq.symm⟩
      · exact hacc id ref' hnew
    | none =>
      have he : allocate current acc e = (acc.1 ++ [UserState.new e.1 e.2],
          acc.2.insert e.1.id acc.1.length) := by simp [allocate, hcur]
      rw [he]
      refine ih _ (hpre.trans (List.prefix_append _ _)) fun id ref' hnew => ?_
      rw [lookup_insert_ite] at hnew
      split at hnew
      · rename_i heq
        cases hnew
        exact ⟨UserState.new e.1 e.2, by simp, heq.symm⟩
      · obtain ⟨u, hu, hid⟩ := hacc id ref' hnew
        exact ⟨u, by rw [List.getElem?_append_left (lt_of_getElem? hu), hu], hid⟩

section
variable (passwordHash : String → Bytes)

theorem namesOk_step {s s' : System} {l : Move Call}
    (hstep : (machine passwordHash).step s l = some s') (h : NamesOk s) : NamesOk s' := by
  rcases step_cases passwordHash hstep with ⟨c, z, w, -, hz, hcore, -, -, rfl⟩ |
    ⟨i, k, t, a, rest, -, ht, hp, rfl⟩ | ⟨i, t, direction, session, bytes, -, ht, htodo, rfl⟩
  · refine ⟨by dsimp only; rw [hcore]; exact h.1, fun m hm => ?_⟩
    dsimp only
    rw [hcore]
    rcases Pool.pending_call.mp hm with hm | hm
    · exact h.2 m hm
    · rw [← List.mem_singleton.mp hm] at hz
      cases hz
  · refine ⟨?_, fun m hm => ?_⟩
    · rcases s.shared.exec_users t.call a with hu | ⟨m, rfl, hu⟩ <;> dsimp only <;> rw [hu]
      · exact h.1.exec
      · exact (h.2 m (Pool.pending_taken ht hp)).exec
    · rcases Pool.pending_run ht hp hm with hm | hm
      · exact (h.2 m hm).exec
      · cases (s.shared.exec_next t.call a).spawns hm with
        | readUsers =>
          rcases (World.mem_readUsers t.call).mp hm with hm | hm | hm | hm | hm | hm
          · obtain ⟨_, _, _, _, heq⟩ := mem_updates.mp hm
            cases heq
          · obtain ⟨_, _, heq⟩ := mem_sweeps.mp hm
            cases heq
          · cases hm
            exact named_allocate h.1 _ (s.shared.core.heap, ∅) (List.prefix_refl _)
              fun id ref hnew => by cases hnew
          all_goals cases hm
  · exact ⟨h.1, fun m hm => h.2 m (Pool.pending_abandon hm)⟩

theorem wellFormed {ok : System → Move Call → Prop} {ls : List (Move Call)} {s : System}
    (h : Steps (machine passwordHash).step ok System.empty ls s) : s.shared.core.WellFormed := by
  have ha := alive passwordHash h
  have hnames := h.invariant NamesOk (fun _ _ _ hi _ hstep => namesOk_step passwordHash hstep hi)
    namesOk_empty
  have hle : ∀ sid, s.shared.core.registered sid ≤ 1 ∧
      (0 < s.shared.core.registered sid → sid ∉ s.shared.core.cancelled) := by
    intro sid
    rcases (ha.ok sid).stage with hs | hs | hs | ⟨hs, -⟩
    · have : s.shared.core.registered sid = 0 := hs.registered
      exact ⟨by omega, by omega⟩
    · have : s.shared.core.registered sid + s.owed (Action.at .notice sid) = 1 := hs.once
      refine ⟨by omega, fun _ => ?_⟩
      simpa [lifeOf, World.life] using hs.flag
    · have : s.shared.core.registered sid = 0 := hs.2.2.1
      exact ⟨by omega, by omega⟩
    · have : s.shared.core.registered sid = 0 := hs.2.2.1
      exact ⟨by omega, by omega⟩
  refine ⟨hnames.1, ?_, ?_⟩
  · intro r r' u u' sid hu hu' hs hs'
    by_contra hne
    have := two_le_registered hu hu' hs hs' hne
    have := (hle sid).1
    omega
  · intro r u sid hu hs
    exact (hle sid).2 (one_le_registered hu hs)

/-- The contract of `replace_users` on the core of any reachable state. -/
theorem replaceUsers_contract {ls : List (Move Call)} {s : System}
    (h : Steps (machine passwordHash).step always System.empty ls s) (users : List CoreUser) :
    (∃ e, s.shared.core.replaceUsers passwordHash users = (.err e, s.shared.core)) ∨
    ∃ c', s.shared.core.replaceUsers passwordHash users = (.ok (), c') ∧
      Replaced users s.shared.core c' := by
  have hw := wellFormed passwordHash h
  rcases replaceUsers_cases passwordHash s.shared.core users with ⟨e, he⟩ | ⟨c', hc'⟩
  · exact .inl ⟨e, he⟩
  · exact .inr ⟨c', hc', (replaceUsers_change hw hc').replaced hw⟩

end

/-- Alice is online when bob replaces her. -/
theorem replaceUsers_contract_online : ∃ s c', Steps (machine textHash).step always System.empty
      (.call (.replaceUsers [.password "alice" "secret"]) :: runs 0 5 ++
        .call (.openSession "alice" none) :: runs 1 4) s ∧
      s.shared.core.replaceUsers textHash [.password "bob" "hunter2"] = (.ok (), c') ∧
      Replaced [.password "bob" "hunter2"] s.shared.core c' := by
  obtain ⟨s, hs, hok⟩ := steps_of_replay (show (replay (machine textHash).step System.empty
    (.call (.replaceUsers [.password "alice" "secret"]) :: runs 0 5 ++
      .call (.openSession "alice" none) :: runs 1 4)).any (fun s =>
        (s.shared.core.replaceUsers textHash [.password "bob" "hunter2"]).1 = .ok ()) = true
    by decide)
  rcases replaceUsers_contract textHash hs [.password "bob" "hunter2"] with ⟨e, he⟩ | ⟨c', hc', hr⟩
  · simp [he] at hok
  · exact ⟨s, c', hs, hc', hr⟩

end Aerion.Core
