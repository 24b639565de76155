import Aerion.Core.Credentials

/-!
# The sessions that are held

A listener opens a core session, and clones of its handle are held by the
tasks that it starts. A session is closed when the last clone is dropped, so
the sessions in a user's map are the ones that somebody holds and that were
not cancelled.
-/

namespace Aerion.Core

open Aerion.Net Lib

/-- The sessions that are held, for the calls that are made on the core. -/
structure Leases (core : CoreInner) (held : ActiveSession → Prop) : Prop where
  registered : ∀ (ref : ℕ) (u : UserState) (id : ℕ), core.heap[ref]? = some u →
    (id ∈ u.sessions ↔ held ⟨ref, id⟩ ∧ id ∉ core.cancelled)
  drawn : ∀ x, held x → x.sessionId ≤ core.sessionSeq
  known : ∀ x, held x → ∃ u, core.heap[x.user]? = some u
  apart : ∀ x y, held x → held y → x.sessionId = y.sessionId → x = y
  past : ∀ id ∈ core.cancelled, id ≤ core.sessionSeq

/-- A session of a user is registered from an address, as long as it is not cancelled. -/
def Placed (core : CoreInner) (user : String) (ip : IpAddr) (x : ActiveSession) : Prop :=
  ∃ u, core.heap[x.user]? = some u ∧ u.id = user ∧
    (x.sessionId ∉ core.cancelled → u.sessions.lookup x.sessionId = some ⟨some (normalizeIp ip)⟩)

theorem openSession_ok {core core' : CoreInner} {user : String} {source : Option IpAddr} {x : ActiveSession}
    (h : core.openSessionWithSource user source = (.ok x, core')) :
    ∃ u, core.users.lookup user = some x.user ∧ core.heap[x.user]? = some u ∧
      u.admits u.limits (source.map normalizeIp) = .ok () ∧ x.sessionId = core.sessionSeq + 1 ∧
      core' = ({ core with sessionSeq := core.sessionSeq + 1 }.modifyUser x.user
        (·.register x.sessionId (source.map normalizeIp))).send
          (.sessionOpened u.id x.sessionId (source.map normalizeIp)) := by
  unfold CoreInner.openSessionWithSource at h
  split at h
  · cases h
  · rename_i ref huser
    dsimp only at h
    rcases insertSession_cases { core with sessionSeq := core.sessionSeq + 1 } ref (core.sessionSeq + 1)
        (((core.heap[ref]?).map UserState.limits).getD .unlimited) source with ⟨e, hcase⟩ | ⟨u, hu, hadmits, hcase⟩
    · rw [hcase] at h
      cases h
    · have hheap : core.heap[ref]? = some u := hu
      rw [hcase] at h
      rw [hheap] at hadmits
      cases h
      exact ⟨u, huser, hheap, hadmits, rfl, rfl⟩

theorem openSession_error {core core' : CoreInner} {user e : String} {source : Option IpAddr}
    (h : core.openSessionWithSource user source = (.error e, core')) :
    ∃ seq, core.sessionSeq ≤ seq ∧ core' = { core with sessionSeq := seq } := by
  unfold CoreInner.openSessionWithSource at h
  split at h
  · cases h
    exact ⟨core.sessionSeq, Nat.le_refl _, rfl⟩
  · rename_i ref huser
    dsimp only at h
    rcases insertSession_cases { core with sessionSeq := core.sessionSeq + 1 } ref (core.sessionSeq + 1)
        (((core.heap[ref]?).map UserState.limits).getD .unlimited) source with ⟨e, hcase⟩ | ⟨u, -, -, hcase⟩
    · rw [hcase] at h
      cases h
      exact ⟨core.sessionSeq + 1, Nat.le_succ _, rfl⟩
    · rw [hcase] at h
      cases h

theorem closeSession_rest (core : CoreInner) (ref id : ℕ) :
    (core.closeSession ref id).users = core.users ∧ (core.closeSession ref id).cancelled = core.cancelled ∧
      (core.closeSession ref id).sessionSeq = core.sessionSeq := by
  rcases closeSession_cases core ref id with ⟨_, _, -, -, h⟩ | ⟨-, h⟩ <;> rw [h] <;> exact ⟨rfl, rfl, rfl⟩

theorem cancelSessions_seq (core : CoreInner) (ref : ℕ) :
    (core.cancelSessions ref).sessionSeq = core.sessionSeq := by
  have hfold : ∀ (user : String) (entries : List (Σ _ : ℕ, SessionSlot)) (c : CoreInner),
      (entries.foldl (CoreInner.cancelSession user) c).sessionSeq = c.sessionSeq := by
    intro user entries
    induction entries with
    | nil => exact fun _ => rfl
    | cons entry entries ih => exact fun c => (ih _).trans rfl
  unfold CoreInner.cancelSessions
  split
  · rfl
  · exact hfold _ _ _

/-! ### Calls on the core -/

section
variable {core core' : CoreInner} {held : ActiveSession → Prop} {x : ActiveSession}

theorem known_modify {users : List UserState} {ref ref' : ℕ} (f : UserState → UserState)
    (h : ∃ u, users[ref]? = some u) : ∃ u, (users.modify ref' f)[ref]? = some u := by
  obtain ⟨u, hu⟩ := h
  rw [List.getElem?_modify, hu]
  exact ⟨_, rfl⟩

theorem Leases.congr {held' : ActiveSession → Prop} (h : Leases core held) (hiff : ∀ x, held' x ↔ held x) :
    Leases core held' := by
  rwa [funext fun x => propext (hiff x)]

theorem Leases.opened (h : Leases core held) {user : String} {source : Option IpAddr}
    (hopen : core.openSessionWithSource user source = (.ok x, core')) : Leases core' fun y => held y ∨ y = x := by
  obtain ⟨u, -, hu, -, hid, rfl⟩ := openSession_ok hopen
  have hnew : ∀ y, held y → y.sessionId ≠ x.sessionId := by
    intro y hy heq
    have := h.drawn y hy
    omega
  have hheap : ∀ ref v,
      (core.heap.modify x.user fun u => u.register x.sessionId (source.map normalizeIp))[ref]? =
        some v →
      ∃ w, core.heap[ref]? = some w ∧
        v = if x.user = ref then w.register x.sessionId (source.map normalizeIp) else w := by
    intro ref v hv
    rw [List.getElem?_modify] at hv
    obtain ⟨w, hw, rfl⟩ := Option.map_eq_some_iff.mp hv
    exact ⟨w, hw, rfl⟩
  constructor
  · intro ref v id hv
    obtain ⟨w, hw, rfl⟩ := hheap ref v hv
    have hold := h.registered ref w id hw
    by_cases hid' : id = x.sessionId
    · subst hid'
      have hfresh : x.sessionId ∉ core.cancelled := fun hmem => by
        have := h.past _ hmem
        omega
      have hnone : ¬held ⟨ref, x.sessionId⟩ := fun hheld => hnew _ hheld rfl
      split
      · rename_i href
        subst href
        exact iff_of_true (mem_register.mpr (.inl rfl)) ⟨.inr rfl, hfresh⟩
      · rename_i href
        rw [hold]
        refine iff_of_false (fun hmem => hnone hmem.1) ?_
        rintro ⟨hmem | heq, -⟩
        · exact hnone hmem
        · exact href (congrArg ActiveSession.user heq).symm
    · have hother : (⟨ref, id⟩ : ActiveSession) ≠ x := fun heq => hid' (congrArg ActiveSession.sessionId heq)
      have hreg : id ∈ (if x.user = ref then w.register x.sessionId (source.map normalizeIp) else w).sessions ↔
          id ∈ w.sessions := by
        split
        · rw [mem_register, or_iff_right hid']
        · rfl
      rw [hreg, hold]
      simp [hother]
  · rintro y (hy | rfl)
    · exact (h.drawn y hy).trans (Nat.le_succ _)
    · exact Nat.le_of_eq hid
  · rintro y (hy | rfl)
    · exact known_modify _ (h.known y hy)
    · exact known_modify _ ⟨u, hu⟩
  · rintro y z (hy | rfl) (hz | rfl) heq
    · exact h.apart y z hy hz heq
    · exact absurd heq (hnew y hy)
    · exact absurd heq.symm (hnew z hz)
    · rfl
  · intro id hid'
    exact (h.past id hid').trans (Nat.le_succ _)

theorem Leases.refused (h : Leases core held) {user e : String} {source : Option IpAddr}
    (hopen : core.openSessionWithSource user source = (.error e, core')) : Leases core' held := by
  obtain ⟨seq, hseq, rfl⟩ := openSession_error hopen
  exact ⟨h.registered, fun y hy => (h.drawn y hy).trans hseq, h.known, h.apart,
    fun id hid => (h.past id hid).trans hseq⟩

theorem Leases.closed (h : Leases core held) :
    Leases (core.closeSession x.user x.sessionId) fun y => held y ∧ y ≠ x := by
  obtain ⟨-, hcancelled, hseq⟩ := closeSession_rest core x.user x.sessionId
  constructor
  · intro ref v id hv
    rw [closeSession_heap, List.getElem?_modify] at hv
    obtain ⟨w, hw, rfl⟩ := Option.map_eq_some_iff.mp hv
    have hold := h.registered ref w id hw
    rw [hcancelled]
    by_cases href : x.user = ref
    · subst href
      simp only [if_true, mem_unregister, hold]
      have hne : (⟨x.user, id⟩ : ActiveSession) ≠ x ↔ id ≠ x.sessionId := by
        cases x
        simp
      rw [hne]
      tauto
    · have hne : (⟨ref, id⟩ : ActiveSession) ≠ x := fun heq => href (congrArg ActiveSession.user heq).symm
      simp [href, hold, hne]
  · intro y hy
    rw [hseq]
    exact h.drawn y hy.1
  · intro y hy
    rw [closeSession_heap]
    exact known_modify _ (h.known y hy.1)
  · intro y z hy hz
    exact h.apart y z hy.1 hz.1
  · rw [hcancelled, hseq]
    exact h.past

theorem Leases.cancel (h : Leases core held) (ref : ℕ) : Leases (core.cancelSessions ref) held := by
  have hseq := cancelSessions_seq core ref
  constructor
  · intro ref' v id hv
    rw [CoreInner.cancelSessions_heap, List.getElem?_modify] at hv
    obtain ⟨w, hw, rfl⟩ := Option.map_eq_some_iff.mp hv
    have hold := h.registered ref' w id hw
    rw [CoreInner.mem_cancelSessions]
    by_cases href : ref = ref'
    · subst href
      refine iff_of_false (by simp [UserState.clearSessions]) ?_
      rintro ⟨hheld, hlive⟩
      rw [not_or] at hlive
      exact hlive.2 ⟨w, hw, hold.mpr ⟨hheld, hlive.1⟩⟩
    · simp only [href, if_false, hold]
      refine and_congr_right fun hheld => ?_
      -- The numbers of sessions are apart, so the sessions of another user are not among the cancelled ones.
      have hother : ¬∃ u, core.heap[ref]? = some u ∧ id ∈ u.sessions := by
        rintro ⟨u, hu, hmem⟩
        have hsame := h.apart _ _ hheld ((h.registered ref u id hu).mp hmem).1 rfl
        exact href (congrArg ActiveSession.user hsame).symm
      simp [hother]
  · intro y hy
    rw [hseq]
    exact h.drawn y hy
  · intro y hy
    rw [CoreInner.cancelSessions_heap]
    exact known_modify _ (h.known y hy)
  · exact h.apart
  · intro id hid
    rw [hseq]
    rcases (CoreInner.mem_cancelSessions core ref).mp hid with hid | ⟨u, hu, hmem⟩
    · exact h.past id hid
    · exact h.drawn _ ((h.registered ref u id hu).mp hmem).1

theorem Leases.setLimits (h : Leases core held) (ref : ℕ) (limits : CoreUserLimits) :
    Leases (core.modifyUser ref (·.setLimits limits)) held := by
  refine ⟨fun ref' v id hv => ?_, h.drawn, fun y hy => ?_, h.apart, h.past⟩
  · rw [CoreInner.modifyUser_heap, List.getElem?_modify] at hv
    obtain ⟨w, hw, rfl⟩ := Option.map_eq_some_iff.mp hv
    have hsessions : (if ref = ref' then w.setLimits limits else w).sessions = w.sessions := by split <;> rfl
    rw [hsessions]
    exact h.registered ref' w id hw
  · exact known_modify _ (h.known y hy)

theorem Leases.count (h : Leases core held) {ref : ℕ} {u : UserState} (hu : core.heap[ref]? = some u)
    {ids : Finset ℕ} (hids : ∀ id, id ∈ ids ↔ held ⟨ref, id⟩ ∧ id ∉ core.cancelled) :
    u.sessions.entries.length = ids.card := by
  have hkeys : ids = u.sessions.keys.toFinset := by
    ext id
    rw [hids, ← h.registered ref u id hu, List.mem_toFinset]
    rfl
  rw [hkeys, List.toFinset_card_of_nodup u.sessions.keys_nodup]
  simp [AList.keys, List.keys]

/-! ### Where a session is registered -/

variable {user : String} {ip : IpAddr}

theorem Placed.modify (h : Placed core user ip x) {ref : ℕ} {f : UserState → UserState}
    (hheap : core'.heap = core.heap.modify ref f) (hname : ∀ u, (f u).id = u.id)
    (hcancelled : x.sessionId ∉ core'.cancelled → x.sessionId ∉ core.cancelled)
    (hslot : ∀ u, core.heap[x.user]? = some u → x.user = ref → x.sessionId ∉ core'.cancelled →
      (f u).sessions.lookup x.sessionId = u.sessions.lookup x.sessionId) : Placed core' user ip x := by
  obtain ⟨u, hu, hid, hlookup⟩ := h
  refine ⟨if ref = x.user then f u else u, ?_, ?_, fun hlive => ?_⟩
  · rw [hheap, List.getElem?_modify, hu]
    rfl
  · split
    · rw [hname, hid]
    · exact hid
  · split
    · rename_i href
      rw [hslot u hu href.symm hlive]
      exact hlookup (hcancelled hlive)
    · exact hlookup (hcancelled hlive)

theorem Placed.opened (h : Placed core user ip x) {y : ActiveSession} {name : String} {source : Option IpAddr}
    (hopen : core.openSessionWithSource name source = (.ok y, core')) (hdrawn : x.sessionId ≤ core.sessionSeq) :
    Placed core' user ip x := by
  obtain ⟨u, -, -, -, hid, rfl⟩ := openSession_ok hopen
  refine h.modify (f := (·.register y.sessionId (source.map normalizeIp))) rfl (fun _ => rfl) id fun v _ _ _ => ?_
  exact (lookup_insert_ite).trans (if_neg (by omega))

theorem placed_opened {name : String} (hopen : core.openSessionWithSource name (some ip) = (.ok x, core')) :
    ∃ u, core.heap[x.user]? = some u ∧ Placed core' u.id ip x := by
  obtain ⟨u, -, hu, -, -, rfl⟩ := openSession_ok hopen
  refine ⟨u, hu, u.register x.sessionId (some (normalizeIp ip)), ?_, rfl, fun _ => AList.lookup_insert _⟩
  simp [hu]

theorem Placed.refused (h : Placed core user ip x) {name e : String} {source : Option IpAddr}
    (hopen : core.openSessionWithSource name source = (.error e, core')) : Placed core' user ip x := by
  obtain ⟨seq, -, rfl⟩ := openSession_error hopen
  exact h

theorem Placed.closed (h : Placed core user ip x) {y : ActiveSession} (hne : x ≠ y) :
    Placed (core.closeSession y.user y.sessionId) user ip x := by
  obtain ⟨-, hcancelled, -⟩ := closeSession_rest core y.user y.sessionId
  refine h.modify (closeSession_heap core _ _) (fun _ => rfl) (by rw [hcancelled]; exact id) fun u _ href _ => ?_
  refine (lookup_erase_ite).trans (if_neg fun hid => hne ?_)
  cases x
  cases y
  simp_all

theorem Placed.cancel (h : Placed core user ip x) (ref : ℕ) : Placed (core.cancelSessions ref) user ip x := by
  refine h.modify (CoreInner.cancelSessions_heap core ref) (fun _ => rfl)
    (fun hlive hmem => hlive ((CoreInner.mem_cancelSessions core ref).mpr (.inl hmem))) ?_
  rintro u hu rfl hlive
  -- The sessions that were in the map are cancelled now, so this one was not in it.
  have hnone : x.sessionId ∉ u.sessions := fun hmem =>
    hlive ((CoreInner.mem_cancelSessions core x.user).mpr (.inr ⟨u, hu, hmem⟩))
  rw [AList.lookup_eq_none.mpr hnone]
  rfl

theorem Placed.setLimits (h : Placed core user ip x) (ref : ℕ) (limits : CoreUserLimits) :
    Placed (core.modifyUser ref (·.setLimits limits)) user ip x :=
  h.modify (f := (·.setLimits limits)) rfl (fun _ => rfl) id fun _ _ _ _ => rfl

end

end Aerion.Core
