import Aerion.Core.Users

/-!
# What a replacement leaves

`replaceUsers` as a change of the core: which states the new users map names,
what happened to the state behind each reference, and which sessions were
cancelled. `Installed` is the state of the second loop over the users visited
so far, and `Replaced` the whole change.

The starting core is `WellFormed`: the users map names states that carry the
name they are under, no two states share a session id, and no registered
session is cancelled.
-/

namespace Aerion.Core

open Aerion.Net Lib

structure CoreInner.WellFormed (c : CoreInner) : Prop where
  named : ∀ id ref, c.users.lookup id = some ref → ∃ u, c.heap[ref]? = some u ∧ u.id = id
  sidOwner : ∀ (r r' : Nat) (u u' : UserState) (sid : Nat), c.heap[r]? = some u → c.heap[r']? = some u' →
    sid ∈ u.sessions → sid ∈ u'.sessions → r = r'
  uncancelled : ∀ (r : Nat) (u : UserState) (sid : Nat), c.heap[r]? = some u → sid ∈ u.sessions → sid ∉ c.cancelled

theorem CoreInner.WellFormed.ref_inj {c : CoreInner} (hc : c.WellFormed) {id id' : String} {ref : Nat}
    (h : c.users.lookup id = some ref) (h' : c.users.lookup id' = some ref) : id = id' := by
  obtain ⟨u, hu, rfl⟩ := hc.named _ _ h
  obtain ⟨u', hu', rfl⟩ := hc.named _ _ h'
  rw [hu] at hu'
  cases hu'
  rfl

/-! ### Cancelling the sessions of one user -/

namespace CoreInner

theorem foldl_cancelSession (userId : String) (es : List (Σ _ : Nat, SessionSlot)) (c : CoreInner) :
    let c' := es.foldl (cancelSession userId) c
    c'.heap = c.heap ∧ c'.users = c.users ∧ c'.credentials = c.credentials ∧
      c'.sessionSeq = c.sessionSeq ∧
      ∀ sid, sid ∈ c'.cancelled ↔ sid ∈ c.cancelled ∨ ∃ slot, ⟨sid, slot⟩ ∈ es := by
  induction es generalizing c with
  | nil => simp
  | cons e es ih =>
    obtain ⟨h1, h2, h3, h4, h5⟩ := ih (cancelSession userId c e)
    refine ⟨h1, h2, h3, h4, fun sid => ?_⟩
    rw [List.foldl_cons, h5]
    obtain ⟨sid', slot'⟩ := e
    simp only [cancelSession, trigger_cancelled, send_cancelled, Finset.mem_insert, List.mem_cons,
      Sigma.mk.injEq, heq_eq_eq]
    constructor
    · rintro ((rfl | h) | ⟨slot, h⟩)
      · exact .inr ⟨slot', .inl ⟨rfl, rfl⟩⟩
      · exact .inl h
      · exact .inr ⟨slot, .inr h⟩
    · rintro (h | ⟨slot, ⟨rfl, -⟩ | h⟩)
      · exact .inl (.inr h)
      · exact .inl (.inl rfl)
      · exact .inr ⟨slot, h⟩

variable (c : CoreInner) (ref : Nat)

@[simp] theorem cancelSessions_heap :
    (c.cancelSessions ref).heap = c.heap.modify ref UserState.clearSessions := by
  unfold cancelSessions
  split
  · rename_i h
    rw [List.modify_eq_self (List.getElem?_eq_none_iff.mp h)]
  · exact (foldl_cancelSession _ _ _).1

theorem mem_cancelSessions {sid : Nat} : sid ∈ (c.cancelSessions ref).cancelled ↔
    sid ∈ c.cancelled ∨ ∃ u, c.heap[ref]? = some u ∧ sid ∈ u.sessions := by
  unfold cancelSessions
  split
  · rename_i h
    simp [h]
  · rename_i u h
    rw [(foldl_cancelSession _ _ _).2.2.2.2]
    simp only [modifyUser_cancelled, h, Option.some.injEq, exists_eq_left', mem_entries,
      mem_iff_lookup]

end CoreInner

/-! ### Updating one user -/

/-- What `apply_user_update` makes of the state it is called on. -/
def UserState.updated (u : UserState) (user : CoreUser) (credentials : Finset String) : UserState :=
  (if u.credentials = credentials then u else u.clearSessions.setCredentials credentials).setLimits
    user.limits

namespace UserState

variable (u : UserState) (user : CoreUser) (credentials : Finset String)

@[simp] theorem updated_counters : (u.updated user credentials).id = u.id ∧
    (u.updated user credentials).upload = u.upload ∧
    (u.updated user credentials).download = u.download ∧
    (u.updated user credentials).total = u.total := by
  unfold updated
  split <;> exact ⟨rfl, rfl, rfl, rfl⟩

theorem updated_credentials : (u.updated user credentials).credentials = credentials := by
  unfold updated
  split
  · rename_i h; exact h
  · rfl

theorem updated_sessions : (u.updated user credentials).sessions =
    if u.credentials = credentials then u.sessions else ∅ := by
  unfold updated
  split <;> rfl

end UserState

namespace CoreInner

variable (c : CoreInner) (ref : Nat) (user : CoreUser) (credentials : Finset String)

theorem applyUserUpdate_heap : (c.applyUserUpdate ref user credentials).heap =
    c.heap.modify ref (·.updated user credentials) := by
  apply List.ext_getElem?
  intro r
  unfold applyUserUpdate
  by_cases hr : ref = r
  · subst hr
    cases hu : c.heap[ref]? with
    | none => simp [hu]
    | some u =>
      by_cases hc : u.credentials = credentials <;>
        simp [hu, hc, UserState.updated]
  · dsimp only
    split <;> simp [hr]

theorem mem_applyUserUpdate {sid : Nat} :
    sid ∈ (c.applyUserUpdate ref user credentials).cancelled ↔ sid ∈ c.cancelled ∨
      ∃ u, c.heap[ref]? = some u ∧ u.credentials ≠ credentials ∧ sid ∈ u.sessions := by
  unfold applyUserUpdate
  cases hu : c.heap[ref]? with
  | none => simp [mem_cancelSessions, hu]
  | some u => by_cases hc : u.credentials = credentials <;> simp [mem_cancelSessions, hu, hc]

end CoreInner

/-! ### The second loop -/

/-- What the second loop has made of `c` once it visited the users `visited`. -/
structure Installed (c : CoreInner) (visited : List (CoreUser × Finset String))
    (acc : CoreInner × Map String Nat) : Prop where
  length : c.heap.length ≤ acc.1.heap.length
  kept : ∀ r u, c.heap[r]? = some u → (∀ e ∈ visited, c.users.lookup e.1.id ≠ some r) →
    acc.1.heap[r]? = some u
  updated : ∀ e ∈ visited, ∀ r u, c.users.lookup e.1.id = some r → c.heap[r]? = some u →
    acc.2.lookup e.1.id = some r ∧ acc.1.heap[r]? = some (u.updated e.1 e.2)
  created : ∀ e ∈ visited, c.users.lookup e.1.id = none →
    ∃ r, c.heap.length ≤ r ∧ acc.2.lookup e.1.id = some r ∧
      acc.1.heap[r]? = some (UserState.new e.1 e.2)
  active : ∀ id, id ∈ acc.2 ↔ id ∈ visited.map (·.1.id)
  cancelled : ∀ sid, sid ∈ acc.1.cancelled ↔ sid ∈ c.cancelled ∨
    ∃ e ∈ visited, ∃ r u, c.users.lookup e.1.id = some r ∧ c.heap[r]? = some u ∧
      u.credentials ≠ e.2 ∧ sid ∈ u.sessions

theorem Installed.nil (c : CoreInner) : Installed c [] (c, ∅) := by
  constructor <;> simp

theorem lt_of_getElem? {α : Type} {xs : List α} {i : Nat} {x : α} (h : xs[i]? = some x) :
    i < xs.length := (List.getElem?_eq_some_iff.mp h).1

theorem Installed.update {c : CoreInner} (hc : c.WellFormed)
    {visited : List (CoreUser × Finset String)} {acc : CoreInner × Map String Nat}
    (h : Installed c visited acc) {e : CoreUser × Finset String}
    (he : e.1.id ∉ visited.map (·.1.id)) {ref : Nat} (href : c.users.lookup e.1.id = some ref) :
    Installed c (visited ++ [e])
      (acc.1.applyUserUpdate ref e.1 e.2, acc.2.insert e.1.id ref) := by
  obtain ⟨u, hu, -⟩ := hc.named _ _ href
  have hne : ∀ e' ∈ visited, e'.1.id ≠ e.1.id :=
    fun e' he' heq => he (List.mem_map.mpr ⟨e', he', heq⟩)
  have hother : ∀ e' ∈ visited, c.users.lookup e'.1.id ≠ some ref :=
    fun e' he' heq => hne e' he' (hc.ref_inj heq href)
  have hheap : acc.1.heap[ref]? = some u := h.kept ref u hu hother
  refine ⟨?_, ?_, ?_, ?_, ?_, ?_⟩
  · simpa [CoreInner.applyUserUpdate_heap] using h.length
  · intro r v hv hnot
    have hr : ref ≠ r := fun heq => hnot e (by simp) (heq ▸ href)
    simpa [CoreInner.applyUserUpdate_heap, hr] using
      h.kept r v hv fun e' he' => hnot e' (by simp [he'])
  · intro e' he' r v hr hv
    rcases List.mem_append.mp he' with he' | he'
    · obtain ⟨h1, h2⟩ := h.updated e' he' r v hr hv
      have hrr : ref ≠ r := fun heq => hother e' he' (heq ▸ hr)
      refine ⟨?_, ?_⟩
      · simpa [lookup_insert_ite, hne e' he'] using h1
      · simpa [CoreInner.applyUserUpdate_heap, hrr] using h2
    · rw [List.mem_singleton.mp he'] at hr ⊢
      rw [href] at hr
      cases hr
      rw [hu] at hv
      cases hv
      simp [CoreInner.applyUserUpdate_heap, hheap]
  · intro e' he' hnone
    rcases List.mem_append.mp he' with he' | he'
    · obtain ⟨r, hle, h1, h2⟩ := h.created e' he' hnone
      have hr : ref ≠ r := by
        have := lt_of_getElem? hu
        omega
      refine ⟨r, hle, ?_, ?_⟩
      · simpa [lookup_insert_ite, hne e' he'] using h1
      · simpa [CoreInner.applyUserUpdate_heap, hr] using h2
    · rw [List.mem_singleton.mp he', href] at hnone
      cases hnone
  · intro id
    rw [AList.mem_insert, h.active]
    simp [or_comm]
  · intro sid
    rw [CoreInner.mem_applyUserUpdate, h.cancelled, hheap]
    constructor
    · rintro ((hs | ⟨e', he', hrest⟩) | ⟨v, hv, hcred, hs⟩)
      · exact .inl hs
      · exact .inr ⟨e', by simp [he'], hrest⟩
      · cases hv
        exact .inr ⟨e, by simp, ref, u, href, hu, hcred, hs⟩
    · rintro (hs | ⟨e', he', r, v, hr, hv, hcred, hs⟩)
      · exact .inl (.inl hs)
      · rcases List.mem_append.mp he' with he' | he'
        · exact .inl (.inr ⟨e', he', r, v, hr, hv, hcred, hs⟩)
        · rw [List.mem_singleton.mp he'] at hr hcred
          rw [href] at hr
          cases hr
          exact .inr ⟨v, by rw [← hu, hv], hcred, hs⟩

theorem Installed.create {c : CoreInner} {visited : List (CoreUser × Finset String)}
    {acc : CoreInner × Map String Nat} (h : Installed c visited acc)
    {e : CoreUser × Finset String} (he : e.1.id ∉ visited.map (·.1.id))
    (hnone : c.users.lookup e.1.id = none) :
    Installed c (visited ++ [e])
      ({ acc.1 with heap := acc.1.heap ++ [UserState.new e.1 e.2] },
        acc.2.insert e.1.id acc.1.heap.length) := by
  have hne : ∀ e' ∈ visited, e'.1.id ≠ e.1.id :=
    fun e' he' heq => he (List.mem_map.mpr ⟨e', he', heq⟩)
  have hold : ∀ {r : Nat} {v : UserState}, acc.1.heap[r]? = some v →
      (acc.1.heap ++ [UserState.new e.1 e.2])[r]? = some v := by
    intro r v hv
    rw [List.getElem?_append_left (lt_of_getElem? hv), hv]
  refine ⟨?_, ?_, ?_, ?_, ?_, ?_⟩
  · have := h.length
    simp only [List.length_append]
    omega
  · intro r v hv hnot
    exact hold (h.kept r v hv fun e' he' => hnot e' (by simp [he']))
  · intro e' he' r v hr hv
    rcases List.mem_append.mp he' with he' | he'
    · obtain ⟨h1, h2⟩ := h.updated e' he' r v hr hv
      exact ⟨by simpa [lookup_insert_ite, hne e' he'] using h1, hold h2⟩
    · rw [List.mem_singleton.mp he', hnone] at hr
      cases hr
  · intro e' he' hnone'
    rcases List.mem_append.mp he' with he' | he'
    · obtain ⟨r, hle, h1, h2⟩ := h.created e' he' hnone'
      exact ⟨r, hle, by simpa [lookup_insert_ite, hne e' he'] using h1, hold h2⟩
    · rw [List.mem_singleton.mp he']
      exact ⟨acc.1.heap.length, h.length, by simp, by simp⟩
  · intro id
    rw [AList.mem_insert, h.active]
    simp [or_comm]
  · intro sid
    rw [h.cancelled]
    constructor
    · rintro (hs | ⟨e', he', hrest⟩)
      · exact .inl hs
      · exact .inr ⟨e', by simp [he'], hrest⟩
    · rintro (hs | ⟨e', he', r, v, hr, hrest⟩)
      · exact .inl hs
      · rcases List.mem_append.mp he' with he' | he'
        · exact .inr ⟨e', he', r, v, hr, hrest⟩
        · rw [List.mem_singleton.mp he', hnone] at hr
          cases hr

theorem Installed.foldl {c : CoreInner} (hc : c.WellFormed)
    {visited entries : List (CoreUser × Finset String)} {acc : CoreInner × Map String Nat}
    (h : Installed c visited acc) (hnodup : ((visited ++ entries).map (·.1.id)).Nodup) :
    Installed c (visited ++ entries) (entries.foldl (CoreInner.installUser c.users) acc) := by
  induction entries generalizing visited acc with
  | nil => simpa using h
  | cons e entries ih =>
    have he : e.1.id ∉ visited.map (·.1.id) := by
      rw [List.map_append, List.nodup_append] at hnodup
      exact fun hm => hnodup.2.2 _ hm e.1.id (by simp) rfl
    have hstep : Installed c (visited ++ [e]) (CoreInner.installUser c.users acc e) := by
      unfold CoreInner.installUser
      split
      · rename_i ref href
        exact h.update hc he href
      · rename_i hnone
        exact h.create he hnone
    have := ih hstep (by simpa using hnodup)
    simpa using this

/-! ### The third loop -/

theorem foldl_cancelSessions_heap (es : List (Σ _ : String, Nat)) (c : CoreInner) (r : Nat) :
    (es.foldl (fun c e => c.cancelSessions e.2) c).heap[r]? =
      (c.heap[r]?).map fun u => if r ∈ es.map (·.2) then u.clearSessions else u := by
  induction es generalizing c with
  | nil => simp
  | cons e es ih =>
    rw [List.foldl_cons, ih, CoreInner.cancelSessions_heap, List.getElem?_modify]
    by_cases hr : e.2 = r
    · subst hr
      cases c.heap[e.2]? with
      | none => rfl
      | some u =>
        by_cases hm : e.2 ∈ es.map (·.2) <;> simp [hm, UserState.clearSessions]
    · have hmem : r ∈ (e :: es).map (·.2) ↔ r ∈ es.map (·.2) := by
        rw [List.map_cons, List.mem_cons]
        exact or_iff_right (Ne.symm hr)
      simp only [hmem, if_neg hr, Option.map_eq_map, Option.map_id']

theorem mem_foldl_cancelSessions (es : List (Σ _ : String, Nat)) (c : CoreInner) (sid : Nat) :
    sid ∈ (es.foldl (fun c e => c.cancelSessions e.2) c).cancelled ↔ sid ∈ c.cancelled ∨
      ∃ e ∈ es, ∃ u, c.heap[e.2]? = some u ∧ sid ∈ u.sessions := by
  induction es generalizing c with
  | nil => simp
  | cons e es ih =>
    rw [List.foldl_cons, ih, CoreInner.mem_cancelSessions]
    constructor
    · rintro ((hs | hu) | ⟨e', he', u, hu, hs⟩)
      · exact .inl hs
      · exact .inr ⟨e, by simp, hu⟩
      · -- A state visited before holds no session any more.
        rw [CoreInner.cancelSessions_heap, List.getElem?_modify] at hu
        by_cases hr : e.2 = e'.2
        · cases hv : c.heap[e'.2]? with
          | none => simp [hv] at hu
          | some v =>
            simp only [hv, hr, ↓reduceIte, Option.map_eq_map, Option.map_some,
              Option.some.injEq] at hu
            subst hu
            simp [UserState.clearSessions, AList.notMem_empty] at hs
        · exact .inr ⟨e', by simp [he'], u, by simpa [hr] using hu, hs⟩
    · rintro (hs | ⟨e', he', u, hu, hs⟩)
      · exact .inl (.inl hs)
      · rcases List.mem_cons.mp he' with rfl | he'
        · exact .inl (.inr ⟨u, hu, hs⟩)
        · by_cases hr : e.2 = e'.2
          · exact .inl (.inr ⟨u, hr ▸ hu, hs⟩)
          · exact .inr ⟨e', he', u, by simpa [hr] using hu, hs⟩

/-! ### The whole call -/

/-- What an accepted list `users` makes of the core `c`, reference by reference. -/
structure Change (users : List CoreUser) (c c' : CoreInner) : Prop where
  activeIds : ∀ id, id ∈ c'.users ↔ id ∈ idsOf users
  resolves : ∀ credential id, c'.credentials.users.lookup credential = some id ↔
    ∃ u ∈ users, u.credential = credential ∧ u.id = id
  survivor : ∀ id ref u, c.users.lookup id = some ref → c.heap[ref]? = some u →
    id ∈ idsOf users → c'.users.lookup id = some ref ∧ ∃ user : CoreUser,
      (∀ v ∈ users, v.id = id → user.limits = v.limits) ∧
      c'.heap[ref]? = some (u.updated user (credentialsOf users id))
  created : ∀ id, id ∈ idsOf users → c.users.lookup id = none → ∃ (ref : Nat) (user : CoreUser),
    c'.users.lookup id = some ref ∧ user.id = id ∧
      (∀ v ∈ users, v.id = id → user.limits = v.limits) ∧
      c'.heap[ref]? = some (UserState.new user (credentialsOf users id))
  removed : ∀ id ref u, c.users.lookup id = some ref → c.heap[ref]? = some u →
    id ∉ idsOf users → c'.heap[ref]? = some u.clearSessions
  detached : ∀ (ref : Nat) (u : UserState), c.heap[ref]? = some u →
    (∀ id, c.users.lookup id ≠ some ref) → c'.heap[ref]? = some u
  cancelled : ∀ sid, sid ∈ c'.cancelled ↔ sid ∈ c.cancelled ∨
    ∃ id ref u, c.users.lookup id = some ref ∧ c.heap[ref]? = some u ∧ sid ∈ u.sessions ∧
      (id ∉ idsOf users ∨ u.credentials ≠ credentialsOf users id)

/-- What a caller of `replace_users` may rely on after it returned `Ok`. -/
structure Replaced (users : List CoreUser) (c c' : CoreInner) : Prop where
  activeIds : ∀ id, id ∈ c'.users ↔ id ∈ idsOf users
  resolves : ∀ credential id, c'.credentials.users.lookup credential = some id ↔
    ∃ u ∈ users, u.credential = credential ∧ u.id = id
  counters : ∀ id ref u, c.users.lookup id = some ref → c.heap[ref]? = some u →
    id ∈ idsOf users → c'.users.lookup id = some ref ∧ ∃ u', c'.heap[ref]? = some u' ∧
      u'.upload = u.upload ∧ u'.download = u.download ∧ u'.total = u.total
  rotated : ∀ id ref u, c.users.lookup id = some ref → c.heap[ref]? = some u →
    id ∈ idsOf users → u.credentials ≠ credentialsOf users id →
    (∃ u', c'.heap[ref]? = some u' ∧ u'.sessions = ∅) ∧ ∀ sid ∈ u.sessions, sid ∈ c'.cancelled
  unchanged : ∀ id ref u, c.users.lookup id = some ref → c.heap[ref]? = some u →
    id ∈ idsOf users → u.credentials = credentialsOf users id →
    (∃ u', c'.heap[ref]? = some u' ∧ u'.sessions = u.sessions) ∧
      ∀ sid ∈ u.sessions, sid ∉ c'.cancelled
  removed : ∀ id ref u, c.users.lookup id = some ref → c.heap[ref]? = some u →
    id ∉ idsOf users →
    (∃ u', c'.heap[ref]? = some u' ∧ u'.sessions = ∅) ∧ ∀ sid ∈ u.sessions, sid ∈ c'.cancelled
  detached : ∀ (ref : Nat) (u : UserState), c.heap[ref]? = some u →
    (∀ id, c.users.lookup id ≠ some ref) →
    c'.heap[ref]? = some u ∧ ∀ sid ∈ u.sessions, sid ∉ c'.cancelled
  stored : ∀ v ∈ users, ∃ ref u', c'.users.lookup v.id = some ref ∧ c'.heap[ref]? = some u' ∧
    u'.id = v.id ∧ u'.limits = v.limits ∧ u'.credentials = credentialsOf users v.id

section
variable {passwordHash : String → Bytes} {users : List CoreUser} {p : Plan} {c : CoreInner}

theorem mem_removedUsers {id : String} {ref : Nat} (hp : PlanOf passwordHash users p) :
    ⟨id, ref⟩ ∈ CoreInner.removedUsers c.users p ↔
      c.users.lookup id = some ref ∧ id ∉ idsOf users := by
  simp [CoreInner.removedUsers, mem_entries, hp.mem_usersById]

theorem PlanOf.mem_entries {entries : List (CoreUser × Finset String)}
    (hp : PlanOf passwordHash users p) (he : p.entries = some entries) :
    (∀ e ∈ entries, e.2 = credentialsOf users e.1.id ∧ e.1.id ∈ idsOf users ∧
      ∀ v ∈ users, v.id = e.1.id → e.1.limits = v.limits) ∧
    (∀ id, id ∈ idsOf users → ∃ e ∈ entries, e.1.id = id) ∧
    (entries.map (·.1.id)).Nodup := by
  rw [hp.entries, Option.some.injEq] at he
  subst he
  have hid : ∀ e ∈ p.usersById.entries, e.2.id = e.1 :=
    fun e he => (hp.owner e.1 e.2 (Lib.mem_entries.mp he)).2
  refine ⟨?_, ?_, ?_⟩
  · intro e hmem
    obtain ⟨⟨id, u⟩, he, rfl⟩ := List.mem_map.mp hmem
    have hu : u.id = id := hid ⟨id, u⟩ he
    have hl := Lib.mem_entries.mp he
    refine ⟨by rw [hu], ?_, ?_⟩
    · exact (hp.mem_usersById passwordHash).mp (mem_iff_lookup.mpr ⟨u, hu ▸ hl⟩)
    · intro v hv hvid
      obtain ⟨w, hw, hlim⟩ := hp.limits v hv
      rw [hvid, hu, hl] at hw
      cases hw
      exact hlim
  · intro id hmem
    obtain ⟨u, hu⟩ := mem_iff_lookup.mp ((hp.mem_usersById passwordHash).mpr hmem)
    exact ⟨_, List.mem_map.mpr ⟨⟨id, u⟩, Lib.mem_entries.mpr hu, rfl⟩,
      hid ⟨id, u⟩ (Lib.mem_entries.mpr hu)⟩
  · rw [List.map_map]
    have hkeys : p.usersById.entries.map ((·.1.id) ∘ fun e => (e.2, credentialsOf users e.1)) =
        p.usersById.entries.map (·.1) := List.map_congr_left fun e he => hid e he
    rw [hkeys]
    exact p.usersById.nodupKeys

theorem replaceUsers_change (hc : c.WellFormed) {c' : CoreInner}
    (h : c.replaceUsers passwordHash users = (.ok (), c')) : Change users c c' := by
  cases hplan : plan passwordHash users with
  | error e => simp [CoreInner.replaceUsers, hplan] at h
  | ok p =>
  have hp := plan_spec passwordHash hplan
  cases hent : p.entries with
  | none => simp [CoreInner.replaceUsers, hplan, hent] at h
  | some entries =>
  simp only [CoreInner.replaceUsers, hplan, hent, Prod.mk.injEq, true_and] at h
  obtain ⟨hcreds, hcover, hnodup⟩ := hp.mem_entries hent
  have hi := (Installed.nil c).foldl hc (by simpa using hnodup)
  simp only [List.nil_append] at hi
  generalize entries.foldl (CoreInner.installUser c.users) (c, ∅) = acc at h hi
  have hheap : ∀ r : Nat, c'.heap[r]? = (acc.1.heap[r]?).map fun u =>
      if r ∈ (CoreInner.removedUsers c.users p).map (·.2) then u.clearSessions else u := by
    intro r
    rw [← h]
    exact foldl_cancelSessions_heap _ _ _
  have hcancelled : ∀ sid, sid ∈ c'.cancelled ↔ sid ∈ acc.1.cancelled ∨
      ∃ e ∈ CoreInner.removedUsers c.users p, ∃ u, acc.1.heap[e.2]? = some u ∧ sid ∈ u.sessions := by
    intro sid
    rw [← h]
    exact mem_foldl_cancelSessions _ _ _
  have husers : c'.users = acc.2 := by rw [← h]; rfl
  have hindex : c'.credentials.users = p.credentialMap := by rw [← h]; rfl
  -- A reference the old map names is swept exactly if its user is gone.
  have hswept : ∀ id ref, c.users.lookup id = some ref →
      (ref ∈ (CoreInner.removedUsers c.users p).map (·.2) ↔ id ∉ idsOf users) := by
    intro id ref href
    constructor
    · intro hm
      obtain ⟨⟨id', ref'⟩, he, rfl⟩ := List.mem_map.mp hm
      obtain ⟨hl, hnot⟩ := (mem_removedUsers hp).mp he
      exact hc.ref_inj href hl ▸ hnot
    · exact fun hnot => List.mem_map.mpr ⟨⟨id, ref⟩, (mem_removedUsers hp).mpr ⟨href, hnot⟩, rfl⟩
  have hvisited : ∀ id ref, c.users.lookup id = some ref → id ∉ idsOf users →
      ∀ e ∈ entries, c.users.lookup e.1.id ≠ some ref := by
    intro id ref href hnot e he heq
    exact hnot (hc.ref_inj href heq ▸ (hcreds e he).2.1)
  refine ⟨?_, ?_, ?_, ?_, ?_, ?_, ?_⟩
  · intro id
    rw [husers, hi.active]
    constructor
    · intro hm
      obtain ⟨e, he, rfl⟩ := List.mem_map.mp hm
      exact (hcreds e he).2.1
    · intro hm
      obtain ⟨e, he, rfl⟩ := hcover id hm
      exact List.mem_map.mpr ⟨e, he, rfl⟩
  · intro credential id
    rw [hindex, hp.credentialMap]
  · intro id ref u href hu hid
    obtain ⟨e, he, rfl⟩ := hcover id hid
    obtain ⟨h1, h2⟩ := hi.updated e he ref u href hu
    obtain ⟨hgroup, -, hlim⟩ := hcreds e he
    refine ⟨husers ▸ h1, e.1, hlim, ?_⟩
    rw [hheap, h2, Option.map_some, if_neg (by rw [hswept _ _ href]; exact not_not.mpr hid), hgroup]
  · intro id hid hnone
    obtain ⟨e, he, rfl⟩ := hcover id hid
    obtain ⟨r, hle, h1, h2⟩ := hi.created e he hnone
    obtain ⟨hgroup, -, hlim⟩ := hcreds e he
    refine ⟨r, e.1, husers ▸ h1, rfl, hlim, ?_⟩
    rw [hheap, h2, Option.map_some, hgroup]
    simp [UserState.new, UserState.clearSessions]
  · intro id ref u href hu hnot
    rw [hheap, hi.kept ref u hu (hvisited id ref href hnot), Option.map_some,
      if_pos ((hswept _ _ href).mpr hnot)]
  · intro ref u hu hnone
    rw [hheap, hi.kept ref u hu fun e _ => hnone e.1.id, Option.map_some, if_neg]
    intro hm
    obtain ⟨⟨id, ref'⟩, he, rfl⟩ := List.mem_map.mp hm
    exact hnone id ((mem_removedUsers hp).mp he).1
  · intro sid
    rw [hcancelled, hi.cancelled]
    constructor
    · rintro ((hs | ⟨e, he, r, u, hr, hu, hcred, hs⟩) | ⟨⟨id, ref⟩, he, v, hv, hs⟩)
      · exact .inl hs
      · exact .inr ⟨_, r, u, hr, hu, hs, .inr ((hcreds e he).1 ▸ hcred)⟩
      · obtain ⟨href, hnot⟩ := (mem_removedUsers hp).mp he
        obtain ⟨u, hu, -⟩ := hc.named _ _ href
        rw [hi.kept ref u hu (hvisited id ref href hnot), Option.some.injEq] at hv
        subst hv
        exact .inr ⟨id, ref, u, href, hu, hs, .inl hnot⟩
    · rintro (hs | ⟨id, ref, u, href, hu, hs, hcase⟩)
      · exact .inl (.inl hs)
      · by_cases hid : id ∈ idsOf users
        · obtain ⟨e, he, rfl⟩ := hcover id hid
          refine .inl (.inr ⟨e, he, ref, u, href, hu, ?_, hs⟩)
          rw [(hcreds e he).1]
          exact hcase.resolve_left (not_not.mpr hid)
        · exact .inr ⟨⟨id, ref⟩, (mem_removedUsers hp).mpr ⟨href, hid⟩, u,
            hi.kept ref u hu (hvisited id ref href hid), hs⟩

theorem Change.cancelled_iff {c' : CoreInner} (hc : c.WellFormed) (h : Change users c c')
    {id : String} {ref sid : Nat} {u : UserState} (href : c.users.lookup id = some ref)
    (hu : c.heap[ref]? = some u) (hs : sid ∈ u.sessions) :
    sid ∈ c'.cancelled ↔ id ∉ idsOf users ∨ u.credentials ≠ credentialsOf users id := by
  rw [h.cancelled]
  constructor
  · rintro (hold | ⟨id', ref', u', href', hu', hs', hcase⟩)
    · exact absurd hold (hc.uncancelled ref u sid hu hs)
    · cases hc.sidOwner ref ref' u u' sid hu hu' hs hs'
      rw [hu] at hu'
      cases hu'
      rwa [hc.ref_inj href href']
  · exact fun hcase => .inr ⟨id, ref, u, href, hu, hs, hcase⟩

theorem Change.replaced {c' : CoreInner} (hc : c.WellFormed) (h : Change users c c') :
    Replaced users c c' := by
  refine ⟨h.activeIds, h.resolves, ?_, ?_, ?_, ?_, ?_, ?_⟩
  · intro id ref u href hu hid
    obtain ⟨hl, user, -, hu'⟩ := h.survivor id ref u href hu hid
    obtain ⟨-, h1, h2, h3⟩ := u.updated_counters user (credentialsOf users id)
    exact ⟨hl, _, hu', h1, h2, h3⟩
  · intro id ref u href hu hid hne
    obtain ⟨-, user, -, hu'⟩ := h.survivor id ref u href hu hid
    refine ⟨⟨_, hu', ?_⟩, fun sid hs => (h.cancelled_iff hc href hu hs).mpr (.inr hne)⟩
    rw [UserState.updated_sessions, if_neg hne]
  · intro id ref u href hu hid heq
    obtain ⟨-, user, -, hu'⟩ := h.survivor id ref u href hu hid
    refine ⟨⟨_, hu', ?_⟩, fun sid hs => ?_⟩
    · rw [UserState.updated_sessions, if_pos heq]
    · rw [h.cancelled_iff hc href hu hs]
      exact not_or.mpr ⟨not_not.mpr hid, not_not.mpr heq⟩
  · intro id ref u href hu hnot
    exact ⟨⟨_, h.removed id ref u href hu hnot, rfl⟩,
      fun sid hs => (h.cancelled_iff hc href hu hs).mpr (.inl hnot)⟩
  · intro ref u hu hnone
    refine ⟨h.detached ref u hu hnone, fun sid hs hin => ?_⟩
    rcases (h.cancelled sid).mp hin with hold | ⟨id, ref', u', href', hu', hs', -⟩
    · exact hc.uncancelled ref u sid hu hs hold
    · cases hc.sidOwner ref ref' u u' sid hu hu' hs hs'
      exact hnone id href'
  · intro v hv
    have hid : v.id ∈ idsOf users := List.mem_map.mpr ⟨v, hv, rfl⟩
    cases hl : c.users.lookup v.id with
    | none =>
      obtain ⟨ref, user, href, hname, hlim, hu'⟩ := h.created v.id hid hl
      exact ⟨ref, _, href, hu', hname, hlim v hv rfl, rfl⟩
    | some ref =>
      obtain ⟨u, hu, hname⟩ := hc.named _ _ hl
      obtain ⟨href, user, hlim, hu'⟩ := h.survivor v.id ref u hl hu hid
      exact ⟨ref, _, href, hu', (u.updated_counters _ _).1.trans hname, hlim v hv rfl,
        u.updated_credentials _ _⟩

theorem replaceUsers_cases (passwordHash : String → Bytes) (c : CoreInner) (users : List CoreUser) :
    (∃ e, c.replaceUsers passwordHash users = (.err e, c)) ∨
    ∃ c', c.replaceUsers passwordHash users = (.ok (), c') := by
  cases hplan : plan passwordHash users with
  | error e => exact .inl ⟨e, by simp [CoreInner.replaceUsers, hplan]⟩
  | ok p =>
    have hent := (plan_spec passwordHash hplan).entries
    exact .inr ⟨(c.replaceUsers passwordHash users).2, by simp [CoreInner.replaceUsers, hplan, hent]⟩

end

end Aerion.Core
