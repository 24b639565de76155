import Aerion.Core.Sessions

/-!
# Replacing the user list

`replace_users` (`src/core.rs`) in two parts. `plan` is its first loop: it
checks the list and groups it by user id, without touching the core.
`replaceUsers` then diffs the plan against the current users and publishes
the two maps.
-/

namespace Aerion.Core

open Aerion.Net Lib

section
variable (passwordHash : String → Bytes)

/-! ### The plan -/

structure Plan where
  credentials : Finset String
  usersById : Map String CoreUser
  credentialsById : Map String (Finset String)
  credentialMap : Map String String
  passwordHashes : Map Bytes String
  eventUserIds : List String
  deriving DecidableEq

def Plan.empty : Plan := ⟨∅, ∅, ∅, ∅, ∅, []⟩

def Plan.index (p : Plan) (user : CoreUser) : Plan :=
  { p with
    credentials := insert user.credential p.credentials
    credentialMap := p.credentialMap.insert user.credential user.id
    passwordHashes := p.passwordHashes.insert (passwordHash user.credential) user.credential
    credentialsById := p.credentialsById.insert user.id
      (insert user.credential ((p.credentialsById.lookup user.id).getD ∅)) }

def Plan.add (p : Plan) (user : CoreUser) : Except String Plan :=
  if isBlank user.id then .error "core user id is empty"
  else if isBlank user.credential then .error "core user credential is empty"
  else if user.credential ∈ p.credentials then
    .error ("duplicate core credential for user " ++ user.id)
  else match p.usersById.lookup user.id with
    | some existing =>
      if existing.limits = user.limits then .ok (p.index passwordHash user)
      else .error ("conflicting core limits for user " ++ user.id)
    | none =>
      .ok { p.index passwordHash user with
        eventUserIds := p.eventUserIds ++ [user.id]
        usersById := p.usersById.insert user.id user }

def plan (users : List CoreUser) : Except String Plan :=
  users.foldlM (Plan.add passwordHash) .empty

/-- The users the second loop visits, each with its credentials; `none` is
the failed `expect` on an id without a group. -/
def Plan.entries (p : Plan) : Option (List (CoreUser × Finset String)) :=
  p.usersById.entries.mapM fun e => (p.credentialsById.lookup e.1).map fun s => (e.2, s)

/-! ### What a plan says about its list -/

def idsOf (users : List CoreUser) : List String := users.map (·.id)

def credentialsOf (users : List CoreUser) (id : String) : Finset String :=
  ((users.filter (·.id = id)).map (·.credential)).toFinset

theorem mem_credentialsOf {users : List CoreUser} {id c : String} :
    c ∈ credentialsOf users id ↔ ∃ u ∈ users, u.id = id ∧ u.credential = c := by
  simp [credentialsOf, and_assoc]

structure PlanOf (users : List CoreUser) (p : Plan) : Prop where
  blank : ∀ u ∈ users, isBlank u.id = false ∧ isBlank u.credential = false
  nodup : (users.map (·.credential)).Nodup
  credentials : ∀ c, c ∈ p.credentials ↔ ∃ u ∈ users, u.credential = c
  credentialMap : ∀ c id,
    p.credentialMap.lookup c = some id ↔ ∃ u ∈ users, u.credential = c ∧ u.id = id
  hashes : ∀ h c, p.passwordHashes.lookup h = some c →
    (∃ u ∈ users, u.credential = c) ∧ passwordHash c = h
  hashed : ∀ u ∈ users, ∃ c, p.passwordHashes.lookup (passwordHash u.credential) = some c
  grouped : ∀ id, p.credentialsById.lookup id =
    if id ∈ idsOf users then some (credentialsOf users id) else none
  owner : ∀ id u, p.usersById.lookup id = some u → u ∈ users ∧ u.id = id
  limits : ∀ u ∈ users, ∃ v, p.usersById.lookup u.id = some v ∧ v.limits = u.limits
  eventIds : p.eventUserIds.Nodup ∧ ∀ id, id ∈ p.eventUserIds ↔ id ∈ idsOf users

theorem PlanOf.empty : PlanOf passwordHash [] .empty := by
  constructor <;> simp [Plan.empty, idsOf]

theorem Plan.add_ok {p p' : Plan} {user : CoreUser} (h : p.add passwordHash user = .ok p') :
    isBlank user.id = false ∧ isBlank user.credential = false ∧ user.credential ∉ p.credentials ∧
      ((∃ existing, p.usersById.lookup user.id = some existing ∧ existing.limits = user.limits ∧
          p' = p.index passwordHash user) ∨
       (p.usersById.lookup user.id = none ∧ p' = { p.index passwordHash user with
          eventUserIds := p.eventUserIds ++ [user.id]
          usersById := p.usersById.insert user.id user })) := by
  unfold Plan.add at h
  split at h
  · cases h
  rename_i hid
  split at h
  · cases h
  rename_i hcred
  split at h
  · cases h
  rename_i hdup
  refine ⟨by simpa using hid, by simpa using hcred, hdup, ?_⟩
  split at h
  · rename_i existing hex
    split at h
    · rename_i hlim
      cases h
      exact .inl ⟨existing, hex, hlim, rfl⟩
    · cases h
  · rename_i hnone
    cases h
    exact .inr ⟨hnone, rfl⟩

theorem mem_idsOf_append {users : List CoreUser} {user : CoreUser} {id : String} :
    id ∈ idsOf (users ++ [user]) ↔ id ∈ idsOf users ∨ id = user.id := by
  simp [idsOf, or_comm, eq_comm]

theorem credentialsOf_append_self {users : List CoreUser} {user : CoreUser} :
    credentialsOf (users ++ [user]) user.id = insert user.credential (credentialsOf users user.id) := by
  ext c
  simp only [mem_credentialsOf, Finset.mem_insert, List.mem_append, List.mem_singleton]
  constructor
  · rintro ⟨u, hu | rfl, hid, rfl⟩
    · exact .inr ⟨u, hu, hid, rfl⟩
    · exact .inl rfl
  · rintro (rfl | ⟨u, hu, hid, rfl⟩)
    · exact ⟨user, .inr rfl, rfl, rfl⟩
    · exact ⟨u, .inl hu, hid, rfl⟩

theorem credentialsOf_append_ne {users : List CoreUser} {user : CoreUser} {id : String}
    (h : id ≠ user.id) : credentialsOf (users ++ [user]) id = credentialsOf users id := by
  ext c
  simp only [mem_credentialsOf, List.mem_append, List.mem_singleton]
  constructor
  · rintro ⟨u, hu | rfl, hid, rfl⟩
    · exact ⟨u, hu, hid, rfl⟩
    · exact absurd hid.symm h
  · rintro ⟨u, hu, hid, rfl⟩
    exact ⟨u, .inl hu, hid, rfl⟩

theorem credentialsOf_of_not_mem {users : List CoreUser} {id : String} (h : id ∉ idsOf users) :
    credentialsOf users id = ∅ := by
  ext c
  simp only [mem_credentialsOf, Finset.notMem_empty, iff_false]
  rintro ⟨u, hu, rfl, -⟩
  exact h (List.mem_map.mpr ⟨u, hu, rfl⟩)

theorem PlanOf.add {users : List CoreUser} {p p' : Plan} {user : CoreUser}
    (hp : PlanOf passwordHash users p) (h : p.add passwordHash user = .ok p') :
    PlanOf passwordHash (users ++ [user]) p' := by
  obtain ⟨hid, hcred, hdup, hcase⟩ := Plan.add_ok passwordHash h
  have hfresh : ∀ u ∈ users, u.credential ≠ user.credential :=
    fun u hu he => hdup ((hp.credentials _).mpr ⟨u, hu, he⟩)
  have hindex : p'.credentials = insert user.credential p.credentials ∧
      p'.credentialMap = p.credentialMap.insert user.credential user.id ∧
      p'.passwordHashes = p.passwordHashes.insert (passwordHash user.credential) user.credential ∧
      p'.credentialsById = p.credentialsById.insert user.id
        (insert user.credential ((p.credentialsById.lookup user.id).getD ∅)) := by
    rcases hcase with ⟨existing, -, -, rfl⟩ | ⟨-, rfl⟩ <;> exact ⟨rfl, rfl, rfl, rfl⟩
  obtain ⟨h1, h2, h3, h4⟩ := hindex
  have hmem {u : CoreUser} : u ∈ users ++ [user] ↔ u ∈ users ∨ u = user := by simp
  refine ⟨?_, ?_, ?_, ?_, ?_, ?_, ?_, ?_, ?_, ?_⟩
  · intro u hu
    rcases hmem.mp hu with hu | rfl
    · exact hp.blank u hu
    · exact ⟨hid, hcred⟩
  · rw [List.map_append, List.nodup_append]
    refine ⟨hp.nodup, by simp, ?_⟩
    intro a ha b hb
    obtain ⟨u, hu, rfl⟩ := List.mem_map.mp ha
    simp only [List.map_cons, List.map_nil, List.mem_singleton] at hb
    exact hb ▸ hfresh u hu
  · intro c
    rw [h1, Finset.mem_insert, hp.credentials]
    constructor
    · rintro (rfl | ⟨u, hu, rfl⟩)
      · exact ⟨user, by simp, rfl⟩
      · exact ⟨u, by simp [hu], rfl⟩
    · rintro ⟨u, hu, rfl⟩
      rcases hmem.mp hu with hu | rfl
      · exact .inr ⟨u, hu, rfl⟩
      · exact .inl rfl
  · intro c id
    rw [h2, lookup_insert_ite]
    split
    · rename_i hc
      subst hc
      simp only [Option.some.injEq]
      constructor
      · rintro rfl
        exact ⟨user, by simp, rfl, rfl⟩
      · rintro ⟨u, hu, hc, rfl⟩
        rcases hmem.mp hu with hu | rfl
        · exact absurd hc (hfresh u hu)
        · rfl
    · rename_i hc
      rw [hp.credentialMap]
      constructor
      · rintro ⟨u, hu, rfl, rfl⟩
        exact ⟨u, by simp [hu], rfl, rfl⟩
      · rintro ⟨u, hu, rfl, rfl⟩
        rcases hmem.mp hu with hu | rfl
        · exact ⟨u, hu, rfl, rfl⟩
        · exact absurd rfl hc
  · intro hash c
    rw [h3, lookup_insert_ite]
    split
    · rename_i heq
      intro hc
      cases hc
      exact ⟨⟨user, by simp, rfl⟩, heq.symm⟩
    · intro hc
      obtain ⟨⟨u, hu, hu'⟩, hh⟩ := hp.hashes _ _ hc
      exact ⟨⟨u, by simp [hu], hu'⟩, hh⟩
  · intro u hu
    rw [h3, lookup_insert_ite]
    split
    · exact ⟨_, rfl⟩
    · rename_i hne
      rcases hmem.mp hu with hu | rfl
      · exact hp.hashed u hu
      · exact absurd rfl hne
  · intro id
    rw [h4, lookup_insert_ite, hp.grouped]
    by_cases hid' : id = user.id
    · subst hid'
      have hold : (if user.id ∈ idsOf users then some (credentialsOf users user.id) else none).getD ∅ =
          credentialsOf users user.id := by
        split
        · rfl
        · rename_i hnot
          simp [credentialsOf_of_not_mem hnot]
      rw [if_pos rfl, if_pos (mem_idsOf_append.mpr (.inr rfl)), credentialsOf_append_self, hold]
    · rw [if_neg hid', hp.grouped, credentialsOf_append_ne hid']
      simp [mem_idsOf_append, hid']
  · intro id u hu
    rcases hcase with ⟨existing, -, -, rfl⟩ | ⟨-, rfl⟩
    · obtain ⟨hmem, hid'⟩ := hp.owner id u hu
      exact ⟨by simp [hmem], hid'⟩
    · simp only [lookup_insert_ite] at hu
      split at hu
      · rename_i heq
        cases hu
        exact ⟨by simp, heq.symm⟩
      · obtain ⟨hmem, hid'⟩ := hp.owner id u hu
        exact ⟨by simp [hmem], hid'⟩
  · intro u hu
    rcases hcase with ⟨existing, hex, hlim, rfl⟩ | ⟨hnone, rfl⟩
    · rcases hmem.mp hu with hu | rfl
      · exact hp.limits u hu
      · exact ⟨existing, hex, hlim⟩
    · simp only [lookup_insert_ite]
      rcases hmem.mp hu with hu | rfl
      · obtain ⟨v, hv, hlim⟩ := hp.limits u hu
        have hne : u.id ≠ user.id := fun heq => by rw [heq, hnone] at hv; cases hv
        exact ⟨v, by rw [if_neg hne]; exact hv, hlim⟩
      · exact ⟨u, by simp, rfl⟩
  · rcases hcase with ⟨existing, hex, -, rfl⟩ | ⟨hnone, rfl⟩
    · refine ⟨hp.eventIds.1, fun id => ?_⟩
      rw [mem_idsOf_append]
      have hmem : user.id ∈ idsOf users := by
        obtain ⟨hm, hid'⟩ := hp.owner _ _ hex
        exact List.mem_map.mpr ⟨existing, hm, hid'⟩
      constructor
      · exact fun h => .inl ((hp.eventIds.2 id).mp h)
      · rintro (h | rfl)
        · exact (hp.eventIds.2 id).mpr h
        · exact (hp.eventIds.2 _).mpr hmem
    · have hnot : user.id ∉ p.eventUserIds := by
        rw [hp.eventIds.2]
        intro hmem
        obtain ⟨u, hu, hu'⟩ := List.mem_map.mp hmem
        obtain ⟨v, hv, -⟩ := hp.limits u hu
        rw [hu', hnone] at hv
        cases hv
      refine ⟨?_, fun id => ?_⟩
      · simpa [List.nodup_append] using ⟨hp.eventIds.1, fun a ha he => hnot (he ▸ ha)⟩
      · simp only [List.mem_append, List.mem_singleton, mem_idsOf_append, hp.eventIds.2]

theorem PlanOf.foldlM {done users : List CoreUser} {p₀ p : Plan} (hp : PlanOf passwordHash done p₀)
    (h : users.foldlM (Plan.add passwordHash) p₀ = .ok p) :
    PlanOf passwordHash (done ++ users) p := by
  induction users generalizing done p₀ with
  | nil =>
    cases h
    simpa using hp
  | cons user users ih =>
    rw [List.foldlM_cons] at h
    cases hadd : p₀.add passwordHash user with
    | error e => rw [hadd] at h; cases h
    | ok p₁ =>
      rw [hadd] at h
      have := ih (hp.add passwordHash hadd) h
      simpa using this

theorem plan_spec {users : List CoreUser} {p : Plan} (h : plan passwordHash users = .ok p) :
    PlanOf passwordHash users p := by
  simpa using (PlanOf.empty passwordHash).foldlM passwordHash h

/-- The lists `replace_users` accepts. -/
structure Accepted (users : List CoreUser) : Prop where
  blank : ∀ u ∈ users, isBlank u.id = false ∧ isBlank u.credential = false
  nodup : (users.map (·.credential)).Nodup
  limits : ∀ u ∈ users, ∀ v ∈ users, u.id = v.id → u.limits = v.limits

theorem PlanOf.accepted {users : List CoreUser} {p : Plan} (hp : PlanOf passwordHash users p) :
    Accepted users := by
  refine ⟨hp.blank, hp.nodup, ?_⟩
  intro u hu v hv hid
  obtain ⟨w, hw, hwu⟩ := hp.limits u hu
  obtain ⟨w', hw', hwv⟩ := hp.limits v hv
  rw [hid, hw'] at hw
  cases hw
  exact hwu.symm.trans hwv

theorem PlanOf.add_isOk {users : List CoreUser} {p : Plan} {user : CoreUser}
    (hp : PlanOf passwordHash users p) (ha : Accepted (users ++ [user])) :
    ∃ p', p.add passwordHash user = .ok p' := by
  obtain ⟨hid, hcred⟩ := ha.blank user (by simp)
  have hdup : user.credential ∉ p.credentials := by
    rw [hp.credentials]
    rintro ⟨u, hu, he⟩
    have hn := ha.nodup
    rw [List.map_append, List.nodup_append] at hn
    exact hn.2.2 _ (List.mem_map.mpr ⟨u, hu, rfl⟩) user.credential (by simp) he
  unfold Plan.add
  simp only [hid, hcred, hdup, Bool.false_eq_true, ↓reduceIte]
  split
  · rename_i existing hex
    obtain ⟨hm, hid'⟩ := hp.owner _ _ hex
    rw [if_pos (ha.limits existing (by simp [hm]) user (by simp) hid')]
    exact ⟨_, rfl⟩
  · exact ⟨_, rfl⟩

theorem Accepted.of_append {users more : List CoreUser} (h : Accepted (users ++ more)) :
    Accepted users := by
  refine ⟨fun u hu => h.blank u (by simp [hu]), ?_, fun u hu v hv => h.limits u (by simp [hu]) v (by simp [hv])⟩
  have hn := h.nodup
  rw [List.map_append, List.nodup_append] at hn
  exact hn.1

theorem plan_isOk {users : List CoreUser} (ha : Accepted users) :
    ∃ p, plan passwordHash users = .ok p := by
  -- Over longer and longer heads of the list, each accepted as a part of it.
  induction users using List.reverseRecOn with
  | nil => exact ⟨_, rfl⟩
  | append_singleton users user ih =>
    obtain ⟨p, hp⟩ := ih ha.of_append
    obtain ⟨p', hp'⟩ := (plan_spec passwordHash hp).add_isOk passwordHash ha
    refine ⟨p', ?_⟩
    unfold plan at hp ⊢
    rw [List.foldlM_append, hp]
    show List.foldlM (Plan.add passwordHash) p [user] = .ok p'
    rw [List.foldlM_cons, hp']
    rfl

theorem mapM_eq_some {α β : Type} {f : α → Option β} {g : α → β} {xs : List α}
    (h : ∀ x ∈ xs, f x = some (g x)) : xs.mapM f = some (xs.map g) := by
  induction xs with
  | nil => rfl
  | cons x xs ih =>
    rw [List.mapM_cons, h x (by simp), ih fun y hy => h y (by simp [hy])]
    rfl

theorem PlanOf.mem_usersById {users : List CoreUser} {p : Plan} (hp : PlanOf passwordHash users p)
    {id : String} : id ∈ p.usersById ↔ id ∈ idsOf users := by
  rw [mem_iff_lookup]
  constructor
  · rintro ⟨u, hu⟩
    obtain ⟨hm, hid⟩ := hp.owner _ _ hu
    exact List.mem_map.mpr ⟨u, hm, hid⟩
  · intro hid
    obtain ⟨u, hu, rfl⟩ := List.mem_map.mp hid
    obtain ⟨v, hv, -⟩ := hp.limits u hu
    exact ⟨v, hv⟩

theorem PlanOf.entries {users : List CoreUser} {p : Plan} (hp : PlanOf passwordHash users p) :
    p.entries = some (p.usersById.entries.map fun e => (e.2, credentialsOf users e.1)) := by
  refine mapM_eq_some ?_
  rintro ⟨id, u⟩ he
  have hid : id ∈ idsOf users :=
    (hp.mem_usersById passwordHash).mp (mem_iff_lookup.mpr ⟨u, mem_entries.mp he⟩)
  simp [hp.grouped, hid]

/-! ### The update of the core -/

def UserState.setCredentials (u : UserState) (credentials : Finset String) : UserState :=
  { u with credentials }

namespace CoreInner

def applyUserUpdate (c : CoreInner) (ref : Nat) (user : CoreUser) (credentials : Finset String) :
    CoreInner :=
  let oldCredentials := (c.heap[ref]?).map (·.credentials)
  let c :=
    if oldCredentials ≠ some credentials then
      (c.cancelSessions ref).modifyUser ref (·.setCredentials credentials)
    else c
  c.modifyUser ref (·.setLimits user.limits)

def installUser (current : Map String Nat) (acc : CoreInner × Map String Nat)
    (entry : CoreUser × Finset String) : CoreInner × Map String Nat :=
  match current.lookup entry.1.id with
  | some existing =>
    (acc.1.applyUserUpdate existing entry.1 entry.2, acc.2.insert entry.1.id existing)
  | none =>
    ({ acc.1 with heap := acc.1.heap ++ [UserState.new entry.1 entry.2] },
      acc.2.insert entry.1.id acc.1.heap.length)

def removedUsers (current : Map String Nat) (p : Plan) : List (Σ _ : String, Nat) :=
  current.entries.filter fun e => e.1 ∉ p.usersById

def replaceUsers (c : CoreInner) (users : List CoreUser) : Outcome Unit × CoreInner :=
  match plan passwordHash users with
  | .error e => (.err e, c)
  | .ok p =>
    match p.entries with
    | none => (.panic, c)
    | some entries =>
      let current := c.users
      let (c, userMap) := entries.foldl (installUser current) (c, ∅)
      let c := (removedUsers current p).foldl (fun c e => c.cancelSessions e.2) c
      (.ok (), { c with
        users := userMap
        credentials := ⟨p.credentialMap, p.passwordHashes⟩ }.send (.usersReplaced p.eventUserIds))

end CoreInner

end

end Aerion.Core
