import Aerion.Lib.Ledger
import Aerion.Lib.Steps
import Aerion.Mieru.TimeSlots

/-!
# Lookups of time keys

Any number of lookups run side by side (`mieru_keys_for_password`). A lookup
reads the clock, takes the lock for the entry and the salts, derives outside
the lock and takes the lock again to put its keys in. Between any two of
these the others run, and the clock may show anything.
-/

namespace Aerion.Mieru

open Lib

inductive LookupPhase where
  | started
  | looked (salts : List Bytes) (previous : Option TimeKeys)
  | derived (keys : List Bytes)
  | returned (result : Outcome (List Bytes))
  deriving DecidableEq

structure Lookup where
  password : Bytes
  clock : Option ℕ
  phase : LookupPhase
  deriving DecidableEq

/-- `PBKDF2_CACHE` and the lookups in the order in which they started. -/
structure Lookups where
  cache : Option KeyCache
  tasks : List Lookup
  deriving DecidableEq

def Lookups.new : Lookups := ⟨none, []⟩

inductive LookupEvent where
  | start (password : Bytes) (clock : Option ℕ)
  | turn (n : ℕ)

section

variable (crypto : Crypto)

def lookSection (password : Bytes) (epoch : ℕ) (cache : KeyCache) : LookupPhase × KeyCache :=
  match cache.entries.lookup password with
  | some previous =>
    if previous.epoch = epoch then (.returned (.ok previous.keys), cache)
    else
      let (salts, cache) := saltsFor crypto epoch cache
      (match salts with
        | .ok salts => .looked salts (some previous)
        | .err e => .returned (.err e)
        | .panic => .returned .panic, cache)
  | none =>
    let (salts, cache) := saltsFor crypto epoch cache
    (match salts with
      | .ok salts => .looked salts none
      | .err e => .returned (.err e)
      | .panic => .returned .panic, cache)

/-- The second section; the `unwrap` of the cache and the eviction may panic. -/
def insertSection (password : Bytes) (epoch : ℕ) (keys : List Bytes) (cache : Option KeyCache) :
    LookupPhase × Option KeyCache :=
  match cache with
  | none => (.returned .panic, none)
  | some cache =>
    match cache.insert password ⟨epoch, keys⟩ with
    | .ok cache => (.returned (.ok keys), some cache)
    | .err e => (.returned (.err e), some cache)
    | .panic => (.returned .panic, some cache)

def Lookup.turn (password : Bytes) (epoch : ℕ) (cache : Option KeyCache) :
    LookupPhase → Option (LookupPhase × Option KeyCache)
  | .started =>
    let (phase, cache) := lookSection crypto password epoch (cache.getD .empty)
    some (phase, some cache)
  | .looked salts previous =>
    match deriveTimeKeys crypto password epoch salts previous with
    | .ok keys => some (.derived keys, cache)
    | .err e => some (.returned (.err e), cache)
    | .panic => some (.returned .panic, cache)
  | .derived keys => some (insertSection password epoch keys cache)
  | .returned _ => none

def Lookups.step (s : Lookups) : LookupEvent → Option Lookups
  | .start password clock =>
    -- The argument is an array of 32 bytes.
    if password.length = keyLen then
      let phase := match sinceEpoch clock with
        | .ok _ => .started
        | .err e => .returned (.err e)
        | .panic => .returned .panic
      some { s with tasks := s.tasks ++ [⟨password, clock, phase⟩] }
    else none
  | .turn n => do
    let task ← s.tasks[n]?
    let secs ← task.clock
    let (phase, cache) ← Lookup.turn crypto task.password (mieruKeyEpoch secs) s.cache task.phase
    return ⟨cache, s.tasks.modify n ({ · with phase })⟩

end

/-! ### The queue holds the cached passwords -/

/-- The queue is an order of the passwords of the map, and there are no more than it may hold. -/
structure KeyCache.Tidy (cache : KeyCache) : Prop where
  order : cache.order.Perm cache.entries.keys
  bounded : cache.entries.keys.length ≤ pbkdf2CacheMax

theorem KeyCache.tidy_empty : KeyCache.empty.Tidy := ⟨.nil, Nat.zero_le _⟩

theorem KeyCache.Tidy.insert {cache : KeyCache} (h : cache.Tidy) (password : Bytes) (keys : TimeKeys) :
    ∃ cache', cache.insert password keys = .ok cache' ∧ cache'.Tidy := by
  have hlength : cache.entries.entries.length = cache.entries.keys.length := (List.length_map _).symm
  unfold KeyCache.insert
  by_cases hmem : password ∈ cache.entries
  · rw [if_pos hmem]
    have hkeys := keys_insert_of_mem (v := keys) hmem
    exact ⟨_, rfl, h.order.trans hkeys.symm, hkeys.length_eq.trans_le h.bounded⟩
  rw [if_neg hmem]
  by_cases hfull : cache.entries.entries.length = pbkdf2CacheMax
  · rw [if_pos hfull]
    cases horder : cache.order with
    | nil =>
      -- The queue of a full cache is not empty.
      have hempty := h.order.length_eq
      rw [horder, ← hlength, hfull] at hempty
      cases hempty
    | cons oldest rest =>
      have hold : oldest ∈ cache.entries :=
        h.order.mem_iff.mp (by rw [horder]; exact List.mem_cons_self)
      have herase := keys_erase_of_mem hold
      have hrest : rest.Perm (cache.entries.erase oldest).keys :=
        (List.perm_cons oldest).mp ((horder ▸ h.order).trans herase.symm)
      have hnew : password ∉ cache.entries.erase oldest := fun hin => hmem (AList.mem_erase.mp hin).2
      have hkeys := keys_insert_of_notMem (v := keys) hnew
      refine ⟨_, rfl, ?_, ?_⟩
      · exact (List.perm_append_singleton _ _).trans ((hrest.cons _).trans hkeys.symm)
      · rw [hkeys.length_eq, List.length_cons, ← List.length_cons, herase.length_eq]
        exact h.bounded
  · rw [if_neg hfull]
    have hkeys := keys_insert_of_notMem (v := keys) hmem
    refine ⟨_, rfl, ?_, ?_⟩
    · exact (List.perm_append_singleton _ _).trans ((h.order.cons _).trans hkeys.symm)
    · have := h.bounded
      rw [hkeys.length_eq, List.length_cons]
      omega

/-! ### What lookups keep -/

section

variable {crypto : Crypto}

/-- What is known of a lookup at each of its places, with the cache made. -/
inductive Lookup.Good (crypto : Crypto) (password : Bytes) (clock : Option ℕ) (made : Bool) :
    LookupPhase → Prop where
  | started {secs : ℕ} (h : clock = some secs) : Good crypto password clock made .started
  | looked {secs : ℕ} {previous : Option TimeKeys} (h : clock = some secs) (hmade : made = true)
      (hprevious : ∀ old ∈ previous, SlotKeys crypto password old.epoch old.keys) :
      Good crypto password clock made (.looked (saltFromEpoch crypto (mieruKeyEpoch secs)) previous)
  | derived {secs : ℕ} {keys : List Bytes} (h : clock = some secs) (hmade : made = true)
      (hkeys : SlotKeys crypto password (mieruKeyEpoch secs) keys) :
      Good crypto password clock made (.derived keys)
  | returned {secs : ℕ} {keys : List Bytes} (h : clock = some secs)
      (hkeys : SlotKeys crypto password (mieruKeyEpoch secs) keys) :
      Good crypto password clock made (.returned (.ok keys))
  | noClock (h : clock = none) :
      Good crypto password clock made (.returned (.err "second time provided was later than self"))

/-- The cache of the lookups: it holds genuine keys, and its queue fits. -/
def KeyCache.Sane (crypto : Crypto) (cache : KeyCache) : Prop := cache.Genuine crypto ∧ cache.Tidy

structure Lookups.Sound (crypto : Crypto) (s : Lookups) : Prop where
  cache : ∀ cache ∈ s.cache, cache.Sane crypto
  tasks : ∀ task ∈ s.tasks, task.password.length = keyLen ∧
    Lookup.Good crypto task.password task.clock s.cache.isSome task.phase

theorem Lookup.Good.mono {password : Bytes} {clock : Option ℕ} {made made' : Bool} {phase : LookupPhase}
    (h : Lookup.Good crypto password clock made phase) (hmade : made = true → made' = true) :
    Lookup.Good crypto password clock made' phase := by
  cases h with
  | started h => exact .started h
  | looked h hm hprevious => exact .looked h (hmade hm) hprevious
  | derived h hm hkeys => exact .derived h (hmade hm) hkeys
  | returned h hkeys => exact .returned h hkeys
  | noClock h => exact .noClock h

theorem KeyCache.sane_getD {cache : Option KeyCache} (h : ∀ c ∈ cache, c.Sane crypto) :
    (cache.getD .empty).Sane crypto := by
  cases cache with
  | none => exact ⟨genuine_empty, tidy_empty⟩
  | some cache => exact h cache rfl

theorem saltsFor_sane {cache : KeyCache} (h : cache.Sane crypto) (epoch : ℕ) :
    ∃ cache', saltsFor crypto epoch cache = (.ok (saltFromEpoch crypto epoch), cache') ∧
      cache'.Sane crypto := by
  have hnew : KeyCache.Sane crypto { cache with salts := some (epoch, saltFromEpoch crypto epoch) } :=
    ⟨⟨h.1.entries, fun _ _ hsalts => by cases hsalts; rfl⟩, h.2.order, h.2.bounded⟩
  unfold saltsFor
  cases hsalts : cache.salts with
  | none => exact ⟨_, rfl, hnew⟩
  | some cached =>
    by_cases hepoch : cached.1 = epoch
    · refine ⟨cache, ?_, h⟩
      rw [← hepoch, ← h.1.salts cached.1 cached.2 hsalts]
      exact if_pos rfl
    · exact ⟨_, if_neg hepoch, hnew⟩

theorem lookSection_good {cache : KeyCache} (h : cache.Sane crypto) (password : Bytes) (secs : ℕ) :
    (lookSection crypto password (mieruKeyEpoch secs) cache).2.Sane crypto ∧
      Lookup.Good crypto password (some secs) true
        (lookSection crypto password (mieruKeyEpoch secs) cache).1 := by
  obtain ⟨cache', hsalts, hsane⟩ := saltsFor_sane h (mieruKeyEpoch secs)
  unfold lookSection
  rw [hsalts]
  cases hentry : cache.entries.lookup password with
  | none => exact ⟨hsane, .looked rfl rfl nofun⟩
  | some previous =>
    have hold := h.1.entries _ _ hentry
    dsimp only
    split
    · rename_i hepoch
      exact ⟨h, .returned rfl (hepoch ▸ hold)⟩
    · refine ⟨hsane, .looked rfl rfl ?_⟩
      rintro old ⟨⟩
      exact hold

theorem deriveTimeKeys_some {password : Bytes} (hlen : password.length = keyLen) (epoch : ℕ)
    (salts : List Bytes) (previous : Option TimeKeys) :
    ∃ keys, deriveTimeKeys crypto password epoch salts previous = .ok keys := by
  have hfilled : (!password.isEmpty) = true := by
    cases password with
    | nil => cases hlen
    | cons _ _ => rfl
  have hderived (salt : Bytes) : ∃ key, pbkdf2HmacSha256 crypto password salt keyIter keyLen = .ok key :=
    ⟨_, by rw [pbkdf2HmacSha256, Outcome.ensure_pos hfilled, Outcome.ok_bind]; rfl⟩
  unfold deriveTimeKeys
  generalize (keyEpochs epoch).zip salts = slots
  induction slots with
  | nil => exact ⟨[], rfl⟩
  | cons slot slots ih =>
    obtain ⟨keys, hkeys⟩ := ih
    obtain ⟨e, salt⟩ := slot
    cases hreuse : previous.bind (·.reuse e) with
    | some key =>
      refine ⟨key :: keys, Outcome.mapM_ok.mpr (.cons ?_ (Outcome.mapM_ok.mp hkeys))⟩
      dsimp only
      rw [hreuse]
    | none =>
      obtain ⟨key, hkey⟩ := hderived salt
      refine ⟨key :: keys, Outcome.mapM_ok.mpr (.cons ?_ (Outcome.mapM_ok.mp hkeys))⟩
      dsimp only
      rw [hreuse]
      exact hkey

theorem SlotKeys.fresh {password : Bytes} {epoch : ℕ} {keys : List Bytes}
    (h : SlotKeys crypto password epoch keys) :
    deriveTimeKeys crypto password epoch (saltFromEpoch crypto epoch) none = .ok keys := by
  have hzip : (keyEpochs epoch).zip (saltFromEpoch crypto epoch) =
      (keyEpochs epoch).map fun slot => (slot, slotSalt crypto slot) := rfl
  rw [deriveTimeKeys, hzip]
  exact Outcome.mapM_ok.mpr (List.forall₂_map_left_iff.mpr h)

theorem turn_good {password : Bytes} {secs : ℕ} {cache : Option KeyCache} {phase : LookupPhase}
    {result : LookupPhase × Option KeyCache} (hcache : ∀ c ∈ cache, c.Sane crypto)
    (hlen : password.length = keyLen)
    (hphase : Lookup.Good crypto password (some secs) cache.isSome phase)
    (h : Lookup.turn crypto password (mieruKeyEpoch secs) cache phase = some result) :
    (∀ c ∈ result.2, c.Sane crypto) ∧ (cache.isSome = true → result.2.isSome = true) ∧
      Lookup.Good crypto password (some secs) result.2.isSome result.1 := by
  cases hphase with
  | started _ =>
    obtain ⟨hsane, hgood⟩ := lookSection_good (KeyCache.sane_getD hcache) password secs
    obtain rfl := Option.some.inj h
    refine ⟨?_, fun _ => rfl, hgood⟩
    rintro c ⟨⟩
    exact hsane
  | @looked _ previous hsecs hmade hprevious =>
    obtain rfl := Option.some.inj hsecs
    obtain ⟨keys, hkeys⟩ := @deriveTimeKeys_some crypto password hlen (mieruKeyEpoch secs)
      (saltFromEpoch crypto (mieruKeyEpoch secs)) previous
    dsimp only [Lookup.turn] at h
    rw [hkeys] at h
    obtain rfl := Option.some.inj h
    exact ⟨hcache, id, .derived rfl hmade (deriveTimeKeys_genuine hprevious hkeys)⟩
  | @derived _ keys hsecs hmade hkeys =>
    obtain rfl := Option.some.inj hsecs
    obtain ⟨c, rfl⟩ := Option.isSome_iff_exists.mp hmade
    have hsane := hcache c rfl
    obtain ⟨c', hinsert, htidy⟩ := hsane.2.insert password ⟨mieruKeyEpoch secs, keys⟩
    simp only [Lookup.turn, insertSection, hinsert] at h
    obtain rfl := Option.some.inj h
    refine ⟨?_, fun _ => rfl, .returned rfl hkeys⟩
    rintro c ⟨⟩
    exact ⟨hsane.1.insert hkeys hinsert, htidy⟩
  | returned hsecs hkeys => cases h
  | noClock hnone => cases hnone

theorem Lookups.Sound.step {s s' : Lookups} {e : LookupEvent} (h : s.Sound crypto)
    (hstep : s.step crypto e = some s') : s'.Sound crypto := by
  cases e with
  | start password clock =>
    by_cases hlen : password.length = keyLen
    · simp only [Lookups.step, if_pos hlen] at hstep
      obtain rfl := Option.some.inj hstep
      refine ⟨h.cache, fun task htask => ?_⟩
      rcases List.mem_append.mp htask with htask | htask
      · exact h.tasks task htask
      · obtain rfl := List.mem_singleton.mp htask
        refine ⟨hlen, ?_⟩
        cases clock with
        | none => exact .noClock rfl
        | some secs => exact .started rfl
    · simp only [Lookups.step, if_neg hlen] at hstep
      cases hstep
  | turn n =>
    obtain ⟨task, htask, hstep⟩ := Option.bind_eq_some_iff.mp hstep
    obtain ⟨secs, hsecs, hstep⟩ := Option.bind_eq_some_iff.mp hstep
    obtain ⟨⟨phase, cache⟩, hturn, hstep⟩ := Option.bind_eq_some_iff.mp hstep
    obtain rfl := Option.some.inj hstep
    obtain ⟨hlen, hgood⟩ := h.tasks task (List.mem_of_getElem? htask)
    obtain ⟨hcache, hmade, hphase⟩ := turn_good h.cache hlen (hsecs ▸ hgood) hturn
    refine ⟨hcache, fun other hother => ?_⟩
    rcases mem_modify hother with hother | ⟨_, hsame, rfl⟩
    · obtain ⟨hlen', hgood'⟩ := h.tasks other hother
      exact ⟨hlen', hgood'.mono hmade⟩
    · obtain rfl := Option.some.inj (htask.symm.trans hsame)
      exact ⟨hlen, hsecs ▸ hphase⟩

theorem Lookups.sound_run {s : Lookups} {es : List LookupEvent}
    (h : Steps (Lookups.step crypto) always .new es s) : s.Sound crypto :=
  h.invariant (Lookups.Sound crypto) (fun _ _ _ hs _ hstep => hs.step hstep)
    ⟨nofun, fun _ htask => absurd htask List.not_mem_nil⟩

end

/-- Whatever lookups run side by side and whatever their clocks show, a lookup that has returned holds
the keys of a fresh derivation for the slots around the clock it read, or its clock stood before the
epoch; and the queue of the cache is an order of the cached passwords, 4096 at the most. -/
theorem cached_keys_are_fresh (crypto : Crypto) (es : List LookupEvent) (s : Lookups)
    (hrun : Steps (Lookups.step crypto) always .new es s) :
    (∀ task ∈ s.tasks, ∀ r, task.phase = .returned r →
      (∃ secs keys, task.clock = some secs ∧ r = .ok keys ∧
        deriveTimeKeys crypto task.password (mieruKeyEpoch secs)
          (saltFromEpoch crypto (mieruKeyEpoch secs)) none = .ok keys) ∨
      (task.clock = none ∧ r = .err "second time provided was later than self")) ∧
    ∀ cache, s.cache = some cache → cache.order.Perm cache.entries.keys ∧ cache.order.Nodup ∧
      cache.order.length ≤ pbkdf2CacheMax := by
  have hsound := Lookups.sound_run hrun
  refine ⟨fun task htask r hr => ?_, fun cache hcache => ?_⟩
  · have hgood := (hsound.tasks task htask).2
    rw [hr] at hgood
    generalize hclock : task.clock = clock at hgood
    cases hgood with
    | returned hsecs hkeys => exact .inl ⟨_, _, hsecs, rfl, hkeys.fresh⟩
    | noClock hnone => exact .inr ⟨hnone, rfl⟩
  · have htidy := (hsound.cache cache hcache).2
    exact ⟨htidy.order, htidy.order.nodup_iff.mpr (AList.keys_nodup cache.entries),
      htidy.order.length_eq.trans_le htidy.bounded⟩

def flatCrypto : Crypto := ⟨fun _ => [], fun _ _ => [1], fun _ _ _ _ => none⟩

/-- Two lookups for one user at distant clocks, each between the parts of the other. -/
theorem lookups_side_by_side :
    ∃ s, Steps (Lookups.step flatCrypto) always .new
        [.start (List.replicate 32 7) (some 0), .start (List.replicate 32 7) (some 500), .turn 0, .turn 1,
          .turn 1, .turn 0, .turn 0, .turn 1] s ∧
      s.tasks.map (·.phase) = List.replicate 2 (.returned (.ok [[0], [0], [0]])) ∧
      ∀ cache, s.cache = some cache → cache.order.Nodup := by
  have hreplay : (replay (Lookups.step flatCrypto) .new
      [.start (List.replicate 32 7) (some 0), .start (List.replicate 32 7) (some 500), .turn 0, .turn 1,
        .turn 1, .turn 0, .turn 0, .turn 1]).any (fun s => decide (s.tasks.map (·.phase) =
          List.replicate 2 (.returned (.ok [[0], [0], [0]])))) = true := by
    decide +kernel
  obtain ⟨s, hrun, hs⟩ := steps_of_replay hreplay
  exact ⟨s, hrun, of_decide_eq_true hs,
    fun cache hcache => ((cached_keys_are_fresh flatCrypto _ s hrun).2 cache hcache).2.1⟩

end Aerion.Mieru
