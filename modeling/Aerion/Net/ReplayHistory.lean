import Aerion.Net.ReplayCache

/-!
# The replay cache against its history

The queue is pruned only when a key comes in, and only from its front. Asked
at times that do not decrease, the cache still answers from the whole history:
a key is accepted unless it was accepted within the last `ttl`, or as many
keys as it has room for were.
-/

namespace Aerion.Net.ReplayCache

variable {κ : Type} [DecidableEq κ]

/-- Accepted at an instant that another one still remembers. -/
def Recent (ttl : ℕ) (now : Instant) (e : Instant × κ) : Prop := now - e.1 ≤ ttl

instance (ttl : ℕ) (now : Instant) : DecidablePred (Recent (κ := κ) ttl now) :=
  fun _ => inferInstanceAs (Decidable (_ ≤ _))

/-- The answer to a key, from the insertions accepted so far. -/
def Accepts (ttl capacity : ℕ) (log : List (Instant × κ)) (key : κ) (now : Instant) : Prop :=
  (∀ e ∈ log, Recent ttl now e → e.2 ≠ key) ∧ (log.filter (Recent ttl now ·)).length < capacity

def pruned (c : ReplayCache κ) (now : Instant) : ReplayCache κ :=
  { c with
    expiry := c.expiry.filter (Recent c.ttl now ·)
    keys := ((c.expiry.filter (Recent c.ttl now ·)).map Prod.snd).toFinset }

/-- Insertions one after another: the cache, and those it accepted. -/
def insertAll : List (Instant × κ) → ReplayCache κ → ReplayCache κ × List (Instant × κ)
  | [], c => (c, [])
  | (now, key) :: history, c =>
    match c.checkAndStore key now with
    | (.ok _, c) =>
      let rest := insertAll history c
      (rest.1, (now, key) :: rest.2)
    | (.error _, c) => insertAll history c

/-- In the order of time. -/
abbrev Ordered (log : List (Instant × κ)) : Prop := log.Pairwise fun a b => a.1 ≤ b.1

/-! ### One insertion -/

theorem checkAndStore_params (c : ReplayCache κ) (key : κ) (now : Instant) :
    (c.checkAndStore key now).2.ttl = c.ttl ∧ (c.checkAndStore key now).2.capacity = c.capacity := by
  unfold checkAndStore
  dsimp only
  split
  · exact ⟨rfl, rfl⟩
  · split
    · exact ⟨rfl, rfl⟩
    · exact ⟨rfl, rfl⟩

/-- The cache after the accesses up to `now`, of which those in `log` stored a key: two with the
same key lie more than `ttl` apart. -/
structure Tracks (c : ReplayCache κ) (log : List (Instant × κ)) (now : Instant) : Prop where
  records : c.Records log now
  ordered : Ordered log
  past : ∀ e ∈ log, e.1 ≤ now
  bounded : c.expiry.length ≤ c.capacity
  apart : log.Pairwise fun a b => a.2 = b.2 → a.1 + c.ttl < b.1

theorem tracks_new {ttl capacity : ℕ} {now : Instant} :
    (new ttl capacity : ReplayCache κ).Tracks [] now :=
  ⟨records_new, .nil, by simp, Nat.zero_le _, .nil⟩

theorem expire_eq_filter {now : Instant} {ttl : ℕ} {expiry : List (Instant × κ)} (keys : Finset κ)
    (h : Ordered expiry) : (expire now ttl expiry keys).1 = expiry.filter (Recent ttl now ·) := by
  induction expiry generalizing keys with
  | nil => rfl
  | cons e expiry ih =>
    obtain ⟨seen, key⟩ := e
    obtain ⟨hfirst, hrest⟩ := List.pairwise_cons.mp h
    unfold expire
    by_cases hold : ttl < now - seen
    · rw [if_pos hold, ih _ hrest, List.filter_cons_of_neg]
      exact fun hrecent => absurd (of_decide_eq_true hrecent) (Nat.not_le.mpr hold)
    · -- everything behind the first recent entry is recent
      rw [if_neg hold, List.filter_eq_self.mpr]
      intro e he
      have hseen : seen ≤ e.1 := by
        rcases List.mem_cons.mp he with rfl | he
        · exact le_rfl
        · exact hfirst e he
      exact decide_eq_true ((Nat.sub_le_sub_left hseen now).trans (Nat.not_lt.mp hold))

section

variable {c : ReplayCache κ} {log : List (Instant × κ)} {last now : Instant}

theorem Tracks.later (h : c.Tracks log last) (hle : last ≤ now) : c.Tracks log now :=
  ⟨h.records.later hle, h.ordered, fun e he => (h.past e he).trans hle, h.bounded, h.apart⟩

theorem Tracks.filter_expiry (h : c.Tracks log now) :
    c.expiry.filter (Recent c.ttl now ·) = log.filter (Recent c.ttl now ·) := by
  obtain ⟨old, hlog, hold⟩ := h.records.dropped
  have hdropped : old.filter (Recent c.ttl now ·) = [] := by
    refine List.filter_eq_nil_iff.mpr fun e he => ?_
    have hlate : c.ttl < now - e.1 := Nat.lt_sub_of_add_lt (Nat.add_comm e.1 c.ttl ▸ hold e he)
    exact fun hrecent => absurd (of_decide_eq_true hrecent) (Nat.not_le.mpr hlate)
  rw [hlog, List.filter_append, hdropped, List.nil_append]

theorem Tracks.ordered_expiry (h : c.Tracks log now) : Ordered c.expiry := by
  obtain ⟨old, hlog, -⟩ := h.records.dropped
  have hordered := h.ordered
  rw [hlog] at hordered
  exact (List.pairwise_append.mp hordered).2.1

theorem Tracks.expire_eq (h : c.Tracks log now) :
    expire now c.ttl c.expiry c.keys = ((c.pruned now).expiry, (c.pruned now).keys) := by
  obtain ⟨_, rest, -, -, hrest⟩ := @expire_spec κ _ now c.ttl _ _ h.records.keys h.records.nodup
  have hfilter : (expire now c.ttl c.expiry c.keys).1 = c.expiry.filter (Recent c.ttl now ·) :=
    expire_eq_filter c.keys h.ordered_expiry
  rw [hrest] at hfilter
  obtain rfl : rest = c.expiry.filter (Recent c.ttl now ·) := hfilter
  exact hrest

theorem Tracks.pruned (h : c.Tracks log now) : (c.pruned now).Tracks log now := by
  obtain ⟨rest, hrest, hrecords⟩ := h.records.expire le_rfl
  rw [h.expire_eq] at hrest
  obtain rfl : (c.pruned now).expiry = rest := congrArg Prod.fst hrest
  exact ⟨hrecords, h.ordered, h.past, (List.length_filter_le _ _).trans h.bounded, h.apart⟩

theorem Tracks.checkAndStore_eq (h : c.Tracks log now) (key : κ) :
    c.checkAndStore key now =
      if ∃ e ∈ log, Recent c.ttl now e ∧ e.2 = key then (.error .replayed, c.pruned now)
      else if c.capacity ≤ (log.filter (Recent c.ttl now ·)).length then (.error .full, c.pruned now)
      else (.ok (), { c.pruned now with
        keys := insert key (c.pruned now).keys
        expiry := (c.pruned now).expiry ++ [(now, key)] }) := by
  have hmem : key ∈ (c.pruned now).keys ↔ ∃ e ∈ log, Recent c.ttl now e ∧ e.2 = key := by
    simp only [ReplayCache.pruned, h.filter_expiry, List.mem_toFinset, List.mem_map, List.mem_filter,
      decide_eq_true_eq, and_assoc]
  have hcard : (c.pruned now).keys.card = (log.filter (Recent c.ttl now ·)).length := by
    have hnodup : ((c.pruned now).expiry.map Prod.snd).Nodup := h.pruned.records.nodup
    rw [h.pruned.records.keys, List.toFinset_card_of_nodup hnodup, List.length_map, ← h.filter_expiry]
    rfl
  unfold checkAndStore
  rw [h.expire_eq]
  simp only [hmem, hcard]
  rfl

theorem Tracks.accepts_iff (h : c.Tracks log now) (key : κ) :
    (c.checkAndStore key now).1 = .ok () ↔ Accepts c.ttl c.capacity log key now := by
  rw [h.checkAndStore_eq]
  unfold Accepts
  split
  · rename_i hseen
    obtain ⟨e, he, hrecent, hkey⟩ := hseen
    exact ⟨nofun, fun haccepts => absurd hkey (haccepts.1 e he hrecent)⟩
  rename_i hnew
  have hfresh : ∀ e ∈ log, Recent c.ttl now e → e.2 ≠ key := fun e he hrecent hkey =>
    hnew ⟨e, he, hrecent, hkey⟩
  split
  · rename_i hfull
    exact ⟨nofun, fun haccepts => absurd haccepts.2 (Nat.not_lt.mpr hfull)⟩
  · rename_i hroom
    exact ⟨fun _ => ⟨hfresh, Nat.not_le.mp hroom⟩, fun _ => rfl⟩

theorem Tracks.rejected {key : κ} (h : c.Tracks log now) (hrej : (c.checkAndStore key now).1 ≠ .ok ()) :
    (c.checkAndStore key now).2 = c.pruned now := by
  rw [h.checkAndStore_eq] at hrej ⊢
  split
  · rfl
  · split
    · rfl
    · rename_i hnew hroom
      rw [if_neg hnew, if_neg hroom] at hrej
      exact absurd rfl hrej

theorem Tracks.rejected_eq {key : κ} {e : ReplayError} {c' : ReplayCache κ} (h : c.Tracks log now)
    (hcheck : c.checkAndStore key now = (.error e, c')) : c' = c.pruned now := by
  have hrej : (c.checkAndStore key now).2 = c.pruned now := h.rejected (by rw [hcheck]; nofun)
  rwa [hcheck] at hrej

theorem Tracks.accepted {key : κ} (h : c.Tracks log now)
    (hacc : Accepts c.ttl c.capacity log key now) :
    (c.checkAndStore key now).2.Tracks (log ++ [(now, key)]) now := by
  have hok : c.checkAndStore key now = (.ok (), (c.checkAndStore key now).2) :=
    Prod.ext ((h.accepts_iff key).mpr hacc) rfl
  obtain ⟨-, hrecords, -⟩ := h.records.checkAndStore_ok le_rfl hok
  refine ⟨hrecords, ?_, ?_, ?_, ?_⟩
  · refine List.pairwise_append.mpr ⟨h.ordered, List.pairwise_singleton _ _, fun e he e' he' => ?_⟩
    rw [List.mem_singleton.mp he']
    exact h.past e he
  · intro e he
    rcases List.mem_append.mp he with he | he
    · exact h.past e he
    · rw [List.mem_singleton.mp he]
  · have hexpiry : (c.pruned now).expiry.length < c.capacity := by
      rw [ReplayCache.pruned, h.filter_expiry]
      exact hacc.2
    rw [h.checkAndStore_eq]
    split
    · exact hexpiry.le
    · split
      · exact hexpiry.le
      · rw [List.length_append]
        exact hexpiry
  · rw [(c.checkAndStore_params key now).1]
    refine List.pairwise_append.mpr ⟨h.apart, List.pairwise_singleton _ _, fun e he e' he' hkey => ?_⟩
    obtain rfl := List.mem_singleton.mp he'
    have hold : c.ttl < now - e.1 := Nat.not_le.mp fun hrecent => hacc.1 e he hrecent hkey
    exact Nat.add_comm e.1 c.ttl ▸ Nat.add_lt_of_lt_sub hold

end

/-! ### Histories -/

theorem Tracks.insertAll {history : List (Instant × κ)} {c : ReplayCache κ} {log : List (Instant × κ)}
    {last now : Instant} (h : c.Tracks log last) (hordered : Ordered history)
    (hlast : ∀ e ∈ history, last ≤ e.1) (hnow : ∀ e ∈ history, e.1 ≤ now) (hle : last ≤ now) :
    (ReplayCache.insertAll history c).1.Tracks (log ++ (ReplayCache.insertAll history c).2) now ∧
      (ReplayCache.insertAll history c).1.ttl = c.ttl ∧
      (ReplayCache.insertAll history c).1.capacity = c.capacity := by
  induction history generalizing c log last with
  | nil =>
    rw [ReplayCache.insertAll, List.append_nil]
    exact ⟨h.later hle, rfl, rfl⟩
  | cons e history ih =>
    obtain ⟨at_, key⟩ := e
    obtain ⟨hfirst, hordered⟩ := List.pairwise_cons.mp hordered
    have hat : at_ ≤ now := hnow _ List.mem_cons_self
    replace h := h.later (hlast _ List.mem_cons_self)
    have hnow : ∀ e ∈ history, e.1 ≤ now := fun e he => hnow e (List.mem_cons_of_mem _ he)
    obtain ⟨httl, hcapacity⟩ := c.checkAndStore_params key at_
    unfold ReplayCache.insertAll
    split
    · rename_i u c' hcheck
      have hacc : Accepts c.ttl c.capacity log key at_ := (h.accepts_iff key).mp (by rw [hcheck])
      have hnext := h.accepted hacc
      rw [hcheck] at hnext httl hcapacity
      obtain ⟨htracks, httl', hcapacity'⟩ := ih hnext hordered hfirst hnow hat
      rw [List.append_assoc] at htracks
      exact ⟨htracks, httl'.trans httl, hcapacity'.trans hcapacity⟩
    · rename_i err c' hcheck
      obtain rfl := h.rejected_eq hcheck
      exact ih h.pruned hordered hfirst hnow hat

/-- For every history of insertions at times that do not decrease and every further one: the keys
are those of the queue, each once, the queue is in the order of time and not longer than the
capacity, the insertion is accepted exactly when the history allows it, and if it is rejected only
what has expired is removed. -/
theorem insert_meets_history (ttl capacity : ℕ) (history : List (Instant × κ)) (key : κ) (now : Instant)
    (h : Ordered (history ++ [(now, key)])) :
    let c := (insertAll history (new ttl capacity)).1
    let log := (insertAll history (new ttl capacity)).2
    (c.keys = (c.expiry.map Prod.snd).toFinset ∧ (c.expiry.map Prod.snd).Nodup) ∧
      Ordered c.expiry ∧ c.expiry.length ≤ capacity ∧
      ((c.checkAndStore key now).1 = .ok () ↔ Accepts ttl capacity log key now) ∧
      ((c.checkAndStore key now).1 ≠ .ok () → (c.checkAndStore key now).2 = c.pruned now) := by
  obtain ⟨hordered, -, hnow⟩ := List.pairwise_append.mp h
  obtain ⟨htracks, httl, hcapacity⟩ := (@tracks_new κ _ ttl capacity 0).insertAll hordered
    (fun _ _ => Nat.zero_le _) (fun e he => hnow e he _ (List.mem_singleton_self _))
    (Nat.zero_le now)
  intro c log
  have haccepts := htracks.accepts_iff key
  rw [List.nil_append, httl, hcapacity] at haccepts
  exact ⟨⟨htracks.records.keys, htracks.records.nodup⟩, htracks.ordered_expiry,
    htracks.bounded.trans_eq hcapacity, haccepts, htracks.rejected⟩

/-- A full cache that turned a key away takes the first key again once it has expired. -/
theorem expired_key_accepted :
    Ordered [(0, 1), (5, 2), (6, 3), (11, 1)] ∧
      (insertAll [(0, 1), (5, 2), (6, 3)] (new 10 2)).2 = [(0, 1), (5, 2)] ∧
      Accepts 10 2 (insertAll [(0, 1), (5, 2), (6, 3)] (new 10 2)).2 1 11 :=
  ⟨by decide, by decide,
    (insert_meets_history 10 2 [(0, 1), (5, 2), (6, 3)] 1 11 (by decide)).2.2.2.1.mp (by decide)⟩

end Aerion.Net.ReplayCache
