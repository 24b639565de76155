import Mathlib.Data.Finset.Card
import Mathlib.Data.Nat.Notation

/-!
# The replay cache

`ReplayCache` of `src/replay_cache.rs`: keys seen within the last `ttl`, at
most `capacity` of them. Instants and durations are nanoseconds.
-/

namespace Aerion.Net

abbrev Instant := ℕ

/-- `Duration::from_secs`. -/
def seconds (n : ℕ) : ℕ := n * 1000000000

inductive ReplayError where
  | replayed
  | full
  deriving DecidableEq, Repr

structure ReplayCache (κ : Type) where
  keys : Finset κ
  expiry : List (Instant × κ)
  ttl : ℕ
  capacity : ℕ
  deriving DecidableEq

namespace ReplayCache

variable {κ : Type} [DecidableEq κ]

def new (ttl capacity : ℕ) : ReplayCache κ := ⟨∅, [], ttl, capacity⟩

/-- The `while` loop of `insert`. -/
def expire (now : Instant) (ttl : ℕ) : List (Instant × κ) → Finset κ → List (Instant × κ) × Finset κ
  | [], keys => ([], keys)
  | (seen, key) :: rest, keys =>
    if ttl < now - seen then expire now ttl rest (keys.erase key) else ((seen, key) :: rest, keys)

/-- `check_and_store` at an instant. -/
def checkAndStore (c : ReplayCache κ) (key : κ) (now : Instant) :
    Except ReplayError Unit × ReplayCache κ :=
  let (expiry, keys) := expire now c.ttl c.expiry c.keys
  if key ∈ keys then (.error .replayed, { c with keys, expiry })
  else if c.capacity ≤ keys.card then (.error .full, { c with keys, expiry })
  else (.ok (), { c with keys := insert key keys, expiry := expiry ++ [(now, key)] })

/-! ### What a cache remembers -/

/-- The cache after the accesses up to `now`, of which those in `log` stored a key: what it has
dropped of the log was older than `ttl`, and the rest it still holds. -/
structure Records (c : ReplayCache κ) (log : List (Instant × κ)) (now : Instant) : Prop where
  dropped : ∃ old, log = old ++ c.expiry ∧ ∀ e ∈ old, e.1 + c.ttl < now
  keys : c.keys = (c.expiry.map Prod.snd).toFinset
  nodup : (c.expiry.map Prod.snd).Nodup

theorem records_new {ttl capacity now : ℕ} : (new ttl capacity : ReplayCache κ).Records [] now :=
  ⟨⟨[], rfl, by simp⟩, rfl, List.nodup_nil⟩

theorem Records.later {c : ReplayCache κ} {log : List (Instant × κ)} {now later : Instant}
    (h : c.Records log now) (hle : now ≤ later) : c.Records log later := by
  obtain ⟨old, hlog, hold⟩ := h.dropped
  exact ⟨⟨old, hlog, fun e he => (hold e he).trans_le hle⟩, h.keys, h.nodup⟩

theorem expire_spec {now : Instant} {ttl : ℕ} {expiry : List (Instant × κ)} {keys : Finset κ}
    (hkeys : keys = (expiry.map Prod.snd).toFinset) (hnodup : (expiry.map Prod.snd).Nodup) :
    ∃ old rest, expiry = old ++ rest ∧ (∀ e ∈ old, e.1 + ttl < now) ∧
      expire now ttl expiry keys = (rest, (rest.map Prod.snd).toFinset) := by
  induction expiry generalizing keys with
  | nil => exact ⟨[], [], rfl, by simp, by rw [hkeys]; rfl⟩
  | cons e expiry ih =>
    obtain ⟨seen, key⟩ := e
    rw [List.map_cons, List.nodup_cons] at hnodup
    unfold expire
    by_cases hold : ttl < now - seen
    · have herase : keys.erase key = (expiry.map Prod.snd).toFinset := by
        rw [hkeys, List.map_cons, List.toFinset_cons,
          Finset.erase_insert (by simpa using hnodup.1)]
      obtain ⟨old, rest, hsplit, hdropped, hrest⟩ := ih herase hnodup.2
      refine ⟨(seen, key) :: old, rest, by rw [hsplit]; rfl, ?_, by rw [if_pos hold, hrest]⟩
      intro e he
      rcases List.mem_cons.mp he with rfl | he
      · exact Nat.add_comm seen ttl ▸ Nat.add_lt_of_lt_sub hold
      · exact hdropped e he
    · exact ⟨[], (seen, key) :: expiry, rfl, by simp, by rw [if_neg hold, hkeys]⟩

section

variable {c c' : ReplayCache κ} {log : List (Instant × κ)} {last now : Instant} {key : κ}

theorem Records.expire (h : c.Records log last) (hle : last ≤ now) :
    ∃ rest, expire now c.ttl c.expiry c.keys = (rest, (rest.map Prod.snd).toFinset) ∧
      { c with keys := (rest.map Prod.snd).toFinset, expiry := rest }.Records log now := by
  obtain ⟨old, hlog, hold⟩ := (h.later hle).dropped
  obtain ⟨dropped, rest, hsplit, hdropped, hrest⟩ := @expire_spec κ _ now c.ttl _ _ h.keys h.nodup
  refine ⟨rest, hrest, ⟨old ++ dropped, by rw [hlog, hsplit, List.append_assoc], ?_⟩, rfl, ?_⟩
  · intro e he
    exact (List.mem_append.mp he).elim (hold e) (hdropped e)
  · have hnodup := h.nodup
    rw [hsplit, List.map_append] at hnodup
    exact hnodup.of_append_right

theorem Records.checkAndStore_ok (h : c.Records log last) (hle : last ≤ now)
    (hok : c.checkAndStore key now = (.ok (), c')) :
    (∀ seen, (seen, key) ∈ log → seen + c.ttl < now) ∧ c'.Records (log ++ [(now, key)]) now ∧
      c'.ttl = c.ttl := by
  obtain ⟨rest, hrest, hrecords⟩ := h.expire hle
  unfold checkAndStore at hok
  rw [hrest] at hok
  dsimp only at hok
  split at hok
  · cases hok
  rename_i hnew
  split at hok
  · cases hok
  cases hok
  obtain ⟨old, hlog, hold⟩ := hrecords.dropped
  have hfresh : key ∉ rest.map Prod.snd := by simpa using hnew
  refine ⟨?_, ⟨⟨old, by rw [hlog, List.append_assoc], hold⟩, ?_, ?_⟩, rfl⟩
  · intro seen hseen
    rw [hlog] at hseen
    rcases List.mem_append.mp hseen with hseen | hseen
    · exact hold _ hseen
    · exact absurd (List.mem_map.mpr ⟨_, hseen, rfl⟩) hfresh
  · rw [List.map_append, List.toFinset_append, Finset.union_comm]
    rfl
  · rw [List.map_append]
    exact hrecords.nodup.append (by simp) (by simpa using hfresh)

theorem Records.checkAndStore_error {e : ReplayError} (h : c.Records log last) (hle : last ≤ now)
    (herr : c.checkAndStore key now = (.error e, c')) : c'.Records log now ∧ c'.ttl = c.ttl := by
  obtain ⟨rest, hrest, hrecords⟩ := h.expire hle
  unfold checkAndStore at herr
  rw [hrest] at herr
  dsimp only at herr
  split at herr
  · cases herr
    exact ⟨hrecords, rfl⟩
  · split at herr
    · cases herr
      exact ⟨hrecords, rfl⟩
    · cases herr

end

end ReplayCache

end Aerion.Net
