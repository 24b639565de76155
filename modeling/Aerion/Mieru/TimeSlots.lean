import Aerion.Mieru.Wire

/-!
# Time slots

A key belongs to a user and to a slot of two minutes; at any time the keys of
the slot, of the one before and of the one after are tried. The cache of keys
holds nothing but keys of the slots they are looked up for.
-/

namespace Aerion.Mieru

open Lib Aerion.Net

section

variable (crypto : Crypto)

def slotSalt (slot : ℕ) : Bytes := crypto.sha256 (toBe 8 (min (slot * keyRefreshSecs) (wordSize - 1)))

def slotKey (hashedPassword : Bytes) (slot : ℕ) : Outcome Bytes :=
  pbkdf2HmacSha256 crypto hashedPassword (slotSalt crypto slot) keyIter keyLen

/-- The keys of the slots around an epoch. -/
def SlotKeys (hashedPassword : Bytes) (epoch : ℕ) (keys : List Bytes) : Prop :=
  List.Forall₂ (fun slot key => slotKey crypto hashedPassword slot = .ok key) (keyEpochs epoch) keys

/-- The cache holds the keys and the salts of the epochs it names. -/
structure KeyCache.Genuine (cache : KeyCache) : Prop where
  entries : ∀ password keys, cache.entries.lookup password = some keys →
    SlotKeys crypto password keys.epoch keys.keys
  salts : ∀ epoch salts, cache.salts = some (epoch, salts) → salts = saltFromEpoch crypto epoch

end

section

variable {crypto : Crypto}

theorem KeyCache.genuine_empty : KeyCache.empty.Genuine crypto where
  entries _ _ h := by cases h
  salts _ _ h := by cases h

theorem SlotKeys.reuse {password key : Bytes} {old : TimeKeys} {slot : ℕ}
    (h : SlotKeys crypto password old.epoch old.keys) (hreuse : old.reuse slot = some key) :
    slotKey crypto password slot = .ok key := by
  obtain ⟨i, hi, hkey⟩ := Option.bind_eq_some_iff.mp hreuse
  obtain ⟨hlt, hslot, -⟩ := List.idxOf?_eq_some_iff.mp hi
  obtain ⟨hlt', hget⟩ := List.getElem?_eq_some_iff.mp hkey
  have hpair := (List.forall₂_iff_get.mp h).2 i hlt hlt'
  simp only [List.get_eq_getElem] at hpair
  rwa [hslot, hget] at hpair

theorem deriveTimeKeys_genuine {password : Bytes} {epoch : ℕ} {previous : Option TimeKeys}
    {keys : List Bytes}
    (hprevious : ∀ old ∈ previous, SlotKeys crypto password old.epoch old.keys)
    (h : deriveTimeKeys crypto password epoch (saltFromEpoch crypto epoch) previous = .ok keys) :
    SlotKeys crypto password epoch keys := by
  have hzip : (keyEpochs epoch).zip (saltFromEpoch crypto epoch) =
      (keyEpochs epoch).map fun slot => (slot, slotSalt crypto slot) := rfl
  rw [deriveTimeKeys, hzip] at h
  refine (List.forall₂_map_left_iff.mp (Outcome.mapM_ok.mp h)).imp fun slot key hkey => ?_
  dsimp only at hkey
  split at hkey
  · rename_i reused hreused
    cases hkey
    obtain ⟨old, hold, hreuse⟩ := Option.bind_eq_some_iff.mp hreused
    exact (hprevious old hold).reuse hreuse
  · exact hkey

theorem KeyCache.Genuine.insert {cache cache' : KeyCache} {password : Bytes} {keys : TimeKeys}
    (h : cache.Genuine crypto) (hkeys : SlotKeys crypto password keys.epoch keys.keys)
    (hinsert : cache.insert password keys = .ok cache') : cache'.Genuine crypto := by
  have hput (entries : Map Bytes TimeKeys)
      (hentries : ∀ p k, entries.lookup p = some k → SlotKeys crypto p k.epoch k.keys) :
      ∀ p k, (entries.insert password keys).lookup p = some k → SlotKeys crypto p k.epoch k.keys := by
    intro p k hk
    rw [lookup_insert_ite] at hk
    split at hk
    · rename_i hp
      cases hk
      exact hp ▸ hkeys
    · exact hentries p k hk
  unfold KeyCache.insert at hinsert
  split at hinsert
  · cases hinsert
    exact ⟨hput _ h.entries, h.salts⟩
  split at hinsert
  · split at hinsert
    · cases hinsert
    · rename_i oldest rest _
      cases hinsert
      refine ⟨hput _ fun p k hk => ?_, h.salts⟩
      rw [lookup_erase_ite] at hk
      split at hk
      · cases hk
      · exact h.entries p k hk
  · cases hinsert
    exact ⟨hput _ h.entries, h.salts⟩

end

end Aerion.Mieru
