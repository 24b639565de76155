import Aerion.Core.Credentials
import Aerion.Lib.Memo
import Aerion.Sudoku.Handshake

/-!
# The server's credentials

`CredentialCache` of `src/sudoku.rs`, next to a core whose users are replaced
while the listener runs. A snapshot drops the entries of credentials the core
no longer knows, derives those it does not have and keeps them, and stops at
the first credential it cannot derive. The curve, the key derivation and
`Table::new` are parameters; the order of the credentials, which the core
keeps in a hash map, is an input of each snapshot.
-/

namespace Aerion.Sudoku

open Lib Net Outcome

/-- The curve operations of `sudoku_key_seed`. -/
structure Curve where
  Scalar : Type
  /-- `decompress` and `compress` again. -/
  point : Bytes → Option Bytes
  canonical : Bytes → Option Scalar
  add : Scalar → Scalar → Scalar
  /-- The compressed multiple of the base point. -/
  base : Scalar → Bytes

def sudokuKeySeed (curve : Curve) (key : String) : Outcome String := do
  let key := trim key
  ensure (key ≠ "") "Sudoku key is empty"
  match hexDecode key.toList with
  | none => return key
  | some raw =>
    if raw.length = 32 then
      match curve.point raw with
      | some point => return hexEncode point
      | none =>
        match curve.canonical raw with
        | some scalar => return hexEncode (curve.base scalar)
        | none => return key
    else if raw.length = 64 then
      let r ← need (curve.canonical (raw.take 32)) "invalid Sudoku split scalar"
      let k ← need (curve.canonical (raw.drop 32)) "invalid Sudoku split scalar"
      return hexEncode (curve.base (curve.add r k))
    else return key

structure SudokuOptions where
  tableType : String
  customTable : String
  customTables : List String

def SudokuOptions.patterns (o : SudokuOptions) : List String :=
  if o.customTables = [] then [o.customTable] else o.customTables

/-- A listener's options, and what its credentials are derived with. -/
structure Derivation where
  options : SudokuOptions
  curve : Curve
  pskBases : String → Outcome (Bytes × Bytes)
  newTable : String → String → String → Outcome Table

namespace Derivation

def tables (d : Derivation) (seed : String) : Outcome (List Table) :=
  d.options.patterns.mapM (d.newTable seed d.options.tableType)

def credential (d : Derivation) (value : String) : Outcome Credential := do
  let seed ← sudokuKeySeed d.curve value
  let bases ← d.pskBases seed
  let tables ← d.tables seed
  return ⟨value, seed, bases.1, bases.2, tables⟩

theorem credential_value {d : Derivation} {value : String} {c : Credential}
    (h : d.credential value = .ok c) : c.value = value := by
  obtain ⟨seed, -, h⟩ := bind_ok.mp h
  obtain ⟨bases, -, h⟩ := bind_ok.mp h
  obtain ⟨tables, -, h⟩ := bind_ok.mp h
  cases h
  rfl

end Derivation

abbrev CredentialCache := Map String Credential

/-- `snapshot`, on the known credentials in the order the core gives them. -/
def CredentialCache.snapshot (d : Derivation) (values : List String) (cache : CredentialCache) :
    Outcome (List Credential) × CredentialCache :=
  memoized d.credential values (retain (fun value _ => value ∈ values) cache)

/-! ### A listener and its core -/

/-- The calls of the core in progress, and the listener's cache. -/
structure CredentialHistory where
  core : Core.System
  cache : CredentialCache

inductive CredentialEvent where
  | core (move : Move Core.Call)
  -- a snapshot, with the order in which the hash map gives its keys
  | connection (values : List String)

namespace CredentialHistory

def known (s : CredentialHistory) : List String := s.core.shared.core.knownCredentials

variable (d : Derivation) (passwordHash : String → Bytes)

def step (s : CredentialHistory) : CredentialEvent → Option CredentialHistory
  | .core move => ((Core.machine passwordHash).step s.core move).map fun core => { s with core }
  | .connection values =>
    if values.Perm s.known then some { s with cache := (s.cache.snapshot d values).2 } else none

variable {d} {passwordHash}

theorem snapshot_fresh {cache : CredentialCache} (h : Fresh d.credential cache) (values : List String) :
    Fresh d.credential (cache.snapshot d values).2 :=
  (h.retain _).memoized values

theorem snapshot_fst {cache : CredentialCache} (h : Fresh d.credential cache) (values : List String) :
    (cache.snapshot d values).1 = values.mapM d.credential :=
  (h.retain _).memoized_fst values

theorem snapshot_mem {cache : CredentialCache} {values : List String} {value : String} {c : Credential}
    (h : (cache.snapshot d values).2.lookup value = some c) : value ∈ values := by
  rcases memoized_mem h with hmem | ⟨c', hlookup⟩
  · exact hmem
  · exact of_decide_eq_true (lookup_retain.mp hlookup).2

theorem fresh_run {s s' : CredentialHistory} {events : List CredentialEvent}
    (h : Steps (step d passwordHash) always s events s') (hs : Fresh d.credential s.cache) :
    Fresh d.credential s'.cache := by
  refine h.invariant (fun s => Fresh d.credential s.cache) ?_ hs
  intro s e s' hs _ hstep
  cases e with
  | core move =>
    obtain ⟨core, -, rfl⟩ := Option.map_eq_some_iff.mp hstep
    exact hs
  | connection values =>
    obtain ⟨-, hstep⟩ := Option.ite_none_right_eq_some.mp hstep
    cases hstep
    exact snapshot_fresh hs values

/-- After any history of core calls and snapshots, failed ones included, a
snapshot of the known credentials gives what deriving every one of them anew
gives, error or not: if it succeeds, one entry for each known credential, in
their order. The cache then has entries for known credentials only, each as
it would be derived anew. -/
theorem snapshot_transparent {core : Core.System} {events : List CredentialEvent}
    {s : CredentialHistory} {values : List String}
    (h : Steps (step d passwordHash) always ⟨core, ∅⟩ events s) (hvalues : values.Perm s.known) :
    (s.cache.snapshot d values).1 = values.mapM d.credential ∧
    (∀ entries, (s.cache.snapshot d values).1 = .ok entries →
      entries.map (·.value) = values ∧ (entries.map (·.value)).Nodup ∧
      (∀ value, value ∈ entries.map (·.value) ↔ value ∈ s.known) ∧
      ∀ c ∈ entries, d.credential c.value = .ok c) ∧
    ∀ value c, (s.cache.snapshot d values).2.lookup value = some c →
      value ∈ s.known ∧ d.credential value = .ok c := by
  have hs : Fresh d.credential s.cache := fresh_run h .empty
  refine ⟨snapshot_fst hs values, fun entries hentries => ?_, fun value c hlookup => ?_⟩
  · rw [snapshot_fst hs values] at hentries
    have hall := mapM_ok.mp hentries
    have hnames : entries.map (·.value) = values := by
      clear hentries hvalues h
      induction hall with
      | nil => rfl
      | cons hc _ ih => rw [List.map_cons, ih, Derivation.credential_value hc]
    rw [hnames]
    refine ⟨rfl, ?_, fun value => hvalues.mem_iff, fun c hc => ?_⟩
    · exact hvalues.nodup_iff.mpr s.core.shared.core.credentials.users.keys_nodup
    · obtain ⟨value, -, hvalue⟩ := mem_of_mapM_ok hentries hc
      rwa [Derivation.credential_value hvalue]
  · exact ⟨hvalues.mem_iff.mp (snapshot_mem hlookup), snapshot_fresh hs values value c hlookup⟩

def plainDerivation : Derivation where
  options := ⟨"", "", []⟩
  curve := ⟨Unit, fun _ => none, fun _ => none, fun _ _ => (), fun _ => []⟩
  pskBases := fun _ => .ok ([1], [2])
  newTable := fun _ _ _ =>
    .ok ⟨[], [], ⟨fun _ => 0, fun _ => none, [], [], 0⟩, ⟨fun _ => 0, fun _ => none, [], [], 0⟩, 0⟩

def userAdded : List CredentialEvent :=
  (.call (.replaceUsers [.password "alice" "secret"]) :: Core.runs 0 5).map .core ++
    [.connection ["secret"]]

theorem added_user_snapshot : ∃ s,
    Steps (step plainDerivation Core.textHash) always ⟨.empty, ∅⟩ userAdded s ∧
      s.known = ["secret"] ∧ (s.cache.lookup "secret").isSome ∧
      (s.cache.snapshot plainDerivation ["secret"]).1 = ["secret"].mapM plainDerivation.credential := by
  obtain ⟨s, hrun, hs⟩ := steps_of_replay
    (show (replay (step plainDerivation Core.textHash) ⟨.empty, ∅⟩ userAdded).any (fun s =>
      s.known = ["secret"] ∧ (s.cache.lookup "secret").isSome) = true by decide +kernel)
  obtain ⟨hknown, hcached⟩ := of_decide_eq_true hs
  refine ⟨s, hrun, hknown, hcached, (snapshot_transparent hrun ?_).1⟩
  rw [hknown]

end CredentialHistory

end Aerion.Sudoku
