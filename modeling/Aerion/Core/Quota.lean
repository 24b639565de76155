import Aerion.Core.Phases

/-!
# Traffic accounting

Every record call reserves its bytes on the total of its user under the quota
and adds them to a direction counter later. `Balanced` ties the three
counters together in every reachable state: what is reserved and not yet
added is exactly what the record calls under way still owe.
-/

namespace Aerion.Core

open Aerion.Net Lib

/-! ### What is reserved and not yet added -/

/-- The bytes an action ahead will add for the user behind `ref`. -/
def Action.owes (ref : Nat) : Action → Nat
  | .addUpload session bytes | .loadUpload session bytes | .addDownload session bytes _ =>
    if session.user = ref then bytes else 0
  | _ => 0

/-- The actions between a reservation and its counter update, or either of them. -/
def Action.accounts : Action → Bool
  | .reserve .. | .addUpload .. | .loadUpload .. | .addDownload .. => true
  | _ => false

def UserState.counters (u : UserState) : Nat × Nat × Nat := (u.upload, u.download, u.total)

/-- The counters behind `ref`. -/
def CoreInner.countersAt (c : CoreInner) (ref : Nat) : Option (Nat × Nat × Nat) :=
  (c.heap[ref]?).map UserState.counters

/-- `owed` bytes are still to be added to reach the total; nothing is owed for no user. -/
def Balance (owed : Nat) : Option (Nat × Nat × Nat) → Prop
  | some (upload, download, total) => upload + download + owed = total ∧ total < 2 ^ 64
  | none => owed = 0

def Balanced (s : System) : Prop :=
  ∀ ref, Balance (s.owed (Action.owes ref)) (s.shared.core.countersAt ref)

theorem owes_of_not_accounts {a : Action} (h : a.accounts = false) (ref : Nat) : a.owes ref = 0 := by
  cases a <;> first | rfl | cases h

theorem Spawns.owes {a b : Action} (h : Spawns a b) (ha : a.accounts = false) (ref : Nat) :
    b.owes ref = 0 := by
  cases h <;> first | rfl | cases ha

theorem countersAt_modify (c : CoreInner) {f : UserState → UserState}
    {g : Nat × Nat × Nat → Nat × Nat × Nat} (h : ∀ u, (f u).counters = g u.counters)
    (r ref : Nat) : (c.modifyUser r f).countersAt ref =
      if r = ref then (c.countersAt ref).map g else c.countersAt ref := by
  unfold CoreInner.countersAt
  simp only [CoreInner.modifyUser_heap, List.getElem?_modify]
  split <;> cases c.heap[ref]? <;> simp [h]

theorem UserStep.counters {c : CoreInner} {a : Action} {ref : Nat} {f : UserState → UserState}
    (h : UserStep c a ref f) (ha : a.accounts = false) (u : UserState) :
    (f u).counters = u.counters := by
  cases h with
  | rate =>
    rename_i direction _
    cases direction <;> rfl
  | reserve | upload | download => cases ha
  | _ => rfl

theorem exec_countersAt (w : World) (call : Call) {a : Action} (ha : a.accounts = false)
    (ref : Nat) : (w.exec call a).shared.core.countersAt ref = w.core.countersAt ref ∨
      w.core.countersAt ref = none ∧
        (w.exec call a).shared.core.countersAt ref = some (0, 0, 0) := by
  rcases w.exec_heap call a with h | ⟨r, f, hf, h⟩ | ⟨p, entries, new, -, hfresh, -, h⟩
  · left
    rw [CoreInner.countersAt, CoreInner.countersAt, h]
  · left
    have := countersAt_modify w.core (g := id) (hf.counters ha) r ref
    rw [CoreInner.countersAt, h]
    simpa [CoreInner.countersAt] using this
  · unfold CoreInner.countersAt
    rw [h]
    by_cases hlt : ref < w.core.heap.length
    · exact .inl (by rw [List.getElem?_append_left hlt])
    · rw [List.getElem?_append_right (by omega)]
      cases hu : new[ref - w.core.heap.length]? with
      | none => exact .inl (by rw [List.getElem?_eq_none (by omega)])
      | some u =>
        obtain ⟨-, -, -, h1, h2, h3⟩ := hfresh u (List.mem_of_getElem? hu)
        refine .inr ⟨by rw [List.getElem?_eq_none (by omega)]; rfl, ?_⟩
        simp [UserState.counters, h1, h2, h3]

theorem Balance.of_quiet {n : Nat} {before after : Option (Nat × Nat × Nat)}
    (h : Balance n before) (hq : after = before ∨ before = none ∧ after = some (0, 0, 0)) :
    Balance n after := by
  rcases hq with rfl | ⟨rfl, rfl⟩
  · exact h
  · rw [show n = 0 from h]
    exact ⟨rfl, by decide⟩

-- Bytes that are owed fit below the total, so adding them does not wrap.
theorem Balance.add {n n' bytes : Nat} {c : Option (Nat × Nat × Nat)} (h : Balance n c)
    (hn : n' + bytes = n) {g : Nat × Nat × Nat → Nat × Nat × Nat}
    (hg : ∀ x, x.1 + x.2.1 + bytes < 2 ^ 64 →
      (g x).1 + (g x).2.1 = x.1 + x.2.1 + bytes ∧ (g x).2.2 = x.2.2) : Balance n' (c.map g) := by
  cases c with
  | none =>
    simp only [Balance, Option.map_none] at h ⊢
    omega
  | some x =>
    have h : x.1 + x.2.1 + n = x.2.2 ∧ x.2.2 < 2 ^ 64 := h
    have hx := hg x (by omega)
    show (g x).1 + (g x).2.1 + n' = (g x).2.2 ∧ (g x).2.2 < 2 ^ 64
    omega

theorem UserState.reserves_ok {u : UserState} {bytes : Nat} (h : u.reserves bytes = true) :
    u.total + bytes < 2 ^ 64 ∧ ∀ quota, u.limits.quotaBytes = some quota →
      u.total + bytes ≤ quota := by
  simp only [UserState.reserves, Bool.and_eq_true, decide_eq_true_eq] at h
  refine ⟨h.1, fun quota hq => ?_⟩
  simpa [hq] using h.2

section
variable (passwordHash : String → Bytes)

theorem balance_exec (w : World) (call : Call) (a : Action) (ref n n' : Nat)
    (h : Balance n (w.core.countersAt ref))
    (hn : n' + a.owes ref = n + ((w.exec call a).todo.flatten.map (Action.owes ref)).sum) :
    Balance n' ((w.exec call a).shared.core.countersAt ref) := by
  by_cases ha : a.accounts = false
  · have hspawn : ((w.exec call a).todo.flatten.map (Action.owes ref)).sum = 0 := by
      rw [List.sum_eq_zero_iff]
      intro x hx
      obtain ⟨b, hb, rfl⟩ := List.mem_map.mp hx
      exact ((w.exec_next call a).spawns hb).owes ha ref
    rw [owes_of_not_accounts ha, hspawn] at hn
    rw [show n' = n by omega]
    exact h.of_quiet (exec_countersAt w call ha ref)
  cases a with
  | reserve direction session bytes =>
    rcases w.exec_reserve call direction session bytes with ⟨e, he⟩ | ⟨u, hu, hres, he⟩
    · rw [he] at hn ⊢
      rw [show n' = n by simpa [World.fail, World.reply, Action.owes] using hn]
      exact h
    · rw [he] at hn ⊢
      have hat : w.core.countersAt session.user = some u.counters := by
        rw [CoreInner.countersAt, hu]; rfl
      have hsum : n' = n + if session.user = ref then bytes else 0 := by
        cases direction <;> simpa [World.onUser, World.proceed, Action.owes] using hn
      simp only [World.onUser, World.proceed, World.withCore]
      rw [countersAt_modify _ (g := fun c => (c.1, c.2.1, c.2.2 + bytes)) fun _ => rfl]
      split
      · rename_i heq
        subst heq
        rw [if_pos rfl] at hsum
        rw [hat] at h ⊢
        obtain ⟨h1, -⟩ := h
        have := (UserState.reserves_ok hres).1
        refine ⟨?_, this⟩
        show u.upload + u.download + n' = u.total + bytes
        omega
      · rename_i hne
        rw [if_neg hne] at hsum
        rw [hsum]
        exact h
  | addUpload session bytes =>
    have hsum : n' + (if session.user = ref then bytes else 0) = n := hn
    simp only [World.exec, World.onUser, World.proceed, World.withCore]
    rw [countersAt_modify _ (g := fun c => ((c.1 + bytes) % 2 ^ 64, c.2.1, c.2.2)) fun _ => rfl]
    split at hsum
    · rename_i heq
      rw [if_pos heq]
      exact h.add hsum fun x hx => ⟨by dsimp only; omega, rfl⟩
    · rename_i hne
      rw [if_neg hne, show n' = n by omega]
      exact h
  | loadUpload session bytes =>
    have hsum : n' + (if session.user = ref then bytes else 0) =
        n + if session.user = ref then bytes else 0 := by
      simpa [World.exec, World.proceed, Action.owes] using hn
    rw [show n' = n by omega]
    exact h
  | addDownload session bytes upload =>
    have hsum : n' + (if session.user = ref then bytes else 0) = n := hn
    simp only [World.exec, World.onUser, World.proceed, World.withCore]
    rw [countersAt_modify _ (g := fun c => (c.1, (c.2.1 + bytes) % 2 ^ 64, c.2.2)) fun _ => rfl]
    split at hsum
    · rename_i heq
      rw [if_pos heq]
      exact h.add hsum fun x hx => ⟨by dsimp only; omega, rfl⟩
    · rename_i hne
      rw [if_neg hne, show n' = n by omega]
      exact h
  | _ => exact absurd rfl ha

theorem balanced_step {s s' : System} {l : Move Call} (h : (machine passwordHash).step s l = some s')
    (hb : Balanced s) : Balanced s' := by
  intro ref
  rcases step_cases passwordHash h with ⟨c, z, w, -, hz, hcore, -, -, rfl⟩ |
    ⟨i, k, t, a, rest, -, ht, hp, rfl⟩ | ⟨i, t, direction, session, bytes, -, ht, htodo, rfl⟩
  · have hzero : z.owes ref = 0 := by cases hz <;> rfl
    rw [Pool.owed_call]
    simpa [hcore, hzero] using hb ref
  · exact balance_exec s.shared t.call a ref _ _ (hb ref) (Pool.owed_run _ ht hp _ _)
  · have := Pool.owed_abandon (Action.owes ref) ht htodo
    rw [show Action.owes ref (.waitLimiter direction session bytes) = 0 from rfl,
      Nat.add_zero] at this
    rw [this]
    exact hb ref

theorem balanced {ok : System → Move Call → Prop} {ls : List (Move Call)} {s : System}
    (h : Steps (machine passwordHash).step ok System.empty ls s) : Balanced s :=
  h.invariant Balanced (fun _ _ _ hb _ hstep => balanced_step passwordHash hstep hb) fun _ => rfl

/-! ### One step -/

/-- What a step may do to the counters of a user: raise them, and the total
only within the quota in force. -/
structure CountersGrow (u u' : UserState) : Prop where
  upload : u.upload ≤ u'.upload
  download : u.download ≤ u'.download
  total : u.total ≤ u'.total
  quota : u.total < u'.total → ∀ quota, u.limits.quotaBytes = some quota → u'.total ≤ quota

theorem CountersGrow.of_eq {u u' : UserState} (h : u'.counters = u.counters) : CountersGrow u u' := by
  simp only [UserState.counters, Prod.mk.injEq] at h
  obtain ⟨h1, h2, h3⟩ := h
  exact ⟨h1.ge, h2.ge, h3.ge, fun hlt => absurd hlt (by omega)⟩

theorem grow_modify {heap : List UserState} {r : Nat} {f : UserState → UserState}
    (hf : ∀ u, heap[r]? = some u → CountersGrow u (f u)) {ref : Nat} {u : UserState}
    (hu : heap[ref]? = some u) : ∃ u', (heap.modify r f)[ref]? = some u' ∧ CountersGrow u u' := by
  by_cases hr : r = ref
  · subst hr
    exact ⟨f u, by simp [hu], hf u hu⟩
  · exact ⟨u, by simp [hr, hu], .of_eq rfl⟩

theorem exec_grow {s : System} (hb : Balanced s) {call : Call} {a : Action} (ha : s.Pending a)
    {ref : Nat} {u : UserState} (hu : s.shared.core.heap[ref]? = some u) :
    ∃ u', (s.shared.exec call a).shared.core.heap[ref]? = some u' ∧ CountersGrow u u' := by
  have hfits : ∀ r v, s.shared.core.heap[r]? = some v →
      v.upload + v.download + a.owes r ≤ v.total ∧ v.total < 2 ^ 64 := by
    intro r v hv
    have hbal := hb r
    rw [CoreInner.countersAt, hv] at hbal
    obtain ⟨h1, h2⟩ := hbal
    have := Pool.le_owed (Action.owes r) ha
    exact ⟨by omega, h2⟩
  rcases s.shared.exec_heap call a with h | ⟨r, f, hf, h⟩ | ⟨p, entries, new, -, -, -, h⟩
  · exact ⟨u, by rw [h, hu], .of_eq rfl⟩
  · rw [h]
    refine grow_modify (fun v hv => ?_) hu
    by_cases hacc : a.accounts = false
    · exact .of_eq (hf.counters hacc v)
    cases hf with
    | reserve hw hres =>
      rw [hv] at hw
      cases hw
      exact ⟨le_rfl, le_rfl, Nat.le_add_right _ _, fun _ => (UserState.reserves_ok hres).2⟩
    | upload =>
      rename_i session bytes
      have := hfits session.user v hv
      simp only [Action.owes, ↓reduceIte] at this
      have hmod : (v.upload + bytes) % 2 ^ 64 = v.upload + bytes := Nat.mod_eq_of_lt (by omega)
      refine ⟨?_, le_rfl, le_rfl, fun hlt => absurd hlt (lt_irrefl _)⟩
      simp only [UserState.addUpload, hmod]
      omega
    | download =>
      rename_i session bytes upload
      have := hfits session.user v hv
      simp only [Action.owes, ↓reduceIte] at this
      have hmod : (v.download + bytes) % 2 ^ 64 = v.download + bytes := Nat.mod_eq_of_lt (by omega)
      refine ⟨le_rfl, ?_, le_rfl, fun hlt => absurd hlt (lt_irrefl _)⟩
      simp only [UserState.addDownload, hmod]
      omega
    | _ => exact absurd rfl hacc
  · rw [h, List.getElem?_append_left (lt_of_getElem? hu)]
    exact ⟨u, hu, .of_eq rfl⟩

theorem step_grow {s s' : System} {l : Move Call} (hb : Balanced s)
    (h : (machine passwordHash).step s l = some s') {ref : Nat} {u : UserState}
    (hu : s.shared.core.heap[ref]? = some u) :
    ∃ u', s'.shared.core.heap[ref]? = some u' ∧ CountersGrow u u' := by
  rcases step_cases passwordHash h with ⟨c, z, w, -, -, hcore, -, -, rfl⟩ |
    ⟨i, k, t, a, rest, -, ht, hp, rfl⟩ | ⟨i, t, direction, session, bytes, -, ht, htodo, rfl⟩
  · exact ⟨u, by rw [hcore, hu], .of_eq rfl⟩
  · exact exec_grow hb (Pool.pending_taken ht hp) hu
  · exact ⟨u, hu, .of_eq rfl⟩

theorem steps_grow {ok : System → Move Call → Prop} {ls : List (Move Call)} {s s' : System}
    (h : Steps (machine passwordHash).step ok s ls s') (hb : Balanced s) {ref : Nat} {u : UserState}
    (hu : s.shared.core.heap[ref]? = some u) :
    ∃ u', s'.shared.core.heap[ref]? = some u' ∧ u.upload ≤ u'.upload ∧
      u.download ≤ u'.download ∧ u.total ≤ u'.total := by
  induction h generalizing u with
  | nil => exact ⟨u, hu, le_rfl, le_rfl, le_rfl⟩
  | cons _ hstep _ ih =>
    obtain ⟨v, hv, hgrow⟩ := step_grow passwordHash hb hstep hu
    obtain ⟨u', hu', h1, h2, h3⟩ := ih (balanced_step passwordHash hstep hb) hv
    exact ⟨u', hu', hgrow.upload.trans h1, hgrow.download.trans h2, hgrow.total.trans h3⟩

/-! ### Failing calls -/

/-- A step that changed the counters of an existing state. -/
def Counts (s s' : System) : Prop :=
  ∃ ref c, s.shared.core.countersAt ref = some c ∧ s'.shared.core.countersAt ref ≠ some c

/-- A task past its reservation. -/
def Settled (t : Task Call Action Reply) : Prop :=
  (t.reply = none ∨ t.reply = some .done) ∧ ∀ a ∈ t.pending, a.settled = true

theorem Settled.after {w : World} {t : Task Call Action Reply} {k : Nat} {a : Action}
    {rest : List (List Action)} (h : Settled t) (hp : pick t.todo k = some (a, rest)) :
    Settled (t.after (w.exec t.call a) rest) := by
  have ha := h.2 a ((pick_perm hp).mem_iff.mpr (by simp))
  obtain ⟨htodo, hr⟩ := (w.exec_next t.call a).settled ha
  refine ⟨?_, fun b hb => ?_⟩
  · rw [Task.after]
    rcases h.1 with hn | hd
    · rw [hn]; exact hr
    · rw [hd]; exact .inr rfl
  · simp only [Task.after, Task.pending, List.flatten_append, List.mem_append] at hb
    rcases hb with hb | hb
    · exact htodo b hb
    · exact h.2 b ((pick_perm hp).mem_iff.mpr (by simp [hb]))

theorem settled_steps {ok : System → Move Call → Prop} {ls : List (Move Call)} {s s' : System}
    (h : Steps (machine passwordHash).step ok s ls s') {i : Nat} {t : Task Call Action Reply}
    (ht : s.tasks[i]? = some t) (hs : Settled t) : ∃ t', s'.tasks[i]? = some t' ∧ Settled t' := by
  induction h generalizing t with
  | nil => exact ⟨t, ht, hs⟩
  | cons _ hstep _ ih =>
    rcases (machine passwordHash).step_task hstep ht with ht' | ⟨k, a, rest, hp, ht'⟩ |
      ⟨a, -, -, ht'⟩
    · exact ih ht' hs
    · exact ih ht' (hs.after hp)
    · exact ih ht' ⟨hs.1, by simp [Task.pending]⟩

theorem settled_of_counts {s s' : System} {i k : Nat}
    (halone : ∀ t ∈ s.tasks, RecordAlone t)
    (h : (machine passwordHash).step s (.run i k) = some s') (hc : Counts s s') :
    ∃ t', s'.tasks[i]? = some t' ∧ Settled t' := by
  rcases step_cases passwordHash h with ⟨c, z, w, hl, -⟩ |
    ⟨i', k', t, a, rest, hl, ht, hp, rfl⟩ | ⟨i', t, direction, session, bytes, hl, -⟩
  · cases hl
  · cases hl
    obtain ⟨ref, c, hat, hat'⟩ := hc
    have hlt := lt_of_getElem? ht
    refine ⟨t.after (s.shared.exec t.call a) rest, by simp [hlt], ?_⟩
    have hacc : a.accounts ≠ false := by
      intro hacc
      rcases exec_countersAt s.shared t.call hacc ref with heq | ⟨hnone, -⟩
      · exact hat' (by rw [← hat, ← heq])
      · rw [hnone] at hat
        cases hat
    have hrec : a.records = true := by cases a <;> first | rfl | exact absurd rfl hacc
    obtain ⟨hpend, hreply⟩ := halone t (List.mem_of_getElem? ht) a
      ((pick_perm hp).mem_iff.mpr (by simp)) hrec
    obtain ⟨-, hrest⟩ := pick_alone hpend hp
    cases a with
    | reserve direction session bytes =>
      rcases s.shared.exec_reserve t.call direction session bytes with ⟨e, he⟩ | ⟨u, -, -, he⟩
      · refine absurd ?_ hat'
        show (s.shared.exec t.call (.reserve direction session bytes)).shared.core.countersAt ref = _
        rw [he]
        exact hat
      · refine ⟨.inl (by rw [he, Task.after, hreply]; rfl), fun b hb => ?_⟩
        rw [he] at hb
        simp only [Task.after, Task.pending, List.flatten_append, hrest, List.append_nil] at hb
        cases direction <;>
        · rw [List.mem_singleton.mp hb]
          rfl
    | addUpload | loadUpload | addDownload =>
      refine Settled.after ⟨.inl hreply, ?_⟩ hp
      rw [hpend]
      simp [Action.settled]
    | _ => exact absurd rfl hacc
  · cases hl

/-! ### Across a replacement -/

/-- A map made from another: the ids both have name the same states. -/
def Agree (old new : Map String Nat) : Prop :=
  ∀ id ref ref', old.lookup id = some ref → new.lookup id = some ref' → ref' = ref

theorem agree_allocate (current : Map String Nat) (entries : List (CoreUser × Finset String))
    (acc : List UserState × Map String Nat) (h : Agree current acc.2) :
    Agree current (entries.foldl (allocate current) acc).2 := by
  induction entries generalizing acc with
  | nil => exact h
  | cons e entries ih =>
    rw [List.foldl_cons]
    refine ih _ fun id ref ref' hold hnew => ?_
    unfold allocate at hnew
    split at hnew <;> rename_i hcur
    all_goals
      simp only [lookup_insert_ite] at hnew
      split at hnew
      · rename_i heq
        subst heq
        rw [hold] at hcur
        cases hcur
        try exact (Option.some.inj hnew).symm
      · exact h id ref ref' hold hnew

def Action.maps : Action → Nat
  | .readUsers .. | .publishUsers .. => 1
  | _ => 0

/-- One map at most is on its way, and it keeps the states of `current`. -/
structure KeepsStates (current : Map String Nat) (s : System) : Prop where
  one : s.owed Action.maps ≤ 1
  ahead : s.owed Action.maps = 1 → s.shared.core.users = current
  coming : ∀ userMap, s.Pending (.publishUsers userMap) → Agree current userMap
  now : Agree current s.shared.core.users

theorem Spawns.maps {a b : Action} (h : Spawns a b) (hb : b.maps ≠ 0) :
    (∃ p entries, a = .readUsers p entries) ∧ ∃ userMap, b = .publishUsers userMap := by
  cases h <;> first | exact ⟨⟨_, _, rfl⟩, _, rfl⟩ | exact absurd rfl hb

theorem exec_maps (w : World) (call : Call) {a : Action}
    (ha : ∀ p entries, a ≠ .readUsers p entries) :
    ((w.exec call a).todo.flatten.map Action.maps).sum = 0 := by
  rw [List.sum_eq_zero_iff]
  intro n hn
  obtain ⟨b, hb, rfl⟩ := List.mem_map.mp hn
  by_contra hne
  obtain ⟨⟨p, entries, heq⟩, -⟩ := ((w.exec_next call a).spawns hb).maps hne
  exact ha p entries heq

theorem exec_maps_readUsers (w : World) (call : Call) (p : Plan)
    (entries : List (CoreUser × Finset String)) :
    ((w.exec call (.readUsers p entries)).todo.flatten.map Action.maps).sum = 1 := by
  have hupd : ((updates w.core.users entries).map Action.maps).sum = 0 := by
    rw [List.sum_eq_zero_iff]
    intro n hn
    obtain ⟨b, hb, rfl⟩ := List.mem_map.mp hn
    obtain ⟨_, _, _, _, rfl⟩ := mem_updates.mp hb
    rfl
  have hsweep : ((sweeps w.core.users p).map Action.maps).sum = 0 := by
    rw [List.sum_eq_zero_iff]
    intro n hn
    obtain ⟨b, hb, rfl⟩ := List.mem_map.mp hn
    obtain ⟨_, _, rfl⟩ := mem_sweeps.mp hb
    rfl
  simp [World.exec, World.proceed, hupd, hsweep, Action.maps]

theorem KeepsStates.step {current : Map String Nat} {s s' : System} {l : Move Call}
    (hk : KeepsStates current s) (h : (machine passwordHash).step s l = some s')
    (hl : ∀ users, l ≠ .call (.replaceUsers users)) : KeepsStates current s' := by
  rcases step_cases passwordHash h with ⟨c, z, w, rfl, hz, hcore, -, -, rfl⟩ |
    ⟨i, k, t, a, rest, -, ht, hp, rfl⟩ | ⟨i, t, direction, session, bytes, -, ht, htodo, rfl⟩
  · have hzero : z.maps = 0 := by
      cases hz <;> first | rfl | exact absurd rfl (hl _)
    have howed : Pool.owed ⟨w, s.tasks ++ [⟨c, [[z]], none⟩]⟩ Action.maps = s.owed Action.maps := by
      rw [Pool.owed_call]
      simp [hzero]
    refine ⟨by rw [howed]; exact hk.one, fun heq => ?_, fun m hm => ?_, ?_⟩
    · rw [howed] at heq
      exact hcore ▸ hk.ahead heq
    · rcases Pool.pending_call.mp hm with hm | hm
      · exact hk.coming m hm
      · rw [← List.mem_singleton.mp hm] at hzero
        cases hzero
    · exact hcore ▸ hk.now
  · have howed := Pool.owed_run Action.maps ht hp (s.shared.exec t.call a).shared
      (s.shared.exec t.call a)
    have hpend := Pool.pending_taken ht hp
    have hle := Pool.le_owed Action.maps hpend
    have hone := hk.one
    by_cases hread : ∃ p entries, a = .readUsers p entries
    · obtain ⟨p, entries, rfl⟩ := hread
      rw [exec_maps_readUsers] at howed
      have hm : Action.maps (.readUsers p entries) = 1 := rfl
      have husers := hk.ahead (by omega)
      refine ⟨by omega, fun _ => husers, fun m hm => ?_, hk.now⟩
      rcases Pool.pending_run ht hp hm with hm | hm
      · exact hk.coming m hm
      · rcases (World.mem_readUsers t.call).mp hm with hm | hm | hm | hm | hm | hm
        · obtain ⟨_, _, _, _, heq⟩ := mem_updates.mp hm
          cases heq
        · obtain ⟨_, _, heq⟩ := mem_sweeps.mp hm
          cases heq
        · cases hm
          rw [husers]
          exact agree_allocate current entries _ fun id ref ref' _ hnew => by cases hnew
        all_goals cases hm
    · rw [exec_maps _ _ (by simpa using hread)] at howed
      refine ⟨by omega, fun heq => ?_, fun m hm => ?_, ?_⟩
      · have hzero : a.maps = 0 := by omega
        rcases s.shared.exec_users t.call a with husers | ⟨m, rfl, -⟩
        · rw [husers]
          exact hk.ahead (by omega)
        · cases hzero
      · rcases Pool.pending_run ht hp hm with hm | hm
        · exact hk.coming m hm
        · exact absurd (((s.shared.exec_next t.call a).spawns hm).maps (by simp [Action.maps])).1
            hread
      · rcases s.shared.exec_users t.call a with husers | ⟨m, rfl, hm⟩
        · rw [husers]
          exact hk.now
        · rw [hm]
          exact hk.coming m hpend
  · have howed := Pool.owed_abandon Action.maps ht htodo
    rw [show Action.maps (.waitLimiter direction session bytes) = 0 from rfl, Nat.add_zero] at howed
    exact ⟨by rw [howed]; exact hk.one, fun heq => hk.ahead (by rw [← howed]; exact heq),
      fun m hm => hk.coming m (Pool.pending_abandon hm), hk.now⟩

theorem KeepsStates.steps {current : Map String Nat} {ok : System → Move Call → Prop}
    {ls : List (Move Call)} {s s' : System} (hk : KeepsStates current s)
    (h : Steps (machine passwordHash).step ok s ls s')
    (hl : ∀ users, .call (.replaceUsers users) ∉ ls) : KeepsStates current s' := by
  induction h with
  | nil => exact hk
  | cons _ hstep _ ih =>
    refine ih (hk.step passwordHash hstep fun users heq => ?_) fun users hm => ?_
    · exact hl users (by simp [heq])
    · exact hl users (by simp [hm])

theorem keepsStates_replace {ok ok' : System → Move Call → Prop} {ls ms : List (Move Call)}
    {s s₁ s₂ : System} {users : List CoreUser}
    (h : Steps (machine passwordHash).step ok System.empty ls s) (hr : ¬ Replacing s)
    (h₁ : (machine passwordHash).step s (.call (.replaceUsers users)) = some s₁)
    (h₂ : Steps (machine passwordHash).step ok' s₁ ms s₂)
    (hm : ∀ users', .call (.replaceUsers users') ∉ ms) :
    KeepsStates s.shared.core.users s₂ := by
  have hnone : ∀ a, Action.maps a ≠ 0 → ¬ s.Pending a := by
    intro a ha
    refine not_pending_of_not_replacing passwordHash h hr ?_
    cases a <;> first | rfl | exact absurd rfl ha
  have hzero : s.owed Action.maps = 0 := by
    by_contra hne
    obtain ⟨a, ha, hpos⟩ := Pool.exists_of_owed (Nat.pos_of_ne_zero hne)
    exact hnone a (by omega) ha
  refine KeepsStates.steps passwordHash ?_ h₂ hm
  rcases step_cases passwordHash h₁ with ⟨c, z, w, hl, hz, hcore, -, -, rfl⟩ |
    ⟨i, k, t, a, rest, hl, -⟩ | ⟨i, t, direction, session, bytes, hl, -⟩
  · cases hl
    have hle : z.maps ≤ 1 := by cases hz <;> simp [Action.maps]
    have howed : Pool.owed ⟨w, s.tasks ++ [⟨.replaceUsers users, [[z]], none⟩]⟩ Action.maps =
        z.maps := by
      rw [Pool.owed_call, hzero]
      simp
    refine ⟨by rw [howed]; exact hle, fun _ => by rw [hcore], fun m hm => ?_, ?_⟩
    · rcases Pool.pending_call.mp hm with hm | hm
      · exact absurd hm (hnone _ (by simp [Action.maps]))
      · rw [← List.mem_singleton.mp hm] at hz
        cases hz
    · rw [hcore]
      intro id ref ref' hold hnew
      rw [hold] at hnew
      exact (Option.some.inj hnew).symm
  · cases hl
  · cases hl

/-! ### The accounting of every run -/

/-- The actions between a reservation on `ref` and its counter update. -/
def Action.between (ref : Nat) : Action → Bool
  | .addUpload session _ | .loadUpload session _ | .addDownload session _ _ => session.user = ref
  | _ => false

/-- Some record call has reserved bytes on `ref` that it has not yet added. -/
def Reserving (s : System) (ref : Nat) : Prop := ∃ a, s.Pending a ∧ a.between ref = true

theorem owed_of_not_reserving {s : System} {ref : Nat} (h : ¬ Reserving s ref) :
    s.owed (Action.owes ref) = 0 := by
  by_contra hne
  obtain ⟨a, ha, hpos⟩ := Pool.exists_of_owed (Nat.pos_of_ne_zero hne)
  refine h ⟨a, ha, ?_⟩
  cases a with
  | addUpload session bytes | loadUpload session bytes | addDownload session bytes upload =>
    by_contra hb
    simp only [Action.between, decide_eq_true_eq] at hb
    simp [Action.owes, hb] at hpos
  | _ => cases hpos

/-- In every run of the core: a user's uploaded and downloaded bytes never exceed the total, and are
the total while no reservation is under way; no counter decreases; a call whose bytes are counted is
not answered with a failure; and a replacement of the users that meets no other keeps the state, and
so the counters, of each user that stays. -/
theorem traffic_accounting {ls : List (Move Call)} {s : System}
    (h : Steps (machine passwordHash).step always System.empty ls s) :
    (∀ (ref : Nat) (u : UserState), s.shared.core.heap[ref]? = some u →
      u.upload + u.download ≤ u.total ∧
      (¬ Reserving s ref → u.upload + u.download = u.total) ∧ u.total < 2 ^ 64) ∧
    (∀ l s', (machine passwordHash).step s l = some s' → ∀ (ref : Nat) (u : UserState),
      s.shared.core.heap[ref]? = some u →
      ∃ u', s'.shared.core.heap[ref]? = some u' ∧ CountersGrow u u') ∧
    (∀ i k s₁ ms s₂ t message, (machine passwordHash).step s (.run i k) = some s₁ → Counts s s₁ →
      Steps (machine passwordHash).step always s₁ ms s₂ → s₂.tasks[i]? = some t →
      t.reply ≠ some (.failed message)) ∧
    (∀ users s₁ ms s₂, ¬ Replacing s →
      (machine passwordHash).step s (.call (.replaceUsers users)) = some s₁ →
      Steps (machine passwordHash).step always s₁ ms s₂ →
      (∀ users', .call (.replaceUsers users') ∉ ms) →
      ∀ id ref u ref', s.shared.core.users.lookup id = some ref →
        s.shared.core.heap[ref]? = some u → s₂.shared.core.users.lookup id = some ref' →
        ref' = ref ∧ ∃ u', s₂.shared.core.heap[ref]? = some u' ∧ u.upload ≤ u'.upload ∧
          u.download ≤ u'.download ∧ u.total ≤ u'.total) := by
  have hb := balanced passwordHash h
  refine ⟨?_, ?_, ?_, ?_⟩
  · intro ref u hu
    have hbal := hb ref
    rw [CoreInner.countersAt, hu] at hbal
    obtain ⟨h1, h2⟩ := hbal
    refine ⟨by omega, fun hr => ?_, h2⟩
    rw [owed_of_not_reserving hr] at h1
    omega
  · intro l s' hstep ref u hu
    exact step_grow passwordHash hb hstep hu
  · intro i k s₁ ms s₂ t message hstep hc hsteps ht hfail
    have halone := (recordAlone_keeps passwordHash).steps h fun _ h => by cases h
    obtain ⟨t₁, ht₁, hset⟩ := settled_of_counts passwordHash halone hstep hc
    obtain ⟨t₂, ht₂, hset₂⟩ := settled_steps passwordHash hsteps ht₁ hset
    rw [ht] at ht₂
    cases ht₂
    rcases hset₂.1 with hr | hr <;> rw [hfail] at hr <;> cases hr
  · intro users s₁ ms s₂ hr h₁ h₂ hm id ref u ref' hold hu hnew
    have hk := keepsStates_replace passwordHash h hr h₁ h₂ hm
    exact ⟨hk.now id ref ref' hold hnew,
      steps_grow passwordHash (Steps.cons trivial h₁ h₂) hb hu⟩

end

/-! ### Overlapping replacements -/

/-- A first `replace_users` stops after reading the users map. A second one
installs the user, a session opens and five bytes are recorded. -/
def replacedBeneath : List (Move Call) :=
  .call (.replaceUsers [.password "alice" "secret"]) :: runs 0 1 ++
  .call (.replaceUsers [.password "alice" "secret"]) :: runs 1 5 ++
  .call (.openSession "alice" none) :: runs 2 4 ++
  .call (.record .upload ⟨1, 1⟩ 5) :: runs 3 8

def replacedAgain : List (Move Call) :=
  .call (.replaceUsers [.password "alice" "secret"]) :: runs 4 6 ++ runs 0 1 ++ runs 4 3

def trafficOf (s : System) (id : String) : Option (Nat × Nat × Nat) :=
  (s.shared.core.users.lookup id).bind s.shared.core.countersAt

theorem traffic_accounting_recorded : ∃ s u, Steps (machine textHash).step always System.empty
      replacedBeneath s ∧ s.shared.core.heap[1]? = some u ∧ u.upload = 5 ∧
      u.upload + u.download ≤ u.total := by
  obtain ⟨s, hs, hu⟩ := steps_of_replay (show (replay (machine textHash).step System.empty
    replacedBeneath).any (fun s => (s.shared.core.heap[1]?).any (·.upload = 5)) = true by decide)
  rw [Option.any_eq_true] at hu
  obtain ⟨u, hu, h5⟩ := hu
  exact ⟨s, u, hs, hu, by simpa using h5, ((traffic_accounting textHash hs).1 1 u hu).1⟩

/-- The third call returns `Ok` for a list that keeps the user, and the
recorded bytes are gone: the users map now names the state that the first
call made for a user it did not see. -/
theorem overlapping_replacements_lose_traffic : ∃ s s',
    Steps (machine textHash).step always System.empty replacedBeneath s ∧
    Steps (machine textHash).step always s replacedAgain s' ∧
    trafficOf s "alice" = some (5, 0, 5) ∧ trafficOf s' "alice" = some (0, 0, 0) ∧
    (s'.tasks[4]?).map (fun t => (t.call, t.reply)) =
      some (.replaceUsers [.password "alice" "secret"], some .done) := by
  obtain ⟨s, hs, h⟩ := steps_of_replay (show (replay (machine textHash).step System.empty
    replacedBeneath).any (fun s => trafficOf s "alice" = some (5, 0, 5) ∧
      (replay (machine textHash).step s replacedAgain).any fun s' =>
        trafficOf s' "alice" = some (0, 0, 0) ∧ (s'.tasks[4]?).map (fun t => (t.call, t.reply)) =
          some (.replaceUsers [.password "alice" "secret"], some .done)) = true by decide)
  simp only [decide_eq_true_eq] at h
  obtain ⟨s', hs', h'⟩ := steps_of_replay h.2
  simp only [decide_eq_true_eq] at h'
  exact ⟨s, s', hs, hs', h.1, h'.1, h'.2⟩

end Aerion.Core
