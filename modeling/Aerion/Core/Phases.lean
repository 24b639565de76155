import Aerion.Core.Effects

/-!
# The course of a call

Which actions a task of the core can have ahead of it. The action that gives
the reply comes after all others (`EndsLast`). A record call has one action
ahead at a time until it has dispatched its event, and from its reservation
on it cannot fail any more. Only `replace_users` changes a published map or a
credential set.
-/

namespace Aerion.Core

open Aerion.Net Lib

/-! ### Record calls -/

namespace Action

/-- The actions of `record_traffic` up to its event. -/
def records : Action → Bool
  | .checkActive .. | .waitLimiter .. | .recheckActive .. | .reserve .. | .addUpload ..
  | .loadDownload .. | .loadUpload .. | .addDownload .. | .dispatch .. => true
  | _ => false

/-- The actions of `record_traffic` after its reservation. -/
def settled : Action → Bool
  | .addUpload .. | .loadDownload .. | .loadUpload .. | .addDownload .. | .dispatch ..
  | .sendTraffic .. | .ret .done => true
  | _ => false

end Action

/-- A record action is the only one its task has ahead. -/
def RecordAlone (t : Task Call Action Reply) : Prop :=
  ∀ a ∈ t.pending, a.records = true → t.pending = [a] ∧ t.reply = none

theorem Next.records {w : World} {call : Call} {a b : Action} {todo : List Action}
    {r : Option Reply} (h : Next w call a todo r) (hm : b ∈ todo) (hb : b.records = true) :
    a.records = true ∧ todo = [b] ∧ r = none := by
  have ha : a.records = true := by cases h.spawns hm <;> first | rfl | cases hb
  refine ⟨ha, ?_⟩
  cases h with
  | checkActive | waitLimiter | recheckActive | reserveUpload | reserveDownload | addUpload
  | loadDownload | loadUpload | addDownload => exact ⟨by rw [List.mem_singleton.mp hm], rfl⟩
  | unheard | heard =>
    simp only [List.mem_cons, List.not_mem_nil, or_false] at hm
    rcases hm with rfl | rfl <;> cases hb
  | failed => cases hm
  | _ => cases ha

theorem Next.settled {w : World} {call : Call} {a : Action} {todo : List Action}
    {r : Option Reply} (h : Next w call a todo r) (ha : a.settled = true) :
    (∀ b ∈ todo, b.settled = true) ∧ (r = none ∨ r = some .done) := by
  refine ⟨fun b hm => ?_, ?_⟩
  · cases h.spawns hm <;> first | rfl | cases ha
  · cases h with
    | failed hf => cases a <;> simp [Action.settled, Action.fallible] at ha hf
    | insertSession | subscribe | hangUp => cases ha
    | ret =>
      rename_i r
      cases r with
      | done => exact .inr rfl
      | _ => cases ha
    | _ => exact .inl rfl

section
variable (passwordHash : String → Bytes)

theorem recordAlone_keeps : (machine passwordHash).Keeps RecordAlone := by
  refine ⟨?_, ?_, ?_⟩
  · intro w call w' todo h a hm ha
    obtain ⟨z, rfl, -⟩ := start_begins passwordHash h
    rw [List.mem_singleton.mp hm]
    exact ⟨rfl, rfl⟩
  · intro w t k a rest ht hp b hm hb
    have hold : ∀ {b}, b ∈ rest.flatten → b ∈ t.pending :=
      fun h => (pick_perm hp).mem_iff.mpr (by simp [h])
    simp only [Task.after, Task.pending, machine_exec, List.flatten_append, List.mem_append] at hm ⊢
    rcases hm with hm | hm
    · obtain ⟨ha, htodo, hr⟩ := (w.exec_next t.call a).records hm hb
      obtain ⟨halone, hreply⟩ := ht a ((pick_perm hp).mem_iff.mpr (by simp)) ha
      obtain ⟨-, hrest⟩ := pick_alone halone hp
      exact ⟨by rw [htodo, hrest, List.append_nil], by rw [hreply, hr]; rfl⟩
    · -- A record action left over was the only one ahead, so nothing was taken.
      obtain ⟨halone, -⟩ := ht b (hold hm) hb
      obtain ⟨-, hrest⟩ := pick_alone halone hp
      rw [hrest] at hm
      cases hm
  · intro t a ht htodo haw b hm
    cases hm

end

/-! ### The end of a call -/

def Action.inner : Action → Bool
  | .takeSessions .. | .notifyCancelled .. | .trigger .. | .writeLimits .. | .setRate ..
  | .compareCredentials .. | .writeCredentials .. | .publishUsers .. | .publishCredentials ..
  | .sendReplaced .. | .sendTraffic .. => true
  | _ => false

/-- The actions of `replace_users` alone. -/
def Action.replaces : Action → Bool
  | .readUsers .. | .compareCredentials .. | .writeCredentials .. | .publishUsers ..
  | .publishCredentials .. | .sendReplaced .. => true
  | _ => false

/-- Inner actions first, then the one that may end the call. -/
def Ends (todo : List (List Action)) : Prop :=
  ∃ pre z post, todo = pre ++ [z] :: post ∧ (∀ a ∈ pre.flatten, a.inner = true) ∧
    z.inner = false ∧ post.flatten = []

def EndsLast (t : Task Call Action Reply) : Prop :=
  t.pending = [] ∨ t.reply = none ∧ Ends t.todo

theorem Next.inner {w : World} {call : Call} {a : Action} {todo : List Action} {r : Option Reply}
    (h : Next w call a todo r) (ha : a.inner = true) : (∀ b ∈ todo, b.inner = true) ∧ r = none := by
  refine ⟨fun b hm => ?_, ?_⟩
  · cases h.spawns hm <;> first | rfl | cases ha
  · cases h with
    | failed hf => cases a <;> simp [Action.inner, Action.fallible] at ha hf
    | insertSession | subscribe | hangUp | ret => cases ha
    | _ => rfl

theorem ends_singleton {z : Action} (hz : z.inner = false) : Ends [[z]] :=
  ⟨[], z, [], rfl, by simp, hz, rfl⟩

theorem World.exec_ends (w : World) (call : Call) {a : Action} (ha : a.inner = false) :
    (w.exec call a).todo = [] ∨ (w.exec call a).reply = none ∧ Ends (w.exec call a).todo := by
  cases a with
  | hashLookup | credentialLookup | checkActive | recheckActive =>
    simp only [exec, ifActive]
    split
    all_goals first | exact .inl rfl | exact .inr ⟨rfl, ends_singleton rfl⟩
  | userLookup userId via source =>
    simp only [exec, lookupUser]
    split
    · exact .inr ⟨rfl, ends_singleton rfl⟩
    · exact .inl rfl
  | cancelLookup userId =>
    simp only [exec, lookupUser]
    split
    · exact .inr ⟨rfl, [[.takeSessions _]], .ret .done, [], rfl, by simp [Action.inner], rfl, rfl⟩
    · exact .inl rfl
  | limitsLookup userId limits =>
    simp only [exec, lookupUser]
    split
    · exact .inr ⟨rfl, [[_], [_], [_]], .ret .done, [], rfl, by simp [Action.inner], rfl, rfl⟩
    · exact .inl rfl
  | insertSession ref sid limits via source =>
    rcases w.exec_insertSession call ref sid limits via source with ⟨e, h⟩ | ⟨u, -, -, h⟩ <;>
    · rw [h]
      exact .inl rfl
  | cancelAllLookup =>
    refine .inr ⟨rfl, [_], .ret .done, [], rfl, fun b hb => ?_, rfl, rfl⟩
    rw [List.flatten_cons, List.flatten_nil, List.append_nil] at hb
    obtain ⟨_, _, rfl⟩ := List.mem_map.mp hb
    rfl
  | readUsers p entries =>
    refine .inr ⟨rfl, [_, _, [_], [_], [_]], .ret .done, [], rfl, ?_, rfl, rfl⟩
    intro b hb
    simp only [List.flatten_cons, List.flatten_nil, List.append_nil, List.mem_append,
      List.mem_singleton, mem_updates, mem_sweeps] at hb
    rcases hb with ⟨_, _, _, _, rfl⟩ | ⟨_, _, rfl⟩ | rfl | rfl | rfl <;> rfl
  | reserve direction session bytes =>
    simp only [exec]
    split
    · split
      · cases direction <;> exact .inr ⟨rfl, ends_singleton rfl⟩
      · exact .inl rfl
    · exact .inl rfl
  | dispatch traffic =>
    simp only [exec]
    split
    · exact .inr ⟨rfl, ends_singleton rfl⟩
    · exact .inr ⟨rfl, [[.sendTraffic _]], .ret .done, [], rfl, by simp [Action.inner], rfl, rfl⟩
  | ret r =>
    simp only [exec]
    split <;> exact .inl rfl
  | drawSessionId | readLimits | closeSession | waitLimiter | addUpload | loadDownload | loadUpload
  | addDownload => exact .inr ⟨rfl, ends_singleton rfl⟩
  | subscribe | hangUp => exact .inl rfl
  | _ => cases ha

section
variable (passwordHash : String → Bytes)

theorem Begins.inner {call : Call} {z : Action} (h : Begins passwordHash call z) :
    z.inner = false := by
  cases h <;> rfl

theorem endsLast_keeps : (machine passwordHash).Keeps EndsLast := by
  refine ⟨?_, ?_, ?_⟩
  · intro w call w' todo h
    obtain ⟨z, rfl, hz, -⟩ := start_begins passwordHash h
    exact .inr ⟨rfl, ends_singleton hz.inner⟩
  · intro w t k a rest ht hp
    rcases ht with hnil | ⟨hreply, pre, z, post, htodo, hpre, hz, hpost⟩
    · have := pick_perm hp
      rw [show t.todo.flatten = [] from hnil] at this
      cases (List.nil_perm.mp this)
    · rw [htodo] at hp
      rcases pick_append hp with ⟨pre', rfl, hperm⟩ | ⟨-, hp⟩
      · obtain ⟨hinner, hr⟩ := (w.exec_next t.call a).inner (hpre a (hperm.mem_iff.mpr (by simp)))
        refine .inr ⟨by rw [Task.after, hreply]; exact hr, (w.exec t.call a).todo ++ pre', z, post,
          by simp [Task.after], ?_, hz, hpost⟩
        intro b hb
        rw [List.flatten_append, List.mem_append] at hb
        rcases hb with hb | hb
        · exact hinner b hb
        · exact hpre b (hperm.mem_iff.mpr (by simp [hb]))
      · obtain ⟨rfl, rfl⟩ := pick_singleton hp
        rcases w.exec_ends t.call hz with hnil | ⟨hr, pre', z', post', heq, hpre', hz', hpost'⟩
        · left
          simp [Task.after, Task.pending, hnil, hpost]
        · refine .inr ⟨by rw [Task.after, hreply]; exact hr, pre', z', post' ++ [] :: post, ?_, hpre',
            hz', ?_⟩
          · simp [Task.after, heq]
          · rw [List.flatten_append, hpost', List.flatten_cons, hpost]
            rfl
  · intro t a ht htodo haw
    exact .inl rfl

/-! ### Replacements -/

def Call.isReplace : Call → Bool
  | .replaceUsers _ => true
  | _ => false

/-- The replacing actions of a task are those of a `replace_users` call. -/
def OnlyReplace (t : Task Call Action Reply) : Prop :=
  ∀ a ∈ t.pending, a.replaces = true → t.call.isReplace = true

theorem Spawns.replaces {a b : Action} (h : Spawns a b) (hb : b.replaces = true) :
    a.replaces = true := by
  cases h <;> first | rfl | cases hb

theorem onlyReplace_keeps : (machine passwordHash).Keeps OnlyReplace := by
  refine ⟨?_, ?_, ?_⟩
  · intro w call w' todo h a hm ha
    obtain ⟨z, rfl, hz, -⟩ := start_begins passwordHash h
    rw [List.mem_singleton.mp hm] at ha
    cases hz <;> first | rfl | cases ha
  · intro w t k a rest ht hp b hm hb
    simp only [Task.after, Task.pending, machine_exec, List.flatten_append, List.mem_append] at hm
    rcases hm with hm | hm
    · exact ht a ((pick_perm hp).mem_iff.mpr (by simp)) (((w.exec_next t.call a).spawns hm).replaces hb)
    · exact ht b ((pick_perm hp).mem_iff.mpr (by simp [hm])) hb
  · intro t a ht htodo haw b hm
    cases hm

/-- A `replace_users` call that has not returned. -/
def Replacing (s : System) : Prop := ∃ t ∈ s.tasks, t.call.isReplace = true ∧ t.reply = none

theorem not_pending_of_not_replacing {ok : System → Move Call → Prop} {ls : List (Move Call)}
    {s : System} (h : Steps (machine passwordHash).step ok System.empty ls s) (hr : ¬ Replacing s)
    {a : Action} (ha : a.replaces = true) : ¬ s.Pending a := by
  rintro ⟨t, ht, hm⟩
  have hcall := (onlyReplace_keeps passwordHash).steps h (fun _ h => by cases h) t ht a hm ha
  rcases (endsLast_keeps passwordHash).steps h (fun _ h => by cases h) t ht with hnil | ⟨hreply, -⟩
  · rw [hnil] at hm
    cases hm
  · exact hr ⟨t, ht, hcall, hreply⟩

end

end Aerion.Core
