import Aerion.Lib.Segments

/-!
# Programs of exact reads

Code that awaits one exact read after another. How far it has come is
determined by the bytes it has consumed: it waits for a number of further
bytes, or it has finished and consumed no byte too many.
-/

namespace Lib

/-- A program ends, or reads exactly `n` bytes and goes on with them; at the end of the stream it
goes on with none. -/
inductive Fetch (α : Type) where
  | done (result : Outcome α)
  | read (n : ℕ) (next : Option Bytes → Fetch α)

namespace Fetch

variable {α β : Type}

protected def bind : Fetch α → (α → Fetch β) → Fetch β
  | .done (.ok a), f => f a
  | .done (.err e), _ => .done (.err e)
  | .done .panic, _ => .done .panic
  | .read n next, f => .read n fun bytes => (next bytes).bind f

instance : Monad Fetch where
  pure a := .done (.ok a)
  bind := Fetch.bind

instance : MonadLift Outcome Fetch := ⟨.done⟩

/-- `read_exact`, with the text its error carries. -/
def exact (n : ℕ) (message : String) : Fetch Bytes :=
  .read n fun
    | some bytes => .done (.ok bytes)
    | none => .done (.err message)

inductive Progress (α : Type) where
  | waiting (n : ℕ)
  | finished (result : Outcome α) (rest : Bytes)
  deriving DecidableEq

/-- How far the program comes on these bytes: the number of bytes its current read still lacks, or
its result and the bytes it leaves. -/
def progress : Fetch α → Bytes → Progress α
  | .done r, bytes => .finished r bytes
  | .read n next, bytes =>
    if n ≤ bytes.length then (next (some (bytes.take n))).progress (bytes.drop n)
    else .waiting (n - bytes.length)

/-- The result if the stream ends behind these bytes. -/
def atEnd : Fetch α → Bytes → Outcome α
  | .done r, _ => r
  | .read n next, bytes =>
    if n ≤ bytes.length then (next (some (bytes.take n))).atEnd (bytes.drop n)
    else (next none).atEnd []

/-- The program returns `a` once it has consumed exactly these bytes. -/
def Reads (p : Fetch α) (bytes : Bytes) (a : α) : Prop := p.progress bytes = .finished (.ok a) []

/-! ### Progress -/

section

variable {p : Fetch α} {bytes : Bytes}

theorem progress_append {r : Outcome α} {rest : Bytes} (h : p.progress bytes = .finished r rest)
    (more : Bytes) : p.progress (bytes ++ more) = .finished r (rest ++ more) := by
  induction p generalizing bytes with
  | done r' =>
    cases h
    rfl
  | read n next ih =>
    unfold progress at h ⊢
    split at h
    · rename_i hn
      rw [if_pos (by rw [List.length_append]; omega), List.take_append_of_le_length hn,
        List.drop_append_of_le_length hn]
      exact ih _ h
    · cases h

theorem Reads.progress {a : α} (h : p.Reads bytes a) (rest : Bytes) :
    p.progress (bytes ++ rest) = .finished (.ok a) rest :=
  progress_append h rest

theorem progress_rest_le {r : Outcome α} {rest : Bytes} (h : p.progress bytes = .finished r rest) :
    rest.length ≤ bytes.length := by
  induction p generalizing bytes with
  | done r' =>
    cases h
    exact Nat.le_refl _
  | read n next ih =>
    unfold progress at h
    split at h
    · have hdrop := ih _ h
      rw [List.length_drop] at hdrop
      omega
    · cases h

theorem progress_read_ne {n : ℕ} {next : Option Bytes → Fetch α} {r : Outcome α} (hn : 0 < n) :
    (Fetch.read n next).progress bytes ≠ .finished r bytes := by
  intro h
  unfold progress at h
  split at h
  · have hdrop := progress_rest_le h
    rw [List.length_drop] at hdrop
    omega
  · cases h

theorem waiting_pos {n : ℕ} (h : p.progress bytes = .waiting n) : 0 < n := by
  induction p generalizing bytes with
  | done r => cases h
  | read k next ih =>
    unfold progress at h
    split at h
    · exact ih _ h
    · cases h
      omega

/-- Before its last byte a program waits, for no more than what is missing. -/
theorem Reads.waiting {a : α} {got missing : Bytes} (h : p.Reads (got ++ missing) a)
    (hmissing : missing ≠ []) : ∃ n, p.progress got = .waiting n ∧ 0 < n ∧ n ≤ missing.length := by
  induction p generalizing got with
  | done r =>
    have hnil : got ++ missing = [] := (Progress.finished.inj h).2
    exact absurd (List.append_eq_nil_iff.mp hnil).2 hmissing
  | read n next ih =>
    unfold Reads Fetch.progress at h
    split at h
    · rename_i hlen
      unfold Fetch.progress
      split
      · rename_i hgot
        rw [List.take_append_of_le_length hgot, List.drop_append_of_le_length hgot] at h
        exact ih _ h
      · rename_i hgot
        rw [List.length_append] at hlen
        exact ⟨n - got.length, rfl, by omega, by omega⟩
    · cases h

end

/-! ### What programs read -/

section

variable {p : Fetch α} {f : α → Fetch β} {bytes more : Bytes} {a : α} {b : β}

theorem Reads.pure (a : α) : (pure a : Fetch α).Reads [] a := rfl

theorem Reads.lift {x : Outcome α} (h : x = .ok a) : (liftM x : Fetch α).Reads [] a := by
  rw [h]
  rfl

theorem Reads.exact {n : ℕ} (h : bytes.length = n) (message : String) :
    (Fetch.exact n message).Reads bytes bytes := by
  unfold Reads Fetch.exact Fetch.progress
  rw [if_pos (Nat.le_of_eq h.symm), List.take_of_length_le (Nat.le_of_eq h),
    List.drop_of_length_le (Nat.le_of_eq h)]
  rfl

/-- What follows a program goes on behind the bytes the program consumes. -/
theorem Reads.progress_bind (hp : p.Reads bytes a) (rest : Bytes) :
    (p >>= f).progress (bytes ++ rest) = (f a).progress rest := by
  show (p.bind f).progress (bytes ++ rest) = (f a).progress rest
  induction p generalizing bytes with
  | done r =>
    obtain ⟨rfl, rfl⟩ := Progress.finished.inj hp
    rfl
  | read n next ih =>
    unfold Reads Fetch.progress at hp
    split at hp
    · rename_i hn
      conv_lhs => unfold Fetch.bind Fetch.progress
      rw [if_pos (by rw [List.length_append]; omega), List.take_append_of_le_length hn,
        List.drop_append_of_le_length hn]
      exact ih _ hp
    · cases hp

theorem progress_bind_err {e : String} {rest : Bytes} (h : p.progress bytes = .finished (.err e) rest) :
    (p >>= f).progress bytes = .finished (.err e) rest := by
  show (p.bind f).progress bytes = .finished (.err e) rest
  induction p generalizing bytes with
  | done r =>
    obtain ⟨rfl, rfl⟩ := Progress.finished.inj h
    rfl
  | read n next ih =>
    unfold Fetch.progress at h
    split at h
    · rename_i hn
      conv_lhs => unfold Fetch.bind Fetch.progress
      rw [if_pos hn]
      exact ih _ h
    · cases h

theorem progress_lift_bind {x : Outcome α} (h : x = .ok a) (rest : Bytes) :
    ((liftM x : Fetch α) >>= f).progress rest = (f a).progress rest :=
  (Reads.lift h).progress_bind rest

theorem bind_bind {γ : Type} (p : Fetch α) (f : α → Fetch β) (g : β → Fetch γ) :
    (p >>= f) >>= g = p >>= fun a => f a >>= g := by
  show (p.bind f).bind g = p.bind fun a => (f a).bind g
  induction p with
  | done r => cases r <;> rfl
  | read n next ih => exact congrArg (Fetch.read n) (funext fun bytes => ih bytes)

theorem progress_exact_bind {f : Bytes → Fetch β} (n : ℕ) (message : String) (bytes : Bytes) :
    (Fetch.exact n message >>= f).progress bytes =
      if n ≤ bytes.length then (f (bytes.take n)).progress (bytes.drop n) else .waiting (n - bytes.length) := rfl

theorem Reads.bind (hp : p.Reads bytes a) (hf : (f a).Reads more b) :
    (p >>= f).Reads (bytes ++ more) b :=
  (hp.progress_bind more).trans hf

theorem Reads.seq {all : Bytes} (hp : p.Reads bytes a) (hf : (f a).Reads more b)
    (hall : bytes ++ more = all) : (p >>= f).Reads all b :=
  hall ▸ hp.bind hf

end

/-! ### How much programs read -/

/-- The program reads at most `n` bytes, and what it returns has a property. -/
def Bounded : Fetch α → ℕ → (α → Prop) → Prop
  | .done r, _, P => ∀ a, r = .ok a → P a
  | .read k next, n, P => k ≤ n ∧ (next none).Bounded n P ∧
    ∀ bytes, bytes.length = k → (next (some bytes)).Bounded (n - k) P

section

variable {p : Fetch α} {f : α → Fetch β} {n m : ℕ} {P : α → Prop} {Q : β → Prop}

theorem Bounded.mono (h : p.Bounded n P) (hle : n ≤ m) : p.Bounded m P := by
  induction p generalizing n m with
  | done r => exact h
  | read k next ih =>
    obtain ⟨hk, hnone, hsome⟩ := h
    exact ⟨Nat.le_trans hk hle, ih _ hnone hle, fun bytes hlen => ih _ (hsome bytes hlen) (by omega)⟩

theorem Bounded.exact (k : ℕ) (message : String) :
    (Fetch.exact k message).Bounded k fun bytes => bytes.length = k := by
  refine ⟨Nat.le_refl k, nofun, fun bytes hlen a ha => ?_⟩
  cases ha
  exact hlen

theorem Bounded.lift {x : Outcome α} (h : ∀ a, x = .ok a → P a) : (liftM x : Fetch α).Bounded 0 P := h

theorem Bounded.pure {a : α} (h : P a) : (pure a : Fetch α).Bounded 0 P := by
  intro a' ha'
  cases ha'
  exact h

theorem Bounded.bind (hp : p.Bounded n P) (hf : ∀ a, P a → (f a).Bounded m Q) :
    (p >>= f).Bounded (n + m) Q := by
  show (p.bind f).Bounded (n + m) Q
  induction p generalizing n with
  | done r =>
    cases r with
    | ok a => exact (hf a (hp a rfl)).mono (Nat.le_add_left m n)
    | err e => exact fun _ h => by cases h
    | panic => exact fun _ h => by cases h
  | read k next ih =>
    obtain ⟨hk, hnone, hsome⟩ := hp
    refine ⟨Nat.le_trans hk (Nat.le_add_right n m), ih _ hnone, fun bytes hlen => ?_⟩
    rw [show n + m - k = n - k + m by omega]
    exact ih _ (hsome bytes hlen)

/-- What the program has read and what it still waits for is within the bound. -/
theorem Bounded.waiting {got : Bytes} {k : ℕ} (h : p.Bounded n P) (hwait : p.progress got = .waiting k) :
    got.length + k ≤ n := by
  induction p generalizing n got with
  | done r => cases hwait
  | read j next ih =>
    obtain ⟨hj, -, hsome⟩ := h
    unfold Fetch.progress at hwait
    split at hwait
    · rename_i hlen
      have hrest := ih _ (hsome _ (List.length_take_of_le hlen)) hwait
      rw [List.length_drop] at hrest
      omega
    · cases hwait
      omega

end

/-! ### What programs accept -/

/-- The program returns a value only for bytes of a grammar, fails where the stream ends, and never
panics. -/
def Strict : Fetch α → (Bytes → α → Prop) → Prop
  | .done r, G => r ≠ .panic ∧ ∀ a, r = .ok a → G [] a
  | .read n next, G => (∃ e, next none = .done (.err e)) ∧
    ∀ bytes, bytes.length = n → (next (some bytes)).Strict fun rest a => G (bytes ++ rest) a

section

variable {p : Fetch α} {f : α → Fetch β} {G : Bytes → α → Prop} {H : Bytes → β → Prop}

theorem Strict.mono {G' : Bytes → α → Prop} (h : p.Strict G) (himp : ∀ bytes a, G bytes a → G' bytes a) :
    p.Strict G' := by
  induction p generalizing G G' with
  | done r => exact ⟨h.1, fun a ha => himp _ _ (h.2 a ha)⟩
  | read n next ih =>
    exact ⟨h.1, fun bytes hlen => ih _ (h.2 bytes hlen) fun rest a => himp (bytes ++ rest) a⟩

theorem Strict.exact (n : ℕ) (message : String) :
    (Fetch.exact n message).Strict fun bytes a => bytes = a ∧ a.length = n := by
  refine ⟨⟨message, rfl⟩, fun bytes hlen => ⟨nofun, fun a ha => ?_⟩⟩
  cases ha
  exact ⟨List.append_nil bytes, hlen⟩

theorem Strict.lift {x : Outcome α} (hpanic : x ≠ .panic) (h : ∀ a, x = .ok a → G [] a) :
    (liftM x : Fetch α).Strict G :=
  ⟨hpanic, h⟩

theorem Strict.pure {a : α} (h : G [] a) : (pure a : Fetch α).Strict G := by
  refine ⟨nofun, fun a' ha' => ?_⟩
  cases ha'
  exact h

theorem Strict.bind (hp : p.Strict G)
    (hf : ∀ bytes a, G bytes a → (f a).Strict fun rest b => H (bytes ++ rest) b) :
    (p >>= f).Strict H := by
  show (p.bind f).Strict H
  induction p generalizing G H with
  | done r =>
    cases r with
    | ok a => exact hf [] a (hp.2 a rfl)
    | err e => exact ⟨fun h => (by cases h), fun _ h => by cases h⟩
    | panic => exact absurd rfl hp.1
  | read n next ih =>
    obtain ⟨⟨e, he⟩, hsome⟩ := hp
    refine ⟨⟨e, congrArg (Fetch.bind · f) he⟩, fun bytes hlen => ih _ (hsome bytes hlen) fun more a hmore => ?_⟩
    exact (hf (bytes ++ more) a hmore).mono fun rest b hb => by rwa [← List.append_assoc]

theorem Strict.finished (h : p.Strict G) {bytes rest : Bytes} {r : Outcome α}
    (hr : p.progress bytes = .finished r rest) :
    r ≠ .panic ∧ ∀ a, r = .ok a → ∃ front, bytes = front ++ rest ∧ G front a := by
  induction p generalizing bytes G with
  | done r' =>
    cases hr
    exact ⟨h.1, fun a ha => ⟨[], rfl, h.2 a ha⟩⟩
  | read n next ih =>
    unfold Fetch.progress at hr
    split at hr
    · rename_i hlen
      obtain ⟨hpanic, hok⟩ := ih _ (h.2 _ (List.length_take_of_le hlen)) hr
      refine ⟨hpanic, fun a ha => ?_⟩
      obtain ⟨front, hfront, hG⟩ := hok a ha
      exact ⟨bytes.take n ++ front, by rw [List.append_assoc, ← hfront, List.take_append_drop], hG⟩
    · cases hr

theorem Strict.atEnd (h : p.Strict G) {bytes : Bytes} {k : ℕ} (hwait : p.progress bytes = .waiting k) :
    ∃ e, p.atEnd bytes = .err e := by
  induction p generalizing bytes G with
  | done r => cases hwait
  | read n next ih =>
    unfold Fetch.progress at hwait
    unfold Fetch.atEnd
    split at hwait
    · rename_i hlen
      rw [if_pos hlen]
      exact ih _ (h.2 _ (List.length_take_of_le hlen)) hwait
    · rename_i hlen
      obtain ⟨e, he⟩ := h.1
      rw [if_neg hlen, he]
      exact ⟨e, rfl⟩

end

end Fetch

end Lib
