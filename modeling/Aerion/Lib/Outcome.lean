import Mathlib.Algebra.Group.Nat.Defs
import Mathlib.Data.List.Basic
import Mathlib.Data.List.Forall2
import Mathlib.Data.Nat.Notation

/-!
# Results of code that can fail or panic

A call returns a value, returns an error with its text, or panics. Slicing,
indexing and machine addition panic as the language defines it: a slice
whose bounds are out of order or past the end, an index past the end, and,
in a build that checks overflow, an addition past the word.
-/

namespace Lib

inductive Outcome (α : Type) where
  | ok (value : α)
  | err (message : String)
  | panic
  deriving DecidableEq, Repr

namespace Outcome

variable {α β : Type}

protected def bind : Outcome α → (α → Outcome β) → Outcome β
  | .ok a, f => f a
  | .err e, _ => .err e
  | .panic, _ => .panic

instance : Monad Outcome where
  pure := .ok
  bind := Outcome.bind

instance : LawfulMonad Outcome := LawfulMonad.mk' Outcome
  (fun x => by cases x <;> rfl) (fun _ _ => rfl) (fun x _ _ => by cases x <;> rfl)

/-- `ensure!`: an error with the given text unless the condition holds. -/
def ensure (b : Bool) (message : String) : Outcome Unit :=
  if b then .ok () else .err message

/-- `Option::context`: an error with the given text on a missing value. -/
def need (o : Option α) (message : String) : Outcome α :=
  match o with
  | some a => .ok a
  | none => .err message

/-- `Result::context`: the error under a further text. -/
def context (message : String) : Outcome α → Outcome α
  | .err e => .err s!"{message}: {e}"
  | x => x

instance decidableOk (x : Outcome α) (P : α → Prop) [DecidablePred P] :
    Decidable (∀ a, x = .ok a → P a) :=
  match x with
  | .ok a => decidable_of_iff (P a) ⟨fun h _ ha => Outcome.ok.inj ha ▸ h, fun h => h a rfl⟩
  | .err _ => .isTrue nofun
  | .panic => .isTrue nofun

instance decidableExistsOk (x : Outcome α) (P : α → Prop) [DecidablePred P] :
    Decidable (∃ a, x = .ok a ∧ P a) :=
  match x with
  | .ok a => decidable_of_iff (P a) ⟨fun h => ⟨a, rfl, h⟩, fun ⟨_, ha, h⟩ => Outcome.ok.inj ha ▸ h⟩
  | .err _ => .isFalse nofun
  | .panic => .isFalse nofun

@[simp] theorem pure_eq (a : α) : (pure a : Outcome α) = .ok a := rfl
@[simp] theorem ok_bind (a : α) (f : α → Outcome β) : (Outcome.ok a >>= f) = f a := rfl
@[simp] theorem err_bind (e : String) (f : α → Outcome β) : (Outcome.err e >>= f) = .err e := rfl
@[simp] theorem panic_bind (f : α → Outcome β) : (Outcome.panic >>= f) = .panic := rfl

theorem bind_ok {x : Outcome α} {f : α → Outcome β} {b : β} :
    x >>= f = .ok b ↔ ∃ a, x = .ok a ∧ f a = .ok b := by
  cases x <;> simp

theorem map_ne_panic {x : Outcome α} {f : α → β} (h : x ≠ .panic) : f <$> x ≠ .panic := by
  cases x with
  | panic => exact absurd rfl h
  | _ => nofun

theorem bind_panic {x : Outcome α} {f : α → Outcome β} :
    x >>= f = .panic ↔ x = .panic ∨ ∃ a, x = .ok a ∧ f a = .panic := by
  cases x <;> simp

theorem ensure_ok {b : Bool} {message : String} {u : Unit} :
    ensure b message = .ok u ↔ b = true := by
  cases b <;> simp [ensure]

theorem ensure_pos {b : Bool} {message : String} (h : b = true) : ensure b message = .ok () :=
  ensure_ok.mpr h

theorem ensure_neg {b : Bool} {message : String} (h : ¬b = true) :
    ensure b message = .err message := by
  simp [ensure, h]

@[simp] theorem ensure_panic {b : Bool} {message : String} :
    ensure b message = .panic ↔ False := by
  cases b <;> simp [ensure]

theorem ensure_ne_panic (b : Bool) (message : String) : ensure b message ≠ .panic := by
  cases b <;> simp [ensure]

theorem need_ne_panic (o : Option α) (message : String) : need o message ≠ .panic := by
  cases o <;> simp [need]

theorem bind_ne_panic {x : Outcome α} {f : α → Outcome β} (hx : x ≠ .panic)
    (hf : ∀ a, x = .ok a → f a ≠ .panic) : x >>= f ≠ .panic := by
  rw [ne_eq, bind_panic]
  rintro (h | ⟨a, h, hpanic⟩)
  · exact hx h
  · exact hf a h hpanic

theorem mapM_ne_panic {f : α → Outcome β} (hf : ∀ a, f a ≠ .panic) (l : List α) :
    l.mapM f ≠ .panic := by
  induction l with
  | nil => nofun
  | cons a l ih =>
    rw [List.mapM_cons]
    exact bind_ne_panic (hf a) fun b _ => bind_ne_panic ih fun bs _ => nofun

/-- The successful results of a list are those of its members. -/
theorem mapM_ok {f : α → Outcome β} {l : List α} {r : List β} :
    l.mapM f = .ok r ↔ List.Forall₂ (fun a b => f a = .ok b) l r := by
  induction l generalizing r with
  | nil => simp [eq_comm]
  | cons a l ih =>
    rw [List.mapM_cons, bind_ok, List.forall₂_cons_left_iff]
    simp only [bind_ok, ih, pure_eq, Outcome.ok.injEq]
    constructor
    · rintro ⟨b, hb, bs, hbs, rfl⟩
      exact ⟨b, bs, hb, hbs, rfl⟩
    · rintro ⟨b, bs, hb, hbs, rfl⟩
      exact ⟨b, hb, bs, hbs, rfl⟩

theorem exists_mapM_ok {f : α → Outcome β} {l : List α} {r : List β} {P : β → Prop} (h : l.mapM f = .ok r) :
    (∃ b ∈ r, P b) ↔ ∃ a ∈ l, ∃ b, f a = .ok b ∧ P b := by
  have hall := mapM_ok.mp h
  clear h
  induction hall with
  | nil => simp
  | cons hab _ ih => simp [hab, ih]

theorem mem_of_mapM_ok {f : α → Outcome β} {l : List α} {r : List β} {b : β}
    (h : l.mapM f = .ok r) (hb : b ∈ r) : ∃ a ∈ l, f a = .ok b := by
  obtain ⟨a, ha, b', hab, rfl⟩ := (exists_mapM_ok h).mp ⟨b, hb, rfl⟩
  exact ⟨a, ha, hab⟩

/-- The call does not panic, and what it returns has a property. -/
def Meets (x : Outcome α) (P : α → Prop) : Prop := x ≠ .panic ∧ ∀ a, x = .ok a → P a

section

variable {x : Outcome α} {f : α → Outcome β} {P : α → Prop} {Q : β → Prop}

theorem Meets.ok {a : α} (h : P a) : Meets (.ok a) P :=
  ⟨nofun, fun _ ha => Outcome.ok.inj ha ▸ h⟩

theorem Meets.err (e : String) : Meets (.err e) P := ⟨nofun, nofun⟩

theorem Meets.bind (hx : Meets x P) (hf : ∀ a, P a → Meets (f a) Q) : Meets (x >>= f) Q := by
  cases x with
  | ok a => exact hf a (hx.2 a rfl)
  | err e => exact Meets.err e
  | panic => exact absurd rfl hx.1

theorem Meets.ensure {b : Bool} {message : String} {f : Unit → Outcome β}
    (hf : b = true → Meets (f ()) Q) : Meets (Outcome.ensure b message >>= f) Q := by
  cases b with
  | true => exact hf rfl
  | false => exact Meets.err message

theorem Meets.bind_ne_panic (hx : Meets x P) (hf : ∀ a, P a → f a ≠ .panic) : x >>= f ≠ .panic :=
  Outcome.bind_ne_panic hx.1 fun a ha => hf a (hx.2 a ha)

theorem ensure_bind_ne_panic {b : Bool} {message : String} {f : Unit → Outcome β}
    (hf : b = true → f () ≠ .panic) : Outcome.ensure b message >>= f ≠ .panic :=
  Outcome.bind_ne_panic (ensure_ne_panic b message) fun _ h => hf (ensure_ok.mp h)

theorem Meets.mono {P' : α → Prop} (hx : Meets x P) (h : ∀ a, P a → P' a) : Meets x P' :=
  ⟨hx.1, fun a ha => h a (hx.2 a ha)⟩

theorem Meets.need {o : Option α} {message : String} : Meets (Outcome.need o message) (o = some ·) := by
  cases o with
  | some a => exact Meets.ok rfl
  | none => exact Meets.err message

end

theorem need_ok {o : Option α} {message : String} {a : α} :
    need o message = .ok a ↔ o = some a := by
  cases o <;> simp [need]

@[simp] theorem need_panic {o : Option α} {message : String} :
    need o message = .panic ↔ False := by
  cases o <;> simp [need]

/-- The same value, or no value on either side. -/
inductive Agree : Outcome α → Outcome α → Prop
  | ok (a : α) : Agree (.ok a) (.ok a)
  | err (e e' : String) : Agree (.err e) (.err e')
  | panic : Agree .panic .panic

theorem Agree.refl (x : Outcome α) : Agree x x := by
  cases x with
  | ok a => exact .ok a
  | err e => exact .err e e
  | panic => exact .panic

theorem Agree.bind {x y : Outcome α} (h : Agree x y) (f : α → Outcome β) :
    Agree (x >>= f) (y >>= f) := by
  cases h with
  | ok a => exact .refl _
  | err e e' => exact .err e e'
  | panic => exact .panic

theorem Agree.symm {x y : Outcome α} (h : Agree x y) : Agree y x := by
  cases h with
  | ok a => exact .ok a
  | err e e' => exact .err e' e
  | panic => exact .panic

theorem Agree.eq_ok {x : Outcome α} {a : α} (h : Agree x (.ok a)) : x = .ok a := by
  cases h
  rfl

theorem Agree.eq_err {x : Outcome α} {e : String} (h : Agree x (.err e)) : ∃ e', x = .err e' := by
  cases h
  exact ⟨_, rfl⟩

theorem Agree.eq_panic {x : Outcome α} (h : Agree x .panic) : x = .panic := by
  cases h
  rfl

end Outcome

/-! ### Slices and machine words -/

abbrev Bytes := List UInt8

/-- `bytes[i]`. -/
def index (bytes : Bytes) (i : ℕ) : Outcome UInt8 :=
  match bytes[i]? with
  | some b => .ok b
  | none => .panic

/-- `&bytes[start..stop]`. -/
def slice (bytes : Bytes) (start stop : ℕ) : Outcome Bytes :=
  if start ≤ stop ∧ stop ≤ bytes.length then .ok ((bytes.take stop).drop start) else .panic

/-- How the build treats an addition that leaves the word. -/
inductive Overflow where
  | checked
  | wrapping
  deriving DecidableEq, Repr

/-- The number of values of a 64-bit word. -/
def wordSize : ℕ := 2 ^ 64

/-- `a + b` on 64-bit words. -/
def addWord (mode : Overflow) (a b : ℕ) : Outcome ℕ :=
  if a + b < wordSize then .ok (a + b)
  else match mode with
    | .checked => .panic
    | .wrapping => .ok ((a + b) % wordSize)

theorem index_ok {bytes : Bytes} {i : ℕ} {b : UInt8} :
    index bytes i = .ok b ↔ bytes[i]? = some b := by
  unfold index
  cases bytes[i]? <;> simp

theorem index_panic {bytes : Bytes} {i : ℕ} : index bytes i = .panic ↔ bytes.length ≤ i := by
  unfold index
  cases h : bytes[i]? with
  | none => simpa using List.getElem?_eq_none_iff.mp h
  | some b =>
    have : i < bytes.length := (List.getElem?_eq_some_iff.mp h).1
    simp only [reduceCtorEq, false_iff]
    omega

theorem index_meets {bytes : Bytes} {i : ℕ} (h : i < bytes.length) :
    (index bytes i).Meets (bytes[i]? = some ·) :=
  ⟨fun hp => absurd (index_panic.mp hp) (by omega), fun _ => index_ok.mp⟩

theorem slice_ok {bytes out : Bytes} {start stop : ℕ} :
    slice bytes start stop = .ok out ↔
      start ≤ stop ∧ stop ≤ bytes.length ∧ out = (bytes.take stop).drop start := by
  unfold slice
  split
  · rename_i h
    simp [h, eq_comm]
  · rename_i h
    simp only [reduceCtorEq, false_iff]
    exact fun h' => h ⟨h'.1, h'.2.1⟩

theorem slice_panic {bytes : Bytes} {start stop : ℕ} :
    slice bytes start stop = .panic ↔ ¬(start ≤ stop ∧ stop ≤ bytes.length) := by
  unfold slice
  split <;> simp_all

theorem slice_meets {bytes : Bytes} {start stop : ℕ} (h : start ≤ stop) (h' : stop ≤ bytes.length) :
    (slice bytes start stop).Meets (· = (bytes.take stop).drop start) :=
  ⟨fun hp => slice_panic.mp hp ⟨h, h'⟩, fun _ ho => (slice_ok.mp ho).2.2⟩

theorem addWord_of_lt {mode : Overflow} {a b : ℕ} (h : a + b < wordSize) :
    addWord mode a b = .ok (a + b) := by
  simp [addWord, h]

/-! ### Reading from a stream -/

/-- Code that reads from a stream, which holds the bytes up to its end. -/
abbrev Reader (α : Type) := StateT Bytes Outcome α

/-- `read_exact`, with the text its error carries. -/
def readExact (n : ℕ) (message : String) : Reader Bytes := fun input =>
  if n ≤ input.length then .ok (input.take n, input.drop n) else .err message

section

variable {α β : Type}

@[simp] theorem Reader.pure_apply (a : α) (input : Bytes) :
    (pure a : Reader α) input = .ok (a, input) := rfl

theorem Reader.bind_apply (x : Reader α) (f : α → Reader β) (input : Bytes) :
    (x >>= f) input = x input >>= fun p => f p.1 p.2 := rfl

theorem Reader.lift_apply (x : Outcome α) (input : Bytes) :
    (liftM x : Reader α) input = x >>= fun a => .ok (a, input) := rfl

theorem Reader.bind_panic {x : Reader α} {f : α → Reader β} {input : Bytes} :
    (x >>= f) input = .panic ↔
      x input = .panic ∨ ∃ a rest, x input = .ok (a, rest) ∧ f a rest = .panic := by
  rw [Reader.bind_apply, Outcome.bind_panic, Prod.exists]

@[simp] theorem Reader.lift_panic {x : Outcome α} {input : Bytes} :
    (liftM x : Reader α) input = .panic ↔ x = .panic := by
  cases x <;> simp [Reader.lift_apply]

theorem Reader.lift_ok {x : Outcome α} {input rest : Bytes} {a : α} :
    (liftM x : Reader α) input = .ok (a, rest) ↔ x = .ok a ∧ input = rest := by
  cases x <;> simp [Reader.lift_apply]

@[simp] theorem readExact_panic {n : ℕ} {message : String} {input : Bytes} :
    readExact n message input = .panic ↔ False := by
  unfold readExact
  split <;> simp

theorem readExact_ok {n : ℕ} {message : String} {input out rest : Bytes} :
    readExact n message input = .ok (out, rest) ↔ out.length = n ∧ input = out ++ rest := by
  unfold readExact
  split
  · rename_i h
    simp only [Outcome.ok.injEq, Prod.mk.injEq]
    constructor
    · rintro ⟨rfl, rfl⟩
      exact ⟨List.length_take_of_le h, (List.take_append_drop n input).symm⟩
    · rintro ⟨rfl, rfl⟩
      simp
  · rename_i h
    simp only [reduceCtorEq, false_iff, not_and]
    rintro rfl rfl
    simp at h

end

/-! ### Calls on a state -/

/-- A call on a state that keeps what it changed before it failed. -/
def Stateful (σ α : Type) := σ → Outcome α × σ

namespace Stateful

variable {σ α β : Type}

protected def bind (x : Stateful σ α) (f : α → Stateful σ β) : Stateful σ β := fun s =>
  match x s with
  | (.ok a, s) => f a s
  | (.err e, s) => (.err e, s)
  | (.panic, s) => (.panic, s)

instance : Monad (Stateful σ) where
  pure a := fun s => (.ok a, s)
  bind := Stateful.bind

instance : MonadLift Outcome (Stateful σ) where
  monadLift x := fun s => (x, s)

def get : Stateful σ σ := fun s => (.ok s, s)

/-- A change of the state that can fail, and then leaves it as it was. -/
def update (f : σ → Outcome σ) : Stateful σ Unit := fun s =>
  match f s with
  | .ok s' => (.ok (), s')
  | .err e => (.err e, s)
  | .panic => (.panic, s)

/-- A call on a part of the state. -/
def zoom {τ : Type} (view : σ → τ) (put : τ → σ → σ) (x : Stateful τ α) : Stateful σ α := fun s =>
  let (result, t) := x (view s)
  (result, put t s)

/-- What holds of the state before a call holds after it, however it ends. -/
def Keeps (I : σ → Prop) (x : Stateful σ α) : Prop := ∀ s, I s → I (x s).2

/-- What holds of the state before a call holds after it, and the call does not panic. -/
def Safe (I : σ → Prop) (x : Stateful σ α) : Prop := ∀ s, I s → (x s).1 ≠ .panic ∧ I (x s).2

variable {I : σ → Prop}

theorem bind_ok {x : Stateful σ α} {f : α → Stateful σ β} {s : σ} {b : β} :
    ((x >>= f) s).1 = .ok b ↔ ∃ a, (x s).1 = .ok a ∧ (f a (x s).2).1 = .ok b := by
  show (Stateful.bind x f s).1 = .ok b ↔ _
  unfold Stateful.bind
  cases h : x s with
  | mk result s' => cases result <;> simp

theorem Keeps.pure (a : α) : Keeps I (Pure.pure a : Stateful σ α) := fun _ hs => hs

theorem Keeps.lift (x : Outcome α) : Keeps I (liftM x : Stateful σ α) := fun _ hs => hs

theorem Keeps.bind {x : Stateful σ α} {f : α → Stateful σ β} (hx : Keeps I x)
    (hf : ∀ a, Keeps I (f a)) : Keeps I (x >>= f) := by
  intro s hs
  have hi := hx s hs
  show I (Stateful.bind x f s).2
  unfold Stateful.bind
  cases h : x s with
  | mk result s' =>
    rw [h] at hi
    cases result with
    | ok a => exact hf a s' hi
    | err e => exact hi
    | panic => exact hi

theorem Keeps.get : Keeps I (Stateful.get : Stateful σ σ) := fun _ hs => hs

theorem Keeps.update {f : σ → σ} (hf : ∀ s, I s → I (f s)) :
    Keeps I (Stateful.update fun s => .ok (f s)) := hf

theorem Keeps.zoom {τ : Type} {view : σ → τ} {put : τ → σ → σ} {x : Stateful τ α}
    (hput : ∀ s t, I s → I (put t s)) : Keeps I (Stateful.zoom view put x) :=
  fun s hs => hput s _ hs

theorem Safe.pure (a : α) : Safe I (Pure.pure a : Stateful σ α) :=
  fun _ hs => ⟨nofun, hs⟩

theorem Safe.bind {x : Stateful σ α} {f : α → Stateful σ β} (hx : Safe I x)
    (hf : ∀ a, Safe I (f a)) : Safe I (x >>= f) := by
  intro s hs
  obtain ⟨hne, hi⟩ := hx s hs
  show (Stateful.bind x f s).1 ≠ .panic ∧ I (Stateful.bind x f s).2
  unfold Stateful.bind
  cases h : x s with
  | mk result s' =>
    rw [h] at hne hi
    cases result with
    | ok a => exact hf a s' hi
    | err e => exact ⟨nofun, hi⟩
    | panic => exact absurd rfl hne

/-- A call that keeps every state a property admits keeps the property. -/
theorem Safe.of_eq {x : Stateful σ α} (h : ∀ s, I s → Safe (· = s) x) : Safe I x := fun s hs =>
  ⟨(h s hs s rfl).1, (h s hs s rfl).2.symm ▸ hs⟩

theorem Safe.lift {x : Outcome α} (h : x ≠ .panic) : Safe I (liftM x : Stateful σ α) :=
  fun _ hs => ⟨h, hs⟩

theorem Safe.lift_bind {x : Outcome α} {f : α → Stateful σ β} (hx : x ≠ .panic)
    (hf : ∀ a, x = .ok a → Safe I (f a)) : Safe I ((liftM x : Stateful σ α) >>= f) := by
  cases x with
  | ok a => exact hf a rfl
  | err e => exact fun _ hs => ⟨nofun, hs⟩
  | panic => exact absurd rfl hx

theorem Safe.get_bind {f : σ → Stateful σ α} (hf : ∀ s, I s → Safe I (f s)) :
    Safe I (Stateful.get >>= f) := fun s hs => hf s hs s hs

theorem Safe.ensure_bind {b : Bool} {message : String} {f : Unit → Stateful σ α}
    (hf : b = true → Safe I (f ())) :
    Safe I ((liftM (Outcome.ensure b message) : Stateful σ Unit) >>= f) := by
  cases b with
  | true => exact hf rfl
  | false => exact fun _ hs => ⟨nofun, hs⟩

theorem Safe.update {f : σ → Outcome σ} (hp : ∀ s, I s → f s ≠ .panic)
    (hi : ∀ s s', I s → f s = .ok s' → I s') : Safe I (Stateful.update f) := by
  intro s hs
  unfold Stateful.update
  cases h : f s with
  | ok s' => exact ⟨nofun, hi s s' hs h⟩
  | err e => exact ⟨nofun, hs⟩
  | panic => exact absurd h (hp s hs)

theorem Safe.zoom {τ : Type} {view : σ → τ} {put : τ → σ → σ} {x : Stateful τ α} {J : τ → Prop}
    (hx : Safe J x) (hview : ∀ s, I s → J (view s)) (hput : ∀ s t, I s → J t → I (put t s)) :
    Safe I (Stateful.zoom view put x) := fun s hs =>
  ⟨(hx _ (hview s hs)).1, hput s _ hs (hx _ (hview s hs)).2⟩

end Stateful

end Lib
