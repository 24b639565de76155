import Aerion.Lib.Outcome

/-!
# Self-delimiting frames

A framing encodes frames as byte strings that a reader can take off the
front of a stream. A byte string is whole if it is a sequence of encoded
frames; reading frame after frame then gives back the sequence.
-/

namespace Lib

structure Framing (φ : Type) where
  encode : φ → Bytes
  read : Bytes → Option (φ × Bytes)
  encode_pos : ∀ f, 0 < (encode f).length
  read_encode : ∀ f rest, read (encode f ++ rest) = some (f, rest)

namespace Framing

variable {φ : Type} (F : Framing φ)

def encodeAll (frames : List φ) : Bytes := (frames.map F.encode).flatten

/-- Frame after frame until the bytes are used up; none of them is empty, so the length of the
bytes is fuel enough. -/
def readFuel : ℕ → Bytes → Option (List φ)
  | _, [] => some []
  | 0, _ :: _ => none
  | fuel + 1, b :: bytes => (F.read (b :: bytes)).bind fun (f, rest) =>
    (readFuel fuel rest).map (f :: ·)

def readAll (bytes : Bytes) : Option (List φ) := F.readFuel bytes.length bytes

/-- A sequence of whole frames. -/
def Whole (bytes : Bytes) : Prop := ∃ frames, bytes = F.encodeAll frames

@[simp] theorem encodeAll_nil : F.encodeAll [] = [] := rfl

theorem encodeAll_cons (f : φ) (frames : List φ) :
    F.encodeAll (f :: frames) = F.encode f ++ F.encodeAll frames := by
  simp [encodeAll]

theorem encodeAll_append (frames more : List φ) :
    F.encodeAll (frames ++ more) = F.encodeAll frames ++ F.encodeAll more := by
  simp [encodeAll]

theorem readFuel_encode {fuel : ℕ} (f : φ) (rest : Bytes) :
    F.readFuel (fuel + 1) (F.encode f ++ rest) = (F.readFuel fuel rest).map (f :: ·) := by
  have hpos := F.encode_pos f
  cases hbytes : F.encode f ++ rest with
  | nil =>
    rw [List.append_eq_nil_iff] at hbytes
    simp [hbytes.1] at hpos
  | cons b bytes =>
    rw [readFuel, ← hbytes, F.read_encode]
    rfl

theorem readFuel_encodeAll {fuel : ℕ} (frames : List φ) (h : (F.encodeAll frames).length ≤ fuel) :
    F.readFuel fuel (F.encodeAll frames) = some frames := by
  induction frames generalizing fuel with
  | nil => cases fuel <;> rfl
  | cons f frames ih =>
    have hpos := F.encode_pos f
    rw [encodeAll_cons, List.length_append] at h
    obtain ⟨fuel, rfl⟩ : ∃ n, fuel = n + 1 := ⟨fuel - 1, by omega⟩
    rw [encodeAll_cons, readFuel_encode, ih (by omega)]
    rfl

theorem readAll_encodeAll (frames : List φ) : F.readAll (F.encodeAll frames) = some frames :=
  F.readFuel_encodeAll frames (Nat.le_refl _)

variable {F}

theorem Whole.nil : F.Whole [] := ⟨[], rfl⟩

theorem Whole.encodeAll (frames : List φ) : F.Whole (F.encodeAll frames) := ⟨frames, rfl⟩

theorem Whole.append {bytes more : Bytes} (h : F.Whole bytes) (h' : F.Whole more) :
    F.Whole (bytes ++ more) := by
  obtain ⟨frames, rfl⟩ := h
  obtain ⟨others, rfl⟩ := h'
  exact ⟨frames ++ others, (F.encodeAll_append _ _).symm⟩

/-- A beginning of whole frames is whole frames and a proper part of one more. -/
theorem Whole.split {bytes rest : Bytes} (h : F.Whole (bytes ++ rest)) :
    ∃ frames part, bytes = F.encodeAll frames ++ part ∧
      (part ≠ [] → ∃ f tail more, tail ≠ [] ∧ F.encode f = part ++ tail ∧ rest = tail ++ more) := by
  obtain ⟨frames, hframes⟩ := h
  induction frames generalizing bytes with
  | nil => exact ⟨[], [], by simpa using (List.append_eq_nil_iff.mp hframes).1, nofun⟩
  | cons f frames ih =>
    rw [encodeAll_cons] at hframes
    rcases List.append_eq_append_iff.mp hframes with ⟨tail, hf, hrest⟩ | ⟨others, rfl, hothers⟩
    · by_cases htail : tail = []
      · refine ⟨[f], [], ?_, nofun⟩
        rw [htail, List.append_nil] at hf
        rw [encodeAll_cons, hf, encodeAll_nil, List.append_nil, List.append_nil]
      · exact ⟨[], bytes, by simp, fun _ => ⟨f, tail, F.encodeAll frames, htail, hf, hrest⟩⟩
    · obtain ⟨whole, part, rfl, hpart⟩ := ih hothers.symm
      exact ⟨f :: whole, part, by rw [encodeAll_cons, List.append_assoc], hpart⟩

/-- Bytes are whole exactly when what they read as encodes to them. -/
theorem whole_iff {bytes : Bytes} : F.Whole bytes ↔ (F.readAll bytes).map F.encodeAll = some bytes := by
  constructor
  · rintro ⟨frames, rfl⟩
    rw [readAll_encodeAll]
    rfl
  · intro h
    obtain ⟨frames, -, hframes⟩ := Option.map_eq_some_iff.mp h
    exact ⟨frames, hframes.symm⟩

instance (bytes : Bytes) : Decidable (F.Whole bytes) := decidable_of_iff _ whole_iff.symm

end Framing

/-! ### The frames at the front of a stream -/

section
variable {α : Type}

def frontsFuel (read : Bytes → Option (α × Bytes)) : ℕ → Bytes → List α
  | 0, _ => []
  | fuel + 1, bytes => match read bytes with
    | none => []
    | some (a, rest) => a :: frontsFuel read fuel rest

/-- The whole frames a stream begins with; it may end inside another one. -/
def fronts (read : Bytes → Option (α × Bytes)) (bytes : Bytes) : List α :=
  frontsFuel read bytes.length bytes

/-- A reader of one frame that takes some bytes and does not look at what follows them. -/
structure TakesFront (read : Bytes → Option (α × Bytes)) : Prop where
  shrinks : ∀ bytes a rest, read bytes = some (a, rest) → rest.length < bytes.length
  stable : ∀ bytes a rest more, read bytes = some (a, rest) → read (bytes ++ more) = some (a, rest ++ more)

variable {read : Bytes → Option (α × Bytes)} {bytes rest : Bytes} {a : α}

theorem frontsFuel_congr (h : TakesFront read) {fuel fuel' : ℕ} (hfuel : bytes.length ≤ fuel)
    (hfuel' : bytes.length ≤ fuel') : frontsFuel read fuel bytes = frontsFuel read fuel' bytes := by
  have hnone : read [] = none := by
    cases hread : read [] with
    | none => rfl
    | some next => exact absurd (h.shrinks [] next.1 next.2 hread) (Nat.not_lt_zero _)
  induction fuel generalizing bytes fuel' with
  | zero =>
    obtain rfl := List.length_eq_zero_iff.mp (Nat.le_zero.mp hfuel)
    cases fuel' with
    | zero => rfl
    | succ fuel' => simp [frontsFuel, hnone]
  | succ fuel ih =>
    cases fuel' with
    | zero =>
      obtain rfl := List.length_eq_zero_iff.mp (Nat.le_zero.mp hfuel')
      simp [frontsFuel, hnone]
    | succ fuel' =>
      rw [frontsFuel, frontsFuel]
      cases hread : read bytes with
      | none => rfl
      | some next =>
        have hless := h.shrinks bytes next.1 next.2 hread
        exact congrArg (next.1 :: ·) (ih (by omega) (by omega))

theorem fronts_some (h : TakesFront read) (hread : read bytes = some (a, rest)) :
    fronts read bytes = a :: fronts read rest := by
  have hless := h.shrinks _ _ _ hread
  rw [fronts, frontsFuel_congr h (Nat.le_refl _) (Nat.le_succ _), frontsFuel, hread]
  exact congrArg (a :: ·) (frontsFuel_congr h (by omega) (Nat.le_refl _))

theorem fronts_none (hread : read bytes = none) : fronts read bytes = [] := by
  unfold fronts
  cases bytes with
  | nil => rfl
  | cons b bytes => rw [List.length_cons, frontsFuel, hread]

/-- More bytes only add frames. -/
theorem fronts_append (h : TakesFront read) (bytes more : Bytes) :
    fronts read bytes <+: fronts read (bytes ++ more) := by
  induction hlen : bytes.length using Nat.strongRecOn generalizing bytes with
  | _ n ih =>
    cases hread : read bytes with
    | none => rw [fronts_none hread]; exact List.nil_prefix
    | some next =>
      obtain ⟨a, rest⟩ := next
      rw [fronts_some h hread, fronts_some h (h.stable _ _ _ more hread)]
      exact (List.prefix_cons_inj a).mpr (ih _ (hlen ▸ h.shrinks _ _ _ hread) rest rfl)

end

end Lib
