import Aerion.Sudoku.Codec

/-!
# The codec round trip

What an encoder emits for a byte string, a decoder between two byte strings
turns back into it, and it is between two byte strings again. Padding is
skipped wherever it stands, and the bytes may come in any segments.
-/

namespace Aerion.Sudoku

open Lib Outcome

/-! ### What is emitted -/

/-- The data bytes of groups, with padding anywhere before them. -/
inductive Carries (layout : Layout) (pool : Bytes) : List Group → Bytes → Prop
  | nil : Carries layout pool [] []
  | data {g : Group} {gs : List Group} {w : Bytes} :
      Carries layout pool gs w → Carries layout pool (g :: gs) (layout.encode g :: w)
  | pad {b : UInt8} {gs : List Group} {w : Bytes} :
      b ∈ pool → Carries layout pool gs w → Carries layout pool gs (b :: w)

section

variable {layout : Layout} {pool : Bytes} {padding : UInt8}

theorem emit_ok {g : Group} {draws : Bytes} (hpool : pool ≠ [])
    (hdraws : padding = 0 ∨ 2 ≤ draws.length) :
    ∃ bytes rest, emit layout pool padding g draws = .ok (bytes, rest) ∧
      draws.length ≤ rest.length + 2 ∧
      (bytes = [layout.encode g] ∨ ∃ b ∈ pool, bytes = [b, layout.encode g]) := by
  unfold emit
  split
  · exact ⟨_, _, rfl, by omega, .inl rfl⟩
  · rename_i hpadding
    have htwo := hdraws.resolve_left hpadding
    match draws, htwo with
    | chance :: choice :: draws, _ =>
      dsimp only
      split
      · have hlt : choice.toNat % pool.length < pool.length :=
          Nat.mod_lt _ (List.length_pos_iff.mpr hpool)
        rw [List.getElem?_eq_getElem hlt]
        exact ⟨_, _, rfl, by simp, .inr ⟨_, List.getElem_mem hlt, rfl⟩⟩
      · exact ⟨_, _, rfl, by simp, .inl rfl⟩

theorem emitAll_carries {groups : List Group} {draws : Bytes} (hpool : pool ≠ [])
    (hdraws : padding = 0 ∨ 2 * groups.length ≤ draws.length) :
    ∃ wire, emitAll layout pool padding groups draws = .ok wire ∧ Carries layout pool groups wire := by
  induction groups generalizing draws with
  | nil => exact ⟨[], rfl, .nil⟩
  | cons g groups ih =>
    rw [List.length_cons] at hdraws
    obtain ⟨bytes, rest, hemit, hlen, hbytes⟩ :=
      @emit_ok layout pool padding g draws hpool (hdraws.imp_right fun h => by omega)
    have hrest : padding = 0 ∨ 2 * groups.length ≤ rest.length := hdraws.imp_right fun h => by omega
    obtain ⟨wire, hrest, hcarries⟩ := ih hrest
    refine ⟨bytes ++ wire, by simp only [emitAll, hemit, ok_bind, hrest, pure_eq], ?_⟩
    rcases hbytes with rfl | ⟨b, hb, rfl⟩
    · exact .data hcarries
    · exact .pad hb (.data hcarries)

theorem Carries.transduce {groups : List Group} {wire : Bytes} (h : Carries layout pool groups wire)
    {step : Decoder → UInt8 → Outcome (Decoder × Bytes)}
    {group : Decoder → Group → Outcome (Decoder × Bytes)}
    (hdata : ∀ d g, d.layout = layout → step d (layout.encode g) = group d g)
    (hpad : ∀ d, ∀ b ∈ pool, d.layout = layout → step d b = .ok (d, []))
    (hkeep : ∀ d g d' o, group d g = .ok (d', o) → d'.layout = d.layout)
    {d d' : Decoder} {out : Bytes} (hd : d.layout = layout)
    (hrun : transduce group groups d = .ok (d', out)) : transduce step wire d = .ok (d', out) := by
  induction h generalizing d out with
  | nil => exact hrun
  | @data g gs w _ ih =>
    obtain ⟨mid, o₁, o₂, hfirst, hrest, rfl⟩ := transduce_cons_ok.mp hrun
    have hmid : mid.layout = layout := (hkeep d g mid o₁ hfirst).trans hd
    exact transduce_cons_ok.mpr ⟨mid, o₁, o₂, (hdata d g hd).trans hfirst, ih hmid hrest, rfl⟩
  | @pad b gs w hb _ ih =>
    exact transduce_cons_ok.mpr ⟨d, [], out, hpad d b hb hd, ih hd hrun, rfl⟩

end

/-! ### Pure streams -/

structure Idle (t : Table) (down packed : Bool) (d : Decoder) : Prop where
  table : d.table = t
  layout : d.layout = t.layout down
  packed : d.packed = packed
  count : d.count = 0
  bits : d.bits = 0

theorem pureGroup_layout {d d' : Decoder} {g : Group} {o : Bytes} (h : d.pureGroup g = .ok (d', o)) :
    d'.layout = d.layout ∧ d'.packed = d.packed := by
  obtain ⟨hints, -, h⟩ := bind_ok.mp h
  split at h
  · obtain ⟨byte, -, h⟩ := bind_ok.mp h
    cases h
    exact ⟨rfl, rfl⟩
  · cases h
    exact ⟨rfl, rfl⟩

theorem mixHints_ok (hints : Hints) (r₁ r₂ r₃ : UInt8) :
    ∃ mixed : Hints, mixHints hints.toList r₁ r₂ r₃ = .ok mixed.toList ∧
      mixed.toList.Perm hints.toList := by
  obtain ⟨l₃, h₃, p₃⟩ := @swap_ok _ hints.toList 3 (r₃.toNat % 4) (by simp [Hints.toList])
    (Nat.mod_lt _ (by decide))
  have hlen₃ : l₃.length = 4 := p₃.length_eq
  obtain ⟨l₂, h₂, p₂⟩ := @swap_ok _ l₃ 2 (r₂.toNat % 3) (by omega) (by omega)
  have hlen₂ : l₂.length = 4 := p₂.length_eq.trans hlen₃
  obtain ⟨l₁, h₁, p₁⟩ := @swap_ok _ l₂ 1 (r₁.toNat % 2) (by omega) (by omega)
  have hlen₁ : l₁.length = 4 := p₁.length_eq.trans hlen₂
  obtain ⟨a, b, c, d, rfl⟩ := List.length_eq_four.mp hlen₁
  refine ⟨⟨a, b, c, d⟩, ?_, (p₁.trans p₂).trans p₃⟩
  simp only [mixHints, h₃, ok_bind, h₂, h₁]
  rfl

theorem chooseHints_ok {choices : List Hints} (h : choices ≠ []) (r₀ r₁ r₂ r₃ : UInt8) :
    ∃ key ∈ choices, ∃ mixed : Hints, chooseHints choices r₀ r₁ r₂ r₃ = .ok mixed.toList ∧
      mixed.toList.Perm key.toList := by
  have hlt : ofBe [r₀, r₁] % choices.length < choices.length :=
    Nat.mod_lt _ (List.length_pos_iff.mpr h)
  obtain ⟨key, hkey⟩ : ∃ key, choices[ofBe [r₀, r₁] % choices.length]? = some key :=
    ⟨_, List.getElem?_eq_getElem hlt⟩
  obtain ⟨mixed, hmix, hperm⟩ := mixHints_ok key r₁ r₂ r₃
  refine ⟨key, List.mem_of_getElem? hkey, mixed, ?_, hperm⟩
  rw [chooseHints, hkey]
  exact hmix

section

variable {t : Table} {down : Bool}

theorem puzzle_ok (ht : t.Sound) (byte : UInt8) {random : Bytes} (hrandom : random.length = 4) :
    ∃ hints : Hints, puzzle t byte random = .ok hints.toList ∧ t.decode hints = .ok byte := by
  have hbyte := byte.toNat_lt
  obtain ⟨grid, hgrid⟩ : ∃ grid, t.order[byte.toNat]? = some grid :=
    ⟨_, List.getElem?_eq_getElem (by rw [ht.length]; omega)⟩
  match random, hrandom with
  | [r₀, r₁, r₂, r₃], _ =>
    obtain ⟨key, hkey, mixed, hchoose, hperm⟩ :=
      chooseHints_ok (encodings_ne_nil (ht.order_lt hgrid)) r₀ r₁ r₂ r₃
    refine ⟨mixed, ?_, ht.decode_hints hgrid hkey hperm⟩
    unfold puzzle
    rw [hgrid]
    exact hchoose

theorem transduce_hints {d : Decoder} {hints : Hints} {byte : UInt8} (hd : Idle t down false d)
    (hdecode : t.decode hints = .ok byte) :
    ∃ d', transduce Decoder.pureGroup hints.toList d = .ok (d', [byte]) ∧ Idle t down false d' := by
  have hcount := hd.count
  have htable := hd.table
  refine ⟨{ d with hints := hints, count := 0 }, ?_, ⟨hd.table, hd.layout, hd.packed, rfl, hd.bits⟩⟩
  simp [Hints.toList, transduce, Decoder.pureGroup, Hints.put, hcount, htable, hdecode]

theorem puzzles_ok (ht : t.Sound) {input random : Bytes} (hrandom : random.length = input.length * 4)
    {d : Decoder} (hd : Idle t down false d) :
    ∃ groups d', puzzles t input random = .ok groups ∧ groups.length = input.length * 4 ∧
      transduce Decoder.pureGroup groups d = .ok (d', input) ∧ Idle t down false d' := by
  induction input generalizing random d with
  | nil => exact ⟨[], d, rfl, rfl, rfl, hd⟩
  | cons byte input ih =>
    rw [List.length_cons] at hrandom
    obtain ⟨hints, hpuzzle, hdecode⟩ := puzzle_ok ht byte
      (show (random.take 4).length = 4 by rw [List.length_take]; omega)
    obtain ⟨mid, hfirst, hmid⟩ := transduce_hints hd hdecode
    obtain ⟨groups, d', hrest, hlen, hrun, hd'⟩ := ih
      (show (random.drop 4).length = input.length * 4 by rw [List.length_drop]; omega) hmid
    refine ⟨hints.toList ++ groups, d', ?_, ?_, transduce_append_ok hfirst hrun, hd'⟩
    · simp only [puzzles, hpuzzle, ok_bind, hrest, pure_eq]
    · rw [List.length_append, hlen, List.length_cons]
      simp only [Hints.toList, List.length_cons, List.length_nil]
      omega

end

/-! ### Packed streams -/

theorem shift_or {x y k : ℕ} (hy : y < 2 ^ k) : (x <<< k) ||| y = x * 2 ^ k + y := by
  rw [← Nat.shiftLeft_add_eq_or_of_lt hy, Nat.shiftLeft_eq]

theorem and_mask (x k : ℕ) : x &&& ((1 <<< k) - 1) = x % 2 ^ k := by
  rw [Nat.one_shiftLeft, Nat.and_two_pow_sub_one_eq_mod]

theorem packedGroup_full {d : Decoder} {g : Group} {b : UInt8} {c r : ℕ} (hc : d.count = c + 2)
    (hbits : d.bits * 64 + g.val = b.toNat * 2 ^ c + r) (hr : r < 2 ^ c) :
    d.packedGroup g = ({ d with bits := r, count := c }, [b]) := by
  have hmod : (b.toNat * 2 ^ c + r) % 2 ^ c = r := by
    rw [Nat.mul_comm, Nat.mul_add_mod, Nat.mod_eq_of_lt hr]
  have hdiv : (b.toNat * 2 ^ c + r) / 2 ^ c = b.toNat := by
    rw [Nat.mul_comm, Nat.mul_add_div (Nat.two_pow_pos c), Nat.div_eq_of_lt hr, Nat.add_zero]
  unfold Decoder.packedGroup
  simp only [shift_or (k := 6) g.isLt, and_mask, Nat.shiftRight_eq_div_pow]
  rw [if_pos (by omega), show d.count + 6 - 8 = c by omega]
  simp only [Nat.reducePow, hbits, hmod, hdiv, UInt8.ofNat_toNat]

theorem packedGroup_part {d : Decoder} {g : Group} (hc : d.count = 0) (hbits : d.bits = 0) :
    d.packedGroup g = ({ d with bits := g.val, count := 6 }, []) := by
  unfold Decoder.packedGroup
  simp only [shift_or (k := 6) g.isLt, hc, hbits]
  rw [if_neg (by omega), Nat.zero_mul, Nat.zero_add]

theorem packedGroup_frame (d : Decoder) (g : Group) :
    (d.packedGroup g).1.table = d.table ∧ (d.packedGroup g).1.layout = d.layout ∧
      (d.packedGroup g).1.packed = d.packed := by
  unfold Decoder.packedGroup
  dsimp only
  split
  · exact ⟨rfl, rfl, rfl⟩
  · exact ⟨rfl, rfl, rfl⟩

/-- The bits a packer has left and those an unpacker holds: together they are the last byte, if
there is one that is not yet through. -/
structure Held (d : Decoder) (bits count : ℕ) (held : Bytes) : Prop where
  cases : held = [] ∧ count = 0 ∧ bits = 0 ∧ d.count = 0 ∧ d.bits = 0 ∨
    ∃ b : UInt8, held = [b] ∧ (count = 2 ∨ count = 4) ∧ d.count = 8 - count ∧
      d.bits = b.toNat / 2 ^ count ∧ bits = b.toNat % 2 ^ count

def groupOf (n : ℕ) : Group := ⟨n % 64, Nat.mod_lt _ (by decide)⟩

theorem drainGroups_eight (bits : ℕ) : drainGroups bits 8 = ([groupOf (bits >>> 2)], 2) := rfl

theorem drainGroups_ten (bits : ℕ) : drainGroups bits 10 = ([groupOf (bits >>> 4)], 4) := rfl

theorem drainGroups_twelve (bits : ℕ) :
    drainGroups bits 12 = ([groupOf (bits >>> 6), groupOf (bits >>> 0)], 0) := rfl

abbrev packedStep (d : Decoder) (g : Group) : Outcome (Decoder × Bytes) := .ok (d.packedGroup g)

theorem Held.byte {d : Decoder} {bits count : ℕ} {held : Bytes} (h : Held d bits count held)
    (byte : UInt8) :
    ∃ d' out held', transduce packedStep (drainGroups (bits * 2 ^ 8 + byte.toNat) (count + 8)).1 d =
        .ok (d', out) ∧ held ++ [byte] = out ++ held' ∧
      Held d' ((bits * 2 ^ 8 + byte.toNat) %
          2 ^ (drainGroups (bits * 2 ^ 8 + byte.toNat) (count + 8)).2)
        (drainGroups (bits * 2 ^ 8 + byte.toNat) (count + 8)).2 held' := by
  have hbyte : byte.toNat < 256 := byte.toNat_lt
  obtain ⟨rfl, rfl, rfl, hcount, hbits⟩ | ⟨b, rfl, rfl | rfl, hcount, hbits, rfl⟩ := h.cases
  · -- nothing is held: six bits go through, two stay behind
    rw [drainGroups_eight]
    refine ⟨_, _, [byte], transduce_singleton (congrArg Outcome.ok (packedGroup_part hcount hbits)),
      rfl, ⟨.inr ⟨byte, rfl, .inl rfl, rfl, ?_, ?_⟩⟩⟩
    · simp only [groupOf, Nat.shiftRight_eq_div_pow]
      omega
    · simp
  · -- six bits are held and two left: the held byte goes through, four bits of the new one stay
    have hb : b.toNat < 256 := b.toNat_lt
    rw [drainGroups_ten]
    have hstep : d.packedGroup (groupOf ((b.toNat % 2 ^ 2 * 2 ^ 8 + byte.toNat) >>> 4)) =
        ({ d with bits := byte.toNat / 2 ^ 4, count := 4 }, [b]) := by
      refine packedGroup_full hcount ?_ (by omega)
      simp only [hbits, groupOf, Nat.shiftRight_eq_div_pow]
      omega
    refine ⟨_, _, [byte], transduce_singleton (congrArg Outcome.ok hstep), rfl,
      ⟨.inr ⟨byte, rfl, .inr rfl, rfl, rfl, ?_⟩⟩⟩
    dsimp only
    omega
  · -- four bits are held and four left: both bytes go through
    have hb : b.toNat < 256 := b.toNat_lt
    rw [drainGroups_twelve]
    have hfirst : d.packedGroup (groupOf ((b.toNat % 2 ^ 4 * 2 ^ 8 + byte.toNat) >>> 6)) =
        ({ d with bits := byte.toNat / 2 ^ 6, count := 2 }, [b]) := by
      refine packedGroup_full hcount ?_ (by omega)
      simp only [hbits, groupOf, Nat.shiftRight_eq_div_pow]
      omega
    have hsecond : Decoder.packedGroup { d with bits := byte.toNat / 2 ^ 6, count := 2 }
          (groupOf ((b.toNat % 2 ^ 4 * 2 ^ 8 + byte.toNat) >>> 0)) =
        ({ d with bits := 0, count := 0 }, [byte]) := by
      refine packedGroup_full rfl ?_ (by omega)
      simp only [groupOf, Nat.shiftRight_zero]
      omega
    exact ⟨_, _, [], transduce_cons_ok.mpr ⟨_, _, _, congrArg Outcome.ok hfirst,
      transduce_singleton (congrArg Outcome.ok hsecond), rfl⟩, rfl,
      ⟨.inl ⟨rfl, rfl, Nat.mod_one _, rfl, rfl⟩⟩⟩

theorem Held.bytes {input : Bytes} {d : Decoder} {bits count : ℕ} {held : Bytes}
    (h : Held d bits count held) :
    ∃ d' out held', transduce packedStep (packGroups input bits count).1 d = .ok (d', out) ∧
      held ++ input = out ++ held' ∧
      Held d' (packGroups input bits count).2.1 (packGroups input bits count).2.2 held' := by
  induction input generalizing d bits count held with
  | nil => exact ⟨d, [], held, rfl, List.append_nil held, h⟩
  | cons byte input ih =>
    obtain ⟨mid, o₁, held₁, hfirst, hsplit, hmid⟩ := h.byte byte
    obtain ⟨d', o₂, held₂, hrest, hsplit', hd'⟩ := ih hmid
    have hpack : packGroups (byte :: input) bits count =
        ((drainGroups (bits * 2 ^ 8 + byte.toNat) (count + 8)).1 ++
          (packGroups input ((bits * 2 ^ 8 + byte.toNat) %
            2 ^ (drainGroups (bits * 2 ^ 8 + byte.toNat) (count + 8)).2)
            (drainGroups (bits * 2 ^ 8 + byte.toNat) (count + 8)).2).1,
          (packGroups input ((bits * 2 ^ 8 + byte.toNat) %
            2 ^ (drainGroups (bits * 2 ^ 8 + byte.toNat) (count + 8)).2)
            (drainGroups (bits * 2 ^ 8 + byte.toNat) (count + 8)).2).2) := by
      simp only [packGroups, shift_or (k := 8) byte.toNat_lt, and_mask]
    rw [hpack]
    refine ⟨d', o₁ ++ o₂, held₂, transduce_append_ok hfirst hrest, ?_, hd'⟩
    rw [List.append_cons, hsplit, List.append_assoc, hsplit', List.append_assoc]

theorem drainGroups_length (bits count : ℕ) :
    6 * (drainGroups bits count).1.length + (drainGroups bits count).2 = count := by
  fun_induction drainGroups bits count with
  | case1 count rest ih =>
    have ih : 6 * rest.1.length + rest.2 = count := ih
    rw [List.length_cons]
    omega
  | case2 count => simp

theorem packGroups_length (input : Bytes) (bits count : ℕ) :
    6 * (packGroups input bits count).1.length + (packGroups input bits count).2.2 =
      8 * input.length + count := by
  fun_induction packGroups input bits count with
  | case1 bits count => simp
  | case2 byte input bits count word drained rest ih =>
    have hdrained : 6 * drained.1.length + drained.2 = count + 8 := drainGroups_length _ _
    have hrest : 6 * rest.1.length + rest.2.2 = 8 * input.length + drained.2 := ih
    dsimp only
    rw [List.length_append, List.length_cons]
    omega

section

variable {t : Table} {down : Bool}

abbrev packedByteStep (d : Decoder) (b : UInt8) : Outcome (Decoder × Bytes) := .ok (d.packedByte b)

theorem Carries.packed {groups : List Group} {wire : Bytes} (ht : t.Sound)
    (h : Carries (t.layout down) (t.layout down).packedPadding groups wire) {d d' : Decoder} {out : Bytes}
    (hd : d.layout = t.layout down) (hrun : Lib.transduce packedStep groups d = .ok (d', out)) :
    Lib.transduce packedByteStep wire d = .ok (d', out) := by
  have hl := ht.layout down
  refine h.transduce ?_ ?_ ?_ hd hrun
  · intro d g hd
    simp only [packedByteStep, Decoder.packedByte, hd, hl.decode_encode]
  · intro d b hb hd
    rw [hl.packed, List.mem_filter, decide_eq_true_eq] at hb
    simp only [packedByteStep, Decoder.packedByte, hd, hl.decode_padding b hb.1, if_neg hb.2]
  · intro d g d' o h
    rw [← show (d.packedGroup g).1 = d' from congrArg Prod.fst (Outcome.ok.inj h)]
    exact (packedGroup_frame d g).2.1

theorem packedStep_frame {groups : List Group} {d d' : Decoder} {out : Bytes}
    (h : transduce packedStep groups d = .ok (d', out)) :
    d'.table = d.table ∧ d'.layout = d.layout ∧ d'.packed = d.packed := by
  refine transduce_invariant
    (fun x => x.table = d.table ∧ x.layout = d.layout ∧ x.packed = d.packed) ?_ ⟨rfl, rfl, rfl⟩ h
  intro x g x' o hx hstep
  rw [← show (x.packedGroup g).1 = x' from congrArg Prod.fst (Outcome.ok.inj hstep)]
  obtain ⟨htable, hlayout, hpacked⟩ := packedGroup_frame x g
  exact ⟨htable.trans hx.1, hlayout.trans hx.2.1, hpacked.trans hx.2.2⟩

theorem Held.last {d : Decoder} {bits count : ℕ} {b : UInt8} (h : Held d bits count [b]) :
    0 < count ∧ ∃ d', transduce packedStep [groupOf (bits <<< (6 - count))] d = .ok (d', [b]) := by
  have hb : b.toNat < 256 := b.toNat_lt
  obtain ⟨hheld, -⟩ | ⟨b', hheld, hcases, hcount, hbits, rfl⟩ := h.cases
  · cases hheld
  · cases hheld
    rcases hcases with rfl | rfl
    · refine ⟨by decide, _, transduce_singleton (congrArg Outcome.ok
        (packedGroup_full (c := 4) (r := 0) hcount ?_ (by decide)))⟩
      simp only [hbits, groupOf, Nat.shiftLeft_eq]
      omega
    · refine ⟨by decide, _, transduce_singleton (congrArg Outcome.ok
        (packedGroup_full (c := 2) (r := 0) hcount ?_ (by decide)))⟩
      simp only [hbits, groupOf, Nat.shiftLeft_eq]
      omega

theorem packedByte_marker (ht : t.Sound) {d : Decoder} (hd : d.layout = t.layout down) :
    d.packedByte (t.layout down).marker = ({ d with bits := 0, count := 0 }, []) := by
  have hl := ht.layout down
  simp only [Decoder.packedByte, hd, hl.decode_padding _ hl.marker_mem, if_pos]

theorem length_draws (n m : ℕ) (random : ℕ → UInt8) :
    (((List.range (n + m)).map random).take n).length = n := by
  rw [List.length_take, List.length_map, List.length_range]
  omega

theorem encode_packed (ht : t.Sound) {d : Decoder} (hd : Idle t down true d) (input : Bytes)
    (padding : UInt8) (random : ℕ → UInt8) :
    ∃ wire d', encode t down true input padding random = .ok wire ∧
      transduce packedByteStep wire d = .ok (d', input) ∧ Idle t down true d' := by
  obtain ⟨mid, out, held, hrun, hsplit, hheld⟩ :=
    @Held.bytes input d 0 0 [] ⟨.inl ⟨rfl, rfl, rfl, hd.count, hd.bits⟩⟩
  have hlen := packGroups_length input 0 0
  have hpool := (ht.layout down).packed_ne_nil
  obtain ⟨htable, hlayout, hpacked⟩ := packedStep_frame hrun
  -- two draws for each group
  have hdraws : ∀ groups : List Group, groups.length = (input.length * 8 + 5) / 6 →
      padding = 0 ∨ 2 * groups.length ≤
        (((List.range ((if padding = 0 then 0 else (input.length * 8 + 5) / 6 * 2) + 0)).map
          random).take (if padding = 0 then 0 else (input.length * 8 + 5) / 6 * 2)).length := by
    intro groups hgroups
    rw [length_draws]
    split
    · exact .inl ‹_›
    · exact .inr (by omega)
  unfold encode
  simp only [if_true]
  obtain ⟨rfl, hcount, hbits, hdcount, hdbits⟩ | ⟨b, rfl, hcases, -⟩ := hheld.cases
  · -- the groups end with a byte
    rw [if_neg (by omega)]
    obtain ⟨wire, hemit, hcarries⟩ := emitAll_carries hpool (hdraws (packGroups input 0 0).1 (by omega))
    rw [List.nil_append, List.append_nil] at hsplit
    refine ⟨wire, mid, hemit, ?_, ⟨htable.trans hd.table, hlayout.trans hd.layout,
      hpacked.trans hd.packed, hdcount, hdbits⟩⟩
    rw [hsplit]
    exact hcarries.packed ht hd.layout hrun
  · -- a last group and the marker
    obtain ⟨hpos, d', hlast⟩ := hheld.last
    rw [if_pos hpos]
    obtain ⟨wire, hemit, hcarries⟩ := emitAll_carries hpool
      (hdraws ((packGroups input 0 0).1 ++
        [groupOf ((packGroups input 0 0).2.1 <<< (6 - (packGroups input 0 0).2.2))])
        (by rw [List.length_append, List.length_singleton]; omega))
    have hall := transduce_append_ok hrun hlast
    obtain ⟨htable', hlayout', hpacked'⟩ := packedStep_frame hall
    rw [List.nil_append] at hsplit
    refine ⟨wire ++ [(t.layout down).marker], { d' with bits := 0, count := 0 }, ?_, ?_,
      ⟨htable'.trans hd.table, hlayout'.trans hd.layout, hpacked'.trans hd.packed, rfl, rfl⟩⟩
    · exact bind_ok.mpr ⟨wire, hemit, rfl⟩
    · rw [hsplit, ← List.append_nil (out ++ [b])]
      exact transduce_append_ok (hcarries.packed ht hd.layout hall)
        (transduce_singleton (congrArg Outcome.ok (packedByte_marker ht (hlayout'.trans hd.layout))))

theorem Carries.pure {groups : List Group} {wire : Bytes} (ht : t.Sound)
    (h : Carries (t.layout down) (t.layout down).padding groups wire) {d d' : Decoder} {out : Bytes}
    (hd : d.layout = t.layout down) (hrun : Lib.transduce Decoder.pureGroup groups d = .ok (d', out)) :
    Lib.transduce Decoder.pureByte wire d = .ok (d', out) := by
  have hl := ht.layout down
  refine h.transduce ?_ ?_ ?_ hd hrun
  · intro d g hd
    simp only [Decoder.pureByte, hd, hl.decode_encode]
  · intro d b hb hd
    simp only [Decoder.pureByte, hd, hl.decode_padding b hb]
  · intro d g d' o h
    exact (pureGroup_layout h).1

theorem encode_pure (ht : t.Sound) {d : Decoder} (hd : Idle t down false d) (input : Bytes)
    (padding : UInt8) (random : ℕ → UInt8) :
    ∃ wire d', encode t down false input padding random = .ok wire ∧
      transduce Decoder.pureByte wire d = .ok (d', input) ∧ Idle t down false d' := by
  have hpool : (t.layout down).padding ≠ [] := List.ne_nil_of_mem (ht.layout down).marker_mem
  obtain ⟨draws, hdraws⟩ : ∃ draws, (if padding = 0 then 0 else input.length * 4 * 2) = draws := ⟨_, rfl⟩
  obtain ⟨groups, d', hpuzzles, hlen, hrun, hd'⟩ := @puzzles_ok t down ht input
    (((List.range (draws + input.length * 4)).map random).drop draws)
    (by rw [List.length_drop, List.length_map, List.length_range, Nat.add_sub_cancel_left]) d hd
  have henough : padding = 0 ∨ 2 * groups.length ≤
      (((List.range (draws + input.length * 4)).map random).take draws).length := by
    rw [length_draws, ← hdraws, hlen]
    split
    · exact .inl ‹_›
    · exact .inr (by omega)
  obtain ⟨wire, hemit, hcarries⟩ := emitAll_carries hpool henough
  refine ⟨wire, d', ?_, hcarries.pure ht hd.layout hrun, hd'⟩
  unfold encode
  simp only [Bool.false_eq_true, if_false, hdraws]
  exact bind_ok.mpr ⟨groups, hpuzzles, hemit⟩

end

/-! ### Four data bytes at once -/

/-- A packed decoder at a byte boundary holds no bits. -/
def Aligned (d : Decoder) : Prop := d.count = 0 → d.bits = 0

theorem packedByte_aligned {d : Decoder} (hd : Aligned d) (b : UInt8) : Aligned (d.packedByte b).1 := by
  unfold Decoder.packedByte
  split
  · split
    · exact fun _ => rfl
    · exact hd
  · unfold Decoder.packedGroup
    dsimp only
    split
    · intro (hcount : d.count + 6 - 8 = 0)
      dsimp only
      rw [and_mask, hcount, Nat.pow_zero, Nat.mod_one]
    · intro hcount
      exact absurd hcount (Nat.succ_ne_zero _)

theorem toNat_shift_or {x y k : ℕ} (hy : y < 2 ^ k) :
    (UInt8.ofNat ((x <<< k) ||| y)).toNat = (x * 2 ^ k + y) % 256 := by
  rw [shift_or hy, UInt8.toNat_ofNat']

theorem transduce_threeBytes {d : Decoder} (hcount : d.count = 0) (hbits : d.bits = 0) (g h i j : Group) :
    transduce packedStep [g, h, i, j] d = .ok (d, threeBytes g h i j) := by
  have hg := g.isLt
  have hh := h.isLt
  have hi := i.isLt
  have hj := j.isLt
  have h₁ : d.packedGroup g = ({ d with bits := g.val, count := 6 }, []) :=
    packedGroup_part hcount hbits
  have h₂ : Decoder.packedGroup { d with bits := g.val, count := 6 } h =
      ({ d with bits := h.val % 16, count := 4 },
        [UInt8.ofNat ((g.val <<< 2) ||| (h.val >>> 4))]) := by
    refine packedGroup_full rfl ?_ (by omega)
    rw [Nat.shiftRight_eq_div_pow, toNat_shift_or (by omega)]
    dsimp only
    omega
  have h₃ : Decoder.packedGroup { d with bits := h.val % 16, count := 4 } i =
      ({ d with bits := i.val % 4, count := 2 },
        [UInt8.ofNat ((h.val <<< 4) ||| (i.val >>> 2))]) := by
    refine packedGroup_full rfl ?_ (by omega)
    rw [Nat.shiftRight_eq_div_pow, toNat_shift_or (by omega)]
    dsimp only
    omega
  have h₄ : Decoder.packedGroup { d with bits := i.val % 4, count := 2 } j =
      (d, [UInt8.ofNat ((i.val <<< 6) ||| j.val)]) := by
    have hd : { d with bits := 0, count := 0 } = d := by
      cases d
      cases hcount
      cases hbits
      rfl
    have hlast : Decoder.packedGroup { d with bits := i.val % 4, count := 2 } j =
        ({ d with bits := 0, count := 0 }, [UInt8.ofNat ((i.val <<< 6) ||| j.val)]) := by
      refine packedGroup_full rfl ?_ (by omega)
      rw [toNat_shift_or (by omega)]
      dsimp only
      omega
    rw [hlast, hd]
  exact transduce_cons_ok.mpr ⟨_, _, _, congrArg Outcome.ok h₁,
    transduce_cons_ok.mpr ⟨_, _, _, congrArg Outcome.ok h₂,
      transduce_cons_ok.mpr ⟨_, _, _, congrArg Outcome.ok h₃,
        transduce_singleton (congrArg Outcome.ok h₄), rfl⟩, rfl⟩, rfl⟩

theorem transduce_data {bytes : Bytes} {groups : List Group} {d : Decoder}
    (h : List.Forall₂ (fun b g => d.layout.decode b = some g) bytes groups) :
    transduce packedByteStep bytes d = transduce packedStep groups d := by
  obtain ⟨layout, hlayout⟩ : ∃ layout, d.layout = layout := ⟨_, rfl⟩
  rw [hlayout] at h
  induction h generalizing d with
  | nil => rfl
  | @cons b g bytes groups hb _ ih =>
    have hbyte : d.packedByte b = d.packedGroup g := by
      simp only [Decoder.packedByte, hlayout, hb]
    simp only [transduce, packedByteStep, packedStep, ok_bind, hbyte]
    rw [ih ((packedGroup_frame d g).2.1.trans hlayout)]

theorem packedByteStep_cons {d : Decoder} {b : UInt8} {input : Bytes} {rest : Decoder × Bytes}
    (h : Outcome.ok rest = transduce packedByteStep input (d.packedByte b).1) :
    Outcome.ok (rest.1, (d.packedByte b).2 ++ rest.2) = transduce packedByteStep (b :: input) d :=
  (transduce_cons_ok.mpr ⟨_, _, _, rfl, h.symm, rfl⟩).symm

theorem feedPacked_eq {input : Bytes} {d : Decoder} (hd : Aligned d) :
    Outcome.ok (d.feedPacked input) = transduce packedByteStep input d := by
  fun_induction Decoder.feedPacked input d with
  | case1 d => rfl
  | case2 w x y z input d hcount g h i j hj hi hh hg rest ih =>
    have hbytes : transduce packedByteStep [w, x, y, z] d = .ok (d, threeBytes g h i j) := by
      rw [← transduce_threeBytes hcount (hd hcount) g h i j]
      exact transduce_data (.cons hg (.cons hh (.cons hi (.cons hj .nil))))
    exact (transduce_append_ok hbytes (ih hd).symm).symm
  | case3 w x y z input d hcount _ first rest ih | case4 w x y z input d hcount first rest ih
  | case5 w input d _ first rest ih =>
    exact packedByteStep_cons (ih (packedByte_aligned hd w))

/-! ### Streams -/

/-- What is encoded at once: the bytes, the percentage of padding and the random bytes. -/
abbrev Message := Bytes × UInt8 × (ℕ → UInt8)

theorem encodings_step {t : Table} {down packed : Bool} {step : Decoder → UInt8 → Outcome (Decoder × Bytes)}
    (hstep : ∀ d input padding random, Idle t down packed d →
      ∃ wire d', encode t down packed input padding random = .ok wire ∧
        transduce step wire d = .ok (d', input) ∧ Idle t down packed d')
    {messages : List Message} {d : Decoder} (hd : Idle t down packed d) :
    ∃ wires, List.Forall₂ (fun m wire => encode t down packed m.1 m.2.1 m.2.2 = .ok wire) messages wires ∧
      ∀ k, ∃ d', transduce step (wires.take k).flatten d =
        .ok (d', ((messages.take k).map (·.1)).flatten) ∧ Idle t down packed d' := by
  induction messages generalizing d with
  | nil =>
    refine ⟨[], .nil, fun k => ⟨d, ?_, hd⟩⟩
    rw [List.take_nil, List.take_nil]
    rfl
  | cons m messages ih =>
    obtain ⟨wire, mid, hwire, hfirst, hmid⟩ := hstep d m.1 m.2.1 m.2.2 hd
    obtain ⟨wires, hwires, hrest⟩ := ih hmid
    refine ⟨wire :: wires, .cons hwire hwires, fun k => ?_⟩
    cases k with
    | zero => exact ⟨d, rfl, hd⟩
    | succ k =>
      obtain ⟨d', hrun, hd'⟩ := hrest k
      exact ⟨d', transduce_append_ok hfirst hrun, hd'⟩

theorem Decoder.new_idle (t : Table) (down packed : Bool) :
    Idle t down packed (Decoder.new t down packed) :=
  ⟨rfl, rfl, rfl, rfl, rfl⟩

theorem packedByte_packed (d : Decoder) (b : UInt8) : (d.packedByte b).1.packed = d.packed := by
  unfold Decoder.packedByte
  split
  · split
    · rfl
    · rfl
  · exact (packedGroup_frame d _).2.2

theorem Table.Sound.round_trip {t : Table} (ht : t.Sound) (down packed : Bool) (messages : List Message) :
    ∃ wires, List.Forall₂ (fun m wire => encode t down packed m.1 m.2.1 m.2.2 = .ok wire) messages wires ∧
      ∀ k, ∀ segments : List Bytes, segments.flatten = (wires.take k).flatten →
        ∃ d, transduce Decoder.feed segments (Decoder.new t down packed) =
            .ok (d, ((messages.take k).map (·.1)).flatten) ∧ d.count = 0 ∧ d.bits = 0 := by
  have hd := Decoder.new_idle t down packed
  cases packed with
  | true =>
    obtain ⟨wires, hwires, hall⟩ := encodings_step
      (fun d input padding random hd => encode_packed ht hd input padding random) hd
    refine ⟨wires, hwires, fun k segments hsegments => ?_⟩
    obtain ⟨d', hrun, hd'⟩ := hall k
    rw [← hsegments] at hrun
    refine ⟨d', transduce_segments (fun d => d.packed = true ∧ Aligned d) ?_ ?_ ⟨rfl, fun _ => rfl⟩ hrun,
      hd'.count, hd'.bits⟩
    · intro d b d' o hd hstep
      rw [← show (d.packedByte b).1 = d' from congrArg Prod.fst (Outcome.ok.inj hstep)]
      exact ⟨(packedByte_packed d b).trans hd.1, packedByte_aligned hd.2 b⟩
    · intro d input hd
      rw [← feedPacked_eq hd.2, Decoder.feed, if_pos hd.1]
  | false =>
    obtain ⟨wires, hwires, hall⟩ := encodings_step
      (fun d input padding random hd => encode_pure ht hd input padding random) hd
    refine ⟨wires, hwires, fun k segments hsegments => ?_⟩
    obtain ⟨d', hrun, hd'⟩ := hall k
    rw [← hsegments] at hrun
    refine ⟨d', transduce_segments (fun d => d.packed = false) ?_ ?_ rfl hrun, hd'.count, hd'.bits⟩
    · intro d b d' o hd hstep
      unfold Decoder.pureByte at hstep
      split at hstep
      · cases hstep
        exact hd
      · exact (pureGroup_layout hstep).2.trans hd
    · intro d input hd
      rw [Decoder.feed, if_neg (by simp [hd])]

/-- Whatever segments the wire comes in, after each encoding the decoder has put out the bytes
encoded so far and holds nothing. -/
theorem codec_round_trip {sha256 : Bytes → Bytes} {cooked : ℕ → UInt64} {fuel : ℕ}
    {seed mode pattern : String} {t : Table}
    (h : Table.new sha256 cooked fuel seed mode pattern = some (.ok t)) (down packed : Bool)
    (messages : List Message) :
    ∃ wires, List.Forall₂ (fun m wire => encode t down packed m.1 m.2.1 m.2.2 = .ok wire) messages wires ∧
      ∀ k, ∀ segments : List Bytes, segments.flatten = (wires.take k).flatten →
        ∃ d, transduce Decoder.feed segments (Decoder.new t down packed) =
            .ok (d, ((messages.take k).map (·.1)).flatten) ∧ d.count = 0 ∧ d.bits = 0 :=
  (Table.new_sound h).round_trip down packed messages

theorem exists_table : ∃ t, ∀ seed,
    Table.new (fun _ => [0, 0, 0, 0, 0, 0, 0, 1]) (fun _ => 0) 1 seed "" "" = some (.ok t) := by
  have hends : GoRand.ends 1 287 (GoRand.seeded (fun _ => 0) 1) = true := by decide +kernel
  have hlength : (List.range grids.length).length - 1 = 287 := by rw [List.length_range, grids_length]
  obtain ⟨order, hshuffle⟩ := @GoRand.shuffle_some (fun _ => 0) 1 (List.range grids.length) 1
    (by rw [hlength]; exact hends)
  have hseed : ofBeI64 [0, 0, 0, 0, 0, 0, 0, 1] = 1 := by decide
  obtain ⟨t, ht⟩ : ∃ t, Table.new (fun _ => [0, 0, 0, 0, 0, 0, 0, 1]) (fun _ => 0) 1 "" "" "" =
      some (.ok t) := by
    unfold Table.new
    simp only [tableMode, true_or, if_true, List.take, hseed, hshuffle, Option.map_some, ok_bind]
    exact ⟨_, rfl⟩
  exact ⟨t, fun seed => ht⟩

/-- Two packed messages with half the groups padded, under a digest that is one and seed constants
that are zero. -/
theorem two_messages_round_trip :
    ∃ t, Table.new (fun _ => [0, 0, 0, 0, 0, 0, 0, 1]) (fun _ => 0) 1 "" "" "" = some (.ok t) ∧
      ∃ wires, List.Forall₂ (fun (m : Message) wire => encode t true true m.1 m.2.1 m.2.2 = .ok wire)
          [([1, 2, 3, 4], 50, UInt8.ofNat), ([5], 0, UInt8.ofNat)] wires ∧
        ∀ k, ∀ segments : List Bytes, segments.flatten = (wires.take k).flatten →
          ∃ d, transduce Decoder.feed segments (Decoder.new t true true) =
              .ok (d, ((([([1, 2, 3, 4], 50, UInt8.ofNat), ([5], 0, UInt8.ofNat)] : List Message).take k).map
                (·.1)).flatten) ∧ d.count = 0 ∧ d.bits = 0 := by
  obtain ⟨t, ht⟩ := exists_table
  exact ⟨t, ht "", codec_round_trip (ht "") true true _⟩

end Aerion.Sudoku
