import Mathlib.Data.List.Sort
import Mathlib.Data.UInt

/-!
# Machine words

The bitmaps of `bitmap.rs` keep `usize` words (64 bits here) and, for the
object-start bitmap, `u8` cells.  A word is a `UInt64` and a cell a `UInt8`.
Lean's shifts take the shift amount modulo the width, which is what a release
build of the Rust code computes when a shift reaches the width; a debug build
panics at the same inputs.

This module gives the bit view that every bitmap proof reads words through.

* `wrappingSub` is `usize::wrapping_sub`, and the `usize` subtraction of a
  release build.

* `UInt64.testBit`, `UInt8.testBit` and their simp lemmas push `&&&`, `|||`, `^^^`, `~~~`, the
  one-bit mask `1 << k` and the low mask `(1 << k) - 1` down to `Bool`.
* `UInt64.trailingZeros` and `UInt64.leadingZeros` are Rust's
  `trailing_zeros` and `leading_zeros`; `trailingZeros_spec` and
  `leadingZeros_spec` say which bit they find.
* `UInt64.setBits` lists the set bits of a word in ascending order.
* `forEachSetBit` is the do-while loop over the set bits of a loaded word that
  `visit_marked_range`, `sweep_walk` and `sweep_walk_color` each inline.
  `forEachSetBit_eq` says that it runs its body once on every set bit, in
  ascending order.
* `setBitLoop_passes`: the loop's word after `j` passes is the word with its
  `j` lowest set bits cleared (`clearLowest^[j]`), so it runs `count_ones`
  passes and visits the set bits in ascending order.
-/

universe u

/-- Bit `i` of a `usize` word. -/
def UInt64.testBit (w : UInt64) (i : Nat) : Bool := w.toBitVec.getLsbD i

/-- Bit `i` of a `u8` cell. -/
def UInt8.testBit (c : UInt8) (i : Nat) : Bool := c.toBitVec.getLsbD i

/-- `usize::trailing_zeros`: the index of the lowest set bit, `64` for `0`. -/
def UInt64.trailingZeros (w : UInt64) : Nat :=
  ((List.range 64).find? w.testBit).getD 64

/-- `usize::leading_zeros`: the number of clear bits above the highest set
bit, `64` for `0`. -/
def UInt64.leadingZeros (w : UInt64) : Nat :=
  ((List.range 64).find? fun i => w.testBit (63 - i)).getD 64

/-- `u8::leading_zeros`. -/
def UInt8.leadingZeros (c : UInt8) : Nat :=
  ((List.range 8).find? fun i => c.testBit (7 - i)).getD 8

/-- The set bits of a word, in ascending order. -/
def UInt64.setBits (w : UInt64) : List Nat := (List.range 64).filter w.testBit

/-- `u64::count_ones`: the number of set bits. -/
def UInt64.countOnes (w : UInt64) : Nat := (List.range 64).countP w.testBit

namespace Comet

/-- `usize::wrapping_sub` on values below `2 ^ 64`, and the subtraction of a
release build. -/
def wrappingSub (a b : Nat) : Nat := if b ≤ a then a - b else 2 ^ 64 - (b - a)

theorem wrappingSub_of_le {a b : Nat} (h : b ≤ a) : wrappingSub a b = a - b := if_pos h

/-- `2 ^ 64 - 1` times `m` bytes past `a`, in `usize`, is `m` bytes before `a`. -/
theorem mod_pred_mul_add {a m : Nat} (ha : a < 2 ^ 64) (hm : m ≤ 2 ^ 64) :
    ((2 ^ 64 - 1) * m + a) % 2 ^ 64 = wrappingSub a m := by
  unfold wrappingSub
  split <;> omega

/-! ## Bits of a bit vector

The facts that both cell widths share; the `UInt64` and `UInt8` lemmas below
are these at width 64 and 8. -/

theorem getLsbD_one_shiftLeft {w s : Nat} (hs : s < w) (i : Nat) :
    (1#w <<< s).getLsbD i = decide (i = s) := by
  rw [BitVec.getLsbD_shiftLeft, BitVec.getLsbD_one]
  by_cases h : i = s
  · simp [h, hs, show 0 < w by omega]
  · simp only [h, decide_False, Bool.and_eq_false_iff, Bool.not_eq_false', decide_eq_true_eq,
      decide_eq_false_iff_not]
    omega

theorem getLsbD_lowMask {w s : Nat} (hs : s < w) (i : Nat) :
    ((1#w <<< s) - 1#w).getLsbD i = decide (i < s) := by
  have hone : (1#w).toNat = 1 := Nat.mod_eq_of_lt (Nat.one_lt_two_pow (by omega))
  have hpow : 2 ^ s < 2 ^ w := Nat.pow_lt_pow_right (by decide) hs
  have hshl : (1#w <<< s).toNat = 2 ^ s := by
    rw [BitVec.toNat_shiftLeft, hone, Nat.shiftLeft_eq, Nat.one_mul, Nat.mod_eq_of_lt hpow]
  have hsub : ((1#w <<< s) - 1#w).toNat = 2 ^ s - 1 := by
    have : 1 ≤ 2 ^ s := Nat.one_le_two_pow
    rw [BitVec.toNat_sub, hshl, hone, show 2 ^ w - 1 + 2 ^ s = (2 ^ s - 1) + 2 ^ w by omega,
      Nat.add_mod_right, Nat.mod_eq_of_lt (by omega)]
  rw [BitVec.getLsbD, hsub, Nat.testBit_two_pow_sub_one]

theorem exists_getLsbD_of_ne_zero {w : Nat} {x : BitVec w} (h : x ≠ 0#w) :
    ∃ i < w, x.getLsbD i = true := by
  by_contra hn
  exact h (BitVec.eq_of_getLsbD_eq fun i => by simpa using fun hb => hn ⟨i.1, i.2, hb⟩)

/-- The count that `leading_zeros` returns for a bit vector with a set bit:
bit `w - 1 - lz` is set, and every bit above it is clear. -/
theorem findHigh_spec {w lz : Nat} {x : BitVec w} (h : ∃ i < w, x.getLsbD i = true)
    (hlz : ((List.range w).find? fun i => x.getLsbD (w - 1 - i)).getD w = lz) :
    lz < w ∧ x.getLsbD (w - 1 - lz) = true ∧ ∀ j, w - 1 - lz < j → x.getLsbD j = false := by
  subst hlz
  cases hf : (List.range w).find? (fun i => x.getLsbD (w - 1 - i)) with
  | none =>
    obtain ⟨i, hi, hb⟩ := h
    have := List.find?_range_eq_none.1 hf (w - 1 - i) (by omega)
    rw [show w - 1 - (w - 1 - i) = i by omega, hb] at this
    simp at this
  | some i =>
    obtain ⟨hb, hi, hhigh⟩ := List.find?_range_eq_some.1 hf
    simp only [Option.getD_some]
    refine ⟨List.mem_range.1 hi, hb, fun j hj => ?_⟩
    by_cases hjw : j < w
    · simpa [show w - 1 - (w - 1 - j) = j by omega] using hhigh (w - 1 - j) (by omega)
    · exact BitVec.getLsbD_ge x j (by omega)

end Comet

namespace UInt64

/-! ## The bit view of a word -/

@[simp] theorem testBit_and (a b : UInt64) (i : Nat) :
    (a &&& b).testBit i = (a.testBit i && b.testBit i) := BitVec.getLsbD_and

@[simp] theorem testBit_or (a b : UInt64) (i : Nat) :
    (a ||| b).testBit i = (a.testBit i || b.testBit i) := BitVec.getLsbD_or

@[simp] theorem testBit_xor (a b : UInt64) (i : Nat) :
    (a ^^^ b).testBit i = (a.testBit i ^^ b.testBit i) := BitVec.getLsbD_xor

@[simp] theorem testBit_not (a : UInt64) (i : Nat) :
    (~~~a).testBit i = (decide (i < 64) && !a.testBit i) := BitVec.getLsbD_not

@[simp] theorem testBit_zero (i : Nat) : (0 : UInt64).testBit i = false :=
  BitVec.getLsbD_zero

@[simp] theorem testBit_one (i : Nat) : (1 : UInt64).testBit i = decide (i = 0) := by
  show (1#64).getLsbD i = _
  simp [BitVec.getLsbD_one]

theorem testBit_of_ge (w : UInt64) {i : Nat} (h : 64 ≤ i) : w.testBit i = false :=
  BitVec.getLsbD_ge _ _ h

/-- The amount of a shift by a `usize` value, as `UInt64.shiftLeft` reduces it. -/
theorem shiftAmount_toNat (k : Nat) : (UInt64.mod k.toUInt64 64).toBitVec.toNat = k % 64 := by
  show (k.toUInt64.toBitVec % (64 : UInt64).toBitVec).toNat = _
  rw [BitVec.toNat_umod]
  exact Nat.mod_mod_of_dvd k (by decide)

/-- The one-bit mask `1 << k`. -/
@[simp] theorem testBit_one_shiftLeft (k i : Nat) :
    ((1 : UInt64) <<< k.toUInt64).testBit i = decide (i = k % 64) := by
  show BitVec.getLsbD ((1 : UInt64).toBitVec <<< (UInt64.mod k.toUInt64 64).toBitVec) i = _
  rw [BitVec.shiftLeft_eq', shiftAmount_toNat]
  exact Comet.getLsbD_one_shiftLeft (Nat.mod_lt k (by decide)) i

/-- The low mask `(1 << k) - 1`. -/
@[simp] theorem testBit_lowMask (k i : Nat) :
    (((1 : UInt64) <<< k.toUInt64) - 1).testBit i = decide (i < k % 64) := by
  show BitVec.getLsbD ((1 : UInt64).toBitVec <<< (UInt64.mod k.toUInt64 64).toBitVec - 1#64) i = _
  rw [BitVec.shiftLeft_eq', shiftAmount_toNat]
  exact Comet.getLsbD_lowMask (Nat.mod_lt k (by decide)) i

/-- A shift left by a `u64` or `usize` amount, `wrapping_shl` included. -/
theorem testBit_shiftLeft (x : UInt64) (k i : Nat) :
    (x <<< k.toUInt64).testBit i =
      (decide (i < 64) && decide (k % 64 ≤ i) && x.testBit (i - k % 64)) := by
  show BitVec.getLsbD (x.toBitVec <<< (UInt64.mod k.toUInt64 64).toBitVec) i = _
  rw [BitVec.shiftLeft_eq', BitVec.getLsbD_shiftLeft, shiftAmount_toNat]
  simp only [← Nat.not_lt, decide_not]
  rfl

/-- A shift right by a `u64` or `usize` amount, `wrapping_shr` included. -/
@[simp] theorem testBit_shiftRight (x : UInt64) (k i : Nat) :
    (x >>> k.toUInt64).testBit i = x.testBit (k % 64 + i) := by
  show BitVec.getLsbD (x.toBitVec >>> (UInt64.mod k.toUInt64 64).toBitVec) i = _
  show BitVec.getLsbD (x.toBitVec >>> (UInt64.mod k.toUInt64 64).toBitVec.toNat) i = _
  rw [BitVec.getLsbD_ushiftRight, shiftAmount_toNat]
  rfl

/-- Two words with the same 64 bits are equal. -/
theorem ext_testBit {a b : UInt64} (h : ∀ i < 64, a.testBit i = b.testBit i) : a = b :=
  UInt64.eq_of_toBitVec_eq (BitVec.eq_of_getLsbD_eq fun i => h i.1 i.2)

@[simp] theorem zero_and (x : UInt64) : 0 &&& x = 0 :=
  ext_testBit fun i _ => by simp

theorem eq_zero_iff_testBit {w : UInt64} : w = 0 ↔ ∀ i < 64, w.testBit i = false :=
  ⟨fun h i _ => h ▸ testBit_zero i, fun h => ext_testBit fun i hi => (h i hi).trans (testBit_zero i).symm⟩

theorem exists_testBit_of_ne_zero {w : UInt64} (h : w ≠ 0) : ∃ i < 64, w.testBit i = true :=
  Comet.exists_getLsbD_of_ne_zero fun h' => h (UInt64.eq_of_toBitVec_eq h')

/-! ## Trailing and leading zeros -/

/-- The bit that `trailing_zeros` finds in a non-zero word is set, and every
bit below it is clear. -/
theorem trailingZeros_spec {w : UInt64} (h : w ≠ 0) :
    w.trailingZeros < 64 ∧ w.testBit w.trailingZeros = true ∧
      ∀ j < w.trailingZeros, w.testBit j = false := by
  unfold trailingZeros
  cases hf : (List.range 64).find? w.testBit with
  | none =>
    obtain ⟨i, hi, hb⟩ := exists_testBit_of_ne_zero h
    have := List.find?_range_eq_none.1 hf i hi
    simp [hb] at this
  | some i =>
    obtain ⟨hb, hi, hlow⟩ := List.find?_range_eq_some.1 hf
    exact ⟨List.mem_range.1 hi, hb, fun j hj => by simpa using hlow j hj⟩

/-- The bit that `leading_zeros` finds in a non-zero word is set, and every
bit above it is clear. -/
theorem leadingZeros_spec {w : UInt64} (h : w ≠ 0) :
    w.leadingZeros < 64 ∧ w.testBit (63 - w.leadingZeros) = true ∧
      ∀ j, 63 - w.leadingZeros < j → w.testBit j = false :=
  Comet.findHigh_spec (exists_testBit_of_ne_zero h) rfl

/-! ## The set bits of a word -/

@[simp] theorem mem_setBits {w : UInt64} {j : Nat} : j ∈ w.setBits ↔ j < 64 ∧ w.testBit j := by
  simp [setBits]

theorem setBits_sorted (w : UInt64) : w.setBits.Sorted (· < ·) :=
  (List.pairwise_lt_range 64).filter _

theorem countOnes_eq_length_setBits (w : UInt64) : w.countOnes = w.setBits.length :=
  List.countP_eq_length_filter _ _

theorem eq_zero_iff_setBits_eq_nil {w : UInt64} : w = 0 ↔ w.setBits = [] := by
  rw [eq_zero_iff_testBit, List.eq_nil_iff_forall_not_mem]
  simp

end UInt64

namespace UInt8

/-! ## The bit view of a byte cell -/

@[simp] theorem testBit_and (a b : UInt8) (i : Nat) :
    (a &&& b).testBit i = (a.testBit i && b.testBit i) := BitVec.getLsbD_and

@[simp] theorem testBit_or (a b : UInt8) (i : Nat) :
    (a ||| b).testBit i = (a.testBit i || b.testBit i) := BitVec.getLsbD_or

@[simp] theorem testBit_not (a : UInt8) (i : Nat) :
    (~~~a).testBit i = (decide (i < 8) && !a.testBit i) := BitVec.getLsbD_not

@[simp] theorem testBit_zero (i : Nat) : (0 : UInt8).testBit i = false :=
  BitVec.getLsbD_zero

theorem testBit_of_ge (c : UInt8) {i : Nat} (h : 8 ≤ i) : c.testBit i = false :=
  BitVec.getLsbD_ge _ _ h

/-- The amount of a shift of a `u8` by a `usize` value, as `UInt8.shiftLeft`
reduces it. -/
theorem shiftAmount_toNat (k : Nat) : (UInt8.mod k.toUInt8 8).toBitVec.toNat = k % 8 := by
  show (k.toUInt8.toBitVec % (8 : UInt8).toBitVec).toNat = _
  rw [BitVec.toNat_umod]
  exact Nat.mod_mod_of_dvd k (by decide)

/-- The one-bit mask `1 << k`. -/
@[simp] theorem testBit_one_shiftLeft (k i : Nat) :
    ((1 : UInt8) <<< k.toUInt8).testBit i = decide (i = k % 8) := by
  show BitVec.getLsbD ((1 : UInt8).toBitVec <<< (UInt8.mod k.toUInt8 8).toBitVec) i = _
  rw [BitVec.shiftLeft_eq', shiftAmount_toNat]
  exact Comet.getLsbD_one_shiftLeft (Nat.mod_lt k (by decide)) i

/-- The low mask `(1 << k) - 1`. -/
@[simp] theorem testBit_lowMask (k i : Nat) :
    (((1 : UInt8) <<< k.toUInt8) - 1).testBit i = decide (i < k % 8) := by
  show BitVec.getLsbD ((1 : UInt8).toBitVec <<< (UInt8.mod k.toUInt8 8).toBitVec - 1#8) i = _
  rw [BitVec.shiftLeft_eq', shiftAmount_toNat]
  exact Comet.getLsbD_lowMask (Nat.mod_lt k (by decide)) i

/-- Two cells with the same 8 bits are equal. -/
theorem ext_testBit {a b : UInt8} (h : ∀ i < 8, a.testBit i = b.testBit i) : a = b :=
  UInt8.eq_of_toBitVec_eq (BitVec.eq_of_getLsbD_eq fun i => h i.1 i.2)

theorem eq_zero_iff_testBit {c : UInt8} : c = 0 ↔ ∀ i < 8, c.testBit i = false :=
  ⟨fun h i _ => h ▸ testBit_zero i, fun h => ext_testBit fun i hi => (h i hi).trans (testBit_zero i).symm⟩

/-- The bit that `leading_zeros` finds in a non-zero cell is set, and every
bit above it is clear. -/
theorem leadingZeros_spec {c : UInt8} (h : c ≠ 0) :
    c.leadingZeros < 8 ∧ c.testBit (7 - c.leadingZeros) = true ∧
      ∀ j, 7 - c.leadingZeros < j → c.testBit j = false :=
  Comet.findHigh_spec (Comet.exists_getLsbD_of_ne_zero fun h' => h (UInt8.eq_of_toBitVec_eq h')) rfl

end UInt8

namespace Comet

/-- Two strictly ascending lists with the same members are equal. -/
theorem eq_of_sorted_of_mem_iff {l₁ l₂ : List Nat} (h₁ : l₁.Sorted (· < ·))
    (h₂ : l₂.Sorted (· < ·)) (h : ∀ a, a ∈ l₁ ↔ a ∈ l₂) : l₁ = l₂ :=
  List.eq_of_perm_of_sorted ((List.perm_ext_iff_of_nodup h₁.nodup h₂.nodup).2 h) h₁ h₂

open UInt64

/-- Clearing the lowest set bit of a non-zero word takes the head off its list
of set bits. -/
theorem setBits_eq_cons {w : UInt64} (h : w ≠ 0) :
    w.setBits = w.trailingZeros :: (w ^^^ (1 <<< w.trailingZeros.toUInt64)).setBits := by
  obtain ⟨hlt, hbit, hlow⟩ := trailingZeros_spec h
  have hmod : w.trailingZeros % 64 = w.trailingZeros := Nat.mod_eq_of_lt hlt
  have hmem : ∀ j, j ∈ (w ^^^ (1 <<< w.trailingZeros.toUInt64)).setBits ↔
      j < 64 ∧ w.testBit j ∧ j ≠ w.trailingZeros := by
    intro j
    by_cases hj : j = w.trailingZeros <;> simp [hj, hmod, hbit]
  refine eq_of_sorted_of_mem_iff (setBits_sorted w) ?_ fun j => ?_
  · refine List.sorted_cons.2 ⟨fun j hj => ?_, setBits_sorted _⟩
    obtain ⟨-, hb, hne⟩ := (hmem j).1 hj
    by_contra hle
    rw [hlow j (by omega)] at hb
    exact absurd hb (by decide)
  · rw [List.mem_cons, hmem, mem_setBits]
    by_cases hj : j = w.trailingZeros
    · subst hj
      exact ⟨fun _ => Or.inl rfl, fun _ => ⟨hlt, hbit⟩⟩
    · simp [hj]

section Loop

variable {σ : Type u}

/-- The do-while loop over the set bits of a loaded word, inlined in
`visit_marked_range`, `sweep_walk` and `sweep_walk_color`:

```
while { let shift = w.trailing_zeros(); body(shift); w ^= 1 << shift; w != 0 } {}
```

The callers enter it only with a non-zero word.  The fuel bounds the
iterations; a word has at most 64 set bits. -/
def forEachSetBit (body : σ → Nat → σ) : Nat → UInt64 → σ → σ
  | 0, _, s => s
  | fuel + 1, w, s =>
    let shift := w.trailingZeros
    let w' := w ^^^ (1 <<< shift.toUInt64)
    if w' ≠ 0 then forEachSetBit body fuel w' (body s shift) else body s shift

/-- The loop runs its body once on each set bit of a non-zero word, in
ascending order, as soon as the fuel covers the set bits. -/
theorem forEachSetBit_eq (body : σ → Nat → σ) {fuel : Nat} {w : UInt64} (s : σ)
    (h : w ≠ 0) (hfuel : w.setBits.length ≤ fuel) :
    forEachSetBit body fuel w s = w.setBits.foldl body s := by
  induction fuel generalizing w s with
  | zero =>
    obtain ⟨i, hi, hb⟩ := exists_testBit_of_ne_zero h
    have : i ∈ w.setBits := mem_setBits.2 ⟨hi, hb⟩
    have := List.length_pos_of_mem this
    omega
  | succ fuel ih =>
    rw [forEachSetBit, setBits_eq_cons h, List.foldl_cons]
    rw [setBits_eq_cons h, List.length_cons] at hfuel
    split
    · exact ih _ ‹_› (by omega)
    · rename_i hz
      rw [not_not.1 hz]
      rfl

/-- A word of `usize` has at most 64 set bits, so 64 iterations are enough. -/
theorem setBits_length_le (w : UInt64) : w.setBits.length ≤ 64 :=
  (List.length_filter_le _ _).trans (List.length_range 64).le

/-! ### The passes of the loop -/

theorem foldl_append_singleton {α : Type u} (acc L : List α) :
    L.foldl (fun acc a => acc ++ [a]) acc = acc ++ L := by
  induction L generalizing acc with
  | nil => simp
  | cons a L ih => simp [ih]

/-- The word after one pass of the loop: `w ^= 1 << w.trailing_zeros()`. -/
def clearLowest (w : UInt64) : UInt64 := w ^^^ (1 <<< w.trailingZeros.toUInt64)

/-- One pass of `forEachSetBit`: the body on the lowest set bit, then the test
`w != 0` on the word with that bit cleared. -/
theorem forEachSetBit_succ (body : σ → Nat → σ) (fuel : Nat) (w : UInt64) (s : σ) :
    forEachSetBit body (fuel + 1) w s =
      if clearLowest w ≠ 0 then forEachSetBit body fuel (clearLowest w) (body s w.trailingZeros)
      else body s w.trailingZeros :=
  rfl

/-- After `j` passes over a word with at least `j` set bits, the word holds
the set bits from the `j`-th on. -/
theorem setBits_iterate_clearLowest (w : UInt64) :
    ∀ j ≤ w.setBits.length, (clearLowest^[j] w).setBits = w.setBits.drop j
  | 0, _ => rfl
  | j + 1, hj => by
    have ih := setBits_iterate_clearLowest w j (by omega)
    have hne : clearLowest^[j] w ≠ 0 := fun h0 => by
      rw [eq_zero_iff_setBits_eq_nil.1 h0, eq_comm, List.drop_eq_nil_iff] at ih
      omega
    rw [Function.iterate_succ_apply', clearLowest, ← List.tail_drop, ← ih, setBits_eq_cons hne,
      List.tail_cons]

/-- Pass `j` clears the `j`-th set bit of the word. -/
theorem trailingZeros_iterate_clearLowest (w : UInt64) {j : Nat} (hj : j < w.setBits.length) :
    (clearLowest^[j] w).trailingZeros = w.setBits[j] := by
  have h := setBits_iterate_clearLowest w j hj.le
  have hne : clearLowest^[j] w ≠ 0 := fun h0 => by
    rw [eq_zero_iff_setBits_eq_nil.1 h0, eq_comm, List.drop_eq_nil_iff] at h
    omega
  rw [setBits_eq_cons hne, List.drop_eq_getElem_cons hj] at h
  exact List.head_eq_of_cons_eq h

/-- The do-while loop over a non-zero word makes exactly `count_ones(w)`
passes: its test `w != 0` after pass `j` fails first at `j = count_ones(w)`.
Pass `j` takes the `j`-th set bit, so with `emit(base + shift * ALIGN)` as its
body, computed in `usize` as the code does, the loop emits `base + i * ALIGN`
once for each set bit `i`, in ascending order of `i`, whatever `base` and
`ALIGN` are. -/
theorem setBitLoop_passes (w : UInt64) (h : w ≠ 0) (base ALIGN : UInt64) :
    (∀ j ≤ w.countOnes, clearLowest^[j] w = 0 ↔ j = w.countOnes) ∧
    (List.range w.countOnes).map (fun j => (clearLowest^[j] w).trailingZeros) = w.setBits ∧
    (∀ fuel, w.countOnes ≤ fuel →
      forEachSetBit (fun out shift => out ++ [base + shift.toUInt64 * ALIGN]) fuel w [] =
        w.setBits.map fun i => base + i.toUInt64 * ALIGN) ∧
    w.setBits.Sorted (· < ·) ∧ ∀ i, i ∈ w.setBits ↔ i < 64 ∧ w.testBit i = true := by
  rw [countOnes_eq_length_setBits]
  refine ⟨fun j hj => ?_, ?_, fun fuel hfuel => ?_, setBits_sorted w, fun i => mem_setBits⟩
  · rw [eq_zero_iff_setBits_eq_nil, setBits_iterate_clearLowest w j hj, List.drop_eq_nil_iff]
    omega
  · refine List.ext_getElem (by simp) fun j h₁ h₂ => ?_
    simp only [List.getElem_map, List.getElem_range]
    exact trailingZeros_iterate_clearLowest w h₂
  · rw [forEachSetBit_eq _ [] h hfuel]
    simpa [List.foldl_map] using
      foldl_append_singleton [] (w.setBits.map fun i => base + i.toUInt64 * ALIGN)

example : (0x58 : UInt64).setBits = [3, 4, 6] ∧ (0x58 : UInt64).countOnes = 3 := by decide

/-- The loop over the word `0b1011000`, from the address `0x10000` with
16-byte slots. -/
theorem setBitLoop_passes_0x58 :
    (0x58 : UInt64) ≠ 0 ∧
    ((∀ j ≤ (0x58 : UInt64).countOnes, clearLowest^[j] 0x58 = 0 ↔ j = (0x58 : UInt64).countOnes) ∧
    (List.range (0x58 : UInt64).countOnes).map (fun j => (clearLowest^[j] 0x58).trailingZeros) =
      (0x58 : UInt64).setBits ∧
    (∀ fuel, (0x58 : UInt64).countOnes ≤ fuel →
      forEachSetBit (fun out shift => out ++ [0x10000 + shift.toUInt64 * 16]) fuel 0x58 [] =
        (0x58 : UInt64).setBits.map fun i => 0x10000 + i.toUInt64 * 16) ∧
    (0x58 : UInt64).setBits.Sorted (· < ·) ∧
    ∀ i, i ∈ (0x58 : UInt64).setBits ↔ i < 64 ∧ (0x58 : UInt64).testBit i = true) :=
  ⟨by decide, setBitLoop_passes 0x58 (by decide) 0x10000 16⟩

/-- Near the top of the address space the emitted address wraps, as `usize`
addition does in a release build. -/
example : forEachSetBit (fun out shift => out ++ [0xFFFFFFFFFFFFFFF0 + shift.toUInt64 * 16]) 64
    (0x2 : UInt64) [] = [0] := by decide

end Loop

end Comet
