import Comet.Word

/-!
# The backward scan of `find_header`

`SpaceBitmap::find_header`, its copy in `gen_const_bitmap!` and
`ObjectStartBitmap::find_header` find the object start at or below an address
the same way, over cells of `W = 64` and of `W = 8` slots:

```
let mut word = load(cell_index) & ((1 << (bit + 1)) - 1);
while word == 0 && cell_index != 0 { cell_index -= 1; word = load(cell_index); }
object_start_number = cell_index * W + (W - 1) - word.leading_zeros();
```

where `cell_index` and `bit` split the slot number `q` of the address.  This
module proves once, for any cell type, what that computes.

* `scanBack` is the loop, and `scanBack_spec` says where it stops.
* `findSlot` is the slot number the three compute from `q`.
* `searchLimit W q` is the slot below which they search.  It is `q + 1`,
  except when `q` is the last slot of its cell: then `1 << (bit + 1)` shifts by
  the width, which a release build reduces to a shift by `0`, the mask is `0`
  and the whole cell of `q` is skipped.
* `findSlot_greatest`: the slot found is the last set slot below
  `searchLimit W q`; `findSlot_of_none`: with no such slot, the `usize`
  subtraction wraps to `2 ^ 64 - 1`.
-/

universe u

namespace Comet

/-! ## The loop -/

section Scan

variable {C : Type u} [Zero C] [DecidableEq C]

/-- The loop of every `find_header`:

```
while word == 0 && cell_index != 0 { cell_index -= 1; word = load(cell_index) }
```

from the cell `cell_index`, whose content, masked, is `word`.  It returns the
cell index it stops at and the word it holds there. -/
def scanBack (load : Nat → C) : Nat → C → Nat × C
  | 0, word => (0, word)
  | cell_index + 1, word =>
    if word = 0 then scanBack load cell_index (load cell_index) else (cell_index + 1, word)

/-- The scan stops at the last non-zero cell at or below the cell it starts
from, whose content it reads as `word`, or at cell `0` with a zero word when
there is none. -/
theorem scanBack_spec (load : Nat → C) (c : Nat) (word : C) :
    (scanBack load c word).1 ≤ c ∧
      (scanBack load c word).2 =
        (if (scanBack load c word).1 = c then word else load (scanBack load c word).1) ∧
      (∀ j, (scanBack load c word).1 < j → j ≤ c → (if j = c then word else load j) = 0) ∧
      ((scanBack load c word).2 = 0 → (scanBack load c word).1 = 0) := by
  induction c generalizing word with
  | zero => exact ⟨le_rfl, by simp [scanBack], fun j h₁ h₂ => by simp [scanBack] at h₁; omega,
      fun _ => rfl⟩
  | succ c ih =>
    by_cases hw : word = 0
    · have hstep : scanBack load (c + 1) word = scanBack load c (load c) := by
        rw [scanBack, if_pos hw]
      obtain ⟨hle, hval, hzero, hnil⟩ := ih (load c)
      rw [hstep]
      refine ⟨by omega, ?_, fun j h₁ h₂ => ?_, hnil⟩
      · rw [if_neg (by omega), hval]
        by_cases h : (scanBack load c (load c)).1 = c
        · rw [if_pos h, h]
        · rw [if_neg h]
      · by_cases hj : j = c + 1
        · rw [if_pos hj, hw]
        · have := hzero j h₁ (by omega)
          rw [if_neg hj]
          by_cases hjc : j = c
          · rwa [if_pos hjc, ← hjc] at this
          · rwa [if_neg hjc] at this
    · simp only [scanBack, if_neg hw]
      exact ⟨le_rfl, by simp, fun j h₁ h₂ => by omega, fun h => absurd h hw⟩

end Scan

/-! ## The slot found -/

/-- The slots `find_header` searches from slot `q`, with cells of `W` slots,
are those below `searchLimit W q`. -/
def searchLimit (W q : Nat) : Nat := if q % W = W - 1 then q - (W - 1) else q + 1

section FindSlot

variable {C : Type u} [Zero C] [DecidableEq C] {W : Nat} (testBit : C → Nat → Bool)
  (mask : C → Nat → C) (leadingZeros : C → Nat)

/-- The slot number that `find_header` computes from the slot number `q` of
the query: `load` reads a cell, `mask x bit` is `x & ((1 << (bit + 1)) - 1)`,
and `leadingZeros` is the cell type's `leading_zeros`.  The last subtraction
is in `usize`: when the scan ends at cell `0` with a zero word it wraps to
`2 ^ 64 - 1`. -/
def findSlot (W : Nat) (load : Nat → C) (mask : C → Nat → C) (leadingZeros : C → Nat)
    (q : Nat) : Nat :=
  let cell_index := q / W
  let bit := q % W
  let r := scanBack load cell_index (mask (load cell_index) bit)
  wrappingSub (r.1 * W + (W - 1)) (leadingZeros r.2)

variable (hW : 0 < W) (hzero : ∀ x, x = 0 ↔ ∀ i < W, testBit x i = false)
  (hmask : ∀ x bit i, testBit (mask x bit) i = (decide (i < (bit + 1) % W) && testBit x i))
  (hlz : ∀ x, x ≠ 0 → leadingZeros x < W ∧ testBit x (W - 1 - leadingZeros x) = true ∧
    ∀ j, W - 1 - leadingZeros x < j → testBit x j = false)

include hW in
/-- Every slot of a cell below the query's cell, and every slot up to `q`, is
below `searchLimit W q` exactly when the scan may find it. -/
theorem lt_searchLimit_iff {q k : Nat} (hk : k / W ≤ q / W) :
    k < searchLimit W q ↔ k / W < q / W ∨ (k / W = q / W ∧ k % W < (q % W + 1) % W) := by
  have hkd := Nat.div_add_mod k W
  have hqd := Nat.div_add_mod q W
  have hkm := Nat.mod_lt k hW
  have hqm := Nat.mod_lt q hW
  unfold searchLimit
  rcases Nat.lt_or_eq_of_le hk with hlt | heq
  · have : W * (k / W) + W ≤ W * (q / W) := by
      rw [← Nat.mul_succ]; exact Nat.mul_le_mul_left W hlt
    split <;> simp only [hlt, true_or, iff_true] <;> omega
  · rw [heq] at hkd
    simp only [heq, lt_irrefl, false_or, true_and]
    split
    · rename_i hlast
      rw [hlast, Nat.sub_add_cancel hW, Nat.mod_self]
      omega
    · rw [Nat.mod_eq_of_lt (by omega : q % W + 1 < W)]
      omega

omit [Zero C] [DecidableEq C] in
include hW hmask in
/-- The cells the scan reads, as slots: below the query's cell, the stored
bits; in the query's cell, the stored bits below `searchLimit W q`. -/
theorem scanCell_testBit (load : Nat → C) {q k : Nat} (hk : k / W ≤ q / W) :
    testBit (if k / W = q / W then mask (load (q / W)) (q % W) else load (k / W)) (k % W) =
      (testBit (load (k / W)) (k % W) && decide (k < searchLimit W q)) := by
  simp only [lt_searchLimit_iff hW hk]
  by_cases heq : k / W = q / W
  · rw [if_pos heq, hmask, heq]
    simp [Bool.and_comm]
  · rw [if_neg heq]
    simp [show k / W < q / W by omega]

include hW in
/-- Bit `b` of cell `c` is slot `c * W + b`. -/
theorem slot_div_mod {c b : Nat} (hb : b < W) : (c * W + b) / W = c ∧ (c * W + b) % W = b :=
  ⟨by rw [Nat.add_comm, Nat.add_mul_div_right _ _ hW, Nat.div_eq_of_lt hb, Nat.zero_add],
    by rw [Nat.add_comm, Nat.add_mul_mod_self_right, Nat.mod_eq_of_lt hb]⟩

include hW hzero hmask hlz in
/-- `find_header` finds the last set slot below `searchLimit W q`, as soon as
there is one. -/
theorem findSlot_greatest (load : Nat → C) (q : Nat)
    (h : ∃ k < searchLimit W q, testBit (load (k / W)) (k % W) = true) :
    findSlot W load mask leadingZeros q < searchLimit W q ∧
      testBit (load (findSlot W load mask leadingZeros q / W))
        (findSlot W load mask leadingZeros q % W) = true ∧
      ∀ j, findSlot W load mask leadingZeros q < j → j < searchLimit W q →
        testBit (load (j / W)) (j % W) = false := by
  have hlimit : searchLimit W q ≤ q + 1 := by unfold searchLimit; split <;> omega
  have hbelow : ∀ k, k < searchLimit W q → k / W ≤ q / W := fun k hk =>
    Nat.div_le_div_right (by omega)
  obtain ⟨k₀, hk₀, hset₀⟩ := h
  obtain ⟨hle, hval, hzeros, hnil⟩ :=
    scanBack_spec load (q / W) (mask (load (q / W)) (q % W))
  set r := scanBack load (q / W) (mask (load (q / W)) (q % W))
  -- the cell of `k₀` is not zero, so the scan stops at or above it, on a non-zero cell
  have hcell₀ := scanCell_testBit testBit mask hW hmask load (hbelow k₀ hk₀)
  simp only [hset₀, hk₀, decide_True, Bool.and_true] at hcell₀
  have hnz₀ : (if k₀ / W = q / W then mask (load (q / W)) (q % W) else load (k₀ / W)) ≠ 0 :=
    fun hz => by rw [hzero] at hz; rw [hz _ (Nat.mod_lt _ hW)] at hcell₀; cases hcell₀
  have hr₀ : k₀ / W ≤ r.1 :=
    Nat.le_of_not_lt fun hlt => hnz₀ (hzeros _ hlt (hbelow k₀ hk₀))
  have hr : r.2 ≠ 0 := fun hz => by
    have h0 := hnil hz
    have hk0 : k₀ / W = 0 := Nat.eq_zero_of_le_zero (h0 ▸ hr₀)
    rw [h0] at hval
    rw [hk0] at hnz₀
    exact hnz₀ (hval ▸ hz)
  obtain ⟨hlzW, hbit, habove⟩ := hlz r.2 hr
  -- the slot found, split into its cell and its bit
  set k := findSlot W load mask leadingZeros q with hk
  have hfind : k = r.1 * W + (W - 1 - leadingZeros r.2) := by
    show wrappingSub (r.1 * W + (W - 1)) (leadingZeros r.2) = _
    rw [wrappingSub_of_le (by omega)]
    omega
  obtain ⟨hdiv, hmod⟩ : k / W = r.1 ∧ k % W = W - 1 - leadingZeros r.2 := by
    rw [hfind]; exact slot_div_mod hW (by omega)
  -- reading the found cell and the cells above it through `scanCell_testBit`
  have hread : ∀ j, j / W ≤ q / W → r.1 ≤ j / W →
      testBit (if j / W = q / W then mask (load (q / W)) (q % W) else load (j / W)) (j % W) =
        testBit (if j / W = r.1 then r.2 else 0) (j % W) := by
    intro j hj hrj
    by_cases hjr : j / W = r.1
    · rw [if_pos hjr, hval, hjr]
    · rw [if_neg hjr, hzeros _ (by omega) hj]
  have hfound := scanCell_testBit testBit mask hW hmask load (k := k) (hdiv ▸ hle)
  rw [hread k (hdiv ▸ hle) hdiv.ge, hdiv, if_pos rfl, hmod, hbit, eq_comm, Bool.and_eq_true,
    decide_eq_true_eq] at hfound
  refine ⟨hfound.2, by rw [hdiv, hmod]; exact hfound.1, fun j hj hjl => ?_⟩
  have hjq := hbelow j hjl
  have hrj : r.1 ≤ j / W := hdiv ▸ Nat.div_le_div_right hj.le
  have hcell := scanCell_testBit testBit mask hW hmask load hjq
  simp only [hread j hjq hrj, hjl, decide_True, Bool.and_true] at hcell
  rw [← hcell]
  by_cases hjr : j / W = r.1
  · rw [if_pos hjr]
    apply habove
    have := Nat.div_add_mod j W
    have := Nat.div_add_mod k W
    rw [hjr] at *
    rw [hdiv, hmod] at *
    omega
  · rw [if_neg hjr, (hzero 0).1 rfl _ (Nat.mod_lt _ hW)]

include hW hmask hlz in
/-- With no set slot below `searchLimit W q`, the scan ends at cell `0` on a
zero word, and the last subtraction wraps. -/
theorem findSlot_of_none (hlz0 : leadingZeros 0 = W) (load : Nat → C) (q : Nat)
    (h : ∀ k < searchLimit W q, testBit (load (k / W)) (k % W) = false) :
    findSlot W load mask leadingZeros q = 2 ^ 64 - 1 := by
  obtain ⟨hle, hval, -, hnil⟩ := scanBack_spec load (q / W) (mask (load (q / W)) (q % W))
  set r := scanBack load (q / W) (mask (load (q / W)) (q % W))
  have hr : r.2 = 0 := by
    by_contra hr
    obtain ⟨hlzW, hbit, -⟩ := hlz r.2 hr
    -- the slot of the bit that `leading_zeros` finds in the word the scan stops at
    obtain ⟨hdiv, hmod⟩ := slot_div_mod hW (c := r.1) (show W - 1 - leadingZeros r.2 < W by omega)
    have hcell := scanCell_testBit testBit mask hW hmask load (hdiv ▸ hle)
    rw [hdiv, hmod, ← hval, hbit, eq_comm, Bool.and_eq_true, decide_eq_true_eq] at hcell
    have := h _ hcell.2
    rw [hdiv, hmod, hcell.1] at this
    exact Bool.noConfusion this
  show wrappingSub (r.1 * W + (W - 1)) (leadingZeros r.2) = _
  rw [hnil hr, hr, hlz0, wrappingSub, if_neg (by omega)]
  omega

end FindSlot

end Comet
