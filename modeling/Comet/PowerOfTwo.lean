import Mathlib.Data.Nat.Log
import Comet.Word

/-!
# Powers of two

`utils.rs` rounds a `u32` to a power of two with `leading_zeros` and reads
the exponent of a `usize` with `trailing_zeros`:

* `round_up_to_power_of_two32(v)` is `1 << (32 - (v - 1).leading_zeros())`,
  the `- 1` skipped for `0`.  The shift reaches `32` for every
  `v > 2 ^ 31`; a release build takes the amount modulo `32`, as Lean's
  `<<<` on `UInt32` does, and returns `1`, where a debug build panics.
* `round_down_to_power_of_two32(v)` returns `0x80000000` above it and
  otherwise halves the rounded-up value when it overshoots `v`.
* `which_power_of_two(v)` is `v.trailing_zeros()`.

Their specifications are `Nat.clog 2` and `Nat.log 2`:

* `roundUpToPowerOfTwo32_toNat`: `round_up_to_power_of_two32(v)` is
  `2 ^ clog₂ v` up to `v = 2 ^ 31`, and `1` above it, so it is below `v`
  there.
* `roundDownToPowerOfTwo32_toNat`: `round_down_to_power_of_two32(v)` is
  `2 ^ log₂ v` for every non-zero `v`, and `0` for `0`.
* In both, `which_power_of_two` of the result, widened to `usize`, reads the
  exponent back.
-/

/-- `u32::leading_zeros`: the number of clear bits above the highest set bit,
`32` for `0`. -/
def UInt32.leadingZeros (v : UInt32) : Nat :=
  ((List.range 32).find? fun i => v.toBitVec.getLsbD (31 - i)).getD 32

/-! ## Words and exponents -/

namespace UInt32

theorem lt_iff_toNat_lt {a b : UInt32} : a < b ↔ a.toNat < b.toNat := Iff.rfl

/-- `1 << k` on `u32`, the amount taken modulo `32`. -/
theorem toNat_one_shiftLeft (k : Nat) :
    ((1 : UInt32) <<< k.toUInt32).toNat = 2 ^ (k % 32) := by
  show ((1 : UInt32).toBitVec <<< (UInt32.mod k.toUInt32 32).toBitVec).toNat = _
  have hamt : (UInt32.mod k.toUInt32 32).toBitVec.toNat = k % 32 := by
    show (k.toUInt32.toBitVec % (32 : UInt32).toBitVec).toNat = _
    rw [BitVec.toNat_umod]
    exact Nat.mod_mod_of_dvd k (by decide)
  rw [BitVec.shiftLeft_eq', BitVec.toNat_shiftLeft, hamt, Nat.shiftLeft_eq]
  show 1 * 2 ^ (k % 32) % 2 ^ 32 = _
  rw [Nat.one_mul]
  exact Nat.mod_eq_of_lt (Nat.pow_lt_pow_right (by decide) (Nat.mod_lt k (by decide)))

/-- `>> 1` on `u32` halves. -/
theorem toNat_shiftRight_one (a : UInt32) : (a >>> 1).toNat = a.toNat / 2 := by
  show (a.toBitVec >>> (UInt32.mod 1 32).toBitVec).toNat = _
  rw [BitVec.ushiftRight_eq', BitVec.toNat_ushiftRight, Nat.shiftRight_eq_div_pow]
  rfl

theorem leadingZeros_zero : (0 : UInt32).leadingZeros = 32 := by decide

/-- The highest set bit of a non-zero `u32`, `31 - leading_zeros`, is its
`log₂`. -/
theorem log_toNat {v : UInt32} (h : v ≠ 0) :
    v.leadingZeros < 32 ∧ Nat.log 2 v.toNat = 31 - v.leadingZeros := by
  obtain ⟨hlt, hbit, habove⟩ :
      v.leadingZeros < 32 ∧ v.toBitVec.getLsbD (31 - v.leadingZeros) ∧
      ∀ j, 31 - v.leadingZeros < j → v.toBitVec.getLsbD j = false :=
    Comet.findHigh_spec
      (Comet.exists_getLsbD_of_ne_zero fun h' => h (UInt32.eq_of_toBitVec_eq h')) rfl
  have hne : v.toNat ≠ 0 := fun h0 => h (UInt32.toNat.inj h0)
  refine ⟨hlt, (Nat.log_eq_iff (Or.inr ⟨by decide, hne⟩)).2
    ⟨Nat.testBit_implies_ge hbit, ?_⟩⟩
  exact Nat.lt_pow_two_of_testBit _ fun j hj => habove j (by omega)

end UInt32

namespace UInt64

/-- `trailing_zeros` of a power of two is its exponent. -/
theorem trailingZeros_two_pow {w : UInt64} {k : Nat} (hw : w.toNat = 2 ^ k) :
    w.trailingZeros = k := by
  have hbit : ∀ i, w.testBit i = decide (k = i) := fun i => by
    show w.toNat.testBit i = _
    rw [hw, Nat.testBit_two_pow]
  have hne : w ≠ 0 := fun h0 => by simpa [h0] using hbit k
  obtain ⟨-, hset, hbelow⟩ := trailingZeros_spec hne
  rw [hbit] at hset
  exact (of_decide_eq_true hset).symm

theorem trailingZeros_zero : (0 : UInt64).trailingZeros = 64 := by decide

end UInt64

namespace Comet

/-! ## The functions -/

/-- `which_power_of_two(value)`: `value.trailing_zeros()`. -/
def whichPowerOfTwo (value : UInt64) : Nat := value.trailingZeros

/-- `round_up_to_power_of_two32(value)`. -/
def roundUpToPowerOfTwo32 (value : UInt32) : UInt32 :=
  let value := if value > 0 then value - 1 else value
  1 <<< (32 - value.leadingZeros).toUInt32

/-- `round_down_to_power_of_two32(value)`. -/
def roundDownToPowerOfTwo32 (value : UInt32) : UInt32 :=
  if value > 0x80000000 then 0x80000000
  else
    let result := roundUpToPowerOfTwo32 value
    if result > value then result >>> 1 else result

/-- The exponent of the least power of two at or above `n ≥ 2` is one more
than `log₂ (n - 1)`, the exponent `round_up_to_power_of_two32` shifts by. -/
theorem clog_eq_log_pred_add_one {n : Nat} (hn : 2 ≤ n) :
    Nat.clog 2 n = Nat.log 2 (n - 1) + 1 := by
  apply Nat.le_antisymm
  · refine (Nat.le_pow_iff_clog_le (by decide)).1 ?_
    have := Nat.lt_pow_succ_log_self (by decide : 1 < 2) (n - 1)
    omega
  · refine (Nat.pow_lt_iff_lt_clog (by decide)).1 ?_
    have := Nat.pow_log_le_self 2 (show n - 1 ≠ 0 by omega)
    omega

/-! ## `round_up_to_power_of_two32` -/

/-- The operand of `leading_zeros`: `value - 1`, or `0` for `0`. -/
theorem toNat_pred_of_gt (value : UInt32) :
    (if value > 0 then value - 1 else value).toNat = value.toNat - 1 := by
  split
  · rename_i h
    exact UInt32.toNat_sub_of_le _ _ (UInt32.lt_iff_toNat_lt.1 h)
  · rename_i h
    have h : ¬ 0 < value.toNat := h
    show value.toNat = _
    omega

/-- The shift amount of `round_up_to_power_of_two32`: `0` up to `1`, and
`log₂ (v - 1) + 1` above. -/
theorem roundUpToPowerOfTwo32_eq (value : UInt32) :
    (roundUpToPowerOfTwo32 value).toNat =
      2 ^ ((if value.toNat ≤ 1 then 0 else Nat.log 2 (value.toNat - 1) + 1) % 32) := by
  unfold roundUpToPowerOfTwo32
  dsimp only
  rw [UInt32.toNat_one_shiftLeft]
  generalize hx : (if value > 0 then value - 1 else value) = x
  have hxn : x.toNat = value.toNat - 1 := hx ▸ toNat_pred_of_gt value
  by_cases h1 : value.toNat ≤ 1
  · have hx0 : x = 0 := UInt32.toNat.inj (by rw [hxn]; show _ = 0; omega)
    rw [if_pos h1, hx0, UInt32.leadingZeros_zero]
  · have hx0 : x ≠ 0 := fun h0 => by
      rw [h0] at hxn
      exact h1 (by change 0 = _ at hxn; omega)
    obtain ⟨hlt, hlog⟩ := UInt32.log_toNat hx0
    rw [if_neg h1, ← hxn, hlog]
    congr 2
    omega

/-- Up to `2 ^ 31`, `round_up_to_power_of_two32` is the least power of two
at or above its argument. -/
theorem roundUpToPowerOfTwo32_of_le {value : UInt32} (h : value.toNat ≤ 2 ^ 31) :
    (roundUpToPowerOfTwo32 value).toNat = 2 ^ Nat.clog 2 value.toNat := by
  rw [roundUpToPowerOfTwo32_eq]
  split
  · rename_i h1
    rw [Nat.clog_of_right_le_one h1]
  · rename_i h1
    have hlog : Nat.log 2 (value.toNat - 1) < 31 :=
      Nat.log_lt_of_lt_pow (by omega) (by omega)
    rw [clog_eq_log_pred_add_one (by omega), Nat.mod_eq_of_lt (by omega)]

/-- Above `2 ^ 31` the shift amount is `32`, which wraps to `0`. -/
theorem roundUpToPowerOfTwo32_of_gt {value : UInt32} (h : 2 ^ 31 < value.toNat) :
    roundUpToPowerOfTwo32 value = 1 := by
  have hlt : value.toNat < 2 ^ 32 := value.toNat_lt_size
  have hlog : Nat.log 2 (value.toNat - 1) = 31 :=
    Nat.log_eq_of_pow_le_of_lt_pow (by omega) (by omega)
  apply UInt32.toNat.inj
  rw [roundUpToPowerOfTwo32_eq, if_neg (by omega), hlog]
  rfl

/-- `round_up_to_power_of_two32(v)` is `2 ^ clog₂ v` for `v ≤ 2 ^ 31`, `0` and
`1` included, and `1` for every larger `v`: the shift by `32` wraps, and the
result is below `v`.  `which_power_of_two` of the result is its exponent. -/
theorem roundUpToPowerOfTwo32_toNat (value : UInt32) :
    (roundUpToPowerOfTwo32 value).toNat =
        (if value.toNat ≤ 2 ^ 31 then 2 ^ Nat.clog 2 value.toNat else 1) ∧
      whichPowerOfTwo (roundUpToPowerOfTwo32 value).toUInt64 =
        if value.toNat ≤ 2 ^ 31 then Nat.clog 2 value.toNat else 0 := by
  by_cases h : value.toNat ≤ 2 ^ 31
  · have hup := roundUpToPowerOfTwo32_of_le h
    have hc : Nat.clog 2 value.toNat ≤ 31 := (Nat.le_pow_iff_clog_le (by decide)).1 h
    rw [if_pos h, if_pos h]
    exact ⟨hup, UInt64.trailingZeros_two_pow hup⟩
  · have hgt : 2 ^ 31 < value.toNat := Nat.lt_of_not_le h
    rw [if_neg h, if_neg h, roundUpToPowerOfTwo32_of_gt hgt]
    exact ⟨rfl, UInt64.trailingZeros_two_pow (k := 0) rfl⟩

example : roundUpToPowerOfTwo32 5 = 8 ∧ roundUpToPowerOfTwo32 0x80000000 = 0x80000000 ∧
    roundUpToPowerOfTwo32 0x80000001 = 1 := by decide

/-! ## `round_down_to_power_of_two32` -/

/-- When `v` is not a power of two, `clog₂ v` is one more than `log₂ v`. -/
theorem clog_eq_log_add_one {v : Nat} (h0 : v ≠ 0) (hv : v < 2 ^ Nat.clog 2 v) :
    Nat.clog 2 v = Nat.log 2 v + 1 := by
  obtain ⟨c, hc⟩ : ∃ c, Nat.clog 2 v = c + 1 :=
    Nat.exists_eq_succ_of_ne_zero fun hc => by rw [hc] at hv; omega
  have hbelow : 2 ^ c < v := (Nat.pow_lt_iff_lt_clog (by decide)).2 (by omega)
  have hlog : Nat.log 2 v = c := Nat.log_eq_of_pow_le_of_lt_pow (by omega) (hc ▸ hv)
  omega

/-- Up to `2 ^ 31`, `round_down_to_power_of_two32` halves the rounded-up value
exactly when it overshoots, which gives `2 ^ log₂ v`. -/
theorem roundDownToPowerOfTwo32_of_le {value : UInt32} (h : value.toNat ≤ 2 ^ 31) :
    (roundDownToPowerOfTwo32 value).toNat =
      if value.toNat = 0 then 0 else 2 ^ Nat.log 2 value.toNat := by
  have hup := roundUpToPowerOfTwo32_of_le h
  have hge := Nat.le_pow_clog (by decide : 1 < 2) value.toNat
  unfold roundDownToPowerOfTwo32
  rw [if_neg (show ¬ value > 0x80000000 from Nat.not_lt.2 h)]
  dsimp only
  split
  · rename_i hover
    have hover : value.toNat < 2 ^ Nat.clog 2 value.toNat := hup ▸ hover
    rw [UInt32.toNat_shiftRight_one, hup]
    by_cases h0 : value.toNat = 0
    · rw [if_pos h0, h0, Nat.clog_of_right_le_one (by decide)]
      rfl
    · rw [if_neg h0, clog_eq_log_add_one h0 hover, Nat.pow_succ, Nat.mul_div_cancel _ (by decide)]
  · rename_i hexact
    have hpow : 2 ^ Nat.clog 2 value.toNat = value.toNat :=
      Nat.le_antisymm (hup ▸ Nat.not_lt.1 hexact) hge
    have h0 : value.toNat ≠ 0 := hpow ▸ (Nat.two_pow_pos _).ne'
    rw [hup, if_neg h0]
    conv_rhs => rw [← hpow, Nat.log_pow (by decide)]

/-- Above `2 ^ 31` the early return gives `2 ^ 31`. -/
theorem roundDownToPowerOfTwo32_of_gt {value : UInt32} (h : 2 ^ 31 < value.toNat) :
    roundDownToPowerOfTwo32 value = 0x80000000 :=
  if_pos h

/-- `round_down_to_power_of_two32(v)` is `2 ^ log₂ v`, the greatest power of
two at or below `v`, for every non-zero `v`, and `0` for `0`.  On a
power of two it is the identity.  `which_power_of_two` of the result reads
`log₂ v` back, and `64` for `0`. -/
theorem roundDownToPowerOfTwo32_toNat (value : UInt32) :
    (roundDownToPowerOfTwo32 value).toNat =
        (if value.toNat = 0 then 0 else 2 ^ Nat.log 2 value.toNat) ∧
      whichPowerOfTwo (roundDownToPowerOfTwo32 value).toUInt64 =
        if value.toNat = 0 then 64 else Nat.log 2 value.toNat := by
  have hdown : (roundDownToPowerOfTwo32 value).toNat =
      if value.toNat = 0 then 0 else 2 ^ Nat.log 2 value.toNat := by
    by_cases h : value.toNat ≤ 2 ^ 31
    · exact roundDownToPowerOfTwo32_of_le h
    · have hlt : value.toNat < 2 ^ 32 := value.toNat_lt_size
      have hlog : Nat.log 2 value.toNat = 31 :=
        Nat.log_eq_of_pow_le_of_lt_pow (by omega) (by omega)
      rw [roundDownToPowerOfTwo32_of_gt (by omega), if_neg (by omega), hlog]
      rfl
  refine ⟨hdown, ?_⟩
  split
  · rename_i h0
    rw [if_pos h0] at hdown
    rw [whichPowerOfTwo, show (roundDownToPowerOfTwo32 value).toUInt64 = 0 from
      UInt64.toNat.inj hdown]
    exact UInt64.trailingZeros_zero
  · rename_i h0
    rw [if_neg h0] at hdown
    exact UInt64.trailingZeros_two_pow hdown

end Comet
