import Comet.SpaceBitmap.Basic

/-!
# Rounding to a power of two, and the sizes of a `SpaceBitmap`

`utils.rs` rounds addresses with three bit masks on a `usize`, `align_down`,
`align_up` and `is_aligned`, and with `align_usize`, a wrapping divide and
multiply.  `bitmap.rs` rounds with `round_down`, the mask `x & -n` on the
`i64` view of its operands, and `round_up`, which is `round_down` of
`x + n - 1`; `compute_bitmap_size` sizes a bitmap with `round_up`.  All of
them work in 64 bits, so the model computes in `UInt64` and states results on
`toNat`.

* `toNat_and_not_pred`: for `n = 2 ^ k`, the mask `!(n - 1)` clears the `k`
  low bits, so it rounds down to a multiple of `n`; `zero_sub_eq_not_pred`:
  `-n` is the same mask, so `round_down` is `align_down`.
* `rounding_helpers_agree`: for a power of two `n` and `x + n - 1 < 2 ^ 64`,
  `align_usize` and `round_up` are `n * ⌈x / n⌉`, `align_down` and
  `round_down` are `n * ⌊x / n⌋`, and `is_aligned` is `n ∣ x`.
* `alignUp_below`: `align_up` subtracts `align` where the library code its
  comment cites adds it, so above `n` it returns a multiple of `n` at least
  `n` below `x`.
* `create_covers_capacity`: the bitmap that `SpaceBitmap::create` sizes with
  `compute_bitmap_size` covers exactly the capacity rounded up to whole words,
  and `has_address` accepts exactly that range.
* `LineMarkTable.create_covers_CAPACITY_not_heap_capacity`: the table that
  `gen_const_bitmap!` generates sizes its bitmap from its `CAPACITY`
  constant, so `has_address` accepts `CAPACITY` rounded up to whole words
  whatever `heap_capacity` `create` is given, while `heap_limit` follows
  `heap_capacity`.
-/

namespace UInt64

theorem testBit_eq_toNat_testBit (w : UInt64) (i : Nat) : w.testBit i = w.toNat.testBit i := rfl

/-- A product that does not wrap, beside the library's `toNat_sub_of_le`. -/
theorem toNat_mul_of_lt {a b : UInt64} (h : a.toNat * b.toNat < 2 ^ 64) :
    (a * b).toNat = a.toNat * b.toNat :=
  (BitVec.toNat_mul ..).trans (Nat.mod_eq_of_lt h)

end UInt64

namespace Comet

open UInt64

/-! ## The helpers of `utils.rs` -/

/-- `align_down`: `addr & !align.wrapping_sub(1)`. -/
def alignDown (addr align : UInt64) : UInt64 := addr &&& ~~~(align - 1)

/-- `align_up`: `addr.wrapping_sub(align).wrapping_sub(1) & !align.wrapping_sub(1)`. -/
def alignUp (addr align : UInt64) : UInt64 := (addr - align - 1) &&& ~~~(align - 1)

/-- `is_aligned`: `addr & align.wrapping_sub(1) == 0`. -/
def isAligned (addr align : UInt64) : Bool := addr &&& (align - 1) == 0

/-- `align_usize`: `value.wrapping_add(align).wrapping_sub(1)`, divided by
`align` and multiplied by it, wrapping.  The code divides by zero for
`align = 0`; every theorem here has `align ≥ 1`. -/
def alignUsize (value align : UInt64) : UInt64 := (value + align - 1) / align * align

theorem toNat_toUInt64 {v : Nat} (h : v < 2 ^ 64) : v.toUInt64.toNat = v := Nat.mod_eq_of_lt h

theorem toNat_pred {n : UInt64} (h : 0 < n.toNat) : (n - 1).toNat = n.toNat - 1 :=
  UInt64.toNat_sub_of_le n 1 h

/-- `x + n - 1` wraps only past `2 ^ 64`: when `x + n` is `2 ^ 64` it wraps to
`0`, and the subtraction wraps back. -/
theorem toNat_add_pred {x n : UInt64} (hn : 0 < n.toNat) (h : x.toNat + n.toNat - 1 < 2 ^ 64) :
    (x + n - 1).toNat = x.toNat + n.toNat - 1 := by
  have hadd : (x + n).toNat = (x.toNat + n.toNat) % 2 ^ 64 := BitVec.toNat_add ..
  have hsub : (x + n - 1).toNat = (2 ^ 64 - 1 + (x + n).toNat) % 2 ^ 64 := BitVec.toNat_sub ..
  rw [hsub, hadd]
  omega

/-- The two's-complement negation of `n` is the complement of `n - 1`, for
every `n`: this is why `round_down`'s `x & -n` is `align_down`'s mask. -/
theorem zero_sub_eq_not_pred (n : UInt64) : 0 - n = ~~~(n - 1) := by
  apply UInt64.eq_of_toBitVec_eq
  apply BitVec.eq_of_toNat_eq
  have : n.toNat < 2 ^ 64 := n.toNat_lt_size
  show (0#64 - n.toBitVec).toNat = (~~~(n.toBitVec - 1#64)).toNat
  rw [BitVec.toNat_not, BitVec.toNat_sub, BitVec.toNat_sub]
  show (2 ^ 64 - n.toNat + 0) % 2 ^ 64 = 2 ^ 64 - 1 - (2 ^ 64 - 1 + n.toNat) % 2 ^ 64
  omega

/-- For `n = 2 ^ k`, masking with `!(n - 1)` rounds down to a multiple of `n`:
bit `i` survives iff `i ≥ k`, which are the bits of `n * (x / n)`. -/
theorem toNat_and_not_pred (x n : UInt64) {k : Nat} (hn : n.toNat = 2 ^ k) :
    (x &&& ~~~(n - 1)).toNat = x.toNat / n.toNat * n.toNat := by
  apply Nat.eq_of_testBit_eq
  intro i
  rw [← testBit_eq_toNat_testBit, testBit_and, testBit_not, testBit_eq_toNat_testBit,
    testBit_eq_toNat_testBit, toNat_pred (hn ▸ Nat.two_pow_pos k), hn,
    Nat.testBit_two_pow_sub_one, Nat.mul_comm, Nat.testBit_mul_pow_two,
    ← Nat.shiftRight_eq_div_pow, Nat.testBit_shiftRight]
  by_cases hik : k ≤ i
  · rw [Nat.add_sub_cancel' hik]
    by_cases hi : i < 64
    · simp [hi, hik, Nat.not_lt.2 hik]
    · simp [hi, ← testBit_eq_toNat_testBit, x.testBit_of_ge (Nat.le_of_not_lt hi)]
  · simp [hik, Nat.lt_of_not_le hik]

theorem roundDown_eq_alignDown (x n : UInt64) : roundDown x n = alignDown x n := by
  rw [roundDown, alignDown, zero_sub_eq_not_pred]

theorem toNat_alignUsize {x n : UInt64} (hn : 0 < n.toNat) (h : x.toNat + n.toNat - 1 < 2 ^ 64) :
    (alignUsize x n).toNat = (x.toNat + n.toNat - 1) / n.toNat * n.toNat := by
  have hle := Nat.div_mul_le_self (x.toNat + n.toNat - 1) n.toNat
  rw [alignUsize, toNat_mul_of_lt (by rw [UInt64.toNat_div, toNat_add_pred hn h]; omega),
    UInt64.toNat_div, toNat_add_pred hn h]

theorem toNat_roundUp {x n : UInt64} {k : Nat} (hn : n.toNat = 2 ^ k)
    (h : x.toNat + n.toNat - 1 < 2 ^ 64) :
    (roundUp x n).toNat = (x.toNat + n.toNat - 1) / n.toNat * n.toNat := by
  rw [roundUp, roundDown_eq_alignDown, alignDown, toNat_and_not_pred _ _ hn,
    toNat_add_pred (hn ▸ Nat.two_pow_pos k) h]

theorem isAligned_iff (x n : UInt64) {k : Nat} (hn : n.toNat = 2 ^ k) :
    isAligned x n = true ↔ n.toNat ∣ x.toNat := by
  have hmod : (x &&& (n - 1)).toNat = x.toNat % n.toNat := by
    rw [UInt64.and_toNat, toNat_pred (hn ▸ Nat.two_pow_pos k), hn, Nat.and_pow_two_sub_one_eq_mod]
  rw [isAligned, beq_iff_eq, Nat.dvd_iff_mod_eq_zero, ← hmod]
  exact ⟨congrArg UInt64.toNat, fun h => UInt64.toNat.inj (h : _ = (0 : UInt64).toNat)⟩

/-- `align_usize` and `round_up` round up to `n * ⌈x / n⌉`, and `align_down`
and `round_down` round down to `n * ⌊x / n⌋`, for every power of two `n` and
every `x` whose sum `x + n - 1` does not wrap; `is_aligned` tests `n ∣ x`.
The bound `n ≤ 2 ^ 62` under which `round_down` negates `n` in `i64` without
overflow is not needed: the model takes `-n` in two's complement. -/
theorem rounding_helpers_agree (x n : UInt64) (hn : n.toNat.isPowerOfTwo)
    (hx : x.toNat + n.toNat - 1 < 2 ^ 64) :
    alignUsize x n = roundUp x n ∧
      (roundUp x n).toNat = n.toNat * ((x.toNat + n.toNat - 1) / n.toNat) ∧
      alignDown x n = roundDown x n ∧ (roundDown x n).toNat = n.toNat * (x.toNat / n.toNat) ∧
      (isAligned x n = true ↔ n.toNat ∣ x.toNat) := by
  obtain ⟨k, hk⟩ := hn
  have hup := toNat_roundUp hk hx
  refine ⟨UInt64.toNat.inj ?_, by rw [hup, Nat.mul_comm], (roundDown_eq_alignDown x n).symm, ?_,
    isAligned_iff x n hk⟩
  · rw [hup, toNat_alignUsize (hk ▸ Nat.two_pow_pos k) hx]
  · rw [roundDown_eq_alignDown, alignDown, toNat_and_not_pred x n hk, Nat.mul_comm]

theorem rounding_helpers_agree_page :
    (0x1000 : UInt64).toNat.isPowerOfTwo ∧
      (0x1001 : UInt64).toNat + (0x1000 : UInt64).toNat - 1 < 2 ^ 64 ∧
      alignUsize 0x1001 0x1000 = roundUp 0x1001 0x1000 ∧
      (roundUp 0x1001 0x1000).toNat = (0x1000 : UInt64).toNat *
        (((0x1001 : UInt64).toNat + (0x1000 : UInt64).toNat - 1) / (0x1000 : UInt64).toNat) ∧
      alignDown 0x1001 0x1000 = roundDown 0x1001 0x1000 ∧
      (roundDown 0x1001 0x1000).toNat =
        (0x1000 : UInt64).toNat * ((0x1001 : UInt64).toNat / (0x1000 : UInt64).toNat) ∧
      (isAligned 0x1001 0x1000 = true ↔ (0x1000 : UInt64).toNat ∣ (0x1001 : UInt64).toNat) :=
  ⟨⟨12, by decide⟩, by decide, rounding_helpers_agree 0x1001 0x1000 ⟨12, by decide⟩ (by decide)⟩

/-- `align_up` goes down: for a power of two `n` and every `x > n` it returns
`n * ⌊(x - n - 1) / n⌋`, a multiple of `n` at least `n` below `x`.  The code
it cites computes `(x + n - 1) & !(n - 1)`. -/
theorem alignUp_below (x n : UInt64) (hn : n.toNat.isPowerOfTwo) (hx : n.toNat < x.toNat) :
    (alignUp x n).toNat = n.toNat * ((x.toNat - n.toNat - 1) / n.toNat) ∧
      (alignUp x n).toNat + n.toNat < x.toNat := by
  obtain ⟨k, hk⟩ := hn
  have hxn : (x - n).toNat = x.toNat - n.toNat := UInt64.toNat_sub_of_le x n (Nat.le_of_lt hx)
  have hsub : (x - n - 1).toNat = x.toNat - n.toNat - 1 := by
    rw [toNat_pred (by omega), hxn]
  rw [alignUp, toNat_and_not_pred _ _ hk, hsub, Nat.mul_comm]
  refine ⟨rfl, ?_⟩
  have := Nat.mul_div_le (x.toNat - n.toNat - 1) n.toNat
  omega

/-- At `x = 0x1001` and the page size `n = 0x1000`, `align_up` returns `0`
where `align_usize` and `round_up` return `0x2000`. -/
theorem alignUp_below_page :
    (0x1000 : UInt64).toNat.isPowerOfTwo ∧ (0x1000 : UInt64).toNat < (0x1001 : UInt64).toNat ∧
      alignUp 0x1001 0x1000 = 0 ∧ alignUsize 0x1001 0x1000 = 0x2000 ∧
      roundUp 0x1001 0x1000 = 0x2000 ∧
      (alignUp 0x1001 0x1000).toNat + (0x1000 : UInt64).toNat < (0x1001 : UInt64).toNat :=
  ⟨⟨12, by decide⟩, by decide, by decide, by decide, by decide,
    (alignUp_below 0x1001 0x1000 ⟨12, by decide⟩ (by decide)).2⟩

/-! ## The sizes of a `SpaceBitmap` -/

namespace SpaceBitmap

variable {ALIGN : Nat}

/-- `compute_bitmap_size(c)` is one `usize` for every `64 * ALIGN` bytes of
`c`, rounded up. -/
theorem computeBitmapSize_eq (hA : (64 * ALIGN).isPowerOfTwo) (hA62 : 64 * ALIGN ≤ 2 ^ 62)
    {c : Nat} (hc : c + 64 * ALIGN - 1 < 2 ^ 64) :
    computeBitmapSize ALIGN c.toUInt64 = 8 * ((c + 64 * ALIGN - 1) / (64 * ALIGN)) := by
  obtain ⟨k, hk⟩ := hA
  have hpos : 0 < 64 * ALIGN := hk ▸ Nat.two_pow_pos k
  have hw : (ALIGN * BITS_PER_INTPTR).toUInt64.toNat = 64 * ALIGN := by
    rw [BITS_PER_INTPTR, Nat.mul_comm]; exact toNat_toUInt64 (by omega)
  have hcn : c.toUInt64.toNat = c := toNat_toUInt64 (by omega)
  have hq : (c + 64 * ALIGN - 1) / (64 * ALIGN) * 8 < 2 ^ 64 :=
    calc _ ≤ (c + 64 * ALIGN - 1) / (64 * ALIGN) * (64 * ALIGN) := Nat.mul_le_mul_left _ (by omega)
      _ ≤ c + 64 * ALIGN - 1 := Nat.div_mul_le_self _ _
      _ < 2 ^ 64 := hc
  have hdiv : (roundUp c.toUInt64 (ALIGN * BITS_PER_INTPTR).toUInt64 /
      (ALIGN * BITS_PER_INTPTR).toUInt64).toNat = (c + 64 * ALIGN - 1) / (64 * ALIGN) := by
    rw [UInt64.toNat_div, toNat_roundUp (hw.trans hk) (by rwa [hw, hcn]), hw, hcn,
      Nat.mul_div_cancel _ hpos]
  simp only [computeBitmapSize]
  rw [toNat_mul_of_lt (by rw [hdiv]; exact hq), hdiv]
  exact Nat.mul_comm _ _

/-- `create(heap_begin, c)` gets `compute_bitmap_size(c)` bytes of bitmap, one
word for every `64 * ALIGN` bytes of `c` rounded up; `compute_heap_size` of
that is the rounded capacity `L`, at least `c`; and `has_address` accepts
exactly `[heap_begin, heap_begin + L)`, the addresses below `heap_begin`
included, which `wrapping_sub` sends past the end. -/
theorem create_covers_capacity (hA : ALIGN.isPowerOfTwo) (hA62 : 64 * ALIGN ≤ 2 ^ 62)
    (heap_begin c : Nat) (hc : c + 64 * ALIGN - 1 < 2 ^ 64)
    (hL : heap_begin + 64 * ALIGN * ((c + 64 * ALIGN - 1) / (64 * ALIGN)) ≤ 2 ^ 64) :
    (create heap_begin c : SpaceBitmap ALIGN).bitmapSize = computeBitmapSize ALIGN c.toUInt64 ∧
      computeBitmapSize ALIGN c.toUInt64 = 8 * ((c + 64 * ALIGN - 1) / (64 * ALIGN)) ∧
      computeHeapSize ALIGN (computeBitmapSize ALIGN c.toUInt64).toUInt64 =
        64 * ALIGN * ((c + 64 * ALIGN - 1) / (64 * ALIGN)) ∧
      c ≤ 64 * ALIGN * ((c + 64 * ALIGN - 1) / (64 * ALIGN)) ∧
      ∀ A < 2 ^ 64, (create heap_begin c : SpaceBitmap ALIGN).hasAddress A = true ↔
        heap_begin ≤ A ∧ A < heap_begin + 64 * ALIGN * ((c + 64 * ALIGN - 1) / (64 * ALIGN)) := by
  obtain ⟨j, hj⟩ := hA
  have hpos : 0 < ALIGN := hj ▸ Nat.two_pow_pos j
  have hsize := @computeBitmapSize_eq ALIGN ⟨j + 6, by rw [hj, Nat.pow_add, Nat.mul_comm]⟩
    hA62 c hc
  generalize hq : (c + 64 * ALIGN - 1) / (64 * ALIGN) = q at hsize hL ⊢
  have hqL : q * (64 * ALIGN) ≤ c + 64 * ALIGN - 1 := hq ▸ Nat.div_mul_le_self _ _
  have hLq : c + 64 * ALIGN - 1 < q * (64 * ALIGN) + 64 * ALIGN :=
    hq ▸ Nat.lt_div_mul_add (by omega)
  have hheap : (create heap_begin c : SpaceBitmap ALIGN).heapSize = 64 * ALIGN * q := by
    simp only [heapSize, indexToOffset, create, hsize, BITS_PER_INTPTR]
    rw [Nat.mul_div_cancel_left _ (by decide)]; ring
  refine ⟨rfl, hsize, ?_, by rw [Nat.mul_comm]; omega, fun A hA => ?_⟩
  · have hL64 : 64 * ALIGN * q < 2 ^ 64 := by rw [Nat.mul_comm]; omega
    have h64 : 64 * q < 2 ^ 64 := Nat.lt_of_le_of_lt (Nat.mul_le_mul_right q (by omega)) hL64
    have h8q : (8 * q).toUInt64.toNat = 8 * q := toNat_toUInt64 (by omega)
    have h8 : ((8 * q).toUInt64 * 8).toNat = 64 * q := by
      rw [toNat_mul_of_lt (by rw [h8q]; show 8 * q * 8 < 2 ^ 64; omega), h8q]
      show 8 * q * 8 = 64 * q
      omega
    rw [computeHeapSize, hsize, toNat_mul_of_lt, h8, toNat_toUInt64 (by omega)]
    · ring
    · rw [h8, toNat_toUInt64 (by omega), show 64 * q * ALIGN = 64 * ALIGN * q by ring]
      exact hL64
  · rw [hasAddress_iff _ hpos hA (by rw [hheap]; exact hL), hheap]; rfl

/-- A bitmap of `ALIGN = 16` for a page of heap at `0x10000`: four words,
covering `[0x10000, 0x11000)`. -/
theorem create_covers_capacity_page :
    (16 : Nat).isPowerOfTwo ∧ 64 * 16 ≤ 2 ^ 62 ∧ 4096 + 64 * 16 - 1 < 2 ^ 64 ∧
      0x10000 + 64 * 16 * ((4096 + 64 * 16 - 1) / (64 * 16)) ≤ 2 ^ 64 ∧
      ((create 0x10000 4096 : SpaceBitmap 16).bitmapSize =
          computeBitmapSize 16 (4096 : Nat).toUInt64 ∧
        computeBitmapSize 16 (4096 : Nat).toUInt64 = 8 * ((4096 + 64 * 16 - 1) / (64 * 16)) ∧
        computeHeapSize 16 (computeBitmapSize 16 (4096 : Nat).toUInt64).toUInt64 =
          64 * 16 * ((4096 + 64 * 16 - 1) / (64 * 16)) ∧
        4096 ≤ 64 * 16 * ((4096 + 64 * 16 - 1) / (64 * 16)) ∧
        ∀ A < 2 ^ 64, (create 0x10000 4096 : SpaceBitmap 16).hasAddress A = true ↔
          0x10000 ≤ A ∧ A < 0x10000 + 64 * 16 * ((4096 + 64 * 16 - 1) / (64 * 16))) :=
  ⟨⟨4, rfl⟩, by decide, by decide, by decide,
    create_covers_capacity ⟨4, rfl⟩ (by decide) 0x10000 4096 (by decide) (by decide)⟩

end SpaceBitmap

/-! ## `LineMarkTable` -/

namespace LineMarkTable

open SpaceBitmap

variable {ALIGN : Nat}

/-- `BITMAP_SIZE` of `gen_const_bitmap!(LineMarkTable, ALIGN, CAPACITY)`:
`round_up(CAPACITY, bytes_covered_per_word) / bytes_covered_per_word` words,
computed in `u64`, times `size_of::<isize>()`. -/
def BITMAP_SIZE (ALIGN CAPACITY : Nat) : Nat :=
  let bytes_covered_per_word := ALIGN * BITS_PER_INTPTR
  (roundUp CAPACITY.toUInt64 bytes_covered_per_word.toUInt64 /
    bytes_covered_per_word.toUInt64).toNat * 8

/-- `LineMarkTable::create(name, heap_begin, heap_capacity)`: `empty()` with
`heap_begin`, `heap_limit = heap_begin + heap_capacity` and `bitmap_size =
BITMAP_SIZE`; the bits are the zeroed `storage` that `init_bitmap` points
at. -/
def create (ALIGN CAPACITY heap_begin heap_capacity : Nat) : SpaceBitmap ALIGN where
  bitmap := fun _ => 0
  bitmapSize := BITMAP_SIZE ALIGN CAPACITY
  heapBegin := heap_begin
  heapLimit := heap_begin + heap_capacity

/-- `BITMAP_SIZE` is one `usize` for every `64 * ALIGN` bytes of `CAPACITY`,
rounded up. -/
theorem BITMAP_SIZE_eq (hA : (64 * ALIGN).isPowerOfTwo) (hA62 : 64 * ALIGN ≤ 2 ^ 62) {c : Nat}
    (hc : c + 64 * ALIGN - 1 < 2 ^ 64) :
    BITMAP_SIZE ALIGN c = 8 * ((c + 64 * ALIGN - 1) / (64 * ALIGN)) := by
  obtain ⟨k, hk⟩ := hA
  have hpos : 0 < 64 * ALIGN := hk ▸ Nat.two_pow_pos k
  have hw : (ALIGN * BITS_PER_INTPTR).toUInt64.toNat = 64 * ALIGN := by
    rw [BITS_PER_INTPTR, Nat.mul_comm]; exact toNat_toUInt64 (by omega)
  have hcn : c.toUInt64.toNat = c := toNat_toUInt64 (by omega)
  simp only [BITMAP_SIZE]
  rw [UInt64.toNat_div, toNat_roundUp (hw.trans hk) (by rwa [hw, hcn]), hw, hcn,
    Nat.mul_div_cancel _ hpos, Nat.mul_comm]

/-- `LineMarkTable::create` covers the table's own `CAPACITY`, rounded up to
whole words, whatever `heap_capacity` it is given: `has_address` accepts
exactly `[heap_begin, heap_begin + L)` for that rounded `L`, while `heap_limit`
is `heap_begin + heap_capacity`.  A heap larger than `L` has addresses below
`heap_limit` that the table does not cover. -/
theorem create_covers_CAPACITY_not_heap_capacity (hA : ALIGN.isPowerOfTwo)
    (hA62 : 64 * ALIGN ≤ 2 ^ 62)
    (CAPACITY heap_begin heap_capacity : Nat) (hc : CAPACITY + 64 * ALIGN - 1 < 2 ^ 64)
    (hL : heap_begin + 64 * ALIGN * ((CAPACITY + 64 * ALIGN - 1) / (64 * ALIGN)) ≤ 2 ^ 64) :
    (create ALIGN CAPACITY heap_begin heap_capacity).heapLimit = heap_begin + heap_capacity ∧
      CAPACITY ≤ 64 * ALIGN * ((CAPACITY + 64 * ALIGN - 1) / (64 * ALIGN)) ∧
      ∀ A < 2 ^ 64, (create ALIGN CAPACITY heap_begin heap_capacity).hasAddress A = true ↔
        heap_begin ≤ A ∧
          A < heap_begin + 64 * ALIGN * ((CAPACITY + 64 * ALIGN - 1) / (64 * ALIGN)) := by
  obtain ⟨j, hj⟩ := hA
  have hpos : 0 < ALIGN := hj ▸ Nat.two_pow_pos j
  have hsize := @BITMAP_SIZE_eq ALIGN ⟨j + 6, by rw [hj, Nat.pow_add, Nat.mul_comm]⟩
    hA62 CAPACITY hc
  generalize hq : (CAPACITY + 64 * ALIGN - 1) / (64 * ALIGN) = q at hsize hL ⊢
  have hLq : CAPACITY + 64 * ALIGN - 1 < q * (64 * ALIGN) + 64 * ALIGN :=
    hq ▸ Nat.lt_div_mul_add (by omega)
  have hheap : (create ALIGN CAPACITY heap_begin heap_capacity).heapSize = 64 * ALIGN * q := by
    simp only [heapSize, indexToOffset, create, hsize, BITS_PER_INTPTR]
    rw [Nat.mul_div_cancel_left _ (by decide), Nat.mul_comm q, Nat.mul_right_comm,
      Nat.mul_comm ALIGN 64]
  refine ⟨rfl, by rw [Nat.mul_comm]; omega, fun A hA => ?_⟩
  rw [hasAddress_iff _ hpos hA (by rw [hheap]; exact hL), hheap]
  rfl

/-- A table of `ALIGN = 16` and `CAPACITY = 4096` given a heap of `8192`
bytes at `0x10000`: the address `0x11000` lies below `heap_limit` and is not
covered. -/
theorem create_covers_CAPACITY_not_heap_capacity_page :
    (16 : Nat).isPowerOfTwo ∧ 64 * 16 ≤ 2 ^ 62 ∧ 4096 + 64 * 16 - 1 < 2 ^ 64 ∧
      0x10000 + 64 * 16 * ((4096 + 64 * 16 - 1) / (64 * 16)) ≤ 2 ^ 64 ∧
      (create 16 4096 0x10000 8192).hasAddress 0x11000 = false ∧
      0x11000 < (create 16 4096 0x10000 8192).heapLimit ∧
      ((create 16 4096 0x10000 8192).heapLimit = 0x10000 + 8192 ∧
        4096 ≤ 64 * 16 * ((4096 + 64 * 16 - 1) / (64 * 16)) ∧
        ∀ A < 2 ^ 64, (create 16 4096 0x10000 8192).hasAddress A = true ↔
          0x10000 ≤ A ∧ A < 0x10000 + 64 * 16 * ((4096 + 64 * 16 - 1) / (64 * 16))) :=
  ⟨⟨4, rfl⟩, by decide, by decide, by decide, by decide, by decide,
    create_covers_CAPACITY_not_heap_capacity ⟨4, rfl⟩ (by decide) 4096 0x10000 8192 (by decide)
      (by decide)⟩

end LineMarkTable

end Comet
