import Comet.FindHeader
import Comet.SpaceBitmap.Basic

/-!
# `SpaceBitmap::find_header`

`find_header(address_maybe_pointing_to_the_middle_of_object)` returns the
address of the object start at or below an address.  The copy that
`gen_const_bitmap!` generates for `LineMarkTable` has the same text with
`Self::ALIGN` for `ALIGN`, so `findHeader` at that `ALIGN` is it as well.

* `findHeader` is the model, and `findHeader_eq_findSlot` reads it as the
  scan of `Comet.FindHeader`.
* `findHeader_spec`: for every `ALIGN`, it returns
  `heap_begin + MIN_ALLOCATION * k` for the last set slot `k` below
  `searchLimit 64 q`, where `q` is the slot of the address.  Two things keep
  this from being the greatest `H ≤ A` with `test(H)`: when `q` is the last
  slot of its word the mask is `0` and the word of `q` is skipped, and the
  slot is scaled by `MIN_ALLOCATION` where the bitmap's slots are `ALIGN`
  bytes apart.  `findHeader_of_none`: with no such slot the last line's
  `usize` arithmetic wraps, and the result is `heap_begin - MIN_ALLOCATION`.
* `cexFind` is a bitmap with slots `0` and `127` set, on which
  `find_header` of slot `127` returns slot `0`.
-/

namespace Comet.SpaceBitmap

open UInt64

variable {ALIGN : Nat}

/-- `x & ((1 << (bit + 1)) - 1)`: the bits of the query's word up to its own. -/
def maskUpTo (x : UInt64) (bit : Nat) : UInt64 := x &&& ((1 <<< (bit + 1).toUInt64) - 1)

/-- `find_header(address_maybe_pointing_to_the_middle_of_object)`.  The last
two lines compute in `usize`. -/
def findHeader (bm : SpaceBitmap ALIGN) (address_maybe_pointing_to_the_middle_of_object : Nat) :
    Nat :=
  let object_offset := wrappingSub address_maybe_pointing_to_the_middle_of_object bm.heapBegin
  let object_start_number := object_offset / ALIGN
  let cell_index := object_start_number / BITS_PER_INTPTR
  let bit := object_start_number &&& (BITS_PER_INTPTR - 1)
  let word := maskUpTo (bm.bitmap cell_index) bit
  let r := scanBack bm.bitmap cell_index word
  let leading_zeros := r.2.leadingZeros
  let object_start_number :=
    wrappingSub (r.1 * BITS_PER_INTPTR + (BITS_PER_INTPTR - 1)) leading_zeros
  let object_offset := object_start_number * MIN_ALLOCATION
  (object_offset + bm.heapBegin) % 2 ^ 64

/-- `find_header` is the scan of `Comet.FindHeader` over the words, from the
slot of the address. -/
theorem findHeader_eq_findSlot (bm : SpaceBitmap ALIGN) {A : Nat} (h : bm.heapBegin ≤ A) :
    findHeader bm A =
      (findSlot 64 bm.bitmap maskUpTo leadingZeros ((A - bm.heapBegin) / ALIGN) * MIN_ALLOCATION +
        bm.heapBegin) % 2 ^ 64 := by
  have hbit : ∀ n : Nat, n &&& (BITS_PER_INTPTR - 1) = n % 64 := fun n =>
    Nat.and_pow_two_sub_one_eq_mod n 6
  simp only [findHeader, wrappingSub_of_le h, hbit]
  rfl

/-- `find_header` returns `heap_begin + MIN_ALLOCATION * k` for the last set
slot `k` below `searchLimit 64 q`, where `q` is the slot of the address, as
soon as there is a set slot below that limit and the addresses up to the limit
fit in a `usize`. -/
theorem findHeader_spec (bm : SpaceBitmap ALIGN) {A : Nat} (h : bm.heapBegin ≤ A)
    (hfit : bm.heapBegin + MIN_ALLOCATION * searchLimit 64 ((A - bm.heapBegin) / ALIGN) ≤ 2 ^ 64)
    (hset : ∃ k < searchLimit 64 ((A - bm.heapBegin) / ALIGN), slotBit bm.bitmap k = true) :
    ∃ k, findHeader bm A = bm.heapBegin + MIN_ALLOCATION * k ∧
      k < searchLimit 64 ((A - bm.heapBegin) / ALIGN) ∧ slotBit bm.bitmap k = true ∧
      ∀ j, k < j → j < searchLimit 64 ((A - bm.heapBegin) / ALIGN) →
        slotBit bm.bitmap j = false := by
  obtain ⟨hlt, hk, hmax⟩ := findSlot_greatest UInt64.testBit maskUpTo leadingZeros (by decide)
    (fun _ => eq_zero_iff_testBit) (fun x bit i => by simp [maskUpTo, Bool.and_comm])
    (fun _ hx => leadingZeros_spec hx) bm.bitmap _ hset
  have hlt' := Nat.mul_lt_mul_of_pos_left hlt (by decide : 0 < MIN_ALLOCATION)
  refine ⟨_, ?_, hlt, hk, hmax⟩
  rw [findHeader_eq_findSlot bm h, Nat.add_comm, Nat.mul_comm, Nat.mod_eq_of_lt (by omega)]

/-- With no set slot below `searchLimit 64 q`, `find_header` returns
`heap_begin - MIN_ALLOCATION`, wrapped in `usize`. -/
theorem findHeader_of_none (bm : SpaceBitmap ALIGN) {A : Nat} (h : bm.heapBegin ≤ A)
    (hb : bm.heapBegin < 2 ^ 64)
    (hnone : ∀ k < searchLimit 64 ((A - bm.heapBegin) / ALIGN), slotBit bm.bitmap k = false) :
    findHeader bm A = wrappingSub bm.heapBegin MIN_ALLOCATION := by
  rw [findHeader_eq_findSlot bm h, findSlot_of_none UInt64.testBit maskUpTo leadingZeros
    (by decide) (fun x bit i => by simp [maskUpTo, Bool.and_comm])
    (fun _ hx => leadingZeros_spec hx) (by decide) bm.bitmap _ hnone,
    mod_pred_mul_add hb (by decide)]

example : findHeader (⟨fun _ => 0, 16, 0x10000, 0x10800⟩ : SpaceBitmap 16) 0x10010 = 0xFFF0 := by
  decide

/-- A bitmap with slots `0` and `127` set, the first and the last slot of its
first two words. -/
def cexFind : SpaceBitmap 16 where
  bitmap := fun i => if i = 0 then 1 else if i = 1 then 0x8000000000000000 else 0
  bitmapSize := 16
  heapBegin := 0x10000
  heapLimit := 0x10800

/-- `find_header` of the address of slot `127`, which is set, returns the
address of slot `0`. -/
theorem findHeader_skips_last_slot_of_word :
    cexFind.hasAddress 0x107F0 = true ∧ cexFind.test 0x107F0 = true ∧
      findHeader cexFind 0x107F0 = 0x10000 := by
  decide

end Comet.SpaceBitmap
