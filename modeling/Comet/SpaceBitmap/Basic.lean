import Comet.Word
import Mathlib.Logic.Function.Basic
import Mathlib.Tactic.Ring

/-!
# `SpaceBitmap<ALIGN>`: the data and the point operations

`SpaceBitmap<ALIGN>` of `bitmap.rs` is a side table with one bit for each
`ALIGN`-byte slot of a heap range.  The word at index `i` covers the slots of
the bytes `heap_begin + 64 * ALIGN * i` up to `heap_begin + 64 * ALIGN * (i + 1)`.

Addresses, offsets and sizes are `Nat`.  In every range the theorems
consider, the `usize` arithmetic of the code does not wrap, except where the
code says `wrapping_sub`; `wrappingSub` models that one.

The module has these parts.

* The data: `SpaceBitmap`, the index helpers `indexToOffset`,
  `offsetToIndex`, `offsetBitIndex` and `offsetToMask`, `hasAddress` and the
  sizes `computeBitmapSize`, `computeHeapSize` and `heapSize`.
* The point operations `test`, `modify` (with `set`, `setSync`, `clear`) and
  `atomicTestAndSet` as one thread runs them.
* The slot view: `slotBit words k` is the bit of slot `k`, and `test_eq_slotBit`
  reads `test` through it.  Every range proof is stated over slots.
* `test_modify` and `set_clear_slot`: `set`, `set_sync` and `clear` return the
  old bit, change the bit of their own slot and no other, and a `set` that
  finds the bit set stores nothing.
* `hasAddress_iff`: the addresses that `has_address` accepts.
  `setHeapSize_spec`: `set_heap_size(bytes)` passes its `assert_eq!` exactly
  when `64 * ALIGN` divides `bytes`, and then `has_address` accepts exactly
  `[heap_begin, heap_begin + bytes)`; `heap_limit` is left as it was.
* `markedAddrs` is the ascending list of the set slot addresses of a slot
  range; `setBits_map_eq_markedAddrs` reads the set bits of a masked word as
  such a list, which is how the walks of the other modules are related to it.
-/

namespace Comet

/-- `BITS_PER_INTPTR = size_of::<usize>() * 8`. -/
def BITS_PER_INTPTR : Nat := 64

/-- `api::MIN_ALLOCATION`, the granule of object sizes. -/
def MIN_ALLOCATION : Nat := 16

/-- `round_down`: `x & -n` on the two's-complement view of `x` and `n`. -/
def roundDown (x n : UInt64) : UInt64 := x &&& (0 - n)

/-- `round_up`: `round_down(x.wrapping_add(n).wrapping_sub(1), n)`. -/
def roundUp (x n : UInt64) : UInt64 := roundDown (x + n - 1) n

/-- `SpaceBitmap<ALIGN>`.  `bitmap i` is the `i`-th `usize` word at
`bitmap_begin`.  The bitmap owns `bitmapSize` bytes; the model keeps the words
past them as well, because the code reads through a raw pointer and some
theorems are about which words it reads.  The `mem_map` and `name` fields take
no part in any modelled function. -/
structure SpaceBitmap (ALIGN : Nat) where
  bitmap : Nat → UInt64
  bitmapSize : Nat
  heapBegin : Nat
  heapLimit : Nat

namespace SpaceBitmap

variable {ALIGN : Nat}

/-! ## Index helpers -/

/-- `index_to_offset`: the byte offset of the first slot of word `index`. -/
def indexToOffset (ALIGN index : Nat) : Nat := index * ALIGN * BITS_PER_INTPTR

/-- `offset_to_index`: the word that covers a byte offset. -/
def offsetToIndex (ALIGN offset : Nat) : Nat := offset / ALIGN / BITS_PER_INTPTR

/-- `offset_bit_index`: the bit of that word. -/
def offsetBitIndex (ALIGN offset : Nat) : Nat := (offset / ALIGN) % BITS_PER_INTPTR

/-- `offset_to_mask`: `1 << offset_bit_index(offset)`. -/
def offsetToMask (ALIGN offset : Nat) : UInt64 := 1 <<< (offsetBitIndex ALIGN offset).toUInt64

/-- `has_address`: the word of the offset, taken with `wrapping_sub`, lies
inside the bitmap. -/
def hasAddress (bm : SpaceBitmap ALIGN) (obj : Nat) : Bool :=
  offsetToIndex ALIGN (wrappingSub obj bm.heapBegin) < bm.bitmapSize / 8

/-- `heap_size`: the bytes that the whole words of the bitmap cover. -/
def heapSize (bm : SpaceBitmap ALIGN) : Nat := indexToOffset ALIGN (bm.bitmapSize / 8)

/-- `set_heap_size(bytes)`: `bitmap_size = offset_to_index(bytes) *
size_of::<usize>()`, then `assert_eq!(self.heap_size(), bytes)`, a failed
assertion being `none`.  It does not write `heap_limit`. -/
def setHeapSize (bm : SpaceBitmap ALIGN) (bytes : Nat) : Option (SpaceBitmap ALIGN) :=
  let resized : SpaceBitmap ALIGN := { bm with bitmapSize := offsetToIndex ALIGN bytes * 8 }
  if resized.heapSize = bytes then some resized else none

/-- `compute_bitmap_size`: the bytes of whole words that cover `capacity`
bytes of heap, computed in `u64`. -/
def computeBitmapSize (ALIGN : Nat) (capacity : UInt64) : Nat :=
  let bytes_covered_per_word := ALIGN * BITS_PER_INTPTR
  ((roundUp capacity bytes_covered_per_word.toUInt64 / bytes_covered_per_word.toUInt64) *
    8).toNat

/-- `compute_heap_size`: the bytes of heap that `bitmap_bytes` bytes of
bitmap cover, computed in `u64`. -/
def computeHeapSize (ALIGN : Nat) (bitmap_bytes : UInt64) : Nat :=
  (bitmap_bytes * 8 * ALIGN.toUInt64).toNat

/-- `create`: a zeroed bitmap of `compute_bitmap_size(heap_capacity)` bytes. -/
def create (heap_begin heap_capacity : Nat) : SpaceBitmap ALIGN where
  bitmap := fun _ => 0
  bitmapSize := computeBitmapSize ALIGN heap_capacity.toUInt64
  heapBegin := heap_begin
  heapLimit := heap_begin + heap_capacity

/-! ## Point operations -/

/-- The bitmap after a store of `word` at index `i`. -/
def store (bm : SpaceBitmap ALIGN) (i : Nat) (word : UInt64) : SpaceBitmap ALIGN :=
  { bm with bitmap := Function.update bm.bitmap i word }

/-- The bitmap after an optional store. -/
def write (bm : SpaceBitmap ALIGN) : Option (Nat × UInt64) → SpaceBitmap ALIGN
  | none => bm
  | some (i, word) => bm.store i word

/-- `test`: the bit of the slot of `obj`. -/
def test (bm : SpaceBitmap ALIGN) (obj : Nat) : Bool :=
  let offset := wrappingSub obj bm.heapBegin
  bm.bitmap (offsetToIndex ALIGN offset) &&& offsetToMask ALIGN offset != 0

/-- One run of `modify::<SET_BIT>`: the store it performs, if any, and the old
bit.  A set skips the store when the bit is already set, so that a read-only
bitmap is never written. -/
def modifyStep (SET_BIT : Bool) (bm : SpaceBitmap ALIGN) (obj : Nat) :
    Option (Nat × UInt64) × Bool :=
  let offset := wrappingSub obj bm.heapBegin
  let index := offsetToIndex ALIGN offset
  let mask := offsetToMask ALIGN offset
  let old_word := bm.bitmap index
  (if SET_BIT then (if old_word &&& mask = 0 then some (index, old_word ||| mask) else none)
    else some (index, old_word &&& ~~~mask),
   old_word &&& mask != 0)

/-- `modify::<SET_BIT>`: the bitmap after the store, and the old bit. -/
def modify (SET_BIT : Bool) (bm : SpaceBitmap ALIGN) (obj : Nat) : SpaceBitmap ALIGN × Bool :=
  ((bm.write (modifyStep SET_BIT bm obj).1), (modifyStep SET_BIT bm obj).2)

/-- `modify_sync::<SET_BIT>`: the same load, test and store as `modify`,
through a plain `usize` access instead of an atomic one. -/
def modifySync (SET_BIT : Bool) (bm : SpaceBitmap ALIGN) (obj : Nat) :
    SpaceBitmap ALIGN × Bool :=
  modify SET_BIT bm obj

/-- `set`. -/
def set (bm : SpaceBitmap ALIGN) (obj : Nat) : SpaceBitmap ALIGN × Bool := modify true bm obj

/-- `set_sync`. -/
def setSync (bm : SpaceBitmap ALIGN) (obj : Nat) : SpaceBitmap ALIGN × Bool :=
  modifySync true bm obj

/-- `clear`. -/
def clear (bm : SpaceBitmap ALIGN) (obj : Nat) : SpaceBitmap ALIGN × Bool := modify false bm obj

/-- `atomic_test_and_set` as one thread runs it: the first load either finds
the bit set, or its `compare_exchange_weak` stores the word with the bit set.
The runs of many threads are the subject of `Comet.SpaceBitmap.Marking`. -/
def atomicTestAndSet (bm : SpaceBitmap ALIGN) (obj : Nat) : SpaceBitmap ALIGN × Bool :=
  let offset := wrappingSub obj bm.heapBegin
  let index := offsetToIndex ALIGN offset
  let mask := offsetToMask ALIGN offset
  let old_word := bm.bitmap index
  if old_word &&& mask != 0 then (bm, true) else (bm.store index (old_word ||| mask), false)

/-! ## The slot view -/

/-- The bit of slot `k` in a sequence of bitmap words. -/
def slotBit (words : Nat → UInt64) (k : Nat) : Bool := (words (k / 64)).testBit (k % 64)

@[simp] theorem store_bitmap (bm : SpaceBitmap ALIGN) (i : Nat) (word : UInt64) :
    (bm.store i word).bitmap = Function.update bm.bitmap i word := rfl

@[simp] theorem store_heapBegin (bm : SpaceBitmap ALIGN) (i : Nat) (word : UInt64) :
    (bm.store i word).heapBegin = bm.heapBegin := rfl

@[simp] theorem store_bitmapSize (bm : SpaceBitmap ALIGN) (i : Nat) (word : UInt64) :
    (bm.store i word).bitmapSize = bm.bitmapSize := rfl

@[simp] theorem write_heapBegin (bm : SpaceBitmap ALIGN) (o : Option (Nat × UInt64)) :
    (bm.write o).heapBegin = bm.heapBegin := by
  cases o <;> rfl

/-- A word tested against a one-bit mask. -/
theorem and_one_shiftLeft_ne_zero (w : UInt64) (k : Nat) :
    (w &&& (1 <<< k.toUInt64) != 0) = w.testBit (k % 64) := by
  by_cases hb : w.testBit (k % 64) = true
  · have : w &&& (1 <<< k.toUInt64) ≠ 0 := fun h0 => by
      have := UInt64.eq_zero_iff_testBit.1 h0 (k % 64) (Nat.mod_lt k (by decide))
      simp [hb] at this
    simp [this, hb]
  · have : w &&& (1 <<< k.toUInt64) = 0 := UInt64.eq_zero_iff_testBit.2 fun i _ => by
      by_cases hi : i = k % 64
      · subst hi; simpa using hb
      · simp [hi]
    simp [this, hb]

/-- `test` on an address at or above `heap_begin` reads the bit of its slot. -/
theorem test_eq_slotBit (bm : SpaceBitmap ALIGN) {obj : Nat} (h : bm.heapBegin ≤ obj) :
    bm.test obj = slotBit bm.bitmap ((obj - bm.heapBegin) / ALIGN) := by
  simp only [test, offsetToMask, offsetToIndex, offsetBitIndex, wrappingSub_of_le h,
    and_one_shiftLeft_ne_zero, slotBit, BITS_PER_INTPTR, Nat.mod_mod, Nat.div_div_eq_div_mul]

/-- The test at the address of slot `k`. -/
theorem test_slotAddr (hA : 0 < ALIGN) (bm : SpaceBitmap ALIGN) (k : Nat) :
    bm.test (bm.heapBegin + k * ALIGN) = slotBit bm.bitmap k := by
  rw [test_eq_slotBit bm (Nat.le_add_right _ _), Nat.add_sub_cancel_left, Nat.mul_div_cancel k hA]

/-! ## What `set` and `clear` do -/

/-- A store into the word of slot `s` of a word that has the bits of the old
word except the bit of `s`, read slot by slot. -/
theorem slotBit_update_of_testBit (words : Nat → UInt64) {s : Nat} {w : UInt64} {b : Bool}
    (hw : ∀ i < 64, w.testBit i = if i = s % 64 then b else (words (s / 64)).testBit i) (k : Nat) :
    slotBit (Function.update words (s / 64) w) k = if k = s then b else slotBit words k := by
  unfold slotBit
  by_cases hk : k / 64 = s / 64
  · rw [hk, Function.update_same, hw _ (Nat.mod_lt k (by decide))]
    have : k % 64 = s % 64 ↔ k = s := ⟨fun h => by omega, fun h => h ▸ rfl⟩
    simp only [this, hk]
  · rw [Function.update_noteq hk, if_neg fun h => hk (by rw [h])]

/-- `modify::<SET_BIT>` gives the slot of `B` the bit `SET_BIT` and keeps every
other slot. -/
theorem test_modify (SET_BIT : Bool) (bm : SpaceBitmap ALIGN) {A B : Nat}
    (hA : bm.heapBegin ≤ A) (hB : bm.heapBegin ≤ B) :
    (bm.modify SET_BIT B).1.test A =
      if (A - bm.heapBegin) / ALIGN = (B - bm.heapBegin) / ALIGN then SET_BIT else bm.test A := by
  simp only [modify]
  rw [test_eq_slotBit _ (by rwa [write_heapBegin]), write_heapBegin, test_eq_slotBit _ hA]
  generalize (A - bm.heapBegin) / ALIGN = k
  simp only [modifyStep, offsetToIndex, offsetToMask, offsetBitIndex, wrappingSub_of_le hB,
    BITS_PER_INTPTR]
  generalize (B - bm.heapBegin) / ALIGN = s
  cases SET_BIT
  · exact slotBit_update_of_testBit _ (fun i hi => by by_cases h : i = s % 64 <;> simp [h, hi]) k
  · simp only [if_true]
    split
    · exact slotBit_update_of_testBit _ (fun i _ => by by_cases h : i = s % 64 <;> simp [h]) k
    · rename_i hset
      by_cases hk : k = s
      · subst hk
        have := and_one_shiftLeft_ne_zero (bm.bitmap (k / 64)) (k % 64)
        rw [Nat.mod_mod] at this
        simpa [write, slotBit, ← this] using hset
      · simp [write, hk]

/-- `set`, `set_sync` and `clear` of an address `B` at or above `heap_begin`
return the old bit of its slot; afterwards the slot of `B` is set (cleared)
and every other slot at or above `heap_begin` keeps its bit; and a `set` or
`set_sync` that finds the bit set stores nothing. -/
theorem set_clear_slot (bm : SpaceBitmap ALIGN) {B : Nat} (hB : bm.heapBegin ≤ B) :
    (bm.set B).2 = bm.test B ∧ (bm.setSync B).2 = bm.test B ∧ (bm.clear B).2 = bm.test B ∧
      (∀ A, bm.heapBegin ≤ A →
        (bm.set B).1.test A =
            (decide ((A - bm.heapBegin) / ALIGN = (B - bm.heapBegin) / ALIGN) || bm.test A) ∧
          (bm.setSync B).1.test A =
            (decide ((A - bm.heapBegin) / ALIGN = (B - bm.heapBegin) / ALIGN) || bm.test A) ∧
          (bm.clear B).1.test A =
            (decide ((A - bm.heapBegin) / ALIGN ≠ (B - bm.heapBegin) / ALIGN) && bm.test A)) ∧
      (bm.test B = true → (modifyStep true bm B).1 = none) := by
  refine ⟨rfl, rfl, rfl, fun A hA => ?_, fun h => ?_⟩
  · simp only [set, setSync, modifySync, clear, test_modify _ bm hA hB]
    split <;> simp [*]
  · simp only [test] at h
    simp only [modifyStep, if_true]
    exact if_neg (by simpa using h)

/-- `set` of the second slot of a fresh bitmap of a page at `0x10000`. -/
theorem set_clear_slot_page :
    (create 0x10000 4096 : SpaceBitmap 16).heapBegin ≤ 0x10010 ∧
      ((create 0x10000 4096 : SpaceBitmap 16).set 0x10010).2 =
          (create 0x10000 4096 : SpaceBitmap 16).test 0x10010 ∧
        ((create 0x10000 4096 : SpaceBitmap 16).setSync 0x10010).2 =
          (create 0x10000 4096 : SpaceBitmap 16).test 0x10010 ∧
        ((create 0x10000 4096 : SpaceBitmap 16).clear 0x10010).2 =
          (create 0x10000 4096 : SpaceBitmap 16).test 0x10010 ∧
        (∀ A, (create 0x10000 4096 : SpaceBitmap 16).heapBegin ≤ A →
          ((create 0x10000 4096 : SpaceBitmap 16).set 0x10010).1.test A =
              (decide ((A - 0x10000) / 16 = (0x10010 - 0x10000) / 16) ||
                (create 0x10000 4096 : SpaceBitmap 16).test A) ∧
            ((create 0x10000 4096 : SpaceBitmap 16).setSync 0x10010).1.test A =
              (decide ((A - 0x10000) / 16 = (0x10010 - 0x10000) / 16) ||
                (create 0x10000 4096 : SpaceBitmap 16).test A) ∧
            ((create 0x10000 4096 : SpaceBitmap 16).clear 0x10010).1.test A =
              (decide ((A - 0x10000) / 16 ≠ (0x10010 - 0x10000) / 16) &&
                (create 0x10000 4096 : SpaceBitmap 16).test A)) ∧
        ((create 0x10000 4096 : SpaceBitmap 16).test 0x10010 = true →
          (modifyStep true (create 0x10000 4096 : SpaceBitmap 16) 0x10010).1 = none) :=
  ⟨by decide, set_clear_slot _ (by decide)⟩

/-! ## The addresses `has_address` accepts -/

/-- `has_address` accepts exactly the addresses of the words the bitmap owns,
as long as that range ends at or below `2 ^ 64`: an address below
`heap_begin` wraps past it. -/
theorem hasAddress_iff (bm : SpaceBitmap ALIGN) (hA : 0 < ALIGN) {obj : Nat}
    (hobj : obj < 2 ^ 64) (hend : bm.heapBegin + bm.heapSize ≤ 2 ^ 64) :
    bm.hasAddress obj = true ↔ bm.heapBegin ≤ obj ∧ obj < bm.heapBegin + bm.heapSize := by
  have key : ∀ x, x / ALIGN / 64 < bm.bitmapSize / 8 ↔ x < bm.heapSize := fun x => by
    rw [Nat.div_div_eq_div_mul, Nat.div_lt_iff_lt_mul (Nat.mul_pos hA (by decide)), heapSize,
      indexToOffset, BITS_PER_INTPTR, Nat.mul_assoc]
  simp only [hasAddress, offsetToIndex, BITS_PER_INTPTR, decide_eq_true_eq, key, wrappingSub]
  split <;> omega

/-- `set_heap_size(bytes)` passes its `assert_eq!` exactly when `bytes` is a
whole number of words of heap, `64 * ALIGN` bytes each.  It then covers
exactly `[heap_begin, heap_begin + bytes)` and keeps the bits and
`heap_begin`, but it leaves `heap_limit` where it was. -/
theorem setHeapSize_spec (bm : SpaceBitmap ALIGN) (hA : 0 < ALIGN) (bytes : Nat) :
    ((bm.setHeapSize bytes).isSome = true ↔ 64 * ALIGN ∣ bytes) ∧
      ∀ bm', bm.setHeapSize bytes = some bm' →
        bm'.bitmap = bm.bitmap ∧ bm'.heapBegin = bm.heapBegin ∧ bm'.heapLimit = bm.heapLimit ∧
          bm'.heapSize = bytes ∧
          (bm.heapBegin + bytes ≤ 2 ^ 64 → ∀ A < 2 ^ 64,
            bm'.hasAddress A = true ↔ bm.heapBegin ≤ A ∧ A < bm.heapBegin + bytes) := by
  have hsize :
      ({ bm with bitmapSize := offsetToIndex ALIGN bytes * 8 } : SpaceBitmap ALIGN).heapSize =
      bytes / (64 * ALIGN) * (64 * ALIGN) := by
    simp only [heapSize, indexToOffset, offsetToIndex, BITS_PER_INTPTR,
      Nat.mul_div_cancel _ (by decide : 0 < 8), Nat.div_div_eq_div_mul]
    rw [Nat.mul_assoc, Nat.mul_comm ALIGN 64]
  have hiff : bytes / (64 * ALIGN) * (64 * ALIGN) = bytes ↔ 64 * ALIGN ∣ bytes :=
    ⟨fun h => Dvd.intro_left _ h, Nat.div_mul_cancel⟩
  unfold setHeapSize
  dsimp only
  split
  · rename_i h
    refine ⟨iff_of_true rfl (hiff.1 (hsize ▸ h)), fun bm' hbm' => ?_⟩
    cases hbm'
    exact ⟨rfl, rfl, rfl, h, fun hend A hA' => by rw [hasAddress_iff _ hA hA' (by rwa [h]), h]⟩
  · rename_i h
    exact ⟨iff_of_false Bool.false_ne_true (hiff.not.1 (hsize ▸ h)), fun _ h' => by cases h'⟩

/-- `set_heap_size(0x800)` on the bitmap of a page at `0x10000`. -/
theorem setHeapSize_spec_page :
    0 < 16 ∧
      (((create 0x10000 4096 : SpaceBitmap 16).setHeapSize 0x800).isSome = true ↔
        64 * 16 ∣ 0x800) ∧
      ∀ bm', (create 0x10000 4096 : SpaceBitmap 16).setHeapSize 0x800 = some bm' →
        bm'.bitmap = (create 0x10000 4096 : SpaceBitmap 16).bitmap ∧
          bm'.heapBegin = (create 0x10000 4096 : SpaceBitmap 16).heapBegin ∧
          bm'.heapLimit = (create 0x10000 4096 : SpaceBitmap 16).heapLimit ∧
          bm'.heapSize = 0x800 ∧
          ((create 0x10000 4096 : SpaceBitmap 16).heapBegin + 0x800 ≤ 2 ^ 64 → ∀ A < 2 ^ 64,
            bm'.hasAddress A = true ↔
              (create 0x10000 4096 : SpaceBitmap 16).heapBegin ≤ A ∧
                A < (create 0x10000 4096 : SpaceBitmap 16).heapBegin + 0x800) :=
  ⟨by decide, setHeapSize_spec _ (by decide) 0x800⟩

/-! ## Slot address lists -/

/-- The slot addresses of the slots `k₀, ..., k₁ - 1` whose bit is set in
`words`, in ascending order. -/
def markedAddrs (bm : SpaceBitmap ALIGN) (words : Nat → UInt64) (k₀ k₁ : Nat) : List Nat :=
  ((List.range' k₀ (k₁ - k₀)).filter (slotBit words)).map fun k => bm.heapBegin + k * ALIGN

theorem mem_markedAddrs {bm : SpaceBitmap ALIGN} {words : Nat → UInt64} {k₀ k₁ a : Nat} :
    a ∈ markedAddrs bm words k₀ k₁ ↔
      ∃ k, k₀ ≤ k ∧ k < k₁ ∧ slotBit words k = true ∧ a = bm.heapBegin + k * ALIGN := by
  simp only [markedAddrs, List.mem_map, List.mem_filter, List.mem_range'_1]
  constructor
  · rintro ⟨k, ⟨⟨h₀, h₁⟩, hk⟩, rfl⟩
    exact ⟨k, h₀, by omega, hk, rfl⟩
  · rintro ⟨k, h₀, h₁, hk, rfl⟩
    exact ⟨k, ⟨⟨h₀, by omega⟩, hk⟩, rfl⟩

theorem markedAddrs_sorted (bm : SpaceBitmap ALIGN) (hA : 0 < ALIGN) (words : Nat → UInt64)
    (k₀ k₁ : Nat) : (markedAddrs bm words k₀ k₁).Sorted (· < ·) :=
  ((List.pairwise_lt_range' _ _).filter _).map _ fun _ _ h => by
    have := Nat.mul_lt_mul_of_pos_right h hA
    omega

theorem markedAddrs_append (bm : SpaceBitmap ALIGN) (words : Nat → UInt64) {k₀ k₁ k₂ : Nat}
    (h₀₁ : k₀ ≤ k₁) (h₁₂ : k₁ ≤ k₂) :
    markedAddrs bm words k₀ k₂ = markedAddrs bm words k₀ k₁ ++ markedAddrs bm words k₁ k₂ := by
  have hsplit : List.range' k₀ (k₂ - k₀) =
      List.range' k₀ (k₁ - k₀) ++ List.range' (k₀ + (k₁ - k₀)) (k₂ - k₁) := by
    rw [List.range'_append_1]
    congr 1
    omega
  rw [markedAddrs, hsplit, List.filter_append, List.map_append,
    show k₀ + (k₁ - k₀) = k₁ by omega]
  rfl

@[simp] theorem markedAddrs_self (bm : SpaceBitmap ALIGN) (words : Nat → UInt64) (k : Nat) :
    markedAddrs bm words k k = [] := by
  simp [markedAddrs]

/-- The slot of an address of `markedAddrs` lies in its slot range. -/
theorem slot_of_mem_markedAddrs {bm : SpaceBitmap ALIGN} (hA : 0 < ALIGN)
    {words : Nat → UInt64} {k₀ k₁ a : Nat} (ha : a ∈ markedAddrs bm words k₀ k₁) :
    k₀ ≤ (a - bm.heapBegin) / ALIGN ∧ (a - bm.heapBegin) / ALIGN < k₁ := by
  obtain ⟨k, h₀, h₁, -, rfl⟩ := mem_markedAddrs.1 ha
  rw [Nat.add_sub_cancel_left, Nat.mul_div_cancel k hA]
  exact ⟨h₀, h₁⟩

/-- The slot addresses of the set bits of a word `w` of index `i` whose bits
are those of word `i` of `words` between `lo` and `hi`: the set slot addresses
of that part of the word, in ascending order. -/
theorem setBits_map_eq_markedAddrs (bm : SpaceBitmap ALIGN) (words : Nat → UInt64)
    (i lo hi : Nat) (w : UInt64) (hlo : lo ≤ hi) (hhi : hi ≤ 64)
    (hw : ∀ j < 64, w.testBit j = (decide (lo ≤ j) && decide (j < hi) && (words i).testBit j)) :
    w.setBits.map (fun j => indexToOffset ALIGN i + bm.heapBegin + j * ALIGN) =
      markedAddrs bm words (64 * i + lo) (64 * i + hi) := by
  have hslots : w.setBits.map (64 * i + ·) =
      (List.range' (64 * i + lo) (64 * i + hi - (64 * i + lo))).filter (slotBit words) := by
    refine eq_of_sorted_of_mem_iff ((UInt64.setBits_sorted w).map _ fun _ _ h => by omega)
      ((List.pairwise_lt_range' _ _).filter _) fun k => ?_
    simp only [List.mem_map, UInt64.mem_setBits, List.mem_filter, List.mem_range'_1, slotBit]
    constructor
    · rintro ⟨j, ⟨hj, hb⟩, rfl⟩
      rw [hw j hj] at hb
      simp only [Bool.and_eq_true, decide_eq_true_eq] at hb
      rw [show (64 * i + j) / 64 = i by omega, show (64 * i + j) % 64 = j by omega]
      exact ⟨⟨by omega, by omega⟩, hb.2⟩
    · rintro ⟨⟨h₀, h₁⟩, hb⟩
      refine ⟨k - 64 * i, ⟨by omega, ?_⟩, by omega⟩
      rw [show k / 64 = i by omega, show k % 64 = k - 64 * i by omega] at hb
      rw [hw _ (by omega)]
      simp [hb]
      omega
  rw [markedAddrs, ← hslots, List.map_map]
  congr 1
  funext j
  simp only [Function.comp, indexToOffset, BITS_PER_INTPTR]
  ring

end SpaceBitmap

end Comet
