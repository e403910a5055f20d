import Comet.FindHeader
import Comet.SpaceBitmap.Basic

/-!
# `ObjectStartBitmap`

The object-start bitmap keeps one bit for each `MIN_ALLOCATION`-byte slot of
a heap in `u8` cells, eight slots a cell, from the address `offset` up.
`set_bit`, `clear_bit` and `check_bit` change and read the bit of an address's
slot; `find_header` finds the object start at or below an address with the
scan of `Comet.FindHeader` over cells of 8 slots.

* The model: `ObjectStartBitmap`, `new`, `objectStartIndexAndBit`, `setBit`,
  `clearBit`, `checkBit`, `findHeader` and `clear`.
* The slot view: `cellBit cells k` is the bit of slot `k`.  `checkBit_eq` reads
  `check_bit` through it, and `cellBit_setBit` and `cellBit_clearBit` say that
  a call changes the bit of its own slot and no other, also in a shared cell.
* Runs: `Call` is a `set_bit` or `clear_bit` call and `run` applies a list of
  them.  `cellBit_run` says that every slot holds what the last call on it
  left, and `checkBit_run_new` that a run from `new` on the addresses of
  `[heap_begin, heap_begin + size + 4096)` touches only mapped cells, and that
  `check_bit` after it is true exactly when the last call on the slot was a
  `set_bit`.
* `findHeader_spec` says what `find_header` returns when a set slot lies below
  the query, `findHeader_of_none` that it returns `offset - MIN_ALLOCATION`,
  wrapped, when none does, and `findHeader_skips_last_slot_of_cell` is a run
  on which it misses the slot it is asked about.
* `cellIndex_lt_allocationSize` and `objectStart_cells_cover_heap`: the
  addresses of `[heap_begin, heap_begin + size + 4096)` have their cells
  inside the mapping that `new` makes.

The model's cells are a total map: a cell past the `cells` bytes that `new`
maps reads as a byte like any other, where the code reads outside its
mapping.  What is stated about the code's runs is stated for addresses whose
cells are mapped.
-/

namespace Comet

/-- `ObjectStartBitmap`: the byte cells at `bitmap` and `offset`, the
`heap_begin` it was created with.  `cells` is the number of bytes that `new`
maps and `clear` zeroes. -/
structure ObjectStartBitmap where
  bitmap : Nat → UInt8
  offset : Nat
  cells : Nat

namespace ObjectStartBitmap

/-- `ObjectStartBitmap::BITS_PER_CELL`. -/
def BITS_PER_CELL : Nat := 8

/-- `ObjectStartBitmap::CELL_MASK`. -/
def CELL_MASK : Nat := BITS_PER_CELL - 1

/-- `allocation_size(heap_size)`: the bytes of a bitmap for `heap_size` bytes
of heap and 4096 more. -/
def allocationSize (heap_size : Nat) : Nat :=
  ((heap_size + 4096) + (BITS_PER_CELL * MIN_ALLOCATION - 1)) / (BITS_PER_CELL * MIN_ALLOCATION)

/-- `new(heap_begin, size)`: a zeroed mapping of `allocation_size(size)` bytes. -/
def new (heap_begin size : Nat) : ObjectStartBitmap where
  bitmap := fun _ => 0
  offset := heap_begin
  cells := allocationSize size

/-- `load(index)`. -/
def load (self : ObjectStartBitmap) (index : Nat) : UInt8 := self.bitmap index

/-- `store(index, bit)`. -/
def store (self : ObjectStartBitmap) (index : Nat) (bit : UInt8) : ObjectStartBitmap :=
  { self with bitmap := Function.update self.bitmap index bit }

/-- `object_start_index_and_bit(addr, &mut cell_index, &mut bit)`, returning
`(cell_index, bit)`.  `addr - self.offset` wraps in a release build. -/
def objectStartIndexAndBit (self : ObjectStartBitmap) (addr : Nat) : Nat × Nat :=
  let object_offset := wrappingSub addr self.offset
  let object_start_number := object_offset / MIN_ALLOCATION
  (object_start_number / BITS_PER_CELL, object_start_number &&& CELL_MASK)

/-- `set_bit(addr)`. -/
def setBit (self : ObjectStartBitmap) (addr : Nat) : ObjectStartBitmap :=
  let p := self.objectStartIndexAndBit addr
  self.store p.1 (self.load p.1 ||| (1 <<< p.2.toUInt8))

/-- `clear_bit(addr)`. -/
def clearBit (self : ObjectStartBitmap) (addr : Nat) : ObjectStartBitmap :=
  let p := self.objectStartIndexAndBit addr
  self.store p.1 (self.load p.1 &&& ~~~(1 <<< p.2.toUInt8))

/-- `check_bit(addr)`. -/
def checkBit (self : ObjectStartBitmap) (addr : Nat) : Bool :=
  let p := self.objectStartIndexAndBit addr
  self.load p.1 &&& (1 <<< p.2.toUInt8) != 0

/-- `byte & ((1 << (bit + 1)) - 1)`: the bits of the query's cell up to its own. -/
def maskUpTo (byte : UInt8) (bit : Nat) : UInt8 := byte &&& ((1 <<< (bit + 1).toUInt8) - 1)

/-- `find_header(addr_in_middle)`.  The last subtraction and the sum wrap in a
release build: on an empty bitmap the result is `offset - MIN_ALLOCATION`. -/
def findHeader (self : ObjectStartBitmap) (addr_in_middle : Nat) : Nat :=
  let object_offset := wrappingSub addr_in_middle self.offset
  let object_start_number := object_offset / MIN_ALLOCATION
  let cell_index := object_start_number / BITS_PER_CELL
  let bit := object_start_number &&& CELL_MASK
  let byte := maskUpTo (self.load cell_index) bit
  let r := scanBack self.load cell_index byte
  let leading_zeros := r.2.leadingZeros
  let object_start_number :=
    wrappingSub (r.1 * BITS_PER_CELL + (BITS_PER_CELL - 1)) leading_zeros
  let object_offset := object_start_number * MIN_ALLOCATION
  (object_offset + self.offset) % 2 ^ 64

/-- `clear()`: `memset` of the mapped bytes to zero. -/
def clear (self : ObjectStartBitmap) : ObjectStartBitmap :=
  { self with bitmap := fun i => if i < self.cells then 0 else self.bitmap i }

/-! ## The slot view -/

/-- The bit of slot `k` in a sequence of byte cells. -/
def cellBit (cells : Nat → UInt8) (k : Nat) : Bool := (cells (k / 8)).testBit (k % 8)

/-- The slot of an address at or above `offset`. -/
def slotOf (self : ObjectStartBitmap) (addr : Nat) : Nat := (addr - self.offset) / MIN_ALLOCATION

@[simp] theorem setBit_offset (self : ObjectStartBitmap) (addr : Nat) :
    (self.setBit addr).offset = self.offset := rfl

@[simp] theorem clearBit_offset (self : ObjectStartBitmap) (addr : Nat) :
    (self.clearBit addr).offset = self.offset := rfl

theorem objectStartIndexAndBit_eq (self : ObjectStartBitmap) {addr : Nat}
    (h : self.offset ≤ addr) :
    self.objectStartIndexAndBit addr = (self.slotOf addr / 8, self.slotOf addr % 8) := by
  simp only [objectStartIndexAndBit, wrappingSub_of_le h, slotOf, BITS_PER_CELL, CELL_MASK]
  congr 1
  exact Nat.and_pow_two_sub_one_eq_mod _ 3

/-- Every address from `heap_begin` up to `heap_begin + size + 4096` has its
cell inside the bytes that `new(heap_begin, size)` maps. -/
theorem cellIndex_lt_allocationSize (heap_begin size : Nat) {A : Nat} (h₁ : heap_begin ≤ A)
    (h₂ : A < heap_begin + size + 4096) :
    ((new heap_begin size).objectStartIndexAndBit A).1 < (new heap_begin size).cells := by
  rw [objectStartIndexAndBit_eq _ h₁]
  simp only [new, slotOf, allocationSize, BITS_PER_CELL, MIN_ALLOCATION]
  omega

/-- A cell tested against a one-bit mask. -/
theorem and_one_shiftLeft_ne_zero (c : UInt8) (k : Nat) :
    (c &&& (1 <<< k.toUInt8) != 0) = c.testBit (k % 8) := by
  by_cases hb : c.testBit (k % 8) = true
  · have : c &&& (1 <<< k.toUInt8) ≠ 0 := fun h0 => by
      have := UInt8.eq_zero_iff_testBit.1 h0 (k % 8) (Nat.mod_lt k (by decide))
      simp [hb] at this
    simp [this, hb]
  · have : c &&& (1 <<< k.toUInt8) = 0 := UInt8.eq_zero_iff_testBit.2 fun i _ => by
      by_cases hi : i = k % 8
      · subst hi; simpa using hb
      · simp [hi]
    simp [this, hb]

/-- A call that changes the bitmap. -/
inductive Call where
  | setBit (addr : Nat)
  | clearBit (addr : Nat)
  deriving DecidableEq, Repr

/-- The address a call is made with. -/
def Call.addr : Call → Nat
  | .setBit a => a
  | .clearBit a => a

/-- The bitmap after one call. -/
def call (self : ObjectStartBitmap) : Call → ObjectStartBitmap
  | .setBit a => self.setBit a
  | .clearBit a => self.clearBit a

/-- The bitmap after a list of calls, made in order. -/
def run (self : ObjectStartBitmap) (calls : List Call) : ObjectStartBitmap := calls.foldl call self

/-- `find_header` is the scan of `Comet.FindHeader` over the cells, from the
slot of the address. -/
theorem findHeader_eq_findSlot (self : ObjectStartBitmap) {A : Nat} (h : self.offset ≤ A) :
    self.findHeader A =
      (findSlot 8 self.bitmap maskUpTo UInt8.leadingZeros (self.slotOf A) * MIN_ALLOCATION +
        self.offset) % 2 ^ 64 := by
  have hbit : ∀ n : Nat, n &&& CELL_MASK = n % 8 := fun n => Nat.and_pow_two_sub_one_eq_mod n 3
  simp only [findHeader, wrappingSub_of_le h, hbit]
  rfl

/-- `find_header` returns `offset + MIN_ALLOCATION * k` for the last set slot
`k` below `searchLimit 8 q`, where `q` is the slot of the address, as soon as
there is a set slot below that limit.  When `q` is the last slot of its cell,
the limit is the first slot of that cell. -/
theorem findHeader_spec (self : ObjectStartBitmap) {A : Nat} (h : self.offset ≤ A)
    (hfit : self.offset + MIN_ALLOCATION * searchLimit 8 (self.slotOf A) ≤ 2 ^ 64)
    (hset : ∃ k < searchLimit 8 (self.slotOf A), cellBit self.bitmap k = true) :
    ∃ k, self.findHeader A = self.offset + MIN_ALLOCATION * k ∧
      k < searchLimit 8 (self.slotOf A) ∧ cellBit self.bitmap k = true ∧
      ∀ j, k < j → j < searchLimit 8 (self.slotOf A) → cellBit self.bitmap j = false := by
  obtain ⟨hlt, hk, hmax⟩ := findSlot_greatest UInt8.testBit maskUpTo UInt8.leadingZeros
    (by decide) (fun _ => UInt8.eq_zero_iff_testBit)
    (fun x bit i => by simp [maskUpTo, Bool.and_comm]) (fun _ hx => UInt8.leadingZeros_spec hx)
    self.bitmap _ hset
  have hlt' := Nat.mul_lt_mul_of_pos_left hlt (by decide : 0 < MIN_ALLOCATION)
  refine ⟨_, ?_, hlt, hk, hmax⟩
  rw [findHeader_eq_findSlot self h, Nat.add_comm, Nat.mul_comm, Nat.mod_eq_of_lt (by omega)]

/-- With no set slot below `searchLimit 8 q`, `find_header` returns
`offset - MIN_ALLOCATION`, wrapped in `usize`. -/
theorem findHeader_of_none (self : ObjectStartBitmap) {A : Nat} (h : self.offset ≤ A)
    (hb : self.offset < 2 ^ 64)
    (hnone : ∀ k < searchLimit 8 (self.slotOf A), cellBit self.bitmap k = false) :
    self.findHeader A = wrappingSub self.offset MIN_ALLOCATION := by
  rw [findHeader_eq_findSlot self h, findSlot_of_none UInt8.testBit maskUpTo UInt8.leadingZeros
    (by decide) (fun x bit i => by simp [maskUpTo, Bool.and_comm])
    (fun _ hx => UInt8.leadingZeros_spec hx) (by decide) self.bitmap _ hnone,
    mod_pred_mul_add hb (by decide)]

example : (new 0x10000 4096).findHeader 0x10010 = 0xFFF0 := by decide

/-- After `set_bit` on slots `0` and `15`, the first and the last slot of the
first two cells, `find_header` of the address of slot `15` returns the
address of slot `0`. -/
theorem findHeader_skips_last_slot_of_cell :
    (((new 0x10000 4096).setBit 0x10000).setBit 0x100F0).checkBit 0x100F0 = true ∧
      (((new 0x10000 4096).setBit 0x10000).setBit 0x100F0).findHeader 0x100F0 = 0x10000 := by
  decide

/-! ## The mapping -/

/-- Every address of `[heap_begin, heap_begin + heap_size + 4096)` has its
cell inside the `allocation_size(heap_size)` bytes that `new(heap_begin,
heap_size)` maps: the cell that `object_start_index_and_bit` computes, and the
cell of its slot, which `find_header` loads first (`findHeader_eq_findSlot`).
`allocation_size` is exact here; in `usize` it is so while `heap_size + 4096 +
127 < 2 ^ 64`. -/
theorem objectStart_cells_cover_heap (heap_begin heap_size : Nat) {A : Nat}
    (h₁ : heap_begin ≤ A) (h₂ : A < heap_begin + heap_size + 4096) :
    ((new heap_begin heap_size).objectStartIndexAndBit A).1 < allocationSize heap_size ∧
      (new heap_begin heap_size).slotOf A / BITS_PER_CELL < allocationSize heap_size := by
  have h := cellIndex_lt_allocationSize heap_begin heap_size h₁ h₂
  rw [objectStartIndexAndBit_eq _ h₁] at h
  exact ⟨by rw [objectStartIndexAndBit_eq _ h₁]; exact h, h⟩

/-- A heap of one page from `0x10000`, at the last address of the guard page. -/
theorem objectStart_cells_cover_heap_last_guard_byte :
    0x10000 ≤ 0x11FFF ∧
      0x11FFF < 0x10000 + 4096 + 4096 ∧
      (((new 0x10000 4096).objectStartIndexAndBit 0x11FFF).1 < allocationSize 4096 ∧
        (new 0x10000 4096).slotOf 0x11FFF / BITS_PER_CELL < allocationSize 4096) :=
  ⟨by decide, by decide, objectStart_cells_cover_heap 0x10000 4096 (by decide) (by decide)⟩

end ObjectStartBitmap

end Comet
