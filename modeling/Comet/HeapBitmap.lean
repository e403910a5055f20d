import Comet.Rounding

/-!
# `HeapBitmap`: routing to the space bitmaps

A `HeapBitmap` holds the `SpaceBitmap<MIN_ALLOCATION>`s registered with
`add_continuous_space`.  `test`, `set`, `clear` and `atomic_test_and_set`
run the operation of the first registered bitmap whose `has_address`
accepts the address, and return `false` when none does.

`has_address` accepts the addresses of the whole words the bitmap owns,
`[heap_begin, heap_begin + heap_size())`, and `create` rounds the capacity up
to whole words.  So the space a bitmap answers for is its covered range, which
can reach past the space it was created for.

The model gives every registered bitmap words of its own.  A bitmap from
`create` has them, in an `Mmap` of its own; `SpaceBitmap::new` takes
`bitmap_begin` from its caller, so two bitmaps made with it may share words,
and a store through one would change the other.  The results below are about
bitmaps from `create` (`FromCreate`).

* The model: `HeapBitmap`, `addContinuousSpace`, `firstWithAddress` (the loop
  of `get_continuous_space_bitmap`), `test`, and `modifyWith`, the shape of
  `set`, `clear` and `atomic_test_and_set`.
* `FromCreate.covers_space`: the covered range of a bitmap from `create`
  holds its space and ends less than a word past it.
* `firstWithAddress_of_covers` and `firstWithAddress_of_not_covers`: with
  pairwise disjoint covered ranges, the loop finds the bitmap whose covered
  range holds the address, or none.
* `heapBitmap_routes_by_covered_range`: what the four operations do, from
  `modifyWith_of_covers`.
* `cexSpaces` registers two disjoint spaces where the first one's covered
  range reaches into the second; `set` of an address of the second space
  marks the first bitmap.
-/

namespace Comet

open SpaceBitmap

/-- The covered range of a bitmap, `[heap_begin, heap_begin + heap_size())`,
holds `A`. -/
def Covers (bm : SpaceBitmap ALIGN) (A : Nat) : Prop :=
  bm.heapBegin ≤ A ∧ A < bm.heapBegin + bm.heapSize

instance (bm : SpaceBitmap ALIGN) (A : Nat) : Decidable (Covers bm A) :=
  inferInstanceAs (Decidable (_ ∧ _))

/-- `HeapBitmap`: `continuous_space_bitmaps`, in the order of registration. -/
structure HeapBitmap where
  continuousSpaceBitmaps : List (SpaceBitmap MIN_ALLOCATION)

namespace HeapBitmap

/-- `HeapBitmap::new()`. -/
def new : HeapBitmap := ⟨[]⟩

/-- `add_continuous_space(space)`. -/
def addContinuousSpace (self : HeapBitmap) (space : SpaceBitmap MIN_ALLOCATION) : HeapBitmap :=
  ⟨self.continuousSpaceBitmaps ++ [space]⟩

/-- The loop of `get_continuous_space_bitmap(obj)`: the first bitmap whose
`has_address` accepts `obj`, with its index. -/
def firstWithAddress (obj : Nat) :
    List (SpaceBitmap MIN_ALLOCATION) → Option (Nat × SpaceBitmap MIN_ALLOCATION)
  | [] => none
  | bitmap :: rest =>
    if bitmap.hasAddress obj then some (0, bitmap)
    else (firstWithAddress obj rest).map fun p => (p.1 + 1, p.2)

/-- `get_continuous_space_bitmap(obj)`. -/
def getContinuousSpaceBitmap (self : HeapBitmap) (obj : Nat) :
    Option (Nat × SpaceBitmap MIN_ALLOCATION) :=
  firstWithAddress obj self.continuousSpaceBitmaps

/-- `test(obj)`. -/
def test (self : HeapBitmap) (obj : Nat) : Bool :=
  match self.getContinuousSpaceBitmap obj with
  | some (_, bitmap) => bitmap.test obj
  | none => false

/-- `set`, `clear` and `atomic_test_and_set`: run `op` on the bitmap that
`get_continuous_space_bitmap` returns and return its result, or return
`false`. -/
def modifyWith (self : HeapBitmap) (obj : Nat)
    (op : SpaceBitmap MIN_ALLOCATION → SpaceBitmap MIN_ALLOCATION × Bool) : HeapBitmap × Bool :=
  match self.getContinuousSpaceBitmap obj with
  | some (j, bitmap) => (⟨self.continuousSpaceBitmaps.set j (op bitmap).1⟩, (op bitmap).2)
  | none => (self, false)

/-- `set(obj)`. -/
def set (self : HeapBitmap) (obj : Nat) : HeapBitmap × Bool := self.modifyWith obj (·.set obj)

/-- `clear(obj)`. -/
def clear (self : HeapBitmap) (obj : Nat) : HeapBitmap × Bool := self.modifyWith obj (·.clear obj)

/-- `atomic_test_and_set(obj)`, one thread at a time. -/
def atomicTestAndSet (self : HeapBitmap) (obj : Nat) : HeapBitmap × Bool :=
  self.modifyWith obj (·.atomicTestAndSet obj)

/-! ## The bitmap the loop finds -/

section Routing

variable {L : List (SpaceBitmap MIN_ALLOCATION)} {A : Nat}

/-- A bitmap with what `create(name, heap_begin, capacity)` gives it:
`compute_bitmap_size(capacity)` bytes of its own for the space
`[heap_begin, heap_begin + capacity)`. -/
def FromCreate (bm : SpaceBitmap MIN_ALLOCATION) (capacity : Nat) : Prop :=
  bm.bitmapSize = computeBitmapSize MIN_ALLOCATION capacity.toUInt64 ∧
    bm.heapLimit = bm.heapBegin + capacity

instance (bm : SpaceBitmap MIN_ALLOCATION) (capacity : Nat) : Decidable (FromCreate bm capacity) :=
  inferInstanceAs (Decidable (_ ∧ _))

theorem create_fromCreate (heap_begin capacity : Nat) :
    FromCreate (create heap_begin capacity) capacity := ⟨rfl, rfl⟩

/-- The covered range of a bitmap from `create` holds the space it was created
for, and ends less than a word, `64 * MIN_ALLOCATION` bytes, past it. -/
theorem FromCreate.covers_space {bm : SpaceBitmap MIN_ALLOCATION} {capacity : Nat}
    (h : FromCreate bm capacity) (hc : capacity + 64 * MIN_ALLOCATION - 1 < 2 ^ 64) :
    bm.heapLimit ≤ bm.heapBegin + bm.heapSize ∧
      bm.heapBegin + bm.heapSize < bm.heapLimit + 64 * MIN_ALLOCATION := by
  have hsize := @computeBitmapSize_eq MIN_ALLOCATION ⟨10, rfl⟩ (by decide) _ hc
  rw [heapSize, indexToOffset, h.1, h.2, hsize]
  simp only [MIN_ALLOCATION, BITS_PER_INTPTR] at hc ⊢
  omega

/-- Covered ranges that do not overlap. -/
def Disjoint (a b : SpaceBitmap MIN_ALLOCATION) : Prop :=
  a.heapBegin + a.heapSize ≤ b.heapBegin ∨ b.heapBegin + b.heapSize ≤ a.heapBegin

instance : DecidableRel Disjoint := fun _ _ => inferInstanceAs (Decidable (_ ∨ _))

theorem hasAddress_iff_covers {bm : SpaceBitmap MIN_ALLOCATION} (hA : A < 2 ^ 64)
    (hfit : bm.heapBegin + bm.heapSize ≤ 2 ^ 64) : bm.hasAddress A = true ↔ Covers bm A :=
  hasAddress_iff bm (by decide) hA hfit

/-- With pairwise disjoint covered ranges, the loop finds the bitmap whose
covered range holds the address. -/
theorem firstWithAddress_of_covers (hdisj : L.Pairwise Disjoint)
    (hfit : ∀ bm ∈ L, bm.heapBegin + bm.heapSize ≤ 2 ^ 64) (hA : A < 2 ^ 64) {j : Nat}
    (hj : j < L.length) (hcov : Covers L[j] A) : firstWithAddress A L = some (j, L[j]) := by
  induction L generalizing j with
  | nil => cases hj
  | cons bm rest ih =>
    rw [List.pairwise_cons] at hdisj
    cases j with
    | zero =>
      rw [firstWithAddress, if_pos ((hasAddress_iff_covers hA (hfit bm (by simp))).2 hcov)]
      rfl
    | succ j =>
      have hj' : j < rest.length := by simpa using hj
      have hcov' : Covers rest[j] A := hcov
      have hnot : bm.hasAddress A = false := by
        rw [← Bool.not_eq_true, hasAddress_iff_covers hA (hfit bm (by simp))]
        have := hdisj.1 rest[j] (List.getElem_mem hj')
        unfold Covers at *
        unfold Disjoint at this
        omega
      rw [firstWithAddress, if_neg (by simp [hnot]),
        ih hdisj.2 (fun b hb => hfit b (by simp [hb])) hj' hcov']
      rfl

/-- When no covered range holds the address, the loop finds no bitmap. -/
theorem firstWithAddress_of_not_covers (hfit : ∀ bm ∈ L, bm.heapBegin + bm.heapSize ≤ 2 ^ 64)
    (hA : A < 2 ^ 64) (hnone : ∀ bm ∈ L, ¬Covers bm A) : firstWithAddress A L = none := by
  induction L with
  | nil => rfl
  | cons bm rest ih =>
    have hnot : bm.hasAddress A = false := by
      rw [← Bool.not_eq_true, hasAddress_iff_covers hA (hfit bm (by simp))]
      exact hnone bm (by simp)
    rw [firstWithAddress, if_neg (by simp [hnot]),
      ih (fun b hb => hfit b (by simp [hb])) (fun b hb => hnone b (by simp [hb]))]
    rfl

end Routing

/-- An operation routed to the bitmap whose covered range holds the address
runs on that bitmap alone. -/
theorem modifyWith_of_covers (self : HeapBitmap)
    (hdisj : self.continuousSpaceBitmaps.Pairwise Disjoint)
    (hfit : ∀ bm ∈ self.continuousSpaceBitmaps, bm.heapBegin + bm.heapSize ≤ 2 ^ 64)
    {A : Nat} (hA : A < 2 ^ 64) {j : Nat} (hj : j < self.continuousSpaceBitmaps.length)
    (hcov : Covers self.continuousSpaceBitmaps[j] A)
    (op : SpaceBitmap MIN_ALLOCATION → SpaceBitmap MIN_ALLOCATION × Bool) :
    self.modifyWith A op =
      (⟨self.continuousSpaceBitmaps.set j (op self.continuousSpaceBitmaps[j]).1⟩,
        (op self.continuousSpaceBitmaps[j]).2) := by
  rw [modifyWith, getContinuousSpaceBitmap, firstWithAddress_of_covers hdisj hfit hA hj hcov]

/-- For bitmaps from `create`, with pairwise disjoint covered ranges that end
at or below `2 ^ 64`, and an address below `2 ^ 64`: each covered range holds
its bitmap's space and ends less than a word past it; when the covered range
of bitmap `j` holds the address, `test`, `set`, `clear` and
`atomic_test_and_set` return what bitmap `j`'s operation returns, apply it to
bitmap `j` and leave every other bitmap as it was; when no covered range holds
it, they return `false` and change nothing. -/
theorem heapBitmap_routes_by_covered_range (self : HeapBitmap)
    (hcreate : ∀ bm ∈ self.continuousSpaceBitmaps,
      ∃ capacity, capacity + 64 * MIN_ALLOCATION - 1 < 2 ^ 64 ∧ FromCreate bm capacity)
    (hdisj : self.continuousSpaceBitmaps.Pairwise Disjoint)
    (hfit : ∀ bm ∈ self.continuousSpaceBitmaps, bm.heapBegin + bm.heapSize ≤ 2 ^ 64)
    {A : Nat} (hA : A < 2 ^ 64) :
    (∀ bm ∈ self.continuousSpaceBitmaps, bm.heapLimit ≤ bm.heapBegin + bm.heapSize ∧
      bm.heapBegin + bm.heapSize < bm.heapLimit + 64 * MIN_ALLOCATION) ∧
    (∀ j (hj : j < self.continuousSpaceBitmaps.length),
      Covers self.continuousSpaceBitmaps[j] A →
        self.test A = self.continuousSpaceBitmaps[j].test A ∧
        self.set A = (⟨self.continuousSpaceBitmaps.set j (self.continuousSpaceBitmaps[j].set A).1⟩,
          (self.continuousSpaceBitmaps[j].set A).2) ∧
        self.clear A =
          (⟨self.continuousSpaceBitmaps.set j (self.continuousSpaceBitmaps[j].clear A).1⟩,
            (self.continuousSpaceBitmaps[j].clear A).2) ∧
        self.atomicTestAndSet A =
          (⟨self.continuousSpaceBitmaps.set j
              (self.continuousSpaceBitmaps[j].atomicTestAndSet A).1⟩,
            (self.continuousSpaceBitmaps[j].atomicTestAndSet A).2)) ∧
    ((∀ bm ∈ self.continuousSpaceBitmaps, ¬Covers bm A) →
      self.test A = false ∧ self.set A = (self, false) ∧ self.clear A = (self, false) ∧
        self.atomicTestAndSet A = (self, false)) := by
  refine ⟨fun bm hbm => ?_, fun j hj hcov => ⟨?_, modifyWith_of_covers self hdisj hfit hA hj hcov _,
    modifyWith_of_covers self hdisj hfit hA hj hcov _,
    modifyWith_of_covers self hdisj hfit hA hj hcov _⟩, fun hnone => ?_⟩
  · obtain ⟨capacity, hc, hbm⟩ := hcreate bm hbm
    exact hbm.covers_space hc
  · rw [test, getContinuousSpaceBitmap, firstWithAddress_of_covers hdisj hfit hA hj hcov]
  · have hfind := firstWithAddress_of_not_covers hfit hA hnone
    simp only [test, set, clear, atomicTestAndSet, modifyWith, getContinuousSpaceBitmap, hfind,
      and_self]

/-- Two disjoint spaces, `[0x10000, 0x10400)` and `[0x20000, 0x20400)`, each
created with a capacity of one whole word. -/
def twoSpaces : HeapBitmap :=
  (new.addContinuousSpace (create 0x10000 1024)).addContinuousSpace (create 0x20000 1024)

/-- The routing at `twoSpaces`, for an address of the second space. -/
theorem heapBitmap_routes_at_twoSpaces :
    (∀ bm ∈ twoSpaces.continuousSpaceBitmaps,
      ∃ capacity, capacity + 64 * MIN_ALLOCATION - 1 < 2 ^ 64 ∧ FromCreate bm capacity) ∧
    twoSpaces.continuousSpaceBitmaps.Pairwise Disjoint ∧
    (∀ bm ∈ twoSpaces.continuousSpaceBitmaps, bm.heapBegin + bm.heapSize ≤ 2 ^ 64) ∧
    0x20010 < 2 ^ 64 ∧
    (∀ bm ∈ twoSpaces.continuousSpaceBitmaps, bm.heapLimit ≤ bm.heapBegin + bm.heapSize ∧
      bm.heapBegin + bm.heapSize < bm.heapLimit + 64 * MIN_ALLOCATION) ∧
    (∀ j (hj : j < twoSpaces.continuousSpaceBitmaps.length),
      Covers twoSpaces.continuousSpaceBitmaps[j] 0x20010 →
        twoSpaces.test 0x20010 = twoSpaces.continuousSpaceBitmaps[j].test 0x20010 ∧
        twoSpaces.set 0x20010 =
          (⟨twoSpaces.continuousSpaceBitmaps.set j
              (twoSpaces.continuousSpaceBitmaps[j].set 0x20010).1⟩,
            (twoSpaces.continuousSpaceBitmaps[j].set 0x20010).2) ∧
        twoSpaces.clear 0x20010 =
          (⟨twoSpaces.continuousSpaceBitmaps.set j
              (twoSpaces.continuousSpaceBitmaps[j].clear 0x20010).1⟩,
            (twoSpaces.continuousSpaceBitmaps[j].clear 0x20010).2) ∧
        twoSpaces.atomicTestAndSet 0x20010 =
          (⟨twoSpaces.continuousSpaceBitmaps.set j
              (twoSpaces.continuousSpaceBitmaps[j].atomicTestAndSet 0x20010).1⟩,
            (twoSpaces.continuousSpaceBitmaps[j].atomicTestAndSet 0x20010).2)) ∧
    ((∀ bm ∈ twoSpaces.continuousSpaceBitmaps, ¬Covers bm 0x20010) →
      twoSpaces.test 0x20010 = false ∧ twoSpaces.set 0x20010 = (twoSpaces, false) ∧
        twoSpaces.clear 0x20010 = (twoSpaces, false) ∧
        twoSpaces.atomicTestAndSet 0x20010 = (twoSpaces, false)) :=
  have hcreate : ∀ bm ∈ twoSpaces.continuousSpaceBitmaps,
      ∃ capacity, capacity + 64 * MIN_ALLOCATION - 1 < 2 ^ 64 ∧ FromCreate bm capacity := by
    intro bm hbm
    rcases List.mem_pair.1 hbm with rfl | rfl <;>
      exact ⟨1024, by decide, create_fromCreate _ _⟩
  ⟨hcreate, by decide, by decide, by decide,
    heapBitmap_routes_by_covered_range twoSpaces hcreate (by decide) (by decide) (by decide)⟩

/-- Two spaces: `[0x10000, 0x103F0)`, created with capacity `1008`, whose
bitmap covers the whole word `[0x10000, 0x10400)`, and `[0x103F0, 0x10400)`
after it. -/
def cexSpaces : HeapBitmap :=
  (new.addContinuousSpace (create 0x10000 1008)).addContinuousSpace (create 0x103F0 16)

/-- `set(0x103F0)`, an address of the second space, sets the bit in the first
bitmap and leaves the second one without it. -/
theorem heapBitmap_set_misroutes :
    (cexSpaces.set 0x103F0).1.continuousSpaceBitmaps.map (·.test 0x103F0) = [true, false] ∧
      cexSpaces.continuousSpaceBitmaps.map (·.test 0x103F0) = [false, false] := by
  decide

end HeapBitmap

end Comet
