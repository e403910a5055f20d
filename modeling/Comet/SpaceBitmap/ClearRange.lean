import Comet.SpaceBitmap.Visit

/-!
# `clear_range`, and the range operations on empty and reversed ranges

`clear_range(begin, end)` clears the bits of a range of slots with two loops:
the first clears slot after slot from `begin` until it reaches `end` or the
first slot of a word, the second clears slot after slot down from `end` until
it reaches the first loop's stop or the first slot of a word.  The whole
words between the two stops are left as they are; the code marks the place
with a `TODO` about `madvise`.

* `clearLeft`, `clearRight` and `clearRange` are the model.  The loops take a
  fuel argument; `end_offset - begin_offset` is enough, since each pass moves
  one slot of `ALIGN ≥ 1` bytes.
* `clearLeft_spec` and `clearRight_spec` say where each loop stops
  (`leftStop`, `rightStop`) and which slots it clears, by induction on the
  fuel.
* `clearRange_clears_partial_words`: a slot of `[begin, end)` is cleared iff
  its word does not lie inside the range; every other slot keeps its bit.
  `clearRange_keeps_whole_word` is a range of one whole word that it leaves
  set.
* `visitMarkedRange_reversed`: `visit_marked_range` has no early return, and
  on a reversed range it calls the visitor on slots of the word of `end`, and
  on the empty range at the end of the bitmap it loads the word past it.
-/

namespace Comet.SpaceBitmap

variable {ALIGN : Nat}

/-! ## The model -/

/-- The first loop of `clear_range`: `while begin_offset < end_offset &&
offset_bit_index(begin_offset) != 0 { clear(heap_begin + begin_offset);
begin_offset += ALIGN }`.  It returns the bitmap and the final `begin_offset`. -/
def clearLeft (end_offset : Nat) : Nat → SpaceBitmap ALIGN → Nat → SpaceBitmap ALIGN × Nat
  | 0, bm, begin_offset => (bm, begin_offset)
  | fuel + 1, bm, begin_offset =>
    if begin_offset < end_offset ∧ offsetBitIndex ALIGN begin_offset ≠ 0 then
      clearLeft end_offset fuel (bm.clear (bm.heapBegin + begin_offset)).1 (begin_offset + ALIGN)
    else (bm, begin_offset)

/-- The second loop: `while begin_offset < end_offset &&
offset_bit_index(end_offset) != 0 { end_offset -= ALIGN;
clear(heap_begin + end_offset) }`. -/
def clearRight (begin_offset : Nat) : Nat → SpaceBitmap ALIGN → Nat → SpaceBitmap ALIGN
  | 0, bm, _ => bm
  | fuel + 1, bm, end_offset =>
    if begin_offset < end_offset ∧ offsetBitIndex ALIGN end_offset ≠ 0 then
      clearRight begin_offset fuel (bm.clear (bm.heapBegin + (end_offset - ALIGN))).1
        (end_offset - ALIGN)
    else bm

/-- `clear_range(begin, end)`, for `begin` and `end` at or above `heap_begin`
(the code subtracts `heap_begin` without wrapping). -/
def clearRange (bm : SpaceBitmap ALIGN) (begin end_ : Nat) : SpaceBitmap ALIGN :=
  let begin_offset := begin - bm.heapBegin
  let end_offset := end_ - bm.heapBegin
  let left := clearLeft end_offset (end_offset - begin_offset) bm begin_offset
  clearRight left.2 (end_offset - begin_offset) left.1 end_offset

/-- The slot at which the first loop stops, from slot `s` with the range
ending at slot `t`: the first slot of the next word, or `t`, whichever comes
first, and `s` itself when the range is empty. -/
def leftStop (s t : Nat) : Nat := max s (min t ((s + 63) / 64 * 64))

/-- The slot at which the second loop stops, down from slot `t` with the range
starting at slot `s`. -/
def rightStop (s t : Nat) : Nat := min t (max s (t / 64 * 64))

section Stops

variable {s t : Nat}

/-- The loops' own condition, `begin_offset < end_offset` and the slot not at
the start of a word, decides whether they stop at once or take one more step
towards the same stop. -/
theorem leftStop_of_not (hc : ¬(s < t ∧ s % 64 ≠ 0)) : leftStop s t = s :=
  max_eq_left (min_le_iff.2 (by omega))

theorem lt_leftStop (hc : s < t ∧ s % 64 ≠ 0) : s < leftStop s t := by
  simp only [leftStop, lt_max_iff, lt_min_iff]; omega

theorem leftStop_succ (hc : s < t ∧ s % 64 ≠ 0) : leftStop (s + 1) t = leftStop s t := by
  have hdiv : (s + 1 + 63) / 64 = (s + 63) / 64 := by omega
  have hle : s + 1 ≤ min t ((s + 63) / 64 * 64) := by omega
  simp only [leftStop, hdiv, max_eq_right hle, max_eq_right (Nat.le_of_succ_le hle)]

theorem rightStop_of_not (hc : ¬(s < t ∧ t % 64 ≠ 0)) : rightStop s t = t :=
  min_eq_left (le_max_iff.2 (by omega))

theorem rightStop_lt (hc : s < t ∧ t % 64 ≠ 0) : rightStop s t < t := by
  simp only [rightStop, min_lt_iff, max_lt_iff]; omega

theorem rightStop_pred (hc : s < t ∧ t % 64 ≠ 0) : rightStop s (t - 1) = rightStop s t := by
  have hdiv : (t - 1) / 64 = t / 64 := by omega
  have hle : max s (t / 64 * 64) ≤ t - 1 := max_le (by omega) (by omega)
  simp only [rightStop, hdiv, min_eq_right hle, min_eq_right (hle.trans (Nat.sub_le t 1))]

theorem le_leftStop : s ≤ leftStop s t := le_max_left _ _

/-- The number of passes each loop makes is at most the length of the range. -/
theorem leftStop_sub_le : leftStop s t - s ≤ t - s := by
  simp only [leftStop, Nat.sub_le_iff_le_add, max_le_iff, min_le_iff]; omega

theorem sub_rightStop_le : t - rightStop s t ≤ t - s := by
  unfold rightStop; omega

end Stops

@[simp] theorem clear_heapBegin (bm : SpaceBitmap ALIGN) (obj : Nat) :
    (bm.clear obj).1.heapBegin = bm.heapBegin :=
  write_heapBegin _ _

theorem offsetBitIndex_mul (hA : 0 < ALIGN) (s : Nat) :
    offsetBitIndex ALIGN (ALIGN * s) = s % 64 := by
  rw [offsetBitIndex, Nat.mul_div_cancel_left _ hA, BITS_PER_INTPTR]

/-- `clear` of the address of slot `s`. -/
theorem test_clear_slot (hA : 0 < ALIGN) (bm : SpaceBitmap ALIGN) (s : Nat) {A : Nat}
    (hA' : bm.heapBegin ≤ A) :
    (bm.clear (bm.heapBegin + ALIGN * s)).1.test A =
      (bm.test A && !decide ((A - bm.heapBegin) / ALIGN = s)) := by
  rw [clear, test_modify _ _ hA' (Nat.le_add_right _ _), Nat.add_sub_cancel_left,
    Nat.mul_div_cancel_left _ hA]
  split <;> simp [*]

/-! ## The two loops -/

/-- A pass that clears slot `u` and leaves the slots `q` to the rest of the
loop clears the slots `r`. -/
theorem and_not_decide_merge (b : Bool) {p q r : Prop} [Decidable p] [Decidable q] [Decidable r]
    (h : r ↔ p ∨ q) : ((b && !decide p) && !decide q) = (b && !decide r) := by
  by_cases hp : p <;> by_cases hq : q <;> simp [hp, hq, h]

theorem and_not_decide_of_not (b : Bool) {p : Prop} [Decidable p] (h : ¬p) :
    (b && !decide p) = b := by
  simp [h]

/-- The first loop does not run from a slot at the end of the range or at the
start of a word: it stops at `leftStop s t = s` and clears nothing. -/
theorem clearLeft_spec_of_stop (hA : 0 < ALIGN) {s t : Nat} (hc : ¬(s < t ∧ s % 64 ≠ 0))
    (fuel : Nat) (bm : SpaceBitmap ALIGN) :
    (clearLeft (ALIGN * t) fuel bm (ALIGN * s)).2 = ALIGN * leftStop s t ∧
      (clearLeft (ALIGN * t) fuel bm (ALIGN * s)).1.heapBegin = bm.heapBegin ∧
      ∀ A, bm.heapBegin ≤ A → (clearLeft (ALIGN * t) fuel bm (ALIGN * s)).1.test A =
        (bm.test A && !decide (s ≤ (A - bm.heapBegin) / ALIGN ∧
          (A - bm.heapBegin) / ALIGN < leftStop s t)) := by
  have hrun : clearLeft (ALIGN * t) fuel bm (ALIGN * s) = (bm, ALIGN * s) := by
    cases fuel <;> simp [clearLeft, Nat.mul_lt_mul_left hA, offsetBitIndex_mul hA, hc]
  rw [hrun, leftStop_of_not hc]
  exact ⟨rfl, rfl, fun A _ => (and_not_decide_of_not _ (by omega)).symm⟩

/-- From slot `s`, the first loop stops at `leftStop s t` and clears the slots
`s, ..., leftStop s t - 1`. -/
theorem clearLeft_spec (hA : 0 < ALIGN) (t : Nat) :
    ∀ fuel (bm : SpaceBitmap ALIGN) s, leftStop s t - s ≤ fuel →
      (clearLeft (ALIGN * t) fuel bm (ALIGN * s)).2 = ALIGN * leftStop s t ∧
      (clearLeft (ALIGN * t) fuel bm (ALIGN * s)).1.heapBegin = bm.heapBegin ∧
      ∀ A, bm.heapBegin ≤ A → (clearLeft (ALIGN * t) fuel bm (ALIGN * s)).1.test A =
        (bm.test A && !decide (s ≤ (A - bm.heapBegin) / ALIGN ∧
          (A - bm.heapBegin) / ALIGN < leftStop s t))
  | 0, bm, s, h => clearLeft_spec_of_stop hA (by intro hc; have := lt_leftStop hc; omega) 0 bm
  | fuel + 1, bm, s, h => by
    by_cases hc : s < t ∧ s % 64 ≠ 0
    · have hgt := lt_leftStop hc
      obtain ⟨h₁, h₂, h₃⟩ :=
        clearLeft_spec hA t fuel (bm.clear (bm.heapBegin + ALIGN * s)).1 (s + 1)
          (by rw [leftStop_succ hc]; omega)
      rw [Nat.mul_succ] at h₁ h₂ h₃
      rw [leftStop_succ hc] at h₁ h₃
      simp only [clearLeft, Nat.mul_lt_mul_left hA, offsetBitIndex_mul hA, if_pos hc]
      refine ⟨h₁, h₂.trans (clear_heapBegin _ _), fun A hA' => ?_⟩
      rw [h₃ A (by simpa using hA'), test_clear_slot hA bm s hA', clear_heapBegin]
      exact and_not_decide_merge _ (by omega)
    · exact clearLeft_spec_of_stop hA hc _ bm

/-- The second loop does not run down from a slot at the start of the range or
of a word: it stops at `rightStop s t = t` and clears nothing. -/
theorem clearRight_spec_of_stop (hA : 0 < ALIGN) {s t : Nat} (hc : ¬(s < t ∧ t % 64 ≠ 0))
    (fuel : Nat) (bm : SpaceBitmap ALIGN) :
    (clearRight (ALIGN * s) fuel bm (ALIGN * t)).heapBegin = bm.heapBegin ∧
      ∀ A, bm.heapBegin ≤ A → (clearRight (ALIGN * s) fuel bm (ALIGN * t)).test A =
        (bm.test A && !decide (rightStop s t ≤ (A - bm.heapBegin) / ALIGN ∧
          (A - bm.heapBegin) / ALIGN < t)) := by
  have hrun : clearRight (ALIGN * s) fuel bm (ALIGN * t) = bm := by
    cases fuel <;> simp [clearRight, Nat.mul_lt_mul_left hA, offsetBitIndex_mul hA, hc]
  rw [hrun, rightStop_of_not hc]
  exact ⟨rfl, fun A _ => (and_not_decide_of_not _ (by omega)).symm⟩

/-- Down from slot `t`, the second loop stops at `rightStop s t` and clears the
slots `rightStop s t, ..., t - 1`. -/
theorem clearRight_spec (hA : 0 < ALIGN) (s : Nat) :
    ∀ fuel (bm : SpaceBitmap ALIGN) t, t - rightStop s t ≤ fuel →
      (clearRight (ALIGN * s) fuel bm (ALIGN * t)).heapBegin = bm.heapBegin ∧
      ∀ A, bm.heapBegin ≤ A → (clearRight (ALIGN * s) fuel bm (ALIGN * t)).test A =
        (bm.test A && !decide (rightStop s t ≤ (A - bm.heapBegin) / ALIGN ∧
          (A - bm.heapBegin) / ALIGN < t))
  | 0, bm, t, h => clearRight_spec_of_stop hA (by intro hc; have := rightStop_lt hc; omega) 0 bm
  | fuel + 1, bm, t, h => by
    by_cases hc : s < t ∧ t % 64 ≠ 0
    · have hlt := rightStop_lt hc
      obtain ⟨h₂, h₃⟩ :=
        clearRight_spec hA s fuel (bm.clear (bm.heapBegin + ALIGN * (t - 1))).1 (t - 1)
          (by rw [rightStop_pred hc]; omega)
      rw [rightStop_pred hc] at h₃
      simp only [clearRight, Nat.mul_lt_mul_left hA, offsetBitIndex_mul hA, if_pos hc,
        ← Nat.mul_sub_one]
      refine ⟨h₂.trans (clear_heapBegin _ _), fun A hA' => ?_⟩
      rw [h₃ A (by simpa using hA'), test_clear_slot hA bm (t - 1) hA', clear_heapBegin]
      exact and_not_decide_merge _ (by omega)
    · exact clearRight_spec_of_stop hA hc _ bm

/-! ## What `clear_range` clears -/

/-- For `begin` and `end` on slot boundaries, `clear_range` clears the slot of
`A` iff it lies in `[begin, end)` and its word does not lie inside the range,
and keeps every other bit: the whole words of the range stay as they were. -/
theorem clearRange_clears_partial_words (bm : SpaceBitmap ALIGN) (hA : 0 < ALIGN) {b e : Nat}
    (hb : ALIGN ∣ b - bm.heapBegin) (he : ALIGN ∣ e - bm.heapBegin) {A : Nat}
    (hA' : bm.heapBegin ≤ A) :
    (bm.clearRange b e).test A =
      (bm.test A && !decide ((b - bm.heapBegin) / ALIGN ≤ (A - bm.heapBegin) / ALIGN ∧
        (A - bm.heapBegin) / ALIGN < (e - bm.heapBegin) / ALIGN ∧
        ((A - bm.heapBegin) / ALIGN / 64 * 64 < (b - bm.heapBegin) / ALIGN ∨
          (e - bm.heapBegin) / ALIGN < (A - bm.heapBegin) / ALIGN / 64 * 64 + 64))) := by
  obtain ⟨sb, hsb⟩ := hb
  obtain ⟨se, hse⟩ := he
  have hfuel : se - sb ≤ ALIGN * se - ALIGN * sb := by
    rw [← Nat.mul_sub]; exact Nat.le_mul_of_pos_left _ hA
  obtain ⟨h₁, h₂, h₃⟩ := clearLeft_spec hA se (ALIGN * se - ALIGN * sb) bm sb
    (leftStop_sub_le.trans hfuel)
  obtain ⟨-, h₅⟩ := clearRight_spec hA (leftStop sb se) (ALIGN * se - ALIGN * sb)
    (clearLeft (ALIGN * se) (ALIGN * se - ALIGN * sb) bm (ALIGN * sb)).1 se
    (sub_rightStop_le.trans ((Nat.sub_le_sub_left le_leftStop se).trans hfuel))
  simp only [clearRange, hsb, hse, h₁]
  rw [h₅ A (by rwa [h₂]), h₂, h₃ A hA', Nat.mul_div_cancel_left _ hA,
    Nat.mul_div_cancel_left _ hA, Bool.and_assoc, ← Bool.not_or, ← Bool.decide_or]
  generalize (A - bm.heapBegin) / ALIGN = k
  have key :
      (sb ≤ k ∧ k < leftStop sb se ∨ rightStop (leftStop sb se) se ≤ k ∧ k < se) ↔
      sb ≤ k ∧ k < se ∧ (k / 64 * 64 < sb ∨ se < k / 64 * 64 + 64) := by
    simp only [rightStop, leftStop, lt_max_iff, lt_min_iff, min_le_iff, max_le_iff]
    omega
  simp only [key]

/-- A bitmap of `ALIGN = 16` whose two words are all ones, for the heap at
`0x10000`. -/
def fullTwoWords : SpaceBitmap 16 where
  bitmap := fun _ => 0xFFFFFFFFFFFFFFFF
  bitmapSize := 16
  heapBegin := 0x10000
  heapLimit := 0x10800

/-- `clear_range` of the first word of `fullTwoWords`, a range of 64 whole
slots, clears none of them. -/
theorem clearRange_keeps_whole_word :
    0 < 16 ∧ 16 ∣ 0x10000 - fullTwoWords.heapBegin ∧ 16 ∣ 0x10400 - fullTwoWords.heapBegin ∧
      fullTwoWords.heapBegin ≤ 0x10000 ∧
      (fullTwoWords.clearRange 0x10000 0x10400).test 0x10000 =
        (fullTwoWords.test 0x10000 && !decide ((0x10000 - fullTwoWords.heapBegin) / 16 ≤
          (0x10000 - fullTwoWords.heapBegin) / 16 ∧
          (0x10000 - fullTwoWords.heapBegin) / 16 < (0x10400 - fullTwoWords.heapBegin) / 16 ∧
          ((0x10000 - fullTwoWords.heapBegin) / 16 / 64 * 64 <
              (0x10000 - fullTwoWords.heapBegin) / 16 ∨
            (0x10400 - fullTwoWords.heapBegin) / 16 <
              (0x10000 - fullTwoWords.heapBegin) / 16 / 64 * 64 + 64))) ∧
      (fullTwoWords.clearRange 0x10000 0x10400).test 0x10000 = true :=
  ⟨by decide, by decide, by decide, by decide,
    clearRange_clears_partial_words fullTwoWords (by decide) (by decide) (by decide) (by decide),
    by decide⟩

/-! ## Empty and reversed ranges -/

/-- `visit_marked_range` has no early return.  On `fullTwoWords`, the reversed
range from slot 65 down to slot 3 loads word 1, keeps its bits from
`bit_start = 1` up, masks them below `bit_end = 3` and calls the visitor on
slots 1 and 2 of word 0; and the empty range at the end of the bitmap loads
word 2, past the two words the bitmap owns. -/
theorem visitMarkedRange_reversed :
    visitMarkedRange fullTwoWords (fun _ => fullTwoWords.bitmap) (fun (l : List Nat) a => l ++ [a])
        0x10410 0x10030 [] = ([0x10010, 0x10020], [1]) ∧
      (visitMarkedRange fullTwoWords (fun _ => fullTwoWords.bitmap)
        (fun (l : List Nat) a => l ++ [a]) 0x10800 0x10800 []).2 =
        [fullTwoWords.bitmapSize / 8] := by
  decide

end Comet.SpaceBitmap
