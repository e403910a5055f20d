import Comet.SpaceBitmap.Basic
import Mathlib.Tactic.Ring

/-!
# `visit_marked_range` against the slot-by-slot scan

`visit_marked_range(visit_begin, visit_end, visitor)` walks a range of the
bitmap a word at a time: a masked left word, the full middle words, and a
masked right word, with a special case when both ends lie in one word and
one when `visit_end` starts a new word.  Its body keeps, commented out, the
scan it replaces: test each slot address from `visit_begin` up and call the
visitor on the set ones.

The visitor may change the bitmap (the code says so in its doc comment), so
the words live in the visitor's world `σ` and `words s` reads them.  The
model returns the final world and the indices of the words it loaded.

* `visitWord`, `visitMiddle` and `visitMarkedRange` are the model, and
  `scanMarkedRange` is the commented-out scan.
* The result is stated with `markedAddrs` of `Comet.SpaceBitmap.Basic`, the
  ascending list of the set slot addresses of a slot range.
* `AgreeFrom` says that a world has the bits of another at every slot from
  some slot up.  A visitor that changes the bitmap only at or below the slot
  it is called with (`ChangesOnlyBelow`) keeps it (`foldl_agreeFrom`), and a
  word loaded in such a world is the word of the first (`word_eq_of_agreeFrom`).
* `visitWord_eq`, `visitMiddle_eq` and `visitMarkedRange_fst` show that the
  word walk calls the visitor on `markedAddrs` of the range, in order;
  `scanMarkedRange_eq` shows the same of the scan.
* `visitMarkedRange_reads_lt` bounds the words the walk loads.
-/

universe u

namespace Comet.SpaceBitmap

open UInt64

variable {ALIGN : Nat} {σ : Type u}

/-! ## The model -/

/-- One word of `visit_marked_range`: when the loaded and masked word `w` of
index `i` is not zero, the do-while loop calls the visitor on the slot address
of each set bit. -/
def visitWord (bm : SpaceBitmap ALIGN) (visitor : σ → Nat → σ) (i : Nat) (w : UInt64)
    (s : σ) : σ :=
  if w ≠ 0 then
    forEachSetBit (fun s shift => visitor s (indexToOffset ALIGN i + bm.heapBegin + shift * ALIGN))
      64 w s
  else s

/-- The loop `for i in index_start + 1..index_end`: each word is loaded once,
from the world as the visitor has left it, and then visited. -/
def visitMiddle (bm : SpaceBitmap ALIGN) (words : σ → Nat → UInt64) (visitor : σ → Nat → σ) :
    List Nat → σ → σ
  | [], s => s
  | i :: rest, s => visitMiddle bm words visitor rest (visitWord bm visitor i (words s i) s)

/-- `visit_marked_range`: the final world, and the indices of the words loaded,
in order. -/
def visitMarkedRange (bm : SpaceBitmap ALIGN) (words : σ → Nat → UInt64)
    (visitor : σ → Nat → σ) (visit_begin visit_end : Nat) (s : σ) : σ × List Nat :=
  let offset_start := visit_begin - bm.heapBegin
  let offset_end := visit_end - bm.heapBegin
  let index_start := offsetToIndex ALIGN offset_start
  let index_end := offsetToIndex ALIGN offset_end
  let bit_start := (offset_start / ALIGN) % BITS_PER_INTPTR
  let bit_end := (offset_end / ALIGN) % BITS_PER_INTPTR
  let left_edge := words s index_start &&& ~~~((1 <<< bit_start.toUInt64) - 1)
  let right_mask : UInt64 := (1 <<< bit_end.toUInt64) - 1
  if index_start < index_end then
    let s₁ := visitWord bm visitor index_start left_edge s
    let middle := List.range' (index_start + 1) (index_end - (index_start + 1))
    let s₂ := visitMiddle bm words visitor middle s₁
    if bit_end = 0 then
      (visitWord bm visitor index_end (0 &&& right_mask) s₂, index_start :: middle)
    else
      (visitWord bm visitor index_end (words s₂ index_end &&& right_mask) s₂,
        index_start :: middle ++ [index_end])
  else
    (visitWord bm visitor index_end (left_edge &&& right_mask) s, [index_start])

/-- The scan left commented out in `visit_marked_range`: for `A = visit_begin`,
`visit_begin + ALIGN`, ... while `A < visit_end`, call the visitor on `A` when
`test(A)` holds in the world as the visitor has left it. -/
def scanMarkedRange (bm : SpaceBitmap ALIGN) (words : σ → Nat → UInt64)
    (visitor : σ → Nat → σ) (visit_begin visit_end : Nat) (s : σ) : σ :=
  (List.range ((visit_end - visit_begin + ALIGN - 1) / ALIGN)).foldl
    (fun s m =>
      let scan := visit_begin + m * ALIGN
      if test ({ bm with bitmap := words s } : SpaceBitmap ALIGN) scan then visitor s scan else s) s

/-- A visitor that changes the bitmap only at slots at or below the slot of
the address it is called with. -/
def ChangesOnlyBelow (bm : SpaceBitmap ALIGN) (words : σ → Nat → UInt64)
    (visitor : σ → Nat → σ) : Prop :=
  ∀ s a k, k < 64 * (bm.bitmapSize / 8) → (a - bm.heapBegin) / ALIGN < k →
    slotBit (words (visitor s a)) k = slotBit (words s) k

/-! ## One word -/

/-- The loop over one loaded word whose bits are those of word `i` of `words`
between `lo` and `hi` calls the visitor on the set slots of that part of the
word, in ascending order. -/
theorem visitWord_eq (bm : SpaceBitmap ALIGN) (visitor : σ → Nat → σ) (words : Nat → UInt64)
    (i lo hi : Nat) (w : UInt64) (hlo : lo ≤ hi) (hhi : hi ≤ 64)
    (hw : ∀ j < 64, w.testBit j = (decide (lo ≤ j) && decide (j < hi) && (words i).testBit j))
    (s : σ) :
    visitWord bm visitor i w s = (markedAddrs bm words (64 * i + lo) (64 * i + hi)).foldl visitor s := by
  rw [← setBits_map_eq_markedAddrs bm words i lo hi w hlo hhi hw, List.foldl_map, visitWord]
  split
  · exact forEachSetBit_eq _ s ‹_› (setBits_length_le w)
  · rename_i hz
    rw [not_not.1 hz]
    rfl

/-! ## Worlds that agree from a slot up -/

/-- The world `s` has the bits of `s₀` at every slot of the bitmap from `K` up. -/
def AgreeFrom (bm : SpaceBitmap ALIGN) (words : σ → Nat → UInt64) (s₀ s : σ) (K : Nat) : Prop :=
  ∀ k, K ≤ k → k < 64 * (bm.bitmapSize / 8) → slotBit (words s) k = slotBit (words s₀) k

theorem AgreeFrom.mono {bm : SpaceBitmap ALIGN} {words : σ → Nat → UInt64} {s₀ s : σ}
    {K K' : Nat} (h : AgreeFrom bm words s₀ s K) (hK : K ≤ K') : AgreeFrom bm words s₀ s K' :=
  fun k hk => h k (Nat.le_trans hK hk)

/-- Calls of such a visitor on addresses below slot `K` keep the bits from `K` up. -/
theorem foldl_agreeFrom {bm : SpaceBitmap ALIGN} {words : σ → Nat → UInt64}
    {visitor : σ → Nat → σ} (hvis : ChangesOnlyBelow bm words visitor) {s₀ : σ} {K : Nat} :
    ∀ (L : List Nat) (s : σ), (∀ a ∈ L, (a - bm.heapBegin) / ALIGN < K) →
      AgreeFrom bm words s₀ s K → AgreeFrom bm words s₀ (L.foldl visitor s) K
  | [], _, _, h => h
  | a :: L, s, hL, h => by
    refine foldl_agreeFrom hvis L _ (fun b hb => hL b (List.mem_cons_of_mem a hb)) ?_
    intro k hk hkn
    rw [hvis s a k hkn (Nat.lt_of_lt_of_le (hL a (List.mem_cons_self a L)) hk)]
    exact h k hk hkn

/-- A word of the bitmap loaded in a world that agrees with `s₀` from its
first slot up is the word of `s₀`. -/
theorem word_eq_of_agreeFrom {bm : SpaceBitmap ALIGN} {words : σ → Nat → UInt64} {s₀ s : σ}
    {i : Nat} (h : AgreeFrom bm words s₀ s (64 * i)) (hi : i < bm.bitmapSize / 8) :
    words s i = words s₀ i := by
  refine ext_testBit fun j hj => ?_
  have := h (64 * i + j) (by omega) (by omega)
  rwa [slotBit, show (64 * i + j) / 64 = i by omega, show (64 * i + j) % 64 = j by omega,
    slotBit, show (64 * i + j) / 64 = i by omega, show (64 * i + j) % 64 = j by omega] at this

/-! ## The middle words and the whole walk -/

variable (bm : SpaceBitmap ALIGN) (words : σ → Nat → UInt64) (visitor : σ → Nat → σ)

/-- The middle loop over the words `a, ..., a + m - 1` calls the visitor on the
set slots of those words, as they were in `s₀`, in ascending order. -/
theorem visitMiddle_eq (hA : 0 < ALIGN) (hvis : ChangesOnlyBelow bm words visitor) (s₀ : σ) :
    ∀ (m a : Nat) (s : σ), a + m ≤ bm.bitmapSize / 8 → AgreeFrom bm words s₀ s (64 * a) →
      visitMiddle bm words visitor (List.range' a m) s =
        (markedAddrs bm (words s₀) (64 * a) (64 * (a + m))).foldl visitor s
  | 0, a, s, _, _ => by simp [visitMiddle]
  | m + 1, a, s, hm, h => by
    have hword := word_eq_of_agreeFrom h (by omega)
    have hfirst : visitWord bm visitor a (words s a) s =
        (markedAddrs bm (words s₀) (64 * a + 0) (64 * a + 64)).foldl visitor s :=
      visitWord_eq bm visitor (words s₀) a 0 64 (words s a) (Nat.zero_le _) (Nat.le_refl _)
        (fun j hj => by simp [hword, hj]) s
    rw [List.range'_succ, visitMiddle, hfirst,
      markedAddrs_append bm (words s₀) (show 64 * a ≤ 64 * a + 64 by omega)
        (show 64 * a + 64 ≤ 64 * (a + (m + 1)) by omega),
      List.foldl_append, show 64 * a + 64 = 64 * (a + 1) by omega,
      show 64 * (a + (m + 1)) = 64 * (a + 1 + m) by omega]
    refine visitMiddle_eq hA hvis s₀ m (a + 1) _ (by omega) ?_
    rw [Nat.add_zero]
    exact foldl_agreeFrom hvis _ _
      (fun b hb => (slot_of_mem_markedAddrs hA hb).2) (h.mono (by omega))

/-- The slot of an address in `[heap_begin, heap_begin + 64 * ALIGN * n]` is
at most `64 * n`. -/
theorem slot_le_of_le {x n : Nat} (h : x ≤ 64 * ALIGN * n) :
    x / ALIGN ≤ 64 * n :=
  Nat.div_le_of_le_mul (by rw [show ALIGN * (64 * n) = 64 * ALIGN * n by ring]; exact h)

/-- The word walk calls the visitor on the set slot addresses of
`[visit_begin, visit_end)`, as they were on entry, in ascending order. -/
theorem visitMarkedRange_fst (hA : 0 < ALIGN) (hvis : ChangesOnlyBelow bm words visitor)
    (s : σ) {b e : Nat} (hbe : b ≤ e)
    (he : e ≤ bm.heapBegin + 64 * ALIGN * (bm.bitmapSize / 8)) :
    (visitMarkedRange bm words visitor b e s).1 =
      (markedAddrs bm (words s) ((b - bm.heapBegin) / ALIGN) ((e - bm.heapBegin) / ALIGN)).foldl
        visitor s := by
  simp only [visitMarkedRange, offsetToIndex, BITS_PER_INTPTR]
  have hkske : (b - bm.heapBegin) / ALIGN ≤ (e - bm.heapBegin) / ALIGN :=
    Nat.div_le_div_right (Nat.sub_le_sub_right hbe _)
  have hken : (e - bm.heapBegin) / ALIGN ≤ 64 * (bm.bitmapSize / 8) :=
    slot_le_of_le (Nat.sub_le_iff_le_add'.2 he)
  generalize (b - bm.heapBegin) / ALIGN = ks at hkske ⊢
  generalize (e - bm.heapBegin) / ALIGN = ke at hkske hken ⊢
  have hks : 64 * (ks / 64) + ks % 64 = ks := Nat.div_add_mod ks 64
  have hke : 64 * (ke / 64) + ke % 64 = ke := Nat.div_add_mod ke 64
  have hks64 : ks % 64 ≤ 64 := (Nat.mod_lt ks (by decide)).le
  have hke64 : ke % 64 ≤ 64 := (Nat.mod_lt ke (by decide)).le
  split
  · rename_i hlt
    have hnext : ks ≤ 64 * (ks / 64 + 1) := (Nat.lt_mul_div_succ ks (by decide)).le
    have hmid : 64 * (ks / 64 + 1) ≤ 64 * (ke / 64) := Nat.mul_le_mul_left 64 hlt
    have hlast : 64 * (ke / 64) ≤ ke := Nat.mul_div_le ke 64
    set s₁ := visitWord bm visitor (ks / 64)
      (words s (ks / 64) &&& ~~~((1 <<< (ks % 64).toUInt64) - 1)) s with hs₁
    have h₁ : s₁ = (markedAddrs bm (words s) ks (64 * (ks / 64 + 1))).foldl visitor s := by
      have := visitWord_eq bm visitor (words s) (ks / 64) (ks % 64) 64
        (words s (ks / 64) &&& ~~~((1 <<< (ks % 64).toUInt64) - 1)) hks64 (Nat.le_refl _)
        (fun j hj => by
          by_cases hj' : ks % 64 ≤ j
          · simp [hj, hj', Nat.not_lt.2 hj']
          · simp [hj, hj', Nat.not_le.1 hj']) s
      rwa [hks, ← Nat.mul_succ] at this
    have hag₁ : AgreeFrom bm words s s₁ (64 * (ks / 64 + 1)) := h₁ ▸
      foldl_agreeFrom hvis _ s (fun a ha => (slot_of_mem_markedAddrs hA ha).2) fun _ _ _ => rfl
    set s₂ := visitMiddle bm words visitor
      (List.range' (ks / 64 + 1) (ke / 64 - (ks / 64 + 1))) s₁ with hs₂
    have h₂ : s₂ = (markedAddrs bm (words s) (64 * (ks / 64 + 1)) (64 * (ke / 64))).foldl
        visitor s₁ := by
      have := visitMiddle_eq bm words visitor hA hvis s (ke / 64 - (ks / 64 + 1)) (ks / 64 + 1) s₁
        ((Nat.add_sub_cancel' hlt).trans_le (Nat.div_le_of_le_mul hken)) hag₁
      rwa [Nat.add_sub_cancel' hlt] at this
    have hag₂ : AgreeFrom bm words s s₂ (64 * (ke / 64)) := h₂ ▸
      foldl_agreeFrom hvis _ s₁ (fun a ha => (slot_of_mem_markedAddrs hA ha).2) (hag₁.mono hmid)
    rw [markedAddrs_append bm (words s) hnext (hmid.trans hlast),
      markedAddrs_append bm (words s) hmid hlast, List.foldl_append, List.foldl_append, ← h₁,
      ← h₂]
    split
    · rename_i hz
      rw [Nat.mul_div_cancel' (Nat.dvd_of_mod_eq_zero hz), markedAddrs_self]
      simp [visitWord]
    · rename_i hz
      have hword := word_eq_of_agreeFrom hag₂
        (Nat.div_lt_of_lt_mul (lt_of_le_of_ne hken fun h => hz (h ▸ Nat.mul_mod_right _ _)))
      have h₃ := visitWord_eq bm visitor (words s) (ke / 64) 0 (ke % 64)
        (words s₂ (ke / 64) &&& ((1 <<< (ke % 64).toUInt64) - 1)) (Nat.zero_le _) hke64
        (fun j hj => by simp [hword, Bool.and_comm]) s₂
      rwa [Nat.add_zero, hke] at h₃
  · rename_i hge
    have hq : ks / 64 = ke / 64 := le_antisymm (Nat.div_le_div_right hkske) (Nat.not_lt.1 hge)
    have h := visitWord_eq bm visitor (words s) (ke / 64) (ks % 64) (ke % 64)
      (words s (ks / 64) &&& ~~~((1 <<< (ks % 64).toUInt64) - 1) &&&
        ((1 <<< (ke % 64).toUInt64) - 1)) (by omega) hke64 (fun j hj => by
        rw [hq]
        by_cases hj' : ks % 64 ≤ j <;> simp [hj, hj', Bool.and_comm, Bool.and_left_comm]) s
    have hks' : 64 * (ke / 64) + ks % 64 = ks := by rw [← hq]; exact hks
    rwa [hks', hke] at h

/-! ## The scan and the loaded words -/

/-- The scan over slots `K`, in ascending order, from a world that agrees with
`s₀` from `K₀` up: each slot is tested in the world as the visitor has left it,
and it reads the bits of `s₀`. -/
theorem foldl_scan_eq (hA : 0 < ALIGN) (hvis : ChangesOnlyBelow bm words visitor) (s₀ : σ) :
    ∀ (K : List Nat) (K₀ : Nat) (s : σ), K.Sorted (· < ·) →
      (∀ k ∈ K, K₀ ≤ k ∧ k < 64 * (bm.bitmapSize / 8)) → AgreeFrom bm words s₀ s K₀ →
      K.foldl (fun s k => if slotBit (words s) k then visitor s (bm.heapBegin + k * ALIGN) else s)
          s =
        ((K.filter (slotBit (words s₀))).map fun k => bm.heapBegin + k * ALIGN).foldl visitor s
  | [], _, _, _, _, _ => rfl
  | k :: K, K₀, s, hs, hK, h => by
    obtain ⟨hk, hs⟩ := List.sorted_cons.1 hs
    have hK' : ∀ k' ∈ K, k + 1 ≤ k' ∧ k' < 64 * (bm.bitmapSize / 8) := fun k' hk' =>
      ⟨hk k' hk', (hK k' (List.mem_cons_of_mem k hk')).2⟩
    obtain ⟨hK₀, hkn⟩ := hK k (List.mem_cons_self k K)
    rw [List.foldl_cons, List.filter_cons, h k hK₀ hkn]
    by_cases hb : slotBit (words s₀) k = true
    · rw [if_pos hb, if_pos hb, List.map_cons, List.foldl_cons]
      refine foldl_scan_eq hA hvis s₀ K (k + 1) _ hs hK' fun k' hk' hk'n => ?_
      rw [hvis s _ k' hk'n (by rw [Nat.add_sub_cancel_left, Nat.mul_div_cancel k hA]; omega)]
      exact h k' (by omega) hk'n
    · rw [if_neg hb, if_neg hb]
      exact foldl_scan_eq hA hvis s₀ K (k + 1) s hs hK' (h.mono (by omega))

/-- The commented-out scan calls the visitor on the set slot addresses of
`[visit_begin, visit_end)`, as they were on entry, in ascending order. -/
theorem scanMarkedRange_eq (hA : 0 < ALIGN) (hvis : ChangesOnlyBelow bm words visitor)
    (s : σ) {b e : Nat} (hb : bm.heapBegin ≤ b) (hbe : b ≤ e)
    (he : e ≤ bm.heapBegin + 64 * ALIGN * (bm.bitmapSize / 8))
    (hba : ALIGN ∣ b - bm.heapBegin) (hea : ALIGN ∣ e - bm.heapBegin) :
    scanMarkedRange bm words visitor b e s =
      (markedAddrs bm (words s) ((b - bm.heapBegin) / ALIGN) ((e - bm.heapBegin) / ALIGN)).foldl
        visitor s := by
  obtain ⟨ks, hks⟩ := hba
  obtain ⟨ke, hke⟩ := hea
  have hks' : (b - bm.heapBegin) / ALIGN = ks := by rw [hks, Nat.mul_div_cancel_left ks hA]
  have hke' : (e - bm.heapBegin) / ALIGN = ke := by rw [hke, Nat.mul_div_cancel_left ke hA]
  have hkske : ks ≤ ke := hks' ▸ hke' ▸ Nat.div_le_div_right (Nat.sub_le_sub_right hbe _)
  have hken : ke ≤ 64 * (bm.bitmapSize / 8) :=
    hke' ▸ slot_le_of_le (Nat.sub_le_iff_le_add'.2 he)
  have hcount : (e - b + ALIGN - 1) / ALIGN = ke - ks := by
    have hdiff : e - b = (ke - ks) * ALIGN := by
      rw [Nat.sub_mul, Nat.mul_comm ke, Nat.mul_comm ks, ← hke, ← hks,
        Nat.sub_sub_sub_cancel_right hb]
    rw [hdiff, Nat.add_sub_assoc hA, Nat.add_comm, Nat.add_mul_div_right _ _ hA,
      Nat.div_eq_of_lt (Nat.sub_lt hA Nat.one_pos), Nat.zero_add]
  rw [hks', hke', scanMarkedRange, hcount]
  have hslots : ∀ (s : σ) (m : Nat),
      (if test ({ bm with bitmap := words s } : SpaceBitmap ALIGN) (b + m * ALIGN) then
          visitor s (b + m * ALIGN) else s) =
        (if slotBit (words s) (ks + m) then visitor s (bm.heapBegin + (ks + m) * ALIGN) else s) := by
    intro s m
    have haddr : b + m * ALIGN = bm.heapBegin + (ks + m) * ALIGN := by
      rw [Nat.add_mul, Nat.mul_comm ks, ← hks, ← Nat.add_assoc, Nat.add_sub_cancel' hb]
    rw [haddr, test_eq_slotBit _ (Nat.le_add_right _ _), Nat.add_sub_cancel_left,
      Nat.mul_div_cancel _ hA]
  simp only [hslots]
  have hrange : (List.range (ke - ks)).foldl
      (fun s m => if slotBit (words s) (ks + m) then visitor s (bm.heapBegin + (ks + m) * ALIGN)
        else s) s =
      (List.range' ks (ke - ks)).foldl
        (fun s k => if slotBit (words s) k then visitor s (bm.heapBegin + k * ALIGN) else s) s := by
    rw [List.range'_eq_map_range, List.foldl_map]
  rw [hrange, foldl_scan_eq bm words visitor hA hvis s (List.range' ks (ke - ks)) ks s
    (List.pairwise_lt_range' _ _) (fun k hk => (List.mem_range'_1.1 hk).imp_right fun h =>
      Nat.lt_of_lt_of_le (h.trans_eq (Nat.add_sub_cancel' hkske)) hken) (fun _ _ _ => rfl)]
  rfl

/-- When the range is not empty, the walk loads only words of the bitmap. -/
theorem visitMarkedRange_reads_lt (s : σ) {b e : Nat} (hb : bm.heapBegin ≤ b) (hlt : b < e)
    (he : e ≤ bm.heapBegin + 64 * ALIGN * (bm.bitmapSize / 8)) :
    ∀ i ∈ (visitMarkedRange bm words visitor b e s).2, i < bm.bitmapSize / 8 := by
  have hks : (b - bm.heapBegin) / ALIGN < 64 * (bm.bitmapSize / 8) :=
    Nat.div_lt_of_lt_mul (by
      rw [Nat.mul_left_comm, ← Nat.mul_assoc]
      exact Nat.sub_lt_left_of_lt_add hb (hlt.trans_le he))
  have hke : (e - bm.heapBegin) / ALIGN ≤ 64 * (bm.bitmapSize / 8) :=
    slot_le_of_le (Nat.sub_le_iff_le_add'.2 he)
  simp only [visitMarkedRange, offsetToIndex, BITS_PER_INTPTR]
  generalize (b - bm.heapBegin) / ALIGN = ks at hks ⊢
  generalize (e - bm.heapBegin) / ALIGN = ke at hke ⊢
  have hfirst : ks / 64 < bm.bitmapSize / 8 := Nat.div_lt_of_lt_mul hks
  split
  · rename_i hlt
    have hmid : ∀ i ∈ List.range' (ks / 64 + 1) (ke / 64 - (ks / 64 + 1)),
        i < bm.bitmapSize / 8 := fun i hi =>
      ((List.mem_range'_1.1 hi).2.trans_eq (Nat.add_sub_cancel' hlt)).trans_le
        (Nat.div_le_of_le_mul hke)
    split
    · intro i hi
      rcases List.mem_cons.1 hi with rfl | hi
      exacts [hfirst, hmid i hi]
    · rename_i hz
      intro i hi
      rcases List.mem_cons.1 hi with rfl | hi
      · exact hfirst
      rcases List.mem_append.1 hi with hi | hi
      · exact hmid i hi
      · rw [List.mem_singleton.1 hi]
        exact Nat.div_lt_of_lt_mul (lt_of_le_of_ne hke fun h => hz (h ▸ Nat.mul_mod_right _ _))
  · intro i hi
    rw [List.mem_singleton.1 hi]
    exact hfirst

/-! ## The walk refines the scan -/

/-- `visit_marked_range` makes the calls of the scan it replaces.  For
slot-aligned `visit_begin ≤ visit_end` inside the bitmap and a visitor that
changes the bitmap only at or below the slot it is called with, both call the
visitor on the same list: every set slot address of `[visit_begin, visit_end)`
on entry, once each, in ascending order, and nothing else.  A non-empty walk
loads only words of the bitmap. -/
theorem visitMarkedRange_refines_scan (hA : 0 < ALIGN) (s : σ) (hw : words s = bm.bitmap)
    (hvis : ChangesOnlyBelow bm words visitor) {b e : Nat} (hb : bm.heapBegin ≤ b) (hbe : b ≤ e)
    (he : e ≤ bm.heapBegin + 64 * ALIGN * (bm.bitmapSize / 8))
    (hba : ALIGN ∣ b - bm.heapBegin) (hea : ALIGN ∣ e - bm.heapBegin) :
    ∃ L : List Nat, L.Sorted (· < ·) ∧
      (∀ A, A ∈ L ↔ (∃ k, A = bm.heapBegin + k * ALIGN) ∧ b ≤ A ∧ A < e ∧ bm.test A = true) ∧
      (visitMarkedRange bm words visitor b e s).1 = L.foldl visitor s ∧
      scanMarkedRange bm words visitor b e s = L.foldl visitor s ∧
      (b < e → ∀ i ∈ (visitMarkedRange bm words visitor b e s).2, i < bm.bitmapSize / 8) := by
  refine ⟨markedAddrs bm (words s) ((b - bm.heapBegin) / ALIGN) ((e - bm.heapBegin) / ALIGN),
    markedAddrs_sorted bm hA _ _ _, fun A => ?_, visitMarkedRange_fst bm words visitor hA hvis s hbe he,
    scanMarkedRange_eq bm words visitor hA hvis s hb hbe he hba hea,
    fun hlt => visitMarkedRange_reads_lt bm words visitor s hb hlt he⟩
  obtain ⟨ks, hks⟩ := hba
  obtain ⟨ke, hke⟩ := hea
  rw [hks, hke, Nat.mul_div_cancel_left ks hA, Nat.mul_div_cancel_left ke hA, mem_markedAddrs, hw]
  constructor
  · rintro ⟨k, h₀, h₁, hk, rfl⟩
    refine ⟨⟨k, rfl⟩, ?_, ?_, ?_⟩
    · have := Nat.mul_le_mul_right ALIGN h₀
      rw [Nat.mul_comm ALIGN ks] at hks; omega
    · have := Nat.mul_lt_mul_of_pos_right h₁ hA
      rw [Nat.mul_comm ALIGN ke] at hke; omega
    · rwa [test_slotAddr hA]
  · rintro ⟨⟨k, rfl⟩, h₀, h₁, hk⟩
    rw [test_slotAddr hA] at hk
    refine ⟨k, ?_, ?_, hk, rfl⟩
    · rw [Nat.mul_comm ALIGN ks] at hks
      exact Nat.le_of_mul_le_mul_right (by omega) hA
    · rw [Nat.mul_comm ALIGN ke] at hke
      exact Nat.lt_of_mul_lt_mul_right (a := ALIGN) (by omega)

/-- The bitmap of scenario S1 of the spec: slots `0`, `1` and `15` of a
4096-byte heap at `0x10000` are set. -/
def scenarioS1 : SpaceBitmap 16 where
  bitmap := fun i => if i = 0 then 0x8003 else 0
  bitmapSize := 32
  heapBegin := 0x10000
  heapLimit := 0x11000

/-- The refinement at scenario S1, with a visitor that logs its calls. -/
theorem visitMarkedRange_refines_scan_S1 :
    ∃ L : List Nat, L.Sorted (· < ·) ∧
      (∀ A, A ∈ L ↔ (∃ k, A = scenarioS1.heapBegin + k * 16) ∧ 0x10000 ≤ A ∧ A < 0x10100 ∧
        scenarioS1.test A = true) ∧
      (visitMarkedRange scenarioS1 (fun _ => scenarioS1.bitmap) (fun log a => log ++ [a])
          0x10000 0x10100 []).1 = L.foldl (fun log a => log ++ [a]) [] ∧
      scanMarkedRange scenarioS1 (fun _ => scenarioS1.bitmap) (fun log a => log ++ [a])
          0x10000 0x10100 [] = L.foldl (fun log a => log ++ [a]) [] ∧
      (0x10000 < 0x10100 → ∀ i ∈ (visitMarkedRange scenarioS1 (fun _ => scenarioS1.bitmap)
          (fun log a => log ++ [a]) 0x10000 0x10100 []).2, i < scenarioS1.bitmapSize / 8) :=
  visitMarkedRange_refines_scan scenarioS1 (fun _ => scenarioS1.bitmap) (fun log a => log ++ [a])
    (by decide) [] rfl (fun _ _ _ _ _ => rfl) (by decide) (by decide) (by decide) (by decide)
    (by decide)

end Comet.SpaceBitmap
