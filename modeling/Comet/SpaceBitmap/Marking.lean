import Comet.SpaceBitmap.Basic

/-!
# Concurrent `atomic_test_and_set`

Any number of threads run `atomic_test_and_set(obj)` on one bitmap, each on
its own address:

```
loop {
    old_word = atomic_entry.load(Relaxed);
    if old_word & mask != 0 { return true; }
    if atomic_entry.compare_exchange_weak(old_word, old_word | mask, ..).is_ok() { break; }
}
false
```

Each load and each `compare_exchange_weak` is one atomic step, and the steps
of the threads interleave in any order.  A `compare_exchange_weak` succeeds
only when the word still equals `old_word`, and it may fail at any time, also
when the word is equal (a spurious failure).

* The model: `MarkPc` is where a thread stands, `Marking` the shared words and
  every thread's place, and `Step` the four things a step can do.
* `MarkInv` is the invariant: the initial bits stay, every new bit was set by a
  thread that returned `false`, a returned thread's slot is set, a `false`
  return is on a slot that was clear initially and is the only one on its
  slot, and a thread about to CAS loaded its bit clear.  `markInv_step`
  proves that every step keeps it, and `markInv_reachable` that every
  reachable state has it.
* `step_keeps_bits`: no step clears a bit.
* `atomicTestAndSet_concurrent` puts the invariant together at the end of a
  run in which every call has returned.
* `atomicTestAndSet_solo_run`: a thread alone runs the sequential
  `SpaceBitmap.atomicTestAndSet` of the basic module.
* `reachable_finish_one` and `reachable_all_returned`: a thread at its first
  load can run its call to the end alone, and so threads that run one after
  another reach a state in which every call has returned, for any number of
  threads and any addresses.
-/

namespace Comet.SpaceBitmap

open UInt64

variable {ALIGN n : Nat}

/-! ## The model -/

/-- Where a thread stands in `atomic_test_and_set`. -/
inductive MarkPc where
  /-- At `old_word = atomic_entry.load(Relaxed)`. -/
  | start
  /-- `old_word` has the bit clear; at `compare_exchange_weak`. -/
  | loaded (old_word : UInt64)
  /-- The call has returned `r`. -/
  | returned (r : Bool)
  deriving DecidableEq

/-- The shared bitmap words and the place of each of `n` threads. -/
structure Marking (n : Nat) where
  words : Nat → UInt64
  pc : Fin n → MarkPc

section Threads

variable (bm : SpaceBitmap ALIGN) (addr : Fin n → Nat)

/-- The word index of thread `i`'s address, as the call computes it. -/
def markIndex (i : Fin n) : Nat := offsetToIndex ALIGN (wrappingSub (addr i) bm.heapBegin)

/-- The mask of thread `i`'s address, as the call computes it. -/
def markMask (i : Fin n) : UInt64 := offsetToMask ALIGN (wrappingSub (addr i) bm.heapBegin)

/-- One atomic step of one thread. -/
inductive Step : Marking n → Marking n → Prop
  /-- The load finds the bit set: `return true`. -/
  | loadSet (s : Marking n) (i : Fin n) (h : s.pc i = .start)
      (hbit : s.words (markIndex bm addr i) &&& markMask bm addr i ≠ 0) :
      Step s { s with pc := Function.update s.pc i (.returned true) }
  /-- The load finds the bit clear. -/
  | loadClear (s : Marking n) (i : Fin n) (h : s.pc i = .start)
      (hbit : s.words (markIndex bm addr i) &&& markMask bm addr i = 0) :
      Step s { s with pc := Function.update s.pc i (.loaded (s.words (markIndex bm addr i))) }
  /-- `compare_exchange_weak` succeeds: the word is still `old_word`. -/
  | casOk (s : Marking n) (i : Fin n) (old : UInt64) (h : s.pc i = .loaded old)
      (heq : s.words (markIndex bm addr i) = old) :
      Step s ⟨Function.update s.words (markIndex bm addr i) (old ||| markMask bm addr i),
        Function.update s.pc i (.returned false)⟩
  /-- `compare_exchange_weak` fails, because the word changed or spuriously. -/
  | casFail (s : Marking n) (i : Fin n) (old : UInt64) (h : s.pc i = .loaded old) :
      Step s { s with pc := Function.update s.pc i .start }

/-- The states a run from `init`, with every thread at its first load, reaches. -/
inductive Reachable (init : Nat → UInt64) : Marking n → Prop
  | init : Reachable init ⟨init, fun _ => .start⟩
  | step {s t : Marking n} : Reachable init s → Step bm addr s t → Reachable init t

/-- The slot of thread `i`'s address. -/
def markSlot (i : Fin n) : Nat := (addr i - bm.heapBegin) / ALIGN

/-! ## The invariant -/

/-- The invariant of a run from the words `init`. -/
structure MarkInv (init : Nat → UInt64) (s : Marking n) : Prop where
  /-- The bits set initially stay set. -/
  keeps : ∀ k, slotBit init k = true → slotBit s.words k = true
  /-- A bit set since was set by a thread that returned `false`. -/
  only : ∀ k, slotBit s.words k = true →
    slotBit init k = true ∨ ∃ i, markSlot bm addr i = k ∧ s.pc i = .returned false
  /-- A returned thread's slot is set. -/
  returned_set : ∀ i r, s.pc i = .returned r → slotBit s.words (markSlot bm addr i) = true
  /-- A `false` return is on a slot that was clear initially. -/
  false_fresh : ∀ i, s.pc i = .returned false → slotBit init (markSlot bm addr i) = false
  /-- At most one thread returns `false` on a slot. -/
  false_unique : ∀ i j, s.pc i = .returned false → s.pc j = .returned false →
    markSlot bm addr i = markSlot bm addr j → i = j
  /-- A thread at its CAS loaded its bit clear. -/
  loaded_clear : ∀ i old, s.pc i = .loaded old → old.testBit (markSlot bm addr i % 64) = false

/-! ## The slot of a thread -/

variable {bm addr}

theorem markIndex_eq (haddr : ∀ i, bm.heapBegin ≤ addr i) (i : Fin n) :
    markIndex bm addr i = markSlot bm addr i / 64 := by
  simp only [markIndex, markSlot, offsetToIndex, wrappingSub_of_le (haddr i), BITS_PER_INTPTR]

theorem and_markMask_eq_zero (haddr : ∀ i, bm.heapBegin ≤ addr i) (i : Fin n) (w : UInt64) :
    (w &&& markMask bm addr i = 0) ↔ w.testBit (markSlot bm addr i % 64) = false := by
  have := and_one_shiftLeft_ne_zero w (markSlot bm addr i % 64)
  simp only [markMask, offsetToMask, offsetBitIndex, wrappingSub_of_le (haddr i), BITS_PER_INTPTR,
    markSlot, Nat.mod_mod] at this ⊢
  rw [← this]
  simp

/-- The word `old | mask` stored into the word of thread `i`'s slot, read
slot by slot: the slot of `i` is set and every other slot is as before. -/
theorem slotBit_casOk (haddr : ∀ i, bm.heapBegin ≤ addr i) (words : Nat → UInt64) (i : Fin n)
    (k : Nat) :
    slotBit (Function.update words (markIndex bm addr i)
        (words (markIndex bm addr i) ||| markMask bm addr i)) k =
      (slotBit words k || decide (k = markSlot bm addr i)) := by
  rw [markIndex_eq haddr, @slotBit_update_of_testBit words _ _ true (fun j _ => ?_) k]
  · by_cases hk : k = markSlot bm addr i <;> simp [hk]
  · simp only [testBit_or, markMask, offsetToMask, offsetBitIndex, wrappingSub_of_le (haddr i),
      BITS_PER_INTPTR, testBit_one_shiftLeft, Nat.mod_mod, markSlot]
    split <;> simp_all

theorem markInv_init (init : Nat → UInt64) :
    MarkInv bm addr init ⟨init, fun _ => .start⟩ where
  keeps _ h := h
  only _ h := .inl h
  returned_set _ _ h := by cases h
  false_fresh _ h := by cases h
  false_unique _ _ h := by cases h
  loaded_clear _ _ h := by cases h

/-- A step that moves thread `i` to a place `p` other than a `false` return,
and leaves the words as they are, keeps the invariant when `p` meets the
invariant's condition on thread `i`. -/
theorem markInv_setPc {init : Nat → UInt64} {s : Marking n}
    (hinv : MarkInv bm addr init s) (i : Fin n) (p : MarkPc)
    (hprev : s.pc i ≠ .returned false) (hfalse : p ≠ .returned false)
    (hret : ∀ r, p = .returned r → slotBit s.words (markSlot bm addr i) = true)
    (hload : ∀ old, p = .loaded old → old.testBit (markSlot bm addr i % 64) = false) :
    MarkInv bm addr init { s with pc := Function.update s.pc i p } := by
  have hpc : ∀ j, j ≠ i → ({ s with pc := Function.update s.pc i p } : Marking n).pc j = s.pc j :=
    fun j hj => Function.update_noteq hj p s.pc
  refine ⟨hinv.keeps, fun k hk => ?_, fun j r hj => ?_, fun j hj => ?_, fun j j' hj hj' => ?_,
    fun j old hj => ?_⟩
  · rcases hinv.only k hk with h | ⟨j, hjk, hj⟩
    · exact .inl h
    · have hji : j ≠ i := by rintro rfl; exact hprev hj
      exact .inr ⟨j, hjk, by rwa [hpc j hji]⟩
  · by_cases hji : j = i
    · subst hji
      exact hret r (by simpa using hj)
    · exact hinv.returned_set j r (by rwa [hpc j hji] at hj)
  · have hji : j ≠ i := by rintro rfl; exact hfalse (by simpa using hj)
    exact hinv.false_fresh j (by rwa [hpc j hji] at hj)
  · have hji : j ≠ i := by rintro rfl; exact hfalse (by simpa using hj)
    have hj'i : j' ≠ i := by rintro rfl; exact hfalse (by simpa using hj')
    exact hinv.false_unique j j' (by rwa [hpc j hji] at hj) (by rwa [hpc j' hj'i] at hj')
  · by_cases hji : j = i
    · subst hji
      exact hload old (by simpa using hj)
    · exact hinv.loaded_clear j old (by rwa [hpc j hji] at hj)

/-- A successful `compare_exchange_weak` keeps the invariant: it sets the
slot of its thread, which was clear, and the thread returns `false`. -/
theorem markInv_casOk (haddr : ∀ i, bm.heapBegin ≤ addr i) {init : Nat → UInt64}
    {s : Marking n} (hinv : MarkInv bm addr init s) (i : Fin n)
    (old : UInt64) (h : s.pc i = .loaded old) (heq : s.words (markIndex bm addr i) = old) :
    MarkInv bm addr init
      ⟨Function.update s.words (markIndex bm addr i) (old ||| markMask bm addr i),
        Function.update s.pc i (.returned false)⟩ := by
  have hbits : ∀ k, slotBit (Function.update s.words (markIndex bm addr i)
      (old ||| markMask bm addr i)) k = (slotBit s.words k || decide (k = markSlot bm addr i)) :=
    heq ▸ slotBit_casOk haddr s.words i
  have hclear : slotBit s.words (markSlot bm addr i) = false := by
    have := hinv.loaded_clear i old h
    rwa [← heq, markIndex_eq haddr] at this
  have hpc : ∀ j, j ≠ i → (⟨Function.update s.words (markIndex bm addr i)
      (old ||| markMask bm addr i), Function.update s.pc i (.returned false)⟩ : Marking n).pc j =
        s.pc j := fun j hj => Function.update_noteq hj _ s.pc
  have hnot : ∀ j, s.pc j = .returned false → j ≠ i := by rintro j hj rfl; simp_all
  refine ⟨fun k hk => ?_, fun k hk => ?_, fun j r hj => ?_, fun j hj => ?_,
    fun j j' hj hj' hslot => ?_, fun j o hj => ?_⟩
  · simp [hbits, hinv.keeps k hk]
  · by_cases hki : k = markSlot bm addr i
    · exact .inr ⟨i, hki.symm, by simp⟩
    · rw [hbits, decide_eq_false hki, Bool.or_false] at hk
      rcases hinv.only k hk with h' | ⟨j, hjk, hj⟩
      · exact .inl h'
      · exact .inr ⟨j, hjk, by rw [hpc j (hnot j hj)]; exact hj⟩
  · rw [hbits]
    by_cases hji : j = i
    · simp [hji]
    · simp [hinv.returned_set j r (by rwa [hpc j hji] at hj)]
  · by_cases hji : j = i
    · subst hji
      by_contra hc
      exact absurd (hinv.keeps _ (by simpa using hc)) (by simp [hclear])
    · exact hinv.false_fresh j (by rwa [hpc j hji] at hj)
  · have key : ∀ j', s.pc j' = .returned false → markSlot bm addr j' ≠ markSlot bm addr i :=
      fun j' hj' hs => by simpa [hs, hclear] using hinv.returned_set j' false hj'
    by_cases hji : j = i <;> by_cases hj'i : j' = i
    · rw [hji, hj'i]
    · exact absurd (hji ▸ hslot).symm (key j' (by rwa [hpc j' hj'i] at hj'))
    · exact absurd (hj'i ▸ hslot) (key j (by rwa [hpc j hji] at hj))
    · exact hinv.false_unique j j' (by rwa [hpc j hji] at hj) (by rwa [hpc j' hj'i] at hj') hslot
  · have hji : j ≠ i := by rintro rfl; simp at hj
    exact hinv.loaded_clear j o (by rwa [hpc j hji] at hj)

/-- The invariant holds after every step. -/
theorem markInv_step (haddr : ∀ i, bm.heapBegin ≤ addr i) {init : Nat → UInt64}
    {s t : Marking n} (hinv : MarkInv bm addr init s)
    (hstep : Step bm addr s t) : MarkInv bm addr init t := by
  cases hstep with
  | loadSet i h hbit =>
    refine markInv_setPc hinv i _ (by simp [h]) (by simp) (fun _ _ => ?_) (by simp)
    unfold slotBit
    rw [← markIndex_eq haddr]
    by_contra hc
    exact hbit ((and_markMask_eq_zero haddr i _).2 (by simpa using hc))
  | loadClear i h hbit =>
    exact markInv_setPc hinv i _ (by simp [h]) (by simp) (by simp)
      (fun old hold => by cases hold; exact (and_markMask_eq_zero haddr i _).1 hbit)
  | casOk i old h heq => exact markInv_casOk haddr hinv i old h heq
  | casFail i old h => exact markInv_setPc hinv i _ (by simp [h]) (by simp) (by simp) (by simp)

/-- Every reachable state has the invariant. -/
theorem markInv_reachable (haddr : ∀ i, bm.heapBegin ≤ addr i) {init : Nat → UInt64}
    {s : Marking n} (h : Reachable bm addr init s) : MarkInv bm addr init s := by
  induction h with
  | init => exact markInv_init init
  | step _ hstep ih => exact markInv_step haddr ih hstep

/-- No step clears a bit. -/
theorem step_keeps_bits (haddr : ∀ i, bm.heapBegin ≤ addr i) {s t : Marking n}
    (hstep : Step bm addr s t) (k : Nat) (hk : slotBit s.words k = true) :
    slotBit t.words k = true := by
  cases hstep with
  | casOk i old h heq =>
    show slotBit (Function.update s.words (markIndex bm addr i) (old ||| markMask bm addr i)) k = _
    rw [← heq, slotBit_casOk haddr, hk, Bool.true_or]
  | _ => exact hk

/-- Any number of threads running `atomic_test_and_set` on one bitmap, in any
interleaving and with any spurious failures: no step clears a bit, and every
bit set in a reachable state was set initially or is the slot of a call.
When every call has returned, the bitmap is the initial one with the slot of
every call set, and on each slot that was clear initially exactly one call
returned `false` and every other call on it returned `true`. -/
theorem atomicTestAndSet_concurrent (haddr : ∀ i, bm.heapBegin ≤ addr i)
    (init : Nat → UInt64) :
    (∀ s t : Marking n, Step bm addr s t → ∀ k, slotBit s.words k = true →
      slotBit t.words k = true) ∧
    (∀ s, Reachable bm addr init s → ∀ k, slotBit s.words k = true →
      slotBit init k = true ∨ ∃ i, markSlot bm addr i = k) ∧
    (∀ s, Reachable bm addr init s → (∀ i, ∃ r, s.pc i = .returned r) →
      (∀ k, slotBit s.words k = true ↔ slotBit init k = true ∨ ∃ i, markSlot bm addr i = k) ∧
      ∀ i, slotBit init (markSlot bm addr i) = false →
        ∃ j, markSlot bm addr j = markSlot bm addr i ∧ s.pc j = .returned false ∧
          ∀ j', markSlot bm addr j' = markSlot bm addr i → j' ≠ j → s.pc j' = .returned true) := by
  refine ⟨fun s t hstep => step_keeps_bits haddr hstep, fun s hs k hk => ?_,
    fun s hs hdone => ⟨fun k => ⟨fun hk => ?_, ?_⟩, fun i hi => ?_⟩⟩
  · rcases (markInv_reachable haddr hs).only k hk with h | ⟨i, hik, -⟩
    · exact .inl h
    · exact .inr ⟨i, hik⟩
  · rcases (markInv_reachable haddr hs).only k hk with h | ⟨i, hik, -⟩
    · exact .inl h
    · exact .inr ⟨i, hik⟩
  · rintro (h | ⟨i, rfl⟩)
    · exact (markInv_reachable haddr hs).keeps k h
    · obtain ⟨r, hr⟩ := hdone i
      exact (markInv_reachable haddr hs).returned_set i r hr
  · have hinv := markInv_reachable haddr hs
    obtain ⟨r, hr⟩ := hdone i
    rcases hinv.only _ (hinv.returned_set i r hr) with h | ⟨j, hji, hj⟩
    · rw [hi] at h; cases h
    refine ⟨j, hji, hj, fun j' hj' hne => ?_⟩
    obtain ⟨r', hr'⟩ := hdone j'
    cases r'
    · exact absurd (hinv.false_unique j' j hr' hj (hj'.trans hji.symm)) hne
    · exact hr'

/-- A bitmap over `[0x10000, 0x11000)` for scenario S6: four threads mark the
address `0x10010`. -/
def s6Bitmap : SpaceBitmap 16 where
  bitmap := fun _ => 0
  bitmapSize := 32
  heapBegin := 0x10000
  heapLimit := 0x11000

/-- The concurrent marking of scenario S6, from an empty bitmap. -/
theorem atomicTestAndSet_concurrent_S6 :
    (∀ s t : Marking 4, Step s6Bitmap (fun _ => 0x10010) s t → ∀ k,
      slotBit s.words k = true → slotBit t.words k = true) ∧
    (∀ s : Marking 4, Reachable s6Bitmap (fun _ => 0x10010) (fun _ => 0) s → ∀ k,
      slotBit s.words k = true →
      slotBit (fun _ => 0) k = true ∨ ∃ i, markSlot s6Bitmap (fun _ : Fin 4 => 0x10010) i = k) ∧
    (∀ s : Marking 4, Reachable s6Bitmap (fun _ => 0x10010) (fun _ => 0) s →
      (∀ i, ∃ r, s.pc i = .returned r) →
      (∀ k, slotBit s.words k = true ↔
        slotBit (fun _ => 0) k = true ∨ ∃ i, markSlot s6Bitmap (fun _ : Fin 4 => 0x10010) i = k) ∧
      ∀ i, slotBit (fun _ => 0) (markSlot s6Bitmap (fun _ : Fin 4 => 0x10010) i) = false →
        ∃ j, markSlot s6Bitmap (fun _ : Fin 4 => 0x10010) j =
            markSlot s6Bitmap (fun _ : Fin 4 => 0x10010) i ∧ s.pc j = .returned false ∧
          ∀ j', markSlot s6Bitmap (fun _ : Fin 4 => 0x10010) j' =
              markSlot s6Bitmap (fun _ : Fin 4 => 0x10010) i → j' ≠ j →
            s.pc j' = .returned true) :=
  atomicTestAndSet_concurrent (fun _ => by decide) _

/-- Alone, a thread runs the sequential `atomic_test_and_set`: one load, and
a successful CAS when the bit is clear. -/
theorem atomicTestAndSet_solo_run (bm : SpaceBitmap ALIGN) (obj : Nat) :
    ∃ t, Reachable bm (fun _ : Fin 1 => obj) bm.bitmap t ∧
      t.words = (bm.atomicTestAndSet obj).1.bitmap ∧
      t.pc 0 = .returned (bm.atomicTestAndSet obj).2 := by
  have h0 : Reachable bm (fun _ : Fin 1 => obj) bm.bitmap ⟨bm.bitmap, fun _ => .start⟩ :=
    Reachable.init
  by_cases hbit : bm.bitmap (markIndex bm (fun _ : Fin 1 => obj) 0) &&&
      markMask bm (fun _ : Fin 1 => obj) 0 = 0
  · refine ⟨_, .step (.step h0 (.loadClear _ 0 rfl hbit)) (.casOk _ 0 _ (by simp) rfl), ?_, ?_⟩
    · simp only [atomicTestAndSet]
      rw [if_neg (by simpa [markIndex, markMask] using hbit)]
      rfl
    · simp only [atomicTestAndSet]
      rw [if_neg (by simpa [markIndex, markMask] using hbit)]
      simp
  · refine ⟨_, .step h0 (.loadSet _ 0 rfl hbit), ?_, ?_⟩
    · simp only [atomicTestAndSet]
      rw [if_pos (by simpa [markIndex, markMask] using hbit)]
    · simp only [atomicTestAndSet]
      rw [if_pos (by simpa [markIndex, markMask] using hbit)]
      simp

/-! ## Runs to the end -/

/-- A thread at its first load can run its call to the end alone, a load and,
when the bit is clear, a successful CAS, leaving every other thread where it
was. -/
theorem reachable_finish_one {init : Nat → UInt64} {s : Marking n}
    (hs : Reachable bm addr init s) (i : Fin n) (hi : s.pc i = .start) :
    ∃ t, Reachable bm addr init t ∧ (∃ r, t.pc i = .returned r) ∧
      ∀ j, j ≠ i → t.pc j = s.pc j := by
  by_cases hbit : s.words (markIndex bm addr i) &&& markMask bm addr i = 0
  · exact ⟨_, .step (.step hs (.loadClear s i hi hbit)) (.casOk _ i _ (by simp) rfl),
      ⟨false, by simp⟩, fun j hj => by simp [Function.update_noteq hj]⟩
  · exact ⟨_, .step hs (.loadSet s i hi hbit), ⟨true, by simp⟩,
      fun j hj => by simp [Function.update_noteq hj]⟩

/-- The first `m` threads, run one after another, each alone to its end:
they have returned and the others are still at their first load. -/
theorem reachable_first_returned (init : Nat → UInt64) :
    ∀ m ≤ n, ∃ s, Reachable bm addr init s ∧ (∀ i : Fin n, i.val < m → ∃ r, s.pc i = .returned r) ∧
      ∀ i : Fin n, m ≤ i.val → s.pc i = .start
  | 0, _ => ⟨_, .init, fun _ h => absurd h (Nat.not_lt_zero _), fun _ _ => rfl⟩
  | m + 1, hm => by
    obtain ⟨s, hs, hdone, hstart⟩ := reachable_first_returned init m (by omega)
    obtain ⟨t, ht, hret, hother⟩ := reachable_finish_one hs ⟨m, hm⟩ (hstart _ le_rfl)
    refine ⟨t, ht, fun i hi => ?_, fun i hi => ?_⟩
    · by_cases him : i.val = m
      · exact (Fin.ext him : i = ⟨m, hm⟩) ▸ hret
      · rw [hother i fun h => him (by rw [h])]
        exact hdone i (by omega)
    · rw [hother i fun h => by subst h; simp at hi]
      exact hstart i (by omega)

/-- For any number of threads and any addresses, a state in which every call
has returned is reachable: the threads run one after another. -/
theorem reachable_all_returned (init : Nat → UInt64) :
    ∃ s, Reachable bm addr init s ∧ ∀ i, ∃ r, s.pc i = .returned r :=
  let ⟨s, hs, hdone, _⟩ := reachable_first_returned init n le_rfl
  ⟨s, hs, fun i => hdone i i.isLt⟩

end Threads

end Comet.SpaceBitmap
