import Comet.SpaceBitmap.Visit

/-!
# `sweep_walk` and `sweep_walk_color`

The two sweeps of a space bitmap.  `sweep_walk(live, mark, begin, end, callback)`
reports the objects that are live but not marked; `sweep_walk_color(live, begin,
end, callback, buffer_size, from, to)` calls `set_color(from, to)` on the header
of every live object and reports those on which it returned `true`.  Both load
whole bitmap words, from the word of `begin` to the word of `end - 1`, collect
addresses in a pointer buffer, and hand the buffer to the callback after each
non-zero word that leaves it at least `buffer_size - BITS_PER_INTPTR` entries
long, and once more at the end when it is not empty.

The callback gets `(n, buf)`; the model records the list of the `n` entries
of each call, in call order.  `set_color` is a parameter that acts on a world
`η` of headers.

There are four groups.

* The pointer buffer.  `PointerBuffer` holds the entries written since the
  last flush and the batches handed out; `written` is everything written, in
  order, and no flush changes it.
* The loop over the words.  `sweepWords` is the loop `for i in start..=end`
  shared by both walks; `sweepWords_hom` says what it computes in any view of
  its state that the flush does not change.
* The two walks and what they do: `sweepWalk_spec` and `sweepWalkColor_spec`.
  Both act on every set slot of the words the range touches, so on slots
  before `begin` and after `end` that share a word with the range.
* `cexLive` and `cexMark` are two one-word bitmaps on which `sweep_walk` of the
  second slot reports the first.
-/

universe u

namespace Comet.SpaceBitmap

variable {ALIGN : Nat} {η τ α : Type u}

/-! ## The pointer buffer -/

/-- The state of `pointer_buf`: the entries written since the last flush
(`pointer_buf[0..cur_pointer]`) and the batches handed to the callback so far. -/
structure PointerBuffer where
  pending : List Nat
  batches : List (List Nat)

namespace PointerBuffer

/-- The buffer as the walks start it: `cur_pointer = &mut pointer_buf[0]`. -/
def empty : PointerBuffer := ⟨[], []⟩

/-- `cur_pointer.write(p); cur_pointer = cur_pointer.add(1)`. -/
def write (b : PointerBuffer) (p : Nat) : PointerBuffer := { b with pending := b.pending ++ [p] }

/-- `if cur_pointer >= pointer_end { callback(..); cur_pointer = &mut pointer_buf[0] }`,
where `pointer_end` is `buffer_size - BITS_PER_INTPTR` entries past the start
of the buffer.  It is a signed offset: in a release build the subtraction
wraps, and `pointer_end` lies before the buffer. -/
def flushIfPast (b : PointerBuffer) (pointer_end : Int) : PointerBuffer :=
  if (b.pending.length : Int) ≥ pointer_end then ⟨[], b.batches ++ [b.pending]⟩ else b

/-- The last `if cur_pointer > &mut pointer_buf[0] { callback(..) }`: every batch
the callback receives. -/
def finish (b : PointerBuffer) : List (List Nat) :=
  if b.pending.length > 0 then b.batches ++ [b.pending] else b.batches

/-- Everything written to the buffer, in order. -/
def written (b : PointerBuffer) : List Nat := b.batches.flatten ++ b.pending

@[simp] theorem written_empty : empty.written = [] := rfl

@[simp] theorem written_write (b : PointerBuffer) (p : Nat) :
    (b.write p).written = b.written ++ [p] := by
  simp [write, written]

@[simp] theorem written_flushIfPast (b : PointerBuffer) (pointer_end : Int) :
    (b.flushIfPast pointer_end).written = b.written := by
  unfold flushIfPast
  split <;> simp [written]

theorem join_finish (b : PointerBuffer) : b.finish.flatten = b.written := by
  unfold finish
  split
  · simp [written]
  · simp_all [written]

/-- Writes keep the batches; the entries written land after the pending ones. -/
theorem foldl_write (b : PointerBuffer) (L : List Nat) :
    L.foldl write b = ⟨b.pending ++ L, b.batches⟩ := by
  induction L generalizing b with
  | nil => simp
  | cons p L ih => simp [ih, write]

end PointerBuffer

/-! ## The loop over the words -/

section Loop

variable (bm : SpaceBitmap ALIGN) (word : Nat → UInt64) (visit : τ → Nat → τ) (flush : τ → τ)

/-- One pass of `for i in start..=end` of both walks: when the loaded word `w`
of index `i` is not zero, run the do-while loop over its set bits and then
the flush check. -/
def sweepWord (i : Nat) (w : UInt64) (s : τ) : τ :=
  if w ≠ 0 then flush (visitWord bm visit i w s) else s

/-- The loop `for i in start..=end` over the words `word i`. -/
def sweepWords : List Nat → τ → τ
  | [], s => s
  | i :: rest, s => sweepWords rest (sweepWord bm visit flush i (word i) s)

/-- The set bits of a whole word are the set slots of the word. -/
theorem setBits_map_whole (i : Nat) :
    (word i).setBits.map (fun j => indexToOffset ALIGN i + bm.heapBegin + j * ALIGN) =
      markedAddrs bm word (64 * i) (64 * i + 64) :=
  setBits_map_eq_markedAddrs bm word i 0 64 (word i) (Nat.zero_le _) le_rfl
    (fun j hj => by simp [hj])

/-- A whole word carries the slot addresses of its set bits. -/
theorem visitWord_whole (i : Nat) (s : τ) :
    visitWord bm visit i (word i) s = (markedAddrs bm word (64 * i) (64 * i + 64)).foldl visit s :=
  visitWord_eq bm visit word i 0 64 (word i) (Nat.zero_le _) le_rfl
    (fun j hj => by simp [hj]) s

theorem markedAddrs_word_zero {i : Nat} (h : word i = 0) :
    markedAddrs bm word (64 * i) (64 * i + 64) = [] := by
  rw [← setBits_map_whole, h]
  simp [UInt64.setBits]

/-- In a view `π` of the state on which each visit acts as `f` and the flush
does nothing, the loop over the words `i, ..., i + n - 1` acts as `f` on the
set slot addresses of those words, in ascending order. -/
theorem sweepWords_hom (π : τ → α) (f : α → Nat → α) (hvisit : ∀ s a, π (visit s a) = f (π s) a)
    (hflush : ∀ s, π (flush s) = π s) (i n : Nat) (s : τ) :
    π (sweepWords bm word visit flush (List.range' i n) s) =
      (markedAddrs bm word (64 * i) (64 * (i + n))).foldl f (π s) := by
  induction n generalizing i s with
  | zero => simp [sweepWords]
  | succ n ih =>
    have hword : π (sweepWord bm visit flush i (word i) s) =
        (markedAddrs bm word (64 * i) (64 * i + 64)).foldl f (π s) := by
      unfold sweepWord
      split
      · rw [hflush, visitWord_whole, List.foldl_hom π _ _ _ _ fun x y => (hvisit x y).symm]
      · rename_i hz
        rw [markedAddrs_word_zero bm word (not_not.1 hz), List.foldl_nil]
    rw [List.range'_succ, sweepWords, ih, hword,
      markedAddrs_append bm word (show 64 * i ≤ 64 * i + 64 by omega)
        (show 64 * i + 64 ≤ 64 * (i + (n + 1)) by omega), List.foldl_append]
    congr 2
    omega

/-- An invariant that every word step keeps holds after the loop. -/
theorem sweepWords_induct (Inv : τ → Prop)
    (hstep : ∀ i s, Inv s → Inv (sweepWord bm visit flush i (word i) s)) :
    ∀ (is : List Nat) (s : τ), Inv s → Inv (sweepWords bm word visit flush is s)
  | [], _, hs => hs
  | i :: is, s, hs => sweepWords_induct Inv hstep is _ (hstep i s hs)

end Loop

/-! ## `sweep_walk` -/

/-- The slots of `live & !mark`. -/
theorem slotBit_and_not (live mark : Nat → UInt64) (k : Nat) :
    slotBit (fun i => live i &&& ~~~(mark i)) k = (slotBit live k && !slotBit mark k) := by
  simp [slotBit, Nat.mod_lt _ (by decide : 64 > 0)]

/-- `sweep_walk(live_bitmap, mark_bitmap, sweep_begin, sweep_end, callback)`: the
batches the callback receives.  The buffer has `size_of::<usize>() *
BITS_PER_INTPTR` entries, and each word is `live & !mark`. -/
def sweepWalk (live_bitmap mark_bitmap : SpaceBitmap ALIGN) (sweep_begin sweep_end : Nat) :
    List (List Nat) :=
  if sweep_end ≤ sweep_begin then [] else
  let buffer_size := 8 * BITS_PER_INTPTR
  let start := offsetToIndex ALIGN (sweep_begin - live_bitmap.heapBegin)
  let end_ := offsetToIndex ALIGN (sweep_end - live_bitmap.heapBegin - 1)
  let pointer_end : Int := buffer_size - BITS_PER_INTPTR
  (sweepWords live_bitmap (fun i => live_bitmap.bitmap i &&& ~~~(mark_bitmap.bitmap i))
    PointerBuffer.write (·.flushIfPast pointer_end) (List.range' start (end_ + 1 - start))
    PointerBuffer.empty).finish

/-- A word step of `sweep_walk` never hands out an empty batch. -/
theorem sweepWord_batches_ne_nil (bm : SpaceBitmap ALIGN) (word : Nat → UInt64)
    (pointer_end : Int) (i : Nat) (b : PointerBuffer) (hb : ∀ x ∈ b.batches, x ≠ []) :
    ∀ x ∈ (sweepWord bm PointerBuffer.write (·.flushIfPast pointer_end) i (word i) b).batches,
      x ≠ [] := by
  unfold sweepWord
  split
  · rename_i hw
    have hne : markedAddrs bm word (64 * i) (64 * i + 64) ≠ [] := fun h => by
      rw [← setBits_map_whole, List.map_eq_nil_iff] at h
      obtain ⟨j, hj, hbit⟩ := UInt64.exists_testBit_of_ne_zero hw
      exact List.not_mem_nil j (h ▸ UInt64.mem_setBits.2 ⟨hj, hbit⟩)
    rw [visitWord_whole, PointerBuffer.foldl_write]
    dsimp only [PointerBuffer.flushIfPast]
    split
    · simp only [List.mem_append, List.mem_singleton]
      rintro x (hx | rfl)
      · exact hb x hx
      · simp [hne]
    · exact hb
  · exact hb

/-- `sweep_walk` hands its callback, batch after batch, the slot addresses `A`
with `live.test(A)` and not `mark.test(A)` of every slot of the words from the
word of `sweep_begin` to the word of `sweep_end - 1`, in ascending order, and
never an empty batch. -/
theorem sweepWalk_spec (hA : 0 < ALIGN) (live mark : SpaceBitmap ALIGN)
    (hmark : mark.heapBegin = live.heapBegin) {sweep_begin sweep_end : Nat}
    (hb : live.heapBegin ≤ sweep_begin) (hlt : sweep_begin < sweep_end) :
    ∃ L : List Nat, L.Sorted (· < ·) ∧
      (∀ A, A ∈ L ↔ ∃ k, A = live.heapBegin + k * ALIGN ∧
        64 * offsetToIndex ALIGN (sweep_begin - live.heapBegin) ≤ k ∧
        k < 64 * (offsetToIndex ALIGN (sweep_end - live.heapBegin - 1) + 1) ∧
        live.test A = true ∧ mark.test A = false) ∧
      (sweepWalk live mark sweep_begin sweep_end).flatten = L ∧
      ∀ batch ∈ sweepWalk live mark sweep_begin sweep_end, batch ≠ [] := by
  set start := offsetToIndex ALIGN (sweep_begin - live.heapBegin)
  set end_ := offsetToIndex ALIGN (sweep_end - live.heapBegin - 1)
  have hse : start ≤ end_ := Nat.div_le_div_right (Nat.div_le_div_right (by omega))
  let word := fun i => live.bitmap i &&& ~~~(mark.bitmap i)
  have hwalk : sweepWalk live mark sweep_begin sweep_end =
      (sweepWords live word PointerBuffer.write (·.flushIfPast 448)
        (List.range' start (end_ + 1 - start)) PointerBuffer.empty).finish := by
    rw [sweepWalk, if_neg (by omega)]
    rfl
  have htest : ∀ (bm : SpaceBitmap ALIGN), bm.heapBegin = live.heapBegin → ∀ k,
      bm.test (live.heapBegin + k * ALIGN) = slotBit bm.bitmap k := fun bm h k =>
    h ▸ test_slotAddr hA bm k
  refine ⟨markedAddrs live word (64 * start) (64 * (end_ + 1)), markedAddrs_sorted live hA _ _ _,
    fun A => ?_, ?_, ?_⟩
  · rw [mem_markedAddrs]
    constructor
    · rintro ⟨k, h₀, h₁, hk, rfl⟩
      rw [slotBit_and_not, Bool.and_eq_true, Bool.not_eq_true'] at hk
      exact ⟨k, rfl, h₀, h₁, by rw [htest live rfl]; exact hk.1, by rw [htest mark hmark]; exact hk.2⟩
    · rintro ⟨k, rfl, h₀, h₁, hl, hm⟩
      rw [htest live rfl] at hl
      rw [htest mark hmark] at hm
      exact ⟨k, h₀, h₁, by rw [slotBit_and_not, hl, hm]; rfl, rfl⟩
  · rw [hwalk, PointerBuffer.join_finish,
      sweepWords_hom live word _ _ PointerBuffer.written (fun acc a => acc ++ [a])
        PointerBuffer.written_write (fun b => PointerBuffer.written_flushIfPast b 448),
      PointerBuffer.written_empty, foldl_append_singleton, List.nil_append]
    congr 2
    omega
  · have hinv := sweepWords_induct live word PointerBuffer.write (·.flushIfPast 448)
      (fun b => ∀ x ∈ b.batches, x ≠ []) (fun i b hb => sweepWord_batches_ne_nil live word 448 i b hb)
      (List.range' start (end_ + 1 - start)) PointerBuffer.empty (by simp [PointerBuffer.empty])
    rw [hwalk]
    unfold PointerBuffer.finish
    split
    · simp only [List.mem_append, List.mem_singleton]
      rintro x (hx | rfl)
      · exact hinv x hx
      · exact List.ne_nil_of_length_pos ‹_›
    · exact hinv

/-! ## `sweep_walk_color` -/

/-- One set bit of `sweep_walk_color`: `if (*object).set_color(from_color,
to_color) { cur_pointer.write(object); .. }`, with `set_color` acting on the
world `η` of headers. -/
def colorVisit (set_color : η → Nat → UInt8 → UInt8 → η × Bool) (from_color to_color : UInt8)
    (s : η × PointerBuffer) (object : Nat) : η × PointerBuffer :=
  let r := set_color s.1 object from_color to_color
  (r.1, if r.2 then s.2.write object else s.2)

/-- `sweep_walk_color(live_bitmap, sweep_begin, sweep_end, callback, buffer_size,
from_color, to_color)`: the world of headers after the walk and the batches the
callback receives, or `none` when `&mut pointer_buf[0]` panics on an empty
buffer. -/
def sweepWalkColor (live_bitmap : SpaceBitmap ALIGN) (sweep_begin sweep_end : Nat)
    (set_color : η → Nat → UInt8 → UInt8 → η × Bool) (buffer_size : Option Nat)
    (from_color to_color : UInt8) (h : η) : Option (η × List (List Nat)) :=
  if sweep_end ≤ sweep_begin then some (h, []) else
  let buffer_size := buffer_size.getD (8 * BITS_PER_INTPTR)
  let start := offsetToIndex ALIGN (sweep_begin - live_bitmap.heapBegin)
  let end_ := offsetToIndex ALIGN (sweep_end - live_bitmap.heapBegin - 1)
  if buffer_size = 0 then none else
  let pointer_end : Int := buffer_size - BITS_PER_INTPTR
  let s := sweepWords live_bitmap live_bitmap.bitmap (colorVisit set_color from_color to_color)
    (fun s => (s.1, s.2.flushIfPast pointer_end)) (List.range' start (end_ + 1 - start))
    (h, PointerBuffer.empty)
  some (s.1, s.2.finish)

/-- What a colour sweep over the addresses `L` is for: call `set_color` on the
header at each address, in order, and keep the addresses on which it
returned `true`. -/
def colorPass (set_color : η → Nat → η × Bool) (L : List Nat) (h : η) : η × List Nat :=
  L.foldl (fun s a => ((set_color s.1 a).1, if (set_color s.1 a).2 then s.2 ++ [a] else s.2))
    (h, [])

/-- Read through the world and the entries written, a set bit of the walk is
a step of `colorPass`. -/
theorem colorVisit_written (set_color : η → Nat → UInt8 → UInt8 → η × Bool)
    (from_color to_color : UInt8) (s : η × PointerBuffer) (a : Nat) :
    ((colorVisit set_color from_color to_color s a).1,
        (colorVisit set_color from_color to_color s a).2.written) =
      ((set_color s.1 a from_color to_color).1,
        if (set_color s.1 a from_color to_color).2 then s.2.written ++ [a] else s.2.written) := by
  unfold colorVisit
  split <;> simp_all

/-- With the default buffer or one of at least `BITS_PER_INTPTR` entries,
`sweep_walk_color` calls `set_color` on the header at each slot address with
`live.test(A)` of every slot of the words from the word of `sweep_begin` to
the word of `sweep_end - 1`, in ascending order and on no other header, and
its batches hold, in order, the addresses on which `set_color` returned
`true`. -/
theorem sweepWalkColor_spec (hA : 0 < ALIGN) (live : SpaceBitmap ALIGN)
    {sweep_begin sweep_end : Nat} (hb : live.heapBegin ≤ sweep_begin)
    (hlt : sweep_begin < sweep_end) (set_color : η → Nat → UInt8 → UInt8 → η × Bool)
    {buffer_size : Option Nat} (hbuf : ∀ n, buffer_size = some n → BITS_PER_INTPTR ≤ n)
    (from_color to_color : UInt8) (h : η) :
    ∃ L : List Nat, L.Sorted (· < ·) ∧
      (∀ A, A ∈ L ↔ ∃ k, A = live.heapBegin + k * ALIGN ∧
        64 * offsetToIndex ALIGN (sweep_begin - live.heapBegin) ≤ k ∧
        k < 64 * (offsetToIndex ALIGN (sweep_end - live.heapBegin - 1) + 1) ∧
        live.test A = true) ∧
      ∃ batches, sweepWalkColor live sweep_begin sweep_end set_color buffer_size from_color
          to_color h = some ((colorPass (fun h a => set_color h a from_color to_color) L h).1,
            batches) ∧
        batches.flatten = (colorPass (fun h a => set_color h a from_color to_color) L h).2 := by
  set start := offsetToIndex ALIGN (sweep_begin - live.heapBegin)
  set end_ := offsetToIndex ALIGN (sweep_end - live.heapBegin - 1)
  set n := buffer_size.getD (8 * BITS_PER_INTPTR)
  have hn : n ≠ 0 := by
    cases buffer_size with
    | none => decide
    | some m => have := hbuf m rfl; simp only [n, Option.getD_some, BITS_PER_INTPTR] at *; omega
  set s := sweepWords live live.bitmap (colorVisit set_color from_color to_color)
    (fun s => (s.1, s.2.flushIfPast (n - BITS_PER_INTPTR))) (List.range' start (end_ + 1 - start))
    (h, PointerBuffer.empty)
  have hwalk : sweepWalkColor live sweep_begin sweep_end set_color buffer_size from_color
      to_color h = some (s.1, s.2.finish) := by
    rw [sweepWalkColor, if_neg (by omega)]
    simp only [if_neg hn]
  have hpass := sweepWords_hom live live.bitmap (colorVisit set_color from_color to_color)
    (fun s => (s.1, s.2.flushIfPast (n - BITS_PER_INTPTR))) (fun s => (s.1, s.2.written))
    (fun s a => ((set_color s.1 a from_color to_color).1,
      if (set_color s.1 a from_color to_color).2 then s.2 ++ [a] else s.2))
    (colorVisit_written set_color from_color to_color)
    (fun s => by simp) start (end_ + 1 - start) (h, PointerBuffer.empty)
  rw [show start + (end_ + 1 - start) = end_ + 1 by
    have : start ≤ end_ := Nat.div_le_div_right (Nat.div_le_div_right (by omega))
    omega] at hpass
  have hworld : s.1 = (colorPass (fun h a => set_color h a from_color to_color)
      (markedAddrs live live.bitmap (64 * start) (64 * (end_ + 1))) h).1 :=
    congrArg Prod.fst hpass
  refine ⟨markedAddrs live live.bitmap (64 * start) (64 * (end_ + 1)),
    markedAddrs_sorted live hA _ _ _, fun A => ?_, s.2.finish, by rw [hwalk, hworld], ?_⟩
  · rw [mem_markedAddrs]
    constructor
    · rintro ⟨k, h₀, h₁, hk, rfl⟩
      exact ⟨k, rfl, h₀, h₁, (test_slotAddr hA live k).trans hk⟩
    · rintro ⟨k, rfl, h₀, h₁, hl⟩
      exact ⟨k, h₀, h₁, (test_slotAddr hA live k).symm.trans hl, rfl⟩
  · rw [PointerBuffer.join_finish]
    exact (congrArg Prod.snd hpass).trans (by rfl)

/-! ## The range a sweep acts on -/

/-- An offset below `64 * ALIGN * words` has its word below `words`. -/
theorem offsetToIndex_lt {words x : Nat} (hA : 0 < ALIGN) (h : x < 64 * ALIGN * words) :
    offsetToIndex ALIGN x < words := by
  rw [offsetToIndex, Nat.div_div_eq_div_mul, Nat.div_lt_iff_lt_mul (by unfold BITS_PER_INTPTR; omega)]
  calc x < 64 * ALIGN * words := h
    _ = words * (ALIGN * BITS_PER_INTPTR) := by rw [Nat.mul_comm, Nat.mul_comm 64]; rfl

/-- Both sweeps act on every set slot of the words that the range touches:
`sweep_walk` reports the live and unmarked ones, and `sweep_walk_color` calls
`set_color` on the live ones and reports those where it returned `true`, in
ascending order and each once.  For a range inside the heap that the bitmaps
cover, every word the sweeps load lies inside both bitmaps. -/
theorem sweepWalks_cover_touched_words (hA : 0 < ALIGN) (live mark : SpaceBitmap ALIGN)
    (hmark : mark.heapBegin = live.heapBegin) (hsize : mark.bitmapSize = live.bitmapSize)
    {sweep_begin sweep_end : Nat} (hb : live.heapBegin ≤ sweep_begin)
    (hlt : sweep_begin < sweep_end)
    (hend : sweep_end ≤ live.heapBegin + 64 * ALIGN * (live.bitmapSize / 8))
    (set_color : η → Nat → UInt8 → UInt8 → η × Bool) {buffer_size : Option Nat}
    (hbuf : ∀ n, buffer_size = some n → BITS_PER_INTPTR ≤ n) (from_color to_color : UInt8)
    (h : η) :
    (∃ L : List Nat, L.Sorted (· < ·) ∧
      (∀ A, A ∈ L ↔ ∃ k, A = live.heapBegin + k * ALIGN ∧
        64 * offsetToIndex ALIGN (sweep_begin - live.heapBegin) ≤ k ∧
        k < 64 * (offsetToIndex ALIGN (sweep_end - live.heapBegin - 1) + 1) ∧
        live.test A = true ∧ mark.test A = false) ∧
      (sweepWalk live mark sweep_begin sweep_end).flatten = L ∧
      ∀ batch ∈ sweepWalk live mark sweep_begin sweep_end, batch ≠ []) ∧
    (∃ L : List Nat, L.Sorted (· < ·) ∧
      (∀ A, A ∈ L ↔ ∃ k, A = live.heapBegin + k * ALIGN ∧
        64 * offsetToIndex ALIGN (sweep_begin - live.heapBegin) ≤ k ∧
        k < 64 * (offsetToIndex ALIGN (sweep_end - live.heapBegin - 1) + 1) ∧
        live.test A = true) ∧
      ∃ batches, sweepWalkColor live sweep_begin sweep_end set_color buffer_size from_color
          to_color h = some ((colorPass (fun h a => set_color h a from_color to_color) L h).1,
            batches) ∧
        batches.flatten = (colorPass (fun h a => set_color h a from_color to_color) L h).2) ∧
    offsetToIndex ALIGN (sweep_end - live.heapBegin - 1) < live.bitmapSize / 8 ∧
    offsetToIndex ALIGN (sweep_end - live.heapBegin - 1) < mark.bitmapSize / 8 := by
  have hlast : offsetToIndex ALIGN (sweep_end - live.heapBegin - 1) < live.bitmapSize / 8 :=
    offsetToIndex_lt hA (by omega)
  exact ⟨sweepWalk_spec hA live mark hmark hb hlt,
    sweepWalkColor_spec hA live hb hlt set_color hbuf from_color to_color h, hlast, hsize ▸ hlast⟩

/-- A one-word live bitmap with only its first slot set. -/
def cexLive : SpaceBitmap 16 where
  bitmap := fun i => if i = 0 then 1 else 0
  bitmapSize := 8
  heapBegin := 0x10000
  heapLimit := 0x10400

/-- An empty mark bitmap over the same heap. -/
def cexMark : SpaceBitmap 16 := { cexLive with bitmap := fun _ => 0 }

/-- The sweeps at `cexLive`, over the second slot alone, with a `set_color`
that logs the headers it is called on and always succeeds. -/
theorem sweepWalks_cover_touched_words_at_cexLive :
    (∃ L : List Nat, L.Sorted (· < ·) ∧
      (∀ A, A ∈ L ↔ ∃ k, A = cexLive.heapBegin + k * 16 ∧
        64 * offsetToIndex 16 (0x10010 - cexLive.heapBegin) ≤ k ∧
        k < 64 * (offsetToIndex 16 (0x10020 - cexLive.heapBegin - 1) + 1) ∧
        cexLive.test A = true ∧ cexMark.test A = false) ∧
      (sweepWalk cexLive cexMark 0x10010 0x10020).flatten = L ∧
      ∀ batch ∈ sweepWalk cexLive cexMark 0x10010 0x10020, batch ≠ []) ∧
    (∃ L : List Nat, L.Sorted (· < ·) ∧
      (∀ A, A ∈ L ↔ ∃ k, A = cexLive.heapBegin + k * 16 ∧
        64 * offsetToIndex 16 (0x10010 - cexLive.heapBegin) ≤ k ∧
        k < 64 * (offsetToIndex 16 (0x10020 - cexLive.heapBegin - 1) + 1) ∧
        cexLive.test A = true) ∧
      ∃ batches, sweepWalkColor cexLive 0x10010 0x10020
          (fun (log : List Nat) a _ _ => (log ++ [a], false)) none 0 1 [] =
          some ((colorPass (fun log a => (log ++ [a], false)) L []).1, batches) ∧
        batches.flatten = (colorPass (fun log a => (log ++ [a], false)) L []).2) ∧
      offsetToIndex 16 (0x10020 - cexLive.heapBegin - 1) < cexLive.bitmapSize / 8 ∧
      offsetToIndex 16 (0x10020 - cexLive.heapBegin - 1) < cexMark.bitmapSize / 8 :=
  sweepWalks_cover_touched_words (by decide) cexLive cexMark rfl rfl (by decide) (by decide)
    (by decide) (fun (log : List Nat) a _ _ => (log ++ [a], false)) (fun _ h => by cases h) 0 1 []

/-- Sweeping the second slot of `cexLive` alone reports its first slot, which
lies before `sweep_begin`, although the second slot is not live. -/
theorem sweepWalk_reports_before_begin :
    sweepWalk cexLive cexMark 0x10010 0x10020 = [[0x10000]] ∧ 0x10000 < 0x10010 ∧
      cexLive.test 0x10010 = false :=
  ⟨by decide, by decide, by decide⟩

end Comet.SpaceBitmap
