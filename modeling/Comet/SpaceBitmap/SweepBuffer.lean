import Comet.SpaceBitmap.Sweep
import Comet.SpaceBitmap.ClearRange

/-!
# The pointer buffer of the sweeps stays in bounds

Both sweeps write the addresses they report to a buffer of `buffer_size`
entries and flush it after a non-zero word once `cur_pointer` has reached
`pointer_end`, `buffer_size - BITS_PER_INTPTR` entries past its start.  A
word writes at most 64 entries, so a buffer of at least 64 entries is never
overrun: after each flush check fewer than `buffer_size - 64` entries are
pending.  The entries of a batch are the entries written since the last
flush, so a batch of `k` entries is a write at index `k - 1`, and the bound
on the batches is the bound on the indices written.

* `WritesAtMostOne`: a visit keeps the batches and writes at most one entry;
  `visitWord_writes` bounds a word by 64 entries.
* `Fits n`: every batch has at most `n` entries and 64 more entries fit in
  the pending ones.  `sweepWords_fits` keeps it over any run of words.
* `sweepWalkColor_buffer_bound`: `sweep_walk_color` with `Some(n)` keeps every
  batch within `n` entries for every bitmap, range and `set_color` iff `n = 0`
  (where `&mut pointer_buf[0]` panics before the first write) or `n ≥ 64`;
  and `sweep_walk` keeps every batch within its 512 entries.
  `sweepWalkColor_overruns` is the run that overruns a buffer of `1 ≤ n < 64`
  entries (with `visitWord_alwaysTrue`: a `set_color` that always succeeds
  writes every set bit of a word), and `sweepWalkColor_zero_buffer_safe` the
  reason `n = 0` is safe.
-/

universe u

namespace Comet.SpaceBitmap

variable {ALIGN : Nat} {τ : Type u}

/-! ## Writes of one word -/

/-- A visit that keeps the batches of the buffer and writes at most one entry. -/
def WritesAtMostOne (buf : τ → PointerBuffer) (visit : τ → Nat → τ) : Prop :=
  ∀ s a, (buf (visit s a)).batches = (buf s).batches ∧
    (buf (visit s a)).pending.length ≤ (buf s).pending.length + 1

section Writes

variable {buf : τ → PointerBuffer} {visit : τ → Nat → τ}

theorem foldl_writes (h : WritesAtMostOne buf visit) :
    ∀ (L : List Nat) (s : τ), (buf (L.foldl visit s)).batches = (buf s).batches ∧
      (buf (L.foldl visit s)).pending.length ≤ (buf s).pending.length + L.length
  | [], _ => ⟨rfl, Nat.le_refl _⟩
  | a :: L, s => by
    obtain ⟨h₁, h₂⟩ := foldl_writes h L (visit s a)
    obtain ⟨h₃, h₄⟩ := h s a
    exact ⟨h₁.trans h₃, by simp only [List.foldl_cons, List.length_cons]; omega⟩

/-- A word writes at most 64 entries. -/
theorem visitWord_writes (bm : SpaceBitmap ALIGN) (h : WritesAtMostOne buf visit) (i : Nat)
    (w : UInt64) (s : τ) :
    (buf (visitWord bm visit i w s)).batches = (buf s).batches ∧
      (buf (visitWord bm visit i w s)).pending.length ≤ (buf s).pending.length + 64 := by
  unfold visitWord
  split
  · rw [forEachSetBit_eq _ s ‹_› (setBits_length_le w)]
    obtain ⟨h₁, h₂⟩ := @foldl_writes _ buf (fun s shift =>
      visit s (indexToOffset ALIGN i + bm.heapBegin + shift * ALIGN)) (fun s _ => h s _) w.setBits s
    exact ⟨h₁, h₂.trans (Nat.add_le_add_left (setBits_length_le w) _)⟩
  · exact ⟨rfl, Nat.le_add_right _ _⟩

end Writes

/-! ## The invariant of the buffer -/

/-- Every batch has at most `n` entries, and 64 more entries fit after the
pending ones. -/
def Fits (n : Nat) (b : PointerBuffer) : Prop :=
  (∀ x ∈ b.batches, x.length ≤ n) ∧ b.pending.length + 64 ≤ n

/-- After a word, the flush check restores `Fits n` for a buffer of at least
64 entries: either it hands out the pending entries, or fewer than `n - 64`
are pending. -/
theorem fits_flushIfPast {n : Nat} (hn : BITS_PER_INTPTR ≤ n) {b : PointerBuffer}
    (hb : ∀ x ∈ b.batches, x.length ≤ n) (hp : b.pending.length ≤ n) :
    Fits n (b.flushIfPast ((n : Int) - BITS_PER_INTPTR)) := by
  unfold PointerBuffer.flushIfPast BITS_PER_INTPTR at *
  split
  · refine ⟨fun x hx => ?_, by simpa using hn⟩
    rcases List.mem_append.1 hx with hx | hx
    · exact hb x hx
    · rw [List.mem_singleton.1 hx]; exact hp
  · exact ⟨hb, by omega⟩

theorem finish_fits {n : Nat} {b : PointerBuffer} (h : Fits n b) :
    ∀ x ∈ b.finish, x.length ≤ n := by
  unfold PointerBuffer.finish
  split
  · intro x hx
    rcases List.mem_append.1 hx with hx | hx
    · exact h.1 x hx
    · rw [List.mem_singleton.1 hx]; have := h.2; omega
  · exact h.1

section Run

variable (bm : SpaceBitmap ALIGN) (word : Nat → UInt64) {buf : τ → PointerBuffer}
  {visit : τ → Nat → τ} {flush : τ → τ} {n : Nat}

/-- Every run of words keeps `Fits n`. -/
theorem sweepWords_fits (hvisit : WritesAtMostOne buf visit)
    (hflush : ∀ s, buf (flush s) = (buf s).flushIfPast ((n : Int) - BITS_PER_INTPTR))
    (hn : BITS_PER_INTPTR ≤ n) (is : List Nat) (s : τ) (hs : Fits n (buf s)) :
    Fits n (buf (sweepWords bm word visit flush is s)) :=
  sweepWords_induct bm word visit flush (fun s => Fits n (buf s)) (fun i s hs => by
    unfold sweepWord
    split
    · obtain ⟨h₁, h₂⟩ := visitWord_writes bm hvisit i (word i) s
      rw [hflush]
      exact fits_flushIfPast hn (h₁ ▸ hs.1) (by have := hs.2; omega)
    · exact hs) is s hs

end Run

/-! ## The two walks -/

section Walks

variable {η : Type u}

theorem colorVisit_writes (set_color : η → Nat → UInt8 → UInt8 → η × Bool)
    (from_color to_color : UInt8) :
    WritesAtMostOne Prod.snd (colorVisit set_color from_color to_color) := fun s a => by
  unfold colorVisit
  dsimp only
  split <;> simp [PointerBuffer.write]

theorem write_writes : WritesAtMostOne id PointerBuffer.write := fun s a => by
  simp [PointerBuffer.write]

/-- `sweep_walk_color` with a buffer of at least 64 entries hands out batches
of at most `buffer_size` entries. -/
theorem sweepWalkColor_fits {n : Nat} (hn : BITS_PER_INTPTR ≤ n) (live : SpaceBitmap ALIGN)
    (sweep_begin sweep_end : Nat) (set_color : η → Nat → UInt8 → UInt8 → η × Bool)
    (from_color to_color : UInt8) (h : η) {r : η × List (List Nat)}
    (hr : sweepWalkColor live sweep_begin sweep_end set_color (some n) from_color to_color h =
      some r) :
    ∀ batch ∈ r.2, batch.length ≤ n := by
  unfold sweepWalkColor at hr
  split at hr
  · cases hr; intro _ hb; cases hb
  · have hn0 : n ≠ 0 := by unfold BITS_PER_INTPTR at hn; omega
    simp only [Option.getD_some, if_neg hn0, Option.some.injEq] at hr
    subst hr
    exact finish_fits (sweepWords_fits live live.bitmap (colorVisit_writes set_color _ _)
      (fun _ => rfl) hn _ _ ⟨(fun _ h => nomatch h), by unfold BITS_PER_INTPTR at hn; exact hn⟩)

/-- With `Some(0)`, `sweep_walk_color` returns at once on an empty range and
otherwise panics at `&mut pointer_buf[0]`, before any write. -/
theorem sweepWalkColor_some_zero (live : SpaceBitmap ALIGN) (sweep_begin sweep_end : Nat)
    (set_color : η → Nat → UInt8 → UInt8 → η × Bool) (from_color to_color : UInt8) (h : η) :
    sweepWalkColor live sweep_begin sweep_end set_color (some 0) from_color to_color h =
      if sweep_end ≤ sweep_begin then some (h, []) else none := by
  unfold sweepWalkColor
  split <;> simp

/-- `sweep_walk` hands out batches of at most its 512 entries. -/
theorem sweepWalk_fits (live mark : SpaceBitmap ALIGN) (sweep_begin sweep_end : Nat) :
    ∀ batch ∈ sweepWalk live mark sweep_begin sweep_end, batch.length ≤ 8 * BITS_PER_INTPTR := by
  unfold sweepWalk
  split
  · intro _ hb; cases hb
  · exact finish_fits (sweepWords_fits live _ write_writes (fun _ => rfl)
      (by decide) _ _ ⟨(fun _ h => nomatch h), by decide⟩)

end Walks

/-- A `set_color` that always returns `true`. -/
def alwaysTrue : Unit → Nat → UInt8 → UInt8 → Unit × Bool := fun _ _ _ _ => ((), true)

/-- With `alwaysTrue`, every visit writes its address. -/
theorem foldl_colorVisit_alwaysTrue (from_color to_color : UInt8) :
    ∀ (L : List Nat) (b : PointerBuffer),
      L.foldl (colorVisit alwaysTrue from_color to_color) ((), b) =
        ((), { b with pending := b.pending ++ L })
  | [], b => by rw [List.append_nil]; rfl
  | a :: L, b => by
    rw [List.foldl_cons, show colorVisit alwaysTrue from_color to_color ((), b) a =
      ((), b.write a) from rfl, foldl_colorVisit_alwaysTrue]
    simp [PointerBuffer.write]

/-- With `alwaysTrue`, a non-zero word writes the address of each of its set
bits. -/
theorem visitWord_alwaysTrue (bm : SpaceBitmap ALIGN) (from_color to_color : UInt8) (i : Nat)
    {w : UInt64} (hw : w ≠ 0) (b : PointerBuffer) :
    visitWord bm (colorVisit alwaysTrue from_color to_color) i w ((), b) =
      ((), { b with pending := b.pending ++
        w.setBits.map fun shift => indexToOffset ALIGN i + bm.heapBegin + shift * ALIGN }) := by
  rw [visitWord, if_pos hw, forEachSetBit_eq _ _ hw (setBits_length_le w), ← List.foldl_map,
    foldl_colorVisit_alwaysTrue]

/-- With a buffer of `1 ≤ n < 64` entries, `pointer_end` lies before the buffer
and a full word of successful `set_color` calls writes 64 entries before the
flush check. -/
theorem sweepWalkColor_overruns {n : Nat} (h1 : 0 < n) (h64 : n < BITS_PER_INTPTR) :
    ∃ r, sweepWalkColor fullTwoWords 0x10000 0x10010 alwaysTrue (some n) 0 1 () = some r ∧
      ∃ batch ∈ r.2, n < batch.length := by
  have hfull : (fullTwoWords.bitmap 0).setBits = List.range 64 := by decide
  have hword := visitWord_alwaysTrue fullTwoWords 0 1 0
    (by decide : fullTwoWords.bitmap 0 ≠ 0) ⟨[], []⟩
  rw [hfull] at hword
  refine ⟨((), [(List.range 64).map fun shift =>
      indexToOffset 16 0 + fullTwoWords.heapBegin + shift * 16]), ?_, _,
    List.mem_singleton_self _, by
      simp only [List.length_map, List.length_range]; unfold BITS_PER_INTPTR at h64; omega⟩
  have h₀ : offsetToIndex 16 (0x10000 - fullTwoWords.heapBegin) = 0 := by decide
  have h₁ : offsetToIndex 16 (0x10010 - fullTwoWords.heapBegin - 1) = 0 := by decide
  have hflush : ((64 : Nat) : Int) ≥ (n : Int) - BITS_PER_INTPTR := by
    unfold BITS_PER_INTPTR at *; omega
  simp only [sweepWalkColor, Option.getD_some, if_neg (Nat.pos_iff_ne_zero.1 h1),
    if_neg (by decide : ¬ 0x10010 ≤ 0x10000), h₀, h₁,
    show List.range' 0 (0 + 1 - 0) = [0] from rfl, sweepWords, sweepWord, PointerBuffer.empty, hword]
  simp only [if_pos (by decide : fullTwoWords.bitmap 0 ≠ 0), PointerBuffer.flushIfPast,
    List.nil_append, List.length_map, List.length_range, if_pos hflush, PointerBuffer.finish]
  rfl

/-- `sweep_walk_color` with `Some(n)` writes only entries `0..n` of its buffer
and hands out batches of at most `n` entries, for every bitmap, range and
`set_color`, iff `n = 0`, where `&mut pointer_buf[0]` panics before any write,
or `n ≥ 64`; `sweep_walk` never overruns its buffer of
`size_of::<usize>() * BITS_PER_INTPTR` entries. -/
theorem sweepWalkColor_buffer_bound (n : Nat) :
    ((∀ (ALIGN : Nat) (live : SpaceBitmap ALIGN) (sweep_begin sweep_end : Nat) (η : Type)
        (set_color : η → Nat → UInt8 → UInt8 → η × Bool) (from_color to_color : UInt8) (h : η)
        (r : η × List (List Nat)),
        sweepWalkColor live sweep_begin sweep_end set_color (some n) from_color to_color h =
          some r → ∀ batch ∈ r.2, batch.length ≤ n) ↔ n = 0 ∨ BITS_PER_INTPTR ≤ n) ∧
      ∀ (ALIGN : Nat) (live mark : SpaceBitmap ALIGN) (sweep_begin sweep_end : Nat),
        ∀ batch ∈ sweepWalk live mark sweep_begin sweep_end,
          batch.length ≤ 8 * BITS_PER_INTPTR := by
  refine ⟨⟨fun hall => ?_, ?_⟩, fun _ => sweepWalk_fits⟩
  · by_contra hn
    obtain ⟨r, hr, batch, hb, hlt⟩ := @sweepWalkColor_overruns n (by omega) (by omega)
    exact absurd (hall 16 _ _ _ _ _ _ _ _ _ hr batch hb) (by omega)
  · rintro (rfl | hn) ALIGN live sweep_begin sweep_end η set_color from_color to_color h r hr
    · rw [sweepWalkColor_some_zero] at hr
      split at hr
      · cases hr; intro _ hb; cases hb
      · cases hr
    · exact sweepWalkColor_fits hn live sweep_begin sweep_end set_color from_color to_color h hr

/-- A buffer of `0` entries is never overrun, although `0 < 64`: every call
with `Some(0)` hands out no batch. -/
theorem sweepWalkColor_zero_buffer_safe :
    (∀ (ALIGN : Nat) (live : SpaceBitmap ALIGN) (sweep_begin sweep_end : Nat) (η : Type)
        (set_color : η → Nat → UInt8 → UInt8 → η × Bool) (from_color to_color : UInt8) (h : η)
        (r : η × List (List Nat)),
        sweepWalkColor live sweep_begin sweep_end set_color (some 0) from_color to_color h =
          some r → r.2 = []) ∧ ¬ BITS_PER_INTPTR ≤ 0 := by
  refine ⟨fun ALIGN live sweep_begin sweep_end η set_color from_color to_color h r hr => ?_,
    by decide⟩
  rw [sweepWalkColor_some_zero] at hr
  split at hr
  · cases hr; rfl
  · cases hr

end Comet.SpaceBitmap
