import Comet.Safepoint.Basic

/-!
# Stopping the world

A collector's enumeration loop waits, mutator by mutator, until each is
`safe_for_safepoint`.  The loop reads each mutator once, so it relies on a
mutator that it has seen safe staying safe until `end`.  That is what the
poll's load of `gc_running` is for: a mutator that stores `Safe` after the
exchange reads `1` and waits.  A mutator that read `0` just before the
exchange goes `Unsafe` anyway.

* `Pc.passed c i`: the enumeration at `c` has checked mutator `i`, and `end`
  has not stored `0`; `Pc.stopped`: the loop has finished.
* `StwInv`: every mutator that an enumeration has passed is safe, or `stale`:
  since its last store of a safe state it has read `gc_running = 0` (or
  stored it, ending its own collection), and it goes `Unsafe` next without
  another load.  `stwInv_reachable` proves it of every interleaving from the
  step lemmas: `threadStep_localEffect` sorts every action into a
  `LocalEffect` on the acting thread, whose `staleAt` and `safeOrStale` keep
  the invariant, and `passed_step` covers the enumeration.
* `LocalEffect.turnedStale`: a thread only turns stale where `gc_running` is
  `0`, or by its own store of `0`.
* `stopped_world_safe_or_stale`: while a collection is stopped, every mutator
  is safe or went stale before the collection's exchange, and
  `stopped_world_unsafe_mutator` is an interleaving in which one is `Unsafe`.
-/

namespace Comet.Safepoint

variable {n : Nat}

/-- The enumeration at this point has checked mutator `i` (or has finished),
and `end` has not stored `0` yet. -/
def Pc.passed : Pc → Nat → Bool
  | .enumerate i _, j => decide (j < i)
  | .scope, _ | .endLock, _ | .endDisable, _ | .endStore, _ => true
  | _, _ => false

/-- The enumeration has finished and `end` has not stored `0` yet. -/
def Pc.stopped : Pc → Bool
  | .scope | .endLock | .endDisable | .endStore => true
  | _ => false

/-- The thread's next store of its state is not preceded by a load of
`gc_running`. -/
def Pc.staleAt : Pc → Bool
  | .pollResume | .endUnlock | .restore => true
  | _ => false

theorem Pc.passed_of_stopped {p : Pc} (h : p.stopped = true) (i : Nat) : p.passed i = true := by
  cases p <;> first | rfl | exact Bool.noConfusion h

/-- What one action does to the acting thread's own fields: its program
point goes from `p` to `p'`, its state from `st` to `st'` and `stale` from `b`
to `b'`, with `gc_running = gc`. -/
inductive LocalEffect :
    Pc → Pc → ThreadState → ThreadState → Bool → Bool → UInt32 → Prop
  /-- State and `stale` stay, and a stale point is entered only from one. -/
  | move {p p' st b gc} : p'.staleAt = false ∨ p.staleAt = true → LocalEffect p p' st st b b gc
  /-- A load of `0` from `gc_running`, or `end`'s own store of `0`. -/
  | turnStale {p p' st b gc} : gc = 0 ∨ p = .endStore → LocalEffect p p' st st b true gc
  /-- A store of a safe state, after which the thread is not stale. -/
  | storeSafe {p p' st st' b gc} : st'.safeForSafepoint = true → p'.staleAt = false →
      LocalEffect p p' st st' b false gc
  /-- A store of any state at a stale point. -/
  | storeAtStale {p p' st st' b gc} : p.staleAt = true → p'.staleAt = false →
      LocalEffect p p' st st' b b gc

/-- Every action of `threadStep` is one of the `LocalEffect`s on the thread that
takes it. -/
theorem threadStep_localEffect (registered : Fin n → Bool) (s : State n) (t : Fin n)
    (act : Bool) :
    LocalEffect (s.threads t).pc (threadStep registered s t act).1.pc (s.threads t).state
      (threadStep registered s t act).1.state (s.threads t).stale
      (threadStep registered s t act).1.stale s.global.gcRunning := by
  cases hp : (s.threads t).pc <;> simp only [threadStep, poll, hp] <;> (repeat' split) <;>
    (try simp only [hp]) <;> first
    | exact .move (.inl rfl)
    | exact .move (.inr rfl)
    | exact .turnStale (.inl ‹_›)
    | exact .turnStale (.inl (of_decide_eq_true (doubleCheck_eq_none.1 ‹_›).1))
    | exact .turnStale (.inr rfl)
    | exact .storeSafe rfl rfl
    | exact .storeAtStale rfl rfl

namespace LocalEffect

variable {p p' : Pc} {st st' : ThreadState} {b b' : Bool} {gc : UInt32}

/-- The steps into `pollResume`, `endUnlock` and `restore` set `stale`. -/
theorem staleAt (h : LocalEffect p p' st st' b b' gc) (hat : p.staleAt = true → b = true) :
    p'.staleAt = true → b' = true := by
  cases h with
  | move hp => exact hp.elim (fun h' h => Bool.noConfusion (h'.symm.trans h)) fun h _ => hat h
  | turnStale => exact fun _ => rfl
  | storeSafe _ hp | storeAtStale _ hp => exact fun h => Bool.noConfusion (hp.symm.trans h)

/-- A thread's own step keeps it safe or stale: it only stores `Unsafe` at a
stale point. -/
theorem safeOrStale (h : LocalEffect p p' st st' b b' gc) (hat : p.staleAt = true → b = true)
    (hs : st.safeForSafepoint = true ∨ b = true) : st'.safeForSafepoint = true ∨ b' = true := by
  cases h with
  | move => exact hs
  | storeSafe hst => exact .inl hst
  | turnStale => exact .inr rfl
  | storeAtStale hp => exact .inr (hat hp)

/-- A thread turns stale only by loading `0` from `gc_running`, or by its own
store of `0`. -/
theorem turnedStale (h : LocalEffect p p' st st' b b' gc) (hb' : b' = true) (hb : b = false) :
    gc = 0 ∨ p = .endStore := by
  cases h with
  | turnStale hc => exact hc
  | move | storeAtStale => exact Bool.noConfusion (hb.symm.trans hb')
  | storeSafe => exact Bool.noConfusion hb'

end LocalEffect

section Steps

variable {registered : Fin n → Bool} {s : State n} {t : Fin n} {act : Bool}

/-- The enumeration passes a registered mutator only right after loading a
safe state from it. -/
theorem passed_step {m : Fin n} (hm : registered m = true)
    (h : (threadStep registered s t act).1.pc.passed m.val = true) :
    (s.threads t).pc.passed m.val = true ∨ (s.threads m).state.safeForSafepoint = true := by
  cases hp : (s.threads t).pc
  case enumerate i second =>
    simp only [threadStep, poll, hp, Pc.passed, decide_eq_true_eq] at h ⊢
    by_cases hi : i < n
    · have hnext : m.val < i + 1 → m.val < i ∨ m = ⟨i, hi⟩ := fun h' =>
        (Nat.lt_succ_iff_lt_or_eq.1 h').imp_right Fin.ext
      rw [dif_pos hi] at h
      by_cases hr : registered ⟨i, hi⟩ = true
      · rw [if_pos hr] at h
        cases hd : doubleCheck second (s.threads ⟨i, hi⟩).state.safeForSafepoint <;>
          simp only [hd, Pc.passed, decide_eq_true_eq] at h
        · exact (hnext h).imp_right fun (he : m = ⟨i, hi⟩) =>
            he ▸ (doubleCheck_eq_none.1 hd).1
        · exact .inl h
      · rw [if_neg hr] at h
        simp only [Pc.passed, decide_eq_true_eq] at h
        exact .inl ((hnext h).resolve_right fun he => hr (he ▸ hm))
    · exact .inl (Nat.lt_of_lt_of_le m.isLt (Nat.le_of_not_lt hi))
  all_goals simp only [threadStep, poll, hp] at h; (repeat' split at h) <;> simp_all [Pc.passed]

end Steps

/-! ## The invariant -/

/-- Every stale point carries `stale`, and every registered mutator that an
enumeration has passed is safe or stale. -/
structure StwInv (registered : Fin n → Bool) (s : State n) : Prop where
  stale_at : ∀ t, (s.threads t).pc.staleAt = true → (s.threads t).stale = true
  passed : ∀ c m, registered m = true → (s.threads c).pc.passed m.val = true →
    (s.threads m).state.safeForSafepoint = true ∨ (s.threads m).stale = true

variable {registered : Fin n → Bool} {s : State n}

theorem stwInv_init (state : Fin n → ThreadState) : StwInv registered (init state) := by
  constructor <;> simp [init, Pc.staleAt, Pc.passed]

theorem stwInv_step (h : StwInv registered s) (t : Fin n) (act : Bool) :
    StwInv registered (step registered s t act) := by
  have he := threadStep_localEffect registered s t act
  have hown : ∀ m, (s.threads m).state.safeForSafepoint = true ∨ (s.threads m).stale = true →
      ((step registered s t act).threads m).state.safeForSafepoint = true ∨
        ((step registered s t act).threads m).stale = true := fun m hm => by
    by_cases hmt : m = t
    · subst hmt; simpa using he.safeOrStale (h.stale_at m) hm
    · simpa [hmt] using hm
  refine ⟨fun u hu => ?_, fun c m hm hc => hown m ?_⟩
  · by_cases hut : u = t
    · subst hut; simp only [step_threads_self] at hu ⊢; exact he.staleAt (h.stale_at u) hu
    · simp only [step_threads_other _ _ hut] at hu ⊢; exact h.stale_at u hu
  · by_cases hct : c = t
    · subst hct
      rw [step_threads_self] at hc
      exact (passed_step hm hc).elim (h.passed c m hm) .inl
    · rw [step_threads_other _ _ hct] at hc
      exact h.passed c m hm hc

theorem stwInv_reachable (h : Reachable registered s) : StwInv registered s := by
  induction h with
  | init state => exact stwInv_init state
  | step t act _ ih => exact stwInv_step ih t act

/-- While a collection is stopped (its enumeration has finished and `end` has
not stored `0`), every registered mutator is safe for a safepoint or stale;
and while a thread owns the collection, a step turns a thread stale only if it
is the owner's own store of `0`, so a stale mutator turned stale before the
owner's exchange. -/
theorem stopped_world_safe_or_stale :
    (∀ s, Reachable registered s → ∀ c m, (s.threads c).pc.stopped = true →
      registered m = true →
        (s.threads m).state.safeForSafepoint = true ∨ (s.threads m).stale = true) ∧
    (∀ s, Reachable registered s → ∀ c, (s.threads c).pc.isOwner = true → ∀ t act m,
      ((step registered s t act).threads m).stale = true →
        (s.threads m).stale = true ∨ (m = c ∧ (s.threads c).pc = .endStore)) := by
  refine ⟨fun s h c m hc hm => (stwInv_reachable h).passed c m hm (Pc.passed_of_stopped hc _),
    fun s h c hc t act m hst => ?_⟩
  by_cases hmt : m = t
  · subst hmt
    cases hs : (s.threads m).stale
    · have hi := inv_reachable h
      rcases (threadStep_localEffect registered s m act).turnedStale (by simpa using hst) hs with
        hg | he
      · simpa [hg] using hi.owner.flag_of hc
      · obtain rfl := hi.owner.unique m c (by rw [he]; rfl) hc
        exact .inr ⟨rfl, he⟩
    · exact .inl rfl
  · exact .inl (by simpa [hmt] using hst)

/-- Mutator `0` polls and reads `gc_running = 0`; then mutator `1` opens a
scope, its enumeration sees mutator `0` `Safe` and finishes, and mutator `0`
goes back to `Unsafe`. -/
def unsafeAfterStop : State 2 :=
  run (fun _ => true) (init fun _ => .Unsafe)
    ([(0, false), (0, false), (1, true)] ++ List.replicate 10 (1, false) ++ [(0, false)])

theorem stopped_world_safe_or_stale_unsafeAfterStop :
    (unsafeAfterStop.threads 0).state.safeForSafepoint = true ∨
      (unsafeAfterStop.threads 0).stale = true :=
  stopped_world_safe_or_stale.1 _ (reachable_run (.init _) _) 1 0 (by decide) rfl

/-- The world is stopped by mutator `1` and mutator `0` is `Unsafe`. -/
theorem stopped_world_unsafe_mutator :
    (unsafeAfterStop.threads 1).pc.stopped = true ∧ unsafeAfterStop.global.gcRunning = 1 ∧
      (unsafeAfterStop.threads 0).state = .Unsafe := by
  decide

end Comet.Safepoint
