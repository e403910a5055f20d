import Comet.Safepoint.Basic

/-!
# What the protocol guarantees each thread

`inv_reachable` says that the lock, the collection and the count are
tokens.  This module reads four guarantees for a single thread off it, each
for every interleaving.

* `gc_running` mirrors ownership.  `Inv.gcRunning_eq_one_iff` is the
  token read as an equation, and `gcRunning_tracks_owner` adds that every
  thread at `start`'s `assert!(gc_running.load() == 1)` sees `1`, so the
  assertion never fails.
* `wait_gc` returns only when no collection runs.
  `waitGc_exits_only_unowned`: the step that leaves the spin loop loads
  `0`, and then no thread owns the collection.
* An initiating mutator never waits for itself.  `Pc.inScope` is the part
  of `SafepointScope::new(m)` and its `drop` after the store of `Waiting`;
  `inScope_step` is what one step does there, and `initiator_waiting` says
  that a registered mutator inside its own scope is `Waiting`, so every
  enumeration, its own included, finds it safe.
* The lock is held only briefly.  `lockRank` counts the holder's own steps
  to its `unlock()`; `lockRank_step` says that its own step lowers the rank
  or releases the lock, whatever state the others left; `lockRank_step_any`
  adds that the others' steps leave the rank alone, and
  `lock_released_within` lifts it to every schedule: the holder releases
  `safepoint_lock` within four of its own steps.
-/

namespace Comet.Safepoint

variable {n : Nat} {registered : Fin n → Bool} {s : State n}

/-! ## `gc_running` and the owner -/

/-- `gc_running` is `1` exactly while some thread owns the collection. -/
theorem Inv.gcRunning_eq_one_iff (hi : Inv s) :
    s.global.gcRunning = 1 ↔ ∃ t, (s.threads t).pc.isOwner = true := by
  rw [← hi.owner.flag_iff]
  rcases hi.running with h | h <;> simp [h]

/-- In every interleaving, `gc_running` is `1` while a thread owns the
collection (from its successful exchange to its store of `0` in `end`) and `0`
otherwise; so every thread that reaches `start`'s
`assert!(gc_running.load() == 1)` sees `1`. -/
theorem gcRunning_tracks_owner (h : Reachable registered s) :
    (s.global.gcRunning = 1 ↔ ∃ t, (s.threads t).pc.isOwner = true) ∧
      (s.global.gcRunning = 0 ↔ ∀ t, (s.threads t).pc.isOwner = false) ∧
      ∀ t, (s.threads t).pc = .startAssert → s.global.gcRunning = 1 := by
  have hi := inv_reachable h
  have hone := hi.gcRunning_eq_one_iff
  refine ⟨hone, ⟨fun h0 t => ?_, fun hnone => ?_⟩,
    fun t ht => hone.2 ⟨t, by rw [ht]; rfl⟩⟩
  · exact Bool.eq_false_iff.2 fun ho => by rw [hone.2 ⟨t, ho⟩] at h0; cases h0
  · refine hi.running.resolve_right fun h1 => ?_
    obtain ⟨t, ht⟩ := hone.1 h1
    rw [hnone t] at ht
    cases ht

theorem gcRunning_tracks_owner_race :
    (race.global.gcRunning = 1 ↔ ∃ t, (race.threads t).pc.isOwner = true) ∧
      (race.global.gcRunning = 0 ↔ ∀ t, (race.threads t).pc.isOwner = false) ∧
      ∀ t, (race.threads t).pc = .startAssert → race.global.gcRunning = 1 :=
  gcRunning_tracks_owner (reachable_run (.init _) _)

/-! ## Leaving `wait_gc` -/

/-- A step of `wait_gc` that leaves the loop (to the poll's `store Unsafe`,
to the restore of a failed `new(m)`, or to `new_no_mutator`'s `assert!`) loads
`0` from `gc_running`, in a state where no thread owns the collection. -/
theorem waitGc_exits_only_unowned (h : Reachable registered s) {t : Fin n}
    {inPoll second : Bool} (ht : (s.threads t).pc = .waitGc inPoll second) (act : Bool)
    (hexit : ∀ inPoll' second', (threadStep registered s t act).1.pc ≠ .waitGc inPoll' second') :
    s.global.gcRunning = 0 ∧ ∀ c, (s.threads c).pc.isOwner = false := by
  have hzero : s.global.gcRunning = 0 := by
    cases hd : doubleCheck second (decide (s.global.gcRunning = 0)) with
    | some second' =>
      exact absurd (by simp only [threadStep, poll, ht, hd]) (hexit inPoll second')
    | none => exact of_decide_eq_true (doubleCheck_eq_none.1 hd).1
  have hown := (inv_reachable h).owner
  rw [hzero] at hown
  exact ⟨hzero, hown.not_of_flag⟩

/-- The mutator of `spuriousMutator` after its failed exchange, at the second
load of `wait_gc`. -/
def waitingAlone : State 1 :=
  run (fun _ => true) spuriousMutator [(0, true), (0, false), (0, false)]

theorem waitGc_exits_only_unowned_waitingAlone :
    (waitingAlone.threads 0).pc = .waitGc false true ∧
      (∀ inPoll' second', (threadStep (fun _ => true) waitingAlone 0 false).1.pc ≠
        .waitGc inPoll' second') ∧
      waitingAlone.global.gcRunning = 0 ∧ ∀ c, (waitingAlone.threads c).pc.isOwner = false :=
  have hpc : (waitingAlone.threads 0).pc = .waitGc false true := by decide
  have hexit : ∀ inPoll' second', (threadStep (fun _ => true) waitingAlone 0 false).1.pc ≠
      .waitGc inPoll' second' := by decide
  ⟨hpc, hexit, waitGc_exits_only_unowned (reachable_run (reachable_run (.init _) _) _) hpc false
    hexit⟩

/-! ## The initiator inside its scope -/

/-- The program points of a thread after `SafepointScope::new(m)` has stored
`Waiting` and before the restore in `drop` (or after a failed `start`) has
stored the old state back: `start`, the `wait_gc` of a failed `start`, the
enumeration, the open scope, `end` and the restore itself. -/
def Pc.inScope : Pc → Bool
  | .startLock | .startCas | .startUnlockFail | .startAssert | .startEnable | .startUnlock
  | .enumerate _ _ | .scope | .endLock | .endDisable | .endStore | .endUnlock | .restore => true
  | .waitGc inPoll _ => !inPoll
  | _ => false

/-- A registered mutator's own step into its scope stores `Waiting`, and a
step inside the scope keeps its state. -/
theorem inScope_step {t : Fin n} (hreg : registered t = true) (act : Bool) :
    (threadStep registered s t act).1.pc.inScope = true →
      (threadStep registered s t act).1.state = .Waiting ∨
        ((s.threads t).pc.inScope = true ∧
          (threadStep registered s t act).1.state = (s.threads t).state) := by
  cases hp : (s.threads t).pc
  case waitGc inPoll second =>
    cases inPoll <;> simp only [threadStep, poll, hp, hreg] <;> (repeat' split) <;>
      first
      | exact fun h => .inr ⟨h, rfl⟩
      | exact fun h => Bool.noConfusion h
  all_goals
    simp only [threadStep, poll, hp, hreg]
    (repeat' split) <;> (try simp only [hp]) <;>
      first
      | exact fun _ => .inl trivial
      | exact fun h => .inr ⟨h, trivial⟩
      | exact fun h => Bool.noConfusion h
      | exact absurd trivial ‹¬True›

/-- Every registered mutator inside its own scope is `Waiting`. -/
def ScopeInv (registered : Fin n → Bool) (s : State n) : Prop :=
  ∀ t, registered t = true → (s.threads t).pc.inScope = true → (s.threads t).state = .Waiting

theorem scopeInv_step (h : ScopeInv registered s) (u : Fin n) (act : Bool) :
    ScopeInv registered (step registered s u act) := fun t hreg hin => by
  by_cases htu : t = u
  · subst htu
    rw [step_threads_self] at hin ⊢
    exact (inScope_step hreg act hin).elim id fun ⟨hin', hst⟩ => hst.trans (h t hreg hin')
  · rw [step_threads_other _ _ htu] at hin ⊢
    exact h t hreg hin

theorem scopeInv_reachable (h : Reachable registered s) : ScopeInv registered s := by
  induction h with
  | init state => exact fun _ _ hin => Bool.noConfusion hin
  | step u act _ ih => exact scopeInv_step ih u act

/-- In every interleaving, a registered mutator between the store of
`Waiting` in `SafepointScope::new(m)` and the restore of its old state is
`Waiting`, and so safe for a safepoint: the enumeration of its own scope, and
of any other, never spins on it. -/
theorem initiator_waiting (h : Reachable registered s) {t : Fin n} (hreg : registered t = true)
    (hin : (s.threads t).pc.inScope = true) :
    (s.threads t).state = .Waiting ∧ (s.threads t).state.safeForSafepoint = true := by
  have hw := scopeInv_reachable h t hreg hin
  exact ⟨hw, by rw [hw]; rfl⟩

theorem initiator_waiting_race :
    (race.threads 0).pc.inScope = true ∧
      (race.threads 0).state = .Waiting ∧ (race.threads 0).state.safeForSafepoint = true :=
  have hin : (race.threads 0).pc.inScope = true := by decide
  ⟨hin, initiator_waiting (reachable_run (.init _) _) rfl hin⟩

/-! ## How long the lock is held -/

/-- The holder's own steps to its `unlock()`: the successful path of `start`
is the exchange, the `assert!`, `enable` and the unlock; a failed exchange is
followed by the unlock; `end` is `disable`, the store of `0` and the unlock. -/
def lockRank : Pc → Nat
  | .startCas => 4
  | .startAssert | .endDisable => 3
  | .startEnable | .endStore => 2
  | .startUnlockFail | .startUnlock | .endUnlock => 1
  | _ => 0

theorem lockRank_pos_iff {p : Pc} : 0 < lockRank p ↔ p.holdsLock = true := by
  cases p <;> first | decide | exact ⟨fun h => absurd h (Nat.lt_irrefl 0), Bool.noConfusion⟩

theorem lockRank_le_four (p : Pc) : lockRank p ≤ 4 := by
  cases p <;> first | decide | exact Nat.zero_le 4

/-- The holder's own step, from any state that keeps the invariant, lowers its
rank or gives the lock back. -/
theorem lockRank_step (hi : Inv s) {t : Fin n} (ht : (s.threads t).pc.holdsLock = true)
    (act : Bool) :
    (threadStep registered s t act).1.pc.holdsLock = false ∨
      lockRank (threadStep registered s t act).1.pc < lockRank (s.threads t).pc := by
  have hassert : (s.threads t).pc = .startAssert → s.global.gcRunning = 1 :=
    fun hp => hi.gcRunning_eq_one_iff.2 ⟨t, by rw [hp]; rfl⟩
  cases hp : (s.threads t).pc <;> rw [hp] at ht <;> (try exact Bool.noConfusion ht) <;>
    simp only [threadStep, poll, hp] <;> (repeat' split) <;>
    first
    | exact .inl rfl
    | exact absurd (hassert hp) ‹_›
    | exact .inr (by simp [lockRank])

/-- The steps of `t` in a schedule that starts with `a`. -/
theorem filter_length_cons (t : Fin n) (a : Fin n × Bool) (sched : List (Fin n × Bool)) :
    ((a :: sched).filter fun a => a.1 = t).length =
      (sched.filter fun a => a.1 = t).length + if a.1 = t then 1 else 0 := by
  by_cases hat : a.1 = t <;> simp [List.filter_cons, hat]

/-- Any thread's step, from a reachable state where `t` holds the lock, lets
`t` release it (a step of `t` itself) or lowers `t`'s rank by one for a step
of `t` and by none for a step of another thread. -/
theorem lockRank_step_any (hs : Reachable registered s) {t : Fin n}
    (hl : (s.threads t).pc.holdsLock = true) (a : Fin n × Bool) :
    (((step registered s a.1 a.2).threads t).pc.holdsLock = false ∧ a.1 = t) ∨
      lockRank ((step registered s a.1 a.2).threads t).pc + (if a.1 = t then 1 else 0) ≤
        lockRank (s.threads t).pc := by
  by_cases hat : a.1 = t
  · have hself : (step registered s a.1 a.2).threads t = (threadStep registered s t a.2).1 := by
      rw [← hat, step_threads_self]
    rw [hself, if_pos hat]
    exact (@lockRank_step _ registered _ (inv_reachable hs) _ hl a.2).imp (⟨·, hat⟩) id
  · rw [step_threads_other _ _ (Ne.symm hat), if_neg hat]
    exact .inr (Nat.le_refl _)

/-- In every interleaving, a thread that holds `safepoint_lock` gives it back
within four of its own steps, whatever the other threads do in between: every
schedule in which it takes four steps has a prefix, with at most four of its
steps, after which it does not hold the lock. -/
theorem lock_released_within (h : Reachable registered s) (t : Fin n)
    (sched : List (Fin n × Bool)) (hk : 4 ≤ (sched.filter fun a => a.1 = t).length) :
    ∃ pre suf, sched = pre ++ suf ∧ (pre.filter fun a => a.1 = t).length ≤ 4 ∧
      ((run registered s pre).threads t).pc.holdsLock = false := by
  suffices key : ∀ (sched : List (Fin n × Bool)) (s : State n), Reachable registered s →
      lockRank (s.threads t).pc ≤ (sched.filter fun a => a.1 = t).length →
      ∃ pre suf, sched = pre ++ suf ∧
        (pre.filter fun a => a.1 = t).length ≤ lockRank (s.threads t).pc ∧
        ((run registered s pre).threads t).pc.holdsLock = false by
    obtain ⟨pre, suf, hsplit, hcount, hfree⟩ :=
      key sched s h (Nat.le_trans (lockRank_le_four _) hk)
    exact ⟨pre, suf, hsplit, Nat.le_trans hcount (lockRank_le_four _), hfree⟩
  intro sched
  induction sched with
  | nil =>
    intro s _ hk
    refine ⟨[], [], rfl, Nat.zero_le _, Bool.eq_false_iff.2 fun hl => ?_⟩
    have := lockRank_pos_iff.2 hl
    simp only [List.filter_nil, List.length_nil] at hk
    exact absurd hk (Nat.not_le_of_lt this)
  | cons a sched ih =>
    intro s hs hk
    by_cases hl : (s.threads t).pc.holdsLock = false
    · exact ⟨[], a :: sched, rfl, Nat.zero_le _, hl⟩
    have hl : (s.threads t).pc.holdsLock = true := by simpa using hl
    rw [filter_length_cons] at hk
    rcases lockRank_step_any hs hl a with ⟨hfree, hat⟩ | hle
    · refine ⟨[a], sched, rfl, ?_, hfree⟩
      rw [filter_length_cons, if_pos hat]
      exact lockRank_pos_iff.2 hl
    · obtain ⟨pre, suf, hsplit, hcount, hfree⟩ := ih _ (.step a.1 a.2 hs) (by omega)
      refine ⟨a :: pre, suf, by rw [hsplit]; rfl, ?_, hfree⟩
      rw [filter_length_cons]
      omega

/-- In `raceAtCas` mutator `1` holds the lock at its exchange; four of its
steps, interleaved with mutator `0`, free the lock. -/
theorem lock_released_within_raceAtCas :
    (raceAtCas.threads 1).pc.holdsLock = true ∧
      4 ≤ (([(1, false), (0, false), (1, false), (1, false), (0, false), (1, false)] :
        List (Fin 2 × Bool)).filter fun a => a.1 = 1).length ∧
      ∃ pre suf, ([(1, false), (0, false), (1, false), (1, false), (0, false), (1, false)] :
          List (Fin 2 × Bool)) = pre ++ suf ∧ (pre.filter fun a => a.1 = 1).length ≤ 4 ∧
        ((run (fun _ => true) raceAtCas pre).threads 1).pc.holdsLock = false :=
  have hk : 4 ≤ (([(1, false), (0, false), (1, false), (1, false), (0, false), (1, false)] :
      List (Fin 2 × Bool)).filter fun a => a.1 = 1).length := by decide
  ⟨by decide, hk, lock_released_within (reachable_run (.init _) _) 1 _ hk⟩

end Comet.Safepoint
