import Mathlib.Logic.Function.Basic

/-!
# The global safepoint

`GlobalSafepoint` is shared by every thread: `safepoint_lock` (a
`parking_lot` mutex), `safepoint_enable_cnt` (a `u8` that only the holder of
the lock changes), and `gc_running` (an `AtomicU32`).  A collector runs
`SafepointScope::new(m)` (an initiating mutator) or `new_no_mutator`, which
call `start()`, spin over `href.mutators()` until each is safe for a
safepoint, and call `end()` when the scope is dropped.  Mutators poll as spec
section 4.5 says (`mutator.rs` is not among the sources).

* `Pc` is a thread's program point: one constructor per atomic action of
  `start`, `end`, `wait_gc`, the enumeration loop, the poll, and the restore
  of the initiator's state; `threadStep` is one action of one thread and
  `step` puts it back into the state of all threads.
* Both spin loops (`wait_gc`, and the enumeration's wait for one mutator)
  have the shape `while !c(load Relaxed) || !c(load Acquire)`: `doubleCheck`
  is one load of it.
* `Token` says that at most one thread has a role and a flag says whether
  one does.  The lock, `gc_running` and `safepoint_enable_cnt` are tokens:
  `Token.update` is what one step does to a token.  `threadStep_effect` sorts
  every action into an `Effect` on the global safepoint, and
  `Effect.lockMove`, `Effect.ownerMove` and `Effect.enabledMove` say which
  move each makes.
* `inv_reachable`: every reachable state keeps the three tokens, so
  `gc_running` and `safepoint_enable_cnt` stay `0` or `1`
  (`safepoint_mutual_exclusion`).
* `start_fails_only_while_owned`: an exchange that fails without failing
  spuriously finds another thread owning the collection.  A spurious failure
  of `compare_exchange_weak` needs none: `start_fails_spuriously_alone` is a
  thread alone whose `start` returns `false`.
-/

namespace Comet.Safepoint

/-- `ThreadState` of a mutator, as spec section 4.5 lists it. -/
inductive ThreadState
  | Unsafe
  | Safe
  | Waiting
  | Parked
deriving DecidableEq, Repr

/-- `safe_for_safepoint`: every state but `Unsafe`. -/
def ThreadState.safeForSafepoint : ThreadState → Bool
  | .Unsafe => false
  | _ => true

/-- The fields of `GlobalSafepoint` that the protocol reads; `n_mutators` is
only printed. -/
structure GlobalSafepoint where
  safepointLock : Bool
  safepointEnableCnt : UInt8
  gcRunning : UInt32
deriving DecidableEq, Repr

namespace GlobalSafepoint

/-- `GlobalSafepoint::new()`. -/
def new : GlobalSafepoint := ⟨false, 0, 0⟩

/-- `enable`: `safepoint_enable_cnt.set(safepoint_enable_cnt.get() + 1)`. -/
def enable (g : GlobalSafepoint) : GlobalSafepoint :=
  { g with safepointEnableCnt := g.safepointEnableCnt + 1 }

/-- `disable`: `safepoint_enable_cnt.set(safepoint_enable_cnt.get() - 1)`. -/
def disable (g : GlobalSafepoint) : GlobalSafepoint :=
  { g with safepointEnableCnt := g.safepointEnableCnt - 1 }

end GlobalSafepoint

/-- One load of `while !c(load(Relaxed)) || !c(load(Acquire)) { spin_loop() }`
at its first load (`second = false`) or its second, where `ok` is `c` of the
loaded value: the load the loop does next, or `none` when it exits. -/
def doubleCheck (second ok : Bool) : Option Bool :=
  if ok then (if second then none else some true) else some false

/-- The loop exits only on a second load that satisfies `c`. -/
@[simp] theorem doubleCheck_eq_none {second ok : Bool} :
    doubleCheck second ok = none ↔ ok = true ∧ second = true := by
  cases ok <;> cases second <;> decide

/-- A thread's program point. -/
inductive Pc
  /-- Mutator code in its own state, or nothing for a thread that is not a
  mutator. -/
  | work
  /-- The poll, after `store Safe`: the load of `gc_running`. -/
  | pollLoad
  /-- The poll's `store Unsafe`. -/
  | pollResume
  /-- `wait_gc`, called by the poll or by a failed `start`, at one of its two
  loads. -/
  | waitGc (inPoll second : Bool)
  /-- `start`: `safepoint_lock.lock()`. -/
  | startLock
  /-- `start`: `gc_running.compare_exchange_weak(0, 1, ..)`. -/
  | startCas
  /-- `start`, after a failed exchange: `safepoint_lock.unlock()`. -/
  | startUnlockFail
  /-- `start`: `assert!(gc_running.load(..) == 1)`; a failed assertion stops
  the thread here, with the lock held. -/
  | startAssert
  /-- `start`: `enable()`. -/
  | startEnable
  /-- `start`: `safepoint_lock.unlock()`, then `start` returns `true`. -/
  | startUnlock
  /-- The loop over `href.mutators()`, at mutator `i` and one of its loads. -/
  | enumerate (i : Nat) (second : Bool)
  /-- The scope is open. -/
  | scope
  /-- `end`: `safepoint_lock.lock()`. -/
  | endLock
  /-- `end`: `disable()`. -/
  | endDisable
  /-- `end`: `gc_running.store(0, Release)`. -/
  | endStore
  /-- `end`: `safepoint_lock.unlock()`. -/
  | endUnlock
  /-- `mutator.state_set(old_state, Waiting)` after `end` or a failed
  `start`. -/
  | restore
  /-- `new_no_mutator` after `start` returned `false`: its `assert!` failed
  and the thread stopped. -/
  | panicked
deriving DecidableEq, Repr

/-- What a thread keeps: its program point, its mutator's `state` (written by
the thread alone, read by collectors), the scope's `old_state`, and `stale`,
ghost state for the stop-the-world proof: the thread has read (or stored)
`gc_running = 0` since its last store of a safe state. -/
structure Local where
  pc : Pc
  state : ThreadState
  oldState : ThreadState
  stale : Bool
deriving DecidableEq, Repr

/-- The global safepoint and `n` threads. -/
structure State (n : Nat) where
  global : GlobalSafepoint
  threads : Fin n → Local

variable {n : Nat}

/-- Every thread at work in its state `state`, no collection running. -/
def init (state : Fin n → ThreadState) : State n where
  global := GlobalSafepoint.new
  threads := fun t => ⟨.work, state t, state t, false⟩

/-- Modelled from the spec: `poll_safepoint` of a registered mutator, steps 1
to 3 of spec section 4.5, for `mutator.rs` is not among the sources.  It
stores `Safe`, loads `gc_running` and calls `wait_gc` when that is not `0`,
and stores `Unsafe` again.  Its result, step 4, is read by no modelled code.
The poll reads `gc_running` and writes only its own thread's state. -/
def poll (l : Local) (gcRunning : UInt32) : Local :=
  match l.pc with
  | .work => { l with pc := .pollLoad, state := .Safe, stale := false }
  | .pollLoad =>
    if gcRunning = 0 then { l with pc := .pollResume, stale := true }
    else { l with pc := .waitGc true false }
  | .pollResume => { l with pc := .work, state := .Unsafe }
  | _ => l

section Step

variable (registered : Fin n → Bool)

/-- One atomic action of thread `t`.  A registered mutator at work polls
(`act = false`, `poll`) or opens `SafepointScope::new(m)` (`act = true`);
another thread opens `new_no_mutator` when `act = true`.  At the exchange,
`act = true` is a spurious failure. -/
def threadStep (s : State n) (t : Fin n) (act : Bool) : Local × GlobalSafepoint :=
  let l := s.threads t
  let g := s.global
  match l.pc with
  | .work =>
    if registered t then
      if act then ({ l with pc := .startLock, oldState := l.state, state := .Waiting, stale := false }, g)
      else (poll l g.gcRunning, g)
    else if act then ({ l with pc := .startLock }, g) else (l, g)
  | .pollLoad => (poll l g.gcRunning, g)
  | .pollResume => (poll l g.gcRunning, g)
  | .waitGc inPoll second =>
    match doubleCheck second (g.gcRunning = 0) with
    | some second' => ({ l with pc := .waitGc inPoll second' }, g)
    | none =>
      if inPoll then ({ l with pc := .pollResume, stale := true }, g)
      else if registered t then ({ l with pc := .restore, stale := true }, g)
      else ({ l with pc := .panicked }, g)
  | .startLock =>
    if g.safepointLock then (l, g)
    else ({ l with pc := .startCas }, { g with safepointLock := true })
  | .startCas =>
    if g.gcRunning = 0 ∧ act = false then ({ l with pc := .startAssert }, { g with gcRunning := 1 })
    else ({ l with pc := .startUnlockFail }, g)
  | .startUnlockFail => ({ l with pc := .waitGc false false }, { g with safepointLock := false })
  | .startAssert =>
    if g.gcRunning = 1 then ({ l with pc := .startEnable }, g) else (l, g)
  | .startEnable => ({ l with pc := .startUnlock }, g.enable)
  | .startUnlock => ({ l with pc := .enumerate 0 false }, { g with safepointLock := false })
  | .enumerate i second =>
    if h : i < n then
      if registered ⟨i, h⟩ then
        match doubleCheck second (s.threads ⟨i, h⟩).state.safeForSafepoint with
        | some second' => ({ l with pc := .enumerate i second' }, g)
        | none => ({ l with pc := .enumerate (i + 1) false }, g)
      else ({ l with pc := .enumerate (i + 1) false }, g)
    else ({ l with pc := .scope }, g)
  | .scope => ({ l with pc := .endLock }, g)
  | .endLock =>
    if g.safepointLock then (l, g)
    else ({ l with pc := .endDisable }, { g with safepointLock := true })
  | .endDisable => ({ l with pc := .endStore }, g.disable)
  | .endStore => ({ l with pc := .endUnlock, stale := true }, { g with gcRunning := 0 })
  | .endUnlock =>
    ({ l with pc := if registered t then .restore else .work }, { g with safepointLock := false })
  | .restore => ({ l with pc := .work, state := l.oldState }, g)
  | .panicked => (l, g)

/-- Thread `t` takes one action. -/
def step (s : State n) (t : Fin n) (act : Bool) : State n where
  global := (threadStep registered s t act).2
  threads := Function.update s.threads t (threadStep registered s t act).1

/-- The actions of a schedule, one after another. -/
def run (s : State n) (schedule : List (Fin n × Bool)) : State n :=
  schedule.foldl (fun s a => step registered s a.1 a.2) s

/-- The states an interleaving reaches from `init state`. -/
inductive Reachable : State n → Prop
  | init (state : Fin n → ThreadState) : Reachable (init state)
  | step {s : State n} (t : Fin n) (act : Bool) : Reachable s → Reachable (step registered s t act)

variable {registered}

theorem reachable_run {s : State n} (h : Reachable registered s) :
    ∀ schedule, Reachable registered (run registered s schedule)
  | [] => h
  | a :: schedule => reachable_run (.step a.1 a.2 h) schedule

@[simp] theorem step_threads_self (s : State n) (t : Fin n) (act : Bool) :
    (step registered s t act).threads t = (threadStep registered s t act).1 := by
  simp [step]

@[simp] theorem step_threads_other (s : State n) {t u : Fin n} (act : Bool) (h : u ≠ t) :
    (step registered s t act).threads u = s.threads u := by
  simp [step, h]

end Step

/-! ## Tokens -/

/-- The roles of a program point: holding `safepoint_lock`; owning the
collection, from a successful exchange to the store of `0`; having counted
itself in `safepoint_enable_cnt`. -/
def Pc.holdsLock : Pc → Bool
  | .startCas | .startUnlockFail | .startAssert | .startEnable | .startUnlock
  | .endDisable | .endStore | .endUnlock => true
  | _ => false

@[inherit_doc Pc.holdsLock]
def Pc.isOwner : Pc → Bool
  | .startAssert | .startEnable | .startUnlock | .enumerate _ _ | .scope
  | .endLock | .endDisable | .endStore => true
  | _ => false

@[inherit_doc Pc.holdsLock]
def Pc.enabled : Pc → Bool
  | .startUnlock | .enumerate _ _ | .scope | .endLock | .endDisable => true
  | _ => false

theorem Pc.isOwner_of_enabled {p : Pc} (h : p.enabled = true) : p.isOwner = true := by
  cases p <;> first | rfl | exact Bool.noConfusion h

/-- Without the lock, an owner has counted itself. -/
theorem Pc.enabled_of_isOwner {p : Pc} (h : p.isOwner = true) (hl : p.holdsLock = false) :
    p.enabled = true := by
  cases p <;> first | rfl | exact Bool.noConfusion h | exact Bool.noConfusion hl

/-- At most one thread has role `ρ`, and `flag` says whether one does. -/
structure Token {α : Type} (ρ : α → Bool) (threads : Fin n → α) (flag : Bool) : Prop where
  flag_iff : flag = true ↔ ∃ t, ρ (threads t) = true
  unique : ∀ t u, ρ (threads t) = true → ρ (threads u) = true → t = u

/-- What one step does to a role `r` of the stepping thread and the flag `b`:
both stay, or the thread takes the free token, or it gives the token back. -/
inductive Move : Bool → Bool → Bool → Bool → Prop
  | stay (r b : Bool) : Move r r b b
  | acquire : Move false true false true
  | release (b : Bool) : Move true false b false

section Token

variable {α : Type} {ρ : α → Bool} {threads : Fin n → α} {flag : Bool}

/-- No thread has the role: the token is free. -/
theorem Token.of_none (h : ∀ t, ρ (threads t) = false) : Token ρ threads false :=
  have hne : ∀ t, ρ (threads t) ≠ true := fun t ht => Bool.noConfusion ((h t).symm.trans ht)
  ⟨⟨Bool.noConfusion, fun ⟨t, ht⟩ => absurd ht (hne t)⟩,
    fun t _ ht => absurd ht (hne t)⟩

theorem Token.not_of_flag (h : Token ρ threads false) (t : Fin n) : ρ (threads t) = false :=
  Bool.eq_false_iff.2 fun ht => Bool.false_ne_true (h.flag_iff.2 ⟨t, ht⟩)

theorem Token.flag_of (h : Token ρ threads flag) {t : Fin n} (ht : ρ (threads t) = true) :
    flag = true :=
  h.flag_iff.2 ⟨t, ht⟩

/-- A token after thread `t` moves to `x`. -/
theorem Token.update (h : Token ρ threads flag) (t : Fin n) (x : α) {flag' : Bool}
    (hmove : Move (ρ (threads t)) (ρ x) flag flag') :
    Token ρ (Function.update threads t x) flag' := by
  have hat : ∀ u, ρ (Function.update threads t x u) = if u = t then ρ x else ρ (threads u) :=
    fun u => by rw [Function.update_apply]; split <;> rfl
  generalize hr : ρ (threads t) = r at hmove
  generalize hr' : ρ x = r' at hmove
  cases hmove with
  | stay r b =>
    have heq : ∀ u, ρ (Function.update threads t x u) = ρ (threads u) := fun u => by
      rw [hat]; split <;> simp_all
    exact ⟨by simp only [heq]; exact h.flag_iff,
      fun u v => by simp only [heq]; exact h.unique u v⟩
  | acquire =>
    have honly : ∀ u, ρ (Function.update threads t x u) = true → u = t := fun u hu => by
      rw [hat] at hu; split at hu <;> simp_all [h.not_of_flag u]
    exact ⟨by simpa using ⟨t, by simpa using hr'⟩,
      fun u v hu hv => (honly u hu).trans (honly v hv).symm⟩
  | release b =>
    have honly : ∀ u, ρ (Function.update threads t x u) = false := fun u => by
      rw [hat]; split
      · exact hr'
      · exact Bool.eq_false_iff.2 fun hu => ‹¬u = t› (h.unique u t hu hr)
    exact ⟨by simp [honly], fun u _ hu => by simp [honly] at hu⟩

end Token

/-! ## What each action does to the tokens -/

/-- What one action does to the global safepoint, with the acting thread's
program point going from `p` to `p'`: nothing, with the thread keeping its
roles; `lock()` of the free lock or `unlock()`, changing only the lock role;
or one of the four actions on `gc_running` and the count. -/
inductive Effect : Pc → Pc → GlobalSafepoint → GlobalSafepoint → Prop
  | keep {p p' g} : p'.holdsLock = p.holdsLock → p'.isOwner = p.isOwner →
      p'.enabled = p.enabled → Effect p p' g g
  | lock {p p' g} : g.safepointLock = false → p.holdsLock = false → p'.holdsLock = true →
      p'.isOwner = p.isOwner → p'.enabled = p.enabled →
      Effect p p' g { g with safepointLock := true }
  | unlock {p p' g} : p.holdsLock = true → p'.holdsLock = false → p'.isOwner = p.isOwner →
      p'.enabled = p.enabled → Effect p p' g { g with safepointLock := false }
  | cas {g} : g.gcRunning = 0 → Effect .startCas .startAssert g { g with gcRunning := 1 }
  | enable {g} : Effect .startEnable .startUnlock g g.enable
  | disable {g} : Effect .endDisable .endStore g g.disable
  | store {g} : Effect .endStore .endUnlock g { g with gcRunning := 0 }

/-- Every action of `threadStep` is one of the `Effect`s. -/
theorem threadStep_effect (registered : Fin n → Bool) (s : State n) (t : Fin n) (act : Bool) :
    Effect (s.threads t).pc (threadStep registered s t act).1.pc s.global
      (threadStep registered s t act).2 := by
  cases hp : (s.threads t).pc <;> simp only [threadStep, poll, hp] <;> (repeat' split) <;>
    (try simp only [hp]) <;> first
    | exact .keep rfl rfl rfl
    | exact .lock (Bool.eq_false_iff.2 ‹_›) rfl rfl rfl rfl
    | exact .unlock rfl rfl rfl rfl
    | exact .cas ‹_ ∧ _›.1
    | exact .enable
    | exact .disable
    | exact .store

namespace Effect

variable {p p' : Pc} {g g' : GlobalSafepoint}

/-- Only `lock()` takes the lock, when it is free, and only `unlock()` gives
it back. -/
theorem lockMove (h : Effect p p' g g') :
    Move p.holdsLock p'.holdsLock g.safepointLock g'.safepointLock := by
  cases h with
  | keep hl => rw [hl]; exact .stay _ _
  | lock hg hp hp' => rw [hg, hp, hp']; exact .acquire
  | unlock hp hp' => rw [hp, hp']; exact .release _
  | cas | enable | disable | store => exact .stay _ _

/-- Only the successful exchange takes `gc_running` from `0` to `1`, and only
`end`'s store gives it back. -/
theorem ownerMove (h : Effect p p' g g') :
    Move p.isOwner p'.isOwner (g.gcRunning != 0) (g'.gcRunning != 0) := by
  cases h with
  | keep _ ho | lock _ _ _ ho | unlock _ _ ho => rw [ho]; exact .stay _ _
  | cas hg => simp only [hg]; exact .acquire
  | enable | disable => exact .stay _ _
  | store => exact .release _

theorem gcRunning (h : Effect p p' g g') (hg : g.gcRunning = 0 ∨ g.gcRunning = 1) :
    g'.gcRunning = 0 ∨ g'.gcRunning = 1 := by
  cases h <;> first | exact hg | exact .inl rfl | exact .inr rfl

/-- `enable` counts the owner in when the count is `0`, and `disable` counts
it out when the count is `1`. -/
theorem enabledMove (h : Effect p p' g g') (hen : p = .startEnable → g.safepointEnableCnt = 0)
    (hdis : p = .endDisable → g.safepointEnableCnt = 1) :
    Move p.enabled p'.enabled (g.safepointEnableCnt != 0) (g'.safepointEnableCnt != 0) := by
  cases h with
  | keep _ _ he | lock _ _ _ _ he | unlock _ _ _ he => rw [he]; exact .stay _ _
  | cas | store => exact .stay _ _
  | enable => simp only [GlobalSafepoint.enable, hen rfl]; exact .acquire
  | disable => simp only [GlobalSafepoint.disable, hdis rfl]; exact .release _

theorem safepointEnableCnt (h : Effect p p' g g')
    (hen : p = .startEnable → g.safepointEnableCnt = 0)
    (hdis : p = .endDisable → g.safepointEnableCnt = 1)
    (hc : g.safepointEnableCnt = 0 ∨ g.safepointEnableCnt = 1) :
    g'.safepointEnableCnt = 0 ∨ g'.safepointEnableCnt = 1 := by
  cases h with
  | enable => simp only [GlobalSafepoint.enable, hen rfl]; exact .inr rfl
  | disable => simp only [GlobalSafepoint.disable, hdis rfl]; exact .inl rfl
  | _ => exact hc

end Effect

/-! ## The invariant -/

/-- The lock, the collection and the count are tokens, and the two counters
are `0` or `1`. -/
structure Inv (s : State n) : Prop where
  lock : Token (fun l => l.pc.holdsLock) s.threads s.global.safepointLock
  owner : Token (fun l => l.pc.isOwner) s.threads (s.global.gcRunning != 0)
  running : s.global.gcRunning = 0 ∨ s.global.gcRunning = 1
  enabled : Token (fun l => l.pc.enabled) s.threads (s.global.safepointEnableCnt != 0)
  count : s.global.safepointEnableCnt = 0 ∨ s.global.safepointEnableCnt = 1

theorem inv_init (state : Fin n → ThreadState) : Inv (init state) :=
  ⟨.of_none fun _ => rfl, .of_none fun _ => rfl, .inl rfl, .of_none fun _ => rfl, .inl rfl⟩

variable {s : State n}

/-- The count is `0` when an owner is about to `enable`. -/
theorem Inv.cnt_of_startEnable (h : Inv s) {t : Fin n} (ht : (s.threads t).pc = .startEnable) :
    s.global.safepointEnableCnt = 0 := by
  by_contra hc
  obtain ⟨u, hu⟩ := h.enabled.flag_iff.1 (by simpa using hc)
  obtain rfl := h.owner.unique u t (Pc.isOwner_of_enabled hu) (by rw [ht]; rfl)
  rw [ht] at hu
  exact Bool.noConfusion hu

/-- The count is `1` when the owner is about to `disable`. -/
theorem Inv.cnt_of_endDisable (h : Inv s) {t : Fin n} (ht : (s.threads t).pc = .endDisable) :
    s.global.safepointEnableCnt = 1 := by
  have := h.enabled.flag_of (t := t) (by rw [ht]; rfl)
  rcases h.count with hc | hc <;> simp_all

theorem inv_step (registered : Fin n → Bool) (h : Inv s) (t : Fin n) (act : Bool) :
    Inv (step registered s t act) :=
  have he := threadStep_effect registered s t act
  have hen := h.cnt_of_startEnable (t := t)
  have hdis := h.cnt_of_endDisable (t := t)
  ⟨h.lock.update t _ he.lockMove, h.owner.update t _ he.ownerMove, he.gcRunning h.running,
    h.enabled.update t _ (he.enabledMove hen hdis), he.safepointEnableCnt hen hdis h.count⟩

theorem inv_reachable {registered : Fin n → Bool} (h : Reachable registered s) : Inv s := by
  induction h with
  | init state => exact inv_init state
  | step t act _ ih => exact inv_step registered ih t act

/-- At most one thread is ever between a successful exchange of `start` and
the store of `0` in its `end`; whenever `safepoint_lock` is free,
`safepoint_enable_cnt = gc_running` and both are `0` or `1`; and `enable`
only ever runs on `0` and `disable` on `1`, so the `u8` never wraps. -/
theorem safepoint_mutual_exclusion {registered : Fin n → Bool} (h : Reachable registered s) :
    (∀ t u, (s.threads t).pc.isOwner = true → (s.threads u).pc.isOwner = true → t = u) ∧
    (s.global.safepointLock = false →
      s.global.safepointEnableCnt.toNat = s.global.gcRunning.toNat ∧
        s.global.gcRunning.toNat ≤ 1) ∧
    (∀ t, (s.threads t).pc = .startEnable → s.global.safepointEnableCnt = 0) ∧
    (∀ t, (s.threads t).pc = .endDisable → s.global.safepointEnableCnt = 1) := by
  have hi := inv_reachable h
  refine ⟨hi.owner.unique, fun hl => ?_, fun _ => hi.cnt_of_startEnable,
    fun _ => hi.cnt_of_endDisable⟩
  have hlock := hi.lock
  rw [hl] at hlock
  by_cases ho : ∃ t, (s.threads t).pc.isOwner = true
  · obtain ⟨t, ht⟩ := ho
    have hg := hi.owner.flag_iff.2 ⟨t, ht⟩
    have hc := hi.enabled.flag_of (Pc.enabled_of_isOwner ht (hlock.not_of_flag t))
    rcases hi.running with hr | hr <;> rcases hi.count with hk | hk <;> simp_all
  · have hg : (s.global.gcRunning != 0) = false :=
      Bool.eq_false_iff.2 fun hg => ho (hi.owner.flag_iff.1 hg)
    have hc : (s.global.safepointEnableCnt != 0) = false := Bool.eq_false_iff.2 fun hc => by
      obtain ⟨u, hu⟩ := hi.enabled.flag_iff.1 hc
      exact ho ⟨u, Pc.isOwner_of_enabled hu⟩
    rcases hi.running with hr | hr <;> rcases hi.count with hk | hk <;> simp_all

/-- Two mutators open a scope at once: thread `0` wins the exchange and starts
the enumeration, thread `1` fails and waits for the collection to end. -/
def race : State 2 :=
  run (fun _ => true) (init fun _ => .Unsafe)
    [(0, true), (1, true), (0, false), (0, false), (1, false), (0, false), (0, false), (0, false),
      (1, false), (1, false), (1, false)]

example : (race.threads 0).pc = .enumerate 0 false ∧ (race.threads 1).pc = .waitGc false false ∧
    race.global = ⟨false, 1, 1⟩ := by
  decide

theorem safepoint_mutual_exclusion_race :
    (∀ t u, (race.threads t).pc.isOwner = true → (race.threads u).pc.isOwner = true → t = u) ∧
    (race.global.safepointLock = false →
      race.global.safepointEnableCnt.toNat = race.global.gcRunning.toNat ∧
        race.global.gcRunning.toNat ≤ 1) ∧
    (∀ t, (race.threads t).pc = .startEnable → race.global.safepointEnableCnt = 0) ∧
    (∀ t, (race.threads t).pc = .endDisable → race.global.safepointEnableCnt = 1) :=
  safepoint_mutual_exclusion (reachable_run (.init _) _)

/-! ## When `start` fails -/

/-- An exchange of `start` that fails without failing spuriously finds the
collection owned by another thread: one that has won its own exchange and
has not yet stored `0` in `end`. -/
theorem start_fails_only_while_owned {registered : Fin n → Bool} (h : Reachable registered s)
    {t : Fin n} (ht : (s.threads t).pc = .startCas)
    (hfail : (threadStep registered s t false).1.pc = .startUnlockFail) :
    ∃ c, c ≠ t ∧ (s.threads c).pc.isOwner = true := by
  have hrun : (s.global.gcRunning != 0) = true := by
    simp only [threadStep, poll, ht, and_true] at hfail
    split at hfail
    · cases hfail
    · simpa using ‹_›
  obtain ⟨c, hc⟩ := (inv_reachable h).owner.flag_iff.1 hrun
  exact ⟨c, fun hct => by rw [hct, ht] at hc; exact Bool.noConfusion hc, hc⟩

/-- Mutators `0` and `1` open scopes at once; mutator `0` wins the exchange
and unlocks, and mutator `1` takes the lock and reaches its exchange. -/
def raceAtCas : State 2 :=
  run (fun _ => true) (init fun _ => .Unsafe)
    ([(0, true), (1, true)] ++ List.replicate 5 (0, false) ++ [(1, false)])

theorem start_fails_only_while_owned_raceAtCas :
    (raceAtCas.threads 1).pc = .startCas ∧
      (threadStep (fun _ => true) raceAtCas 1 false).1.pc = .startUnlockFail ∧
      ∃ c, c ≠ 1 ∧ (raceAtCas.threads c).pc.isOwner = true :=
  have hpc : (raceAtCas.threads 1).pc = .startCas := by decide
  have hfail : (threadStep (fun _ => true) raceAtCas 1 false).1.pc = .startUnlockFail := by decide
  ⟨hpc, hfail, start_fails_only_while_owned (reachable_run (.init _) _) hpc hfail⟩

/-- One thread alone opens `new_no_mutator`, and its `compare_exchange_weak`
fails spuriously although `gc_running` is `0`. -/
def spuriousNoMutator : State 1 :=
  run (fun _ => false) (init fun _ => .Unsafe) [(0, true), (0, false)]

/-- The same for a mutator opening `SafepointScope::new(m)`. -/
def spuriousMutator : State 1 :=
  run (fun _ => true) (init fun _ => .Unsafe) [(0, true), (0, false)]

/-- In either state the exchange of the one thread fails spuriously with no
owner and `gc_running = 0`, `start` returns `false` after `wait_gc` sees `0`
at once, and `new_no_mutator`'s `assert!` fires (`new(m)` restores its state
and returns `None`). -/
theorem start_fails_spuriously_alone :
    spuriousNoMutator.global.gcRunning = 0 ∧ (spuriousNoMutator.threads 0).pc = .startCas ∧
      (spuriousNoMutator.threads 0).pc.isOwner = false ∧
      (run (fun _ => false) spuriousNoMutator
          [(0, true), (0, false), (0, false), (0, false)]).threads 0 =
        { spuriousNoMutator.threads 0 with pc := .panicked } ∧
      spuriousMutator.global.gcRunning = 0 ∧ (spuriousMutator.threads 0).pc = .startCas ∧
      (run (fun _ => true) spuriousMutator
          [(0, true), (0, false), (0, false), (0, false)]).threads 0 =
        { spuriousMutator.threads 0 with pc := .restore, stale := true } := by
  decide

end Comet.Safepoint
