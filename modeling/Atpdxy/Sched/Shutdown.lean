import Mathlib.Algebra.BigOperators.Group.Finset.Basic
import Mathlib.Algebra.Order.BigOperators.Group.Finset
import Mathlib.Data.Prod.Lex
import Atpdxy.Sched.Drain
import Atpdxy.Sched.Quiet
import Atpdxy.Sched.Single

/-!
# `stop()` can return

Nothing here is about one way to schedule the threads. From any state of the
system, whatever the code of the fibers has done so far, there is a way on in
which no more work is asked for, every entry of the queue is executed, all
threads leave `run()` and `stop()` returns: no lost wake-up, no thread that
waits for another, no fiber left in a state that holds the queue up.

The way on is found by a measure (`State.rank`). Its first part is the work that is
left, in the queue and in the hands of the threads. While there is work and
nobody has it in hand, a thread that may take the head of the queue is brought
to the scan; once there is none, `stopping()` is true and each round through the
idle fiber ends it.
-/

namespace Atpdxy.Sched

open Run

variable {cfg : Setup} {t u : Tid} {m : Move} {th th' : Thread} {sh sh' : Shared} {s s' : State} {a : Act} {f : FiberId}
  {as : List Act}

/-! ## No assertion fails -/

/-- What a thread knows of the fiber before the switch and before it queues it again. -/
structure Thread.Prepared (th : Thread) (sh : Shared) : Prop where
  entering : ∀ b f, th.pc = .enter b f → (sh.fibers f).state.ended = false
  callback : ∀ f, th.pc = .enter .cb f ∨ th.pc = .running .cb f → (sh.fibers f).cb ≠ .null
  again : ∀ b f, th.pc = .requeue b f → (sh.fibers f).state = .ready

theorem Moves.prepared (moves : Moves cfg t th sh m th' sh') (prepared : th.Prepared sh) : th'.Prepared sh' := by
  obtain ⟨entering, callback, again⟩ := prepared
  cases moves with
  | reuse | make =>
    refine ⟨?_, ?_, by simp⟩
    · rintro _ _ ⟨⟩
      simp [Fiber.new, FiberState.ended]
    · rintro _ (⟨⟨⟩⟩ | ⟨⟨⟩⟩)
      simp [Fiber.new]
  | @begin b g pc | @resume b g pc =>
    refine ⟨by simp, ?_, by simp⟩
    rintro _ (⟨⟨⟩⟩ | ⟨⟨⟩⟩)
    simpa using callback _ (.inl pc)
  | enterFiber _ _ live =>
    refine ⟨?_, by simp, by simp⟩
    rintro _ _ ⟨⟩
    exact live
  | settleReady _ state =>
    refine ⟨by simp, by simp, ?_⟩
    rintro _ _ ⟨⟩
    exact state
  | failReset | failYield | failSwapIn | failNeverReach | failIdle | failIdleYield => exact ⟨entering, callback, again⟩
  | schedule => exact ⟨by simpa using entering, by simpa using callback, by simpa using again⟩
  | _ => constructor <;> simp

theorem Thread.Prepared.frame (prepared : th.Prepared sh) (same : ∀ f, th.Holds f → sh'.fibers f = sh.fibers f) :
    th.Prepared sh' where
  entering b f pc := by
    rw [same f (.inl (by simp [pc, Pc.refs]))]
    exact prepared.entering b f pc
  callback f pc := by
    rw [same f (.inl (by rcases pc with pc | pc <;> simp [pc, Pc.refs]))]
    exact prepared.callback f pc
  again b f pc := by
    rw [same f (.inl (by simp [pc, Pc.refs]))]
    exact prepared.again b f pc

theorem Thread.Prepared.start : ({} : Thread).Prepared sh where
  entering := by simp
  callback := by simp
  again := by simp

theorem prepared_step (owned : Owned cfg s) (prepared : ∀ t, (s.thr t).Prepared s.sh)
    (step : step cfg s a = some s') (u : Tid) : (s'.thr u).Prepared s'.sh := by
  obtain ⟨_, moves⟩ := step_cases step
  cases moves with
  | @thread t m th sh moves =>
    by_cases same : u = t
    · subst same
      simpa using moves.prepared (prepared u)
    · simp only [Function.update_of_ne same]
      refine (prepared u).frame fun f held => moves.frame (fun other => ?_) (owned.held u f held)
      exact same (owned.single u t f held other)
  | external => exact (prepared u).frame fun f _ => by simp
  | create => exact (prepared u).frame fun f _ => rfl
  | stop moves =>
    cases moves with
    | @callRoot r pc root =>
      by_cases same : u = r
      · subst same
        have waiting := owned.waiting (by rw [pc]; rfl) u root
        constructor <;> simp [waiting]
      · simpa [Function.update_of_ne same] using prepared u
    | _ => exact (prepared u).frame fun f _ => rfl

theorem finished_step (acc : ∀ t, (s.thr t).Accurate s.sh)
    (finished : ∀ f, (s.sh.fibers f).ctx = .finished → (s.sh.fibers f).state.ended = true)
    (step : step cfg s a = some s') : ∀ f, (s'.sh.fibers f).ctx = .finished → (s'.sh.fibers f).state.ended = true := by
  obtain ⟨_, moves⟩ := step_cases step
  cases moves with
  | thread moves => exact moves.spent (acc _) finished
  | external => simpa using finished
  | create => exact finished
  | stop moves => cases moves <;> exact finished

/-- How far `stop()` has come, in the flag it has set and in the root thread. -/
structure Phased (cfg : Setup) (s : State) : Prop where
  flag : s.stop = .test ∨ s.stop = .inRoot ∨ s.stop = .join → s.sh.stopping = true
  inside : s.stop = .inRoot → ∀ r ∈ cfg.rootThread, (s.thr r).pc ≠ .entry

theorem Phased.start : Phased cfg {} where
  flag pc := by rcases pc with pc | pc | pc <;> cases pc
  inside := nofun

theorem Phased.step (phased : Phased cfg s) (step : step cfg s a = some s') : Phased cfg s' := by
  obtain ⟨_, moves⟩ := step_cases step
  cases moves with
  | @thread t m th sh moves =>
    refine ⟨fun pc => moves.flags.2.trans (phased.flag pc), fun pc r root => ?_⟩
    by_cases same : r = t
    · subst same
      simpa using moves.entry
    · simpa only [Function.update_of_ne same] using phased.inside pc r root
  | @external r =>
    exact ⟨fun pc => (schedule_active (s.stop == .notCalled) s.sh r).2.2.2.trans (phased.flag pc), phased.inside⟩
  | create => exact ⟨phased.flag, phased.inside⟩
  | stop moves =>
    cases moves with
    | call | first | pass | early => exact ⟨by simp, nofun⟩
    | setStopping => exact ⟨fun _ => rfl, nofun⟩
    | noRoot pc | skipRoot pc => exact ⟨fun _ => phased.flag (.inl pc), nofun⟩
    | @callRoot r pc root =>
      refine ⟨fun _ => phased.flag (.inl pc), fun _ r' root' => ?_⟩
      obtain rfl : r = r' := Option.some.inj (root.symm.trans root')
      simp
    | backRoot pc => exact ⟨fun _ => phased.flag (.inr (.inl pc)), nofun⟩
    | join => exact ⟨by simp, nofun⟩

/-- What holds of every state of a run whose dequeues take free fibers. -/
structure Regular (cfg : Setup) (s : State) : Prop where
  owned : Owned cfg s
  acc : ∀ t, (s.thr t).Accurate s.sh
  placed : Placed cfg s
  closing : Closing cfg s
  counts : Counts cfg s
  flagged : Flagged s
  phased : Phased cfg s
  prepared : ∀ t, (s.thr t).Prepared s.sh
  finished : ∀ f, (s.sh.fibers f).ctx = .finished → (s.sh.fibers f).state.ended = true

theorem Regular.run (small : cfg.threads.card < UInt64.size)
    (run : Guarded (Sched.step cfg) (FreeDequeue cfg) {} as s) : Regular cfg s where
  owned := .run run
  acc := accurate_run run
  placed := .run run
  closing := .run run
  counts := .run small (run.mono fun _ _ _ => trivial)
  flagged := .run run
  phased := run.invariant .start fun _ _ _ _ _ phased _ step => phased.step step
  prepared := run.invariant (fun _ => .start) fun _ _ _ _ before prepared _ step =>
    prepared_step (Owned.run before) prepared step
  finished := run.invariant nofun fun _ _ _ _ before finished _ step =>
    finished_step (accurate_run before) finished step

/-- No step of a thread fails an assertion. -/
theorem Regular.alive (regular : Regular cfg s) (alive : s.sh.failed = none) (step : step cfg s a = some s') :
    s'.sh.failed = none := by
  obtain ⟨_, moves⟩ := step_cases step
  rw [Option.eq_none_iff_forall_ne_some]
  intro e
  apply moves.failed alive
  intro t m th sh moves
  cases e with
  | swapIn => exact regular.owned.noSwapIn alive moves
  | yield => exact moves.noAssertion (regular.acc t) (regular.owned.idle t) alive (.inl rfl)
  | reset => exact moves.noAssertion (regular.acc t) (regular.owned.idle t) alive (.inr rfl)
  | neverReach =>
    intro failed
    cases moves with
    | @failNeverReach b f pc ctx =>
      have live := (regular.prepared t).entering b f pc
      rw [regular.finished f ctx] at live
      cases live
    | _ => simp [alive] at failed

theorem alive_run (small : cfg.threads.card < UInt64.size) (run : Guarded (step cfg) (FreeDequeue cfg) {} as s) :
    s.sh.failed = none :=
  run.invariant (I := fun s => s.sh.failed = none) rfl fun _ _ _ _ before alive _ step =>
    (Regular.run small before).alive alive step

/-! ## The work that is left -/

/-- What an entry of the queue still costs, more than any place at which a thread has it in hand. -/
def entryLoad : Nat := 12

/-- A fiber that has yielded `READY` becomes an entry again. -/
def againLoad (x : Fiber) : Nat := if x.state = .ready then entryLoad else 0

/-- What a thread still has to do with the task it has dequeued. -/
def Pc.load (fibers : FiberId → Fiber) : Pc → Nat
  | .dispatch (some _) => 11
  | .enter _ _ => 10
  | .running _ _ => 9
  | .leaving _ f _ => 8 + againLoad (fibers f)
  | .dec _ f => 7 + againLoad (fibers f)
  | .settle _ f => 6 + againLoad (fibers f)
  | .requeue _ _ => 5 + entryLoad
  | .setHold _ _ | .resetCb _ | .skip => 5
  | _ => 0

theorem Pc.load_eq_zero {fibers : FiberId → Fiber} {pc : Pc} : pc.load fibers = 0 ↔ pc.handles = false := by
  cases pc with
  | dispatch ft => cases ft <;> simp [Pc.load, Pc.handles, Pc.active, Pc.uncounted]
  | _ => simp [Pc.load, Pc.handles, Pc.active, Pc.uncounted]

/-- A thread with no task in hand refers to no fiber but the one it keeps. -/
theorem Pc.refs_eq_none {pc : Pc} (quiet : pc.handles = false) : pc.refs = none ∧ pc.switch = none := by
  cases pc with
  | dispatch ft =>
    cases ft with
    | none => exact ⟨rfl, rfl⟩
    | some ft => simp [Pc.handles, Pc.active] at quiet
  | enter | running | leaving | dec | settle | requeue | setHold | resetCb =>
    simp [Pc.handles, Pc.active, Pc.uncounted] at quiet
  | _ => exact ⟨rfl, rfl⟩

/-- A load depends on the fiber in hand only. -/
theorem Pc.load_frame {fibers fibers' : FiberId → Fiber} {pc : Pc}
    (same : ∀ f, pc.refs = some f → fibers' f = fibers f) : pc.load fibers' = pc.load fibers := by
  cases pc with
  | leaving | dec | settle => simp only [Pc.load, same _ rfl]
  | dispatch ft => cases ft <;> rfl
  | _ => rfl

/-- A step that adds no work: `run()`, `stop()`, and code that ends or yields `HOLD`. -/
def Act.closing : Act → Bool
  | .stop | .thread _ .next => true
  | .thread _ (.user .ret) | .thread _ (.user .throw) | .thread _ (.user .yieldHold) => true
  | _ => false

/-- Taking an entry and every step with it in hand bring its end nearer. -/
theorem Moves.load (moves : Moves cfg t th sh m th' sh') (alive : sh'.failed = none)
    (closing : (Act.thread t m).closing = true) (handles : th.pc.handles = true ∨ th'.pc.handles = true) :
    entryLoad * sh'.queue.length + th'.pc.load sh'.fibers < entryLoad * sh.queue.length + th.pc.load sh.fibers := by
  cases moves with
  | take pc found =>
    obtain ⟨front, back, queue, rest, _⟩ := dequeue_some found
    simp only [pc, queue, rest, Pc.load, entryLoad, List.length_append, List.length_cons]
    omega
  | requeue pc =>
    simp only [pc, Pc.load, Thread.release_refs, entryLoad, List.length_append, List.length_singleton]
    omega
  | yield pc _ _ kind =>
    rcases kind with ⟨rfl, rfl⟩ | ⟨rfl, rfl⟩
    · cases closing
    · simp [pc, Pc.load, againLoad]
  | schedule => cases closing
  | @settleReady b f pc state => simp [pc, Pc.load, againLoad, state]
  | settleFiber pc | dec pc | setHold pc => simp [pc, Pc.load]
  | settleCb pc | settleHold pc =>
    simp only [pc, Pc.load]
    omega
  | switchOut pc => simp [pc, Pc.load, againLoad]
  | failSwapIn | failIdle | failReset | failYield | failIdleYield | failNeverReach => simp at alive
  | enterFiber pc | reuse pc | make pc | finished pc | begin pc | resume pc | resetCb pc | skip pc | ret pc
  | throw pc =>
    simp [pc, Pc.load, againLoad]
  | start pc | miss pc | leave pc | goIdle pc | idleEnter pc | idleSwap pc | idleTerm pc | idleYield pc | idleLeave pc
  | idleDec pc | idleSettle pc =>
    simp [pc, Pc.handles, Pc.active, Pc.uncounted] at handles

/-! ## Threads with nothing in hand -/

/-- The steps to the next scan. -/
def Pc.toLoop : Pc → Nat
  | .dispatch none => 7
  | .idleEnter => 6
  | .idleSwap => 5
  | .idling => 4
  | .idleLeave => 3
  | .idleDec => 2
  | .idleSettle | .entry => 1
  | _ => 0

/-- A round through the idle fiber, for a thread whose idle fiber has not ended. -/
def Thread.roundLeft (th : Thread) : Nat := if th.idle = .term then 0 else 8

/-- The steps out of `run()` once `stopping()` is true. -/
def Thread.toExit (th : Thread) : Nat :=
  match th.pc with
  | .entry => 14
  | .idleLeave => 5 + th.roundLeft
  | .idleDec => 4 + th.roundLeft
  | .idleSettle => 3 + th.roundLeft
  | .loop => 2 + th.roundLeft
  | .dispatch none => 1 + th.roundLeft
  | .idleEnter => 8
  | .idleSwap => 7
  | .idling => 6
  | _ => 0

/-- Inside `run()` only the code of a fiber can be at an end. -/
theorem nextStep_isSome (inside : th.pc ≠ .exited) (entry : th.pc = .entry → t ∈ cfg.workers)
    (outside : ∀ b f, th.pc ≠ .running b f) : (nextStep cfg t th sh).isSome = true := by
  unfold nextStep
  cases pc : th.pc with
  | exited => exact (inside pc).elim
  | running b f => exact (outside b f pc).elim
  | entry => simp [entry pc]
  | dispatch ft =>
    cases ft with
    | none =>
      dsimp only
      split <;> rfl
    | some ft =>
      dsimp only
      split
      · rfl
      · split <;> rfl
  | loop | resetCb | idleSwap =>
    dsimp only
    split <;> rfl
  | idling =>
    dsimp only
    split
    · rfl
    · split <;> rfl
  | enter | leaving | dec | settle | requeue | setHold | skip | idleEnter | idleLeave | idleDec | idleSettle => rfl

/-- A thread with nothing in hand gets on towards the scan, which takes nothing
when nothing is queued. -/
theorem Moves.quiet (moves : Moves cfg t th sh m th' sh') (alive : sh'.failed = none) (quiet : th.pc.handles = false)
    (scan : th.pc = .loop → sh.queue = []) :
    sh'.queue = sh.queue ∧ sh'.fibers = sh.fibers ∧ th'.pc.handles = false ∧
      (th.pc ≠ .loop → th'.pc.toLoop < th.pc.toLoop) := by
  cases moves with
  | miss pc => exact ⟨rfl, rfl, rfl, fun off => (off pc).elim⟩
  | take pc found =>
    rw [scan pc] at found
    cases found
  | start pc | leave pc | goIdle pc | idleEnter pc | idleSwap pc | idleTerm pc | idleYield pc | idleLeave pc
  | idleDec pc | idleSettle pc =>
    exact ⟨rfl, rfl, rfl, fun _ => by simp [pc, Pc.toLoop]⟩
  | failSwapIn | failIdle | failReset | failYield | failIdleYield | failNeverReach => simp at alive
  | enterFiber pc | reuse pc | make pc | finished pc | begin pc | resume pc | switchOut pc | dec pc | settleReady pc
  | settleFiber pc | settleCb pc | settleHold pc | requeue pc | setHold pc | resetCb pc | skip pc | yield pc | ret pc
  | throw pc | schedule pc =>
    simp [pc, Pc.handles, Pc.active, Pc.uncounted] at quiet

/-- When `stopping()` is true it gets on out of `run()`: the next round through
the idle fiber is the last. -/
theorem nextStep_toExit (moved : nextStep cfg t th sh = some (th', sh')) (alive : sh'.failed = none)
    (quiet : th.pc.handles = false) (stopping : sh.isStopping = true) : th'.toExit < th.toExit := by
  cases threadStep_cases (m := .next) moved with
  | take pc found =>
    rw [isStopping_queue stopping] at found
    cases found
  | idleYield pc => simp [nextStep, pc, stopping] at moved
  | start pc | idleSettle pc =>
    simp only [Thread.toExit, pc, Thread.roundLeft]
    cases th.idle <;> simp [FiberState.ended]
  | goIdle pc idle => simp [Thread.toExit, pc, Thread.roundLeft, idle]
  | miss pc | leave pc | idleEnter pc | idleSwap pc | idleTerm pc | idleLeave pc | idleDec pc =>
    simp [Thread.toExit, pc, Thread.roundLeft]
  | failSwapIn | failIdle | failReset | failIdleYield | failNeverReach => simp at alive
  | enterFiber pc | reuse pc | make pc | finished pc | begin pc | resume pc | switchOut pc | dec pc | settleReady pc
  | settleFiber pc | settleCb pc | settleHold pc | requeue pc | setHold pc | resetCb pc | skip pc =>
    simp [pc, Pc.handles, Pc.active, Pc.uncounted] at quiet

/-! ## Steps that keep every entry takeable -/

/-- `run()` keeps `f` for the next callback, or will: its callback has ended. -/
def Thread.Spent (th : Thread) (sh : Shared) (f : FiberId) : Prop :=
  th.cbFiber = some f ∧ (th.pc.switch = some (.cb, f) → (sh.fibers f).state.ended = true)

instance : Decidable (th.Spent sh f) := inferInstanceAs (Decidable (_ ∧ _))

/-- Each entry can be taken: some thread that may take it still scans, and none
keeps its fiber for the next callback. -/
structure Takeable (cfg : Setup) (s : State) : Prop where
  served : ∀ task ∈ s.sh.queue, Served cfg s task.thread
  unspent : ∀ task ∈ s.sh.queue, ∀ f ∈ task.fiber, ∀ t ∈ cfg.threads, ¬ (s.thr t).Spent s.sh f

/-- The step adds no work, ends no callback whose fiber is queued, and is no
scan that takes nothing while there are entries. -/
def Calm (s : State) : Act → Prop
  | .stop | .thread _ (.user .yieldHold) => True
  | .thread t .next => (s.thr t).pc = .loop → dequeue t s.sh.fibers s.sh.queue = none → s.sh.queue = []
  | .thread t (.user .ret) | .thread t (.user .throw) =>
    ∀ f, (s.thr t).pc = .running .cb f → ∀ task ∈ s.sh.queue, task.fiber ≠ some f
  | _ => False

theorem Calm.closing (calm : Calm s a) : a.closing = true := by
  unfold Calm at calm
  split at calm <;> first | rfl | exact calm.elim

/-- A thread with a task in hand has a calm step. Code that executes ends, except
that a callback whose fiber is queued yields `HOLD`. -/
theorem exists_calm (prepared : (s.thr t).Prepared s.sh) (handles : (s.thr t).pc.handles = true) :
    ∃ m, (threadStep cfg t (s.thr t) s.sh m).isSome = true ∧ Calm s (.thread t m) := by
  by_cases running : ∃ b f, (s.thr t).pc = .running b f
  · obtain ⟨b, f, pc⟩ := running
    by_cases null : (s.sh.fibers f).cb = .null
    · refine ⟨.user .throw, by simp [threadStep, userStep, pc], fun g own => ?_⟩
      exact (prepared.callback g (.inr own) (by cases pc.symm.trans own; exact null)).elim
    · by_cases queued : ∃ task ∈ s.sh.queue, task.fiber = some f
      · exact ⟨.user .yieldHold, by simp [threadStep, userStep, pc, null], trivial⟩
      · refine ⟨.user .ret, by simp [threadStep, userStep, pc, null], fun g own task member named => ?_⟩
        cases pc.symm.trans own
        exact queued ⟨task, member, named⟩
  · have outside : ∀ b f, (s.thr t).pc ≠ .running b f := fun b f pc => running ⟨b, f, pc⟩
    have elsewhere : ∀ {pc}, pc.handles = false → (s.thr t).pc ≠ pc := by
      rintro pc idle rfl
      simp [handles] at idle
    exact ⟨.next, nextStep_isSome (elsewhere rfl) (fun entry => (elsewhere rfl entry).elim) outside,
      fun loop => (elsewhere rfl loop).elim⟩

/-- A thread comes to keep a fiber only where its callback ends. -/
theorem Moves.keeps (moves : Moves cfg t th sh m th' sh') (acc : th.Accurate sh) (kept : th'.Spent sh' f) :
    th.Spent sh f ∨ (th.pc = .running .cb f ∧ (m = .user .ret ∨ m = .user .throw)) := by
  obtain ⟨own, ended⟩ := kept
  cases moves with
  | reuse _ _ same =>
    cases same.symm.trans own
    simp [Pc.switch, Fiber.new, FiberState.ended] at ended
  | make =>
    cases own
    simp [Pc.switch, Fiber.new, FiberState.ended] at ended
  | @begin b g pc | @resume b g pc =>
    refine .inl ⟨own, fun switch => ?_⟩
    obtain ⟨rfl, rfl⟩ : b = .cb ∧ g = f := by simpa [pc, Pc.switch] using switch
    simp [Pc.switch, FiberState.ended] at ended
  | @yield b g st _ pc _ _ kind =>
    refine .inl ⟨own, fun switch => ?_⟩
    obtain ⟨rfl, rfl⟩ : b = .cb ∧ g = f := by simpa [pc, Pc.switch] using switch
    rcases kind with ⟨_, rfl⟩ | ⟨_, rfl⟩ <;> simp [Pc.switch, FiberState.ended] at ended
  | @ret b g pc | @throw b g pc =>
    by_cases same : b = .cb ∧ g = f
    · obtain ⟨rfl, rfl⟩ := same
      exact .inr ⟨pc, by simp⟩
    · exact .inl ⟨own, fun switch => (same (by simpa [pc, Pc.switch] using switch)).elim⟩
  | @switchOut b g last pc =>
    refine .inl ⟨own, fun switch => ?_⟩
    obtain ⟨rfl, rfl⟩ : b = .cb ∧ g = f := by simpa [pc, Pc.switch] using switch
    simpa [Pc.switch] using ended
  | @requeue b g pc | @setHold b g pc =>
    cases b with
    | cb => cases own
    | fiber => exact .inl ⟨own, fun switch => by simp [pc, Pc.switch] at switch⟩
  | @resetCb c pc =>
    refine .inl ⟨own, fun switch => ?_⟩
    obtain rfl : c = f := by simpa [pc, Pc.switch] using switch
    exact acc.resetting c pc
  | settleReady pc | settleHold pc | settleCb pc | dec pc =>
    refine .inl ⟨own, fun switch => ended ?_⟩
    simpa [pc, Pc.switch] using switch
  | schedule => exact .inl ⟨own, by simpa using ended⟩
  | failReset | failYield | failSwapIn | failNeverReach | failIdle | failIdleYield => exact .inl ⟨own, ended⟩
  | take pc | miss pc | enterFiber pc | finished pc | settleFiber pc | skip pc | start pc | leave pc | goIdle pc
  | idleEnter pc | idleSwap pc | idleTerm pc | idleYield pc | idleLeave pc | idleDec pc | idleSettle pc =>
    -- no switch was under way before the step
    exact .inl ⟨own, fun switch => by simp [pc, Pc.switch] at switch⟩

/-- A thread gets done only where the queue is empty. -/
theorem Takeable.thread_served (takeable : Takeable cfg s) (owned : Owned cfg s)
    (moves : Moves cfg t (s.thr t) s.sh m th sh) (calm : Calm s (.thread t m)) :
    ∀ task ∈ sh.queue, Served cfg { s with thr := Function.update s.thr t th, sh } task.thread := by
  intro task queued
  have others : ∀ u, u ≠ t → Done cfg { s with thr := Function.update s.thr t th, sh } u → Done cfg s u := by
    intro u apart done
    simpa only [Done, Skipped, Function.update_of_ne apart] using done
  rcases moves.queue queued with old | ⟨anywhere, pc⟩ | ⟨r, rfl, _⟩
  · obtain ⟨v, among, allowed, scans⟩ := takeable.served task old
    refine ⟨v, among, allowed, fun done => ?_⟩
    by_cases apart : v = t
    · subst apart
      simp only [Done, Skipped, Function.update_self] at done
      obtain ⟨term, pc⟩ := done.resolve_right fun skipped => moves.entry skipped.2.1
      rcases moves.done pc with ⟨rfl, loop, missed⟩ | was
      · rw [calm loop missed] at old
        cases old
      · have before : (s.thr v).idle = .term := (moves.ends term).resolve_right fun empty => by simp [empty] at queued
        exact scans (.inl ⟨before, .inl was⟩)
    · exact scans (others v apart done)
  · refine ⟨t, owned.mover moves, by simp [anywhere], not_done_of_pc ?_ ?_ ?_⟩ <;> simp [pc]
  · exact calm.elim

/-- A calm step queues no fiber but the one its thread queues again. -/
theorem Moves.requeues (moves : Moves cfg t th sh m th' sh') (closing : (Act.thread t m).closing = true) {task : Task}
    (queued : task ∈ sh'.queue) :
    task ∈ sh.queue ∨ ∃ b f, th.pc = .requeue b f ∧ task = ⟨some f, none, none⟩ ∧ th' = th.release b := by
  cases moves with
  | take _ found => exact .inl ((dequeue_mem found).2 queued)
  | @requeue b f pc =>
    rcases List.mem_append.mp queued with old | new
    · exact .inl old
    · exact .inr ⟨b, f, pc, List.mem_singleton.mp new, rfl⟩
  | schedule => cases closing
  | _ => exact .inl queued

theorem Takeable.thread_unspent (takeable : Takeable cfg s) (regular : Regular cfg s)
    (moves : Moves cfg t (s.thr t) s.sh m th sh) (calm : Calm s (.thread t m)) :
    ∀ task ∈ sh.queue, ∀ f ∈ task.fiber, ∀ u ∈ cfg.threads, ¬ (Function.update s.thr t th u).Spent sh f := by
  intro task queued f named u among spent
  have owned := regular.owned
  rcases moves.requeues calm.closing queued with old | ⟨b, g, pc, rfl, rfl⟩
  · -- the entry was there
    by_cases same : u = t
    · subst same
      rw [Function.update_self] at spent
      rcases moves.keeps (regular.acc u) spent with before | ⟨pc, rfl | rfl⟩
      · exact takeable.unspent task old f named u among before
      · exact calm f pc task old named
      · exact calm f pc task old named
    · rw [Function.update_of_ne same] at spent
      have held : (s.thr u).Holds f := .inr spent.1
      have frame := moves.frame (fun other => same (owned.single u t f held other)) (owned.held u f held)
      exact takeable.unspent task old f named u among ⟨spent.1, by simpa only [frame] using spent.2⟩
  · -- the fiber is queued again, and its thread lets go of it
    cases named
    have held : (s.thr t).Holds f := .inl (by simp [pc, Pc.refs])
    by_cases same : u = t
    · subst same
      rw [Function.update_self] at spent
      cases b with
      | cb => cases spent.1
      | fiber =>
        have ready := (regular.prepared u).again .fiber f pc
        rcases (regular.acc u).kept f spent.1 with switch | ⟨_, resettable | running⟩
        · simp [pc, Pc.switch] at switch
        · simp [ready, FiberState.resettable] at resettable
        · simp [pc] at running
    · rw [Function.update_of_ne same] at spent
      exact same (owned.single u t f (.inr spent.1) held)

/-- `stop()` makes no thread done while there are entries. -/
theorem StopMoves.done (moves : StopMoves cfg s s') (among : t ∈ cfg.threads) (queue : s.sh.queue ≠ [])
    (done : Done cfg s' t) : Done cfg s t := by
  cases moves with
  | early _ stopping | skipRoot _ _ stopping => exact (queue (isStopping_queue stopping)).elim
  | noRoot _ root =>
    refine done.imp id fun skipped => ?_
    exact (skipped.1 (by simpa [Setup.threads, root] using among)).elim
  | @callRoot r pc root =>
    by_cases same : t = r
    · subst same
      simp [Done, Skipped] at done
    · exact .inl (by simpa [Done, Skipped, Function.update_of_ne same, StopPc.closed] using done)
  | backRoot _ back =>
    refine done.imp id fun skipped => ?_
    rcases Setup.mem_threads among with worker | root
    · exact (skipped.1 worker).elim
    · have entry : (s.thr t).pc = .entry := skipped.2.1
      simp [back t root] at entry
  | join pc => exact done.imp id fun skipped => ⟨skipped.1, skipped.2.1, by rw [pc]; rfl⟩
  | call | first | pass | setStopping => exact done.imp id fun skipped => by simp [Skipped, StopPc.closed] at skipped

/-- `stop()` leaves queue, fibers and what the threads keep alone. -/
theorem StopMoves.still (moves : StopMoves cfg s s')
    (waiting : s.stop.beforeRoot = true → ∀ r ∈ cfg.rootThread, s.thr r = {}) :
    s'.sh.queue = s.sh.queue ∧ s'.sh.fibers = s.sh.fibers ∧
      ∀ t, (s'.thr t).cbFiber = (s.thr t).cbFiber ∧ (s'.thr t).pc.switch = (s.thr t).pc.switch := by
  cases moves with
  | @callRoot r pc root =>
    refine ⟨rfl, rfl, fun t => ?_⟩
    by_cases same : t = r
    · subst same
      simp [waiting (by rw [pc]; rfl) t root, Pc.switch]
    · simp [Function.update_of_ne same]
  | _ => exact ⟨rfl, rfl, fun _ => ⟨rfl, rfl⟩⟩

theorem Takeable.step (takeable : Takeable cfg s) (regular : Regular cfg s) (calm : Calm s a)
    (step : step cfg s a = some s') : Takeable cfg s' := by
  obtain ⟨_, moves⟩ := step_cases step
  cases moves with
  | thread moves => exact ⟨takeable.thread_served regular.owned moves calm, takeable.thread_unspent regular moves calm⟩
  | external | create => exact calm.elim
  | stop moves =>
    obtain ⟨queue, fibers, same⟩ := moves.still regular.owned.waiting
    constructor
    · intro task queued
      rw [queue] at queued
      obtain ⟨v, among, allowed, scans⟩ := takeable.served task queued
      exact ⟨v, among, allowed, fun done => scans (moves.done among (List.ne_nil_of_mem queued) done)⟩
    · intro task queued f named t among spent
      rw [queue] at queued
      refine takeable.unspent task queued f named t among ?_
      simpa only [Thread.Spent, same t, fibers] using spent

/-! ## The measure -/

/-- The steps of `stop()`. -/
def StopPc.ahead : StopPc → Nat
  | .notCalled => 7
  | .first => 6
  | .firstStopping => 5
  | .setStopping => 4
  | .test => 3
  | .inRoot => 2
  | .join => 1
  | .returned => 0

/-- The work in the queue and in the hands of the threads. -/
def State.load (cfg : Setup) (s : State) : Nat :=
  entryLoad * s.sh.queue.length + ∑ t ∈ cfg.threads, (s.thr t).pc.load s.sh.fibers

/-- What a thread with nothing in hand is on the way to. -/
def Thread.ahead (work : Nat) (th : Thread) : Nat := if work = 0 then th.toExit else th.pc.toLoop

/-- The steps to the next scans while there is work, out of `run()` when there is none. -/
def State.ahead (cfg : Setup) (s : State) : Nat :=
  s.stop.ahead + ∑ t ∈ cfg.threads, (s.thr t).ahead (s.load cfg)

def State.rank (cfg : Setup) (s : State) : Nat ×ₗ Nat := toLex (s.load cfg, s.ahead cfg)

theorem State.rank_lt (less : s'.load cfg < s.load cfg ∨ s'.load cfg = s.load cfg ∧ s'.ahead cfg < s.ahead cfg) :
    s'.rank cfg < s.rank cfg := Prod.Lex.toLex_lt_toLex.mpr less

/-- There is no work exactly when the queue is empty and nobody has a task in hand. -/
theorem State.load_eq_zero :
    s.load cfg = 0 ↔ s.sh.queue = [] ∧ ∀ t ∈ cfg.threads, (s.thr t).pc.handles = false := by
  rw [State.load, Nat.add_eq_zero_iff, Finset.sum_eq_zero_iff, Nat.mul_eq_zero, List.length_eq_zero_iff]
  simp [Pc.load_eq_zero, entryLoad]

/-- A sum in which one summand changes. -/
theorem sum_step {S : Finset Tid} {x y : Tid → Nat} (among : t ∈ S) (others : ∀ u ∈ S, u ≠ t → y u = x u) :
    ∑ u ∈ S, y u + x t = ∑ u ∈ S, x u + y t := by
  have first := Finset.add_sum_erase S x among
  have second := Finset.add_sum_erase S y among
  have same : ∑ u ∈ S.erase t, y u = ∑ u ∈ S.erase t, x u :=
    Finset.sum_congr rfl fun u member => others u (Finset.mem_of_mem_erase member) (Finset.ne_of_mem_erase member)
  omega

/-- One thread moves. -/
theorem sum_update {S : Finset Tid} (thr : Tid → Thread) (th : Thread) (g : Thread → Nat) (among : t ∈ S) :
    ∑ u ∈ S, g (Function.update thr t th u) + g (thr t) = ∑ u ∈ S, g (thr u) + g th := by
  have sums := sum_step (x := fun u => g (thr u)) (y := fun u => g (Function.update thr t th u)) among
    fun u _ apart => by rw [Function.update_of_ne apart]
  simpa only [Function.update_self] using sums

/-- Work is taken on by the scan and got rid of by each step with a task in hand. -/
theorem Regular.less_load (regular : Regular cfg s) (moves : Moves cfg t (s.thr t) s.sh m th sh)
    (alive : sh.failed = none) (closing : (Act.thread t m).closing = true)
    (handles : (s.thr t).pc.handles = true ∨ th.pc.handles = true) :
    State.load cfg { s with thr := Function.update s.thr t th, sh } < s.load cfg := by
  have owned := regular.owned
  have own := moves.load alive closing handles
  have sums := sum_step (x := fun u => (s.thr u).pc.load s.sh.fibers)
    (y := fun u => (Function.update s.thr t th u).pc.load sh.fibers) (owned.mover moves) fun u _ apart => by
      rw [Function.update_of_ne apart]
      refine Pc.load_frame fun f refs => moves.frame (fun other => ?_) (owned.held u f (.inl refs))
      exact apart (owned.single u t f (.inl refs) other)
  simp only [Function.update_self] at sums
  unfold State.load
  dsimp only
  omega

/-- A thread with nothing in hand that gets on. -/
theorem State.rank_quiet (among : t ∈ cfg.threads) (queue : sh.queue = s.sh.queue) (fibers : sh.fibers = s.sh.fibers)
    (before : (s.thr t).pc.handles = false) (after : th.pc.handles = false)
    (less : th.ahead (s.load cfg) < (s.thr t).ahead (s.load cfg)) :
    State.rank cfg { s with thr := Function.update s.thr t th, sh } < s.rank cfg := by
  have load : State.load cfg { s with thr := Function.update s.thr t th, sh } = s.load cfg := by
    have sums := sum_update s.thr th (fun th => th.pc.load s.sh.fibers) among
    simp only [Pc.load_eq_zero.mpr before, Pc.load_eq_zero.mpr after] at sums
    simp only [State.load, queue, fibers]
    omega
  refine State.rank_lt (.inr ⟨load, ?_⟩)
  have sums := sum_update s.thr th (fun th => th.ahead (s.load cfg)) among
  simp only [State.ahead, load]
  omega

/-- Every step of `stop()` gets it on. -/
theorem StopMoves.less (moves : StopMoves cfg s s')
    (waiting : s.stop.beforeRoot = true → ∀ r ∈ cfg.rootThread, s.thr r = {}) : s'.rank cfg < s.rank cfg := by
  have threads : ∀ {stop : StopPc} {root : FiberState} {sh : Shared}, sh.queue = s.sh.queue → sh.fibers = s.sh.fibers →
      stop.ahead < s.stop.ahead → State.rank cfg { s with sh, stop, root } < s.rank cfg := by
    intro stop root sh queue fibers less
    have load : State.load cfg { s with sh, stop, root } = s.load cfg := by simp only [State.load, queue, fibers]
    refine State.rank_lt (.inr ⟨load, ?_⟩)
    simp only [State.ahead, load]
    omega
  cases moves with
  | call pc | first pc | early pc | setStopping pc | noRoot pc | skipRoot pc | backRoot pc | join pc =>
    exact threads rfl rfl (by rw [pc]; simp [StopPc.ahead])
  | pass pc => exact threads rfl rfl (by rcases pc with pc | pc <;> rw [pc] <;> simp [StopPc.ahead])
  | @callRoot r pc root =>
    have own : s.thr r = {} := waiting (by rw [pc]; rfl) r root
    have less : Thread.ahead (s.load cfg) { s.thr r with pc := .loop } < (s.thr r).ahead (s.load cfg) := by
      rw [own]
      unfold Thread.ahead
      split <;> simp [Thread.toExit, Thread.roundLeft, Pc.toLoop]
    let called : State := { s with stop := .inRoot, root := .exec }
    have moved : State.rank cfg { called with thr := Function.update s.thr r { s.thr r with pc := .loop } } <
        called.rank cfg :=
      State.rank_quiet (Setup.root_mem root) rfl rfl (by rw [show called.thr r = {} from own]; rfl) rfl less
    exact moved.trans (threads rfl rfl (by rw [pc]; simp [StopPc.ahead]))

/-! ## There is always a step -/

theorem step_thread (alive : s.sh.failed = none) (moved : threadStep cfg t (s.thr t) s.sh m = some (th, sh)) :
    step cfg s (.thread t m) = some { s with thr := Function.update s.thr t th, sh } := by
  simp [step, alive, moved]

/-- A step on the way: the dequeue is free, the step calm, and the measure falls. -/
def OnTheWay (cfg : Setup) (s : State) (a : Act) (s' : State) : Prop :=
  (FreeDequeue cfg s a ∧ Calm s a) ∧ step cfg s a = some s' ∧ s'.rank cfg < s.rank cfg

theorem Regular.stop (regular : Regular cfg s) (alive : s.sh.failed = none) (moved : (stopStep cfg s).isSome = true) :
    ∃ s', OnTheWay cfg s .stop s' := by
  obtain ⟨s', moved⟩ := Option.isSome_iff_exists.mp moved
  exact ⟨s', ⟨trivial, trivial⟩, by simp [step, alive, moved], (stopStep_cases moved).less regular.owned.waiting⟩

/-- A thread with a task in hand. -/
theorem Regular.busy (regular : Regular cfg s) (alive : s.sh.failed = none) (handles : (s.thr t).pc.handles = true) :
    ∃ a s', OnTheWay cfg s a s' := by
  obtain ⟨m, some, calm⟩ : ∃ m, (threadStep cfg t (s.thr t) s.sh m).isSome = true ∧ Calm s (.thread t m) :=
    exists_calm (regular.prepared t) handles
  obtain ⟨⟨th, sh⟩, moved⟩ := Option.isSome_iff_exists.mp some
  have step := step_thread alive moved
  have free : FreeDequeue cfg s (.thread t m) := by
    intro loop
    simp [loop, Pc.handles, Pc.active, Pc.uncounted] at handles
  exact ⟨_, _, ⟨free, calm⟩, step, State.rank_lt (.inl
    (regular.less_load (threadStep_cases moved) (regular.alive alive step) calm.closing (.inl handles)))⟩

/-- A thread with nothing in hand, off the scan or with nothing to scan. -/
theorem Regular.quiet (regular : Regular cfg s) (alive : s.sh.failed = none) (among : t ∈ cfg.threads)
    (quiet : (s.thr t).pc.handles = false) (inside : (s.thr t).pc ≠ .exited)
    (entry : (s.thr t).pc = .entry → t ∈ cfg.workers) (scan : (s.thr t).pc = .loop → s.sh.queue = [])
    (way : s.load cfg = 0 ∧ s.sh.isStopping = true ∨ s.load cfg ≠ 0 ∧ (s.thr t).pc ≠ .loop) :
    ∃ a s', OnTheWay cfg s a s' := by
  have outside : ∀ b f, (s.thr t).pc ≠ .running b f := fun b f pc => by
    simp [pc, Pc.handles, Pc.active] at quiet
  have some : (nextStep cfg t (s.thr t) s.sh).isSome = true := nextStep_isSome inside entry outside
  obtain ⟨⟨th, sh⟩, moved⟩ := Option.isSome_iff_exists.mp some
  have step := step_thread (m := .next) alive moved
  have safe := regular.alive alive step
  obtain ⟨queue, fibers, after, toLoop⟩ := (threadStep_cases (m := .next) moved).quiet safe quiet scan
  refine ⟨.thread t .next, _, ⟨?_, fun loop _ => scan loop⟩, step, State.rank_quiet among queue fibers quiet after ?_⟩
  · intro loop found taken
    rw [scan loop] at taken
    cases taken
  · unfold Thread.ahead
    rcases way with ⟨none, stopping⟩ | ⟨work, off⟩
    · rw [if_pos none, if_pos none]
      exact nextStep_toExit moved safe quiet stopping
    · rw [if_neg work, if_neg work]
      exact toLoop off

/-- A thread at the scan that may take the head. -/
theorem Regular.take {task : Task} {rest : List Task} (regular : Regular cfg s) (alive : s.sh.failed = none)
    (takeable : Takeable cfg s) (quiet : ∀ u ∈ cfg.threads, (s.thr u).pc.handles = false)
    (queue : s.sh.queue = task :: rest) (loop : (s.thr t).pc = .loop)
    (allowed : ∀ u ∈ task.thread, u = t) : ∃ a s', OnTheWay cfg s a s' := by
  have member : task ∈ s.sh.queue := by simp [queue]
  have taken : skips t s.sh.fibers task = false := by
    rw [skips, Bool.or_eq_false_iff]
    constructor
    · simp only [Option.any_eq_false, bne_eq_false_iff_eq]
      exact allowed
    · -- a fiber in `EXEC` is in the hands of a thread
      simp only [Option.any_eq_false, beq_eq_false_iff_ne]
      intro f _ exec
      obtain ⟨u, b, pc⟩ := regular.owned.running f exec
      have idle := quiet u (regular.owned.member (by simp [pc]))
      simp [pc, Pc.handles, Pc.active] at idle
  have found : dequeue t s.sh.fibers s.sh.queue = some (task, rest) := by simp [queue, dequeue, taken]
  have moved : threadStep cfg t (s.thr t) s.sh .next =
      some ({ s.thr t with pc := .dispatch (some task) }, { s.sh with queue := rest, active := incr s.sh.active }) := by
    simp [threadStep, nextStep, loop, found]
  have step := step_thread alive moved
  have safe := regular.alive alive step
  have less := regular.less_load (threadStep_cases moved) safe rfl (.inr rfl)
  refine ⟨.thread t .next, _, ⟨?_, fun _ missed => ?_⟩, step, State.rank_lt (.inl less)⟩
  · intro _ other same f named u among _ held
    rw [found] at same
    cases same
    -- `u` has nothing in hand, so it keeps the fiber for the next callback
    obtain ⟨refs, switch⟩ := Pc.refs_eq_none (quiet u among)
    have kept : (s.thr u).cbFiber = some f := held.resolve_left (by simp [refs])
    exact takeable.unspent task member f named u among ⟨kept, by simp [switch]⟩
  · rw [found] at missed
    cases missed

/-- Until it waits for the threads `stop()` can always go on. -/
theorem stopStep_early (early : s.stop.beforeRoot = true) : (stopStep cfg s).isSome = true := by
  cases pc : s.stop with
  | notCalled | firstStopping | setStopping => simp [stopStep, pc]
  | first =>
    simp only [stopStep, pc]
    split <;> rfl
  | test =>
    simp only [stopStep, pc]
    split
    · rfl
    · split <;> rfl
  | inRoot | join | returned => simp [pc, StopPc.beforeRoot] at early

/-- When everybody has left, but for a root thread that was never called, `stop()` waits no longer. -/
theorem Regular.joins (regular : Regular cfg s) (late : s.stop = .inRoot ∨ s.stop = .join)
    (left : ∀ t ∈ cfg.threads, (s.thr t).pc ≠ .exited → (s.thr t).pc = .entry ∧ t ∉ cfg.workers) :
    (stopStep cfg s).isSome = true := by
  rcases late with pc | pc
  · have back : ∀ r ∈ cfg.rootThread, (s.thr r).pc = .exited := by
      intro r root
      by_contra going
      exact regular.phased.inside pc r root (left r (Setup.root_mem root) going).1
    cases root : cfg.rootThread with
    | none => simp [stopStep, pc, root]
    | some r => simp [stopStep, pc, root, back r root]
  · have all : joined cfg s := by
      intro t worker
      by_contra going
      exact (left t (Setup.worker_mem worker) going).2 worker
    simp [stopStep, pc, all]

/-- With nothing queued and nothing in hand `stopping()` is true. -/
theorem Regular.stopping (regular : Regular cfg s) (late : s.stop = .inRoot ∨ s.stop = .join)
    (quiet : ∀ t ∈ cfg.threads, (s.thr t).pc.handles = false) (queue : s.sh.queue = []) : s.sh.isStopping = true := by
  rw [isStopping_iff]
  refine ⟨regular.flagged.after ?_, regular.phased.flag (.inr late), queue, ?_⟩
  · rcases late with pc | pc <;> simp [pc]
  · rw [regular.counts.active, Finset.card_eq_zero, threadsAt, Finset.filter_eq_empty_iff]
    intro t among active
    have idle := quiet t among
    simp [Pc.handles, active] at idle

/-- While there are entries, a thread that may take the head takes it, or gets on to the scan. -/
theorem Regular.scan {task : Task} {rest : List Task} (regular : Regular cfg s) (alive : s.sh.failed = none)
    (takeable : Takeable cfg s) (late : s.stop = .inRoot ∨ s.stop = .join)
    (quiet : ∀ t ∈ cfg.threads, (s.thr t).pc.handles = false) (queue : s.sh.queue = task :: rest) :
    ∃ a s', OnTheWay cfg s a s' := by
  obtain ⟨t, among, allowed, scans⟩ := takeable.served task (by simp [queue])
  by_cases loop : (s.thr t).pc = .loop
  · exact regular.take alive takeable quiet queue loop allowed
  · have inside : (s.thr t).pc ≠ .exited := fun exited =>
      scans (.inl ⟨regular.closing.exited t exited, .inr exited⟩)
    have called : (s.thr t).pc = .entry → t ∈ cfg.workers := by
      intro entry
      refine (Setup.mem_threads among).resolve_right fun root => ?_
      rcases late with inRoot | join
      · exact regular.phased.inside inRoot t root entry
      · exact scans (.inr ⟨cfg.apart t root, entry, by rw [join]; rfl⟩)
    have work : s.load cfg ≠ 0 := fun none => by simp [State.load_eq_zero, queue] at none
    exact regular.quiet alive among (quiet t among) inside called (fun at_ => (loop at_).elim) (.inr ⟨work, loop⟩)

/-- Until `stop()` has returned there is a step on the way. -/
theorem Regular.progress (regular : Regular cfg s) (alive : s.sh.failed = none) (takeable : Takeable cfg s)
    (going : s.stop ≠ .returned) : ∃ a s', OnTheWay cfg s a s' := by
  by_cases early : s.stop.beforeRoot = true
  · exact ⟨.stop, regular.stop alive (stopStep_early early)⟩
  have late : s.stop = .inRoot ∨ s.stop = .join := by
    cases pc : s.stop <;> simp_all [StopPc.beforeRoot]
  by_cases busy : ∃ t ∈ cfg.threads, (s.thr t).pc.handles = true
  · obtain ⟨t, _, handles⟩ := busy
    exact regular.busy alive handles
  have quiet : ∀ t ∈ cfg.threads, (s.thr t).pc.handles = false := fun t among => by
    simpa using fun handles => busy ⟨t, among, handles⟩
  cases queue : s.sh.queue with
  | cons task rest => exact regular.scan alive takeable late quiet queue
  | nil =>
    have none : s.load cfg = 0 := State.load_eq_zero.mpr ⟨queue, quiet⟩
    have stopping := regular.stopping late quiet queue
    by_cases inside : ∃ t ∈ cfg.threads, (s.thr t).pc ≠ .exited ∧ ((s.thr t).pc = .entry → t ∈ cfg.workers)
    · obtain ⟨t, among, inside, entry⟩ := inside
      exact regular.quiet alive among (quiet t among) inside entry (fun _ => queue) (.inl ⟨none, stopping⟩)
    · refine ⟨.stop, regular.stop alive (regular.joins late fun t among going => ?_)⟩
      simpa using fun entry => inside ⟨t, among, going, entry⟩

/-! ## The result -/

/-- A step that adds no work takes no new callback. -/
theorem closing_nextTicket (closing : a.closing = true) (step : step cfg s a = some s') :
    s'.sh.nextTicket = s.sh.nextTicket := by
  obtain ⟨_, moves⟩ := step_cases step
  cases moves with
  | thread moves =>
    cases moves with
    | schedule => cases closing
    | _ => rfl
  | external | create => cases closing
  | stop moves => cases moves <;> rfl

/-- When `stop()` has returned with an empty queue, each callback has been started once. -/
theorem started_once (run : Guarded (step cfg) (FreeDequeue cfg) {} as s) (returned : s.stop = .returned)
    (empty : s.sh.queue = []) : ∀ k < s.sh.nextTicket, s.sh.started.count k = 1 := by
  intro k minted
  have count := (Tickets.run run).count k
  have hands : ∑ t ∈ cfg.threads, ((s.thr t).hands s.sh).count k = 0 := by
    refine Finset.sum_eq_zero fun t among => ?_
    rcases ((Closing.run run).left returned among).1 with pc | pc <;> simp [Thread.hands, pc]
  have one : (List.range s.sh.nextTicket).count k = 1 :=
    List.count_eq_one_of_mem List.nodup_range (List.mem_range.mpr minted)
  rw [hands, Shared.queued, empty, Shared.minted, one] at count
  simpa using count

/-- **Shutdown never gets stuck.** From every state of a run whose dequeues take
free fibers, in which each entry of the queue can be taken, there is a way on by
steps that add no work after which `stop()` has returned: all threads have left,
the queue is empty, every callback scheduled so far has been started exactly
once, and no assertion has failed. -/
theorem stop_returns (small : cfg.threads.card < UInt64.size) (run : Guarded (step cfg) (FreeDequeue cfg) {} as s)
    (takeable : Takeable cfg s) :
    ∃ bs s', Guarded (step cfg) (fun s a => FreeDequeue cfg s a ∧ a.closing = true) s bs s' ∧
      s'.stop = .returned ∧ (∀ t ∈ cfg.threads, (s'.thr t).pc = .exited ∨ (s'.thr t).pc = .entry) ∧
      s'.sh.queue = [] ∧ s'.sh.failed = none ∧ ∀ k < s.sh.nextTicket, s'.sh.started.count k = 1 := by
  let I : State → Prop := fun s' => (∃ as, Guarded (step cfg) (FreeDequeue cfg) {} as s') ∧ Takeable cfg s' ∧
    s'.sh.nextTicket = s.sh.nextTicket
  have progress : ∀ s, I s → s.stop ≠ .returned → ∃ a s', (FreeDequeue cfg s a ∧ Calm s a) ∧ step cfg s a = some s' ∧
      I s' ∧ s'.rank cfg < s.rank cfg := by
    rintro s ⟨⟨as, run⟩, takeable, tickets⟩ going
    have regular := Regular.run small run
    obtain ⟨a, s', ⟨free, calm⟩, step, less⟩ := regular.progress (alive_run small run) takeable going
    refine ⟨a, s', ⟨free, calm⟩, step, ⟨⟨_, run.snoc free step⟩, takeable.step regular calm step, ?_⟩, less⟩
    exact (closing_nextTicket calm.closing step).trans tickets
  have start : I s := ⟨⟨as, run⟩, takeable, rfl⟩
  obtain ⟨bs, s', way, ⟨⟨cs, run'⟩, takeable', tickets⟩, returned⟩ := Guarded.reaches (State.rank cfg) progress start
  have left := fun t among => (Closing.run run').left (t := t) returned among
  have empty : s'.sh.queue = [] := by
    rw [List.eq_nil_iff_forall_not_mem]
    intro task queued
    obtain ⟨t, among, _, scans⟩ := takeable'.served task queued
    exact scans (left t among).2
  refine ⟨bs, s', way.mono fun _ _ met => ⟨met.1, met.2.closing⟩, returned, fun t among => (left t among).1, empty,
    alive_run small run', fun k minted => ?_⟩
  exact started_once run' returned empty k (by rwa [tickets])

/-- Thread 1 executes a callback, on fiber 1, that has scheduled itself; fiber 0
waits for thread 2, a second callback for thread 1. -/
def midway : List Act :=
  [.create, .external (.one .cb none)] ++ go 1 4 ++ go 2 2 ++
    [.thread 1 (.user (.schedule (.one (.fiber 1) none))), .external (.one (.fiber 0) (some 2)),
      .external (.one .cb (some 1))]

theorem stop_returns_midway :
    ∃ s, Guarded (step twoWorkers) (FreeDequeue twoWorkers) {} midway s ∧ (s.thr 1).pc = .running .cb 1 ∧
      s.stop = .notCalled ∧ s.sh.queue.length = 3 ∧ s.sh.nextTicket = 2 ∧
      ∃ bs s', Guarded (step twoWorkers) (fun s a => FreeDequeue twoWorkers s a ∧ a.closing = true) s bs s' ∧
        s'.stop = .returned ∧ (∀ t ∈ twoWorkers.threads, (s'.thr t).pc = .exited ∨ (s'.thr t).pc = .entry) ∧
        s'.sh.queue = [] ∧ s'.sh.failed = none ∧ ∀ k < s.sh.nextTicket, s'.sh.started.count k = 1 := by
  obtain ⟨s, run, test⟩ := Guarded.of_any
    (show (execIf (step twoWorkers) (FreeDequeue twoWorkers) {} midway).any (fun s =>
      ((s.thr 1).pc = .running .cb 1 ∧ s.stop = .notCalled ∧ s.sh.queue.length = 3 ∧ s.sh.nextTicket = 2) ∧
        (∀ task ∈ s.sh.queue, Served twoWorkers s task.thread) ∧
        ∀ task ∈ s.sh.queue, ∀ f ∈ task.fiber, ∀ t ∈ twoWorkers.threads, ¬ (s.thr t).Spent s.sh f) from by
          decide +kernel)
  obtain ⟨⟨running, called, three, tickets⟩, served, unspent⟩ := of_decide_eq_true test
  exact ⟨s, run, running, called, three, tickets, stop_returns (by decide) run ⟨served, unspent⟩⟩

end Atpdxy.Sched
