import Atpdxy.Sched.Ownership

/-!
# A fiber executes on one thread at a time

`Owned` is what ownership keeps along a run whose dequeues take free fibers:
no two threads refer to one fiber, and a fiber in `EXEC` has its code executed
by some thread. The assertion of `swapIn` follows, since a thread about to
switch into a fiber refers to it.

Without the condition the property fails twice over (`double_entry`,
`early_resume`): the scan tests `m_state != EXEC`, but the state becomes `EXEC`
only after the lock is released, and stops being `EXEC` before the context has
been switched out.
-/

namespace Atpdxy.Sched

open Run

variable {cfg : Setup} {t u : Tid} {m : Move} {th th' : Thread} {sh sh' : Shared} {s s' : State} {a : Act} {f : FiberId}
  {as : List Act}

/-- `stop()` has not yet decided about `m_rootFiber->call()`. -/
def StopPc.beforeRoot : StopPc → Bool
  | .inRoot | .join | .returned => false
  | _ => true

/-- What ownership keeps. -/
structure Owned (cfg : Setup) (s : State) : Prop where
  /-- other threads are never in `run()` -/
  outside : ∀ t, t ∉ cfg.threads → s.thr t = {}
  queued : s.sh.Known
  held : ∀ t f, (s.thr t).Holds f → f < s.sh.nextFiber
  single : ∀ t u f, (s.thr t).Holds f → (s.thr u).Holds f → t = u
  running : ∀ f, (s.sh.fibers f).state = .exec → ∃ t b, (s.thr t).pc = .running b f
  idle : ∀ t, (s.thr t).IdleOk
  /-- the root thread waits for `call()` -/
  waiting : s.stop.beforeRoot = true → ∀ r ∈ cfg.rootThread, s.thr r = {}

theorem not_holds_default : ¬ ({} : Thread).Holds f := by simp [Thread.Holds, Pc.refs]

theorem Setup.worker_mem (worker : t ∈ cfg.workers) : t ∈ cfg.threads := by
  unfold Setup.threads
  cases cfg.rootThread with
  | none => exact worker
  | some r => exact Finset.mem_insert_of_mem worker

theorem Setup.root_mem {r : Tid} (root : cfg.rootThread = some r) : r ∈ cfg.threads := by
  simp [Setup.threads, root]

theorem Setup.mem_threads (among : t ∈ cfg.threads) : t ∈ cfg.workers ∨ cfg.rootThread = some t := by
  unfold Setup.threads at among
  cases root : cfg.rootThread with
  | none => exact .inl (by simpa [root] using among)
  | some r =>
    rw [root] at among
    rcases Finset.mem_insert.mp among with rfl | worker
    · exact .inr rfl
    · exact .inl worker

theorem Owned.start : Owned cfg {} where
  outside _ _ := rfl
  queued := by simp [Shared.Known]
  held _ _ held := (not_holds_default held).elim
  single _ _ _ held := (not_holds_default held).elim
  running _ exec := by cases exec
  idle _ := by simp [Thread.IdleOk]
  waiting _ _ _ := rfl

/-- A thread in `run()` is one of the scheduler's. -/
theorem Owned.member (owned : Owned cfg s) (inside : (s.thr t).pc ≠ .entry) : t ∈ cfg.threads := by
  by_contra outside
  exact inside (by rw [owned.outside t outside])

theorem Owned.holder_mem (owned : Owned cfg s) (held : (s.thr t).Holds f) : t ∈ cfg.threads := by
  by_contra outside
  rw [owned.outside t outside] at held
  exact not_holds_default held

/-- Only a worker starts by itself. -/
theorem Moves.worker (moves : Moves cfg t th sh m th' sh') (pc : th.pc = .entry) : t ∈ cfg.workers := by
  cases moves with
  | start _ worker => exact worker
  | _ => simp_all

theorem Owned.mover (owned : Owned cfg s) (moves : Moves cfg t (s.thr t) s.sh m th sh) : t ∈ cfg.threads := by
  by_cases entry : (s.thr t).pc = .entry
  · exact Setup.worker_mem (moves.worker entry)
  · exact owned.member entry

/-- The queue keeps naming fibers that exist. -/
theorem Moves.known (moves : Moves cfg t th sh m th' sh') (known : sh.Known)
    (held : ∀ f, th.Holds f → f < sh.nextFiber) : sh'.Known := by
  cases moves with
  | take pc found => exact fun task queued => known task ((dequeue_mem found).2 queued)
  | make => exact fun task queued f named => Nat.lt_succ_of_lt (known task queued f named)
  | requeue pc =>
    intro task queued f named
    rcases List.mem_append.mp queued with queued | queued
    · exact known task queued f named
    · obtain rfl := List.mem_singleton.mp queued
      cases named
      exact held _ (.inl (by simp [pc, Pc.refs]))
  | schedule pc exists_ => exact schedule_known known exists_
  | _ => simpa [Shared.Known] using known

/-- A thread refers to fibers that exist. -/
theorem Moves.made (moves : Moves cfg t th sh m th' sh') (known : sh.Known)
    (held : ∀ f, th.Holds f → f < sh.nextFiber) :
    ∀ f, th'.Holds f → f < sh'.nextFiber := by
  intro f holds
  rcases moves.holds holds with before | ⟨_, ⟨ft, rest⟩, taken, named⟩ | ⟨rfl, next⟩
  · exact Nat.lt_of_lt_of_le (held f before) moves.nextFiber
  · exact Nat.lt_of_lt_of_le (known ft (dequeue_mem taken).1 f named) moves.nextFiber
  · rw [next]
    exact Nat.lt_succ_self _

theorem Owned.thread (owned : Owned cfg s) (moves : Moves cfg t (s.thr t) s.sh m th sh)
    (free : (s.thr t).pc = .loop → ∀ found ∈ dequeue t s.sh.fibers s.sh.queue, ∀ f ∈ found.1.fiber,
      ∀ u ∈ cfg.threads, u ≠ t → ¬ (s.thr u).Holds f) :
    Owned cfg { s with thr := Function.update s.thr t th, sh } := by
  have other : ∀ u, u ≠ t → Function.update s.thr t th u = s.thr u :=
    fun u apart => Function.update_of_ne apart _ _
  have own : Function.update s.thr t th t = th := Function.update_self ..
  -- a reference another thread has is none that `t` gets by its step
  have single : ∀ u f, u ≠ t → (s.thr u).Holds f → ¬ th.Holds f := by
    intro u f apart held heldT
    rcases moves.holds heldT with heldT | ⟨pc, found, taken, named⟩ | ⟨rfl, _⟩
    · exact apart (owned.single u t f held heldT)
    · exact free pc found taken f named u (owned.holder_mem held) apart held
    · exact Nat.lt_irrefl _ (owned.held u _ held)
  constructor
  case outside =>
    intro u out
    by_cases same : u = t
    · subst same
      exact (out (Setup.worker_mem (moves.worker (by rw [owned.outside u out])))).elim
    · exact (other u same).trans (owned.outside u out)
  case queued => exact moves.known owned.queued (owned.held t)
  case held =>
    intro u f held
    by_cases same : u = t
    · subst same
      simp only [own] at held
      exact moves.made owned.queued (owned.held u) f held
    · simp only [other u same] at held
      exact Nat.lt_of_lt_of_le (owned.held u f held) moves.nextFiber
  case single =>
    intro u v f heldU heldV
    by_cases sameU : u = t <;> by_cases sameV : v = t
    · exact sameU.trans sameV.symm
    · subst sameU
      simp only [own, other v sameV] at heldU heldV
      exact (single v f sameV heldV heldU).elim
    · subst sameV
      simp only [own, other u sameU] at heldU heldV
      exact (single u f sameU heldU heldV).elim
    · simp only [other u sameU, other v sameV] at heldU heldV
      exact owned.single u v f heldU heldV
  case running =>
    intro f exec
    rcases moves.exec exec with ⟨b, pc⟩ | ⟨exec, left⟩
    · exact ⟨t, b, by simp only [own, pc]⟩
    · obtain ⟨u, b, pc⟩ := owned.running f exec
      have apart : u ≠ t := by
        rintro rfl
        exact left b pc
      exact ⟨u, b, by simp only [other u apart, pc]⟩
  case idle =>
    intro u
    by_cases same : u = t
    · subst same
      simp only [own]
      exact moves.idleOk (owned.idle u)
    · simp only [other u same]
      exact owned.idle u
  case waiting =>
    intro before r root
    have still := owned.waiting before r root
    by_cases same : r = t
    · subst same
      exact (cfg.apart r root (moves.worker (by rw [still]))).elim
    · exact (other r same).trans still

/-- A change of the shared state that leaves fibers alone. -/
theorem Owned.share (owned : Owned cfg s) (fibers : sh.fibers = s.sh.fibers)
    (next : s.sh.nextFiber ≤ sh.nextFiber) (queued : sh.Known) : Owned cfg { s with sh } where
  outside := owned.outside
  queued := queued
  held t f held := Nat.lt_of_lt_of_le (owned.held t f held) next
  single := owned.single
  running f exec := owned.running f (by simpa only [fibers] using exec)
  idle := owned.idle
  waiting := owned.waiting

/-- A step of `stop()` that moves no thread. -/
theorem Owned.flags {stop : StopPc} (root : FiberState) (owned : Owned cfg s)
    (fibers : sh.fibers = s.sh.fibers) (next : sh.nextFiber = s.sh.nextFiber)
    (queue : sh.queue = s.sh.queue) (later : stop.beforeRoot = true → s.stop.beforeRoot = true) :
    Owned cfg { s with sh, stop, root } where
  outside := owned.outside
  queued := by simpa only [Shared.Known, next, queue] using owned.queued
  held t f held := by simpa only [next] using owned.held t f held
  single := owned.single
  running f exec := owned.running f (by simpa only [fibers] using exec)
  idle := owned.idle
  waiting before := owned.waiting (later before)

/-- The root thread enters `run()`. -/
theorem Owned.callRoot {r : Tid} (owned : Owned cfg s) (pc : s.stop = .test) (root : cfg.rootThread = some r) :
    Owned cfg { s with
      stop := .inRoot
      root := .exec
      thr := Function.update s.thr r { s.thr r with pc := .loop } } := by
  have waiting : s.thr r = {} := owned.waiting (by rw [pc]; rfl) r root
  have other : ∀ u, u ≠ r → Function.update s.thr r { s.thr r with pc := .loop } u = s.thr u :=
    fun u apart => Function.update_of_ne apart _ _
  have holds : ∀ u f, (Function.update s.thr r { s.thr r with pc := .loop } u).Holds f → (s.thr u).Holds f := by
    intro u f held
    by_cases same : u = r
    · subst same
      simp [waiting, Thread.Holds, Pc.refs] at held
    · rwa [other u same] at held
  constructor
  case outside =>
    intro u out
    have apart : u ≠ r := by
      rintro rfl
      exact out (Setup.root_mem root)
    exact (other u apart).trans (owned.outside u out)
  case queued => exact owned.queued
  case held => exact fun u f held => owned.held u f (holds u f held)
  case single => exact fun u v f heldU heldV => owned.single u v f (holds u f heldU) (holds v f heldV)
  case running =>
    intro f exec
    obtain ⟨u, b, pc⟩ := owned.running f exec
    have apart : u ≠ r := by
      rintro rfl
      simp [waiting] at pc
    exact ⟨u, b, by simp only [other u apart, pc]⟩
  case idle =>
    intro u
    by_cases same : u = r
    · subst same
      simp [Thread.IdleOk, waiting]
    · simp only [other u same]
      exact owned.idle u
  case waiting => exact fun before => by cases before

theorem Owned.stop (owned : Owned cfg s) (moves : StopMoves cfg s s') : Owned cfg s' := by
  cases moves with
  | callRoot pc root => exact owned.callRoot pc root
  | pass pc =>
    exact owned.flags s.root rfl rfl rfl fun _ => by rcases pc with pc | pc <;> rw [pc] <;> rfl
  | call pc | first pc | early pc | setStopping pc | noRoot pc | skipRoot pc =>
    exact owned.flags s.root rfl rfl rfl fun _ => by rw [pc]; rfl
  | backRoot pc => exact owned.flags .term rfl rfl rfl fun before => by cases before
  | join pc => exact owned.flags s.root rfl rfl rfl fun before => by cases before

theorem Owned.step (owned : Owned cfg s) (free : FreeDequeue cfg s a) (step : step cfg s a = some s') :
    Owned cfg s' := by
  obtain ⟨_, moves⟩ := step_cases step
  cases moves with
  | thread moves => exact owned.thread moves free
  | external known =>
    exact owned.share (schedule_fibers ..) (Nat.le_of_eq (schedule_nextFiber ..).symm)
      (schedule_known owned.queued known)
  | create =>
    exact owned.share rfl (Nat.le_succ _)
      fun task queued f named => Nat.lt_succ_of_lt (owned.queued task queued f named)
  | stop moves => exact owned.stop moves

/-- Only a thread's own step fails an assertion. -/
theorem SystemMoves.failed {e : Assertion} (moves : SystemMoves cfg s a s') (alive : s.sh.failed = none)
    (thread : ∀ t m th sh, Moves cfg t (s.thr t) s.sh m th sh → sh.failed ≠ some e) :
    s'.sh.failed ≠ some e := by
  cases moves with
  | thread moves => exact thread _ _ _ _ moves
  | stop moves => cases moves <;> simp [alive]
  | _ => simp [alive]

/-- A thread about to switch into a fiber is the only one that refers to it, so
nobody executes it and its state is not `EXEC`. -/
theorem Owned.noSwapIn (owned : Owned cfg s) (alive : s.sh.failed = none)
    (moves : Moves cfg t (s.thr t) s.sh m th sh) : sh.failed ≠ some .swapIn := by
  cases moves with
  | @failSwapIn b f pc exec =>
    obtain ⟨u, b', running⟩ := owned.running f exec
    have same : t = u :=
      owned.single t u f (.inl (by simp [pc, Pc.refs])) (.inl (by simp [running, Pc.refs]))
    subst same
    simp [pc] at running
  | failIdle pc exec =>
    have idling := (owned.idle t).mp exec
    simp [pc] at idling
  | _ => simp [alive]

theorem Owned.run (run : Guarded (Sched.step cfg) (FreeDequeue cfg) {} as s) : Owned cfg s :=
  run.invariant .start fun _ _ _ _ _ owned free step => owned.step free step

theorem Thread.Executes.holds (executes : th.Executes f) : th.Holds f := by
  obtain ⟨b, pc | ⟨last, pc⟩⟩ := executes <;> exact .inl (by simp [pc, Pc.refs])

/-- **Exclusive execution.** While every dequeue takes a fiber to which no other
thread refers, no fiber is executed by two threads, and `swapIn` finds no fiber
in `EXEC`. -/
theorem exclusive (run : Guarded (Sched.step cfg) (FreeDequeue cfg) {} as s) :
    (∀ t u f, (s.thr t).Executes f → (s.thr u).Executes f → t = u) ∧ s.sh.failed ≠ some .swapIn := by
  refine ⟨fun t u f first second => (Owned.run run).single t u f first.holds second.holds, ?_⟩
  cases run with
  | refl => simp
  | snoc run _ step =>
    obtain ⟨alive, moves⟩ := step_cases step
    exact moves.failed alive fun t _ _ _ moves => (Owned.run run).noSwapIn alive moves

/-- Two workers, the threads 1 and 2. -/
def twoWorkers : Setup where
  workers := {1, 2}
  rootThread := none
  apart := by simp

/-- One fiber is handed over from thread 1 to thread 2 through the queue. -/
def handOver : List Act :=
  [.create, .external (.one (.fiber 0) none), .thread 1 .next, .thread 2 .next, .thread 1 .next,
    .thread 1 .next, .thread 1 .next, .thread 1 (.user (.schedule (.one (.fiber 0) none))),
    .thread 1 (.user .yieldHold), .thread 1 .next, .thread 1 .next, .thread 1 .next, .thread 1 .next,
    .thread 2 .next, .thread 2 .next, .thread 2 .next]

theorem exclusive_handOver :
    ∃ s : State, exec (Sched.step twoWorkers) {} handOver = some s ∧ (s.thr 2).Executes 0 ∧
      (∀ t u f, (s.thr t).Executes f → (s.thr u).Executes f → t = u) ∧ s.sh.failed ≠ some .swapIn := by
  obtain ⟨s, run, executes⟩ := Guarded.of_any
    (show (execIf (Sched.step twoWorkers) (FreeDequeue twoWorkers) {} handOver).any
      (fun s => (s.thr 2).pc = .running .fiber 0) from by decide +kernel)
  exact ⟨s, run.exec_eq, ⟨.fiber, .inl (by simpa using executes)⟩, exclusive run⟩

/-- A fiber with two entries: both threads take one before either has written `EXEC`. -/
def doubleEntry : List Act :=
  [.create, .external (.one (.fiber 0) none), .external (.one (.fiber 0) none), .thread 1 .next,
    .thread 2 .next, .thread 1 .next, .thread 2 .next, .thread 1 .next, .thread 2 .next, .thread 1 .next,
    .thread 2 .next]

/-- A fiber schedules itself and announces `HOLD`; thread 2 enters it before
thread 1 has switched it out. -/
def earlyResume : List Act :=
  [.create, .external (.one (.fiber 0) none), .thread 1 .next, .thread 2 .next, .thread 1 .next,
    .thread 1 .next, .thread 1 .next, .thread 1 (.user (.schedule (.one (.fiber 0) none))),
    .thread 1 (.user .yieldHold), .thread 2 .next, .thread 2 .next, .thread 2 .next]

/-- Without the condition both parts fail. -/
theorem not_exclusive :
    (∃ s, exec (Sched.step twoWorkers) {} earlyResume = some s ∧
      (s.thr 1).Executes 0 ∧ (s.thr 2).Executes 0) ∧
      ∃ s, exec (Sched.step twoWorkers) {} doubleEntry = some s ∧ s.sh.failed = some .swapIn := by
  constructor
  · obtain ⟨s, run, both⟩ := exec_of_any
      (show (exec (Sched.step twoWorkers) {} earlyResume).any (fun s =>
        (s.thr 1).pc = .leaving .fiber 0 false && (s.thr 2).pc = .running .fiber 0) from by decide +kernel)
    obtain ⟨leaving, running⟩ := Bool.and_eq_true_iff.mp both
    exact ⟨s, run, ⟨.fiber, .inr ⟨false, by simpa using leaving⟩⟩, ⟨.fiber, .inl (by simpa using running)⟩⟩
  · obtain ⟨s, run, failed⟩ := exec_of_any
      (show (exec (Sched.step twoWorkers) {} doubleEntry).any (fun s => s.sh.failed = some .swapIn) from
        by decide +kernel)
    exact ⟨s, run, by simpa using failed⟩

end Atpdxy.Sched
