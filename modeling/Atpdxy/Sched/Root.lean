import Atpdxy.Run.Guarded
import Atpdxy.Sched.Step
import Mathlib.Data.Finset.Card

/-!
# Entering the root fiber

A scheduler built with `use_caller`, over any history of `start()`, `schedule()` and
`stop()` on any threads, outside of tasks or in them. What a thread does in `run()` is
`threadStep`. A call of the root fiber is recorded with the thread that makes it and the
state it finds; one that does not find the root fiber new on its own thread halts the
system, since the code goes on where nothing expects it.
-/

namespace Atpdxy.Sched.Root

open Run

/-- Position of a thread in `stop()`. -/
inductive StopPc
  /-- not in `stop()` -/
  | idle
  | first
  | firstStopping
  /-- about to assert, and to set `m_stopping` -/
  | assert
  | test
  | inRoot
  /-- behind the root fiber, about to take the threads -/
  | swap
  | join (ids : Finset Tid)
  deriving DecidableEq

/-- Why the system does not go on. -/
inductive Halt
  /-- the assertion at the end of `CallerMainFunc` -/
  | neverReach
  /-- a root fiber on another thread, or switched to while it executes -/
  | astray
  deriving DecidableEq, Repr

structure Setup where
  m_rootThread : Tid
  m_threadCount : Nat

/-- The scheduler and its threads. -/
structure State where
  /-- all that `start()` has made -/
  workers : Finset Tid := ∅
  m_threads : Finset Tid := ∅
  thr : Tid → Thread := fun _ => {}
  sh : Shared := { stopping := true }
  /-- `m_rootFiber->getState()` -/
  root : FiberState := .init
  /-- each thread's calls of `stop()`, outside of tasks and in one -/
  stops : Tid × Bool → StopPc := fun _ => .idle
  /-- each `m_rootFiber->call()`: the thread, and the state it finds -/
  calls : List (Tid × FiberState) := []
  halt : Option Halt := none

variable {cfg : Setup} {s s' : State} {t : Tid} {inTask : Bool}

/-- `GetThis() == this` on thread `t`. -/
def State.getThis (cfg : Setup) (s : State) (t : Tid) : Prop :=
  t = cfg.m_rootThread ∨ (t ∈ s.workers ∧ (s.thr t).pc ≠ .entry)

/-- The code of a task executes on the thread. -/
def Pc.InTask : Pc → Prop
  | .running _ _ => True
  | _ => False

instance (cfg : Setup) (s : State) (t : Tid) : Decidable (s.getThis cfg t) := inferInstanceAs (Decidable (_ ∨ _))
instance : DecidablePred Pc.InTask
  | .running _ _ => isTrue trivial
  | .entry | .loop | .dispatch _ | .enter _ _ | .leaving _ _ _ | .dec _ _ | .settle _ _ | .requeue _ _ | .setHold _ _
  | .resetCb _ | .skip | .idleEnter | .idleSwap | .idling | .idleLeave | .idleDec | .idleSettle | .exited => isFalse id

/-- The thread is in a place that can call `stop()`. -/
def State.CanStop (s : State) (t : Tid) : Bool → Prop
  | true => Pc.InTask (s.thr t).pc
  | false => t ∉ s.workers

instance (s : State) (t : Tid) : DecidablePred (s.CanStop t)
  | true => inferInstanceAs (Decidable (Pc.InTask _))
  | false => inferInstanceAs (Decidable (_ ∉ _))

def State.put (s : State) (t : Tid) (inTask : Bool) (pc : StopPc) : State :=
  { s with stops := Function.update s.stops (t, inTask) pc }

/-- `m_rootFiber->call()` in a call of `stop()`. -/
def State.call (cfg : Setup) (s : State) (t : Tid) (inTask : Bool) : State :=
  let n := { s with calls := s.calls ++ [(t, s.root)] }
  if s.root = .term ∨ s.root = .except then { n with halt := some .neverReach }
  else if s.root = .init ∧ t = cfg.m_rootThread ∧ inTask = false then
    { n.put t inTask .inRoot with root := .exec, thr := Function.update s.thr t { pc := .loop } }
  else { n with halt := some .astray }

/-- One step of `Scheduler::stop` on thread `t`. -/
def stopStep (cfg : Setup) (s : State) (t : Tid) (inTask : Bool) : Option State :=
  match s.stops (t, inTask) with
  | .idle =>
    if s.CanStop t inTask then
      some { s.put t inTask .first with sh := { s.sh with autoStop := true } }
    else none
  | .first =>
    if cfg.m_threadCount = 0 ∧ (s.root = .term ∨ s.root = .init) then
      some { s.put t inTask .firstStopping with sh := { s.sh with stopping := true } }
    else some (s.put t inTask .assert)
  | .firstStopping => some (s.put t inTask (if s.sh.isStopping then .idle else .assert))
  | .assert =>
    if s.getThis cfg t then some { s.put t inTask .test with sh := { s.sh with stopping := true } } else none
  | .test => if s.sh.isStopping then some (s.put t inTask .swap) else some (s.call cfg t inTask)
  | .inRoot => if (s.thr t).pc = .exited then some { s.put t inTask .swap with root := .term } else none
  | .swap => some { s.put t inTask (.join s.m_threads) with m_threads := ∅ }
  | .join ids => if ∀ u ∈ ids, (s.thr u).pc = .exited then some (s.put t inTask .idle) else none

/-- `Scheduler::start`, which makes the threads `ids`. -/
def State.start (cfg : Setup) (s : State) (ids : Finset Tid) : Option State :=
  if !s.sh.stopping then some s
  else if s.m_threads = ∅ ∧ ids.card = cfg.m_threadCount ∧
      ∀ t ∈ ids, t ≠ cfg.m_rootThread ∧ t ∉ s.workers ∧ s.stops (t, false) = .idle then
    some { s with workers := s.workers ∪ ids, m_threads := ids, sh := { s.sh with stopping := false } }
  else none

inductive Act
  | thread (t : Tid) (m : Move)
  | external (r : Request)
  | create
  | start (ids : Finset Tid)
  | stop (t : Tid) (inTask : Bool)

/-- The workers so far, as `threadStep` reads them. -/
def State.setup (s : State) : Sched.Setup := ⟨s.workers, none, by simp⟩

/-- A step of the system. A thread in a call of `stop()` in a task does not go on with the task. -/
def step (cfg : Setup) (s : State) (a : Act) : Option State :=
  if s.halt.isSome ∨ s.sh.failed.isSome then none
  else
    match a with
    | .thread t m =>
      if s.stops (t, true) = .idle then
        (threadStep s.setup t (s.thr t) s.sh m).map fun (th, sh) => { s with thr := Function.update s.thr t th, sh }
      else none
    | .external r => if r.known s.sh then some { s with sh := schedule true s.sh r } else none
    | .create => some { s with sh := { s.sh with nextFiber := s.sh.nextFiber + 1 } }
    | .start ids => s.start cfg ids
    | .stop t inTask => stopStep cfg s t inTask

/-- No task calls `stop()`; and a call that comes to its last test after the root fiber has ended has nothing to
wait for. -/
def Once (s : State) : Act → Prop
  | .stop t inTask => inTask = false ∧ (s.stops (t, false) = .test → s.root = .term → s.sh.isStopping = true)
  | _ => True

instance (s : State) : DecidablePred (Once s)
  | .stop _ _ => inferInstanceAs (Decidable (_ ∧ _))
  | .thread _ _ | .external _ | .create | .start _ => isTrue trivial

/-! ## The calls of a run -/

/-- Behind the assertion of `stop()`, and not behind the root fiber. -/
def StopPc.Asserted : StopPc → Prop
  | .test | .inRoot => True
  | _ => False

/-- The root fiber is new, executes in a call on its own thread, or has ended, and was entered as it should be. -/
structure Proper (cfg : Setup) (s : State) : Prop where
  inTask : ∀ t, s.stops (t, true) = .idle
  outside : ∀ t, s.stops (t, false) ≠ .idle → t ∉ s.workers
  asserted : ∀ t, (s.stops (t, false)).Asserted → t = cfg.m_rootThread
  root : s.root = .init ∨ s.root = .term ∨ (s.root = .exec ∧ s.stops (cfg.m_rootThread, false) = .inRoot)
  calls : ∀ c ∈ s.calls, c = (cfg.m_rootThread, .init)
  halt : s.halt = none

theorem put_false {pc : StopPc} {n : State} (write : n.stops = Function.update s.stops (t, false) pc) :
    n.stops (t, false) = pc ∧ (∀ u, u ≠ t → n.stops (u, false) = s.stops (u, false)) ∧
      ∀ u, n.stops (u, true) = s.stops (u, true) := by
  rw [write]
  exact ⟨by simp, fun u ne => by simp [ne], fun u => by simp⟩

/-- Where the calls of `stop()` are, once one of them has moved. -/
theorem Proper.positions {pc : StopPc} {n : State} (proper : Proper cfg s)
    (write : n.stops = Function.update s.stops (t, false) pc) (workers : n.workers = s.workers)
    (outside : t ∉ s.workers) (asserted : pc.Asserted → t = cfg.m_rootThread) :
    (∀ u, n.stops (u, true) = .idle) ∧ (∀ u, n.stops (u, false) ≠ .idle → u ∉ n.workers) ∧
      ∀ u, (n.stops (u, false)).Asserted → u = cfg.m_rootThread := by
  obtain ⟨self, others, inTask⟩ := put_false write
  refine ⟨fun u => (inTask u).trans (proper.inTask u), ?_, ?_⟩
  · intro u busy
    rw [workers]
    by_cases same : u = t
    · exact same ▸ outside
    · exact proper.outside u (others u same ▸ busy)
  · intro u passed
    by_cases same : u = t
    · subst same
      exact asserted (self ▸ passed)
    · exact proper.asserted u (others u same ▸ passed)

/-- A call that goes on, and leaves the root fiber. -/
theorem Proper.put {pc : StopPc} {n : State} (proper : Proper cfg s)
    (write : n.stops = Function.update s.stops (t, false) pc) (workers : n.workers = s.workers) (root : n.root = s.root)
    (calls : n.calls = s.calls) (halt : n.halt = s.halt) (outside : t ∉ s.workers)
    (asserted : pc.Asserted → t = cfg.m_rootThread) (inRoot : s.stops (t, false) ≠ .inRoot) : Proper cfg n := by
  obtain ⟨inTask, busy, passed⟩ := proper.positions write workers outside asserted
  refine ⟨inTask, busy, passed, ?_, fun c member => proper.calls c (calls ▸ member), halt.trans proper.halt⟩
  rw [root]
  obtain init | term | ⟨exec, within⟩ := proper.root
  · exact .inl init
  · exact .inr (.inl term)
  · have ne : cfg.m_rootThread ≠ t := by
      rintro rfl
      exact inRoot within
    exact .inr (.inr ⟨exec, ((put_false write).2.1 _ ne).trans within⟩)

/-- `call` on the root thread, with a new root fiber. -/
theorem Proper.call (proper : Proper cfg s) (test : s.stops (t, false) = .test) (new : s.root ≠ .term) :
    Proper cfg (s.call cfg t false) := by
  have own := proper.asserted t (by rw [test]; trivial)
  have init : s.root = .init := by
    obtain init | term | ⟨-, within⟩ := proper.root
    · exact init
    · exact (new term).elim
    · rw [own, within] at test
      cases test
  have entered : s.call cfg t false =
      { ({ s with calls := s.calls ++ [(t, s.root)] } : State).put t false .inRoot with
        root := .exec, thr := Function.update s.thr t { pc := .loop } } := by
    simp [State.call, init, own]
  rw [entered]
  have write : (({ s with calls := s.calls ++ [(t, s.root)] } : State).put t false .inRoot).stops =
      Function.update s.stops (t, false) .inRoot := rfl
  obtain ⟨inTask, busy, passed⟩ := proper.positions write rfl (proper.outside t (by simp [test])) fun _ => own
  refine ⟨inTask, busy, passed, .inr (.inr ⟨rfl, own ▸ (put_false write).1⟩), ?_, proper.halt⟩
  intro c member
  obtain old | new := List.mem_append.mp member
  · exact proper.calls c old
  · rw [List.mem_singleton.mp new, own, init]

/-- One step of `stop()`, outside of tasks. -/
theorem Proper.stop (proper : Proper cfg s)
    (once : s.stops (t, false) = .test → s.root = .term → s.sh.isStopping = true)
    (step : stopStep cfg s t false = some s') : Proper cfg s' := by
  have outside : s.stops (t, false) ≠ .idle → t ∉ s.workers := proper.outside t
  cases pc : s.stops (t, false) with
  | idle =>
    simp only [stopStep, pc] at step
    split at step
    · rename_i free
      cases step
      exact proper.put rfl rfl rfl rfl rfl free (fun passed => passed.elim) (by simp [pc])
    · cases step
  | first =>
    simp only [stopStep, pc] at step
    split at step <;> cases step
    · exact proper.put rfl rfl rfl rfl rfl (outside (by simp [pc])) (fun passed => passed.elim) (by simp [pc])
    · exact proper.put rfl rfl rfl rfl rfl (outside (by simp [pc])) (fun passed => passed.elim) (by simp [pc])
  | firstStopping =>
    simp only [stopStep, pc] at step
    cases step
    refine proper.put rfl rfl rfl rfl rfl (outside (by simp [pc])) (fun passed => ?_) (by simp [pc])
    split at passed <;> exact passed.elim
  | assert =>
    simp only [stopStep, pc] at step
    split at step
    · rename_i this
      cases step
      have outside := outside (by simp [pc])
      refine proper.put rfl rfl rfl rfl rfl outside (fun _ => ?_) (by simp [pc])
      exact this.resolve_right fun worker => outside worker.1
    · cases step
  | test =>
    simp only [stopStep, pc] at step
    split at step <;> cases step
    · exact proper.put rfl rfl rfl rfl rfl (outside (by simp [pc])) (fun passed => passed.elim) (by simp [pc])
    · rename_i busy
      exact proper.call pc fun term => busy (once pc term)
  | inRoot =>
    simp only [stopStep, pc] at step
    split at step
    · cases step
      -- the root fiber has ended: its state is written with the position
      have write : (s.put t false .swap).stops = Function.update s.stops (t, false) .swap := rfl
      obtain ⟨inTask, busy, passed⟩ :=
        proper.positions write rfl (outside (by simp [pc])) fun passed => passed.elim
      exact ⟨inTask, busy, passed, .inr (.inl rfl), proper.calls, proper.halt⟩
    · cases step
  | swap =>
    simp only [stopStep, pc] at step
    cases step
    exact proper.put rfl rfl rfl rfl rfl (outside (by simp [pc])) (fun passed => passed.elim) (by simp [pc])
  | join ids =>
    simp only [stopStep, pc] at step
    split at step
    · cases step
      exact proper.put rfl rfl rfl rfl rfl (outside (by simp [pc])) (fun passed => passed.elim) (by simp [pc])
    · cases step

theorem Proper.start {ids : Finset Tid} (proper : Proper cfg s) (step : s.start cfg ids = some s') : Proper cfg s' := by
  simp only [State.start] at step
  split at step
  · cases step
    exact proper
  · split at step
    · rename_i met
      cases step
      refine ⟨proper.inTask, fun t busy => ?_, proper.asserted, proper.root, proper.calls, proper.halt⟩
      rw [Finset.mem_union, not_or]
      exact ⟨proper.outside t busy, fun member => busy (met.2.2 t member).2.2⟩
    · cases step

theorem Proper.step {a : Act} (proper : Proper cfg s) (once : Once s a) (step : step cfg s a = some s') :
    Proper cfg s' := by
  simp only [Root.step] at step
  split at step
  · cases step
  · cases a with
    | thread t m =>
      simp only at step
      split at step
      · obtain ⟨⟨th, sh⟩, -, rfl⟩ := Option.map_eq_some_iff.mp step
        exact ⟨proper.inTask, proper.outside, proper.asserted, proper.root, proper.calls, proper.halt⟩
      · cases step
    | external r =>
      simp only at step
      split at step
      · cases step
        exact ⟨proper.inTask, proper.outside, proper.asserted, proper.root, proper.calls, proper.halt⟩
      · cases step
    | create =>
      cases step
      exact ⟨proper.inTask, proper.outside, proper.asserted, proper.root, proper.calls, proper.halt⟩
    | start ids => exact proper.start step
    | stop t inTask =>
      obtain ⟨rfl, once⟩ := once
      exact proper.stop once step

/-- Each call of the root fiber is on its thread and finds it new, and the assertion at its end has not failed. -/
def Fresh (cfg : Setup) (s : State) : Prop :=
  (∀ c ∈ s.calls, c = (cfg.m_rootThread, .init)) ∧ s.halt ≠ some .neverReach

theorem State.call_calls (cfg : Setup) (s : State) (t : Tid) (inTask : Bool) :
    (s.call cfg t inTask).calls = s.calls ++ [(t, s.root)] := by
  unfold State.call
  split
  · rfl
  · split <;> rfl

/-- A call that comes to its last test with something to wait for enters the root fiber, whatever that is in and
whichever thread this is. -/
theorem enters_stale (test : s.stops (t, inTask) = .test) (busy : s.sh.isStopping = false)
    (stale : t ≠ cfg.m_rootThread ∨ s.root ≠ .init) (step : step cfg s (.stop t inTask) = some s') : ¬ Fresh cfg s' := by
  rintro ⟨calls, -⟩
  simp only [Root.step] at step
  split at step
  · cases step
  · have entered : s' = s.call cfg t inTask := by simpa [stopStep, test, busy] using step.symm
    have last : (t, s.root) ∈ s'.calls := by simp [entered, State.call_calls]
    obtain ⟨thread, root⟩ := Prod.mk.inj (calls _ last)
    exact stale.elim (fun other => other thread) fun used => used root

/-- **The root fiber is entered only when it may be** while no task calls `stop()`, and no call has work left for
a root fiber that has ended. -/
theorem entered_fresh {acts : List Act} (run : Guarded (step cfg) Once {} acts s) : Fresh cfg s := by
  have start : Proper cfg {} :=
    ⟨fun _ => rfl, fun _ busy => (busy rfl).elim, fun _ passed => passed.elim, .inl rfl, by simp, rfl⟩
  have proper := run.invariant (I := Proper cfg) start fun _ _ _ _ _ proper once step => proper.step once step
  exact ⟨proper.calls, by rw [proper.halt]; simp⟩

/-- A callback is scheduled and `stop()` called, up to the root fiber, on a scheduler of one thread. -/
def scheduleAndStop : List Act := .external (.one .cb none) :: List.replicate 5 (.stop 0 false)

/-- The first time; the root fiber executes the callback and ends, and `stop()` returns. -/
def firstCycle : List Act :=
  .start ∅ :: scheduleAndStop ++ List.replicate 3 (.thread 0 .next) ++ [.thread 0 (.user .ret)] ++
    List.replicate 14 (.thread 0 .next) ++ List.replicate 3 (.stop 0 false)

theorem entered_fresh_first : ∃ s, Guarded (step ⟨0, 0⟩) Once {} firstCycle s ∧ s.root = .term ∧ Fresh ⟨0, 0⟩ s := by
  obtain ⟨s, run, ended⟩ := Guarded.of_any (show (execIf (step ⟨0, 0⟩) Once {} firstCycle).any
    (fun s => s.root == .term) = true by decide)
  exact ⟨s, run, by simpa using ended, entered_fresh run⟩

/-- Work scheduled after `stop()` has returned, and `stop()` again. -/
theorem not_entered_fresh :
    ¬ ∀ cfg acts s, exec (step cfg) {} acts = some s → Fresh cfg s := by
  intro always
  obtain ⟨s, run, halt⟩ := exec_of_any (show (exec (step ⟨0, 0⟩) {} (firstCycle ++ scheduleAndStop)).any
    (fun s => s.halt == some .neverReach) = true by decide)
  exact (always _ _ s run).2 (by simpa using halt)

end Atpdxy.Sched.Root
