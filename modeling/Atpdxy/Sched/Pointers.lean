import Atpdxy.Run.Guarded
import Atpdxy.Sched.State
import Mathlib.Logic.Function.Basic

/-!
# The thread-local pointers of the scheduler

`t_scheduler` and `t_scheduler_fiber` of all threads, over any history of
schedulers built, started, stopped and destroyed on any threads, where calls may be
made in tasks. A destroyed scheduler keeps its number, and a thread that has ended.
The destructor clears one pointer, on the thread it runs on.
-/

namespace Atpdxy.Sched.Pointers

open Run

/-- A fiber a pointer may refer to. -/
inductive Fiber
  /-- the main fiber of thread `t`, which ends with it -/
  | main (t : Nat)
  /-- `m_rootFiber` of scheduler `s` -/
  | root (s : Nat)
  deriving DecidableEq, Repr

/-- What the constructor adds with `use_caller`. -/
structure Root where
  m_rootThread : Int
  m_rootFiber : FiberState := .init
  deriving DecidableEq, Repr

structure Scheduler where
  m_threadCount : Nat
  root : Option Root := none
  m_threads : List Nat := []
  m_stopping : Bool := true
  m_autoStop : Bool := false
  destroyed : Bool := false
  deriving DecidableEq, Repr

/-- Where a call of `stop()` is. -/
inductive Phase
  /-- in the root fiber, whose tasks go on -/
  | root
  /-- behind it -/
  | returned
  | joining (ids : List Nat)
  deriving DecidableEq, Repr

structure Call where
  scheduler : Nat
  phase : Phase
  deriving DecidableEq, Repr

structure Thread where
  /-- `GetThreadId()`: another thread may have it after this one has ended -/
  id : Int
  t_scheduler : Option Nat := none
  t_scheduler_fiber : Option Fiber := none
  /-- the scheduler whose `run()` it was made for -/
  worker : Option Nat := none
  running : Bool := false
  /-- the scheduler it has built with `use_caller` -/
  caller : Option Nat := none
  /-- the calls of `stop()` it is in, the innermost first -/
  calls : List Call := []
  ended : Bool := false
  deriving DecidableEq, Repr

/-- It is in the code of the program, on its own or in a task. -/
def Thread.free (th : Thread) : Bool :=
  (th.worker.isNone || th.running) && th.calls.head?.all fun call => call.phase = .root

structure System where
  threads : Nat → Option Thread
  schedulers : Nat → Option Scheduler

def System.live (m : System) (t : Nat) : Option Thread := (m.threads t).filter fun th => !th.ended
def System.alive (m : System) (s : Nat) : Option Scheduler := (m.schedulers s).filter fun x => !x.destroyed

def System.setThread (m : System) (t : Nat) (th : Thread) : System :=
  { m with threads := Function.update m.threads t (some th) }

def System.setScheduler (m : System) (s : Nat) (x : Scheduler) : System :=
  { m with schedulers := Function.update m.schedulers s (some x) }

/-- `Scheduler::stopping`; `idle` when nothing is queued or active. -/
def Scheduler.stopping (x : Scheduler) (idle : Bool) : Bool := x.m_autoStop && x.m_stopping && idle

/-- The start of `Scheduler::run`, in the fiber `f`. -/
def Thread.run (th : Thread) (s : Nat) (x : Scheduler) (f : Fiber) : Thread :=
  { th with
    t_scheduler := some s
    t_scheduler_fiber := if x.root.map Root.m_rootThread = some th.id then th.t_scheduler_fiber else some f }

inductive Event
  /-- a thread of the program -/
  | spawn (t : Nat) (id : Int)
  | construct (t s threads : Nat) (use_caller : Bool)
  /-- `workers` are the threads it makes -/
  | start (t s : Nat) (workers : List (Nat × Int))
  /-- a worker enters `run()` -/
  | run (t : Nat)
  /-- up to the loop that joins, or into the root fiber -/
  | stop (t s : Nat) (idle idle' : Bool)
  | back (t : Nat)
  | swap (t : Nat)
  | join (t : Nat)
  | destroy (t s : Nat)
  | exit (t : Nat)
  deriving DecidableEq, Repr

/-- `Scheduler::Scheduler`. -/
def System.construct (m : System) (t : Nat) (th : Thread) (s threads : Nat) (use_caller : Bool) : Option System :=
  if threads = 0 ∨ m.schedulers s ≠ none then none
  else if use_caller then
    if th.t_scheduler = none then
      some ((m.setScheduler s { m_threadCount := threads - 1, root := some { m_rootThread := th.id } }).setThread t
        { th with t_scheduler := some s, t_scheduler_fiber := some (.root s), caller := some s })
    else none
  else some (m.setScheduler s { m_threadCount := threads })

/-- `Scheduler::start`. -/
def System.start (m : System) (s : Nat) (x : Scheduler) (workers : List (Nat × Int)) : Option System :=
  if !x.m_stopping then some m
  else if x.m_threads = [] ∧ workers.length = x.m_threadCount ∧ (workers.map Prod.fst).Nodup ∧
      ∀ w ∈ workers, m.threads w.1 = none then
    some { m.setScheduler s { x with m_stopping := false, m_threads := workers.map Prod.fst } with
      threads := fun t =>
        match workers.lookup t with
        | some id => some { id, worker := some s }
        | none => m.threads t }
  else none

/-- The early return of `Scheduler::stop` may be taken. -/
def Scheduler.rests (x : Scheduler) : Prop :=
  x.m_threadCount = 0 ∧ ∃ r ∈ x.root, r.m_rootFiber = .term ∨ r.m_rootFiber = .init

instance (x : Scheduler) : Decidable x.rests := by unfold Scheduler.rests; infer_instance

/-- `m_rootFiber->call()`. A root fiber that has ended comes to the assertion behind its last
switch; one that executes goes on where it last switched. -/
def System.call (m : System) (t : Nat) (th : Thread) (s : Nat) (x : Scheduler) (r : Root) : Option System :=
  if r.m_rootFiber = .term ∨ r.m_rootFiber = .except then none
  else
    let th := if r.m_rootFiber = .init then th.run s x (.root s) else th
    some ((m.setScheduler s { x with root := some { r with m_rootFiber := .exec } }).setThread t
      { th with calls := ⟨s, .root⟩ :: th.calls })

/-- `Scheduler::stop`; `idle` and `idle'` are what the two calls of `stopping()` find. -/
def System.stop (m : System) (t : Nat) (th : Thread) (s : Nat) (x : Scheduler) (idle idle' : Bool) : Option System :=
  let x := { x with m_autoStop := true }
  let stopped := { x with m_stopping := true }
  if x.rests ∧ stopped.stopping idle then some (m.setScheduler s stopped)
  else
    let returned := (m.setScheduler s stopped).setThread t { th with calls := ⟨s, .returned⟩ :: th.calls }
    match x.root with
    | some r =>
      if th.t_scheduler = some s then if stopped.stopping idle' then some returned else m.call t th s stopped r
      else none
    | none => if th.t_scheduler ≠ some s then some returned else none

/-- The next turn of the loop at the end of `stop()`. A thread that joins itself gets an exception. -/
def System.join (m : System) (t : Nat) (th : Thread) (calls : List Call) (s : Nat) : List Nat → Option System
  | [] => some (m.setThread t { th with calls })
  | i :: ids =>
    if i = t then some (m.setThread t { th with calls })
    else if m.live i = none then some (m.setThread t { th with calls := ⟨s, .joining ids⟩ :: calls })
    else none

/-- `Scheduler::~Scheduler`. -/
def System.destroy (m : System) (t : Nat) (th : Thread) (s : Nat) (x : Scheduler) : Option System :=
  if x.m_stopping then
    some ((m.setScheduler s { x with destroyed := true }).setThread t
      (if th.t_scheduler = some s then { th with t_scheduler := none } else th))
  else none

/-- One step; a call is made by a thread in the code of the program, on a scheduler that is not destroyed. -/
def step (m : System) : Event → Option System
  | .spawn t id => if m.threads t = none then some (m.setThread t { id }) else none
  | .construct t s threads use_caller => do
    let th ← m.live t
    if th.free then m.construct t th s threads use_caller else none
  | .start t s workers => do
    let th ← m.live t
    let x ← m.alive s
    if th.free then m.start s x workers else none
  | .run t => do
    let th ← m.live t
    let s ← th.worker
    let x ← m.schedulers s
    if th.running then none else return m.setThread t { th.run s x (.main t) with running := true }
  | .stop t s idle idle' => do
    let th ← m.live t
    let x ← m.alive s
    if th.free then m.stop t th s x idle idle' else none
  | .back t => do
    let th ← m.live t
    match th.calls with
    | ⟨s, .root⟩ :: calls => do
      let x ← m.alive s
      let r ← x.root
      if r.m_rootFiber = .exec then
        return (m.setScheduler s { x with root := some { r with m_rootFiber := .term } }).setThread t
          { th with calls := ⟨s, .returned⟩ :: calls }
      else none
    | _ => none
  | .swap t => do
    let th ← m.live t
    match th.calls with
    | ⟨s, .returned⟩ :: calls => do
      let x ← m.alive s
      return (m.setScheduler s { x with m_threads := [] }).setThread t
        { th with calls := ⟨s, .joining x.m_threads⟩ :: calls }
    | _ => none
  | .join t => do
    let th ← m.live t
    match th.calls with
    | ⟨s, .joining ids⟩ :: calls => m.join t th calls s ids
    | _ => none
  | .destroy t s => do
    let th ← m.live t
    let x ← m.alive s
    if th.free then m.destroy t th s x else none
  | .exit t => do
    let th ← m.live t
    if th.calls = [] ∧ (th.worker = none ∨ th.running) then return m.setThread t { th with ended := true } else none

def init : System := ⟨fun _ => none, fun _ => none⟩

/-- The fiber has not been destroyed. A root fiber that executes is held by its own function. -/
def System.Exists (m : System) : Fiber → Prop
  | .main t => (m.live t).isSome = true
  | .root s => ∃ x r, m.schedulers s = some x ∧ x.root = some r ∧ (x.destroyed = false ∨ r.m_rootFiber = .exec)

/-- No pointer dangles. -/
def System.NoDangling (m : System) : Prop :=
  ∀ t th, m.live t = some th →
    (∀ s, th.t_scheduler = some s → (m.alive s).isSome = true) ∧ ∀ f, th.t_scheduler_fiber = some f → m.Exists f

/-- A scheduler is destroyed after its workers have ended and, with `use_caller`, the thread that built it. -/
def Late (m : System) : Event → Prop
  | .destroy _ s => ∀ t th, m.live t = some th → th.worker ≠ some s ∧ th.caller ≠ some s
  | _ => True

variable {m n : System} {t u s : Nat} {th th' : Thread} {x y : Scheduler} {e : Event} {es : List Event}

theorem System.live_iff : m.live t = some th ↔ m.threads t = some th ∧ th.ended = false := by
  simp [System.live, Option.filter_eq_some_iff]

theorem System.alive_iff : m.alive s = some x ↔ m.schedulers s = some x ∧ x.destroyed = false := by
  simp [System.alive, Option.filter_eq_some_iff]

/-! ## What a thread owns -/

/-- The thread is a worker of the scheduler, or has built it for itself. -/
def Thread.Owns (th : Thread) (s : Nat) : Prop := th.worker = some s ∨ th.caller = some s

/-- The pointers refer to what the thread owns, and none of it has been destroyed. -/
structure Owned (m : System) (t : Nat) (th : Thread) : Prop where
  scheduler : ∀ s, th.t_scheduler = some s → th.Owns s
  fiber : ∀ f, th.t_scheduler_fiber = some f → f = .main t ∨
    ∃ s x, f = .root s ∧ th.Owns s ∧ m.schedulers s = some x ∧ x.root.isSome = true
  alive : ∀ s, th.Owns s → (m.alive s).isSome = true

def AllOwned (m : System) : Prop := ∀ t th, m.live t = some th → Owned m t th

theorem AllOwned.noDangling (owned : AllOwned m) : m.NoDangling := by
  intro t th live
  obtain ⟨scheduler, fiber, alive⟩ := owned t th live
  refine ⟨fun s points => alive s (scheduler s points), fun f points => ?_⟩
  obtain rfl | ⟨s, x, rfl, owns, there, root⟩ := fiber f points
  · simp [System.Exists, live]
  · obtain ⟨y, found⟩ := Option.isSome_iff_exists.mp (alive s owns)
    obtain ⟨there', kept⟩ := System.alive_iff.mp found
    obtain ⟨st, root⟩ := Option.isSome_iff_exists.mp root
    cases there.symm.trans there'
    exact ⟨x, st, there, root, .inl kept⟩

/-- Scheduler `s` is not destroyed on the way from `m` to `n`, and keeps or lacks its root fiber. -/
def Kept (m n : System) (s : Nat) : Prop :=
  ∀ x, m.schedulers s = some x → x.destroyed = false →
    ∃ y, n.schedulers s = some y ∧ y.destroyed = false ∧ y.root.isSome = x.root.isSome

theorem kept_of_eq (same : n.schedulers = m.schedulers) (s : Nat) : Kept m n s :=
  fun x there kept => ⟨x, by rw [same]; exact there, kept, rfl⟩

/-- Writing to a scheduler keeps them all. -/
theorem kept_write (alive : m.alive s = some x) (write : n.schedulers = Function.update m.schedulers s (some y))
    (kept : y.destroyed = false) (root : y.root.isSome = x.root.isSome) (r : Nat) : Kept m n r := by
  intro z there kept'
  rw [write]
  by_cases same : r = s
  · subst same
    obtain rfl := Option.some.inj ((System.alive_iff.mp alive).1.symm.trans there)
    exact ⟨y, by simp, kept, root⟩
  · exact ⟨z, by simpa [same] using there, kept', rfl⟩

/-- A scheduler that is built or destroyed is none of the others. -/
theorem kept_other (write : n.schedulers = Function.update m.schedulers s (some y)) {r : Nat} (ne : r ≠ s) :
    Kept m n r :=
  fun z there kept => ⟨z, by rw [write]; simpa [ne] using there, kept, rfl⟩

/-- A thread whose pointers stay. -/
structure Same (th th' : Thread) : Prop where
  t_scheduler : th'.t_scheduler = th.t_scheduler := by rfl
  t_scheduler_fiber : th'.t_scheduler_fiber = th.t_scheduler_fiber := by rfl
  worker : th'.worker = th.worker := by rfl
  caller : th'.caller = th.caller := by rfl

theorem Same.owns (same : Same th th') : th'.Owns s ↔ th.Owns s := by
  simp [Thread.Owns, same.worker, same.caller]

theorem Owned.keep (owned : Owned m t th) (same : Same th th') (kept : ∀ s, th.Owns s → Kept m n s) :
    Owned n t th' where
  scheduler s points := same.owns.mpr (owned.scheduler s (same.t_scheduler ▸ points))
  fiber f points := by
    obtain main | ⟨s, x, root, owns, there, exists'⟩ := owned.fiber f (same.t_scheduler_fiber ▸ points)
    · exact .inl main
    · obtain ⟨z, alive⟩ := Option.isSome_iff_exists.mp (owned.alive s owns)
      obtain ⟨there', notDestroyed⟩ := System.alive_iff.mp alive
      cases there.symm.trans there'
      obtain ⟨y, after, -, roots⟩ := kept s owns x there notDestroyed
      exact .inr ⟨s, y, root, same.owns.mpr owns, after, roots.trans exists'⟩
  alive s owns := by
    obtain ⟨x, alive⟩ := Option.isSome_iff_exists.mp (owned.alive s (same.owns.mp owns))
    obtain ⟨there, notDestroyed⟩ := System.alive_iff.mp alive
    obtain ⟨y, after, notDestroyed', -⟩ := kept s (same.owns.mp owns) x there notDestroyed
    rw [System.alive_iff.mpr ⟨after, notDestroyed'⟩]
    rfl

/-- A step that writes one thread. -/
theorem AllOwned.write (owned : AllOwned m) (write : n.threads = Function.update m.threads t (some th'))
    (kept : ∀ u th s, u ≠ t → m.live u = some th → th.Owns s → Kept m n s) (own : th'.ended = false → Owned n t th') :
    AllOwned n := by
  intro u w live
  obtain ⟨there, still⟩ := System.live_iff.mp live
  rw [write] at there
  by_cases same : u = t
  · subst same
    simp only [Function.update_self, Option.some.injEq] at there
    subst there
    exact own still
  · rw [Function.update_of_ne same] at there
    have live := System.live_iff.mpr ⟨there, still⟩
    exact (owned u w live).keep {} (kept u w · same live)

/-- The pointers of a thread stay, and no scheduler is destroyed. -/
theorem AllOwned.same (owned : AllOwned m) (live : m.live t = some th)
    (write : n.threads = Function.update m.threads t (some th')) (same : Same th th') (kept : ∀ s, Kept m n s) :
    AllOwned n :=
  owned.write write (fun _ _ s _ _ _ => kept s) fun _ => (owned t th live).keep same fun s _ => kept s

/-- `run()` makes the pointers refer to the scheduler it serves and the fiber it executes in. -/
theorem Owned.run {f : Fiber} (owned : Owned m t th) (owns : th.Owns s)
    (fiber : f = .main t ∨ ∃ y, f = .root s ∧ m.schedulers s = some y ∧ y.root.isSome = true) :
    Owned m t (th.run s x f) where
  scheduler r points := by
    obtain rfl := Option.some.inj points
    exact owns
  fiber g points := by
    simp only [Thread.run] at points
    split at points
    · exact owned.fiber g points
    · obtain rfl := Option.some.inj points
      obtain main | ⟨y, root, there, exists'⟩ := fiber
      · exact .inl main
      · exact .inr ⟨s, y, root, owns, there, exists'⟩
  alive r owns := owned.alive r owns

/-! ## What a step does -/

theorem AllOwned.spawn {id : Int} (owned : AllOwned m) (step : step m (.spawn t id) = some n) : AllOwned n := by
  simp only [Pointers.step] at step
  split at step
  · cases step
    refine owned.write rfl (fun _ _ r _ _ _ => kept_of_eq rfl r) fun _ => ⟨?_, ?_, ?_⟩
    · simp
    · simp
    · simp [Thread.Owns]
  · cases step

theorem AllOwned.construct {threads : Nat} {use_caller : Bool} (owned : AllOwned m)
    (step : step m (.construct t s threads use_caller) = some n) : AllOwned n := by
  simp only [Pointers.step, Option.bind_eq_bind, Option.bind_eq_some_iff] at step
  obtain ⟨th, live, step⟩ := step
  split at step
  · simp only [System.construct] at step
    split at step
    · cases step
    · rename_i fresh
      have fresh : m.schedulers s = none := by
        by_contra there
        exact fresh (.inr there)
      -- a scheduler in use is not the one that is built
      have other : ∀ {r}, (m.alive r).isSome = true → r ≠ s := by
        rintro r alive rfl
        simp [System.alive, fresh] at alive
      split at step
      · split at step
        · cases step
          refine owned.write rfl
            (fun u w r _ live owns => kept_other rfl (other ((owned u w live).alive r owns))) fun _ => ?_
          have old := owned t th live
          refine ⟨?_, ?_, ?_⟩
          · rintro r ⟨⟩
            exact .inr rfl
          · rintro f ⟨⟩
            exact .inr ⟨s, _, rfl, .inr rfl, Function.update_self .., rfl⟩
          · rintro r (worker | caller)
            · have alive := old.alive r (.inl worker)
              simpa [System.alive, System.setThread, System.setScheduler, other alive] using alive
            · obtain rfl := Option.some.inj caller
              simp [System.alive, System.setThread, System.setScheduler]
        · cases step
      · cases step
        intro u w live
        exact (owned u w live).keep {} fun r owns => kept_other rfl (other ((owned u w live).alive r owns))
  · cases step

theorem AllOwned.start {workers : List (Nat × Int)} (owned : AllOwned m)
    (step : step m (.start t s workers) = some n) : AllOwned n := by
  simp only [Pointers.step, Option.bind_eq_bind, Option.bind_eq_some_iff] at step
  obtain ⟨th, -, x, alive, step⟩ := step
  split at step
  · simp only [System.start] at step
    split at step
    · cases step
      exact owned
    · split at step
      · cases step
        have kept := fun r => kept_write (n := m.setScheduler s { x with
          m_stopping := false, m_threads := workers.map Prod.fst }) alive rfl (System.alive_iff.mp alive).2 rfl r
        intro u w live
        obtain ⟨there, still⟩ := System.live_iff.mp live
        simp only at there
        split at there
        · cases there
          -- a new worker points to nothing
          refine ⟨by simp, by simp, ?_⟩
          rintro r (worker | caller)
          · obtain rfl := Option.some.inj worker
            simp [System.alive, System.setScheduler, (System.alive_iff.mp alive).2]
          · cases caller
        · exact (owned u w (System.live_iff.mpr ⟨there, still⟩)).keep {} fun r _ => kept r
      · cases step
  · cases step

theorem AllOwned.run (owned : AllOwned m) (step : step m (.run t) = some n) : AllOwned n := by
  simp only [Pointers.step, Option.bind_eq_bind, Option.bind_eq_some_iff] at step
  obtain ⟨th, live, s, worker, x, there, step⟩ := step
  split at step
  · cases step
  · cases step
    refine owned.write rfl (fun _ _ r _ _ _ => kept_of_eq rfl r) fun _ => ?_
    exact ((owned t th live).run (.inl worker) (.inl rfl)).keep {} fun r _ => kept_of_eq rfl r

theorem AllOwned.stop {idle idle' : Bool} (owned : AllOwned m) (step : step m (.stop t s idle idle') = some n) :
    AllOwned n := by
  simp only [Pointers.step, Option.bind_eq_bind, Option.bind_eq_some_iff] at step
  obtain ⟨th, live, x, alive, step⟩ := step
  have notDestroyed := (System.alive_iff.mp alive).2
  split at step
  · simp only [System.stop] at step
    split at step
    · cases step
      intro u w live
      exact (owned u w live).keep {} fun r _ =>
        kept_write (y := { x with m_autoStop := true, m_stopping := true }) alive rfl notDestroyed rfl r
    · split at step
      · rename_i r root
        split at step
        · rename_i points
          split at step
          · cases step
            exact owned.same live rfl {} (kept_write alive rfl notDestroyed rfl)
          · simp only [System.call] at step
            split at step
            · cases step
            · cases step
              have kept := kept_write (n := m.setScheduler s { x with
                m_autoStop := true, m_stopping := true, root := some { r with m_rootFiber := .exec } })
                alive rfl notDestroyed (by simp [root])
              refine owned.write rfl (fun _ _ r _ _ _ => kept r) fun _ => ?_
              have own := owned t th live
              split
              · refine Owned.keep (own.run (own.scheduler s points) (.inr ⟨x, rfl, (System.alive_iff.mp alive).1, ?_⟩))
                  {} fun r _ => kept r
                rw [root]
                rfl
              · exact own.keep {} fun r _ => kept r
        · cases step
      · split at step
        · cases step
          exact owned.same live rfl {} (kept_write alive rfl notDestroyed rfl)
        · cases step
  · cases step

theorem AllOwned.back (owned : AllOwned m) (step : step m (.back t) = some n) : AllOwned n := by
  simp only [Pointers.step, Option.bind_eq_bind, Option.bind_eq_some_iff] at step
  obtain ⟨th, live, step⟩ := step
  split at step
  · simp only [Option.bind_eq_some_iff] at step
    obtain ⟨x, alive, r, root, step⟩ := step
    split at step
    · cases step
      exact owned.same live rfl {} (kept_write alive rfl (System.alive_iff.mp alive).2 (by simp [root]))
    · cases step
  · cases step

theorem AllOwned.swap (owned : AllOwned m) (step : step m (.swap t) = some n) : AllOwned n := by
  simp only [Pointers.step, Option.bind_eq_bind, Option.bind_eq_some_iff] at step
  obtain ⟨th, live, step⟩ := step
  split at step
  · simp only [Option.bind_eq_some_iff] at step
    obtain ⟨x, alive, step⟩ := step
    cases step
    have notDestroyed := (System.alive_iff.mp alive).2
    exact owned.same live rfl {} (kept_write (y := { x with m_threads := [] }) alive rfl notDestroyed rfl)
  · cases step

theorem AllOwned.join (owned : AllOwned m) (step : step m (.join t) = some n) : AllOwned n := by
  simp only [Pointers.step, Option.bind_eq_bind, Option.bind_eq_some_iff] at step
  obtain ⟨th, live, step⟩ := step
  -- only the calls of the thread are written
  have calls : ∀ calls, AllOwned (m.setThread t { th with calls }) :=
    fun calls => owned.same live rfl {} (kept_of_eq rfl)
  split at step
  · rename_i s ids rest code
    cases ids with
    | nil =>
      cases step
      exact calls _
    | cons i ids =>
      simp only [System.join] at step
      split at step
      · cases step
        exact calls _
      · split at step
        · cases step
          exact calls _
        · cases step
  · cases step

/-- No thread that goes on owns the scheduler. -/
theorem AllOwned.destroy (owned : AllOwned m) (late : Late m (.destroy t s)) (step : step m (.destroy t s) = some n) :
    AllOwned n := by
  simp only [Pointers.step, Option.bind_eq_bind, Option.bind_eq_some_iff] at step
  obtain ⟨th, live, x, alive, step⟩ := step
  have other : ∀ u w r, m.live u = some w → w.Owns r → r ≠ s := by
    rintro u w r live owns rfl
    obtain ⟨worker, caller⟩ := late u w live
    exact owns.elim worker caller
  split at step
  · simp only [System.destroy] at step
    split at step
    · cases step
      refine owned.write rfl (fun u w r _ live owns => kept_other rfl (other u w r live owns)) fun _ => ?_
      have own := owned t th live
      have kept := fun r owns => kept_other (m := m) (n := m.setScheduler s { x with destroyed := true }) rfl
        (other t th r live owns)
      split
      · rename_i points
        exact (other t th s live (own.scheduler s points) rfl).elim
      · exact own.keep {} kept
    · cases step
  · cases step

theorem AllOwned.exit (owned : AllOwned m) (step : step m (.exit t) = some n) : AllOwned n := by
  simp only [Pointers.step, Option.bind_eq_bind, Option.bind_eq_some_iff] at step
  obtain ⟨th, live, step⟩ := step
  split at step
  · cases step
    exact owned.write rfl (fun _ _ r _ _ _ => kept_of_eq rfl r) fun ended => by cases ended
  · cases step

theorem AllOwned.step (owned : AllOwned m) (late : Late m e) (step : step m e = some n) : AllOwned n := by
  cases e with
  | spawn t id => exact owned.spawn step
  | construct t s threads use_caller => exact owned.construct step
  | start t s workers => exact owned.start step
  | run t => exact owned.run step
  | stop t s idle idle' => exact owned.stop step
  | back t => exact owned.back step
  | swap t => exact owned.swap step
  | join t => exact owned.join step
  | destroy t s => exact owned.destroy late step
  | exit t => exact owned.exit step

/-- **The pointers of a scheduler do not dangle** while each scheduler is destroyed late. -/
theorem never_dangles (run : Guarded step Late init es m) : m.NoDangling := by
  have start : AllOwned init := by
    intro t th live
    cases live
  exact (run.invariant (I := AllOwned) start fun _ _ _ _ _ owned late step => owned.step late step).noDangling

/-- A scheduler built by a thread that has ended, destroyed by another. -/
theorem never_dangles_late : ∃ m, Guarded step Late init
      [.spawn 0 7, .construct 0 0 1 true, .start 0 0 [], .stop 0 0 true true, .exit 0, .spawn 1 8, .destroy 1 0] m ∧
    m.NoDangling := by
  have ⟨m, run⟩ : ∃ m, Guarded step Late init
      [.spawn 0 7, .construct 0 0 1 true, .start 0 0 [], .stop 0 0 true true, .exit 0, .spawn 1 8, .destroy 1 0] m := by
    refine ⟨_, .cons trivial rfl (.cons trivial rfl (.cons trivial rfl (.cons trivial rfl (.cons trivial rfl
      (.cons trivial rfl (.single ?_ rfl))))))⟩
    intro t th live
    match t with
    | 0 => cases (live : none = some th)
    | 1 =>
      obtain rfl := Option.some.inj (live : some { id := 8 } = some th)
      exact ⟨by simp, by simp⟩
    | t + 2 => cases (live : none = some th)
  exact ⟨m, run, never_dangles run⟩

/-- What the destructor leaves: the scheduler destroyed, other threads as they were, and every
`t_scheduler_fiber`. -/
structure Destroyed (m n : System) (t s : Nat) (x : Scheduler) : Prop where
  scheduler : n.schedulers s = some { x with destroyed := true }
  others : ∀ u, u ≠ t → n.live u = m.live u
  fiber : ∀ u th, m.live u = some th → ∃ th', n.live u = some th' ∧ th'.t_scheduler_fiber = th.t_scheduler_fiber

theorem destroy_destroyed (step : step m (.destroy t s) = some n) :
    ∃ x, m.schedulers s = some x ∧ Destroyed m n t s x := by
  simp only [Pointers.step, Option.bind_eq_bind, Option.bind_eq_some_iff] at step
  obtain ⟨w, live, x, alive, step⟩ := step
  split at step
  · simp only [System.destroy] at step
    split at step
    · cases step
      have others : ∀ u, u ≠ t → System.live ((m.setScheduler s { x with destroyed := true }).setThread t
          (if w.t_scheduler = some s then { w with t_scheduler := none } else w)) u = m.live u := by
        intro u ne
        simp [System.live, System.setThread, System.setScheduler, ne]
      refine ⟨x, (System.alive_iff.mp alive).1, Function.update_self .., others, fun u th there => ?_⟩
      by_cases same : u = t
      · subst same
        obtain rfl := Option.some.inj (live.symm.trans there)
        refine ⟨_, System.live_iff.mpr ⟨Function.update_self .., ?_⟩, ?_⟩
        · split <;> exact (System.live_iff.mp live).2
        · split <;> rfl
      · exact ⟨th, (others u same).trans there, rfl⟩
    · cases step
  · cases step

/-- A thread that still refers to the scheduler, or to its root fiber, does so after the destructor. -/
theorem destroy_dangles (step : step m (.destroy t s) = some n) (live : m.live u = some th)
    (points : (u ≠ t ∧ th.t_scheduler = some s) ∨ (th.t_scheduler_fiber = some (.root s) ∧
      ∀ x r, m.schedulers s = some x → x.root = some r → r.m_rootFiber ≠ .exec)) : ¬ n.NoDangling := by
  intro noDangling
  obtain ⟨x, there, scheduler, others, fiber⟩ := destroy_destroyed step
  obtain ⟨ne, points⟩ | ⟨points, rests⟩ := points
  · have alive := (noDangling u th ((others u ne).trans live)).1 s points
    simp [System.alive, scheduler] at alive
  · obtain ⟨th', live', same⟩ := fiber u th live
    obtain ⟨y, r, there', root, notDestroyed | exec⟩ := (noDangling u th' live').2 _ (same.trans points)
    · obtain rfl := Option.some.inj (scheduler.symm.trans there')
      cases notDestroyed
    · obtain rfl := Option.some.inj (scheduler.symm.trans there')
      exact rests x r there root exec

/-- `Scheduler sc(1, true); sc.start(); sc.stop();` in a block of a thread that goes on. -/
theorem not_never_dangles : ¬ ∀ es m, exec step init es = some m → m.NoDangling := by
  intro always
  have noDangling := always
    [.spawn 0 7, .construct 0 0 1 true, .start 0 0 [], .stop 0 0 true true, .destroy 0 0] _ rfl
  obtain ⟨x, r, there, root, alive⟩ := (noDangling 0 _ rfl).2 (.root 0) rfl
  obtain rfl := Option.some.inj there
  obtain rfl := Option.some.inj root
  revert alive
  decide

end Atpdxy.Sched.Pointers
