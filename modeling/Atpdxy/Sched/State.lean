import Mathlib.Data.Finset.Basic
import Mathlib.Logic.Function.Basic

/-!
# The state of a scheduler and its fibers

One `Scheduler` (`atpdxy/scheduler.h`), the fibers it executes
(`atpdxy/fiber.h`) and the threads in `Scheduler::run`. Each thread's position
in `run()` and `idle()` is a program counter with the locals still needed
there; a step of the system moves one thread by one mutex section, one counter
update, one read or write of a fiber's state, or one context switch.

User code is not fixed: the code of a running fiber may at any time schedule,
yield, return or throw. Callbacks passed to `schedule()` are told apart by
tickets, so that starting one twice is visible.
-/

namespace Atpdxy.Sched

/-- A kernel thread id. -/
abbrev Tid := Nat

abbrev FiberId := Nat

/-- One `schedule()` call with a callback. -/
abbrev Ticket := Nat

/-- `Fiber::State`. -/
inductive FiberState
  | init | hold | exec | term | ready | except
  deriving DecidableEq, Repr

/-- `m_state` is `TERM` or `EXCEPT`. -/
def FiberState.ended : FiberState → Bool
  | .term | .except => true
  | _ => false

/-- What `Fiber::reset` asserts: `TERM`, `EXCEPT` or `INIT`. -/
def FiberState.resettable : FiberState → Bool
  | .term | .except | .init => true
  | _ => false

/-- `m_cb`: the empty function, a function given to `Fiber(cb)` by user code, or
the callback of a `schedule()` call. -/
inductive Body
  | null | user | callback (k : Ticket)
  deriving DecidableEq, Repr

/-- `m_ctx` as the last `makecontext` or `swapcontext` left it. It is not
touched while the fiber executes. -/
inductive Context
  /-- at the start of `MainFunc` -/
  | entry
  /-- inside the body, after a yield -/
  | saved
  /-- after the last `swapOut` of `MainFunc` -/
  | finished
  deriving DecidableEq, Repr

structure Fiber where
  state : FiberState
  cb : Body
  ctx : Context
  deriving DecidableEq, Repr

/-- The constructor `Fiber(cb)`. -/
def Fiber.new (cb : Body) : Fiber := ⟨.init, cb, .entry⟩

/-- `Scheduler::Task`; `thread = none` is the id -1. -/
structure Task where
  fiber : Option FiberId
  cb : Option Ticket
  thread : Option Tid
  deriving DecidableEq, Repr

/-- The branch of `run()` that switched into a fiber: `ft.fiber` or `cb_fiber`. -/
inductive Branch
  | fiber | cb
  deriving DecidableEq, Repr

/-- Position of a thread in `run()`. -/
inductive Pc
  /-- not yet in `run()` -/
  | entry
  /-- top of the loop, before the locked section -/
  | loop
  /-- after the locked section; `some` exactly when `is_active` -/
  | dispatch (ft : Option Task)
  /-- about to call `swapIn` -/
  | enter (b : Branch) (f : FiberId)
  /-- the fiber's code executes -/
  | running (b : Branch) (f : FiberId)
  /-- the fiber has set its state, `swapcontext` is still to come -/
  | leaving (b : Branch) (f : FiberId) (last : Bool)
  /-- back in `run()`, about to decrement `m_activeThreadCount` -/
  | dec (b : Branch) (f : FiberId)
  /-- about to look at the state the fiber came back with -/
  | settle (b : Branch) (f : FiberId)
  /-- about to `schedule` it again -/
  | requeue (b : Branch) (f : FiberId)
  /-- about to write `HOLD` -/
  | setHold (b : Branch) (f : FiberId)
  /-- about to call `cb_fiber->reset(nullptr)` -/
  | resetCb (c : FiberId)
  /-- dequeued a finished fiber, about to decrement and continue -/
  | skip
  | idleEnter
  | idleSwap
  /-- inside `idle()`, about to call `stopping()` -/
  | idling
  | idleLeave
  | idleDec
  | idleSettle
  /-- `run()` has been left -/
  | exited
  deriving DecidableEq, Repr

/-- The fiber `run()` refers to through `ft` or the switch in progress. -/
def Pc.refs : Pc → Option FiberId
  | .dispatch (some ft) => ft.fiber
  | .enter _ f | .running _ f | .leaving _ f _ | .dec _ f | .settle _ f
  | .requeue _ f | .setHold _ f | .resetCb f => some f
  | _ => none

/-- A thread: its position, `cb_fiber`, and the state of its idle fiber. -/
structure Thread where
  pc : Pc := .entry
  cbFiber : Option FiberId := none
  idle : FiberState := .init
  deriving DecidableEq, Repr

/-- Position of the thread that calls `stop()`. -/
inductive StopPc
  | notCalled
  /-- `m_autoStop` is set, the first test is to come -/
  | first
  /-- inside the first test, about to call `stopping()` -/
  | firstStopping
  /-- about to set `m_stopping` -/
  | setStopping
  /-- about to evaluate `!stopping()` -/
  | test
  /-- inside `m_rootFiber->call()` -/
  | inRoot
  | join
  | returned
  deriving DecidableEq, Repr

/-- The assertions on the way of `run()`. -/
inductive Assertion
  /-- `m_state != EXEC` in `swapIn` -/
  | swapIn
  /-- `m_state == EXEC` in `YieldToReady` and `YieldToHold` -/
  | yield
  /-- the state test of `reset` -/
  | reset
  /-- the end of `MainFunc` -/
  | neverReach
  deriving DecidableEq, Repr

/-- How the scheduler was built: its worker threads, and with `use_caller` the
thread of the root fiber. -/
structure Setup where
  workers : Finset Tid
  rootThread : Option Tid
  apart : ∀ t ∈ rootThread, t ∉ workers

/-- The threads that execute `run()`. -/
def Setup.threads (cfg : Setup) : Finset Tid :=
  cfg.rootThread.elim cfg.workers fun t => insert t cfg.workers

/-- What all threads share. The last two fields record what happened and are
read by no step. -/
structure Shared where
  queue : List Task := []
  fibers : FiberId → Fiber := fun _ => .new .user
  /-- ids from here on are unused -/
  nextFiber : FiberId := 0
  nextTicket : Ticket := 0
  /-- `m_activeThreadCount` and `m_idleThreadCount` -/
  active : Nat := 0
  idle : Nat := 0
  autoStop : Bool := false
  stopping : Bool := false
  /-- an assertion failed, the process is gone -/
  failed : Option Assertion := none
  /-- callbacks whose execution has begun, in order -/
  started : List Ticket := []
  /-- callbacks scheduled before `stop()` or by code inside a fiber -/
  owed : List Ticket := []

/-- The scheduler once `start()` has returned. -/
structure State where
  thr : Tid → Thread := fun _ => {}
  sh : Shared := {}
  /-- `m_rootFiber->getState()` -/
  root : FiberState := .init
  stop : StopPc := .notCalled

/-- A `size_t` increment. -/
def incr (n : Nat) : Nat := if n + 1 = UInt64.size then 0 else n + 1

/-- A `size_t` decrement. -/
def decr (n : Nat) : Nat := if n = 0 then UInt64.size - 1 else n - 1

/-- `Scheduler::stopping`, one section under `m_mutex`. -/
def Shared.isStopping (sh : Shared) : Bool :=
  sh.autoStop && sh.stopping && sh.queue.isEmpty && sh.active == 0

def Shared.setFiber (sh : Shared) (f : FiberId) (x : Fiber) : Shared :=
  { sh with fibers := Function.update sh.fibers f x }

def Shared.fail (sh : Shared) (a : Assertion) : Shared := { sh with failed := some a }

/-- The thread refers to fiber `f`: through `ft`, or through `cb_fiber`. -/
def Thread.Holds (th : Thread) (f : FiberId) : Prop :=
  th.pc.refs = some f ∨ th.cbFiber = some f

instance (th : Thread) (f : FiberId) : Decidable (th.Holds f) :=
  inferInstanceAs (Decidable (_ ∨ _))

/-- The thread executes on the stack of fiber `f`. -/
def Thread.Executes (th : Thread) (f : FiberId) : Prop :=
  ∃ b, th.pc = .running b f ∨ ∃ last, th.pc = .leaving b f last

end Atpdxy.Sched
