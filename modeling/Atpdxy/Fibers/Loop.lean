import Atpdxy.Fibers.Switch
import Atpdxy.Sched.Step

/-!
# The thread of a scheduler

One thread executes a scheduler: its worker, or the thread that built it with
`use_caller`, where `stop()` calls the root fiber. `Scheduler::run`, `Scheduler::idle`, the
functions a fiber begins with and the code of the tasks are places of this thread, and
the four switches load and save them. What a task does is left open, except that it
makes no switch but by a yield.
-/

namespace Atpdxy.Fibers.Loop

open Sched (FiberState FiberId Tid Task Request Branch UserAct Shared StopPc dequeue schedule incr decr)

/-- The fibers of the thread. -/
inductive Ref
  /-- the main fiber of the thread -/
  | thread
  /-- `m_rootFiber` -/
  | root
  /-- `idle_fiber` -/
  | idle
  /-- a fiber made with `Fiber(cb)`, by the program or for a callback -/
  | task (f : FiberId)
  deriving DecidableEq, Repr

/-- What `m_cb` may be: the function of a task, or the ones the scheduler binds. -/
inductive Cb
  | user | idle | run
  deriving DecidableEq, Repr

/-- Position in `run()`. -/
inductive RunPc
  | start
  | loop
  | dispatch (ft : Option Task)
  | enter (b : Branch) (f : FiberId)
  /-- behind the switch -/
  | dec (b : Branch) (f : FiberId)
  | settle (b : Branch) (f : FiberId)
  | requeue (b : Branch) (f : FiberId)
  | setHold (b : Branch) (f : FiberId)
  | resetCb (c : FiberId)
  | skip
  | idleEnter
  | idleSwap
  /-- behind the switch -/
  | idleDec
  | idleSettle
  | exited
  deriving DecidableEq, Repr

/-- A place in the code of the thread. -/
inductive Code
  /-- on the caller's own stack: in `stop()`, or outside of it -/
  | main (p : StopPc)
  | run (p : RunPc)
  /-- at the start of `MainFunc` or `CallerMainFunc` -/
  | entry (caller : Bool)
  /-- in the function of a task, in `MainFunc` or `CallerMainFunc` begun with the fiber `cur` -/
  | body (caller : Bool) (cur : Ref)
  /-- in `idle()` -/
  | idle (caller : Bool) (cur : Ref)
  /-- behind the last switch of `MainFunc` or `CallerMainFunc` -/
  | past
  /-- the worker has ended -/
  | ended
  deriving DecidableEq, Repr

abbrev Fiber := Fibers.Fiber Code Cb
abbrev Thread := Fibers.Thread Ref Code Cb

structure Setup where
  /-- the thread that executes -/
  thread : Tid
  useCaller : Bool

/-- The scheduler's main fiber. -/
def Setup.main (cfg : Setup) : Ref := if cfg.useCaller then .root else .thread

/-- The thread, and what it shares with those that schedule; the `fibers` of `sh` are not read. -/
structure State where
  m : Thread
  sh : Shared := {}
  cbFiber : Option FiberId := none
  /-- the states fibers were in when they were entered -/
  entered : List FiberState := []
  /-- an assertion has failed, or a null pointer was followed -/
  failed : Bool := false

def State.goto (s : State) (c : Code) : State := { s with m := { s.m with code := c } }

def State.fail (s : State) : State := { s with failed := true }

def State.switch (s : State) : Option Thread → State
  | some m => { s with m }
  | none => s.fail

/-- `Fiber(cb)`. -/
def Fiber.new (cb : Option Cb) : Fiber := { m_ctx := .entry false, m_cb := cb }

/-- What the scan of the queue reads of the fibers: their state. -/
def view (m : Thread) (f : FiberId) : Sched.Fiber where
  state := ((m.fibers (.task f)).map Fiber.m_state).getD .init
  cb := .user
  ctx := .entry

/-- `cb_fiber->reset(ft.cb)`, or a new fiber when there is none. -/
def prepare (s : State) : State :=
  match s.cbFiber with
  | some c =>
    if (view s.m c).state.resettable then
      { s with m := s.m.set (.task c) (Fiber.new (some .user)) }.goto (.run (.enter .cb c))
    else s.fail
  | none =>
    let c := s.sh.nextFiber
    { s with
      m := s.m.set (.task c) (Fiber.new (some .user))
      sh := { s.sh with nextFiber := c + 1 }
      cbFiber := some c }.goto (.run (.enter .cb c))

/-- Back to the top of the loop; the callback branch has given `cb_fiber` away. -/
def State.release (s : State) (b : Branch) : State :=
  match b with
  | .fiber => s.goto (.run .loop)
  | .cb => { s with cbFiber := none }.goto (.run .loop)

/-- The start of `run()`: on a worker it makes the main fibers. -/
def State.begin (cfg : Setup) (s : State) : State :=
  let m :=
    if cfg.useCaller then s.m
    else
      let (f, m) := s.m.getThis .thread (.run .start)
      { m with t_scheduler_fiber := some f }
  { s with m := m.set .idle (Fiber.new (some .idle)) }.goto (.run .loop)

/-- What `run()` does with the state a fiber came back with. -/
def settle (s : State) (b : Branch) (f : FiberId) (st : FiberState) : State :=
  if st = .ready then s.goto (.run (.requeue b f))
  else if st.ended then
    match b with
    | .fiber => s.goto (.run .loop)
    | .cb => s.goto (.run (.resetCb f))
  else s.goto (.run (.setHold b f))

/-- The next step of `run()`. At its end it returns to the thread's function, or to the `CallerMainFunc` of the
root fiber. -/
def runStep (cfg : Setup) (s : State) : RunPc → State
  | .start => s.begin cfg
  | .loop =>
    match dequeue cfg.thread (view s.m) s.sh.queue with
    | some (ft, rest) =>
      { s with sh := { s.sh with queue := rest, active := incr s.sh.active } }.goto (.run (.dispatch (some ft)))
    | none => s.goto (.run (.dispatch none))
  | .dispatch (some ft) =>
    match ft.fiber.filter fun f => !(view s.m f).state.ended with
    | some f => s.goto (.run (.enter .fiber f))
    | none =>
      match ft.cb with
      | some _ => prepare s
      | none => s.goto (.run .skip)
  | .dispatch none =>
    match s.m.fibers .idle with
    | some x => s.goto (.run (if x.m_state = .term then .exited else .idleEnter))
    | none => s.fail
  | .enter b f =>
    { s with entered := s.entered ++ [(view s.m f).state] }.switch (s.m.swapIn (.task f) (.run (.dec b f)))
  | .dec b f => { s with sh := { s.sh with active := decr s.sh.active } }.goto (.run (.settle b f))
  | .settle b f => settle s b f (view s.m f).state
  | .requeue b f => { s with sh := { s.sh with queue := s.sh.queue ++ [(⟨some f, none, none⟩ : Task)] } }.release b
  | .setHold b f =>
    match s.m.fibers (.task f) with
    | some x => { s with m := s.m.set (.task f) { x with m_state := .hold } }.release b
    | none => s.fail
  | .resetCb c =>
    if (view s.m c).state.resettable then { s with m := s.m.set (.task c) (Fiber.new none) }.goto (.run .loop)
    else s.fail
  | .skip => { s with sh := { s.sh with active := decr s.sh.active } }.goto (.run .loop)
  | .idleEnter => { s with sh := { s.sh with idle := incr s.sh.idle } }.goto (.run .idleSwap)
  | .idleSwap =>
    match s.m.fibers .idle with
    | some x => { s with entered := s.entered ++ [x.m_state] }.switch (s.m.swapIn .idle (.run .idleDec))
    | none => s.fail
  | .idleDec => { s with sh := { s.sh with idle := decr s.sh.idle } }.goto (.run .idleSettle)
  | .idleSettle =>
    match s.m.fibers .idle with
    | some x =>
      { s with m := s.m.set .idle { x with m_state := if x.m_state.ended then x.m_state else .hold } }.goto (.run .loop)
    | none => s.fail
  | .exited => if cfg.useCaller then s.switch (s.m.finish true false .root .past) else s.goto .ended

/-- One step of `stop()` on the caller, a scheduler without workers. -/
def stopStep (s : State) : StopPc → Option State
  | .notCalled => some ({ s with sh := { s.sh with autoStop := true } }.goto (.main .first))
  | .first => do
    let x ← s.m.fibers .root
    if x.m_state = .term ∨ x.m_state = .init then
      return { s with sh := { s.sh with stopping := true } }.goto (.main .firstStopping)
    else return s.goto (.main .setStopping)
  | .firstStopping => some (s.goto (.main (if s.sh.isStopping then .returned else .setStopping)))
  | .setStopping => some ({ s with sh := { s.sh with stopping := true } }.goto (.main .test))
  | .test =>
    if s.sh.isStopping then some (s.goto (.main .join))
    else
      match s.m.fibers .root with
      | some x => some ({ s with entered := s.entered ++ [x.m_state] }.switch (s.m.call .root (.main .join)))
      | none => some s.fail
  | .join => some (s.goto (.main .returned))
  | .inRoot | .returned => none

/-- `MainFunc` or `CallerMainFunc` up to the call of `m_cb`. -/
def enterStep (s : State) (caller : Bool) : State :=
  match s.m.t_fiber with
  | none => s.fail
  | some cur =>
    match s.m.fibers cur with
    | none => s.fail
    | some x =>
      match x.m_cb with
      | some .user => s.goto (.body caller cur)
      | some .idle => s.goto (.idle caller cur)
      | some .run => s.goto (.run .start)
      | none => s.switch (s.m.finish caller true cur .past)

/-- The next step of the thread, outside of the code of a task. -/
def nextStep (cfg : Setup) (s : State) : Option State :=
  match s.m.code with
  | .main p => stopStep s p
  | .run p => some (runStep cfg s p)
  | .entry caller => some (enterStep s caller)
  | .idle caller cur =>
    some (if s.sh.isStopping then s.switch (s.m.finish caller false cur .past)
      else s.switch (s.m.yieldTo .hold (.idle caller cur)))
  | .body _ _ => none
  | .past => some s.fail
  | .ended => none

/-- A step of the code of a task. -/
def userStep (s : State) (u : UserAct) : Option State :=
  match s.m.code with
  | .body caller cur =>
    match u with
    | .throw => some (s.switch (s.m.finish caller true cur .past))
    | .ret => some (s.switch (s.m.finish caller false cur .past))
    | .yieldReady => some (s.switch (s.m.yieldTo .ready (.body caller cur)))
    | .yieldHold => some (s.switch (s.m.yieldTo .hold (.body caller cur)))
    | .schedule r => if r.known s.sh then some { s with sh := schedule true s.sh r } else none
  | _ => none

inductive Act
  | next
  | user (u : UserAct)
  /-- `schedule()` outside of the tasks -/
  | external (r : Request)
  /-- `Fiber(cb)` -/
  | create
  /-- `stop()` on another thread than the worker -/
  | stop
  deriving Repr

def step (cfg : Setup) (s : State) (a : Act) : Option State :=
  if s.failed then none
  else
    match a with
    | .next => nextStep cfg s
    | .user u => userStep s u
    | .external r => if r.known s.sh then some { s with sh := schedule true s.sh r } else none
    | .create =>
      some { s with
        m := s.m.set (.task s.sh.nextFiber) (Fiber.new (some .user))
        sh := { s.sh with nextFiber := s.sh.nextFiber + 1 } }
    | .stop => if cfg.useCaller then none else some { s with sh := { s.sh with autoStop := true, stopping := true } }

/-- After `start()`: the caller goes on, or the worker begins. -/
def init (cfg : Setup) : State where
  m :=
    if cfg.useCaller then
      { fibers := fun
          | .thread => some { m_state := .exec, m_ctx := .main .notCalled }
          | .root => some { m_ctx := .entry true, m_cb := some .run }
          | _ => none
        t_fiber := some .thread
        t_threadFiber := some .thread
        t_scheduler_fiber := some .root
        code := .main .notCalled }
    else { fibers := fun _ => none, code := .run .start }

end Atpdxy.Fibers.Loop
