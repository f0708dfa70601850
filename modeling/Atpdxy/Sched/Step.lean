import Atpdxy.Sched.State

/-!
# The steps of the scheduler

`threadStep` is one step of a thread in `Scheduler::run` (`scheduler.cpp`), in
`Scheduler::idle`, or in the code of the fiber it executes; it sees its own
locals and the shared state only. `stopStep` is one step of the caller of
`Scheduler::stop`. `step` puts them together with calls of `schedule()` and
`Fiber(cb)` from threads outside the scheduler.
-/

namespace Atpdxy.Sched

/-- What `schedule()` is given: a fiber, a callback, or an empty pointer or function. -/
inductive FiberOrCb
  | fiber (f : FiberId) | cb | null
  deriving DecidableEq, Repr

/-- A call of `schedule(fc, thread)`, or of `schedule(begin, end)`, which pushes
a whole range in one locked section and without a target. -/
inductive Request
  | one (fc : FiberOrCb) (thread : Option Tid)
  | range (fcs : List FiberOrCb)
  deriving DecidableEq, Repr

/-- What the code of a running fiber does next. -/
inductive UserAct
  | schedule (r : Request)
  | yieldReady
  | yieldHold
  | ret
  | throw
  deriving DecidableEq, Repr

/-- A thread's step: its own next one, or one of the fiber code it executes. -/
inductive Move
  | next | user (u : UserAct)
  deriving DecidableEq, Repr

inductive Act
  | thread (t : Tid) (m : Move)
  | external (r : Request)
  | create
  | stop
  deriving DecidableEq, Repr

/-! ## The queue -/

/-- `scheduleNoLock`. `owed` says that the call is one `stop()` has to wait for. -/
def scheduleNoLock (owed : Bool) (thread : Option Tid) (sh : Shared) : FiberOrCb → Shared
  | .fiber f => { sh with queue := sh.queue ++ [⟨some f, none, thread⟩] }
  | .cb =>
    { sh with
      queue := sh.queue ++ [⟨none, some sh.nextTicket, thread⟩]
      nextTicket := sh.nextTicket + 1
      owed := if owed then sh.owed ++ [sh.nextTicket] else sh.owed }
  | .null => sh

/-- What a call pushes, in order. -/
def Request.items : Request → List (FiberOrCb × Option Tid)
  | .one fc thread => [(fc, thread)]
  | .range fcs => fcs.map fun fc => (fc, none)

/-- The locked section of `schedule`. -/
def schedule (owed : Bool) (sh : Shared) (r : Request) : Shared :=
  r.items.foldl (fun sh i => scheduleNoLock owed i.2 sh i.1) sh

/-- The fiber exists. -/
def FiberOrCb.known (sh : Shared) : FiberOrCb → Bool
  | .fiber f => f < sh.nextFiber
  | _ => true

def Request.known (sh : Shared) (r : Request) : Bool := r.items.all fun i => i.1.known sh

/-- `run()` on thread `t` walks past the entry: another thread's, or a fiber in `EXEC`. -/
def skips (t : Tid) (fibers : FiberId → Fiber) (task : Task) : Bool :=
  (task.thread.any fun u => u != t) || task.fiber.any fun f => (fibers f).state == .exec

/-- The scan of the locked section of `run()`: the first entry it does not walk
past, and the queue without it. -/
def dequeue (t : Tid) (fibers : FiberId → Fiber) : List Task → Option (Task × List Task)
  | [] => none
  | task :: rest =>
    if skips t fibers task then (dequeue t fibers rest).map fun (ft, q) => (ft, task :: q)
    else some (task, rest)

/-! ## A thread -/

/-- `cb_fiber->reset(ft.cb)`, or a new fiber when there is none. -/
def prepare (th : Thread) (sh : Shared) (k : Ticket) : Thread × Shared :=
  match th.cbFiber with
  | some c =>
    if (sh.fibers c).state.resettable then
      ({ th with pc := .enter .cb c }, sh.setFiber c (.new (.callback k)))
    else (th, sh.fail .reset)
  | none =>
    ({ th with pc := .enter .cb sh.nextFiber, cbFiber := some sh.nextFiber },
      { sh.setFiber sh.nextFiber (.new (.callback k)) with nextFiber := sh.nextFiber + 1 })

/-- The callback whose execution begins when the fiber is entered at its start. -/
def Body.begins : Body → List Ticket
  | .callback k => [k]
  | _ => []

/-- `swapIn` of fiber `f`: the assertion, `m_state = EXEC`, and the switch to
whatever `m_ctx` holds. -/
def swapIn (th : Thread) (sh : Shared) (b : Branch) (f : FiberId) : Thread × Shared :=
  let x := sh.fibers f
  if x.state = .exec then (th, sh.fail .swapIn)
  else
    match x.ctx with
    | .entry =>
      ({ th with pc := .running b f },
        { sh.setFiber f { x with state := .exec } with started := sh.started ++ x.cb.begins })
    | .saved => ({ th with pc := .running b f }, sh.setFiber f { x with state := .exec })
    | .finished => (th, sh.fail .neverReach)

/-- What `run()` does with the state a fiber came back with. -/
def settle (th : Thread) (sh : Shared) (b : Branch) (f : FiberId) : Thread :=
  let st := (sh.fibers f).state
  if st = .ready then { th with pc := .requeue b f }
  else if st.ended then
    match b with
    | .fiber => { th with pc := .loop }
    | .cb => { th with pc := .resetCb f }
  else { th with pc := .setHold b f }

/-- Back to the top of the loop; the callback branch has given `cb_fiber` away. -/
def Thread.release (th : Thread) (b : Branch) : Thread :=
  match b with
  | .fiber => { th with pc := .loop }
  | .cb => { th with pc := .loop, cbFiber := none }

/-- The next step of thread `t` in `run()` or `idle()`. -/
def nextStep (cfg : Setup) (t : Tid) (th : Thread) (sh : Shared) : Option (Thread × Shared) :=
  match th.pc with
  | .entry => if t ∈ cfg.workers then some ({ th with pc := .loop }, sh) else none
  | .loop =>
    match dequeue t sh.fibers sh.queue with
    | some (ft, rest) =>
      some ({ th with pc := .dispatch (some ft) },
        { sh with queue := rest, active := incr sh.active })
    | none => some ({ th with pc := .dispatch none }, sh)
  | .dispatch (some ft) =>
    match ft.fiber.filter fun f => !(sh.fibers f).state.ended with
    | some f => some ({ th with pc := .enter .fiber f }, sh)
    | none =>
      match ft.cb with
      | some k => some (prepare th sh k)
      | none => some ({ th with pc := .skip }, sh)
  | .dispatch none =>
    if th.idle = .term then some ({ th with pc := .exited }, sh)
    else some ({ th with pc := .idleEnter }, sh)
  | .enter b f => some (swapIn th sh b f)
  | .running _ _ => none
  | .leaving b f last =>
    some ({ th with pc := .dec b f },
      sh.setFiber f { sh.fibers f with ctx := if last then .finished else .saved })
  | .dec b f => some ({ th with pc := .settle b f }, { sh with active := decr sh.active })
  | .settle b f => some (settle th sh b f, sh)
  | .requeue b f =>
    some (th.release b, { sh with queue := sh.queue ++ [⟨some f, none, none⟩] })
  | .setHold b f => some (th.release b, sh.setFiber f { sh.fibers f with state := .hold })
  | .resetCb c =>
    if (sh.fibers c).state.resettable then
      some ({ th with pc := .loop }, sh.setFiber c (.new .null))
    else some (th, sh.fail .reset)
  | .skip => some ({ th with pc := .loop }, { sh with active := decr sh.active })
  | .idleEnter => some ({ th with pc := .idleSwap }, { sh with idle := incr sh.idle })
  | .idleSwap =>
    if th.idle = .exec then some (th, sh.fail .swapIn)
    else some ({ th with pc := .idling, idle := .exec }, sh)
  | .idling =>
    if sh.isStopping then some ({ th with pc := .idleLeave, idle := .term }, sh)
    else if th.idle = .exec then some ({ th with pc := .idleLeave, idle := .hold }, sh)
    else some (th, sh.fail .yield)
  | .idleLeave => some ({ th with pc := .idleDec }, sh)
  | .idleDec => some ({ th with pc := .idleSettle }, { sh with idle := decr sh.idle })
  | .idleSettle =>
    some ({ th with pc := .loop, idle := if th.idle.ended then th.idle else .hold }, sh)
  | .exited => none

/-- `YieldToReady` and `YieldToHold`, up to the switch. -/
def yieldTo (st : FiberState) (th : Thread) (sh : Shared) (b : Branch) (f : FiberId) :
    Thread × Shared :=
  if (sh.fibers f).state = .exec then
    ({ th with pc := .leaving b f false }, sh.setFiber f { sh.fibers f with state := st })
  else (th, sh.fail .yield)

/-- A step of the code of fiber `f`, which thread `th` executes; calling the
empty function does nothing but throw. The end of the body is the end of
`MainFunc`, up to the switch. -/
def userStep (th : Thread) (sh : Shared) (u : UserAct) : Option (Thread × Shared) :=
  match th.pc with
  | .running b f =>
    let x := sh.fibers f
    match u with
    | .throw => some ({ th with pc := .leaving b f true }, sh.setFiber f { x with state := .except })
    | .ret =>
      if x.cb = .null then none
      else some ({ th with pc := .leaving b f true },
        sh.setFiber f { x with state := .term, cb := .null })
    | .yieldReady => if x.cb = .null then none else some (yieldTo .ready th sh b f)
    | .yieldHold => if x.cb = .null then none else some (yieldTo .hold th sh b f)
    | .schedule r =>
      if x.cb ≠ .null ∧ r.known sh then some (th, schedule true sh r) else none
  | _ => none

def threadStep (cfg : Setup) (t : Tid) (th : Thread) (sh : Shared) : Move → Option (Thread × Shared)
  | .next => nextStep cfg t th sh
  | .user u => userStep th sh u

/-! ## The caller of `stop()`, and the whole system -/

/-- Every worker has been joined. -/
def joined (cfg : Setup) (s : State) : Prop := ∀ t ∈ cfg.workers, (s.thr t).pc = .exited

instance (cfg : Setup) (s : State) : Decidable (joined cfg s) :=
  inferInstanceAs (Decidable (∀ _ ∈ _, _))

/-- One step of `Scheduler::stop`, called by a thread outside `run()`. -/
def stopStep (cfg : Setup) (s : State) : Option State :=
  match s.stop with
  | .notCalled => some { s with stop := .first, sh := { s.sh with autoStop := true } }
  | .first =>
    if cfg.rootThread.isSome ∧ cfg.workers = ∅ ∧ (s.root = .term ∨ s.root = .init) then
      some { s with stop := .firstStopping, sh := { s.sh with stopping := true } }
    else some { s with stop := .setStopping }
  | .firstStopping =>
    some { s with stop := if s.sh.isStopping then .returned else .setStopping }
  | .setStopping => some { s with stop := .test, sh := { s.sh with stopping := true } }
  | .test =>
    match cfg.rootThread with
    | none => some { s with stop := .join }
    | some r =>
      if s.sh.isStopping then some { s with stop := .join }
      else some { s with
        stop := .inRoot
        root := .exec
        thr := Function.update s.thr r { s.thr r with pc := .loop } }
  | .inRoot =>
    if cfg.rootThread.all fun r => (s.thr r).pc = .exited then
      some { s with stop := .join, root := .term }
    else none
  | .join => if joined cfg s then some { s with stop := .returned } else none
  | .returned => none

/-- A step of the system; none after a failed assertion. -/
def step (cfg : Setup) (s : State) (a : Act) : Option State :=
  if s.sh.failed.isSome then none
  else
    match a with
    | .thread t m =>
      (threadStep cfg t (s.thr t) s.sh m).map fun (th, sh) =>
        { s with thr := Function.update s.thr t th, sh }
    | .external r =>
      if r.known s.sh then
        some { s with sh := schedule (s.stop == .notCalled) s.sh r }
      else none
    | .create => some { s with sh := { s.sh with nextFiber := s.sh.nextFiber + 1 } }
    | .stop => stopStep cfg s

end Atpdxy.Sched
