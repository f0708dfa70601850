import Atpdxy.Run.Fifo
import Atpdxy.Sched.Accurate
import Atpdxy.Sched.Drain

/-!
# What `run()` resumes, as seen from the tasks

A callback is executed on a fiber that `run()` makes or takes out of its
`cb_fiber`, so the same fiber object stands for one callback after another.
`Watched` carries along with the scheduler which task each fiber stands for,
the resumptions `run()` has performed, and what the tasks and the executor have
done as labels of the abstract queue of `Run.Fifo`. No step reads any of it.
-/

namespace Atpdxy.Sched

open Run

variable {cfg : Setup} {t u : Tid} {m : Move} {th th' : Thread} {sh sh' : Shared} {s s' : State} {a : Act}
  {f c : FiberId} {k : Ticket}

/-- A task: a fiber made by user code, or one `schedule()` call with a callback. -/
inductive Work
  | fiber (f : FiberId) | callback (k : Ticket)
  deriving DecidableEq, Repr

structure Watched where
  s : State := {}
  /-- the task a fiber stands for -/
  who : FiberId → Work := .fiber
  resumed : List Work := []
  script : List (Fifo.Label Work) := []

/-- The tasks a call of `schedule()` appends; `k` is the next ticket. -/
def pushed (who : FiberId → Work) : Ticket → List (FiberOrCb × Option Tid) → List Work
  | _, [] => []
  | k, (.fiber f, _) :: rest => who f :: pushed who k rest
  | k, (.cb, _) :: rest => .callback k :: pushed who (k + 1) rest
  | k, (.null, _) :: rest => pushed who k rest

/-- What a step of `run()` does to the abstract queue: an entry is taken when
its fiber is switched into or found finished, and dealt with at the end of the
branch. -/
def saidNext : Pc → Pc → List (Fifo.Label Work)
  | .enter _ _, .running _ _ | .dispatch (some _), .skip => [.take]
  | .settle _ _, .loop | .requeue _ _, .loop | .setHold _ _, .loop | .resetCb _, .loop => [.back]
  | _, _ => []

/-- What the code of a fiber does to it. -/
def saidUser (who : FiberId → Work) (k : Ticket) : UserAct → Pc → List (Fifo.Label Work)
  | .schedule r, _ => (pushed who k r.items).map .push
  | .yieldReady, .leaving _ _ _ => [.yield .ready]
  | .yieldHold, .leaving _ _ _ => [.yield .hold]
  | .ret, .leaving _ _ _ | .throw, .leaving _ _ _ => [.yield .ended]
  | _, _ => []

def said (who : FiberId → Work) (k : Ticket) (pc pc' : Pc) : Move → List (Fifo.Label Work)
  | .next => saidNext pc pc'
  | .user u => saidUser who k u pc'

/-- A callback is put on a fiber. -/
def renamed (who : FiberId → Work) : Pc → Pc → FiberId → Work
  | .dispatch (some ft), .enter .cb c => ft.cb.elim who fun k => Function.update who c (.callback k)
  | _, _ => who

/-- The switch into a fiber is a resumption of its task. -/
def resumes (who : FiberId → Work) : Pc → Pc → List Work
  | .enter _ f, .running _ _ => [who f]
  | _, _ => []

/-- `step`, watched. -/
def watch (cfg : Setup) (w : Watched) (a : Act) : Option Watched :=
  (step cfg w.s a).map fun s' =>
    match a with
    | .thread t m =>
      { s := s'
        who := renamed w.who (w.s.thr t).pc (s'.thr t).pc
        resumed := w.resumed ++ resumes w.who (w.s.thr t).pc (s'.thr t).pc
        script := w.script ++ said w.who w.s.sh.nextTicket (w.s.thr t).pc (s'.thr t).pc m }
    | .external r => { w with s := s', script := w.script ++ (pushed w.who w.s.sh.nextTicket r.items).map .push }
    | .create | .stop => { w with s := s' }

/-- `run()` keeps the fiber for the next callback. -/
def Thread.Kept (th : Thread) (f : FiberId) : Prop := th.cbFiber = some f ∧ th.pc.switch ≠ some (.cb, f)

instance : Decidable (th.Kept f) := inferInstanceAs (Decidable (_ ∧ _))

/-- A call without targets. -/
def Request.Unpinned (r : Request) : Prop := ∀ i ∈ r.items, i.2 = none

instance {r : Request} : Decidable r.Unpinned := inferInstanceAs (Decidable (∀ _ ∈ _, _))

/-- The call names no fiber that `run()` keeps for the next callback. -/
def FiberOrCb.Avoids (th : Thread) : FiberOrCb → Prop
  | .fiber f => ¬ th.Kept f
  | _ => True

def Request.Avoids (th : Thread) (r : Request) : Prop := ∀ i ∈ r.items, i.1.Avoids th

instance {fc : FiberOrCb} : Decidable (fc.Avoids th) :=
  match fc with
  | .fiber _ => inferInstanceAs (Decidable (¬ _))
  | .cb | .null => isTrue trivial

instance {r : Request} : Decidable (r.Avoids th) := inferInstanceAs (Decidable (∀ _ ∈ _, _))

/-- Tasks have no target, and come before `stop()` or from tasks. -/
def InScope (s : State) : Act → Prop
  | .thread _ (.user (.schedule r)) => r.Unpinned
  | .external r => r.Unpinned ∧ s.stop = .notCalled
  | _ => True

instance : Decidable (InScope s a) :=
  match a with
  | .thread _ (.user (.schedule _)) => inferInstanceAs (Decidable (Request.Unpinned _))
  | .external _ => inferInstanceAs (Decidable (_ ∧ _))
  | .thread _ .next | .thread _ (.user .yieldReady) | .thread _ (.user .yieldHold) | .thread _ (.user .ret)
  | .thread _ (.user .throw) | .create | .stop => isTrue trivial

/-- The fiber the thread is about to reset. -/
def Pc.resets : Pc → Option FiberId
  | .resetCb c => some c
  | _ => none

/-- No entry of the queue names it. -/
def Unqueued (th : Thread) (sh : Shared) : Prop := ∀ c ∈ th.pc.resets, ∀ task ∈ sh.queue, task.fiber ≠ some c

instance : Decidable (Unqueued th sh) := inferInstanceAs (Decidable (∀ _ ∈ _, _))

/-- The condition on a step: when `cb_fiber` is reset after the end of a
callback, the queue holds no entry with it, and nobody schedules it afterwards. -/
def Apart (t : Tid) (s : State) : Act → Prop
  | .thread _ (.user (.schedule r)) | .external r => r.Avoids (s.thr t)
  | .thread _ .next => Unqueued (s.thr t) s.sh
  | _ => True

instance : Decidable (Apart t s a) :=
  match a with
  | .thread _ (.user (.schedule _)) | .external _ => inferInstanceAs (Decidable (Request.Avoids ..))
  | .thread _ .next => inferInstanceAs (Decidable (Unqueued ..))
  | .thread _ (.user .yieldReady) | .thread _ (.user .yieldHold) | .thread _ (.user .ret)
  | .thread _ (.user .throw) | .create | .stop => isTrue trivial

/-- The tasks are those the queue is meant for, and the step meets the condition. -/
def Plain (t : Tid) (w : Watched) (a : Act) : Prop := InScope w.s a ∧ Apart t w.s a

instance {w : Watched} : Decidable (Plain t w a) := inferInstanceAs (Decidable (_ ∧ _))

/-- The task of a queue entry. -/
def Task.work (who : FiberId → Work) (task : Task) : Work :=
  match task.fiber, task.cb with
  | some f, _ => who f
  | none, some k => .callback k
  | none, none => .fiber 0

/-- What the thread has dequeued and not yet switched into. -/
def Thread.taken (who : FiberId → Work) (th : Thread) : List Work :=
  match th.pc with
  | .dispatch (some ft) => [ft.work who]
  | .enter _ f => [who f]
  | _ => []

/-- How a fiber in this state has stopped. -/
def FiberState.outcome (st : FiberState) : Fifo.Outcome :=
  if st = .ready then .ready else if st.ended then .ended else .hold

theorem FiberState.outcome_ended {st : FiberState} (ended : st.ended = true) : st.outcome = .ended := by
  cases st <;> simp_all [FiberState.outcome, FiberState.ended]

/-- The task the thread is in, and how it has stopped. -/
def Thread.executed (who : FiberId → Work) (fibers : FiberId → Fiber) (th : Thread) :
    Option (Work × Option Fifo.Outcome) :=
  match th.pc with
  | .running _ f => some (who f, none)
  | .leaving _ f _ | .dec _ f | .settle _ f => some (who f, some (fibers f).state.outcome)
  | .requeue _ f => some (who f, some .ready)
  | .setHold _ f => some (who f, some .hold)
  | .resetCb f => some (who f, some .ended)
  | _ => none

/-- The callbacks not yet on a fiber. -/
def Thread.tickets (th : Thread) : List Ticket :=
  match th.pc with
  | .dispatch (some ft) => ft.cb.toList
  | _ => []

/-- An entry is a fiber or a callback. -/
def Task.Proper (task : Task) : Prop := task.fiber.isSome = !task.cb.isSome

end Atpdxy.Sched
