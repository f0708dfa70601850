import Mathlib.Data.List.Range
import Atpdxy.Fibers.Switch

/-!
# A fiber on a thread of its own

The main fiber of a thread calls `swapIn()` again and again, and the body yields
as often as it likes. `swapIn` and `swapOut` go through the scheduler's main
fiber: where a thread has one, each call runs one segment and comes back. On a thread
without a scheduler the first call goes through a null pointer, after
`Fiber::GetThis()` as before it.
-/

namespace Atpdxy.Fibers.Plain

open Sched (FiberState)

/-- How a segment of the body ends, but the last. -/
inductive Yield
  | toHold | toReady
  deriving DecidableEq, Repr

/-- The state the fiber yields with. -/
def Yield.state : Yield → FiberState
  | .toHold => .hold
  | .toReady => .ready

/-- A callback that yields and then returns. -/
abbrev Body := List Yield

/-- Where the thread is. -/
inductive Code (ι : Type)
  /-- in the main fiber, behind `n` calls of `swapIn()` -/
  | main (n : Nat)
  /-- at the start of `MainFunc` -/
  | entry
  /-- about to execute segment `i`; `cur` is the fiber `MainFunc` began with -/
  | segment (cur : ι) (i : Nat) (rest : Body)
  /-- behind the last `swapOut` of `MainFunc` -/
  | past

variable {ι : Type} [DecidableEq ι]

structure State (ι : Type) where
  thread : Thread ι (Code ι) Body
  /-- the segments executed, in order -/
  log : List Nat := []

/-- The next step; `f` is the fiber the main fiber calls. -/
def step (f : ι) (s : State ι) : Option (State ι) :=
  match s.thread.code with
  | .main n => (s.thread.swapIn f (.main (n + 1))).map fun m => { s with thread := m }
  | .entry => do
    let cur ← s.thread.t_fiber
    let x ← s.thread.fibers cur
    match x.m_cb with
    | some body => return { s with thread := { s.thread with code := .segment cur 0 body } }
    | none => (s.thread.finish false true cur .past).map fun m => { s with thread := m }
  | .segment cur i [] =>
    (s.thread.finish false false cur .past).map fun m => ⟨m, s.log ++ [i]⟩
  | .segment cur i (y :: rest) =>
    (s.thread.yieldTo y.state (.segment cur (i + 1) rest)).map fun m => ⟨m, s.log ++ [i]⟩
  | .past => none

/-- `n` steps. -/
def steps (f : ι) : Nat → State ι → Option (State ι)
  | 0, s => some s
  | n + 1, s => (step f s).bind (steps f n)

/-- `Fiber f(body)` on a thread in its main fiber. -/
def start (m : Thread ι (Code ι) Body) (f : ι) (body : Body) : State ι where
  thread := { m.set f { m_ctx := .entry, m_cb := some body } with code := .main 0 }

/-- The state the fiber has after call `i`. -/
def stateAfter (body : Body) (i : Nat) : FiberState := (body[i]?.map Yield.state).getD .term

/-- Call `i` executes segment `i` and comes back, for all segments. -/
def Works (m : Thread ι (Code ι) Body) (f : ι) (body : Body) : Prop :=
  ∀ i ≤ body.length, ∃ n s x, steps f n (start m f body) = some s ∧ s.thread.code = .main (i + 1) ∧
    s.log = List.range (i + 1) ∧ s.thread.fibers f = some x ∧ x.m_state = stateAfter body i

variable {m : Thread ι (Code ι) Body} {f g : ι} {y : Fiber (Code ι) Body} {s t : State ι} {body : Body} {i : Nat}

theorem steps_add (n k : Nat) (s : State ι) : steps f (n + k) s = (steps f n s).bind (steps f k) := by
  induction n generalizing s with
  | zero => simp [steps]
  | succ n ih =>
    rw [Nat.succ_add, steps, steps, Option.bind_assoc]
    congr 1
    funext t
    exact ih t

/-- Between two calls: segment `i` comes next. -/
structure Before (f g : ι) (body : Body) (i : Nat) (s : State ι) : Prop where
  code : s.thread.code = .main i
  log : s.log = List.range i
  main : s.thread.t_scheduler_fiber = some g
  live : ∃ y, s.thread.fibers g = some y
  fiber : ∃ x, s.thread.fibers f = some x ∧ x.m_state ≠ .exec ∧ x.m_cb = some body ∧
    x.m_ctx = if i = 0 then .entry else .segment f i (body.drop i)

/-- At the start of segment `i`, with the way back saved. -/
structure Inside (f g : ι) (body : Body) (i : Nat) (s : State ι) : Prop where
  code : s.thread.code = .segment f i (body.drop i)
  log : s.log = List.range i
  this : s.thread.t_fiber = some f
  main : s.thread.t_scheduler_fiber = some g
  live : ∃ y, s.thread.fibers g = some y ∧ y.m_ctx = .main (i + 1)
  fiber : ∃ x, s.thread.fibers f = some x ∧ x.m_state = .exec ∧ x.m_cb = some body

/-- `swapIn`, and the way into the segment. -/
theorem Before.enter (before : Before f g body i s) (ne : g ≠ f) :
    ∃ n t, steps f n s = some t ∧ Inside f g body i t := by
  obtain ⟨code, log, main, ⟨y, live⟩, x, fiber, resting, cb, ctx⟩ := before
  obtain ⟨m, swap, entered⟩ := Thread.swapIn_enters fiber resting main live ne (.main (i + 1))
  have into : step f s = some ⟨m, s.log⟩ := by simp [step, code, swap]
  have main' := entered.schedulerFiber.trans main
  by_cases first : i = 0
  · -- the fiber is new, and `MainFunc` calls the callback
    subst first
    have entry : m.code = .entry := entered.code.trans ctx
    refine ⟨2, ⟨{ m with code := .segment f 0 body }, s.log⟩, ?_, rfl, log, entered.this, main',
      ⟨_, entered.saved, rfl⟩, _, entered.fiber, rfl, cb⟩
    have begins : step f ⟨m, s.log⟩ = some ⟨{ m with code := .segment f 0 body }, s.log⟩ := by
      simp [step, entry, entered.this, entered.fiber, cb]
    simp [steps, into, begins]
  · refine ⟨1, ⟨m, s.log⟩, by simp [steps, into], ?_, log, entered.this, main', ⟨_, entered.saved, rfl⟩, _,
      entered.fiber, rfl, cb⟩
    rw [entered.code, ctx, if_neg first]

/-- The end of a segment: the next one is saved, or the fiber is finished. -/
theorem Inside.leave (inside : Inside f g body i s) (ne : g ≠ f) (le : i ≤ body.length) :
    ∃ t x, step f s = some t ∧ t.thread.code = .main (i + 1) ∧ t.log = List.range (i + 1) ∧
      t.thread.fibers f = some x ∧ x.m_state = stateAfter body i ∧
      (i < body.length → Before f g body (i + 1) t) := by
  obtain ⟨code, log, this, main, ⟨y, live, back⟩, x, fiber, exec, cb⟩ := inside
  have log' : s.log ++ [i] = List.range (i + 1) := by rw [log, List.range_succ]
  rcases Nat.eq_or_lt_of_le le with last | more
  · have rest : body.drop i = [] := by simp [last]
    obtain ⟨m, swap, returned⟩ := Thread.finish_swapOut fiber main live ne false .past
    refine ⟨⟨m, s.log ++ [i]⟩, _, by simp [step, code, rest, swap], returned.code.trans back, log',
      returned.fiber, ?_, fun more => absurd more (by omega)⟩
    simp [Fiber.finished, stateAfter, last]
  · have rest := List.drop_eq_getElem_cons more
    obtain ⟨m, swap, returned⟩ := Thread.yieldTo_returns this fiber exec main live ne body[i].state
      (.segment f (i + 1) (body.drop (i + 1)))
    have after : step f s = some ⟨m, s.log ++ [i]⟩ := by
      rw [step, code, rest]
      simp [swap]
    refine ⟨_, _, after, returned.code.trans back, log', returned.fiber, by simp [stateAfter, more], fun _ => ?_⟩
    exact {
      code := returned.code.trans back
      log := log'
      main := returned.schedulerFiber.trans main
      live := ⟨y, (returned.others g ne).trans live⟩
      fiber := ⟨_, returned.fiber, by cases body[i] <;> simp [Yield.state], cb, by simp⟩ }

/-- **One call**: the segment, and back behind the call. -/
theorem Before.call (before : Before f g body i s) (ne : g ≠ f) (le : i ≤ body.length) :
    ∃ n t x, steps f n s = some t ∧ t.thread.code = .main (i + 1) ∧ t.log = List.range (i + 1) ∧
      t.thread.fibers f = some x ∧ x.m_state = stateAfter body i ∧
      (i < body.length → Before f g body (i + 1) t) := by
  obtain ⟨n, u, enter, inside⟩ := before.enter ne
  obtain ⟨t, x, leave, after⟩ := inside.leave ne le
  refine ⟨n + 1, t, x, ?_, after⟩
  rw [steps_add, enter]
  simp [steps, leave]

theorem before_start (main : m.t_scheduler_fiber = some g) (live : m.fibers g = some y) (ne : g ≠ f) (body : Body) :
    Before f g body 0 (start m f body) where
  code := rfl
  log := rfl
  main := main
  live := ⟨y, (m.set_fibers _ ne).trans live⟩
  fiber := ⟨_, m.set_fibers_self f _, by simp, rfl, rfl⟩

/-- Behind `i` calls. -/
theorem before_run (begins : Before f g body 0 s) (ne : g ≠ f) (le : i ≤ body.length) :
    ∃ n t, steps f n s = some t ∧ Before f g body i t := by
  induction i with
  | zero => exact ⟨0, s, rfl, begins⟩
  | succ i ih =>
    obtain ⟨n, u, run, before⟩ := ih (Nat.le_of_succ_le le)
    obtain ⟨k, t, x, call, -, -, -, -, next⟩ := before.call ne (Nat.le_of_succ_le le)
    refine ⟨n + k, t, ?_, next le⟩
    rw [steps_add, run]
    exact call

/-- The first call fails, or comes back at once: the new fiber is where the scheduler fiber was. -/
theorem first_call (dead : ¬ m.Live m.t_scheduler_fiber) (body : Body) {n : Nat} {s : State ι}
    (run : steps f n (start m f body) = some s) : s.log = [] := by
  by_cases same : m.t_scheduler_fiber = some f
  · obtain ⟨t, back, log, last⟩ : ∃ t, step f (start m f body) = some t ∧ t.log = [] ∧ step f t = none := by
      refine ⟨⟨{ m.set f { m_state := .exec, m_ctx := .main 1, m_cb := some body } with
        t_fiber := some f, code := .main 1 }, []⟩, ?_, rfl, ?_⟩
      · simp [step, start, Thread.swapIn, Thread.swapcontext, Thread.set, same]
      · simp [step, Thread.swapIn]
    cases n with
    | zero => cases run; rfl
    | succ n =>
      cases n with
      | zero =>
        simp only [steps, back, Option.bind_some, Option.some.injEq] at run
        rw [← run, log]
      | succ n => simp [steps, back, last] at run
  · have stays : ¬ (start m f body).thread.Live (start m f body).thread.t_scheduler_fiber := by
      rw [Thread.live_iff] at dead ⊢
      rintro ⟨g, y, main, live⟩
      have ne : g ≠ f := by
        rintro rfl
        exact same main
      exact dead ⟨g, y, main, (m.set_fibers _ ne).symm.trans live⟩
    have lost : step f (start m f body) = none := by
      show ((start m f body).thread.swapIn f (.main 1)).map _ = none
      rw [Thread.swapIn_dead stays, Option.map_none]
    cases n with
    | zero => cases run; rfl
    | succ n => simp [steps, lost] at run

/-- **Fibers on a plain thread.** Each call executes the segment that comes next and returns behind
the call, exactly when the thread's scheduler fiber is there. -/
theorem works_iff (m : Thread ι (Code ι) Body) (f : ι) (new : m.fibers f = none) (body : Body) :
    Works m f body ↔ m.Live m.t_scheduler_fiber := by
  constructor
  · intro works
    by_contra dead
    obtain ⟨n, s, x, run, -, log, -⟩ := works 0 (Nat.zero_le _)
    rw [first_call dead body run] at log
    cases log
  · intro live i le
    obtain ⟨g, y, main, live⟩ := Thread.live_iff.mp live
    have ne : g ≠ f := by
      rintro rfl
      rw [new] at live
      cases live
    obtain ⟨n, u, run, before⟩ := before_run (before_start main live ne body) ne le
    obtain ⟨k, t, x, call, code, log, fiber, state, -⟩ := before.call ne le
    refine ⟨n + k, t, x, ?_, code, log, fiber, state⟩
    rw [steps_add, run]
    exact call

/-- A thread that has called `Fiber::GetThis()`. -/
def ownThread : Thread Nat (Code Nat) Body :=
  (Thread.getThis { fibers := fun _ => none, code := .main 0 } 0 (.main 0)).2

/-- The same thread as a worker: `run()` has made its main fiber the scheduler's. -/
theorem plain_worker : Works { ownThread with t_scheduler_fiber := some 0 } 1 [.toHold, .toReady] :=
  (works_iff { ownThread with t_scheduler_fiber := some 0 } 1 rfl [.toHold, .toReady]).mpr ⟨0, rfl, rfl⟩

/-- The thread of the repository's own test, with its body. -/
theorem not_plain : ownThread.t_threadFiber = some 0 ∧ ¬ Works ownThread 1 [.toHold, .toHold] := by
  refine ⟨rfl, fun works => ?_⟩
  obtain ⟨n, s, x, run, -, log, -⟩ := works 0 (Nat.zero_le _)
  have dead : ¬ ownThread.Live ownThread.t_scheduler_fiber := by simp [Thread.Live, ownThread, Thread.getThis]
  rw [first_call dead _ run] at log
  cases log

end Atpdxy.Fibers.Plain
