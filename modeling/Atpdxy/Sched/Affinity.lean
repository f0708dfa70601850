import Atpdxy.Sched.Watch

/-!
# Tasks with a target thread

`schedule(fc, thread)` puts the target into the queue entry; the scan of
`run()` walks past an entry with another thread's id. `Aimed` carries along for
every fiber the target of the task it executes: of the call that scheduled the
fiber, or of the callback that `run()` has put on it. Two outstanding calls for
a fiber with different targets leave it without one.

`run()` queues a fiber that yielded `READY` with `schedule(ft.fiber)`, so the
new entry has no target and any thread may take it (`strayed`). `Steady` is the
condition under which a target holds to the end of the task.
-/

namespace Atpdxy.Sched

open Run

variable {cfg : Setup} {t u : Tid} {m : Move} {th th' : Thread} {sh sh' : Shared} {s s' : State} {a : Act}
  {f c : FiberId} {aim : FiberId → Option Tid} {as : List Act} {v : Tid}

structure Aimed where
  s : State := {}
  /-- the target of the task a fiber executes -/
  aim : FiberId → Option Tid := fun _ => none

/-- The queue has an entry with the fiber, or a thread handles one. -/
def Outstanding (cfg : Setup) (thr : Tid → Thread) (sh : Shared) (f : FiberId) : Prop :=
  (∃ task ∈ sh.queue, task.fiber = some f) ∨ ∃ t ∈ cfg.threads, (thr t).pc.refs = some f

instance (cfg : Setup) (thr : Tid → Thread) (sh : Shared) (f : FiberId) : Decidable (Outstanding cfg thr sh f) :=
  inferInstanceAs (Decidable (_ ∨ _))

/-- A call for a fiber sets its target; one with another target than that of an
outstanding call unsets it. -/
def aimItem (cfg : Setup) (thr : Tid → Thread) (sh : Shared) (aim : FiberId → Option Tid) :
    FiberOrCb × Option Tid → FiberId → Option Tid
  | (.fiber f, target) =>
    Function.update aim f
      (if Outstanding cfg thr sh f then if aim f = target then target else none else target)
  | _ => aim

/-- The same for the calls of a request, one after the other. -/
def aimItems (cfg : Setup) (thr : Tid → Thread) (owed : Bool) :
    Shared → (FiberId → Option Tid) → List (FiberOrCb × Option Tid) → FiberId → Option Tid
  | _, aim, [] => aim
  | sh, aim, i :: rest =>
    aimItems cfg thr owed (scheduleNoLock owed i.2 sh i.1) (aimItem cfg thr sh aim i) rest

/-- A callback brings its target to the fiber it is put on. -/
def aimCallback (aim : FiberId → Option Tid) : Pc → Pc → FiberId → Option Tid
  | .dispatch (some ft), .enter .cb c => Function.update aim c ft.thread
  | _, _ => aim

/-- `step`, with targets. -/
def aimStep (cfg : Setup) (w : Aimed) (a : Act) : Option Aimed :=
  (step cfg w.s a).map fun s' =>
    match a with
    | .thread _ (.user (.schedule r)) => ⟨s', aimItems cfg w.s.thr true w.s.sh w.aim r.items⟩
    | .external r => ⟨s', aimItems cfg w.s.thr (w.s.stop == .notCalled) w.s.sh w.aim r.items⟩
    | .thread t _ => ⟨s', aimCallback w.aim (w.s.thr t).pc (s'.thr t).pc⟩
    | .create | .stop => ⟨s', w.aim⟩

/-- Only thread `v` still scans the queue. -/
def OnlyScans (cfg : Setup) (s : State) (v : Tid) : Prop := ∀ u ∈ cfg.threads, u ≠ v → Done cfg s u

instance : Decidable (OnlyScans cfg s v) := inferInstanceAs (Decidable (∀ _ ∈ _, _))

/-- The fiber the thread is about to queue again. -/
def Pc.requeues : Pc → Option FiberId
  | .requeue _ f => some f
  | _ => none

/-- The target of the callback the thread has in hand. -/
def Pc.pinned : Pc → Option Tid
  | .dispatch (some ft) => if ft.cb.isSome then ft.thread else none
  | _ => none

/-- The condition on a step of thread `t`: a fiber with a target is queued again
only when no thread but the target scans any more; and a callback with a target
is not put on a fiber which the queue or another thread still names. -/
def Steady (cfg : Setup) (w : Aimed) : Act → Prop
  | .thread t .next =>
    (∀ f ∈ (w.s.thr t).pc.requeues, ∀ v ∈ w.aim f, OnlyScans cfg w.s v) ∧
      ∀ _v ∈ (w.s.thr t).pc.pinned, ∀ c ∈ (w.s.thr t).cbFiber, ¬ Outstanding cfg w.s.thr w.s.sh c
  | _ => True

instance {w : Aimed} : Decidable (Steady cfg w a) :=
  match a with
  | .thread _ .next => inferInstanceAs (Decidable (_ ∧ _))
  | .thread _ (.user _) | .external _ | .create | .stop => isTrue trivial

/-! ## Threads that no longer scan -/

theorem Done.step (done : Done cfg s u) (placed : Placed cfg s) (step : step cfg s a = some s') : Done cfg s' u := by
  obtain ⟨_, moves⟩ := step_cases step
  cases moves with
  | @thread t m th sh moves =>
    by_cases same : u = t
    · subst same
      rcases done with ⟨term, pc | pc⟩ | ⟨notWorker, pc, _⟩
      · cases moves with
        | leave _ idle => exact .inl ⟨by simpa using idle, .inr (by simp)⟩
        | goIdle _ idle => exact (idle term).elim
        | failReset kept => simp [pc] at kept
        | _ => simp_all
      · exact (moves.inside_run pc).elim
      · exact (notWorker (moves.worker pc)).elim
    · simpa only [Done, Skipped, Function.update_of_ne same] using done
  | external | create => exact done
  | stop moves =>
    cases moves with
    | @callRoot r pc root =>
      by_cases same : u = r
      · subst same
        have waiting := placed.waiting (by rw [pc]; rfl) u root
        rcases done with ⟨term, _⟩ | ⟨_, _, closed⟩
        · simp [waiting] at term
        · simp [pc, StopPc.closed] at closed
      · refine .inl ?_
        rcases done with ⟨term, left⟩ | ⟨_, _, closed⟩
        · simpa only [Function.update_of_ne same] using And.intro term left
        · simp [pc, StopPc.closed] at closed
    | join | early => exact done.imp id fun skipped => ⟨skipped.1, skipped.2.1, rfl⟩
    | noRoot | skipRoot | backRoot => exact done.imp id fun skipped => ⟨skipped.1, skipped.2.1, rfl⟩
    | call pc | first pc | setStopping pc =>
      exact done.imp id fun skipped => by simp [Skipped, pc, StopPc.closed] at skipped
    | pass pc =>
      refine done.imp id fun skipped => ?_
      rcases pc with pc | pc <;> simp [Skipped, pc, StopPc.closed] at skipped

theorem OnlyScans.step (only : OnlyScans cfg s v) (placed : Placed cfg s) (step : step cfg s a = some s') :
    OnlyScans cfg s' v := fun u among apart => (only u among apart).step placed step

/-! ## Fibers that exist -/

/-- The queue and the threads name fibers that exist, whatever the dequeues take. -/
structure Made (s : State) : Prop where
  queued : s.sh.Known
  held : ∀ t f, (s.thr t).Holds f → f < s.sh.nextFiber

theorem Made.step (made : Made s) (placed : Placed cfg s) (step : step cfg s a = some s') : Made s' := by
  obtain ⟨_, moves⟩ := step_cases step
  cases moves with
  | @thread t m th sh moves =>
    refine ⟨moves.known made.queued (made.held t), fun u f held => ?_⟩
    by_cases same : u = t
    · subst same
      simp only [Function.update_self] at held
      exact moves.made made.queued (made.held u) f held
    · simp only [Function.update_of_ne same] at held
      exact Nat.lt_of_lt_of_le (made.held u f held) moves.nextFiber
  | external known =>
    exact ⟨schedule_known made.queued known, by simpa using made.held⟩
  | create =>
    exact ⟨fun task queued f named => Nat.lt_succ_of_lt (made.queued task queued f named),
      fun u f held => Nat.lt_succ_of_lt (made.held u f held)⟩
  | stop moves =>
    cases moves with
    | @callRoot r pc root =>
      refine ⟨made.queued, fun u f held => made.held u f ?_⟩
      by_cases same : u = r
      · subst same
        have waiting := placed.waiting (by rw [pc]; rfl) u root
        simp [waiting, Thread.Holds, Pc.refs] at held
      · simpa only [Function.update_of_ne same] using held
    | _ => exact ⟨made.queued, made.held⟩

theorem Made.run {ok : State → Act → Prop} (run : Guarded (Sched.step cfg) ok {} as s) : Made s := by
  refine run.invariant ⟨fun _ member => (List.not_mem_nil member).elim, fun t f held => (not_holds_default held).elim⟩ ?_
  exact fun _ _ _ _ before made _ step => made.step (Placed.run before) step

/-! ## Targets -/

/-- An entry for a fiber with a target has it, or only the target still scans. -/
def QueueObeys (only : Tid → Prop) (sh : Shared) (aim : FiberId → Option Tid) : Prop :=
  ∀ task ∈ sh.queue, ∀ f ∈ task.fiber, ∀ v ∈ aim f, task.thread = some v ∨ only v

/-- A thread handles only fibers that may run on it. -/
def ThreadsObey (thr : Tid → Thread) (aim : FiberId → Option Tid) : Prop :=
  ∀ t f, (thr t).pc.refs = some f → ∀ v ∈ aim f, t = v

structure Obeys (cfg : Setup) (w : Aimed) : Prop where
  queued : QueueObeys (OnlyScans cfg w.s) w.s.sh w.aim
  held : ThreadsObey w.s.thr w.aim
  taken : ∀ t ft, (w.s.thr t).pc = .dispatch (some ft) → ∀ v ∈ ft.thread, t = v

variable {only : Tid → Prop} {thr : Tid → Thread} {w w' : Aimed}

/-- The target after a call for the fiber is that of the call, and with an
outstanding call it was the target before. -/
theorem aimItem_own {target : Option Tid} (aimed : v ∈ aimItem cfg thr sh aim (.fiber f, target) f) :
    target = some v ∧ (Outstanding cfg thr sh f → v ∈ aim f) := by
  simp only [aimItem, Function.update_self] at aimed
  split at aimed
  · split at aimed
    · rename_i same
      exact ⟨aimed, fun _ => same ▸ aimed⟩
    · cases aimed
  · rename_i free
    exact ⟨aimed, fun outstanding => (free outstanding).elim⟩

theorem aimItem_obeys (owed : Bool) (i : FiberOrCb × Option Tid) (outside : ∀ t, t ∉ cfg.threads → thr t = {})
    (queued : QueueObeys only sh aim) (held : ThreadsObey thr aim) :
    QueueObeys only (scheduleNoLock owed i.2 sh i.1) (aimItem cfg thr sh aim i) ∧
      ThreadsObey thr (aimItem cfg thr sh aim i) := by
  obtain ⟨fc, target⟩ := i
  cases fc with
  | null => exact ⟨queued, held⟩
  | cb =>
    refine ⟨fun task member f named v aimed => ?_, held⟩
    rcases List.mem_append.mp member with old | new
    · exact queued task old f named v aimed
    · obtain rfl := List.mem_singleton.mp new
      cases named
  | fiber g =>
    have others : ∀ f, f ≠ g → aimItem cfg thr sh aim (.fiber g, target) f = aim f :=
      fun f apart => Function.update_of_ne apart ..
    constructor
    · intro task member f named v aimed
      by_cases same : f = g
      · subst same
        obtain ⟨target, before⟩ := aimItem_own aimed
        rcases List.mem_append.mp member with old | new
        · exact queued task old f named v (before (.inl ⟨task, old, named⟩))
        · obtain rfl := List.mem_singleton.mp new
          exact .inl target
      · rw [others f same] at aimed
        rcases List.mem_append.mp member with old | new
        · exact queued task old f named v aimed
        · obtain rfl := List.mem_singleton.mp new
          exact (same (Option.some.inj named).symm).elim
    · intro t f refs v aimed
      by_cases same : f = g
      · subst same
        have among : t ∈ cfg.threads := by
          by_contra out
          simp [outside t out, Pc.refs] at refs
        exact held t f refs v ((aimItem_own aimed).2 (.inr ⟨t, among, refs⟩))
      · rw [others f same] at aimed
        exact held t f refs v aimed

theorem aimItems_obeys (owed : Bool) (outside : ∀ t, t ∉ cfg.threads → thr t = {}) (r : Request)
    (queued : QueueObeys only sh aim) (held : ThreadsObey thr aim) :
    QueueObeys only (schedule owed sh r) (aimItems cfg thr owed sh aim r.items) ∧
      ThreadsObey thr (aimItems cfg thr owed sh aim r.items) := by
  unfold schedule
  generalize r.items = items
  induction items generalizing sh aim with
  | nil => exact ⟨queued, held⟩
  | cons i items ih =>
    obtain ⟨queued, held⟩ := aimItem_obeys owed i outside queued held
    exact ih queued held

/-! ## The step -/

/-- How a thread comes to handle a fiber. -/
theorem Moves.refs (moves : Moves cfg t th sh m th' sh') (aim : FiberId → Option Tid)
    (refs : th'.pc.refs = some f) :
    th.pc.refs = some f ∧ aimCallback aim th.pc th'.pc = aim ∨
      (th.pc = .loop ∧ aimCallback aim th.pc th'.pc = aim ∧
        ∃ found ∈ dequeue t sh.fibers sh.queue, found.1.fiber = some f ∧ skips t sh.fibers found.1 = false ∧
          found.1 ∈ sh.queue) ∨
      ∃ ft, th.pc = .dispatch (some ft) ∧ th'.pc = .enter .cb f := by
  cases moves with
  | take pc found =>
    obtain ⟨_, _, _, _, free⟩ := dequeue_some found
    exact .inr (.inl ⟨pc, by simp [aimCallback, pc], _, found, refs, free, (dequeue_mem found).1⟩)
  | reuse pc => exact .inr (.inr ⟨_, pc, by cases refs; rfl⟩)
  | make pc => exact .inr (.inr ⟨_, pc, by cases refs; rfl⟩)
  | requeue | setHold => simp [Pc.refs] at refs
  | failReset kept =>
    refine .inl ⟨refs, ?_⟩
    rcases kept with pc | ⟨⟨ft, pc, _⟩, _⟩ <;> simp [pc, aimCallback]
  | _ => exact .inl (by simp_all [Pc.refs, aimCallback])

/-- Only a callback put on a fiber changes a target. -/
theorem Moves.aimed (moves : Moves cfg t th sh m th' sh') (aim : FiberId → Option Tid) :
    aimCallback aim th.pc th'.pc = aim ∨
      ∃ ft c, th.pc = .dispatch (some ft) ∧ ft.cb.isSome = true ∧ sh'.queue = sh.queue ∧
        (th.cbFiber = some c ∨ c = sh.nextFiber) ∧ aimCallback aim th.pc th'.pc = Function.update aim c ft.thread := by
  cases moves with
  | reuse pc cb kept => exact .inr ⟨_, _, pc, by simp [cb], rfl, .inl kept, by rw [pc]; rfl⟩
  | make pc cb => exact .inr ⟨_, _, pc, by simp [cb], rfl, .inr rfl, by rw [pc]; rfl⟩
  | failReset kept =>
    refine .inl ?_
    rcases kept with pc | ⟨⟨ft, pc, _⟩, _⟩ <;> simp [pc, aimCallback]
  | _ => exact .inl (by simp_all [aimCallback])

theorem skips_thread {task : Task} (taken : skips t sh.fibers task = false) : ∀ v ∈ task.thread, t = v := by
  intro v target
  rw [Option.mem_def] at target
  simp only [skips, target, Option.any_some, Bool.or_eq_false_iff, bne_eq_false_iff_eq] at taken
  exact taken.1.symm

/-- With a task in hand the thread is in `run()`. -/
theorem Moves.next_of_dispatch {ft : Option Task} (moves : Moves cfg t th sh m th' sh') (pc : th.pc = .dispatch ft) :
    m = .next := by
  cases moves with
  | failYield own | yield own | ret own | throw own | schedule own =>
    rw [pc] at own
    cases own
  | _ => rfl

/-- A fiber a callback with a target is put on is named nowhere else. -/
theorem Moves.alone (moves : Moves cfg t (w.s.thr t) w.s.sh m th sh) (made : Made w.s) (placed : Placed cfg w.s)
    (steady : m = .next → Steady cfg w (.thread t .next)) {ft : Task} (pc : (w.s.thr t).pc = .dispatch (some ft))
    (cb : ft.cb.isSome = true) (target : v ∈ ft.thread) (which : (w.s.thr t).cbFiber = some c ∨ c = w.s.sh.nextFiber) :
    (∀ task ∈ w.s.sh.queue, task.fiber ≠ some c) ∧ ∀ u, (w.s.thr u).pc.refs ≠ some c := by
  rcases which with kept | rfl
  · have steady := steady (moves.next_of_dispatch pc)
    have free := steady.2 v (by simpa [pc, Pc.pinned, cb] using target) c kept
    refine ⟨fun task member named => free (.inl ⟨task, member, named⟩), fun u refs => free (.inr ⟨u, ?_, refs⟩)⟩
    by_contra out
    simp [placed.outside u out, Pc.refs] at refs
  · refine ⟨fun task member named => ?_, fun u refs => ?_⟩
    · exact Nat.lt_irrefl _ (made.queued task member _ named)
    · exact Nat.lt_irrefl _ (made.held u _ (.inl refs))

/-- An entry that stays obeys as before, and one that `run()` pushes has only its target left. -/
theorem Obeys.next_queued (obeys : Obeys cfg w) (made : Made w.s) (placed : Placed cfg w.s)
    (moves : Moves cfg t (w.s.thr t) w.s.sh m th sh) (steady : m = .next → Steady cfg w (.thread t .next))
    (only : ∀ v, OnlyScans cfg w.s v → OnlyScans cfg s' v) (other : ∀ r, m ≠ .user (.schedule r)) :
    QueueObeys (OnlyScans cfg s') sh (aimCallback w.aim (w.s.thr t).pc th.pc) := by
  intro task member f named v aimed
  have kept : task ∈ w.s.sh.queue → v ∈ w.aim f → task.thread = some v ∨ OnlyScans cfg s' v :=
    fun old before => (obeys.queued task old f named v before).imp id (only v)
  rcases moves.aimed w.aim with same | ⟨ft, c, pc, cb, queue, which, same⟩
  · rw [same] at aimed
    cases moves with
    | take _ found => exact kept ((dequeue_mem found).2 member) aimed
    | @requeue b g pc =>
      rcases List.mem_append.mp member with old | new
      · exact kept old aimed
      · obtain rfl := List.mem_singleton.mp new
        cases named
        exact .inr (only v ((steady rfl).1 f (by rw [pc]; rfl) v aimed))
    | schedule => exact (other _ rfl).elim
    | _ => exact kept member aimed
  · rw [same] at aimed
    rw [queue] at member
    by_cases own : f = c
    · subst own
      rw [Function.update_self] at aimed
      exact ((moves.alone made placed steady pc cb aimed which).1 task member named).elim
    · rw [Function.update_of_ne own] at aimed
      exact kept member aimed

/-- The thread that moves takes only what it may, and the others keep what they have. -/
theorem Obeys.next_held (obeys : Obeys cfg w) (made : Made w.s) (placed : Placed cfg w.s)
    (moves : Moves cfg t (w.s.thr t) w.s.sh m th sh) (steady : m = .next → Steady cfg w (.thread t .next)) :
    ThreadsObey (Function.update w.s.thr t th) (aimCallback w.aim (w.s.thr t).pc th.pc) := by
  intro u f refs v aimed
  by_cases mover : u = t
  · subst mover
    rw [Function.update_self] at refs
    rcases moves.refs w.aim refs with ⟨before, same⟩ | ⟨loop, same, found, _, named, free, member⟩ | ⟨ft, pc, after⟩
    · rw [same] at aimed
      exact obeys.held u f before v aimed
    · rw [same] at aimed
      rcases obeys.queued found.1 member f named v aimed with target | last
      · exact skips_thread free v target
      · by_contra apart
        have done := last u (placed.mover moves) apart
        exact not_done_of_pc (by simp [loop]) (by simp [loop]) (by simp [loop]) done
    · rw [pc, after] at aimed
      exact obeys.taken u ft pc v (by simpa [aimCallback] using aimed)
  · rw [Function.update_of_ne mover] at refs
    rcases moves.aimed w.aim with same | ⟨ft, c, pc, cb, _, which, same⟩
    · rw [same] at aimed
      exact obeys.held u f refs v aimed
    · rw [same] at aimed
      by_cases own : f = c
      · subst own
        rw [Function.update_self] at aimed
        exact ((moves.alone made placed steady pc cb aimed which).2 u refs).elim
      · rw [Function.update_of_ne own] at aimed
        exact obeys.held u f refs v aimed

/-- The scan gives a thread only entries it may take. -/
theorem Moves.taken {ft : Task} (moves : Moves cfg t th sh m th' sh') (pc : th'.pc = .dispatch (some ft)) :
    th.pc = .dispatch (some ft) ∨ ∀ v ∈ ft.thread, t = v := by
  cases moves with
  | take _ found =>
    cases pc
    obtain ⟨_, _, _, _, free⟩ := dequeue_some found
    exact .inr (skips_thread free)
  | failReset => exact .inl pc
  | requeue | setHold => simp at pc
  | _ => simp_all

theorem Obeys.next (obeys : Obeys cfg w) (made : Made w.s) (placed : Placed cfg w.s)
    (moves : Moves cfg t (w.s.thr t) w.s.sh m th sh) (steady : m = .next → Steady cfg w (.thread t .next))
    (step : step cfg w.s (.thread t m) = some { w.s with thr := Function.update w.s.thr t th, sh })
    (other : ∀ r, m ≠ .user (.schedule r)) :
    Obeys cfg ⟨{ w.s with thr := Function.update w.s.thr t th, sh }, aimCallback w.aim (w.s.thr t).pc th.pc⟩ where
  queued := obeys.next_queued made placed moves steady (fun _ before => before.step placed step) other
  held := obeys.next_held made placed moves steady
  taken := by
    apply (Function.forall_update_iff w.s.thr fun u th => ∀ ft, th.pc = .dispatch (some ft) → ∀ v ∈ ft.thread, u = v).mpr
    refine ⟨fun ft pc => ?_, fun u _ => obeys.taken u⟩
    rcases moves.taken pc with before | free
    · exact obeys.taken t ft before
    · exact free

/-- A change of the shared state that pushes nothing, or of `stop()`. -/
theorem Obeys.share (obeys : Obeys cfg w) (only : ∀ v, OnlyScans cfg w.s v → OnlyScans cfg s' v)
    (queue : s'.sh.queue = w.s.sh.queue) (thr : ∀ t, s'.thr t = w.s.thr t ∨ (s'.thr t).pc = .loop) :
    Obeys cfg ⟨s', w.aim⟩ where
  queued task member f named v aimed := by
    dsimp only at member
    rw [queue] at member
    exact (obeys.queued task member f named v aimed).imp id (only v)
  held t f refs v aimed := by
    rcases thr t with same | loop
    · exact obeys.held t f (same ▸ refs) v aimed
    · simp [loop, Pc.refs] at refs
  taken t ft pc v target := by
    rcases thr t with same | loop
    · exact obeys.taken t ft (same ▸ pc) v target
    · simp [loop] at pc

theorem Obeys.request {r : Request} {owed : Bool} (obeys : Obeys cfg w) (placed : Placed cfg w.s)
    (sh : s'.sh = schedule owed w.s.sh r) (thr : s'.thr = w.s.thr)
    (only : ∀ v, OnlyScans cfg w.s v → OnlyScans cfg s' v) :
    Obeys cfg ⟨s', aimItems cfg w.s.thr owed w.s.sh w.aim r.items⟩ := by
  obtain ⟨queued, held⟩ := aimItems_obeys owed placed.outside r obeys.queued obeys.held
  constructor
  case queued =>
    intro task member f named v aimed
    dsimp only at member
    rw [sh] at member
    exact (queued task member f named v aimed).imp id (only v)
  case held =>
    dsimp only
    rw [thr]
    exact held
  case taken =>
    dsimp only
    rw [thr]
    exact obeys.taken

/-- A call of `schedule()` by a task moves nothing and pushes its request. -/
theorem userStep_schedule {r : Request} (step : userStep th sh (.schedule r) = some (th', sh')) :
    th' = th ∧ sh' = schedule true sh r := by
  unfold userStep at step
  split at step
  · dsimp only at step
    split at step
    · cases step
      exact ⟨rfl, rfl⟩
    · cases step
  · cases step

theorem Obeys.step (obeys : Obeys cfg w) (made : Made w.s) (placed : Placed cfg w.s) (steady : Steady cfg w a)
    (moved : aimStep cfg w a = some w') : Obeys cfg w' := by
  obtain ⟨s', step, rfl⟩ := Option.map_eq_some_iff.mp moved
  have only : ∀ v, OnlyScans cfg w.s v → OnlyScans cfg s' v := fun v before => before.step placed step
  cases a with
  | thread t m =>
    have system := step
    simp only [Sched.step] at step
    split at step
    · cases step
    · obtain ⟨⟨th, sh⟩, thread, rfl⟩ := Option.map_eq_some_iff.mp step
      have own : Function.update w.s.thr t th t = th := Function.update_self ..
      have next := obeys.next made placed (threadStep_cases thread) (fun next => next ▸ steady) system
      cases m with
      | next => simpa only [own] using next nofun
      | user u =>
        cases u with
        | schedule r =>
          obtain ⟨same, pushed⟩ := userStep_schedule thread
          exact obeys.request placed pushed (by simp [same]) only
        | _ => simpa only [own] using next nofun
  | external =>
    obtain ⟨_, moves⟩ := step_cases step
    cases moves with
    | external => exact obeys.request placed rfl rfl only
  | create =>
    obtain ⟨_, moves⟩ := step_cases step
    cases moves with
    | create => exact obeys.share only rfl fun _ => .inl rfl
  | stop =>
    obtain ⟨_, moves⟩ := step_cases step
    cases moves with
    | stop moves =>
      cases moves with
      | @callRoot r pc root =>
        refine obeys.share only rfl fun t => ?_
        by_cases same : t = r
        · exact .inr (by simp [same])
        · exact .inl (Function.update_of_ne same ..)
      | _ => exact obeys.share only rfl fun _ => .inl rfl

/-- A run with targets is a run. -/
theorem Aimed.run {ok : Aimed → Act → Prop} (run : Guarded (aimStep cfg) ok {} as w) :
    Guarded (step cfg) (fun _ _ => True) {} as w.s := by
  refine run.map Aimed.s fun w a w' _ moved => ⟨trivial, ?_⟩
  obtain ⟨s', step, rfl⟩ := Option.map_eq_some_iff.mp moved
  cases a with
  | thread t m =>
    cases m with
    | next => exact step
    | user u => cases u <;> exact step
  | external | create | stop => exact step

theorem Obeys.run (run : Guarded (aimStep cfg) (Steady cfg) {} as w) : Obeys cfg w := by
  refine run.invariant ⟨fun _ member => (List.not_mem_nil member).elim, fun t f refs => ?_, fun t ft pc => ?_⟩ ?_
  · cases refs
  · cases pc
  · intro as w a w' before obeys steady moved
    exact obeys.step (Made.run (Aimed.run before)) (Placed.run (Aimed.run before)) steady moved

/-- **Thread affinity.** When a fiber with a target is queued again only once no
other thread scans the queue, and a callback with a target is put on a fiber
that is named nowhere else, a fiber is executed by no thread but its target. -/
theorem affinity (run : Guarded (aimStep cfg) (Steady cfg) {} as w) :
    ∀ t f v, (w.s.thr t).Executes f → w.aim f = some v → t = v := by
  rintro t f v ⟨b, executes⟩ target
  apply (Obeys.run run).held t f _ v target
  rcases executes with pc | ⟨last, pc⟩ <;> rw [pc] <;> rfl

/-- Fiber 0 has the target 2; thread 1 walks past its entry, and past the second
one the fiber queues before it yields `HOLD`. -/
def keptOn : List Act :=
  [.create, .external (.one (.fiber 0) (some 2))] ++ go 1 2 ++ go 2 4 ++
    [.thread 2 (.user (.schedule (.one (.fiber 0) (some 2)))), .thread 2 (.user .yieldHold)] ++ go 1 3 ++ go 2 7

theorem affinity_keptOn :
    ∃ w, Guarded (aimStep twoWorkers) (Steady twoWorkers) {} keptOn w ∧ w.aim 0 = some 2 ∧ (w.s.thr 2).Executes 0 ∧
      ∀ t f v, (w.s.thr t).Executes f → w.aim f = some v → t = v := by
  obtain ⟨w, run, test⟩ := Guarded.of_any
    (show (execIf (aimStep twoWorkers) (Steady twoWorkers) {} keptOn).any (fun w =>
      w.aim 0 = some 2 ∧ (w.s.thr 2).pc = .running .fiber 0) from by decide +kernel)
  obtain ⟨target, pc⟩ := of_decide_eq_true test
  exact ⟨w, run, target, ⟨.fiber, .inl pc⟩, affinity run⟩

/-- Fiber 0, with the target 1, yields `READY`; thread 1 queues it again and
thread 2 takes it. -/
def strayed : List Act :=
  [.create, .external (.one (.fiber 0) (some 1))] ++ go 1 4 ++ [.thread 1 (.user .yieldReady)] ++ go 1 4 ++ go 2 4

/-- The second segment is executed by thread 2. -/
theorem not_affinity :
    ∃ w, exec (aimStep twoWorkers) {} strayed = some w ∧ w.aim 0 = some 1 ∧ (w.s.thr 2).Executes 0 := by
  obtain ⟨w, run, test⟩ := exec_of_any
    (show (exec (aimStep twoWorkers) {} strayed).any (fun w =>
      w.aim 0 = some 1 ∧ (w.s.thr 2).pc = .running .fiber 0) from by decide +kernel)
  obtain ⟨target, pc⟩ := of_decide_eq_true test
  exact ⟨w, run, target, ⟨.fiber, .inl pc⟩⟩

end Atpdxy.Sched
