import Mathlib.Algebra.BigOperators.Group.Finset.Basic
import Mathlib.Data.Finset.Erase
import Mathlib.Tactic.Common
import Atpdxy.Sched.Exclusive

/-!
# Where a callback is

Each callback passed to `schedule()` is at any time in one place: in the queue,
in the hands of a thread that has dequeued it, in a fiber armed with it whose
thread is about to switch in, or started. `Tickets.count` states it as a sum
over the scheduler's threads; a step moves one callback to the next place
(`Moves.conserve`) and a `schedule()` call makes new ones.
-/

namespace Atpdxy.Sched

open Run

variable {cfg : Setup} {t u : Tid} {m : Move} {th th' : Thread} {sh sh' : Shared} {s s' : State} {a : Act} {f : FiberId}
  {as : List Act} {k : Ticket}

/-- The callbacks in the queue. -/
def Shared.queued (sh : Shared) : List Ticket := sh.queue.filterMap Task.cb

/-- The callback in `ft`, or in the fiber the thread is about to enter at its start. -/
def Thread.hands (th : Thread) (sh : Shared) : List Ticket :=
  match th.pc with
  | .dispatch (some ft) => ft.cb.toList
  | .enter _ f => if (sh.fibers f).ctx = .entry then (sh.fibers f).cb.begins else []
  | _ => []

/-- The callbacks passed to `schedule()` so far. -/
def Shared.minted (sh : Shared) : List Ticket := List.range sh.nextTicket

/-- The thread is inside fiber `f`, or about to be. -/
def Pc.inside (f : FiberId) (pc : Pc) : Prop :=
  ∃ b, pc = .enter b f ∨ pc = .running b f ∨ ∃ last, pc = .leaving b f last

theorem Pc.inside.holds (inside : th.pc.inside f) : th.Holds f := by
  obtain ⟨b, pc | pc | ⟨last, pc⟩⟩ := inside <;> exact .inl (by simp [pc, Pc.refs])

/-- A task has a fiber or a callback, not both. -/
def Task.Single (task : Task) : Prop := task.fiber.isSome = true → task.cb = none

structure Tickets (cfg : Setup) (s : State) : Prop where
  queued : ∀ task ∈ s.sh.queue, task.Single
  held : ∀ t ft, (s.thr t).pc = .dispatch (some ft) → ft.Single
  /-- a callback fiber at its start is one somebody is about to enter, or has entered -/
  armed : ∀ f k, (s.sh.fibers f).cb = .callback k → (s.sh.fibers f).ctx = .entry → ∃ t, (s.thr t).pc.inside f
  count : ∀ k, (∑ t ∈ cfg.threads, ((s.thr t).hands s.sh).count k) + s.sh.queued.count k +
    s.sh.started.count k = s.sh.minted.count k

/-! ## A call of `schedule()` -/

theorem scheduleNoLock_conserve (owed : Bool) (thread : Option Tid) (sh : Shared) (fc : FiberOrCb) (k : Ticket) :
    (scheduleNoLock owed thread sh fc).queued.count k + sh.minted.count k =
      sh.queued.count k + (scheduleNoLock owed thread sh fc).minted.count k := by
  cases fc with
  | fiber f => simp [scheduleNoLock, Shared.queued, Shared.minted]
  | null => rfl
  | cb =>
    simp only [scheduleNoLock, Shared.queued, Shared.minted, List.filterMap_append, List.filterMap_cons,
      List.filterMap_nil, List.count_append, List.range_succ]
    omega

theorem schedule_conserve (owed : Bool) (sh : Shared) (r : Request) (k : Ticket) :
    (schedule owed sh r).queued.count k + sh.minted.count k =
      sh.queued.count k + (schedule owed sh r).minted.count k := by
  refine schedule_induct (P := fun sh' => sh'.queued.count k + sh.minted.count k =
    sh.queued.count k + sh'.minted.count k) rfl fun sh' i _ ih => ?_
  have push := scheduleNoLock_conserve owed i.2 sh' i.1 k
  omega

theorem schedule_single {owed : Bool} {r : Request} (single : ∀ task ∈ sh.queue, task.Single) :
    ∀ task ∈ (schedule owed sh r).queue, task.Single := by
  refine schedule_induct (P := fun sh => ∀ task ∈ sh.queue, task.Single) single ?_
  rintro sh ⟨fc, thread⟩ _ single task queued
  cases fc with
  | fiber g =>
    rcases List.mem_append.mp queued with queued | queued
    · exact single task queued
    · obtain rfl := List.mem_singleton.mp queued
      exact fun _ => rfl
  | cb =>
    rcases List.mem_append.mp queued with queued | queued
    · exact single task queued
    · obtain rfl := List.mem_singleton.mp queued
      exact fun named => by cases named
  | null => exact single task queued

/-! ## A step of a thread -/

/-- A thread's step makes no callback and loses none. -/
theorem Moves.conserve (moves : Moves cfg t th sh m th' sh') (single : ∀ ft, th.pc = .dispatch (some ft) → ft.Single)
    (fresh : ∀ f, th.Holds f → ¬ th.pc.inside f → (sh.fibers f).ctx = .entry → (sh.fibers f).cb.begins = [])
    (k : Ticket) :
    (th'.hands sh').count k + sh'.queued.count k + sh'.started.count k + sh.minted.count k =
      (th.hands sh).count k + sh.queued.count k + sh.started.count k + sh'.minted.count k := by
  cases moves with
  | @take ft rest pc found =>
    obtain ⟨front, back, queue, rfl, _⟩ := dequeue_some found
    have hands : th.hands sh = [] := by simp [Thread.hands, pc]
    have taken : sh.queued.count k = ft.cb.toList.count k + ((front ++ back).filterMap Task.cb).count k := by
      simp only [Shared.queued, queue, List.filterMap_append, List.filterMap_cons, List.count_append]
      cases ft.cb with
      | none => simp
      | some k' =>
        simp only [List.count_cons, Option.toList_some, List.count_nil]
        omega
    rw [hands, taken]
    simp only [Thread.hands, Shared.queued, Shared.minted, List.count_nil]
    omega
  | @enterFiber ft f pc fiber =>
    have hands : th.hands sh = [] := by simp [Thread.hands, pc, single ft pc (by simp [fiber])]
    have entered : ({ th with pc := .enter .fiber f } : Thread).hands sh = [] := by
      have begins := fresh f (.inl (by simp [pc, Pc.refs, fiber])) (by simp [pc, Pc.inside])
      by_cases ctx : (sh.fibers f).ctx = .entry
      · simpa [Thread.hands] using fun _ => begins ctx
      · simp [Thread.hands, ctx]
    rw [hands, entered]
  | @reuse ft k' c pc cb =>
    simp [Thread.hands, pc, cb, Fiber.new, Body.begins, Shared.queued, Shared.minted]
  | @make ft k' pc cb =>
    simp [Thread.hands, pc, cb, Fiber.new, Body.begins, Shared.queued, Shared.minted]
  | begin pc _ ctx =>
    simp [Thread.hands, pc, ctx, Shared.queued, Shared.minted]
    omega
  | @schedule b f r pc =>
    have pushed := schedule_conserve true sh r k
    simp only [Thread.hands, pc, List.count_nil, schedule_started]
    omega
  | failSwapIn | failReset => rfl
  | _ => simp_all [Thread.hands, Shared.queued, Shared.minted]

/-- A callback fiber at its start is either one the thread is inside of, or was
one before the step, and not the thread's. -/
theorem Moves.armed (moves : Moves cfg t th sh m th' sh') (cb : (sh'.fibers f).cb = .callback k)
    (ctx : (sh'.fibers f).ctx = .entry) :
    th'.pc.inside f ∨ ((sh.fibers f).cb = .callback k ∧ (sh.fibers f).ctx = .entry ∧ ¬ th.pc.inside f) := by
  unfold Pc.inside
  cases moves with
  | @reuse _ _ g | @begin _ g | @resume _ g | @yield _ g | @ret _ g | @throw _ g =>
    by_cases same : f = g
    · exact .inl (by simp [same])
    · exact .inr (by simp_all [Ne.symm same])
  | @switchOut _ g last =>
    by_cases same : f = g
    · subst same
      cases last <;> simp at ctx
    · exact .inr (by simp_all [Ne.symm same])
  | @resetCb g =>
    by_cases same : f = g
    · simp [same, Fiber.new] at cb
    · exact .inr (by simp_all)
  | @setHold _ g =>
    by_cases same : f = g
    · subst same
      exact .inr (by simp_all)
    · exact .inr (by simp_all)
  | make =>
    by_cases same : f = sh.nextFiber
    · exact .inl (by simp [same])
    · exact .inr (by simp_all)
  | failSwapIn | failReset | failNeverReach | failYield | schedule =>
    by_cases inside : th.pc.inside f
    · exact .inl inside
    · exact .inr ⟨by simpa using cb, by simpa using ctx, inside⟩
  | _ => exact .inr (by simp_all)

/-- A thread's callback in hand depends on the fibers it refers to only. -/
theorem Thread.hands_frame (same : ∀ f, th.Holds f → sh'.fibers f = sh.fibers f) : th.hands sh' = th.hands sh := by
  unfold Thread.hands
  split
  · rfl
  · rename_i b f pc
    rw [same f (.inl (by simp [pc, Pc.refs]))]
  · rfl

theorem Moves.single (moves : Moves cfg t th sh m th' sh') (queued : ∀ task ∈ sh.queue, task.Single)
    (held : ∀ ft, th.pc = .dispatch (some ft) → ft.Single) :
    (∀ task ∈ sh'.queue, task.Single) ∧ ∀ ft, th'.pc = .dispatch (some ft) → ft.Single := by
  cases moves with
  | take pc found =>
    refine ⟨fun task member => queued task ((dequeue_mem found).2 member), ?_⟩
    rintro _ ⟨⟩
    exact queued _ (dequeue_mem found).1
  | requeue pc =>
    refine ⟨fun task member => ?_, by simp⟩
    rcases List.mem_append.mp member with member | member
    · exact queued task member
    · obtain rfl := List.mem_singleton.mp member
      exact fun _ => rfl
  | schedule pc => exact ⟨schedule_single queued, held⟩
  | failReset => exact ⟨queued, held⟩
  | _ => exact ⟨queued, by simp_all⟩

/-! ## The system -/

theorem Tickets.start : Tickets cfg {} where
  queued _ queued := by cases queued
  held _ _ pc := by cases pc
  armed _ _ cb := by cases cb
  count k := by simp [Thread.hands, Shared.queued, Shared.minted]

theorem Tickets.thread (tickets : Tickets cfg s) (owned : Owned cfg s) (moves : Moves cfg t (s.thr t) s.sh m th sh) :
    Tickets cfg { s with thr := Function.update s.thr t th, sh } := by
  have own : Function.update s.thr t th t = th := Function.update_self ..
  have other : ∀ u, u ≠ t → Function.update s.thr t th u = s.thr u :=
    fun u apart => Function.update_of_ne apart _ _
  have single := moves.single tickets.queued (tickets.held t)
  constructor
  case queued => exact single.1
  case held =>
    intro u ft pc
    by_cases same : u = t
    · subst same
      simp only [own] at pc
      exact single.2 ft pc
    · simp only [other u same] at pc
      exact tickets.held u ft pc
  case armed =>
    intro f k cb ctx
    rcases moves.armed cb ctx with inside | ⟨cb, ctx, outside⟩
    · exact ⟨t, by simpa only [own] using inside⟩
    · obtain ⟨u, inside⟩ := tickets.armed f k cb ctx
      have apart : u ≠ t := by
        rintro rfl
        exact outside inside
      exact ⟨u, by simpa only [other u apart] using inside⟩
  case count =>
    intro k
    have fresh : ∀ f, (s.thr t).Holds f → ¬ (s.thr t).pc.inside f → (s.sh.fibers f).ctx = .entry →
        (s.sh.fibers f).cb.begins = [] := by
      intro f held outside ctx
      cases cb : (s.sh.fibers f).cb with
      | callback k =>
        obtain ⟨u, inside⟩ := tickets.armed f k cb ctx
        have same : u = t := owned.single u t f inside.holds held
        subst same
        exact (outside inside).elim
      | _ => rfl
    have member := owned.mover moves
    have local' := moves.conserve (tickets.held t) fresh k
    have before := tickets.count k
    rw [← Finset.add_sum_erase _ _ member] at before ⊢
    have rest : ∑ u ∈ cfg.threads.erase t, ((Function.update s.thr t th u).hands sh).count k =
        ∑ u ∈ cfg.threads.erase t, ((s.thr u).hands s.sh).count k := by
      refine Finset.sum_congr rfl fun u among => ?_
      have apart := Finset.ne_of_mem_erase among
      rw [other u apart, Thread.hands_frame fun f held => moves.frame (fun mine => ?_) (owned.held u f held)]
      exact apart (owned.single u t f held mine)
    simp only [own, rest]
    omega

/-- A step that leaves threads and fibers alone. -/
theorem Tickets.share {stop : StopPc} {root : FiberState} (tickets : Tickets cfg s) (fibers : sh.fibers = s.sh.fibers)
    (started : sh.started = s.sh.started) (single : ∀ task ∈ sh.queue, task.Single)
    (pushed : ∀ k, sh.queued.count k + s.sh.minted.count k = s.sh.queued.count k + sh.minted.count k) :
    Tickets cfg { s with sh, stop, root } where
  queued := single
  held := tickets.held
  armed := by simpa only [fibers] using tickets.armed
  count k := by
    have before := tickets.count k
    have push := pushed k
    have hands : ∀ th : Thread, th.hands sh = th.hands s.sh :=
      fun th => Thread.hands_frame fun f _ => by rw [fibers]
    simp only [hands, started]
    omega

theorem Tickets.callRoot {r : Tid} (tickets : Tickets cfg s) (waiting : s.thr r = {}) :
    Tickets cfg { s with
      stop := .inRoot
      root := .exec
      thr := Function.update s.thr r { s.thr r with pc := .loop } } := by
  have other : ∀ u, u ≠ r → Function.update s.thr r { s.thr r with pc := .loop } u = s.thr u :=
    fun u apart => Function.update_of_ne apart _ _
  constructor
  case queued => exact tickets.queued
  case held =>
    intro u ft pc
    by_cases same : u = r
    · subst same
      simp at pc
    · simp only [other u same] at pc
      exact tickets.held u ft pc
  case armed =>
    intro f k cb ctx
    obtain ⟨u, inside⟩ := tickets.armed f k cb ctx
    have apart : u ≠ r := by
      rintro rfl
      simp [waiting, Pc.inside] at inside
    exact ⟨u, by simpa only [other u apart] using inside⟩
  case count =>
    intro k
    rw [← tickets.count k]
    refine congrArg (· + _ + _) (Finset.sum_congr rfl fun u _ => ?_)
    by_cases same : u = r
    · subst same
      simp [waiting, Thread.hands]
    · simp only [other u same]

theorem Tickets.step (tickets : Tickets cfg s) (owned : Owned cfg s) (step : step cfg s a = some s') :
    Tickets cfg s' := by
  obtain ⟨_, moves⟩ := step_cases step
  cases moves with
  | thread moves => exact tickets.thread owned moves
  | external =>
    exact tickets.share (schedule_fibers ..) (schedule_started ..) (schedule_single tickets.queued)
      (schedule_conserve _ _ _)
  | create => exact tickets.share rfl rfl tickets.queued fun _ => rfl
  | stop moves =>
    cases moves with
    | @callRoot r pc root => exact tickets.callRoot (owned.waiting (by rw [pc]; rfl) r root)
    | _ => exact tickets.share rfl rfl tickets.queued fun _ => rfl

theorem Tickets.run (run : Guarded (Sched.step cfg) (FreeDequeue cfg) {} as s) : Tickets cfg s :=
  run.invariant .start fun _ _ _ _ before tickets _ step => tickets.step (Owned.run before) step

end Atpdxy.Sched
