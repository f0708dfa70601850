import Atpdxy.Sched.Single

/-!
# One executing thread is a first-in first-out queue

`Refines` relates the scheduler with one executing thread to the abstract queue
of `Run.Fifo`: the abstract queue is what the thread has taken and not entered,
followed by `m_tasks`; the abstract running task is the one `run()` is in until
the end of its branch. `Moves.refined` is the step lemma, and `fifo` follows by
induction on the run.

Without the condition `Apart` it fails: `cb_fiber->reset(nullptr)` turns the
fiber of a finished callback back into `INIT`, so an entry of it that is still
queued is not dropped (`resumedAgain`).
-/

namespace Atpdxy.Sched

open Run

variable {cfg : Setup} {t u : Tid} {m : Move} {th th' : Thread} {sh sh' : Shared} {s s' : State} {a : Act}
  {f c : FiberId} {k : Ticket} {who : FiberId → Work} {resumed : List Work} {q : Fifo.State Work} {as : List Act}
  {w w' : Watched}

/-- The scheduler `th`, `sh` implements the abstract queue `q`. -/
structure Refines (th : Thread) (sh : Shared) (who : FiberId → Work) (resumed : List Work)
    (q : Fifo.State Work) : Prop where
  queue : q.queue = th.taken who ++ sh.queue.map (Task.work who)
  resumed : q.resumed = resumed
  running : q.running = th.executed who sh.fibers
  /-- outside `run()`'s hands a fiber has ended when its task has -/
  ended : ∀ f, ¬ th.Kept f → (∀ b, th.pc.switch ≠ some (b, f)) →
    ((sh.fibers f).state.ended = true ↔ who f ∈ q.ended)
  live : ∀ b f, th.pc.switch = some (b, f) → who f ∉ q.ended
  entering : ∀ b f, th.pc = .enter b f ∨ th.pc = .requeue b f → (sh.fibers f).state.ended = false

theorem Refines.start : Refines {} {} .fiber [] {} where
  queue := rfl
  resumed := rfl
  running := rfl
  ended f _ _ := ⟨nofun, nofun⟩
  live := nofun
  entering b f pc := by rcases pc with pc | pc <;> cases pc

/-- A step that says nothing. -/
theorem Refines.quiet (refines : Refines th sh who resumed q) (taken : th'.taken who = th.taken who)
    (executed : th'.executed who sh'.fibers = th.executed who sh.fibers) (queue : sh'.queue = sh.queue)
    (state : ∀ f, (sh'.fibers f).state = (sh.fibers f).state) (cbFiber : th'.cbFiber = th.cbFiber)
    (switch : th'.pc.switch = th.pc.switch)
    (entering : ∀ b f, th'.pc = .enter b f ∨ th'.pc = .requeue b f → (sh.fibers f).state.ended = false) :
    Refines th' sh' who resumed q where
  queue := by rw [taken, queue]; exact refines.queue
  resumed := refines.resumed
  running := executed ▸ refines.running
  ended f free out := by
    rw [state]
    apply refines.ended f
    · simpa only [Thread.Kept, cbFiber, switch] using free
    · simpa only [switch] using out
  live b f inside := refines.live b f (switch ▸ inside)
  entering b f pc := by rw [state]; exact entering b f pc

/-- Nothing is said, and the abstract queue stays. -/
theorem still {who' : FiberId → Work} (said : said who k th.pc th'.pc m = []) (named : renamed who th.pc th'.pc = who')
    (silent : resumes who th.pc th'.pc = []) (refines : Refines th' sh' who' resumed q) :
    ∃ q', exec Fifo.step q (Sched.said who k th.pc th'.pc m) = some q' ∧
      Refines th' sh' (renamed who th.pc th'.pc) (resumed ++ resumes who th.pc th'.pc) q' := by
  rw [said, named, silent, List.append_nil]
  exact ⟨q, rfl, refines⟩

/-- One label is said, and the abstract queue makes that step. -/
theorem spoken {l : Fifo.Label Work} (said : said who k th.pc th'.pc m = [l]) (named : renamed who th.pc th'.pc = who)
    (silent : resumes who th.pc th'.pc = [])
    (simulated : ∃ q', Fifo.step q l = some q' ∧ Refines th' sh' who resumed q') :
    ∃ q', exec Fifo.step q (Sched.said who k th.pc th'.pc m) = some q' ∧
      Refines th' sh' (renamed who th.pc th'.pc) (resumed ++ resumes who th.pc th'.pc) q' := by
  obtain ⟨q', step, refines⟩ := simulated
  rw [said, named, silent, List.append_nil]
  exact ⟨q', Fifo.exec_single.trans step, refines⟩

/-! ## Taking an entry -/

/-- When nothing is to be walked past, the scan takes the head. -/
theorem dequeue_head {fibers : FiberId → Fiber} {queue : List Task} {ft : Task} {rest : List Task}
    (ready : ∀ task ∈ queue, skips t fibers task = false) (found : dequeue t fibers queue = some (ft, rest)) :
    queue = ft :: rest := by
  cases queue with
  | nil => cases found
  | cons task queue =>
    simp only [dequeue, ready task (List.mem_cons_self ..), Bool.false_eq_true, ↓reduceIte,
      Option.some.injEq, Prod.mk.injEq] at found
    rw [found.1, found.2]

theorem Refines.take {ft : Task} {rest : List Task} {n : Nat} (refines : Refines th sh who resumed q)
    (pc : th.pc = .loop)
    (queue : sh.queue = ft :: rest) :
    Refines { th with pc := .dispatch (some ft) } { sh with queue := rest, active := n } who resumed q where
  queue := by rw [refines.queue, queue]; simp [Thread.taken, pc]
  resumed := refines.resumed
  running := by rw [refines.running]; simp [Thread.executed, pc]
  ended f free _ := by
    apply refines.ended f
    · simpa [Thread.Kept, pc, Pc.switch] using free
    · simp [pc, Pc.switch]
  live := nofun
  entering b f pc := by rcases pc with pc | pc <;> cases pc

theorem Refines.enterFiber {ft : Task} (refines : Refines th sh who resumed q) (branches : th.Branches)
    (pc : th.pc = .dispatch (some ft)) (fiber : ft.fiber = some f) (live : (sh.fibers f).state.ended = false) :
    Refines { th with pc := .enter .fiber f } sh who resumed q where
  queue := by rw [refines.queue]; simp [Thread.taken, pc, Task.work, fiber]
  resumed := refines.resumed
  running := by rw [refines.running]; simp [Thread.executed, pc]
  ended g free _ := by
    apply refines.ended g
    · simpa [Thread.Kept, pc, Pc.switch] using free
    · simp [pc, Pc.switch]
  live := by
    rintro _ _ ⟨⟩ member
    have free : ¬ th.Kept f := fun kept => (branches.taken ft pc).2 f fiber kept.1
    have ended := (refines.ended f free (by simp [pc, Pc.switch])).mpr member
    simp [live] at ended
  entering b g pc := by
    rcases pc with pc | pc <;> cases pc
    exact live

/-- A callback is put on fiber `c`, which no entry names. -/
theorem Refines.prepare {ft : Task} (refines : Refines th sh who resumed q) (pc : th.pc = .dispatch (some ft))
    (proper : ft.Proper) (cb : ft.cb = some k) (unnamed : ∀ task ∈ sh.queue, task.fiber ≠ some c)
    (fresh : .callback k ∉ q.ended) (free : ∀ f, th.Kept f → f = c) (cbFiber : th'.pc = .enter .cb c)
    (fibers : sh'.fibers = Function.update sh.fibers c (.new (.callback k))) (queue : sh'.queue = sh.queue) :
    Refines th' sh' (Function.update who c (.callback k)) resumed q where
  queue := by
    have noFiber : ft.fiber = none := by simpa [Task.Proper, cb] using proper
    have same : sh.queue.map (Task.work (Function.update who c (.callback k))) = sh.queue.map (Task.work who) := by
      apply List.map_congr_left
      intro task member
      unfold Task.work
      split
      · rename_i f named
        have apart : f ≠ c := by
          rintro rfl
          exact unnamed task member named
        exact Function.update_of_ne apart ..
      · rfl
      · rfl
    rw [refines.queue, queue, same]
    simp [Thread.taken, pc, cbFiber, Task.work, noFiber, cb]
  resumed := refines.resumed
  running := by rw [refines.running]; simp [Thread.executed, pc, cbFiber]
  ended f _ out := by
    have apart : f ≠ c := by
      rintro rfl
      exact out .cb (by simp [cbFiber, Pc.switch])
    rw [fibers, Function.update_of_ne apart, Function.update_of_ne apart]
    exact refines.ended f (fun kept => apart (free f kept)) (by simp [pc, Pc.switch])
  live := by
    rw [cbFiber]
    rintro _ _ ⟨⟩
    rwa [Function.update_self]
  entering b f entered := by
    rw [cbFiber] at entered
    rcases entered with same | same <;> cases same
    rw [fibers, Function.update_self]
    rfl

/-- The fiber of the entry is finished. -/
theorem Refines.skip {ft : Task} (refines : Refines th sh who resumed q) (branches : th.Branches)
    (pc : th.pc = .dispatch (some ft)) (fiber : ft.fiber = some f) (spent : (sh.fibers f).state.ended = true) :
    ∃ q', Fifo.step q .take = some q' ∧ Refines { th with pc := .skip } sh who resumed q' := by
  have free : ¬ th.Kept f := fun kept => (branches.taken ft pc).2 f fiber kept.1
  have idle : q.running = none := by rw [refines.running]; simp [Thread.executed, pc]
  have queue : q.queue = who f :: sh.queue.map (Task.work who) := by
    rw [refines.queue]
    simp [Thread.taken, pc, Task.work, fiber]
  have ended : who f ∈ q.ended := (refines.ended f free (by simp [pc, Pc.switch])).mp spent
  refine ⟨_, Fifo.step_drop idle queue ended, ?_⟩
  constructor
  case queue => rfl
  case resumed => exact refines.resumed
  case running => exact idle
  case ended =>
    intro g free _
    apply refines.ended g
    · simpa [Thread.Kept, pc, Pc.switch] using free
    · simp [pc, Pc.switch]
  case live =>
    intro b g switch
    simp [Pc.switch] at switch
  case entering =>
    intro b g pc
    rcases pc with pc | pc <;> cases pc

/-- The switch into the fiber that was taken. -/
theorem Refines.enter {b : Branch} {started : List Ticket} (refines : Refines th sh who resumed q)
    (pc : th.pc = .enter b f) :
    ∃ q', Fifo.step q .take = some q' ∧ Refines { th with pc := .running b f }
      { sh.setFiber f { sh.fibers f with state := .exec } with started } who (resumed ++ [who f]) q' := by
  have idle : q.running = none := by rw [refines.running]; simp [Thread.executed, pc]
  have queue : q.queue = who f :: sh.queue.map (Task.work who) := by
    rw [refines.queue]
    simp [Thread.taken, pc]
  have live := refines.live b f (by simp [pc, Pc.switch])
  refine ⟨_, Fifo.step_resume idle queue live, ?_⟩
  constructor
  case queue => rfl
  case resumed => rw [refines.resumed]
  case running => rfl
  case ended =>
    intro g free out
    have apart : g ≠ f := by
      rintro rfl
      exact out b rfl
    rw [Shared.setFiber_fibers, Function.update_of_ne apart]
    apply refines.ended g
    · simpa [Thread.Kept, pc, Pc.switch] using free
    · simpa [pc, Pc.switch] using out
  case live =>
    rintro _ _ ⟨⟩
    exact live
  case entering =>
    intro b g pc
    rcases pc with pc | pc <;> cases pc

/-! ## Stopping, and the end of the branch -/

/-- The code of a fiber announces how it stops. -/
theorem Refines.stops {b : Branch} (refines : Refines th sh who resumed q) (pc : th.pc = .running b f)
    (last : Bool) (x : Fiber) :
    ∃ q', Fifo.step q (.yield x.state.outcome) = some q' ∧
      Refines { th with pc := .leaving b f last } (sh.setFiber f x) who resumed q' := by
  have running : q.running = some (who f, none) := by rw [refines.running]; simp [Thread.executed, pc]
  refine ⟨_, Fifo.step_yield running, ?_⟩
  constructor
  case queue => rw [refines.queue]; simp [Thread.taken, pc]
  case resumed => exact refines.resumed
  case running => simp [Thread.executed]
  case ended =>
    intro g free out
    have apart : g ≠ f := by
      rintro rfl
      exact out b rfl
    rw [Shared.setFiber_fibers, Function.update_of_ne apart]
    apply refines.ended g
    · simpa [Thread.Kept, pc, Pc.switch] using free
    · simpa [pc, Pc.switch] using out
  case live =>
    rintro _ _ ⟨⟩
    exact refines.live b f (by simp [pc, Pc.switch])
  case entering =>
    intro b g pc
    rcases pc with pc | pc <;> cases pc

/-- The end of a branch of `run()`: the thread is back at the top of the loop,
the fiber is queued again or not, and its state agrees with how it stopped. -/
theorem Refines.back {b : Branch} (refines : Refines th sh who resumed q) (th' : Thread) (sh' : Shared)
    (o : Fifo.Outcome) (injective : Function.Injective who) (switch : th.pc.switch = some (b, f))
    (taken : th.taken who = [])
    (running : th.executed who sh.fibers = some (who f, some o)) (loop : th'.pc = .loop)
    (queue : sh'.queue.map (Task.work who) =
      if o = .ready then sh.queue.map (Task.work who) ++ [who f] else sh.queue.map (Task.work who))
    (others : ∀ g, g ≠ f → (sh'.fibers g).state = (sh.fibers g).state)
    (own : ¬ th'.Kept f → ((sh'.fibers f).state.ended = true ↔ o = .ended))
    (kept : ∀ g, g ≠ f → th.Kept g → th'.Kept g) :
    ∃ q', Fifo.step q .back = some q' ∧ Refines th' sh' who resumed q' := by
  refine ⟨_, Fifo.step_back (refines.running.trans running), ?_⟩
  have live := refines.live b f switch
  constructor
  case queue =>
    have empty : th'.taken who = [] := by simp [Thread.taken, loop]
    rw [queue, refines.queue, taken, empty]
    split <;> rfl
  case resumed => exact refines.resumed
  case running => simp [Thread.executed, loop]
  case ended =>
    intro g free _
    by_cases same : g = f
    · subst same
      rw [own free]
      by_cases ended : o = .ended
      · simp [ended]
      · simpa [ended] using live
    · have apart : who g ≠ who f := fun names => same (injective names)
      have before := refines.ended g (fun was => free (kept g same was)) (by simpa [switch] using Ne.symm same)
      rw [others g same, before]
      by_cases ended : o = .ended
      · simp [ended, apart]
      · simp [ended]
  case live =>
    rw [loop]
    exact nofun
  case entering =>
    rw [loop]
    intro b g pc
    rcases pc with pc | pc <;> cases pc

/-- A branch that gives its fiber away keeps what it kept. -/
theorem Thread.Branches.release {b : Branch} (branches : th.Branches) (switch : th.pc.switch = some (b, f))
    (g : FiberId) (apart : g ≠ f) (was : th.Kept g) : (th.release b).Kept g := by
  cases b with
  | fiber => exact ⟨was.1, by simp [Thread.release, Pc.switch]⟩
  | cb => exact (apart (Option.some.inj (was.1.symm.trans (branches.cb f switch)))).elim

/-- The tasks a call of `schedule()` appends. -/
theorem schedule_work (owed : Bool) (sh : Shared) (r : Request) (who : FiberId → Work) :
    (schedule owed sh r).queue.map (Task.work who) =
      sh.queue.map (Task.work who) ++ pushed who sh.nextTicket r.items := by
  unfold schedule
  generalize r.items = items
  induction items generalizing sh with
  | nil => simp [pushed]
  | cons i items ih =>
    obtain ⟨fc, thread⟩ := i
    rw [List.foldl_cons, ih]
    cases fc <;> simp [scheduleNoLock, pushed, Task.work]

theorem Refines.schedule (refines : Refines th sh who resumed q) (owed : Bool) (r : Request) :
    ∃ q', exec Fifo.step q ((pushed who sh.nextTicket r.items).map .push) = some q' ∧
      Refines th (Sched.schedule owed sh r) who resumed q' := by
  refine ⟨_, Fifo.exec_push _, ?_⟩
  constructor
  case queue => rw [schedule_work, refines.queue, List.append_assoc]
  case resumed => exact refines.resumed
  case running => simpa using refines.running
  case ended => simpa using refines.ended
  case live => exact refines.live
  case entering => simpa using refines.entering

/-! ## The step -/

/-- The callback the thread has in hand has not been resumed. -/
theorem Single.fresh {ft : Task} (single : Single th sh who resumed) (pc : th.pc = .dispatch (some ft))
    (cb : ft.cb = some k) : .callback k ∉ resumed :=
  (single.named.unused k (by simp [Thread.tickets, pc, cb])).2.2

/-- One step of `run()` or of a task is one of the abstract queue, or none. -/
theorem Moves.refined (moves : Moves cfg t th sh m th' sh') (single : Single th sh who resumed)
    (acc : th.Accurate sh) (known : sh.Known)
    (scan : th.pc = .loop → ∀ task ∈ sh.queue, skips t sh.fibers task = false)
    (spent : ∀ ft, th.pc = .dispatch (some ft) → th'.pc = .skip → ∀ f ∈ ft.fiber, (sh.fibers f).state.ended = true)
    (past : ∀ a ∈ q.ended, a ∈ resumed) (refines : Refines th sh who resumed q) :
    ∃ q', Run.exec Fifo.step q (said who sh.nextTicket th.pc th'.pc m) = some q' ∧
      Refines th' sh' (renamed who th.pc th'.pc) (resumed ++ resumes who th.pc th'.pc) q' := by
  have branches := single.branches
  have injective := single.named.injective
  cases moves with
  | take pc found =>
    exact still (by rw [pc]; rfl) (by rw [pc]; rfl) (by rw [pc]; rfl) (refines.take pc (dequeue_head (scan pc) found))
  | enterFiber pc fiber live =>
    exact still (by rw [pc]; rfl) (by rw [pc]; rfl) (by rw [pc]; rfl) (refines.enterFiber branches pc fiber live)
  | @reuse ft k c pc cb kept =>
    have isKept : th.Kept c := ⟨kept, by simp [pc, Pc.switch]⟩
    have names : renamed who th.pc (.enter .cb c) = Function.update who c (.callback k) := by
      simp [pc, renamed, cb]
    refine still (by rw [pc]; rfl) names (by rw [pc]; rfl)
      (refines.prepare pc (branches.taken ft pc).1 cb ?_ ?_ ?_ rfl rfl rfl)
    · exact fun task member named => (single.queued task member).2.2 c named isKept
    · exact fun member => single.fresh pc cb (past _ member)
    · exact fun f was => Option.some.inj (was.1.symm.trans kept)
  | @make ft k pc cb none =>
    have names : renamed who th.pc (.enter .cb sh.nextFiber) = Function.update who sh.nextFiber (.callback k) := by
      simp [pc, renamed, cb]
    refine still (by rw [pc]; rfl) names (by rw [pc]; rfl)
      (refines.prepare pc (branches.taken ft pc).1 cb ?_ ?_ ?_ rfl rfl rfl)
    · exact fun task member named => Nat.lt_irrefl _ (known task member _ named)
    · exact fun member => single.fresh pc cb (past _ member)
    · exact fun f was => (Thread.not_kept_of_none none was).elim
  | @finished ft pc cb =>
    have proper := (branches.taken ft pc).1
    obtain ⟨f, fiber⟩ : ∃ f, ft.fiber = some f := Option.isSome_iff_exists.mp (by simpa [Task.Proper, cb] using proper)
    exact spoken (by rw [pc]; rfl) (by rw [pc]; rfl) (by rw [pc]; rfl)
      (refines.skip branches pc fiber (spent ft pc rfl f fiber))
  | begin pc | resume pc =>
    obtain ⟨q', step, refines⟩ := refines.enter pc
    refine ⟨q', ?_, ?_⟩
    · rw [pc]
      exact Fifo.exec_single.trans step
    · rw [pc]
      exact refines
  | @yield b f st u pc state cb kind =>
    refine spoken ?_ (by rw [pc]; rfl) (by rw [pc]; rfl) (refines.stops pc false { sh.fibers f with state := st })
    rcases kind with ⟨rfl, rfl⟩ | ⟨rfl, rfl⟩ <;> rfl
  | @ret b f pc =>
    exact spoken rfl (by rw [pc]; rfl) (by rw [pc]; rfl)
      (refines.stops pc true { sh.fibers f with state := .term, cb := .null })
  | @throw b f pc =>
    exact spoken rfl (by rw [pc]; rfl) (by rw [pc]; rfl)
      (refines.stops pc true { sh.fibers f with state := .except })
  | schedule pc =>
    obtain ⟨q', run, refines⟩ := refines.schedule true _
    refine ⟨q', run, ?_⟩
    rw [pc]
    simpa [renamed, resumes] using refines
  | @settleFiber f pc ended =>
    exact spoken (by rw [pc]; rfl) (by rw [pc]; rfl) (by rw [pc]; rfl)
      (refines.back { th with pc := .loop } sh .ended injective (by rw [pc]; rfl) (by simp [Thread.taken, pc])
        (by simp [Thread.executed, pc, FiberState.outcome_ended ended]) rfl (by simp)
        (fun _ _ => rfl) (fun _ => by simp [ended]) (fun g _ was => ⟨was.1, by simp [Pc.switch]⟩))
  | @requeue b f pc =>
    have live := refines.entering b f (.inr pc)
    exact spoken (by rw [pc, Thread.release_refs]; rfl) (by rw [pc]; rfl) (by rw [pc]; rfl)
      (refines.back (th.release b) { sh with queue := sh.queue ++ [⟨some f, none, none⟩] } .ready injective
        (by rw [pc]; rfl) (by simp [Thread.taken, pc]) (by simp [Thread.executed, pc]) (by simp) (by simp [Task.work])
        (fun _ _ => rfl) (fun _ => by simp [live]) (branches.release (by rw [pc]; rfl)))
  | @setHold b f pc =>
    exact spoken (by rw [pc, Thread.release_refs]; rfl) (by rw [pc]; rfl) (by rw [pc]; rfl)
      (refines.back (th.release b) (sh.setFiber f { sh.fibers f with state := .hold }) .hold injective
        (by rw [pc]; rfl) (by simp [Thread.taken, pc]) (by simp [Thread.executed, pc]) (by simp) (by simp)
        (fun g apart => by simp [apart]) (fun _ => by simp [FiberState.ended]) (branches.release (by rw [pc]; rfl)))
  | @resetCb c pc =>
    have own : th.cbFiber = some c := branches.cb c (by rw [pc]; rfl)
    exact spoken (by rw [pc]; rfl) (by rw [pc]; rfl) (by rw [pc]; rfl)
      (refines.back { th with pc := .loop } (sh.setFiber c (.new .null)) .ended injective
        (by rw [pc]; rfl) (by simp [Thread.taken, pc]) (by simp [Thread.executed, pc]) rfl (by simp)
        (fun g apart => by simp [apart]) (fun free => (free ⟨own, by simp [Pc.switch]⟩).elim)
        (fun g _ was => ⟨was.1, by simp [Pc.switch]⟩))
  | failYield pc state => exact (state (acc.running _ _ pc)).elim
  | @switchOut b f last pc =>
    refine still (by rw [pc]; rfl) (by rw [pc]; rfl) (by rw [pc]; rfl) (refines.quiet ?_ ?_ rfl ?_ rfl ?_ (by simp))
    · simp [Thread.taken, pc]
    · simp [Thread.executed, pc]
    · intro g
      by_cases same : g = f <;> simp [same]
    · simp [pc, Pc.switch]
  | settleReady pc state =>
    refine still (by rw [pc]; rfl) (by rw [pc]; rfl) (by rw [pc]; rfl) (refines.quiet ?_ ?_ rfl (fun _ => rfl) rfl ?_ ?_)
    · simp [Thread.taken, pc]
    · simp [Thread.executed, pc, state, FiberState.outcome]
    · simp [pc, Pc.switch]
    · intro b g entered
      rcases entered with same | same <;> cases same
      rw [state]
      rfl
  | settleCb pc ended =>
    refine still (by rw [pc]; rfl) (by rw [pc]; rfl) (by rw [pc]; rfl) (refines.quiet ?_ ?_ rfl (fun _ => rfl) rfl ?_ (by simp))
    · simp [Thread.taken, pc]
    · simp [Thread.executed, pc, FiberState.outcome_ended ended]
    · simp [pc, Pc.switch]
  | settleHold pc notReady live =>
    refine still (by rw [pc]; rfl) (by rw [pc]; rfl) (by rw [pc]; rfl) (refines.quiet ?_ ?_ rfl (fun _ => rfl) rfl ?_ (by simp))
    · simp [Thread.taken, pc]
    · simp [Thread.executed, pc, notReady, live, FiberState.outcome]
    · simp [pc, Pc.switch]
  | failReset kept =>
    refine still ?_ ?_ ?_ (refines.quiet rfl rfl rfl (fun _ => rfl) rfl rfl fun b g => refines.entering b g)
    all_goals rcases kept with pc | ⟨⟨ft, pc, _⟩, _⟩ <;> simp [pc, said, saidNext, renamed, resumes]
  | failSwapIn pc | failIdle pc | failIdleYield pc | failNeverReach pc =>
    exact still (by rw [pc]; rfl) (by rw [pc]; rfl) (by rw [pc]; rfl)
      (refines.quiet rfl rfl rfl (fun _ => rfl) rfl rfl fun b g => refines.entering b g)
  | start pc | miss pc | leave pc | goIdle pc | dec pc | skip pc | idleEnter pc | idleSwap pc | idleTerm pc
  | idleYield pc | idleLeave pc | idleDec pc | idleSettle pc =>
    refine still (by rw [pc]; rfl) (by rw [pc]; rfl) (by rw [pc]; rfl)
      (refines.quiet ?_ ?_ rfl (fun _ => rfl) rfl ?_ (by simp))
    · simp [Thread.taken, pc]
    · simp [Thread.executed, pc]
    · simp [pc, Pc.switch]

/-! ## Runs -/

/-- `run()` drops an entry only when its fiber has ended. -/
theorem skipped_ended {ft : Task} (step : nextStep cfg t th sh = some (th', sh')) (pc : th.pc = .dispatch (some ft))
    (skip : th'.pc = .skip) (named : ft.fiber = some f) : (sh.fibers f).state.ended = true := by
  by_contra live
  have live : (sh.fibers f).state.ended = false := Bool.eq_false_iff.mpr live
  simp only [nextStep, pc, named, Option.filter_some, live, Bool.not_false, ↓reduceIte] at step
  cases step
  cases skip

/-- What holds along a run. -/
structure Simulated (t : Tid) (w : Watched) : Prop where
  single : Single (w.s.thr t) w.s.sh w.who w.resumed
  refines : ∃ q, exec Fifo.step {} w.script = some q ∧ Refines (w.s.thr t) w.s.sh w.who w.resumed q
  /-- a thread about to leave `run()` has found the queue empty -/
  left : (w.s.thr t).idle = .term → (w.s.thr t).pc = .dispatch none ∨ (w.s.thr t).pc = .exited → w.s.sh.queue = []

theorem Plain.step {ok : Watched → Act → Prop} (run : Guarded (watch cfg) ok {} as w) :
    Guarded (Sched.step cfg) (fun _ _ => True) {} as w.s := by
  refine run.map Watched.s fun w a w' _ moved => ⟨trivial, ?_⟩
  obtain ⟨s', step, rfl⟩ := Option.map_eq_some_iff.mp moved
  cases a <;> exact step

/-- With one executing thread no dequeue takes a fiber from another one. -/
theorem free_of_alone (alone : cfg.threads = {t}) {ok : State → Act → Prop}
    (run : Guarded (Sched.step cfg) ok {} as s) : Guarded (Sched.step cfg) (FreeDequeue cfg) {} as s := by
  refine run.imp fun as s a s' before _ _ => ?_
  cases a with
  | external | create | stop => trivial
  | thread u m =>
    intro loop found taken f named v among apart
    have mover : u ∈ cfg.threads := by
      by_contra outside
      simp [(Placed.run before).outside u outside] at loop
    rw [alone, Finset.mem_singleton] at among mover
    exact (apart (among.trans mover.symm)).elim

/-- At the top of the loop the only thread walks past nothing. -/
theorem Simulated.scan (simulated : Simulated t w) (owned : Owned cfg w.s) (alone : cfg.threads = {t})
    (loop : (w.s.thr t).pc = .loop) : ∀ task ∈ w.s.sh.queue, skips t w.s.sh.fibers task = false := by
  intro task member
  have unpinned := (simulated.single.queued task member).1
  simp only [skips, unpinned, Option.any_none, Bool.false_or, Option.any_eq_false, beq_eq_false_iff_ne, ne_eq]
  intro f _ exec
  obtain ⟨u, b, pc⟩ := owned.running f exec
  have among := owned.member (t := u) (by simp [pc])
  rw [alone, Finset.mem_singleton] at among
  rw [among, loop] at pc
  cases pc

theorem Simulated.start : Simulated t {} where
  single := .start
  refines := ⟨{}, rfl, .start⟩
  left _ _ := rfl

/-- The labels of a step are played after those of the run. -/
theorem played {q' : Fifo.State Work} {ls : List (Fifo.Label Work)} (before : exec Fifo.step {} w.script = some q)
    (after : exec Fifo.step q ls = some q') : exec Fifo.step {} (w.script ++ ls) = some q' := by
  rw [exec_append, before]
  exact after

theorem Simulated.thread (simulated : Simulated t w) (owned : Owned cfg w.s) (acc : (w.s.thr t).Accurate w.s.sh)
    (alone : cfg.threads = {t}) (plain : Plain t w (.thread t m))
    (moved : threadStep cfg t (w.s.thr t) w.s.sh m = some (th, sh)) :
    Single th sh (renamed w.who (w.s.thr t).pc th.pc) (w.resumed ++ resumes w.who (w.s.thr t).pc th.pc) ∧
      (∃ q, exec Fifo.step {} (w.script ++ said w.who w.s.sh.nextTicket (w.s.thr t).pc th.pc m) = some q ∧
        Refines th sh (renamed w.who (w.s.thr t).pc th.pc) (w.resumed ++ resumes w.who (w.s.thr t).pc th.pc) q) ∧
      (th.idle = .term → th.pc = .dispatch none ∨ th.pc = .exited → sh.queue = []) := by
  have moves := threadStep_cases moved
  have scan := simulated.scan owned alone
  obtain ⟨q, script, refines⟩ := simulated.refines
  refine ⟨simulated.single.thread acc moves plain, ?_, fun idle pc => ?_⟩
  · have spent : ∀ ft, (w.s.thr t).pc = .dispatch (some ft) → th.pc = .skip → ∀ f ∈ ft.fiber,
        (w.s.sh.fibers f).state.ended = true := by
      intro ft pc skip f named
      cases m with
      | next => exact skipped_ended moved pc skip named
      | user u => simp [threadStep, userStep, pc] at moved
    have past : ∀ a ∈ q.ended, a ∈ w.resumed := by
      rw [← refines.resumed]
      exact Fifo.ended_resumed script
    obtain ⟨q', labels, refines⟩ := moves.refined simulated.single acc owned.queued scan spent past refines
    exact ⟨q', played script labels, refines⟩
  · rcases moves.done pc with ⟨rfl, loop, found⟩ | before
    · -- the scan has found nothing, and it walks past nothing
      have empty : w.s.sh.queue = [] := by
        rw [List.eq_nil_iff_forall_not_mem]
        intro task member
        have walked := dequeue_none.mp found task member
        rw [scan loop task member] at walked
        cases walked
      cases moves with
      | miss => exact empty
      | take _ taken => simp [found] at taken
      | failReset kept => simp [loop] at kept
      | _ => simp_all
    · have empty := fun idle => simulated.left idle (.inl before)
      cases moves with
      | leave _ idle => exact empty idle
      | failReset kept => simp [before] at kept
      | _ => simp_all

/-- The queue and the fibers stay, and the only thread stays where it is. -/
theorem Simulated.share (simulated : Simulated t w) {s' : State} (queue : s'.sh.queue = w.s.sh.queue)
    (fibers : s'.sh.fibers = w.s.sh.fibers) (next : s'.sh.nextTicket = w.s.sh.nextTicket)
    (thr : s'.thr t = w.s.thr t) : Simulated t { w with s := s' } := by
  obtain ⟨⟨branches, queued, named, spent⟩, ⟨q, script, refines⟩, left⟩ := simulated
  constructor
  case single =>
    refine ⟨thr ▸ branches, by simpa only [queue, thr] using queued, ?_, by simpa only [fibers] using spent⟩
    simpa only [Shared.queued, queue, next, thr] using named
  case refines =>
    refine ⟨q, script, ?_⟩
    rw [thr]
    exact refines.quiet rfl (by rw [fibers]) queue (fun f => by rw [fibers]) rfl rfl refines.entering
  case left => simpa only [queue, thr] using left

/-- The root thread enters `run()`. -/
theorem Simulated.callRoot {s' : State} (simulated : Simulated t w) (waiting : w.s.thr t = {})
    (sh : s'.sh = w.s.sh) (thr : s'.thr t = { pc := .loop }) : Simulated t { w with s := s' } := by
  obtain ⟨⟨branches, queued, named, spent⟩, ⟨q, script, refines⟩, left⟩ := simulated
  rw [waiting] at branches queued named refines
  constructor
  case single =>
    rw [thr, sh]
    exact ⟨⟨nofun, nofun, nofun⟩, fun task member => (queued task member).mono fun f _ kept => by simp [Thread.Kept] at kept,
      named, spent⟩
  case refines =>
    refine ⟨q, script, ?_⟩
    rw [thr, sh]
    exact refines.quiet rfl rfl rfl (fun _ => rfl) rfl rfl (by simp)
  case left => simp [thr]

theorem Simulated.step (simulated : Simulated t w) (run : Guarded (Sched.step cfg) (FreeDequeue cfg) {} as w.s)
    (alone : cfg.threads = {t}) (plain : Plain t w a) (moved : watch cfg w a = some w') : Simulated t w' := by
  obtain ⟨s', step, rfl⟩ := Option.map_eq_some_iff.mp moved
  have owned := Owned.run run
  have placed := Placed.run run
  cases a with
  | thread u m =>
    simp only [Sched.step] at step
    split at step
    · cases step
    · obtain ⟨⟨th, sh⟩, thread, rfl⟩ := Option.map_eq_some_iff.mp step
      have same : u = t := by
        have among := placed.mover (threadStep_cases thread)
        rwa [alone, Finset.mem_singleton] at among
      subst same
      obtain ⟨single, refines, left⟩ := simulated.thread owned (accurate_run run u) alone plain thread
      constructor
      case single => simpa only [Function.update_self] using single
      case refines => simpa only [Function.update_self] using refines
      case left => simpa only [Function.update_self] using left
  | external r =>
    obtain ⟨_, moves⟩ := step_cases step
    cases moves with
    | external =>
      obtain ⟨q, script, refines⟩ := simulated.refines
      obtain ⟨q', labels, refines⟩ := refines.schedule (w.s.stop == .notCalled) r
      obtain ⟨n, queued, next⟩ := schedule_tickets (w.s.stop == .notCalled) w.s.sh r
      refine ⟨⟨simulated.single.branches, schedule_plain plain.1.1 plain.2 simulated.single.queued, ?_,
        by simpa using simulated.single.spent⟩, ⟨q', played script labels, refines⟩, fun idle _ => ?_⟩
      · rw [queued, next, ← List.append_assoc]
        exact simulated.single.named.fresh
      · exact (placed.called (placed.ended t idle) plain.1.2).elim
  | create =>
    obtain ⟨_, moves⟩ := step_cases step
    cases moves with
    | create => exact simulated.share rfl rfl rfl rfl
  | stop =>
    obtain ⟨_, moves⟩ := step_cases step
    cases moves with
    | stop moves =>
      cases moves with
      | @callRoot r pc root =>
        have same : r = t := by
          have among := Setup.root_mem root
          rwa [alone, Finset.mem_singleton] at among
        subst same
        have waiting := placed.waiting (by rw [pc]; rfl) r root
        exact simulated.callRoot waiting rfl (by simp [waiting])
      | _ => exact simulated.share rfl rfl rfl rfl

theorem Simulated.run (alone : cfg.threads = {t}) (run : Guarded (watch cfg) (Plain t) {} as w) : Simulated t w :=
  run.invariant .start fun _ _ _ _ before simulated plain moved =>
    simulated.step (free_of_alone alone (Plain.step before)) alone plain moved

/-- No assertion fails. -/
theorem Simulated.alive (simulated : Simulated t w) (run : Guarded (Sched.step cfg) (FreeDequeue cfg) {} as w.s)
    (alone : cfg.threads = {t}) {a : Act} (step : Sched.step cfg w.s a = some s') : s'.sh.failed = none := by
  obtain ⟨alive, moves⟩ := step_cases step
  have owned := Owned.run run
  rw [Option.eq_none_iff_forall_ne_some]
  intro e
  apply moves.failed alive
  intro u m th sh moves failed
  have among : u = t := by
    have among := owned.mover moves
    rwa [alone, Finset.mem_singleton] at among
  subst among
  cases e with
  | swapIn => exact owned.noSwapIn alive moves failed
  | yield => exact moves.noAssertion (accurate_run run u) (owned.idle u) alive (.inl rfl) failed
  | reset => exact moves.noAssertion (accurate_run run u) (owned.idle u) alive (.inr rfl) failed
  | neverReach =>
    obtain ⟨q, _, refines⟩ := simulated.refines
    cases moves with
    | @failNeverReach b f pc ctx =>
      have ended := simulated.single.spent f ctx
      rw [refines.entering b f (.inl pc)] at ended
      cases ended
    | _ => simp [alive] at failed

/-- **First in, first out.** With one executing thread, unpinned tasks that come
before `stop()` or from tasks, and callback fibers that are not reset while an
entry with them is queued, nor scheduled afterwards: the resumptions `run()`
performs are those of the abstract queue played with what was pushed and how
the tasks have stopped; no assertion fails; and `run()` is left only after
`stop()` was called, with the abstract queue empty and nothing running. -/
theorem fifo (alone : cfg.threads = {t}) (run : Guarded (watch cfg) (Plain t) {} as w) :
    ∃ q, exec Fifo.step {} w.script = some q ∧ q.resumed = w.resumed ∧ w.s.sh.failed = none ∧
      ((w.s.thr t).pc = .exited → w.s.stop ≠ .notCalled ∧ q.queue = [] ∧ q.running = none) := by
  have simulated := Simulated.run alone run
  obtain ⟨q, script, refines⟩ := simulated.refines
  refine ⟨q, script, refines.resumed, ?_, fun left => ?_⟩
  · cases run with
    | refl => rfl
    | snoc before _ moved =>
      obtain ⟨s', step, rfl⟩ := Option.map_eq_some_iff.mp moved
      have alive := (Simulated.run alone before).alive (free_of_alone alone (Plain.step before)) alone step
      cases ‹Act› <;> exact alive
  · have placed := Placed.run (Plain.step run)
    have ended := placed.exited t left
    refine ⟨placed.called (placed.ended t ended), ?_, ?_⟩
    · rw [refines.queue, simulated.left ended (.inr left)]
      simp [Thread.taken, left]
    · rw [refines.running]
      simp [Thread.executed, left]

/-- One worker, the thread 1. -/
def oneWorker : Setup where
  workers := {1}
  rootThread := none
  apart := by simp

/-- Fiber 0 and a callback; the fiber schedules itself, yields `READY`, so that
it has two entries, yields `HOLD` and ends. -/
def queuedTwice : List Act :=
  [.create, .external (.one (.fiber 0) none), .external (.one .cb none)] ++ go 1 4 ++
    [.thread 1 (.user (.schedule (.one (.fiber 0) none))), .thread 1 (.user .yieldReady)] ++ go 1 4 ++
    go 1 3 ++ [.thread 1 (.user .throw)] ++ go 1 4 ++
    go 1 3 ++ [.thread 1 (.user .yieldHold)] ++ go 1 4 ++
    go 1 3 ++ [.thread 1 (.user .ret)] ++ go 1 3 ++ List.replicate 4 .stop ++ go 1 10

theorem fifo_queuedTwice :
    oneWorker.threads = {1} ∧ ∃ w, Guarded (watch oneWorker) (Plain 1) {} queuedTwice w ∧ (w.s.thr 1).pc = .exited ∧
      w.resumed = [.fiber 0, .callback 0, .fiber 0, .fiber 0] ∧
      ∃ q, exec Fifo.step {} w.script = some q ∧ q.resumed = w.resumed ∧ q.queue = [] := by
  obtain ⟨w, run, test⟩ := Guarded.of_any
    (show (execIf (watch oneWorker) (Plain 1) {} queuedTwice).any (fun w => (w.s.thr 1).pc = .exited ∧
      w.resumed = [.fiber 0, .callback 0, .fiber 0, .fiber 0]) from by decide +kernel)
  obtain ⟨left, resumed⟩ := of_decide_eq_true test
  have alone : oneWorker.threads = {1} := rfl
  obtain ⟨q, script, same, _, empty⟩ := fifo alone run
  exact ⟨alone, w, run, left, resumed, q, script, same, (empty left).2.1⟩

/-- A callback schedules its own fiber and returns. -/
def resumedAgain : List Act :=
  [.external (.one .cb none)] ++ go 1 4 ++ [.thread 1 (.user (.schedule (.one (.fiber 0) none))),
    .thread 1 (.user .ret)] ++ go 1 7

/-- `run()` resumes the fiber of the finished callback, the abstract queue drops it. -/
theorem not_fifo :
    ∃ w, Guarded (watch oneWorker) (fun w a => InScope w.s a) {} resumedAgain w ∧
      w.resumed = [.callback 0, .callback 0] ∧
      (exec Fifo.step {} w.script).any (fun q => q.resumed = [.callback 0]) = true := by
  obtain ⟨w, run, test⟩ := Guarded.of_any
    (show (execIf (watch oneWorker) (fun w a => InScope w.s a) {} resumedAgain).any (fun w =>
      w.resumed = [.callback 0, .callback 0] ∧
        (exec Fifo.step {} w.script).any (fun q => q.resumed = [.callback 0]) = true) from by decide +kernel)
  exact ⟨w, run, of_decide_eq_true test⟩

end Atpdxy.Sched
