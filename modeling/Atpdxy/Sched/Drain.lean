import Atpdxy.Sched.Counts
import Atpdxy.Sched.Tickets

/-!
# What is left when `stop()` returns

A thread is `Over` once its idle fiber has ended: `stopping()` has been true on
it and it never calls it again. From then on it still takes tasks, and leaves
`run()` at the first scan that takes none (`Done`). When all threads are over,
a new entry is executed only if some thread that may take it is not done. The
last thread to be over has seen an empty queue, so the entries in question are
those pushed afterwards: by a fiber that was between `--m_activeThreadCount` and
its re-queue when `stopping()` looked, or from outside.

`Drains` is the condition on a step, `drain` the result, `lost` a run in which
a callback pinned to a thread that has left is never started.
-/

namespace Atpdxy.Sched

open Run

variable {cfg : Setup} {t u : Tid} {m : Move} {th th' : Thread} {sh sh' : Shared} {s s' : State} {a : Act} {f : FiberId}
  {as : List Act} {k : Ticket}

/-- `stop()` is past `m_rootFiber->call()`. -/
def StopPc.closed : StopPc → Bool
  | .join | .returned => true
  | _ => false

/-- `stop()` has left the root thread out of `run()`. -/
def Skipped (cfg : Setup) (s : State) (t : Tid) : Prop :=
  t ∉ cfg.workers ∧ (s.thr t).pc = .entry ∧ s.stop.closed = true

/-- The thread makes no further test of `stopping()`. -/
def Over (cfg : Setup) (s : State) (t : Tid) : Prop := (s.thr t).idle = .term ∨ Skipped cfg s t

/-- The thread makes no further scan of the queue. -/
def Done (cfg : Setup) (s : State) (t : Tid) : Prop :=
  ((s.thr t).idle = .term ∧ ((s.thr t).pc = .dispatch none ∨ (s.thr t).pc = .exited)) ∨ Skipped cfg s t

instance : Decidable (Skipped cfg s t) := inferInstanceAs (Decidable (_ ∧ _))
instance : Decidable (Over cfg s t) := inferInstanceAs (Decidable (_ ∨ _))
instance : Decidable (Done cfg s t) := inferInstanceAs (Decidable (_ ∨ _))

/-- An entry with this target has a thread that may still take it. -/
def Served (cfg : Setup) (s : State) (target : Option Tid) : Prop :=
  ∃ t ∈ cfg.threads, (∀ u ∈ target, u = t) ∧ ¬ Done cfg s t

instance {target : Option Tid} : Decidable (Served cfg s target) := inferInstanceAs (Decidable (∃ _, _ ∧ _))

/-- What the call pushes can still be taken. -/
def Request.Served (cfg : Setup) (s : State) (r : Request) : Prop :=
  ∀ i ∈ r.items, i.1 ≠ .null → Sched.Served cfg s i.2

instance {r : Request} : Decidable (r.Served cfg s) := inferInstanceAs (Decidable (∀ _ ∈ _, _))

/-- The condition on a step when all threads are over: a push goes to a thread
that still scans, and a scan that takes nothing leaves no entry pinned to its
thread (one whose fiber is in `EXEC`). -/
def NoneLeft (cfg : Setup) (s : State) : Act → Prop
  | .thread t .next =>
    (s.thr t).pc = .loop → dequeue t s.sh.fibers s.sh.queue = none → ∀ task ∈ s.sh.queue, task.thread ≠ some t
  | .thread _ (.user (.schedule r)) | .external r => r.Served cfg s
  | _ => True

instance : Decidable (NoneLeft cfg s a) :=
  match a with
  | .thread _ .next => inferInstanceAs (Decidable (_ → _))
  | .thread _ (.user (.schedule _)) | .external _ => inferInstanceAs (Decidable (Request.Served ..))
  | .thread _ (.user .yieldReady) | .thread _ (.user .yieldHold) | .thread _ (.user .ret)
  | .thread _ (.user .throw) | .create | .stop => isTrue trivial

def Drains (cfg : Setup) (s : State) (a : Act) : Prop :=
  FreeDequeue cfg s a ∧ ((∀ t ∈ cfg.threads, Over cfg s t) → NoneLeft cfg s a)

instance : Decidable (Drains cfg s a) := inferInstanceAs (Decidable (_ ∧ _))

/-! ## Leaving `run()` -/

/-- How far `stop()` and the threads that have left agree. -/
structure Closing (cfg : Setup) (s : State) : Prop where
  alone : s.stop = .firstStopping → cfg.workers = ∅
  joined : s.stop = .returned → ∀ t ∈ cfg.workers, (s.thr t).pc = .exited
  back : s.stop.closed = true → ∀ r ∈ cfg.rootThread, (s.thr r).pc = .exited ∨ (s.thr r).pc = .entry
  exited : ∀ t, (s.thr t).pc = .exited → (s.thr t).idle = .term

theorem Closing.start : Closing cfg {} where
  alone := nofun
  joined := nofun
  back := nofun
  exited := nofun

theorem Closing.stop (closing : Closing cfg s) (owned : Owned cfg s) (moves : StopMoves cfg s s') :
    Closing cfg s' := by
  have waiting : s.stop.beforeRoot = true → ∀ r ∈ cfg.rootThread, (s.thr r).pc = .entry :=
    fun before r root => by rw [owned.waiting before r root]
  cases moves with
  | early pc =>
    refine ⟨nofun, fun _ t worker => ?_, fun _ r root => .inr (waiting (by rw [pc]; rfl) r root), closing.exited⟩
    rw [closing.alone pc] at worker
    simp at worker
  | first _ _ none => exact ⟨fun _ => none, nofun, nofun, closing.exited⟩
  | noRoot _ root => exact ⟨nofun, nofun, fun _ r named => by simp [root] at named, closing.exited⟩
  | skipRoot pc => exact ⟨nofun, nofun, fun _ r root => .inr (waiting (by rw [pc]; rfl) r root), closing.exited⟩
  | backRoot _ left => exact ⟨nofun, nofun, fun _ r root => .inl (left r root), closing.exited⟩
  | join pc joined =>
    exact ⟨nofun, fun _ => joined, fun _ => closing.back (by rw [pc]; rfl), closing.exited⟩
  | @callRoot r =>
    refine ⟨nofun, nofun, nofun, fun u pc => ?_⟩
    by_cases same : u = r
    · subst same; simp at pc
    · simp only [Function.update_of_ne same] at pc ⊢
      exact closing.exited u pc
  | call | pass | setStopping => exact ⟨nofun, nofun, nofun, closing.exited⟩

theorem Closing.step (closing : Closing cfg s) (owned : Owned cfg s) (step : step cfg s a = some s') :
    Closing cfg s' := by
  obtain ⟨_, moves⟩ := step_cases step
  cases moves with
  | @thread t m th sh moves =>
    have stays : ∀ u, u ≠ t → Function.update s.thr t th u = s.thr u :=
      fun u apart => Function.update_of_ne apart _ _
    refine ⟨closing.alone, fun returned u worker => ?_, fun closed r root => ?_, fun u pc => ?_⟩
    · have left := closing.joined returned u worker
      have apart : u ≠ t := by
        rintro rfl
        exact moves.inside_run left
      exact (congrArg Thread.pc (stays u apart)).trans left
    · have left := closing.back closed r root
      have apart : r ≠ t := by
        rintro rfl
        rcases left with left | left
        · exact moves.inside_run left
        · exact cfg.apart r root (moves.worker left)
      simpa only [stays r apart] using left
    · by_cases same : u = t
      · subst same
        simp only [Function.update_self] at pc ⊢
        exact moves.exited pc
      · simp only [stays u same] at pc ⊢
        exact closing.exited u pc
  | external | create => exact ⟨closing.alone, closing.joined, closing.back, closing.exited⟩
  | stop moves => exact closing.stop owned moves

theorem Drains.free (run : Guarded (step cfg) (Drains cfg) {} as s) :
    Guarded (step cfg) (FreeDequeue cfg) {} as s := run.mono fun _ _ met => met.1

theorem Closing.run (run : Guarded (Sched.step cfg) (FreeDequeue cfg) {} as s) : Closing cfg s :=
  run.invariant .start fun _ _ _ _ before closing _ step => closing.step (Owned.run before) step

/-! ## Entries that are left -/

/-- When all threads are over, each entry can still be taken. -/
def AllServed (cfg : Setup) (s : State) : Prop :=
  (∀ t ∈ cfg.threads, Over cfg s t) → ∀ task ∈ s.sh.queue, Served cfg s task.thread

theorem isStopping_queue (stopping : sh.isStopping = true) : sh.queue = [] := by
  simp only [Shared.isStopping, Bool.and_eq_true, List.isEmpty_iff] at stopping
  exact stopping.1.2

/-- A thread gets over only when `stopping()` is true on it. -/
theorem Moves.ends (moves : Moves cfg t th sh m th' sh') (ended : th'.idle = .term) :
    th.idle = .term ∨ sh'.queue = [] := by
  cases moves with
  | idleTerm _ stopping => exact .inr (isStopping_queue stopping)
  | idleSettle =>
    dsimp only at ended
    split at ended
    · exact .inl ended
    · cases ended
  | requeue | setHold => exact .inl (by simpa using ended)
  | _ => simp_all

/-- A thread that scans is done only by a scan that takes nothing. -/
theorem Moves.done (moves : Moves cfg t th sh m th' sh') (pc : th'.pc = .dispatch none ∨ th'.pc = .exited) :
    (m = .next ∧ th.pc = .loop ∧ dequeue t sh.fibers sh.queue = none) ∨ th.pc = .dispatch none := by
  have inside := moves.inside_run
  cases moves with
  | miss loop found => exact .inl ⟨rfl, loop, found⟩
  | leave none => exact .inr none
  | _ => simp_all

theorem Moves.entry (moves : Moves cfg t th sh m th' sh') : th'.pc ≠ .entry := by
  cases moves with
  | failReset kept =>
    intro entry
    simp [entry] at kept
  | _ => simp_all

theorem schedule_queue {owed : Bool} {r : Request} {task : Task} (queued : task ∈ (schedule owed sh r).queue) :
    task ∈ sh.queue ∨ ∃ i ∈ r.items, i.1 ≠ .null ∧ task.thread = i.2 := by
  revert task
  refine schedule_induct (P := fun sh' => ∀ {task}, task ∈ sh'.queue →
    task ∈ sh.queue ∨ ∃ i ∈ r.items, i.1 ≠ .null ∧ task.thread = i.2) .inl ?_
  rintro sh' ⟨fc, thread⟩ member ih task queued
  cases fc with
  | null => exact ih queued
  | fiber | cb =>
    rcases List.mem_append.mp queued with queued | queued
    · exact ih queued
    · obtain rfl := List.mem_singleton.mp queued
      exact .inr ⟨_, member, nofun, rfl⟩

/-- The entries after a step are those before it, one of a fiber that may go
anywhere, or those of a call. -/
theorem Moves.queue (moves : Moves cfg t th sh m th' sh') {task : Task} (queued : task ∈ sh'.queue) :
    task ∈ sh.queue ∨ (task.thread = none ∧ th'.pc = .loop) ∨
      ∃ r, m = .user (.schedule r) ∧ th' = th ∧ ∃ i ∈ r.items, i.1 ≠ .null ∧ task.thread = i.2 := by
  cases moves with
  | take pc found => exact .inl ((dequeue_mem found).2 queued)
  | requeue =>
    rcases List.mem_append.mp queued with queued | queued
    · exact .inl queued
    · obtain rfl := List.mem_singleton.mp queued
      exact .inr (.inl ⟨rfl, by simp⟩)
  | schedule pc =>
    rcases schedule_queue queued with queued | pushed
    · exact .inl queued
    · exact .inr (.inr ⟨_, rfl, rfl, pushed⟩)
  | _ => exact .inl queued

theorem not_done_of_pc (dispatch : (s.thr t).pc ≠ .dispatch none) (exited : (s.thr t).pc ≠ .exited)
    (entry : (s.thr t).pc ≠ .entry) : ¬ Done cfg s t := by
  rintro (⟨_, pc | pc⟩ | ⟨_, pc, _⟩)
  · exact dispatch pc
  · exact exited pc
  · exact entry pc

theorem AllServed.thread (served : AllServed cfg s) (owned : Owned cfg s)
    (moves : Moves cfg t (s.thr t) s.sh m th sh)
    (left : (∀ t ∈ cfg.threads, Over cfg s t) → NoneLeft cfg s (.thread t m)) :
    AllServed cfg { s with thr := Function.update s.thr t th, sh } := by
  intro ended task queued
  have stays : ∀ u, u ≠ t → Function.update s.thr t th u = s.thr u :=
    fun u apart => Function.update_of_ne apart _ _
  have own : Function.update s.thr t th t = th := Function.update_self ..
  have member := owned.mover moves
  have idle : th.idle = .term → (s.thr t).idle = .term := fun term =>
    (moves.ends term).resolve_right fun empty => by simp [empty] at queued
  -- all threads were over before the step
  have before : ∀ u ∈ cfg.threads, Over cfg s u := by
    intro u among
    have after := ended u among
    by_cases same : u = t
    · subst same
      simp only [Over, Skipped, own] at after
      exact .inl (idle (after.resolve_right fun skipped => moves.entry skipped.2.1))
    · simpa only [Over, Skipped, stays u same] using after
  have others : ∀ u, u ≠ t → Done cfg { s with thr := Function.update s.thr t th, sh } u → Done cfg s u := by
    intro u apart done
    simpa only [Done, Skipped, stays u apart] using done
  rcases moves.queue queued with old | ⟨anywhere, pc⟩ | ⟨r, rfl, same, i, item, real, target⟩
  · obtain ⟨v, among, allowed, scans⟩ := served before task old
    by_cases apart : v = t
    · subst apart
      by_cases done : Done cfg { s with thr := Function.update s.thr v th, sh } v
      · -- `v` has just made its last scan, and walked past the entry
        obtain ⟨term, pc⟩ : th.idle = .term ∧ (th.pc = .dispatch none ∨ th.pc = .exited) := by
          simp only [Done, Skipped, own] at done
          exact done.resolve_right fun skipped => moves.entry skipped.2.1
        rcases moves.done pc with ⟨rfl, loop, missed⟩ | was
        · have unpinned : task.thread = none := by
            rcases target : task.thread with _ | w
            · rfl
            · have := allowed w target
              subst this
              exact (left before loop missed task old target).elim
          have skipped := dequeue_none.mp missed task old
          obtain ⟨f, _, exec⟩ : ∃ f, task.fiber = some f ∧ (s.sh.fibers f).state = .exec := by
            simpa [skips, unpinned, Option.any_eq_true] using skipped
          obtain ⟨w, b, pc⟩ := owned.running f exec
          have apart : w ≠ v := by
            rintro rfl
            simp [loop] at pc
          refine ⟨w, owned.member (by simp [pc]), by simp [unpinned], fun done => ?_⟩
          exact not_done_of_pc (by simp [pc]) (by simp [pc]) (by simp [pc]) (others w apart done)
        · exact (scans (.inl ⟨idle term, .inl was⟩)).elim
      · exact ⟨v, among, allowed, done⟩
    · exact ⟨v, among, allowed, fun done => scans (others v apart done)⟩
  · refine ⟨t, member, by simp [anywhere], not_done_of_pc ?_ ?_ ?_⟩ <;> simp [pc]
  · obtain ⟨v, among, allowed, scans⟩ := left before i item real
    refine ⟨v, among, by simpa only [target] using allowed, fun done => scans ?_⟩
    by_cases apart : v = t
    · subst apart
      simpa only [same, Done, Skipped, Function.update_self] using done
    · exact others v apart done

/-- A step that moves no thread and pushes nothing. -/
theorem AllServed.flags {stop : StopPc} {root : FiberState} (served : AllServed cfg s)
    (queue : sh.queue = s.sh.queue)
    (skips : sh.queue = [] ∨
      ∀ t ∈ cfg.threads, Skipped cfg { s with sh, stop, root } t → Skipped cfg s t) :
    AllServed cfg { s with sh, stop, root } := by
  intro ended task queued
  rcases skips with empty | skips
  · simp [empty] at queued
  · have before : ∀ u ∈ cfg.threads, Over cfg s u := fun u among => (ended u among).imp id (skips u among)
    obtain ⟨v, among, allowed, scans⟩ := served before task (by simpa only [queue] using queued)
    exact ⟨v, among, allowed, fun done => scans (done.imp id (skips v among))⟩

theorem AllServed.stop (served : AllServed cfg s) (owned : Owned cfg s) (moves : StopMoves cfg s s') :
    AllServed cfg s' := by
  cases moves with
  | early _ stopping | skipRoot _ _ stopping => exact served.flags rfl (.inl (isStopping_queue stopping))
  | @callRoot r pc root =>
    intro ended
    have waiting := owned.waiting (by rw [pc]; rfl) r root
    rcases ended r (Setup.root_mem root) with term | skipped
    · simp [waiting] at term
    · simp [Skipped] at skipped
  | noRoot _ root =>
    refine served.flags rfl (.inr fun t among skipped => ?_)
    exact (skipped.1 (by simpa [Setup.threads, root] using among)).elim
  | backRoot _ left =>
    refine served.flags rfl (.inr fun t among skipped => ?_)
    rcases Setup.mem_threads among with worker | root
    · exact (skipped.1 worker).elim
    · have entry : (s.thr t).pc = .entry := skipped.2.1
      simp [left t root] at entry
  | join pc => exact served.flags rfl (.inr fun t _ skipped => ⟨skipped.1, skipped.2.1, by rw [pc]; rfl⟩)
  | call | first | pass | setStopping =>
    exact served.flags rfl (.inr fun t _ skipped => by simp [Skipped, StopPc.closed] at skipped)

theorem AllServed.step (served : AllServed cfg s) (owned : Owned cfg s) (met : Drains cfg s a)
    (step : step cfg s a = some s') : AllServed cfg s' := by
  obtain ⟨_, moves⟩ := step_cases step
  cases moves with
  | thread moves => exact served.thread owned moves met.2
  | external =>
    intro ended task queued
    rcases schedule_queue queued with old | ⟨i, item, real, target⟩
    · exact served ended task old
    · rw [target]
      exact met.2 ended i item real
  | create => exact served.flags rfl (.inr fun _ _ skipped => skipped)
  | stop moves => exact served.stop owned moves

theorem AllServed.run (run : Guarded (Sched.step cfg) (Drains cfg) {} as s) : AllServed cfg s :=
  run.invariant (fun _ _ queued => by cases queued) fun _ _ _ _ before served met step =>
    served.step (Owned.run (Drains.free before)) met step

/-! ## The result -/

/-- A thread has left when `stop()` returns, or was never entered. -/
theorem Closing.left (closing : Closing cfg s) (returned : s.stop = .returned) (among : t ∈ cfg.threads) :
    ((s.thr t).pc = .exited ∨ (s.thr t).pc = .entry) ∧ Done cfg s t := by
  have exited : (s.thr t).pc = .exited → Done cfg s t := fun pc => .inl ⟨closing.exited t pc, .inr pc⟩
  rcases Setup.mem_threads among with worker | root
  · have pc := closing.joined returned t worker
    exact ⟨.inl pc, exited pc⟩
  · rcases closing.back (by rw [returned]; rfl) t root with pc | pc
    · exact ⟨.inl pc, exited pc⟩
    · exact ⟨.inr pc, .inr ⟨cfg.apart t root, pc, by rw [returned]; rfl⟩⟩

/-- Every callback `stop()` has to wait for was passed to `schedule()`. -/
def Minted (s : State) : Prop := ∀ k ∈ s.sh.owed, k < s.sh.nextTicket

theorem schedule_minted {owed : Bool} {r : Request} (minted : ∀ k ∈ sh.owed, k < sh.nextTicket) :
    ∀ k ∈ (schedule owed sh r).owed, k < (schedule owed sh r).nextTicket := by
  refine schedule_induct (P := fun sh => ∀ k ∈ sh.owed, k < sh.nextTicket) minted ?_
  rintro sh ⟨fc, thread⟩ _ ih k member
  cases fc with
  | cb =>
    cases owed with
    | true =>
      rcases List.mem_append.mp member with old | new
      · exact Nat.lt_succ_of_lt (ih k old)
      · rw [List.mem_singleton.mp new]
        exact Nat.lt_succ_self _
    | false => exact Nat.lt_succ_of_lt (ih k member)
  | fiber | null => exact ih k member

theorem Minted.step (minted : Minted s) (step : step cfg s a = some s') : Minted s' := by
  obtain ⟨_, moves⟩ := step_cases step
  cases moves with
  | thread moves =>
    cases moves with
    | schedule => exact schedule_minted minted
    | _ => exact minted
  | external => exact schedule_minted minted
  | create => exact minted
  | stop moves => cases moves <;> exact minted

/-- **Drain on stop.** In a run whose dequeues take free fibers and in which,
once all threads are over, pushes go to threads that still scan and last scans
leave no entry pinned to their thread: when `stop()` returns, the queue is empty
and every callback it has to wait for has been started exactly once. -/
theorem drain (run : Guarded (step cfg) (Drains cfg) {} as s) (returned : s.stop = .returned) :
    s.sh.queue = [] ∧ ∀ k ∈ s.sh.owed, s.sh.started.count k = 1 := by
  have free := Drains.free run
  have closing := Closing.run free
  have empty : s.sh.queue = [] := by
    rw [List.eq_nil_iff_forall_not_mem]
    intro task queued
    have ended : ∀ t ∈ cfg.threads, Over cfg s t := fun t among =>
      (closing.left returned among).2.imp And.left id
    obtain ⟨t, among, _, scans⟩ := AllServed.run run ended task queued
    exact scans (closing.left returned among).2
  refine ⟨empty, fun k owed => ?_⟩
  have minted : Minted s := free.invariant (fun _ owed => by cases owed) fun _ _ _ _ _ minted _ step => minted.step step
  have count := (Tickets.run free).count k
  have hands : ∑ t ∈ cfg.threads, ((s.thr t).hands s.sh).count k = 0 := by
    refine Finset.sum_eq_zero fun t among => ?_
    rcases (closing.left returned among).1 with pc | pc <;> simp [Thread.hands, pc]
  rw [hands] at count
  simp only [Shared.queued, empty, List.filterMap_nil, List.count_nil, Shared.minted, Nat.zero_add] at count
  rw [count]
  exact List.count_eq_one_of_mem List.nodup_range (List.mem_range.mpr (minted k owed))

/-- Steps of one thread in `run()`. -/
def go (t : Tid) (n : Nat) : List Act := List.replicate n (.thread t .next)

/-- A callback is executed on thread 1, and both threads stop. -/
def drained : List Act :=
  .external (.one .cb none) :: go 1 4 ++ go 2 1 ++ [.thread 1 (.user .ret)] ++ go 1 4 ++
    List.replicate 4 .stop ++ go 1 10 ++ go 2 10 ++ [.stop]

theorem drain_drained :
    ∃ s : State, exec (step twoWorkers) {} drained = some s ∧ s.stop = .returned ∧ s.sh.owed = [0] ∧
      s.sh.queue = [] ∧ ∀ k ∈ s.sh.owed, s.sh.started.count k = 1 := by
  obtain ⟨s, run, test⟩ := Guarded.of_any
    (show (execIf (step twoWorkers) (Drains twoWorkers) {} drained).any
      (fun s => s.stop = .returned ∧ s.sh.owed = [0]) from by decide +kernel)
  obtain ⟨returned, owed⟩ := of_decide_eq_true test
  exact ⟨s, run.exec_eq, returned, owed, drain run returned⟩

/-- Fiber 0 yields `READY` on thread 1, and thread 2 gets over before it is
queued again; then the same with the threads exchanged. Thread 1 leaves, and
the fiber schedules a callback for it. -/
def lost : List Act :=
  [.create, .external (.one (.fiber 0) none)] ++ go 1 4 ++ go 2 1 ++ [.thread 1 (.user .yieldReady)] ++ go 1 2 ++
    List.replicate 4 .stop ++ go 2 8 ++ go 1 2 ++
    go 2 3 ++ [.thread 2 (.user .yieldReady)] ++ go 2 2 ++ go 1 10 ++ go 2 5 ++
    [.thread 2 (.user (.schedule (.one .cb (some 1)))), .thread 2 (.user .ret)] ++ go 2 5 ++ [.stop]

/-- `stop()` returns, the callback is still queued, and its thread has left. -/
theorem not_drain :
    ∃ s, Guarded (step twoWorkers) (FreeDequeue twoWorkers) {} lost s ∧ s.stop = .returned ∧
      s.sh.owed = [0] ∧ s.sh.started.count 0 = 0 ∧ s.sh.queue = [⟨none, some 0, some 1⟩] := by
  obtain ⟨s, run, test⟩ := Guarded.of_any
    (show (execIf (step twoWorkers) (FreeDequeue twoWorkers) {} lost).any (fun s =>
      s.stop = .returned ∧ s.sh.owed = [0] ∧ s.sh.started.count 0 = 0 ∧
        s.sh.queue = [⟨none, some 0, some 1⟩]) from by decide +kernel)
  exact ⟨s, run, of_decide_eq_true test⟩

end Atpdxy.Sched
