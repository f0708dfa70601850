import Atpdxy.Sched.Affinity

/-!
# How long an entry waits

A scan takes the first entry it does not walk past, and entries are appended at
the end. So an entry is overtaken only by those ahead of it, and by others only
in scans that may not take it: with `n` entries ahead it is gone after `n + 1`
scans that may (`overtaken`), whatever is scheduled meanwhile.

But there may be no such scan. `schedule()` takes any thread id, and does not look
whether the scheduler has such a thread or whether it still scans the queue. As
long as the entry is queued `stopping()` is false, so a thread that has not seen
it true stays in `run()`, and `stop()`, which joins it or waits for the root
fiber, stays with it (`stop_hangs`).
-/

namespace Atpdxy.Sched

open Run

variable {cfg : Setup} {t u : Tid} {m : Move} {th th' : Thread} {sh sh' : Shared} {s s' : State} {a : Act}
  {as bs : List Act} {task : Task}

/-! ## Overtaking -/

/-- The step is a scan that takes this entry. -/
def Takes (s : State) (a : Act) (task : Task) : Prop :=
  ∃ t rest, a = .thread t .next ∧ (s.thr t).pc = .loop ∧ dequeue t s.sh.fibers s.sh.queue = some (task, rest)

/-- One for a scan that would not walk past the entry. -/
def chance (s : State) (task : Task) : Act → Nat
  | .thread t .next => if (s.thr t).pc = .loop ∧ skips t s.sh.fibers task = false then 1 else 0
  | _ => 0

/-- The scans of a run that would not walk past the entry. -/
def chances (cfg : Setup) (task : Task) : State → List Act → Nat
  | _, [] => 0
  | s, a :: as => chance s task a + (step cfg s a).elim 0 fun s' => chances cfg task s' as

/-- The scan has walked past what is ahead of the entry it takes. -/
theorem dequeue_front {fibers : FiberId → Fiber} {q rest : List Task} {ft : Task}
    (found : dequeue t fibers q = some (ft, rest)) :
    ∃ front back, q = front ++ ft :: back ∧ rest = front ++ back ∧ ∀ task ∈ front, skips t fibers task = true := by
  induction q generalizing rest with
  | nil => cases found
  | cons task q ih =>
    simp only [dequeue] at found
    split at found
    · rename_i skipped
      obtain ⟨⟨_, _⟩, before, same⟩ := Option.map_eq_some_iff.mp found
      obtain ⟨rfl, rfl⟩ := Prod.mk.inj same
      obtain ⟨front, back, rfl, rfl, all⟩ := ih before
      exact ⟨task :: front, back, rfl, rfl, List.forall_mem_cons.mpr ⟨skipped, all⟩⟩
    · cases found
      exact ⟨[], q, rfl, rfl, by simp⟩

/-- The entry is still queued, with `n` fewer entries ahead of it. -/
def Ahead (task : Task) (front : List Task) (n : Nat) (queue : List Task) : Prop :=
  ∃ front' back, queue = front' ++ task :: back ∧ front'.Sublist front ∧ front'.length + n ≤ front.length

theorem Ahead.still {front back : List Task} (queue : sh.queue = front ++ task :: back) : Ahead task front 0 sh.queue :=
  ⟨front, back, queue, .refl _, Nat.le_refl _⟩

theorem Ahead.push {front back more : List Task} (queue : sh.queue = front ++ task :: back) :
    Ahead task front 0 (sh.queue ++ more) :=
  ⟨front, back ++ more, by simp [queue], .refl _, Nat.le_refl _⟩

/-- A call of `schedule()` appends. -/
theorem schedule_append (owed : Bool) (sh : Shared) (r : Request) :
    ∃ more, (schedule owed sh r).queue = sh.queue ++ more := by
  refine schedule_induct (P := fun sh' => ∃ more, sh'.queue = sh.queue ++ more) ⟨[], by simp⟩ ?_
  rintro sh' ⟨fc, thread⟩ _ ⟨more, queue⟩
  cases fc with
  | fiber f => exact ⟨more ++ [⟨some f, none, thread⟩], by simp only [scheduleNoLock, queue, List.append_assoc]⟩
  | cb => exact ⟨more ++ [⟨none, some sh'.nextTicket, thread⟩], by simp only [scheduleNoLock, queue, List.append_assoc]⟩
  | null => exact ⟨more, queue⟩

/-- A scan that takes another entry: one ahead, or it has walked past this one. -/
theorem Ahead.take {front back rest : List Task} {ft : Task} (queue : sh.queue = front ++ task :: back)
    (found : dequeue t sh.fibers sh.queue = some (ft, rest)) (other : ft ≠ task) :
    Ahead task front (if skips t sh.fibers task = false then 1 else 0) rest := by
  obtain ⟨front', back', split, rfl, skipped⟩ := dequeue_front found
  rcases List.append_eq_append_iff.mp (queue.symm.trans split) with ⟨between, rfl, tail⟩ | ⟨between, rfl, tail⟩
  · cases between with
    | nil => exact (other (List.cons.inj tail).1.symm).elim
    | cons first between =>
      obtain ⟨rfl, rfl⟩ := List.cons.inj tail
      refine ⟨front, between ++ back', by simp, .refl _, ?_⟩
      rw [skipped task (by simp)]
      simp
  · cases between with
    | nil => exact (other (List.cons.inj tail).1).elim
    | cons first between =>
      obtain ⟨rfl, rfl⟩ := List.cons.inj tail
      refine ⟨front' ++ between, back, by simp, by simp, ?_⟩
      simp only [List.length_append, List.length_cons]
      split <;> omega

theorem Moves.ahead {front back : List Task} (moves : Moves cfg t (s.thr t) s.sh m th sh)
    (queue : s.sh.queue = front ++ task :: back) :
    Takes s (.thread t m) task ∨ Ahead task front (chance s task (.thread t m)) sh.queue := by
  have off : (s.thr t).pc ≠ .loop → chance s task (.thread t m) = 0 := by
    intro off
    cases m <;> simp [chance, off]
  cases moves with
  | @take ft rest pc found =>
    by_cases same : ft = task
    · subst same
      exact .inl ⟨t, rest, rfl, pc, found⟩
    · simpa only [chance, pc, true_and] using .inr (Ahead.take queue found same)
  | miss pc found =>
    have skipped : skips t s.sh.fibers task = true := dequeue_none.mp found task (by simp [queue])
    simpa only [chance, skipped, Bool.true_eq_false, and_false, if_false] using .inr (Ahead.still queue)
  | requeue pc =>
    rw [off (by simp [pc])]
    exact .inr (.push queue)
  | @schedule b f r pc =>
    rw [off (by simp [pc])]
    obtain ⟨more, appended⟩ := schedule_append true s.sh r
    rw [appended]
    exact .inr (.push queue)
  | failReset kept =>
    rw [off (by rcases kept with pc | ⟨⟨ft, pc, _⟩, _⟩ <;> simp [pc])]
    exact .inr (Ahead.still queue)
  | _ =>
    rw [off (by simp_all)]
    exact .inr (Ahead.still queue)

theorem ahead_step {front back : List Task} (queue : s.sh.queue = front ++ task :: back)
    (step : step cfg s a = some s') :
    Takes s a task ∨ Ahead task front (chance s task a) s'.sh.queue := by
  obtain ⟨_, moves⟩ := step_cases step
  cases moves with
  | thread moves => exact moves.ahead queue
  | @external r =>
    obtain ⟨more, appended⟩ := schedule_append (s.stop == .notCalled) s.sh r
    refine .inr ?_
    dsimp only
    rw [appended]
    exact .push queue
  | create => exact .inr (Ahead.still queue)
  | stop moves => cases moves <;> exact .inr (Ahead.still queue)

/-- **Bounded overtaking.** However the threads go on from a state with an entry
that has `front` ahead of it, and whatever is scheduled: as long as no scan has
taken the entry, those ahead of it are some of `front`, one fewer for each scan that
would not have walked past the entry. So one of the first `front.length + 1` such
scans takes it. -/
theorem overtaken {front back : List Task} (queue : s.sh.queue = front ++ task :: back)
    (on : exec (step cfg) s bs = some s') :
    Ahead task front (chances cfg task s bs) s'.sh.queue ∨
      ∃ cs a ds mid, bs = cs ++ a :: ds ∧ exec (step cfg) s cs = some mid ∧ Takes mid a task ∧
        chances cfg task s cs ≤ front.length := by
  induction bs generalizing s front back with
  | nil =>
    cases on
    exact .inl (Ahead.still queue)
  | cons a bs ih =>
    obtain ⟨next, first, rest⟩ := Option.bind_eq_some_iff.mp on
    rcases ahead_step queue first with takes | ⟨front', back', queue', sublist, fewer⟩
    · exact .inr ⟨[], a, bs, s, rfl, rfl, takes, Nat.zero_le _⟩
    · rcases ih queue' rest with ⟨front'', back'', last, sublist', fewer'⟩ | ⟨cs, b, ds, mid, rfl, before, takes, few⟩
      · refine .inl ⟨front'', back'', last, sublist'.trans sublist, ?_⟩
        simp only [chances, first, Option.elim_some]
        omega
      · refine .inr ⟨a :: cs, b, ds, mid, rfl, ?_, takes, ?_⟩
        · simp [exec, first, before]
        · simp only [chances, first, Option.elim_some]
          omega

/-- Three callbacks, the second for thread 2. -/
def threeEntries : List Act := [.external (.one .cb none), .external (.one .cb (some 2)), .external (.one .cb none)]

/-- Thread 1 takes the first and executes it. -/
def takesFirst : List Act := go 1 4 ++ [.thread 1 (.user .ret)] ++ go 1 4

theorem overtaken_threeEntries :
    ∃ s s' : State, exec (step twoWorkers) {} threeEntries = some s ∧
      s.sh.queue = [⟨none, some 0, none⟩, ⟨none, some 1, some 2⟩] ++ ⟨none, some 2, none⟩ :: [] ∧
      exec (step twoWorkers) s takesFirst = some s' ∧ chances twoWorkers ⟨none, some 2, none⟩ s takesFirst = 1 ∧
      (Ahead ⟨none, some 2, none⟩ [⟨none, some 0, none⟩, ⟨none, some 1, some 2⟩]
          (chances twoWorkers ⟨none, some 2, none⟩ s takesFirst) s'.sh.queue ∨
        ∃ cs a ds mid, takesFirst = cs ++ a :: ds ∧ exec (step twoWorkers) s cs = some mid ∧
          Takes mid a ⟨none, some 2, none⟩ ∧ chances twoWorkers ⟨none, some 2, none⟩ s cs ≤ 2) := by
  obtain ⟨s, run, test⟩ := exec_of_any
    (show (exec (step twoWorkers) {} threeEntries).any (fun s =>
      (s.sh.queue = [⟨none, some 0, none⟩, ⟨none, some 1, some 2⟩] ++ ⟨none, some 2, none⟩ :: [] ∧
        chances twoWorkers ⟨none, some 2, none⟩ s takesFirst = 1) ∧
        (exec (step twoWorkers) s takesFirst).isSome) from by decide +kernel)
  obtain ⟨⟨queue, one⟩, some⟩ := of_decide_eq_true test
  obtain ⟨s', on⟩ := Option.isSome_iff_exists.mp some
  exact ⟨s, s', run, queue, on, one, overtaken queue on⟩

/-! ## Entries nobody takes -/

/-- `stop()` has yet to wait for the thread: it will test `stopping()` again. -/
def Awaited (cfg : Setup) (s : State) (t : Tid) : Prop :=
  (s.thr t).idle ≠ .term ∧ (t ∈ cfg.workers ∨ s.stop.closed = false)

instance : Decidable (Awaited cfg s t) := inferInstanceAs (Decidable (_ ∧ _))

/-- An entry pinned to `u`, which does not scan the queue, and a thread `stop()` waits for. -/
structure Hung (cfg : Setup) (task : Task) (u t : Tid) (s : State) : Prop where
  queued : task ∈ s.sh.queue
  lost : u ∈ cfg.threads → Done cfg s u
  awaited : Awaited cfg s t
  going : s.stop ≠ .returned

/-- A call of `schedule()` leaves the entries that are queued. -/
theorem mem_schedule {owed : Bool} {r : Request} (queued : task ∈ sh.queue) : task ∈ (schedule owed sh r).queue := by
  obtain ⟨more, appended⟩ := schedule_append owed sh r
  rw [appended]
  exact List.mem_append_left _ queued

/-- A step takes an entry only from the scan of a thread that may take it. -/
theorem Moves.keepsEntry (moves : Moves cfg t th sh m th' sh') (queued : task ∈ sh.queue) :
    task ∈ sh'.queue ∨ (th.pc = .loop ∧ ∀ u ∈ task.thread, t = u) := by
  cases moves with
  | take pc found =>
    obtain ⟨front, back, queue, rest, taken⟩ := dequeue_some found
    rw [queue] at queued
    rcases List.mem_append.mp queued with first | later
    · exact .inl (by simp [rest, first])
    · rcases List.mem_cons.mp later with rfl | last
      · exact .inr ⟨pc, skips_thread taken⟩
      · exact .inl (by simp [rest, last])
  | requeue => exact .inl (List.mem_append_left _ queued)
  | schedule => exact .inl (mem_schedule queued)
  | _ => exact .inl queued

theorem not_isStopping (queued : task ∈ s.sh.queue) : s.sh.isStopping ≠ true := by
  intro stopping
  rw [isStopping_queue stopping] at queued
  cases queued

theorem Done.loop (done : Done cfg s u) : (s.thr u).pc ≠ .loop := by
  rintro loop
  rcases done with ⟨_, pc | pc⟩ | ⟨_, pc, _⟩ <;> simp [loop] at pc

theorem Hung.thread (hung : Hung cfg task u t s) (pinned : task.thread = some u) (placed : Placed cfg s) {v : Tid}
    (moves : Moves cfg v (s.thr v) s.sh m th sh) (step : step cfg s a = some s')
    (after : s' = { s with thr := Function.update s.thr v th, sh }) : Hung cfg task u t s' := by
  have lost : u ∈ cfg.threads → Done cfg s' u := fun among => (hung.lost among).step placed step
  subst after
  refine ⟨?_, lost, ⟨?_, hung.awaited.2⟩, hung.going⟩
  · refine (moves.keepsEntry hung.queued).resolve_right ?_
    rintro ⟨loop, own⟩
    have same : v = u := own u pinned
    subst same
    exact (hung.lost (placed.mover moves)).loop loop
  · by_cases same : t = v
    · subst same
      simp only [Function.update_self]
      exact fun ended => (moves.idleEnded ended).elim hung.awaited.1 (not_isStopping hung.queued)
    · simpa only [Function.update_of_ne same] using hung.awaited.1

theorem Hung.stop (hung : Hung cfg task u t s) (placed : Placed cfg s) (among : t ∈ cfg.threads)
    (moves : StopMoves cfg s s') (lost : u ∈ cfg.threads → Done cfg s' u) : Hung cfg task u t s' := by
  obtain ⟨queued, _, ⟨idle, open_⟩, going⟩ := hung
  have inside : (s.thr t).pc ≠ .exited := fun pc => idle (placed.exited t pc)
  cases moves with
  | early _ stopping | skipRoot _ _ stopping => exact (not_isStopping queued stopping).elim
  | call | first | pass | setStopping => exact ⟨queued, lost, ⟨idle, .inr rfl⟩, by simp⟩
  | noRoot _ root => exact ⟨queued, lost, ⟨idle, .inl (by simpa [Setup.threads, root] using among)⟩, by simp⟩
  | @callRoot r =>
    refine ⟨queued, lost, ⟨?_, .inr rfl⟩, by simp⟩
    by_cases same : t = r
    · subst same
      simpa using idle
    · simpa only [Function.update_of_ne same] using idle
  | backRoot _ left =>
    refine ⟨queued, lost, ⟨idle, .inl ?_⟩, by simp⟩
    exact (Setup.mem_threads among).resolve_right fun root => inside (left t root)
  | join pc joined =>
    rcases open_ with worker | open_
    · exact (inside (joined t worker)).elim
    · simp [pc, StopPc.closed] at open_

theorem Hung.step (hung : Hung cfg task u t s) (pinned : task.thread = some u) (placed : Placed cfg s)
    (among : t ∈ cfg.threads) (step : step cfg s a = some s') : Hung cfg task u t s' := by
  obtain ⟨_, moves⟩ := step_cases step
  cases moves with
  | thread moves => exact hung.thread pinned placed moves step rfl
  | external => exact ⟨mem_schedule hung.queued, hung.lost, hung.awaited, hung.going⟩
  | create => exact ⟨hung.queued, hung.lost, hung.awaited, hung.going⟩
  | stop moves => exact hung.stop placed among moves fun member => (hung.lost member).step placed step

/-- **A task nobody takes hangs `stop()`.** In whatever way the threads go on from
a reachable state with an entry pinned to a thread that is not one of the
scheduler's, or that has made its last scan, and with a thread `stop()` has yet
to wait for: the entry stays in the queue, `stopping()` is false, that thread
never leaves `run()` and `stop()` never returns. -/
theorem stop_hangs (run : exec (step cfg) {} as = some s) (queued : task ∈ s.sh.queue) (pinned : task.thread = some u)
    (lost : u ∈ cfg.threads → Done cfg s u) (among : t ∈ cfg.threads) (awaited : Awaited cfg s t)
    (going : s.stop ≠ .returned) :
    ∀ bs s', exec (step cfg) s bs = some s' →
      s'.stop ≠ .returned ∧ task ∈ s'.sh.queue ∧ s'.sh.isStopping = false ∧ (s'.thr t).pc ≠ .exited := by
  intro bs s' on
  have before := Guarded.of_exec run
  have placed : ∀ {cs v}, Guarded (step cfg) (fun _ _ => True) s cs v → Placed cfg v := fun later =>
    .run (before.append later)
  have later := Guarded.of_exec on
  have hung : Hung cfg task u t s' := later.invariant ⟨queued, lost, awaited, going⟩
    fun _ _ _ _ on hung _ step => hung.step pinned (placed on) among step
  exact ⟨hung.going, hung.queued, by simpa using not_isStopping hung.queued,
    fun exited => hung.awaited.1 ((placed later).exited t exited)⟩

/-- A callback for a thread that does not exist, and `stop()`. -/
def noSuchThread : List Act := .external (.one .cb (some 9)) :: go 1 1 ++ List.replicate 4 .stop

theorem stop_hangs_noSuchThread :
    ∃ s : State, exec (step twoWorkers) {} noSuchThread = some s ∧ s.sh.queue = [⟨none, some 0, some 9⟩] ∧
      s.stop = .join ∧ ∀ bs s', exec (step twoWorkers) s bs = some s' →
        s'.stop ≠ .returned ∧ ⟨none, some 0, some 9⟩ ∈ s'.sh.queue ∧ s'.sh.isStopping = false ∧
          (s'.thr 1).pc ≠ .exited := by
  obtain ⟨s, run, test⟩ := exec_of_any
    (show (exec (step twoWorkers) {} noSuchThread).any (fun s =>
      (s.sh.queue = [⟨none, some 0, some 9⟩] ∧ s.stop = .join) ∧ Awaited twoWorkers s 1) from by decide +kernel)
  obtain ⟨⟨queue, pc⟩, awaited⟩ := of_decide_eq_true test
  have outside : 9 ∉ twoWorkers.threads := by decide
  exact ⟨s, run, queue, pc,
    stop_hangs run (by simp [queue]) rfl (fun among => (outside among).elim) (by decide) awaited (by simp [pc])⟩

end Atpdxy.Sched
