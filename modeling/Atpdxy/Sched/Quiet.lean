import Atpdxy.Sched.Counts

/-!
# When `stopping()` is true

`stopping()` concludes from an empty queue and `m_activeThreadCount == 0` that
no work is left. A thread is counted from the dequeue to the decrement after
the switch; what `run()` still does then (looking at the state, queueing the
fiber again, writing `HOLD`, resetting `cb_fiber`) is not. So `stopping()` may
be true while a fiber that yielded `READY` is about to be queued again
(`quietTooEarly`). `Settled` is the condition on a step under which it is not.
-/

namespace Atpdxy.Sched

open Run

variable {cfg : Setup} {t u : Tid} {m : Move} {th th' : Thread} {sh sh' : Shared} {s s' : State} {a : Act}
  {as : List Act}

/-- After `--m_activeThreadCount`, in what `run()` still does with the fiber. -/
def Pc.uncounted : Pc → Bool
  | .settle _ _ | .requeue _ _ | .setHold _ _ | .resetCb _ => true
  | _ => false

/-- The thread has dequeued a task and not finished handling it. -/
def Pc.handles (pc : Pc) : Bool := pc.active || pc.uncounted

/-- Fiber `f` has yielded `READY` and `run()` has yet to queue it. -/
def Waits (cfg : Setup) (s : State) (f : FiberId) : Prop :=
  ∃ t ∈ cfg.threads, ∃ b, (s.thr t).pc = .requeue b f ∨
    ((s.sh.fibers f).state = .ready ∧
      ((s.thr t).pc = .leaving b f false ∨ (s.thr t).pc = .dec b f ∨ (s.thr t).pc = .settle b f))

/-- If `stopping()` is true, no work is left. -/
def Quiescent (cfg : Setup) (s : State) : Prop :=
  s.sh.isStopping = true →
    s.sh.queue = [] ∧ (∀ t ∈ cfg.threads, (s.thr t).pc.handles = false) ∧ ∀ f, ¬ Waits cfg s f

/-- No thread is behind its decrement. -/
def NoneUncounted (cfg : Setup) (s : State) : Prop := ∀ t ∈ cfg.threads, (s.thr t).pc.uncounted = false

instance : Decidable (NoneUncounted cfg s) := inferInstanceAs (Decidable (∀ _ ∈ _, _))

/-- One decrement away from `stopping()`. -/
def Shared.lastActive (sh : Shared) : Bool := sh.autoStop && sh.stopping && sh.queue.isEmpty && sh.active == 1

/-- The condition on a step. The decrement after a switch does not make
`stopping()` true; the one for a finished fiber's entry, and `m_stopping = true`
in `stop()`, do so only when no thread is behind its decrement. -/
def Settled (cfg : Setup) (s : State) : Act → Prop
  | .thread t .next =>
    ((∃ b f, (s.thr t).pc = .dec b f) → s.sh.lastActive = false) ∧
      ((s.thr t).pc = .skip → s.sh.lastActive = true → NoneUncounted cfg s)
  | .stop => s.stop = .setStopping → s.sh.queue = [] → s.sh.active = 0 → NoneUncounted cfg s
  | _ => True

def Pc.isDec : Pc → Bool
  | .dec _ _ => true
  | _ => false

theorem Pc.isDec_iff {pc : Pc} : pc.isDec = true ↔ ∃ b f, pc = .dec b f := by
  cases pc <;> simp [Pc.isDec]

instance {pc : Pc} : Decidable (∃ b f, pc = .dec b f) := decidable_of_iff _ Pc.isDec_iff

instance : Decidable (Settled cfg s a) :=
  match a with
  | .thread _ .next => inferInstanceAs (Decidable (_ ∧ _))
  | .stop => inferInstanceAs (Decidable (_ → _))
  | .thread _ (.user _) | .external _ | .create => isTrue trivial

/-! ## What makes `stopping()` true -/

/-- `stop()` has been called when a flag is set, and `m_autoStop` with it. -/
structure Flagged (s : State) : Prop where
  before : s.stop = .notCalled → s.sh.stopping = false
  after : s.stop ≠ .notCalled → s.sh.autoStop = true

theorem Flagged.step (flagged : Flagged s) (step : step cfg s a = some s') : Flagged s' := by
  obtain ⟨_, moves⟩ := step_cases step
  cases moves with
  | thread moves =>
    exact ⟨fun pc => moves.flags.2.trans (flagged.before pc), fun pc => moves.flags.1.trans (flagged.after pc)⟩
  | @external r =>
    have same := (schedule_active (s.stop == .notCalled) s.sh r).2.2
    exact ⟨fun pc => same.2.trans (flagged.before pc), fun pc => same.1.trans (flagged.after pc)⟩
  | create => exact ⟨flagged.before, flagged.after⟩
  | stop moves =>
    cases moves with
    | call => exact ⟨nofun, fun _ => rfl⟩
    | pass pc => exact ⟨nofun, fun _ => flagged.after (by rcases pc with pc | pc <;> simp [pc])⟩
    | first pc | setStopping pc | early pc | noRoot pc | skipRoot pc | callRoot pc | backRoot pc | join pc =>
      exact ⟨nofun, fun _ => flagged.after (by simp [pc])⟩

theorem Flagged.run {ok : State → Act → Prop} (run : Guarded (Sched.step cfg) ok {} as s) : Flagged s :=
  run.invariant ⟨fun _ => rfl, fun called => (called rfl).elim⟩
    fun _ _ _ _ _ flagged _ step => flagged.step step

theorem isStopping_iff : sh.isStopping = true ↔
    sh.autoStop = true ∧ sh.stopping = true ∧ sh.queue = [] ∧ sh.active = 0 := by
  simp [Shared.isStopping, and_assoc]

theorem lastActive_iff : sh.lastActive = true ↔
    sh.autoStop = true ∧ sh.stopping = true ∧ sh.queue = [] ∧ sh.active = 1 := by
  simp [Shared.lastActive, and_assoc]

/-- A call of `schedule()` takes nothing from the queue. -/
theorem schedule_queue_nil {owed : Bool} {r : Request} (empty : (schedule owed sh r).queue = []) : sh.queue = [] := by
  revert empty
  refine schedule_induct (P := fun sh' => sh'.queue = [] → sh.queue = []) id ?_
  rintro sh' ⟨fc, thread⟩ _ ih empty
  apply ih
  cases fc with
  | fiber | cb => simp [scheduleNoLock] at empty
  | null => exact empty

theorem schedule_isStopping {owed : Bool} {r : Request} (stopping : (schedule owed sh r).isStopping = true) :
    sh.isStopping = true := by
  obtain ⟨autoStop, stop, queue, active⟩ := isStopping_iff.mp stopping
  obtain ⟨sameActive, _, sameAuto, sameStop⟩ := schedule_active owed sh r
  rw [isStopping_iff]
  exact ⟨sameAuto ▸ autoStop, sameStop ▸ stop, schedule_queue_nil queue, sameActive ▸ active⟩

/-- A thread makes `stopping()` true only by a decrement. -/
theorem Moves.makesStopping (moves : Moves cfg t th sh m th' sh') (idle : th'.pc.active = true → sh'.active ≠ 0)
    (stopping : sh'.isStopping = true) : sh.isStopping = true ∨ (m = .next ∧ ((∃ b f, th.pc = .dec b f) ∨ th.pc = .skip)) := by
  cases moves with
  | take pc found => exact (idle rfl (isStopping_iff.mp stopping).2.2.2).elim
  | dec pc => exact .inr ⟨rfl, .inl ⟨_, _, pc⟩⟩
  | skip pc => exact .inr ⟨rfl, .inr pc⟩
  | requeue => simp [isStopping_iff] at stopping
  | schedule => exact .inl (schedule_isStopping stopping)
  | _ => exact .inl stopping

/-- The last decrement. -/
theorem isStopping_decr (positive : 0 < sh.active) :
    ({ sh with active := decr sh.active } : Shared).isStopping = sh.lastActive := by
  have zero : decr sh.active = 0 ↔ sh.active = 1 := by
    unfold decr
    split <;> omega
  rw [Bool.eq_iff_iff, isStopping_iff, lastActive_iff]
  simp only [zero]

/-- A thread comes behind its decrement by the decrement. -/
theorem Moves.uncounted (moves : Moves cfg t th sh m th' sh') (after : th'.pc.uncounted = true) :
    th.pc.uncounted = true ∨ (m = .next ∧ ∃ b f, th.pc = .dec b f) := by
  cases moves with
  | dec pc => exact .inr ⟨rfl, _, _, pc⟩
  | requeue | setHold => simp [Pc.uncounted] at after
  | failReset => exact .inl after
  | _ => simp_all [Pc.uncounted]

theorem Moves.at_dec {b : Branch} {f : FiberId} (moves : Moves cfg t th sh .next th' sh') (pc : th.pc = .dec b f) :
    th' = { th with pc := .settle b f } ∧ sh' = { sh with active := decr sh.active } := by
  cases moves with
  | dec own =>
    rw [pc] at own
    cases own
    exact ⟨rfl, rfl⟩
  | failReset kept => simp [pc] at kept
  | _ => simp_all

theorem Moves.at_skip (moves : Moves cfg t th sh .next th' sh') (pc : th.pc = .skip) :
    th' = { th with pc := .loop } ∧ sh' = { sh with active := decr sh.active } := by
  cases moves with
  | skip => exact ⟨rfl, rfl⟩
  | failReset kept => simp [pc] at kept
  | _ => simp_all

/-! ## The invariant -/

/-- With right counters, what is left when `stopping()` is true is behind a decrement. -/
theorem quiescent_iff (counts : Counts cfg s) :
    Quiescent cfg s ↔ (s.sh.isStopping = true → NoneUncounted cfg s) := by
  constructor
  · intro quiet stopping t among
    have handled := (quiet stopping).2.1 t among
    exact (Bool.or_eq_false_iff.mp handled).2
  · intro none stopping
    obtain ⟨_, _, queue, active⟩ := isStopping_iff.mp stopping
    have idle : ∀ t ∈ cfg.threads, (s.thr t).pc.active = false := by
      intro t among
      by_contra marked
      have positive : 0 < (threadsAt cfg Pc.active s.thr).card :=
        card_threadsAt_pos among (Bool.eq_true_of_not_eq_false marked)
      rw [← counts.active, active] at positive
      exact Nat.lt_irrefl _ positive
    refine ⟨queue, fun t among => Bool.or_eq_false_iff.mpr ⟨idle t among, none stopping t among⟩, ?_⟩
    rintro f ⟨t, among, b, waiting⟩
    have notActive := idle t among
    have notUncounted := none stopping t among
    rcases waiting with pc | ⟨_, pc | pc | pc⟩ <;> simp [pc, Pc.active, Pc.uncounted] at notActive notUncounted

theorem NoneUncounted.thread {root : FiberState} {stop : StopPc} (none : NoneUncounted cfg s)
    (moved : th.pc.uncounted = false) :
    NoneUncounted cfg { thr := Function.update s.thr t th, sh, root, stop } := by
  apply (Function.forall_update_iff s.thr fun u th => u ∈ cfg.threads → th.pc.uncounted = false).mpr
  exact ⟨fun _ => moved, fun u _ => none u⟩

theorem quiet_thread (counts : Counts cfg s) (placed : Placed cfg s)
    (counts' : Counts cfg { s with thr := Function.update s.thr t th, sh })
    (moves : Moves cfg t (s.thr t) s.sh m th sh) (quiet : s.sh.isStopping = true → NoneUncounted cfg s)
    (settled : Settled cfg s (.thread t m)) (stopping : sh.isStopping = true) :
    NoneUncounted cfg { s with thr := Function.update s.thr t th, sh } := by
  have among := placed.mover moves
  have active : th.pc.active = true → sh.active ≠ 0 := by
    intro marked
    have positive : 0 < (threadsAt cfg Pc.active (Function.update s.thr t th)).card :=
      card_threadsAt_pos among (by simpa using marked)
    rw [← counts'.active] at positive
    exact Nat.pos_iff_ne_zero.mp positive
  have counted : (s.thr t).pc.active = true → 0 < s.sh.active := by
    intro marked
    rw [counts.active]
    exact card_threadsAt_pos among marked
  -- the decrement after a switch does not get here
  have notDec : ¬ (m = .next ∧ ∃ b f, (s.thr t).pc = .dec b f) := by
    rintro ⟨rfl, b, f, pc⟩
    have before := settled.1 ⟨b, f, pc⟩
    have positive := counted (by rw [pc]; rfl)
    obtain ⟨_, rfl⟩ := moves.at_dec pc
    simp [isStopping_decr positive, before] at stopping
  have moved : th.pc.uncounted = true → (s.thr t).pc.uncounted = true := by
    intro after
    rcases moves.uncounted after with before | dec
    · exact before
    · exact (notDec dec).elim
  have none : NoneUncounted cfg s := by
    rcases moves.makesStopping active stopping with before | ⟨rfl, dec | skip⟩
    · exact quiet before
    · exact (notDec ⟨rfl, dec⟩).elim
    · apply settled.2 skip
      have positive := counted (by rw [skip]; rfl)
      obtain ⟨_, rfl⟩ := moves.at_skip skip
      exact isStopping_decr positive ▸ stopping
  exact none.thread (Bool.eq_false_iff.mpr fun after => by simp [none t among] at moved; simp [moved] at after)

theorem quiet_stop (placed : Placed cfg s) (moves : StopMoves cfg s s') (flagged : Flagged s)
    (quiet : s.sh.isStopping = true → NoneUncounted cfg s) (settled : Settled cfg s .stop)
    (stopping : s'.sh.isStopping = true) : NoneUncounted cfg s' := by
  have empty : ∀ t, s.thr t = {} → (s.thr t).pc.uncounted = false := fun t own => by rw [own]; rfl
  cases moves with
  | call pc =>
    have unset := flagged.before pc
    have set := (isStopping_iff.mp stopping).2.1
    simp [unset] at set
  | first pc root alone =>
    -- without workers only the root thread is in `run()`, and it waits
    intro t among
    rcases Setup.mem_threads among with worker | root
    · simp [alone] at worker
    · exact empty t (placed.waiting (by rw [pc]; rfl) t root)
  | setStopping pc =>
    obtain ⟨_, _, queue, active⟩ := isStopping_iff.mp stopping
    exact settled pc queue active
  | callRoot pc root => exact (quiet stopping).thread rfl
  | pass | early | noRoot | skipRoot | backRoot | join => exact quiet stopping

theorem quiet_step (counts : Counts cfg s) (placed : Placed cfg s) (flagged : Flagged s) (counts' : Counts cfg s')
    (quiet : s.sh.isStopping = true → NoneUncounted cfg s) (settled : Settled cfg s a)
    (step : step cfg s a = some s') (stopping : s'.sh.isStopping = true) : NoneUncounted cfg s' := by
  obtain ⟨_, moves⟩ := step_cases step
  cases moves with
  | thread moves => exact quiet_thread counts placed counts' moves quiet settled stopping
  | external => exact quiet (schedule_isStopping stopping)
  | create => exact quiet stopping
  | stop moves => exact quiet_stop placed moves flagged quiet settled stopping

/-! ## The condition is exact -/

/-- A step that does not meet the condition makes `stopping()` true too early. -/
theorem not_quiet_step (counts : Counts cfg s) (placed : Placed cfg s) (flagged : Flagged s)
    (unsettled : ¬ Settled cfg s a) (step : step cfg s a = some s') :
    s'.sh.isStopping = true ∧ ¬ NoneUncounted cfg s' := by
  obtain ⟨_, moves⟩ := step_cases step
  have positive : ∀ t, (s.thr t).pc.active = true → t ∈ cfg.threads → 0 < s.sh.active := by
    intro t marked among
    rw [counts.active]
    exact card_threadsAt_pos among marked
  cases moves with
  | @thread t m th sh moves =>
    have among := placed.mover moves
    cases m with
    | user u => exact (unsettled trivial).elim
    | next =>
      rcases not_and_or.mp unsettled with dec | skip
      · obtain ⟨⟨b, f, pc⟩, last⟩ := Classical.not_imp.mp dec
        have counted := positive t (by rw [pc]; rfl) among
        obtain ⟨rfl, rfl⟩ := moves.at_dec pc
        refine ⟨(isStopping_decr counted).trans (Bool.eq_true_of_not_eq_false last), fun none => ?_⟩
        have own := none t among
        simp [Pc.uncounted] at own
      · obtain ⟨pc, rest⟩ := Classical.not_imp.mp skip
        obtain ⟨last, some⟩ := Classical.not_imp.mp rest
        have counted := positive t (by rw [pc]; rfl) among
        obtain ⟨rfl, rfl⟩ := moves.at_skip pc
        refine ⟨(isStopping_decr counted).trans last, fun none => some fun u member => ?_⟩
        by_cases same : u = t
        · rw [same, pc]
          rfl
        · simpa only [Function.update_of_ne same] using none u member
  | external | create => exact (unsettled trivial).elim
  | stop moves =>
    obtain ⟨pc, rest⟩ := Classical.not_imp.mp unsettled
    obtain ⟨queue, rest⟩ := Classical.not_imp.mp rest
    obtain ⟨active, some⟩ := Classical.not_imp.mp rest
    cases moves with
    | setStopping =>
      exact ⟨isStopping_iff.mpr ⟨flagged.after (by simp [pc]), rfl, queue, active⟩, some⟩
    | pass before => rcases before with before | before <;> simp [pc] at before
    | _ => simp_all

/-- **Quiescence.** In a run whose steps are all settled, `stopping()` is true
only when no work is left; and a step of such a run that is not settled leads to
a state in which `stopping()` is true and work is left. -/
theorem quiescence (small : cfg.threads.card < UInt64.size)
    (run : Guarded (step cfg) (Settled cfg) {} as s) :
    Quiescent cfg s ∧ ∀ a s', step cfg s a = some s' → ¬ Settled cfg s a → ¬ Quiescent cfg s' := by
  have counts := Counts.run small run
  constructor
  · refine (quiescent_iff counts).mpr (run.invariant (I := fun s => s.sh.isStopping = true → NoneUncounted cfg s) ?_ ?_)
    · exact fun _ _ _ => rfl
    · intro as s a s' before quiet settled step stopping
      exact quiet_step (Counts.run small before) (Placed.run before) (Flagged.run before)
        (Counts.run small (before.snoc settled step)) quiet settled step stopping
  · intro a s' step unsettled quiet
    obtain ⟨stopping, some⟩ := not_quiet_step counts (Placed.run run) (Flagged.run run) unsettled step
    have counts' := counts.step (Placed.run run) small step
    exact some ((quiescent_iff counts').mp quiet stopping)

/-- A fiber is executed to its end, and `stop()` called afterwards. -/
def quietAfter : List Act :=
  [.create, .external (.one (.fiber 0) none)] ++ List.replicate 4 (.thread 1 .next) ++ [.thread 1 (.user .ret)] ++
    List.replicate 3 (.thread 1 .next) ++ List.replicate 3 .stop

theorem quiescence_quietAfter :
    twoWorkers.threads.card < UInt64.size ∧
      ∃ s : State, Guarded (step twoWorkers) (Settled twoWorkers) {} quietAfter s ∧ s.sh.isStopping = true ∧
        Quiescent twoWorkers s := by
  have small : twoWorkers.threads.card < UInt64.size := by decide
  obtain ⟨s, run, stopping⟩ := Guarded.of_any
    (show (execIf (step twoWorkers) (Settled twoWorkers) {} quietAfter).any (fun s => s.sh.isStopping) from
      by decide +kernel)
  exact ⟨small, s, run, stopping, (quiescence small run).1⟩

/-- Fiber 0 yields `READY` after `stop()` has set its flags, and its thread has
executed the decrement. -/
def quietTooEarly : List Act :=
  [.create, .external (.one (.fiber 0) none)] ++ List.replicate 4 (.thread 1 .next) ++ List.replicate 3 .stop ++
    [.thread 1 (.user .yieldReady)] ++ List.replicate 3 (.thread 1 .next)

/-- `stopping()` is true while `run()` is about to queue fiber 0 again. -/
theorem not_quiescence :
    ∃ s : State, exec (step twoWorkers) {} quietTooEarly = some s ∧ s.sh.isStopping = true ∧
      Waits twoWorkers s 0 ∧ (s.thr 1).pc.handles = true := by
  obtain ⟨s, run, test⟩ := exec_of_any
    (show (exec (step twoWorkers) {} quietTooEarly).any (fun s =>
      s.sh.isStopping = true ∧ (s.thr 1).pc = .requeue .fiber 0) from by decide +kernel)
  obtain ⟨stopping, pc⟩ := of_decide_eq_true test
  exact ⟨s, run, stopping, ⟨1, by decide, .fiber, .inl pc⟩, by rw [pc]; rfl⟩

end Atpdxy.Sched
