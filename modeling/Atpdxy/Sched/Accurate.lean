import Atpdxy.Sched.Exclusive

/-!
# The state of a fiber that executes is `EXEC`

`Fiber::m_state` is written by the thread that refers to the fiber, without a
lock. `Thread.Accurate` says what the thread knows about it at each place of
`run()`; a step of another thread cannot touch it, by `Owned.single` and
`Moves.frame`.

`atomicStep` is the coarser system in which the announcement of a yield and the
switch-out are one step. It hides the early resume of `Exclusive`, not the
writes `run()` makes after the switch: a fiber that has scheduled itself can be
resumed by a second thread while the first is still about to write `HOLD`
(`staleHold`).
-/

namespace Atpdxy.Sched

open Run

variable {cfg : Setup} {t u : Tid} {m : Move} {th th' : Thread} {sh sh' : Shared} {s s' : State} {a : Act} {f : FiberId}
  {as : List Act}

/-! ## Yields as one step -/

/-- The fiber has announced a yield and not yet switched out. -/
def Pc.leaves : Pc → Bool
  | .leaving _ _ false => true
  | _ => false

/-- A step, and the switch-out of a yield with it. -/
def atomicStep (cfg : Setup) (s : State) (a : Act) : Option State :=
  (step cfg s a).bind fun s' =>
    match a with
    | .thread t _ => if (s'.thr t).pc.leaves then step cfg s' (.thread t .next) else some s'
    | _ => some s'

/-- No thread is between the announcement of a yield and the switch. -/
def Switched (s : State) : Prop := ∀ t, (s.thr t).pc.leaves = false

theorem Pc.leaves_iff {pc : Pc} : pc.leaves = true ↔ ∃ b f, pc = .leaving b f false := by
  unfold Pc.leaves
  split
  · simp
  · rename_i other
    simpa using other

theorem atomicStep_cases (moved : atomicStep cfg s a = some s') :
    (step cfg s a = some s' ∧ ∀ t m, a = .thread t m → (s'.thr t).pc.leaves = false) ∨
      ∃ t m mid, a = .thread t m ∧ step cfg s a = some mid ∧ (mid.thr t).pc.leaves = true ∧
        step cfg mid (.thread t .next) = some s' := by
  obtain ⟨mid, first, second⟩ := Option.bind_eq_some_iff.mp moved
  cases a with
  | thread t m =>
    dsimp only at second
    split at second
    · rename_i leaves
      exact .inr ⟨t, m, mid, rfl, first, leaves, second⟩
    · rename_i stays
      cases second
      refine .inl ⟨first, ?_⟩
      rintro _ _ ⟨⟩
      simpa using stays
  | external | create | stop => cases second; exact .inl ⟨first, fun _ _ other => by cases other⟩

/-- The switch-out dequeues nothing. -/
theorem FreeDequeue.of_leaves {m : Move} (leaves : (s.thr t).pc.leaves = true) :
    FreeDequeue cfg s (.thread t m) := by
  intro loop
  simp [loop, Pc.leaves] at leaves

/-- A run with atomic yields is a run. -/
theorem atomic_run (run : Guarded (atomicStep cfg) (FreeDequeue cfg) {} as s) :
    ∃ bs, Guarded (step cfg) (FreeDequeue cfg) {} bs s := by
  refine run.refine fun s a s' free moved => ?_
  rcases atomicStep_cases moved with ⟨step, _⟩ | ⟨t, m, mid, rfl, first, leaves, second⟩
  · exact ⟨_, .single free step⟩
  · exact ⟨_, (Guarded.single free first).snoc (.of_leaves leaves) second⟩

/-- After the announcement comes the switch. -/
theorem Moves.switched (moves : Moves cfg t th sh m th' sh') (leaves : th.pc.leaves = true) :
    th'.pc.leaves = false := by
  obtain ⟨b, f, pc⟩ := Pc.leaves_iff.mp leaves
  cases moves with
  | switchOut => rfl
  | _ => simp_all

/-- A step moves no thread but its own to an announcement. -/
theorem SystemMoves.others (moves : SystemMoves cfg s a s') (apart : ∀ m, a ≠ .thread t m)
    (stays : (s.thr t).pc.leaves = false) : (s'.thr t).pc.leaves = false := by
  have update : ∀ u th, (t = u → th.pc.leaves = false) → (Function.update s.thr u th t).pc.leaves = false := by
    intro u th own
    by_cases same : t = u
    · subst same; simpa using own rfl
    · simpa [same] using stays
  cases moves with
  | @thread u m => exact update u _ fun same => (apart m (by rw [same])).elim
  | external | create => exact stays
  | stop moves =>
    cases moves with
    | callRoot => exact update _ _ fun _ => rfl
    | _ => exact stays

theorem Switched.step (switched : Switched s) (moved : atomicStep cfg s a = some s') : Switched s' := by
  intro t
  rcases atomicStep_cases moved with ⟨first, stays⟩ | ⟨u, m, mid, rfl, first, leaves, second⟩
  · by_cases own : ∃ m, a = .thread t m
    · obtain ⟨m, same⟩ := own
      exact stays t m same
    · exact (step_cases first).2.others (fun m same => own ⟨m, same⟩) (switched t)
  · by_cases same : t = u
    · subst same
      cases (step_cases second).2 with
      | thread moves => simpa using moves.switched leaves
    · have apart : ∀ m' m, Act.thread u m' ≠ .thread t m := by
        rintro m' m ⟨⟩
        exact same rfl
      exact (step_cases second).2.others (apart _) ((step_cases first).2.others (apart m) (switched t))

theorem Switched.run (run : Guarded (atomicStep cfg) (FreeDequeue cfg) {} as s) : Switched s :=
  run.invariant (fun _ => rfl) fun _ _ _ _ _ switched _ step => switched.step step

/-! ## What a thread knows of its fibers -/

/-- The fiber of the current switch, from before `swapIn` to the last write
after it, and its branch. -/
def Pc.switch : Pc → Option (Branch × FiberId)
  | .enter b f | .running b f | .leaving b f _ | .dec b f | .settle b f | .requeue b f | .setHold b f =>
    some (b, f)
  | .resetCb c => some (.cb, c)
  | _ => none

/-- What a thread knows of the fibers it refers to. -/
structure Thread.Accurate (th : Thread) (sh : Shared) : Prop where
  running : ∀ b f, th.pc = .running b f → (sh.fibers f).state = .exec
  ended : ∀ b f, th.pc = .leaving b f true → (sh.fibers f).state.ended = true
  back : ∀ b f, (∃ last, th.pc = .leaving b f last) ∨ th.pc = .dec b f ∨ th.pc = .settle b f →
    (sh.fibers f).state ≠ .init
  holding : ∀ b f, th.pc = .setHold b f → (sh.fibers f).state.resettable = false
  resetting : ∀ c, th.pc = .resetCb c → (sh.fibers c).state.ended = true
  /-- between callbacks `cb_fiber` has the empty function; scheduled by a
  callback that kept a pointer to it, it can only throw -/
  kept : ∀ c, th.cbFiber = some c → th.pc.switch = some (.cb, c) ∨
    ((sh.fibers c).cb = .null ∧ ((sh.fibers c).state.resettable = true ∨ th.pc = .running .fiber c))

theorem FiberState.resettable_of_ended {st : FiberState} (ended : st.ended = true) : st.resettable = true := by
  cases st <;> simp_all [FiberState.ended, FiberState.resettable]

theorem Moves.accurate_running (moves : Moves cfg t th sh m th' sh') (acc : th.Accurate sh) {b : Branch}
    (pc : th'.pc = .running b f) : (sh'.fibers f).state = .exec := by
  have running := acc.running
  cases moves with
  | begin | resume => cases pc; simp
  | _ => simp_all

theorem Moves.accurate_ended (moves : Moves cfg t th sh m th' sh') (acc : th.Accurate sh) {b : Branch}
    (pc : th'.pc = .leaving b f true) : (sh'.fibers f).state.ended = true := by
  have ended := acc.ended
  cases moves with
  | ret | throw => cases pc; simp [FiberState.ended]
  | _ => simp_all

theorem Moves.accurate_back (moves : Moves cfg t th sh m th' sh') (acc : th.Accurate sh) {b : Branch}
    (pc : (∃ last, th'.pc = .leaving b f last) ∨ th'.pc = .dec b f ∨ th'.pc = .settle b f) :
    (sh'.fibers f).state ≠ .init := by
  have back := acc.back
  cases moves with
  | yield _ _ _ kind => rcases kind with ⟨_, rfl⟩ | ⟨_, rfl⟩ <;> simp_all
  | failReset => exact back b f pc
  | _ => simp_all

theorem Moves.accurate_holding (moves : Moves cfg t th sh m th' sh') (acc : th.Accurate sh) {b : Branch}
    (pc : th'.pc = .setHold b f) : (sh'.fibers f).state.resettable = false := by
  have back := acc.back
  have holding := acc.holding
  cases moves with
  | @settleHold b' f' settle state live =>
    cases pc
    have started := back b f (.inr (.inr settle))
    cases same : (sh.fibers f).state <;> simp_all [FiberState.ended, FiberState.resettable]
  | _ => simp_all

theorem Moves.accurate_resetting (moves : Moves cfg t th sh m th' sh') (acc : th.Accurate sh) {c : FiberId}
    (pc : th'.pc = .resetCb c) : (sh'.fibers c).state.ended = true := by
  have resetting := acc.resetting
  cases moves with
  | _ => simp_all

theorem Moves.accurate_kept (moves : Moves cfg t th sh m th' sh') (acc : th.Accurate sh) {c : FiberId}
    (kept' : th'.cbFiber = some c) : th'.pc.switch = some (.cb, c) ∨
    ((sh'.fibers c).cb = .null ∧ ((sh'.fibers c).state.resettable = true ∨ th'.pc = .running .fiber c)) := by
  have kept := acc.kept c
  have self : ∀ x : Fiber, (Function.update sh.fibers c x) c = x := fun x => Function.update_self ..
  cases moves with
  | reuse _ _ same => exact .inl (by simp_all [Pc.switch])
  | make => exact .inl (by simp_all [Pc.switch])
  | settleCb => simp_all [Pc.switch]
  | @begin b f | @resume b f | @switchOut b f =>
    by_cases same : f = c
    · subst same; cases b <;> simp_all [Pc.switch]
    · simp_all [Pc.switch, Ne.symm same]
  | @requeue b f =>
    cases b <;> simp_all [Pc.switch, Thread.release]
  | @setHold b f pc =>
    have holding := acc.holding b f pc
    cases b
    · by_cases same : f = c
      · subst same; simp_all [Pc.switch, Thread.release]
      · simp_all [Pc.switch, Thread.release, Ne.symm same]
    · simp_all [Thread.release]
  | @resetCb f =>
    by_cases same : f = c
    · subst same; simp_all [Pc.switch, Fiber.new, FiberState.resettable]
    · simp_all [Pc.switch, Ne.symm same]
  | @yield b f _ _ pc | @ret b f pc | @throw b f pc =>
    by_cases same : f = c
    · subst same; cases b <;> simp_all [Pc.switch, FiberState.resettable]
    · simp_all [Pc.switch, Ne.symm same]
  | @dec b f | @settleReady b f | @settleHold b f => cases b <;> simp_all [Pc.switch]
  | failReset => simp_all
  | _ => simp_all [Pc.switch]

theorem Moves.staysAccurate (moves : Moves cfg t th sh m th' sh') (acc : th.Accurate sh) : th'.Accurate sh' where
  running _ _ pc := moves.accurate_running acc pc
  ended _ _ pc := moves.accurate_ended acc pc
  back _ _ pc := moves.accurate_back acc pc
  holding _ _ pc := moves.accurate_holding acc pc
  resetting _ pc := moves.accurate_resetting acc pc
  kept _ kept := moves.accurate_kept acc kept

/-- What a thread knows depends on the fibers it refers to only. -/
theorem Thread.Accurate.frame (acc : th.Accurate sh) (same : ∀ f, th.Holds f → sh'.fibers f = sh.fibers f) :
    th.Accurate sh' where
  running b f pc := by
    rw [same f (.inl (by simp [pc, Pc.refs]))]
    exact acc.running b f pc
  ended b f pc := by
    rw [same f (.inl (by simp [pc, Pc.refs]))]
    exact acc.ended b f pc
  back b f pc := by
    rw [same f (.inl (by rcases pc with ⟨_, pc⟩ | pc | pc <;> simp [pc, Pc.refs]))]
    exact acc.back b f pc
  holding b f pc := by
    rw [same f (.inl (by simp [pc, Pc.refs]))]
    exact acc.holding b f pc
  resetting c pc := by
    rw [same c (.inl (by simp [pc, Pc.refs]))]
    exact acc.resetting c pc
  kept c kept := by
    rw [same c (.inr kept)]
    exact acc.kept c kept

theorem Thread.Accurate.fresh (pc : Pc) (outside : pc.switch = none) : ({ pc } : Thread).Accurate sh where
  running b f pc := by cases pc; cases outside
  ended b f pc := by cases pc; cases outside
  back b f pc := by rcases pc with ⟨_, pc⟩ | pc | pc <;> cases pc <;> cases outside
  holding b f pc := by cases pc; cases outside
  resetting c pc := by cases pc; cases outside
  kept c kept := by cases kept

theorem accurate_step (owned : Owned cfg s) (acc : ∀ t, (s.thr t).Accurate s.sh)
    (step : step cfg s a = some s') (u : Tid) : (s'.thr u).Accurate s'.sh := by
  obtain ⟨_, moves⟩ := step_cases step
  cases moves with
  | @thread t m th sh moves =>
    by_cases same : u = t
    · subst same
      simpa using moves.staysAccurate (acc u)
    · simp only [Function.update_of_ne same]
      refine (acc u).frame fun f held => moves.frame (fun other => ?_) (owned.held u f held)
      exact same (owned.single u t f held other)
  | external => exact (acc u).frame fun f _ => by simp
  | create => exact (acc u).frame fun f _ => rfl
  | stop moves =>
    cases moves with
    | @callRoot r pc root =>
      by_cases same : u = r
      · subst same
        have waiting := owned.waiting (by rw [pc]; rfl) u root
        simpa [waiting] using Thread.Accurate.fresh .loop rfl
      · simpa [Function.update_of_ne same] using acc u
    | _ => exact (acc u).frame fun f _ => rfl

theorem accurate_run (run : Guarded (step cfg) (FreeDequeue cfg) {} as s) :
    ∀ t, (s.thr t).Accurate s.sh :=
  run.invariant (fun _ => .fresh .entry rfl) fun _ _ _ _ before acc _ step =>
    accurate_step (Owned.run before) acc step

theorem Moves.noAssertion {e : Assertion} (moves : Moves cfg t th sh m th' sh') (acc : th.Accurate sh)
    (ok : th.IdleOk) (alive : sh.failed = none) (kind : e = .yield ∨ e = .reset) : sh'.failed ≠ some e := by
  cases moves with
  | failYield pc state => exact (state (acc.running _ _ pc)).elim
  | failIdleYield pc idle => exact (idle (ok.mpr pc)).elim
  | failReset kept state =>
    rcases kept with pc | ⟨⟨ft, pc, _⟩, kept⟩
    · rw [FiberState.resettable_of_ended (acc.resetting _ pc)] at state
      cases state
    · rcases acc.kept _ kept with handled | ⟨_, resettable | running⟩
      · simp [pc, Pc.switch] at handled
      · rw [resettable] at state
        cases state
      · simp [pc] at running
  | failSwapIn | failIdle | failNeverReach => rcases kind with rfl | rfl <;> simp
  | _ => simp [alive]

theorem noAssertion_run {e : Assertion} (run : Guarded (step cfg) (FreeDequeue cfg) {} as s)
    (kind : e = .yield ∨ e = .reset) : s.sh.failed ≠ some e := by
  cases run with
  | refl => simp
  | snoc run _ step =>
    obtain ⟨alive, moves⟩ := step_cases step
    exact moves.failed alive fun t _ _ _ moves =>
      moves.noAssertion (accurate_run run t) ((Owned.run run).idle t) alive kind

/-- **Fiber states are accurate.** While yields are one step and every dequeue
takes a fiber to which no other thread refers, a fiber that executes is in
`EXEC` up to its end, the assertions of the yields and of `reset` hold, and a
fiber that `run()` still handles is executed by no other thread. -/
theorem accurate (run : Guarded (atomicStep cfg) (FreeDequeue cfg) {} as s) :
    (∀ t f, (s.thr t).Executes f → (s.sh.fibers f).state = .exec ∨
      (∃ b, (s.thr t).pc = .leaving b f true) ∧ (s.sh.fibers f).state.ended = true) ∧
    s.sh.failed ≠ some .yield ∧ s.sh.failed ≠ some .reset ∧
    ∀ t u b f, (s.thr t).pc.switch = some (b, f) → (s.thr u).Executes f → u = t := by
  obtain ⟨bs, fine⟩ := atomic_run run
  have owned := Owned.run fine
  have acc := accurate_run fine
  refine ⟨?_, noAssertion_run fine (.inl rfl), noAssertion_run fine (.inr rfl), ?_⟩
  · rintro t f ⟨b, pc | ⟨last, pc⟩⟩
    · exact .inl ((acc t).running b f pc)
    · cases last with
      | true => exact .inr ⟨⟨b, pc⟩, (acc t).ended b f pc⟩
      | false =>
        have switched := Switched.run run t
        rw [pc] at switched
        cases switched
  · intro t u b f handled executes
    refine owned.single u t f executes.holds (.inl ?_)
    cases pc : (s.thr t).pc <;> simp_all [Pc.switch, Pc.refs]

/-- Fiber 0 schedules itself, yields, and is taken by thread 2 once thread 1 has
written `HOLD`. -/
def settledHandOver : List Act :=
  [.create, .external (.one (.fiber 0) none), .thread 1 .next, .thread 2 .next, .thread 1 .next,
    .thread 1 .next, .thread 1 .next, .thread 1 (.user (.schedule (.one (.fiber 0) none))),
    .thread 1 (.user .yieldHold), .thread 1 .next, .thread 1 .next, .thread 1 .next,
    .thread 2 .next, .thread 2 .next, .thread 2 .next]

theorem accurate_settledHandOver :
    ∃ s : State, exec (atomicStep twoWorkers) {} settledHandOver = some s ∧ (s.thr 2).Executes 0 ∧
      (∀ t f, (s.thr t).Executes f → (s.sh.fibers f).state = .exec ∨
        (∃ b, (s.thr t).pc = .leaving b f true) ∧ (s.sh.fibers f).state.ended = true) ∧
      s.sh.failed ≠ some .yield ∧ s.sh.failed ≠ some .reset ∧
      ∀ t u b f, (s.thr t).pc.switch = some (b, f) → (s.thr u).Executes f → u = t := by
  obtain ⟨s, run, executes⟩ := Guarded.of_any
    (show (execIf (atomicStep twoWorkers) (FreeDequeue twoWorkers) {} settledHandOver).any
      (fun s => (s.thr 2).pc = .running .fiber 0) from by decide +kernel)
  exact ⟨s, run.exec_eq, ⟨.fiber, .inl (by simpa using executes)⟩, accurate run⟩

/-- No fiber has two entries. -/
def OneEntry (s : State) : Prop := (s.sh.queue.filterMap Task.fiber).Nodup

instance : Decidable (OneEntry s) := inferInstanceAs (Decidable (List.Nodup _))

/-- The same, but thread 2 takes the fiber before thread 1 writes `HOLD`. -/
def staleHold : List Act :=
  [.create, .external (.one (.fiber 0) none), .thread 1 .next, .thread 2 .next, .thread 1 .next,
    .thread 1 .next, .thread 1 .next, .thread 1 (.user (.schedule (.one (.fiber 0) none))),
    .thread 1 (.user .yieldHold), .thread 1 .next, .thread 1 .next, .thread 2 .next, .thread 2 .next,
    .thread 2 .next, .thread 1 .next]

/-- One entry for each fiber and atomic yields are not enough: a fiber executes
in state `HOLD`, and its next yield fails its assertion. -/
theorem not_accurate :
    ∃ s, Guarded (atomicStep twoWorkers) (fun s _ => OneEntry s) {} staleHold s ∧ OneEntry s ∧
      ((s.thr 2).pc = .running .fiber 0 ∧ (s.sh.fibers 0).state = .hold) ∧
      ∃ s', atomicStep twoWorkers s (.thread 2 (.user .yieldHold)) = some s' ∧
        s'.sh.failed = some .yield := by
  obtain ⟨s, run, test⟩ := Guarded.of_any
    (show (execIf (atomicStep twoWorkers) (fun s _ => OneEntry s) {} staleHold).any (fun s =>
      OneEntry s ∧ ((s.thr 2).pc = .running .fiber 0 ∧ (s.sh.fibers 0).state = .hold) ∧
        (atomicStep twoWorkers s (.thread 2 (.user .yieldHold))).any
          fun s' => s'.sh.failed = some .yield) from by decide +kernel)
  obtain ⟨entries, held, fails⟩ := of_decide_eq_true test
  obtain ⟨s', failed⟩ := (Option.any_eq_true ..).mp fails
  exact ⟨s, run, entries, held, s', by simpa using failed⟩

end Atpdxy.Sched
