import Atpdxy.Sched.Step

/-!
# What a step can do

`Moves` lists the steps of a thread, one constructor for each arm of `run()`,
`idle()` and the fiber primitives, with the facts the arm has tested. Every
invariant of the scheduler is proved from it (`threadStep_cases`); nothing
below unfolds `threadStep` again.
-/

namespace Atpdxy.Sched

/-- The steps of thread `t`. -/
inductive Moves (cfg : Setup) (t : Tid) (th : Thread) (sh : Shared) : Move → Thread → Shared → Prop
  | start (pc : th.pc = .entry) (worker : t ∈ cfg.workers) : Moves cfg t th sh .next { th with pc := .loop } sh
  | take {ft : Task} {rest : List Task} (pc : th.pc = .loop)
      (found : dequeue t sh.fibers sh.queue = some (ft, rest)) :
      Moves cfg t th sh .next { th with pc := .dispatch (some ft) }
        { sh with queue := rest, active := incr sh.active }
  | miss (pc : th.pc = .loop) (found : dequeue t sh.fibers sh.queue = none) :
      Moves cfg t th sh .next { th with pc := .dispatch none } sh
  | enterFiber {ft : Task} {f : FiberId} (pc : th.pc = .dispatch (some ft)) (fiber : ft.fiber = some f)
      (live : (sh.fibers f).state.ended = false) :
      Moves cfg t th sh .next { th with pc := .enter .fiber f } sh
  | reuse {ft : Task} {k : Ticket} {c : FiberId} (pc : th.pc = .dispatch (some ft)) (cb : ft.cb = some k)
      (kept : th.cbFiber = some c) (resettable : (sh.fibers c).state.resettable = true) :
      Moves cfg t th sh .next { th with pc := .enter .cb c } (sh.setFiber c (.new (.callback k)))
  | make {ft : Task} {k : Ticket} (pc : th.pc = .dispatch (some ft)) (cb : ft.cb = some k)
      (kept : th.cbFiber = none) :
      Moves cfg t th sh .next { th with pc := .enter .cb sh.nextFiber, cbFiber := some sh.nextFiber }
        { sh.setFiber sh.nextFiber (.new (.callback k)) with nextFiber := sh.nextFiber + 1 }
  | finished {ft : Task} (pc : th.pc = .dispatch (some ft)) (cb : ft.cb = none) :
      Moves cfg t th sh .next { th with pc := .skip } sh
  | leave (pc : th.pc = .dispatch none) (idle : th.idle = .term) :
      Moves cfg t th sh .next { th with pc := .exited } sh
  | goIdle (pc : th.pc = .dispatch none) (idle : th.idle ≠ .term) :
      Moves cfg t th sh .next { th with pc := .idleEnter } sh
  | begin {b : Branch} {f : FiberId} (pc : th.pc = .enter b f) (state : (sh.fibers f).state ≠ .exec)
      (ctx : (sh.fibers f).ctx = .entry) :
      Moves cfg t th sh .next { th with pc := .running b f }
        { sh.setFiber f { sh.fibers f with state := .exec } with
          started := sh.started ++ (sh.fibers f).cb.begins }
  | resume {b : Branch} {f : FiberId} (pc : th.pc = .enter b f) (state : (sh.fibers f).state ≠ .exec)
      (ctx : (sh.fibers f).ctx = .saved) :
      Moves cfg t th sh .next { th with pc := .running b f } (sh.setFiber f { sh.fibers f with state := .exec })
  | switchOut {b : Branch} {f : FiberId} {last : Bool} (pc : th.pc = .leaving b f last) :
      Moves cfg t th sh .next { th with pc := .dec b f }
        (sh.setFiber f { sh.fibers f with ctx := if last then .finished else .saved })
  | dec {b : Branch} {f : FiberId} (pc : th.pc = .dec b f) :
      Moves cfg t th sh .next { th with pc := .settle b f } { sh with active := decr sh.active }
  | settleReady {b : Branch} {f : FiberId} (pc : th.pc = .settle b f) (state : (sh.fibers f).state = .ready) :
      Moves cfg t th sh .next { th with pc := .requeue b f } sh
  | settleFiber {f : FiberId} (pc : th.pc = .settle .fiber f)
      (state : (sh.fibers f).state.ended = true) :
      Moves cfg t th sh .next { th with pc := .loop } sh
  | settleCb {f : FiberId} (pc : th.pc = .settle .cb f) (state : (sh.fibers f).state.ended = true) :
      Moves cfg t th sh .next { th with pc := .resetCb f } sh
  | settleHold {b : Branch} {f : FiberId} (pc : th.pc = .settle b f) (state : (sh.fibers f).state ≠ .ready)
      (live : (sh.fibers f).state.ended = false) :
      Moves cfg t th sh .next { th with pc := .setHold b f } sh
  | requeue {b : Branch} {f : FiberId} (pc : th.pc = .requeue b f) :
      Moves cfg t th sh .next (th.release b) { sh with queue := sh.queue ++ [⟨some f, none, none⟩] }
  | setHold {b : Branch} {f : FiberId} (pc : th.pc = .setHold b f) :
      Moves cfg t th sh .next (th.release b) (sh.setFiber f { sh.fibers f with state := .hold })
  | resetCb {c : FiberId} (pc : th.pc = .resetCb c) (resettable : (sh.fibers c).state.resettable = true) :
      Moves cfg t th sh .next { th with pc := .loop } (sh.setFiber c (.new .null))
  | skip (pc : th.pc = .skip) :
      Moves cfg t th sh .next { th with pc := .loop } { sh with active := decr sh.active }
  | idleEnter (pc : th.pc = .idleEnter) :
      Moves cfg t th sh .next { th with pc := .idleSwap } { sh with idle := incr sh.idle }
  | idleSwap (pc : th.pc = .idleSwap) (idle : th.idle ≠ .exec) :
      Moves cfg t th sh .next { th with pc := .idling, idle := .exec } sh
  | idleTerm (pc : th.pc = .idling) (stopping : sh.isStopping = true) :
      Moves cfg t th sh .next { th with pc := .idleLeave, idle := .term } sh
  | idleYield (pc : th.pc = .idling) (idle : th.idle = .exec) :
      Moves cfg t th sh .next { th with pc := .idleLeave, idle := .hold } sh
  | idleLeave (pc : th.pc = .idleLeave) : Moves cfg t th sh .next { th with pc := .idleDec } sh
  | idleDec (pc : th.pc = .idleDec) :
      Moves cfg t th sh .next { th with pc := .idleSettle } { sh with idle := decr sh.idle }
  | idleSettle (pc : th.pc = .idleSettle) :
      Moves cfg t th sh .next { th with pc := .loop, idle := if th.idle.ended then th.idle else .hold } sh
  | failSwapIn {b : Branch} {f : FiberId} (pc : th.pc = .enter b f) (state : (sh.fibers f).state = .exec) :
      Moves cfg t th sh .next th (sh.fail .swapIn)
  | failIdle (pc : th.pc = .idleSwap) (idle : th.idle = .exec) : Moves cfg t th sh .next th (sh.fail .swapIn)
  | failReset {c : FiberId} (kept : th.pc = .resetCb c ∨ (∃ ft, th.pc = .dispatch (some ft) ∧ ft.cb.isSome) ∧
        th.cbFiber = some c)
      (state : (sh.fibers c).state.resettable = false) : Moves cfg t th sh .next th (sh.fail .reset)
  | failYield {b : Branch} {f : FiberId} {u : UserAct} (pc : th.pc = .running b f) (state : (sh.fibers f).state ≠ .exec) :
      Moves cfg t th sh (.user u) th (sh.fail .yield)
  | failIdleYield (pc : th.pc = .idling) (idle : th.idle ≠ .exec) : Moves cfg t th sh .next th (sh.fail .yield)
  | failNeverReach {b : Branch} {f : FiberId} (pc : th.pc = .enter b f) (ctx : (sh.fibers f).ctx = .finished) :
      Moves cfg t th sh .next th (sh.fail .neverReach)
  | yield {b : Branch} {f : FiberId} {st : FiberState} {u : UserAct} (pc : th.pc = .running b f)
      (state : (sh.fibers f).state = .exec) (cb : (sh.fibers f).cb ≠ .null)
      (kind : (u = .yieldReady ∧ st = .ready) ∨ (u = .yieldHold ∧ st = .hold)) :
      Moves cfg t th sh (.user u) { th with pc := .leaving b f false }
        (sh.setFiber f { sh.fibers f with state := st })
  | ret {b : Branch} {f : FiberId} (pc : th.pc = .running b f) (cb : (sh.fibers f).cb ≠ .null) :
      Moves cfg t th sh (.user .ret) { th with pc := .leaving b f true }
        (sh.setFiber f { sh.fibers f with state := .term, cb := .null })
  | throw {b : Branch} {f : FiberId} (pc : th.pc = .running b f) :
      Moves cfg t th sh (.user .throw) { th with pc := .leaving b f true }
        (sh.setFiber f { sh.fibers f with state := .except })
  | schedule {b : Branch} {f : FiberId} {r : Request} (pc : th.pc = .running b f) (known : r.known sh = true) :
      Moves cfg t th sh (.user (.schedule r)) th (Sched.schedule true sh r)

variable {cfg : Setup} {t : Tid} {m : Move} {th th' : Thread} {sh sh' : Shared}

theorem Moves.of_pair {p : Thread × Shared} (moves : Moves cfg t th sh m p.1 p.2)
    (step : some p = some (th', sh')) : Moves cfg t th sh m th' sh' := by
  cases Option.some.inj step
  exact moves

theorem prepare_cases {ft : Task} {k : Ticket} (pc : th.pc = .dispatch (some ft)) (cb : ft.cb = some k) :
    Moves cfg t th sh .next (prepare th sh k).1 (prepare th sh k).2 := by
  unfold prepare
  split
  · rename_i c kept
    split
    · rename_i state
      exact .reuse pc cb kept state
    · rename_i state
      exact .failReset (.inr ⟨⟨ft, pc, by simp [cb]⟩, kept⟩) (by simpa using state)
  · rename_i kept
    exact .make pc cb kept

theorem swapIn_cases {b : Branch} {f : FiberId} (pc : th.pc = .enter b f) :
    Moves cfg t th sh .next (swapIn th sh b f).1 (swapIn th sh b f).2 := by
  unfold swapIn
  dsimp only
  split
  · rename_i state
    exact .failSwapIn pc state
  · rename_i state
    split
    · rename_i ctx
      exact .begin pc state ctx
    · rename_i ctx
      exact .resume pc state ctx
    · rename_i ctx
      exact .failNeverReach pc ctx

theorem settle_cases {b : Branch} {f : FiberId} (pc : th.pc = .settle b f) :
    Moves cfg t th sh .next (settle th sh b f) sh := by
  unfold settle
  dsimp only
  split
  · rename_i state
    exact .settleReady pc state
  · rename_i state
    split
    · rename_i ended
      cases b with
      | fiber => exact .settleFiber pc ended
      | cb => exact .settleCb pc ended
    · rename_i live
      exact .settleHold pc state (by simpa using live)

theorem yieldTo_cases {b : Branch} {f : FiberId} {st : FiberState} {u : UserAct} (pc : th.pc = .running b f)
    (cb : (sh.fibers f).cb ≠ .null)
    (kind : (u = .yieldReady ∧ st = .ready) ∨ (u = .yieldHold ∧ st = .hold)) :
    Moves cfg t th sh (.user u) (yieldTo st th sh b f).1 (yieldTo st th sh b f).2 := by
  unfold yieldTo
  split
  · rename_i state
    exact .yield pc state cb kind
  · rename_i state
    exact .failYield pc state

theorem nextStep_cases (step : nextStep cfg t th sh = some (th', sh')) : Moves cfg t th sh .next th' sh' := by
  unfold nextStep at step
  split at step <;> rename_i pc
  case h_1 =>
    split at step
    · rename_i worker; cases step; exact .start pc worker
    · cases step
  case h_2 =>
    split at step <;> rename_i found <;> cases step
    · exact .take pc found
    · exact .miss pc found
  case h_3 ft =>
    split at step
    · rename_i f live
      cases step
      obtain ⟨fiber, live⟩ := Option.filter_eq_some_iff.mp live
      exact .enterFiber pc fiber (by simpa using live)
    · split at step <;> rename_i cb
      · exact (prepare_cases pc cb).of_pair step
      · cases step; exact .finished pc cb
  case h_4 =>
    split at step <;> rename_i idle <;> cases step
    · exact .leave pc idle
    · exact .goIdle pc idle
  case h_5 => exact (swapIn_cases pc).of_pair step
  case h_6 => cases step
  case h_7 => cases step; exact .switchOut pc
  case h_8 => cases step; exact .dec pc
  case h_9 => cases step; exact settle_cases pc
  case h_10 => cases step; exact .requeue pc
  case h_11 => cases step; exact .setHold pc
  case h_12 =>
    split at step <;> rename_i state <;> cases step
    · exact .resetCb pc state
    · exact .failReset (.inl pc) (by simpa using state)
  case h_13 => cases step; exact .skip pc
  case h_14 => cases step; exact .idleEnter pc
  case h_15 =>
    split at step <;> rename_i idle <;> cases step
    · exact .failIdle pc idle
    · exact .idleSwap pc idle
  case h_16 =>
    split at step
    · rename_i stopping; cases step; exact .idleTerm pc stopping
    · split at step <;> rename_i idle <;> cases step
      · exact .idleYield pc idle
      · exact .failIdleYield pc idle
  case h_17 => cases step; exact .idleLeave pc
  case h_18 => cases step; exact .idleDec pc
  case h_19 => cases step; exact .idleSettle pc
  case h_20 => cases step

theorem userStep_cases {u : UserAct} (step : userStep th sh u = some (th', sh')) :
    Moves cfg t th sh (.user u) th' sh' := by
  unfold userStep at step
  split at step
  · rename_i b f pc
    dsimp only at step
    split at step
    · cases step; exact .throw pc
    · split at step
      · cases step
      · rename_i cb; cases step; exact .ret pc cb
    · split at step
      · cases step
      · rename_i cb
        exact (yieldTo_cases pc cb (.inl ⟨rfl, rfl⟩)).of_pair step
    · split at step
      · cases step
      · rename_i cb
        exact (yieldTo_cases pc cb (.inr ⟨rfl, rfl⟩)).of_pair step
    · split at step
      · rename_i met; cases step; exact .schedule pc met.2
      · cases step
  · cases step

/-- The inversion of a thread's step. -/
theorem threadStep_cases (step : threadStep cfg t th sh m = some (th', sh')) :
    Moves cfg t th sh m th' sh' := by
  cases m with
  | next => exact nextStep_cases step
  | user u => exact userStep_cases step

/-! ## The caller of `stop()` and the system -/

/-- The steps of `stop()`. Only `call` of the root fiber touches a thread. -/
inductive StopMoves (cfg : Setup) (s : State) : State → Prop
  | call (pc : s.stop = .notCalled) :
      StopMoves cfg s { s with stop := .first, sh := { s.sh with autoStop := true } }
  | first (pc : s.stop = .first) (root : cfg.rootThread.isSome) (none : cfg.workers = ∅) :
      StopMoves cfg s { s with stop := .firstStopping, sh := { s.sh with stopping := true } }
  | pass (pc : s.stop = .first ∨ s.stop = .firstStopping) : StopMoves cfg s { s with stop := .setStopping }
  | early (pc : s.stop = .firstStopping) (stopping : s.sh.isStopping = true) :
      StopMoves cfg s { s with stop := .returned }
  | setStopping (pc : s.stop = .setStopping) :
      StopMoves cfg s { s with stop := .test, sh := { s.sh with stopping := true } }
  | noRoot (pc : s.stop = .test) (root : cfg.rootThread = none) : StopMoves cfg s { s with stop := .join }
  | skipRoot {r : Tid} (pc : s.stop = .test) (root : cfg.rootThread = some r)
      (stopping : s.sh.isStopping = true) : StopMoves cfg s { s with stop := .join }
  | callRoot {r : Tid} (pc : s.stop = .test) (root : cfg.rootThread = some r) :
      StopMoves cfg s { s with
        stop := .inRoot
        root := .exec
        thr := Function.update s.thr r { s.thr r with pc := .loop } }
  | backRoot (pc : s.stop = .inRoot) (left : ∀ r ∈ cfg.rootThread, (s.thr r).pc = .exited) :
      StopMoves cfg s { s with stop := .join, root := .term }
  | join (pc : s.stop = .join) (joined : ∀ t ∈ cfg.workers, (s.thr t).pc = .exited) :
      StopMoves cfg s { s with stop := .returned }

theorem stopStep_cases {s s' : State} (step : stopStep cfg s = some s') : StopMoves cfg s s' := by
  unfold stopStep at step
  split at step <;> rename_i pc
  case h_1 => cases step; exact .call pc
  case h_2 =>
    split at step
    · rename_i met; cases step; exact .first pc met.1 met.2.1
    · cases step; exact .pass (.inl pc)
  case h_3 =>
    cases step
    split
    · rename_i stopping; exact .early pc stopping
    · exact .pass (.inr pc)
  case h_4 => cases step; exact .setStopping pc
  case h_5 =>
    split at step
    · rename_i root; cases step; exact .noRoot pc root
    · rename_i r root
      split at step <;> cases step
      · rename_i stopping; exact .skipRoot pc root stopping
      · exact .callRoot pc root
  case h_6 =>
    split at step
    · rename_i left
      cases step
      exact .backRoot pc fun r root => by simpa [Option.mem_def.mp root] using left
    · cases step
  case h_7 =>
    split at step
    · rename_i joined; cases step; exact .join pc joined
    · cases step
  case h_8 => cases step

/-- The steps of the system. -/
inductive SystemMoves (cfg : Setup) (s : State) : Act → State → Prop
  | thread {t : Tid} {m : Move} {th : Thread} {sh : Shared} (moves : Moves cfg t (s.thr t) s.sh m th sh) :
      SystemMoves cfg s (.thread t m) { s with thr := Function.update s.thr t th, sh }
  | external {r : Request} (known : r.known s.sh = true) :
      SystemMoves cfg s (.external r) { s with sh := schedule (s.stop == .notCalled) s.sh r }
  | create : SystemMoves cfg s .create { s with sh := { s.sh with nextFiber := s.sh.nextFiber + 1 } }
  | stop {s' : State} (moves : StopMoves cfg s s') : SystemMoves cfg s .stop s'

/-- The inversion of a step of the system. -/
theorem step_cases {s s' : State} {a : Act} (step : step cfg s a = some s') :
    s.sh.failed = none ∧ SystemMoves cfg s a s' := by
  unfold Sched.step at step
  split at step
  · cases step
  · rename_i alive
    refine ⟨by simpa using alive, ?_⟩
    split at step
    · obtain ⟨⟨th, sh⟩, moved, rfl⟩ := Option.map_eq_some_iff.mp step
      exact .thread (threadStep_cases moved)
    · split at step
      · rename_i known; cases step; exact .external known
      · cases step
    · cases step; exact .create
    · exact .stop (stopStep_cases step)

end Atpdxy.Sched
