import Mathlib.Algebra.BigOperators.Group.Finset.Piecewise
import Mathlib.Data.Finset.Card
import Mathlib.Tactic.Common
import Atpdxy.Sched.Exclusive

/-!
# What the two counters count

`m_activeThreadCount` goes up in the dequeue and down at three places of
`run()`; `m_idleThreadCount` goes up before the switch into the idle fiber and
down after it. `Tally` relates a step of one thread to a counter, and
`Tally.keep` is the step lemma: a counter that moves as its marked positions do
counts the threads at them. Nothing here restricts the dequeues, so it holds of
runs in which a fiber is executed twice as well.
-/

namespace Atpdxy.Sched

open Run

variable {cfg : Setup} {t u : Tid} {m : Move} {th th' : Thread} {sh sh' : Shared} {s s' : State} {a : Act}
  {as : List Act}

/-- The thread has dequeued a task and not yet executed `--m_activeThreadCount`. -/
def Pc.active : Pc → Bool
  | .dispatch (some _) | .enter _ _ | .running _ _ | .leaving _ _ _ | .dec _ _ | .skip => true
  | _ => false

/-- Between `++m_idleThreadCount` and `--m_idleThreadCount`. -/
def Pc.idle : Pc → Bool
  | .idleSwap | .idling | .idleLeave | .idleDec => true
  | _ => false

/-- On the stack of the idle fiber, from the switch in to the switch out. -/
def Pc.insideIdle : Pc → Bool
  | .idling | .idleLeave => true
  | _ => false

/-- The scheduler's threads at a marked position. -/
def threadsAt (cfg : Setup) (mark : Pc → Bool) (thr : Tid → Thread) : Finset Tid :=
  cfg.threads.filter fun t => mark (thr t).pc

/-! ## One counter -/

/-- How a counter moves when one thread goes from a position to the next; the
Booleans say whether the positions are marked. -/
inductive Tally : Bool → Bool → Nat → Nat → Prop
  | stay {b : Bool} {n : Nat} : Tally b b n n
  | enter {n : Nat} : Tally false true n (incr n)
  | leave {n : Nat} : Tally true false n (decr n)

/-- Moving one thread changes the number by that thread. -/
theorem card_threadsAt_update (mark : Pc → Bool) (thr : Tid → Thread) (th : Thread) (among : t ∈ cfg.threads) :
    (threadsAt cfg mark (Function.update thr t th)).card + (mark (thr t).pc).toNat =
      (threadsAt cfg mark thr).card + (mark th.pc).toNat := by
  have sum : ∀ f : Tid → Thread, (threadsAt cfg mark f).card = ∑ u ∈ cfg.threads, (mark (f u).pc).toNat := by
    intro f
    rw [threadsAt, Finset.card_filter]
    refine Finset.sum_congr rfl fun u _ => ?_
    cases mark (f u).pc <;> rfl
  have first := Finset.add_sum_erase _ (fun u => (mark (Function.update thr t th u).pc).toNat) among
  have second := Finset.add_sum_erase _ (fun u => (mark (thr u).pc).toNat) among
  have others : ∑ u ∈ cfg.threads.erase t, (mark (Function.update thr t th u).pc).toNat =
      ∑ u ∈ cfg.threads.erase t, (mark (thr u).pc).toNat := by
    refine Finset.sum_congr rfl fun u among => ?_
    rw [Function.update_of_ne (Finset.ne_of_mem_erase among)]
  simp only [Function.update_self] at first
  rw [sum, sum]
  omega

theorem card_threadsAt_le (mark : Pc → Bool) (thr : Tid → Thread) :
    (threadsAt cfg mark thr).card ≤ cfg.threads.card := Finset.card_filter_le _ _

/-- A counter that moves with its marks keeps the number of marked threads, and
does not wrap at either end. -/
theorem Tally.keep {mark : Pc → Bool} {thr : Tid → Thread} {n n' : Nat}
    (tally : Tally (mark (thr t).pc) (mark th.pc) n n') (among : t ∈ cfg.threads)
    (small : cfg.threads.card < UInt64.size) (count : n = (threadsAt cfg mark thr).card) :
    n' = (threadsAt cfg mark (Function.update thr t th)).card := by
  have moved := card_threadsAt_update mark thr th among
  have bound : (threadsAt cfg mark (Function.update thr t th)).card ≤ cfg.threads.card := card_threadsAt_le _ _
  generalize mark (thr t).pc = old at tally moved
  generalize mark th.pc = new at tally moved
  cases tally with
  | stay => omega
  | enter =>
    have up : n + 1 ≠ UInt64.size := by
      simp only [Bool.toNat_true, Bool.toNat_false] at moved
      omega
    simp only [incr, up, ↓reduceIte, Bool.toNat_true, Bool.toNat_false] at moved ⊢
    omega
  | leave =>
    have down : n ≠ 0 := by
      simp only [Bool.toNat_true, Bool.toNat_false] at moved
      omega
    simp only [decr, down, ↓reduceIte, Bool.toNat_true, Bool.toNat_false] at moved ⊢
    omega

/-- A marked thread makes the counter positive. -/
theorem card_threadsAt_pos {mark : Pc → Bool} {thr : Tid → Thread} (among : t ∈ cfg.threads)
    (marked : mark (thr t).pc = true) : 0 < (threadsAt cfg mark thr).card :=
  Finset.card_pos.mpr ⟨t, Finset.mem_filter.mpr ⟨among, marked⟩⟩

/-! ## The steps of a thread -/

@[simp] theorem schedule_active (owed : Bool) (sh : Shared) (r : Request) :
    (schedule owed sh r).active = sh.active ∧ (schedule owed sh r).idle = sh.idle ∧
      (schedule owed sh r).autoStop = sh.autoStop ∧ (schedule owed sh r).stopping = sh.stopping := by
  refine schedule_induct (P := fun sh' => sh'.active = sh.active ∧ sh'.idle = sh.idle ∧
    sh'.autoStop = sh.autoStop ∧ sh'.stopping = sh.stopping) ⟨rfl, rfl, rfl, rfl⟩ ?_
  rintro sh' ⟨fc, thread⟩ _ same
  cases fc <;> exact same

theorem Moves.active (moves : Moves cfg t th sh m th' sh') :
    Tally th.pc.active th'.pc.active sh.active sh'.active := by
  cases moves with
  | take pc | dec pc | skip pc =>
    simp only [pc, Pc.active]
    constructor
  | requeue pc | setHold pc =>
    simp only [pc, Pc.active, Thread.release_refs]
    exact .stay
  | schedule =>
    rw [(schedule_active true sh _).1]
    exact .stay
  | failReset => exact .stay
  | _ => simp_all only [Pc.active]; exact .stay

theorem Moves.idleCount (moves : Moves cfg t th sh m th' sh') :
    Tally th.pc.idle th'.pc.idle sh.idle sh'.idle := by
  cases moves with
  | idleEnter pc | idleDec pc =>
    simp only [pc, Pc.idle]
    constructor
  | requeue pc | setHold pc =>
    simp only [pc, Pc.idle, Thread.release_refs]
    exact .stay
  | schedule =>
    rw [(schedule_active true sh _).2.1]
    exact .stay
  | failReset => exact .stay
  | _ => simp_all only [Pc.idle]; exact .stay

/-! ## Who is in `run()`, and since when -/

/-- Which threads are where, whatever the dequeues take. -/
structure Placed (cfg : Setup) (s : State) : Prop where
  outside : ∀ t, t ∉ cfg.threads → s.thr t = {}
  /-- the root thread waits for `call()` -/
  waiting : s.stop.beforeRoot = true → ∀ r ∈ cfg.rootThread, s.thr r = {}
  exited : ∀ t, (s.thr t).pc = .exited → (s.thr t).idle = .term
  ended : ∀ t, (s.thr t).idle = .term → s.sh.autoStop = true
  called : s.sh.autoStop = true → s.stop ≠ .notCalled

theorem Placed.start : Placed cfg {} where
  outside _ _ := rfl
  waiting _ _ _ := rfl
  exited := nofun
  ended := nofun
  called := nofun

theorem Placed.mover (placed : Placed cfg s) (moves : Moves cfg t (s.thr t) s.sh m th sh) : t ∈ cfg.threads := by
  by_contra outside
  exact outside (Setup.worker_mem (moves.worker (by rw [placed.outside t outside])))

theorem Moves.inside_run (moves : Moves cfg t th sh m th' sh') : th.pc ≠ .exited := by
  intro exited
  cases moves with
  | failReset kept => simp [exited] at kept
  | _ => simp_all

/-- A thread leaves `run()` only after its idle fiber has ended. -/
theorem Moves.exited (moves : Moves cfg t th sh m th' sh') (pc : th'.pc = .exited) : th'.idle = .term := by
  have inside := moves.inside_run
  cases moves with
  | leave _ idle => exact idle
  | _ => simp_all

/-- The idle fiber ends only when `stopping()` is true. -/
theorem Moves.idleEnded (moves : Moves cfg t th sh m th' sh') (ended : th'.idle = .term) :
    th.idle = .term ∨ sh.isStopping = true := by
  cases moves with
  | idleTerm _ stopping => exact .inr stopping
  | idleSettle =>
    dsimp only at ended
    split at ended
    · exact .inl ended
    · cases ended
  | requeue | setHold => exact .inl (by simpa using ended)
  | _ => simp_all

/-- No thread of `run()` sets a flag. -/
theorem Moves.flags (moves : Moves cfg t th sh m th' sh') :
    sh'.autoStop = sh.autoStop ∧ sh'.stopping = sh.stopping := by
  cases moves with
  | schedule => exact (schedule_active true sh _).2.2
  | _ => exact ⟨rfl, rfl⟩

theorem Placed.thread (placed : Placed cfg s) (moves : Moves cfg t (s.thr t) s.sh m th sh) :
    Placed cfg { s with thr := Function.update s.thr t th, sh } := by
  constructor
  case outside =>
    intro u out
    have apart : u ≠ t := by
      rintro rfl
      exact out (placed.mover moves)
    exact (Function.update_of_ne apart _ _).trans (placed.outside u out)
  case waiting =>
    intro before r root
    have still := placed.waiting before r root
    have apart : r ≠ t := by
      rintro rfl
      exact cfg.apart r root (moves.worker (by rw [still]))
    exact (Function.update_of_ne apart _ _).trans still
  case exited =>
    apply (Function.forall_update_iff s.thr fun _ th => th.pc = .exited → th.idle = .term).mpr
    exact ⟨moves.exited, fun u _ => placed.exited u⟩
  case ended =>
    rw [moves.flags.1]
    apply (Function.forall_update_iff s.thr fun _ th => th.idle = .term → s.sh.autoStop = true).mpr
    refine ⟨fun ended => ?_, fun u _ => placed.ended u⟩
    rcases moves.idleEnded ended with before | stopping
    · exact placed.ended t before
    · simp only [Shared.isStopping, Bool.and_eq_true] at stopping
      exact stopping.1.1.1
  case called =>
    rw [moves.flags.1]
    exact placed.called

/-- A step of `stop()` that moves no thread. -/
theorem Placed.flags {stop : StopPc} {root : FiberState} (placed : Placed cfg s)
    (later : stop.beforeRoot = true → s.stop.beforeRoot = true) (called : stop ≠ .notCalled)
    (autoStop : s.sh.autoStop = true → sh.autoStop = true) : Placed cfg { s with sh, stop, root } where
  outside := placed.outside
  waiting before := placed.waiting (later before)
  exited := placed.exited
  ended t idle := autoStop (placed.ended t idle)
  called _ := called

theorem Placed.callRoot {r : Tid} (placed : Placed cfg s) (pc : s.stop = .test) (root : cfg.rootThread = some r) :
    Placed cfg { s with
      stop := .inRoot
      root := .exec
      thr := Function.update s.thr r { s.thr r with pc := .loop } } := by
  have own : s.thr r = {} := placed.waiting (by rw [pc]; rfl) r root
  constructor
  case outside =>
    intro u out
    have apart : u ≠ r := by
      rintro rfl
      exact out (Setup.root_mem root)
    exact (Function.update_of_ne apart _ _).trans (placed.outside u out)
  case waiting => exact nofun
  case exited =>
    apply (Function.forall_update_iff s.thr fun _ th => th.pc = .exited → th.idle = .term).mpr
    exact ⟨nofun, fun u _ => placed.exited u⟩
  case ended =>
    apply (Function.forall_update_iff s.thr fun _ th => th.idle = .term → s.sh.autoStop = true).mpr
    exact ⟨by simp [own], fun u _ => placed.ended u⟩
  case called => exact nofun

theorem Placed.stop (placed : Placed cfg s) (moves : StopMoves cfg s s') : Placed cfg s' := by
  cases moves with
  | callRoot pc root => exact placed.callRoot pc root
  | call pc => exact placed.flags (fun _ => by rw [pc]; rfl) nofun fun _ => rfl
  | first pc | setStopping pc | early pc | noRoot pc | skipRoot pc =>
    exact placed.flags (fun _ => by rw [pc]; rfl) nofun id
  | pass pc => exact placed.flags (fun _ => by rcases pc with pc | pc <;> rw [pc] <;> rfl) nofun id
  | backRoot | join => exact placed.flags nofun nofun id

theorem Placed.step (placed : Placed cfg s) (step : step cfg s a = some s') : Placed cfg s' := by
  obtain ⟨_, moves⟩ := step_cases step
  cases moves with
  | thread moves => exact placed.thread moves
  | @external r =>
    have flags := (schedule_active (s.stop == .notCalled) s.sh r).2.2.1
    exact ⟨placed.outside, placed.waiting, placed.exited, by simpa only [flags] using placed.ended,
      by simpa only [flags] using placed.called⟩
  | create => exact ⟨placed.outside, placed.waiting, placed.exited, placed.ended, placed.called⟩
  | stop moves => exact placed.stop moves

theorem Placed.run {ok : State → Act → Prop} (run : Guarded (Sched.step cfg) ok {} as s) : Placed cfg s :=
  run.invariant .start fun _ _ _ _ _ placed _ step => placed.step step

/-! ## The counters -/

/-- The counters are right. -/
structure Counts (cfg : Setup) (s : State) : Prop where
  active : s.sh.active = (threadsAt cfg Pc.active s.thr).card
  idle : s.sh.idle = (threadsAt cfg Pc.idle s.thr).card

theorem threadsAt_start (mark : Pc → Bool) (entry : mark .entry = false) :
    threadsAt cfg mark ({} : State).thr = ∅ := by
  simp [threadsAt, entry]

theorem Counts.start : Counts cfg {} where
  active := by rw [threadsAt_start _ rfl]; rfl
  idle := by rw [threadsAt_start _ rfl]; rfl

theorem Counts.step (counts : Counts cfg s) (placed : Placed cfg s) (small : cfg.threads.card < UInt64.size)
    (step : step cfg s a = some s') : Counts cfg s' := by
  obtain ⟨_, moves⟩ := step_cases step
  cases moves with
  | thread moves =>
    have among := placed.mover moves
    exact ⟨moves.active.keep among small counts.active, moves.idleCount.keep among small counts.idle⟩
  | @external r =>
    have same := schedule_active (s.stop == .notCalled) s.sh r
    exact ⟨same.1.trans counts.active, same.2.1.trans counts.idle⟩
  | create => exact ⟨counts.active, counts.idle⟩
  | stop moves =>
    cases moves with
    | @callRoot r pc root =>
      have own : s.thr r = {} := placed.waiting (by rw [pc]; rfl) r root
      have among := Setup.root_mem root
      constructor
      · refine Tally.keep ?_ among small counts.active
        rw [own]
        exact .stay
      · refine Tally.keep ?_ among small counts.idle
        rw [own]
        exact .stay
    | _ => exact ⟨counts.active, counts.idle⟩

theorem Counts.run {ok : State → Act → Prop} (small : cfg.threads.card < UInt64.size)
    (run : Guarded (Sched.step cfg) ok {} as s) : Counts cfg s :=
  run.invariant .start fun _ _ _ _ before counts _ step => counts.step (Placed.run before) small step

/-- When all threads have left, no position is marked. -/
theorem card_threadsAt_exited {mark : Pc → Bool} {thr : Tid → Thread} (exited : mark .exited = false)
    (left : ∀ t ∈ cfg.threads, (thr t).pc = .exited) : (threadsAt cfg mark thr).card = 0 := by
  rw [Finset.card_eq_zero, threadsAt, Finset.filter_eq_empty_iff]
  intro t among
  rw [left t among, exited]
  exact Bool.false_ne_true

/-- **Counter accounting.** In every reachable state the counters are the
numbers of threads between their increments and decrements, a thread about to
decrement finds its counter positive, both are zero once all threads have left,
and no thread leaves before `stop()`. The number of threads is a `size_t`. -/
theorem accounting (small : cfg.threads.card < UInt64.size) (run : exec (step cfg) {} as = some s) :
    s.sh.active = (threadsAt cfg Pc.active s.thr).card ∧ s.sh.idle = (threadsAt cfg Pc.idle s.thr).card ∧
      (∀ t, (s.thr t).pc = .skip ∨ (∃ b f, (s.thr t).pc = .dec b f) → 0 < s.sh.active) ∧
      (∀ t, (s.thr t).pc = .idleDec → 0 < s.sh.idle) ∧
      ((∀ t ∈ cfg.threads, (s.thr t).pc = .exited) → s.sh.active = 0 ∧ s.sh.idle = 0) ∧
      ∀ t, (s.thr t).pc = .exited → s.stop ≠ .notCalled := by
  have counts := Counts.run small (Guarded.of_exec run)
  have placed := Placed.run (Guarded.of_exec run)
  have among : ∀ t, (s.thr t).pc ≠ .entry → t ∈ cfg.threads := by
    intro t inside
    by_contra outside
    exact inside (by rw [placed.outside t outside])
  refine ⟨counts.active, counts.idle, ?_, ?_, ?_, ?_⟩
  · intro t pc
    rw [counts.active]
    apply card_threadsAt_pos (t := t)
    · apply among
      rcases pc with pc | ⟨b, f, pc⟩ <;> simp [pc]
    · rcases pc with pc | ⟨b, f, pc⟩ <;> rw [pc] <;> rfl
  · intro t pc
    rw [counts.idle]
    apply card_threadsAt_pos (t := t)
    · apply among
      simp [pc]
    · rw [pc]
      rfl
  · intro left
    constructor
    · rw [counts.active]
      exact card_threadsAt_exited rfl left
    · rw [counts.idle]
      exact card_threadsAt_exited rfl left
  · intro t pc
    exact placed.called (placed.ended t (placed.exited t pc))

/-- Thread 1 has a task in hand while thread 2 is about to leave its idle fiber. -/
def busyAndIdle : List Act :=
  [.create, .external (.one (.fiber 0) none), .thread 1 .next, .thread 2 .next, .thread 1 .next] ++
    List.replicate 6 (.thread 2 .next)

theorem accounting_busyAndIdle :
    twoWorkers.threads.card < UInt64.size ∧ ∃ s : State, exec (step twoWorkers) {} busyAndIdle = some s ∧
      s.sh.active = 1 ∧ (threadsAt twoWorkers Pc.active s.thr).card = 1 ∧
      s.sh.idle = 1 ∧ (threadsAt twoWorkers Pc.idle s.thr).card = 1 := by
  have small : twoWorkers.threads.card < UInt64.size := by decide
  obtain ⟨s, run, test⟩ := exec_of_any
    (show (exec (step twoWorkers) {} busyAndIdle).any (fun s => s.sh.active = 1 ∧ s.sh.idle = 1) from
      by decide +kernel)
  obtain ⟨active, idle⟩ := of_decide_eq_true test
  obtain ⟨countActive, countIdle, _⟩ := accounting small run
  exact ⟨small, s, run, active, countActive ▸ active, idle, countIdle ▸ idle⟩

/-- Thread 1 has executed `++m_idleThreadCount` and not yet switched. -/
def goesIdle : List Act := List.replicate 4 (.thread 1 .next)

/-- Between the increment and the switch the counter is ahead of the threads
inside the idle fiber. -/
theorem not_accounting :
    ∃ s : State, exec (step twoWorkers) {} goesIdle = some s ∧ s.sh.failed = none ∧ s.sh.idle = 1 ∧
      (threadsAt twoWorkers Pc.insideIdle s.thr).card = 0 := by
  obtain ⟨s, run, test⟩ := exec_of_any
    (show (exec (step twoWorkers) {} goesIdle).any (fun s => s.sh.failed = none ∧ s.sh.idle = 1 ∧
      (threadsAt twoWorkers Pc.insideIdle s.thr).card = 0) from by decide +kernel)
  exact ⟨s, run, of_decide_eq_true test⟩

end Atpdxy.Sched
