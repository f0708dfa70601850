import Atpdxy.Fibers.Loop
import Atpdxy.Run.Guarded
import Atpdxy.Sched.Ownership

/-!
# The current fiber

`t_fiber` is the fiber whose code the thread executes, whichever of the four switches it
came by. The invariant says of each place what the pointers are and where the fibers that do
not execute go on: at their start, behind a yield of their own, or nowhere; and where the
main fibers do.
-/

namespace Atpdxy.Fibers.Loop

open Run
open Sched (FiberState FiberId Task Branch UserAct Shared StopPc)

/-- The discipline. -/
structure Disciplined (cfg : Setup) (s : State) : Prop where
  task : ∀ caller f, s.m.code = .body caller f →
    s.m.t_fiber = some f ∧ ∃ x, s.m.fibers f = some x ∧ x.m_state = .exec
  idle : ∀ caller f, s.m.code = .idle caller f →
    s.m.t_fiber = some f ∧ ∃ x, s.m.fibers f = some x ∧ x.m_state = .exec
  /-- a worker makes its main fiber at the start -/
  run : ∀ p, s.m.code = .run p → p ≠ .start ∨ cfg.useCaller = true →
    s.m.t_fiber = some cfg.main ∧ s.m.t_scheduler_fiber = some cfg.main
  entered : ∀ st ∈ s.entered, st.ended = false
  past : s.m.code ≠ .past
  returned : s.m.code = .main .returned → s.m.t_fiber = some .thread ∧ s.m.t_threadFiber = some .thread
  failed : s.failed = false

variable {cfg : Setup} {s s' : State} {m t : Thread} {F G : Ref} {f c : FiberId} {x y : Fiber} {p q : RunPc} {k : Code}
  {b : Branch} {ft : Task} {a : Act}

theorem Setup.main_ne_task (cfg : Setup) (f : FiberId) : Ref.task f ≠ cfg.main := by
  cases caller : cfg.useCaller <;> simp [Setup.main, caller]

theorem Setup.main_ne_idle (cfg : Setup) : Ref.idle ≠ cfg.main := by
  cases caller : cfg.useCaller <;> simp [Setup.main, caller]

theorem Setup.main_caller (caller : cfg.useCaller = true) : cfg.main = .root := by simp [Setup.main, caller]

theorem Setup.main_worker (worker : cfg.useCaller = false) : cfg.main = .thread := by simp [Setup.main, worker]

/-! ## Fibers that rest -/

/-- The function the fiber was made with, until it is left by a return or taken by a reset. -/
def Ref.Made : Ref → Fiber → Prop
  | .task _, x => x.m_cb = none ∨ x.m_cb = some .user
  | .idle, x => x.m_cb = some .idle ∨ x.m_state = .term
  | _, _ => True

/-- A fiber that does not execute: it has not begun, goes on behind a yield, or has ended. -/
def Ref.Rests : Ref → Fiber → Prop
  | .task f, x =>
    (x.m_state = .init ∧ x.m_ctx = .entry false) ∨
      ((x.m_state = .hold ∨ x.m_state = .ready) ∧ x.m_ctx = .body false (.task f) ∧ x.m_cb = some .user) ∨
      (x.m_state.ended = true ∧ x.m_ctx = .past)
  | .idle, x =>
    (x.m_state = .init ∧ x.m_ctx = .entry false) ∨ (x.m_state = .hold ∧ x.m_ctx = .idle false .idle) ∨
      (x.m_state = .term ∧ x.m_ctx = .past)
  | _, _ => True

/-- A place in the code of a fiber with the function `cb`. -/
def Ref.At : Ref → Option Cb → Code → Prop
  | .task f, cb, k => k = .entry false ∨ (k = .body false (.task f) ∧ cb = some .user)
  | .idle, _, k => k = .entry false ∨ k = .idle false .idle
  | _, _, _ => False

/-- Where `run()` goes on behind the switch into the fiber. -/
def Ref.Behind : Ref → RunPc → Prop
  | .task f, p => ∃ b, p = .dec b f
  | .idle, p => p = .idleDec
  | _, _ => False

theorem Ref.Rests.at_ctx (rests : F.Rests x) (live : x.m_state.ended = false) (behind : F.Behind p) :
    F.At x.m_cb x.m_ctx := by
  cases F with
  | thread | root => exact behind.elim
  | idle =>
    obtain ⟨-, ctx⟩ | ⟨-, ctx⟩ | ⟨term, -⟩ := rests
    · exact .inl ctx
    · exact .inr ctx
    · simp [term, FiberState.ended] at live
  | task f =>
    obtain ⟨-, ctx⟩ | ⟨-, ctx⟩ | ⟨ended, -⟩ := rests
    · exact .inl ctx
    · exact .inr ctx
    · simp [ended] at live

theorem Ref.Rests.not_exec (rests : F.Rests x) (behind : F.Behind p) : x.m_state ≠ .exec := by
  cases F with
  | thread | root => exact behind.elim
  | idle =>
    obtain ⟨state, -⟩ | ⟨state, -⟩ | ⟨state, -⟩ := rests <;> simp [state]
  | task f =>
    obtain ⟨state, -⟩ | ⟨state | state, -⟩ | ⟨ended, -⟩ := rests
    · simp [state]
    · simp [state]
    · simp [state]
    · intro exec
      simp [exec, FiberState.ended] at ended

theorem Ref.Behind.ne_main (behind : F.Behind p) : cfg.main ≠ F := by
  rintro rfl
  cases caller : cfg.useCaller <;> simp [Setup.main, caller, Ref.Behind] at behind

/-! ## What holds in each place -/

/-- The tasks, of which `busy` may execute. -/
structure Tasks (s : State) (busy : Option Ref) : Prop where
  made : ∀ f < s.sh.nextFiber, ∃ x, s.m.fibers (.task f) = some x ∧ Ref.Made (.task f) x ∧
    (busy ≠ some (.task f) → Ref.Rests (.task f) x)
  queue : s.sh.Known
  cb : ∀ c, s.cbFiber = some c → c < s.sh.nextFiber

/-- The pointers, and the main fibers, while `run()` is executed. -/
structure Mains (cfg : Setup) (m : Thread) : Prop where
  threadFiber : m.t_threadFiber = some .thread
  scheduler : m.t_scheduler_fiber = some cfg.main
  main : ∃ x, m.fibers cfg.main = some x
  /-- where `stop()` called the root fiber -/
  caller : cfg.useCaller = true → ∃ x, m.fibers .thread = some x ∧ x.m_ctx = .main .join

theorem Mains.goto (mains : Mains cfg m) (k : Code) : Mains cfg { m with code := k } :=
  ⟨mains.threadFiber, mains.scheduler, mains.main, mains.caller⟩

theorem Mains.switched (mains : Mains cfg m) (threadFiber : t.t_threadFiber = m.t_threadFiber)
    (scheduler : t.t_scheduler_fiber = m.t_scheduler_fiber) (main : ∃ x, t.fibers cfg.main = some x)
    (thread : cfg.useCaller = true → t.fibers .thread = m.fibers .thread) : Mains cfg t where
  threadFiber := threadFiber.trans mains.threadFiber
  scheduler := scheduler.trans mains.scheduler
  main := main
  caller useCaller := by
    rw [thread useCaller]
    exact mains.caller useCaller

/-- What `run()` knows of the fibers at its places. -/
def Fits (m : Thread) (made : FiberId) : RunPc → Prop
  | .start => False
  | .dispatch (some ft) => ∀ f ∈ ft.fiber, f < made
  | .enter _ f => f < made ∧ ∃ x, m.fibers (.task f) = some x ∧ x.m_state.ended = false
  | .dec _ f | .settle _ f => f < made ∧ ∃ x, m.fibers (.task f) = some x ∧ x.m_state ≠ .init
  | .requeue _ f => f < made
  | .setHold _ f => f < made ∧ ∃ x, m.fibers (.task f) = some x ∧ x.m_state = .hold
  | .resetCb c => c < made ∧ ∃ x, m.fibers (.task c) = some x ∧ x.m_state.ended = true
  | .idleEnter | .idleSwap => ∃ x, m.fibers .idle = some x ∧ x.m_state ≠ .term
  | .idleDec | .idleSettle => ∃ x, m.fibers .idle = some x ∧ x.m_state ≠ .init
  | _ => True

/-- The callback fiber that `run()` executes, or has executed and not yet given away. -/
def RunPc.cbTask : RunPc → Option FiberId
  | .enter .cb f | .dec .cb f | .settle .cb f | .requeue .cb f | .setHold .cb f | .resetCb f => some f
  | _ => none

/-- A callback fiber that is kept for the next callback has none. -/
def Keeps (m : Thread) (cbFiber : Option FiberId) (p : RunPc) : Prop :=
  (p.cbTask = none ∧ ∀ c, cbFiber = some c → ∃ x, m.fibers (.task c) = some x ∧ x.m_cb = none) ∨
    ∃ c, p.cbTask = some c ∧ cbFiber = some c

theorem Keeps.imp {cbFiber : Option FiberId} (keeps : Keeps m cbFiber p)
    (empty : ∀ c x, cbFiber = some c → m.fibers (.task c) = some x → x.m_cb = none →
      ∃ y, t.fibers (.task c) = some y ∧ y.m_cb = none) : Keeps t cbFiber p := by
  obtain ⟨free, kept⟩ | busy := keeps
  · refine .inl ⟨free, fun c cb => ?_⟩
    obtain ⟨x, there, none⟩ := kept c cb
    exact empty c x cb there none
  · exact .inr busy

/-- Fiber `F` has changed, and has no callback if it had none. -/
theorem Keeps.switched {cbFiber : Option FiberId} (keeps : Keeps m cbFiber p) (fiber : t.fibers F = some x)
    (others : ∀ f, Ref.task f ≠ F → t.fibers (.task f) = m.fibers (.task f))
    (empty : ∀ z, m.fibers F = some z → z.m_cb = none → x.m_cb = none) : Keeps t cbFiber p := by
  refine keeps.imp fun c w _ there none => ?_
  by_cases same : Ref.task c = F
  · subst same
    exact ⟨x, fiber, empty w there none⟩
  · exact ⟨w, (others c same).trans there, none⟩

/-- In `run()`, between two switches. -/
structure InRun (cfg : Setup) (s : State) (p : RunPc) : Prop where
  code : s.m.code = .run p
  this : s.m.t_fiber = some cfg.main
  mains : Mains cfg s.m
  idle : ∃ x, s.m.fibers .idle = some x ∧ Ref.Made .idle x ∧ Ref.Rests .idle x
  fits : Fits s.m s.sh.nextFiber p
  keeps : Keeps s.m s.cbFiber p

/-- In the code of the fiber `F`, a task or `idle()`; `run()` goes on at `p`. -/
structure InFiber (cfg : Setup) (s : State) (F : Ref) (p : RunPc) : Prop where
  this : s.m.t_fiber = some F
  mains : Mains cfg s.m
  made : ∀ f, F = .task f → f < s.sh.nextFiber
  fiber : ∃ x, s.m.fibers F = some x ∧ x.m_state = .exec ∧ F.At x.m_cb s.m.code
  idle : ∃ x, s.m.fibers .idle = some x ∧ Ref.Made .idle x ∧ (F ≠ .idle → Ref.Rests .idle x)
  behind : F.Behind p
  back : ∃ y, s.m.fibers cfg.main = some y ∧ y.m_ctx = .run p
  keeps : Keeps s.m s.cbFiber p

/-- Before the root fiber has been called. -/
def StopPc.before : StopPc → Bool
  | .notCalled | .first | .firstStopping | .setStopping | .test => true
  | _ => false

/-- On the caller's stack. -/
structure Outside (cfg : Setup) (s : State) (p : StopPc) : Prop where
  caller : cfg.useCaller = true
  code : s.m.code = .main p
  this : s.m.t_fiber = some .thread
  threadFiber : s.m.t_threadFiber = some .thread
  root : StopPc.before p = true → s.m.t_scheduler_fiber = some .root ∧ (∃ x, s.m.fibers .thread = some x) ∧
    (∃ x, s.m.fibers .root = some x ∧ x.m_state = .init ∧ x.m_ctx = .entry true ∧ x.m_cb = some .run) ∧
    s.cbFiber = none

/-- In the root fiber, before `run()`, or at its start. -/
structure Begins (cfg : Setup) (s : State) : Prop where
  code : (cfg.useCaller = true ∧ s.m.code = .entry true ∧ ∃ x, s.m.fibers .root = some x ∧ x.m_cb = some .run) ∨
    s.m.code = .run .start
  caller : cfg.useCaller = true → s.m.t_fiber = some .root ∧ Mains cfg s.m
  worker : cfg.useCaller = false → s.m.t_fiber = none
  cb : s.cbFiber = none

inductive Place (cfg : Setup) (s : State) : Option Ref → Prop
  | outside {p : StopPc} (outside : Outside cfg s p) : Place cfg s none
  | begins (begins : Begins cfg s) : Place cfg s none
  | run {p : RunPc} (inRun : InRun cfg s p) : Place cfg s none
  | fiber {F : Ref} {p : RunPc} (inFiber : InFiber cfg s F p) : Place cfg s (some F)
  | ended (code : s.m.code = .ended) : Place cfg s none

structure Inv (cfg : Setup) (s : State) : Prop where
  place : ∃ busy, Tasks s busy ∧ Place cfg s busy
  entered : ∀ st ∈ s.entered, st.ended = false
  failed : s.failed = false

/-- At the start of a function, or behind the end of the thread, nothing is asked. -/
theorem disciplined_elsewhere (entered : ∀ st ∈ s.entered, st.ended = false) (failed : s.failed = false)
    (code : (∃ caller, s.m.code = .entry caller) ∨ s.m.code = .ended) : Disciplined cfg s := by
  obtain ⟨caller, code⟩ | code := code
  · exact ⟨by simp [code], by simp [code], by simp [code], entered, by simp [code], by simp [code], failed⟩
  · exact ⟨by simp [code], by simp [code], by simp [code], entered, by simp [code], by simp [code], failed⟩

theorem InFiber.disciplined (inFiber : InFiber cfg s F p) (entered : ∀ st ∈ s.entered, st.ended = false)
    (failed : s.failed = false) : Disciplined cfg s := by
  obtain ⟨x, there, exec, code⟩ := inFiber.fiber
  have executes : s.m.t_fiber = some F ∧ ∃ x, s.m.fibers F = some x ∧ x.m_state = .exec :=
    ⟨inFiber.this, x, there, exec⟩
  cases F with
  | thread | root => exact code.elim
  | idle =>
    obtain code | code := code
    · exact disciplined_elsewhere entered failed (.inl ⟨_, code⟩)
    · refine ⟨by simp [code], fun caller f there => ?_, by simp [code], entered, by simp [code], by simp [code], failed⟩
      cases code.symm.trans there
      exact executes
  | task f =>
    obtain code | ⟨code, -⟩ := code
    · exact disciplined_elsewhere entered failed (.inl ⟨_, code⟩)
    · refine ⟨fun caller g there => ?_, by simp [code], by simp [code], entered, by simp [code], by simp [code], failed⟩
      cases code.symm.trans there
      exact executes

theorem Inv.disciplined (inv : Inv cfg s) : Disciplined cfg s := by
  obtain ⟨⟨busy, -, place⟩, entered, failed⟩ := inv
  cases place with
  | outside outside =>
    have code := outside.code
    exact ⟨by simp [code], by simp [code], by simp [code], entered, by simp [code],
      fun _ => ⟨outside.this, outside.threadFiber⟩, failed⟩
  | begins begins =>
    obtain ⟨-, code, -⟩ | code := begins.code
    · exact disciplined_elsewhere entered failed (.inl ⟨_, code⟩)
    · refine ⟨by simp [code], by simp [code], fun p there later => ?_, entered, by simp [code], by simp [code], failed⟩
      cases code.symm.trans there
      have useCaller := later.resolve_left fun other => other rfl
      obtain ⟨this, mains⟩ := begins.caller useCaller
      exact ⟨Setup.main_caller useCaller ▸ this, mains.scheduler⟩
  | run inRun =>
    have code := inRun.code
    exact ⟨by simp [code], by simp [code], fun _ _ _ => ⟨inRun.this, inRun.mains.scheduler⟩, entered, by simp [code],
      by simp [code], failed⟩
  | fiber inFiber => exact inFiber.disciplined entered failed
  | ended code => exact disciplined_elsewhere entered failed (.inr code)

/-! ## Switches -/

theorem Ref.Made.exec (made : F.Made x) (live : x.m_state.ended = false) : F.Made { x with m_state := .exec } := by
  cases F with
  | thread | root => trivial
  | task f => exact made
  | idle =>
    obtain cb | term := made
    · exact .inl cb
    · simp [term, FiberState.ended] at live

/-- The tasks, once the fiber `F` has changed and another may execute. -/
theorem Tasks.switched {busy busy' : Option Ref} (tasks : Tasks s busy) (fiber : t.fibers F = some x)
    (others : ∀ f, Ref.task f ≠ F → t.fibers (.task f) = s.m.fibers (.task f)) (made : F.Made x)
    (rests : busy' ≠ some F → F.Rests x) (only : ∀ f, Ref.task f ≠ F → busy ≠ some (.task f)) :
    Tasks { s with m := t } busy' where
  made f less := by
    by_cases same : Ref.task f = F
    · subst same
      exact ⟨x, fiber, made, rests⟩
    · obtain ⟨w, there, made, rests⟩ := tasks.made f less
      exact ⟨w, (others f same).trans there, made, fun _ => rests (only f same)⟩
  queue := tasks.queue
  cb := tasks.cb

theorem Ref.Behind.ne_thread (behind : F.Behind p) : Ref.thread ≠ F := by
  rintro rfl
  exact behind

/-- `run()` switches into a fiber. -/
theorem InRun.swapIn (inRun : InRun cfg s p) (tasks : Tasks s none) (fiber : s.m.fibers F = some x)
    (made : F.Made x) (rests : F.Rests x) (live : x.m_state.ended = false)
    (known : ∀ f, F = .task f → f < s.sh.nextFiber) (behind : F.Behind q) (keeps : Keeps s.m s.cbFiber q) :
    ∃ t, s.m.swapIn F (.run q) = some t ∧ ∀ entered failed,
      Tasks { s with m := t, entered, failed } (some F) ∧ InFiber cfg { s with m := t, entered, failed } F q := by
  obtain ⟨-, -, mains, ⟨z, idle, idleMade, idleRests⟩, -, -⟩ := inRun
  obtain ⟨y, main⟩ := mains.main
  obtain ⟨t, swap, entered⟩ :=
    Thread.swapIn_enters fiber (rests.not_exec behind) mains.scheduler main behind.ne_main (.run q)
  have others : ∀ f, Ref.task f ≠ F → t.fibers (.task f) = s.m.fibers (.task f) :=
    fun f ne => entered.others _ ne (cfg.main_ne_task f)
  refine ⟨t, swap, fun _ _ => ⟨?_, ?_⟩⟩
  · have switched : Tasks { s with m := t } (some F) :=
      tasks.switched entered.fiber others (made.exec live) (fun other => (other rfl).elim) (by simp)
    exact ⟨switched.made, switched.queue, switched.cb⟩
  · refine {
      this := entered.this
      mains := mains.switched entered.threadFiber entered.schedulerFiber ⟨_, entered.saved⟩ fun useCaller =>
        entered.others _ behind.ne_thread (by simp [Setup.main_caller useCaller])
      made := known
      fiber := ⟨_, entered.fiber, rfl, entered.code ▸ rests.at_ctx live behind⟩
      idle := ?_
      behind := behind
      back := ⟨_, entered.saved, rfl⟩
      keeps := keeps.switched entered.fiber others fun w there none => ?_ }
    · by_cases same : Ref.idle = F
      · subst same
        exact ⟨_, entered.fiber, made.exec live, fun other => (other rfl).elim⟩
      · exact ⟨z, (entered.others _ same cfg.main_ne_idle).trans idle, idleMade, fun _ => idleRests⟩
    · obtain rfl := Option.some.inj (there.symm.trans fiber)
      exact none

/-- The fiber `F` is left, with `x` what it was before its context was saved. -/
theorem InFiber.leave (inFiber : InFiber cfg s F q) (tasks : Tasks s (some F))
    (back : s.m.fibers cfg.main = some y) (returned : Returned s.m t F cfg.main x y k)
    (made : F.Made { x with m_ctx := k }) (rests : F.Rests { x with m_ctx := k }) (begun : x.m_state ≠ .init)
    (empty : ∀ z, s.m.fibers F = some z → z.m_cb = none → x.m_cb = none) :
    Tasks { s with m := t } none ∧ InRun cfg { s with m := t } q := by
  obtain ⟨-, mains, known, -, ⟨z, idle, idleMade, idleRests⟩, behind, ⟨y', back', ctx⟩, keeps⟩ := inFiber
  obtain rfl := Option.some.inj (back.symm.trans back')
  have other : ∀ G, G ≠ F → t.fibers G = s.m.fibers G := returned.others
  refine ⟨?_, ?_⟩
  · exact tasks.switched returned.fiber (fun f => other _) made (fun _ => rests)
      fun f ne busy => ne (Option.some.inj busy).symm
  · refine {
      code := returned.code.trans ctx
      this := returned.this
      mains := mains.switched returned.threadFiber returned.schedulerFiber ⟨_, (other _ behind.ne_main).trans back⟩
        fun _ => other _ behind.ne_thread
      idle := ?_
      fits := ?_
      keeps := keeps.switched returned.fiber (fun f => other _) empty }
    · by_cases same : Ref.idle = F
      · subst same
        exact ⟨_, returned.fiber, made, rests⟩
      · exact ⟨z, (other _ same).trans idle, idleMade, idleRests fun eq => same eq.symm⟩
    · cases F with
      | thread | root => exact behind.elim
      | idle =>
        cases behind
        exact ⟨_, returned.fiber, begun⟩
      | task f =>
        obtain ⟨b, rfl⟩ := behind
        exact ⟨known f rfl, _, returned.fiber, begun⟩

/-- What the fiber that executes was made with. -/
theorem InFiber.fiber_made (inFiber : InFiber cfg s F q) (tasks : Tasks s (some F)) :
    ∃ x, s.m.fibers F = some x ∧ x.m_state = .exec ∧ F.At x.m_cb s.m.code ∧ F.Made x := by
  obtain ⟨x, fiber, exec, code⟩ := inFiber.fiber
  refine ⟨x, fiber, exec, code, ?_⟩
  cases F with
  | thread | root => trivial
  | idle =>
    obtain ⟨z, there, made, -⟩ := inFiber.idle
    obtain rfl := Option.some.inj (there.symm.trans fiber)
    exact made
  | task f =>
    obtain ⟨z, there, made, -⟩ := tasks.made f (inFiber.made f rfl)
    obtain rfl := Option.some.inj (there.symm.trans fiber)
    exact made

/-- A yield of the fiber that executes. -/
theorem InFiber.yieldTo {st : FiberState} (inFiber : InFiber cfg s F q) (tasks : Tasks s (some F))
    (rests : ∀ cb, F.At cb s.m.code → F.Rests ⟨st, k, cb⟩) (begun : st ≠ .init) : ∃ t, s.m.yieldTo st k = some t ∧
      Tasks { s with m := t } none ∧ InRun cfg { s with m := t } q := by
  obtain ⟨x, fiber, exec, code, made⟩ := inFiber.fiber_made tasks
  obtain ⟨y, back, -⟩ := inFiber.back
  obtain ⟨t, yielded, returned⟩ := Thread.yieldTo_returns inFiber.this fiber exec inFiber.mains.scheduler back
    inFiber.behind.ne_main st k
  refine ⟨t, yielded, inFiber.leave tasks back returned ?_ (rests x.m_cb code) begun fun z there none => ?_⟩
  · cases F with
    | thread | root => trivial
    | task f => exact made
    | idle => exact .inl (made.resolve_right (by simp [exec]))
  · obtain rfl := Option.some.inj (there.symm.trans fiber)
    exact none

/-- The end of the fiber that executes. `idle()` does not throw. -/
theorem InFiber.finish (inFiber : InFiber cfg s F q) (tasks : Tasks s (some F)) (threw : Bool)
    (returns : F = .idle → threw = false) : ∃ t, s.m.finish false threw F .past = some t ∧
      Tasks { s with m := t } none ∧ InRun cfg { s with m := t } q := by
  obtain ⟨x, fiber, exec, code, made⟩ := inFiber.fiber_made tasks
  obtain ⟨y, back, -⟩ := inFiber.back
  obtain ⟨t, ended, returned⟩ := Thread.finish_swapOut fiber inFiber.mains.scheduler back inFiber.behind.ne_main threw
    Code.past
  refine ⟨t, ended, inFiber.leave tasks back returned ?_ ?_ ?_ fun z there none => ?_⟩
  · cases F with
    | thread | root => trivial
    | task f =>
      cases threw with
      | true => exact made
      | false => exact .inl rfl
    | idle =>
      obtain rfl := returns rfl
      exact .inr rfl
  · cases F with
    | thread | root => trivial
    | task f => cases threw <;> exact .inr (.inr ⟨rfl, rfl⟩)
    | idle =>
      obtain rfl := returns rfl
      exact .inr (.inr ⟨rfl, rfl⟩)
  · cases threw <;> simp [Fiber.finished]
  · obtain rfl := Option.some.inj (there.symm.trans fiber)
    cases threw
    · rfl
    · exact none

/-! ## The steps of `run()` -/

theorem view_state (fiber : m.fibers (.task f) = some x) : (view m f).state = x.m_state := by
  simp [view, fiber]

/-- The tasks stay as they are. -/
theorem Tasks.keep {busy : Option Ref} {n : State} (tasks : Tasks s busy)
    (fibers : ∀ f, n.m.fibers (.task f) = s.m.fibers (.task f)) (next : n.sh.nextFiber = s.sh.nextFiber)
    (queue : n.sh.Known) (cb : ∀ c, n.cbFiber = some c → s.cbFiber = some c) : Tasks n busy where
  made f less := fibers f ▸ tasks.made f (next ▸ less)
  queue := queue
  cb c kept := next ▸ tasks.cb c (cb c kept)

/-- Task `f` is written, and is the last one when it is new. -/
theorem Tasks.write {n : State} {z : Fiber} (tasks : Tasks s none)
    (fibers : n.m.fibers = Function.update s.m.fibers (.task f) (some z)) (made : Ref.Made (.task f) z)
    (rests : Ref.Rests (.task f) z) (next : ∀ g < n.sh.nextFiber, g ≠ f → g < s.sh.nextFiber) (queue : n.sh.Known)
    (cb : ∀ c, n.cbFiber = some c → c < n.sh.nextFiber) : Tasks n none where
  made g less := by
    rw [fibers]
    by_cases same : g = f
    · subst same
      exact ⟨z, by simp, made, fun _ => rests⟩
    · obtain ⟨w, there, found⟩ := tasks.made g (next g less same)
      exact ⟨w, by simpa [same] using there, found⟩
  queue := queue
  cb := cb

/-- On to `q`. -/
theorem InRun.goto {n : State} (inRun : InRun cfg s p) (here : n.m = { s.m with code := .run q })
    (fits : Fits s.m n.sh.nextFiber q) (keeps : Keeps s.m n.cbFiber q) : InRun cfg n q := by
  obtain ⟨-, this, ⟨threadFiber, scheduler, main, caller⟩, idle, -, -⟩ := inRun
  constructor
  · rw [here]
  · rw [here]
    exact this
  · rw [here]
    exact ⟨threadFiber, scheduler, main, caller⟩
  · rw [here]
    exact idle
  · rw [here]
    exact fits
  · rw [here]
    exact keeps

/-- On to `q`, with fiber `F` written. -/
theorem InRun.write {n : State} {z : Fiber} (inRun : InRun cfg s p)
    (here : n.m = { s.m.set F z with code := .run q }) (own : F = .idle ∨ ∃ f, F = .task f)
    (idle : F = .idle → Ref.Made .idle z ∧ Ref.Rests .idle z) (fits : Fits (s.m.set F z) n.sh.nextFiber q)
    (keeps : Keeps (s.m.set F z) n.cbFiber q) : InRun cfg n q := by
  obtain ⟨-, this, mains, ⟨w, there, made, rests⟩, -, -⟩ := inRun
  have ne : cfg.main ≠ F ∧ Ref.thread ≠ F := by
    obtain rfl | ⟨f, rfl⟩ := own
    · exact ⟨cfg.main_ne_idle.symm, by simp⟩
    · exact ⟨(cfg.main_ne_task f).symm, by simp⟩
  constructor
  · rw [here]
  · rw [here]
    exact this
  · rw [here]
    obtain ⟨y, main⟩ := mains.main
    exact mains.switched rfl rfl ⟨y, (s.m.set_fibers z ne.1).trans main⟩ fun _ => s.m.set_fibers z ne.2
  · rw [here]
    by_cases same : Ref.idle = F
    · subst same
      exact ⟨z, s.m.set_fibers_self .idle z, idle rfl⟩
    · exact ⟨w, (s.m.set_fibers z same).trans there, made, rests⟩
  · rw [here]
    exact fits
  · rw [here]
    exact keeps

theorem Inv.run {n : State} (inv : Inv cfg s) (tasks : Tasks n none) (inRun : InRun cfg n q)
    (entered : n.entered = s.entered) (failed : n.failed = s.failed) : Inv cfg n :=
  ⟨⟨none, tasks, .run inRun⟩, fun st member => inv.entered st (entered ▸ member), failed.trans inv.failed⟩

/-- `q` does not know of a callback fiber either. -/
theorem Keeps.free {cbFiber : Option FiberId} (keeps : Keeps m cbFiber p) (before : p.cbTask = none)
    (after : q.cbTask = none) : Keeps m cbFiber q := by
  obtain ⟨-, kept⟩ | ⟨c, busy, -⟩ := keeps
  · exact .inl ⟨after, kept⟩
  · rw [before] at busy
    cases busy

/-- `q` knows of the same. -/
theorem Keeps.same {cbFiber : Option FiberId} (keeps : Keeps m cbFiber p) (same : q.cbTask = p.cbTask) :
    Keeps m cbFiber q := by
  unfold Keeps
  rwa [same]

theorem keeps_none (free : q.cbTask = none) : Keeps m none q :=
  .inl ⟨free, fun c kept => by cases kept⟩

theorem Tasks.resting (tasks : Tasks s none) (less : f < s.sh.nextFiber) :
    ∃ x, s.m.fibers (.task f) = some x ∧ Ref.Made (.task f) x ∧ Ref.Rests (.task f) x := by
  obtain ⟨x, there, made, rests⟩ := tasks.made f less
  exact ⟨x, there, made, rests (by simp)⟩

/-- A fiber that is kept can be reset. -/
theorem Keeps.resettable (keeps : Keeps s.m (some c) p) (free : p.cbTask = none) (tasks : Tasks s none)
    (less : c < s.sh.nextFiber) : (view s.m c).state.resettable = true := by
  obtain ⟨-, kept⟩ | ⟨c, busy, -⟩ := keeps
  · obtain ⟨x, there, none⟩ := kept c rfl
    obtain ⟨y, there', -, rests⟩ := tasks.resting less
    obtain rfl := Option.some.inj (there.symm.trans there')
    rw [view_state there]
    obtain ⟨init, -⟩ | ⟨-, -, user⟩ | ⟨ended, -⟩ := rests
    · simp [init, FiberState.resettable]
    · rw [none] at user
      cases user
    · cases state : x.m_state <;> simp_all [FiberState.ended, FiberState.resettable]
  · rw [free] at busy
    cases busy

/-- A step on to `q` that writes no fiber. -/
theorem Inv.on {n : State} (inv : Inv cfg s) (tasks : Tasks s none) (inRun : InRun cfg s p)
    (here : n.m = { s.m with code := .run q }) (fits : Fits s.m n.sh.nextFiber q) (keeps : Keeps s.m n.cbFiber q)
    (next : n.sh.nextFiber = s.sh.nextFiber) (queue : n.sh.Known) (cb : ∀ c, n.cbFiber = some c → s.cbFiber = some c)
    (entered : n.entered = s.entered) (failed : n.failed = s.failed) : Inv cfg n :=
  inv.run (tasks.keep (fun f => by rw [here]) next queue cb) (inRun.goto here fits keeps) entered failed

/-- The scan. -/
theorem Inv.loop (inv : Inv cfg s) (tasks : Tasks s none) (inRun : InRun cfg s .loop) :
    Inv cfg (runStep cfg s .loop) := by
  have keeps : ∀ ft, Keeps s.m s.cbFiber (.dispatch ft) := fun ft => inRun.keeps.free rfl rfl
  simp only [runStep]
  split
  · rename_i ft rest found
    obtain ⟨taken, left⟩ := Sched.dequeue_mem found
    exact inv.on tasks inRun rfl (fun f fiber => tasks.queue ft taken f fiber) (keeps _) rfl
      (fun task member => tasks.queue task (left member)) (fun _ => id) rfl rfl
  · exact inv.on tasks inRun rfl trivial (keeps _) rfl tasks.queue (fun _ => id) rfl rfl

/-- A callback: the fiber kept, or a new one. -/
theorem Inv.prepare (inv : Inv cfg s) (tasks : Tasks s none) (inRun : InRun cfg s (.dispatch (some ft))) :
    Inv cfg (prepare s) := by
  have new (c : FiberId) : Ref.Rests (.task c) (Fiber.new (some .user)) := .inl ⟨rfl, rfl⟩
  have there (c : FiberId) :
      (s.m.set (.task c) (Fiber.new (some .user))).fibers (.task c) = some (Fiber.new (some .user)) :=
    s.m.set_fibers_self _ _
  unfold Loop.prepare
  cases cb : s.cbFiber with
  | some c =>
    have less := tasks.cb c cb
    have resettable := (cb ▸ inRun.keeps : Keeps s.m (some c) _).resettable rfl tasks less
    simp only [resettable, if_true]
    exact inv.run
      (tasks.write rfl (.inr rfl) (new c) (fun g less _ => less) tasks.queue fun d kept => tasks.cb d (cb.trans kept))
      (inRun.write rfl (.inr ⟨c, rfl⟩) (by simp) ⟨less, _, there c, rfl⟩ (.inr ⟨c, rfl, rfl⟩)) rfl rfl
  | none =>
    refine inv.run (tasks.write rfl (.inr rfl) (new _) (fun g less ne => ?_) (fun task member f fiber => ?_) ?_)
      (inRun.write rfl (.inr ⟨_, rfl⟩) (by simp) ⟨Nat.lt_succ_self _, _, there _, rfl⟩ (.inr ⟨_, rfl, rfl⟩)) rfl rfl
    · exact Nat.lt_of_le_of_ne (Nat.le_of_lt_succ less) ne
    · exact Nat.lt_succ_of_lt (tasks.queue task member f fiber)
    · rintro c ⟨⟩
      exact Nat.lt_succ_self _

theorem Inv.dispatch (inv : Inv cfg s) (tasks : Tasks s none) (inRun : InRun cfg s (.dispatch (some ft))) :
    Inv cfg (runStep cfg s (.dispatch (some ft))) := by
  have on (q : RunPc) (fits : Fits s.m s.sh.nextFiber q) (free : q.cbTask = none) : Inv cfg (s.goto (.run q)) :=
    inv.on tasks inRun rfl fits (inRun.keeps.free rfl free) rfl tasks.queue (fun _ => id) rfl rfl
  simp only [runStep]
  split
  · rename_i f live
    obtain ⟨fiber, live⟩ := Option.filter_eq_some_iff.mp live
    have less := inRun.fits f fiber
    obtain ⟨x, there, -⟩ := tasks.resting less
    exact on _ ⟨less, x, there, by simpa [view_state there] using live⟩ rfl
  · split
    · exact inv.prepare tasks inRun
    · exact on _ trivial rfl

theorem Inv.enter (inv : Inv cfg s) (tasks : Tasks s none) (inRun : InRun cfg s (.enter b f)) :
    Inv cfg (runStep cfg s (.enter b f)) := by
  obtain ⟨less, x, there, live⟩ := inRun.fits
  obtain ⟨y, there', made, rests⟩ := tasks.resting less
  obtain rfl := Option.some.inj (there.symm.trans there')
  have keeps : Keeps s.m s.cbFiber (.dec b f) := inRun.keeps.same (by cases b <;> rfl)
  obtain ⟨t, swap, after⟩ := inRun.swapIn tasks there made rests live (by rintro g ⟨⟩; exact less) ⟨b, rfl⟩ keeps
  obtain ⟨tasks', inFiber⟩ := after (s.entered ++ [(view s.m f).state]) s.failed
  simp only [runStep, swap, State.switch]
  refine ⟨⟨_, tasks', .fiber inFiber⟩, fun st member => ?_, inv.failed⟩
  obtain old | new := List.mem_append.mp member
  · exact inv.entered st old
  · rw [List.mem_singleton.mp new, view_state there]
    exact live

/-- The fiber has come back. -/
theorem Inv.settle (inv : Inv cfg s) (tasks : Tasks s none) (inRun : InRun cfg s (.settle b f)) :
    Inv cfg (runStep cfg s (.settle b f)) := by
  obtain ⟨less, x, there, begun⟩ := inRun.fits
  obtain ⟨y, there', -, rests⟩ := tasks.resting less
  obtain rfl := Option.some.inj (there.symm.trans there')
  have on (q : RunPc) (fits : Fits s.m s.sh.nextFiber q) (same : q.cbTask = (RunPc.settle b f).cbTask) :
      Inv cfg (s.goto (.run q)) :=
    inv.on tasks inRun rfl fits (inRun.keeps.same same) rfl tasks.queue (fun _ => id) rfl rfl
  simp only [runStep, Loop.settle, view_state there]
  split
  · exact on _ less (by cases b <;> rfl)
  · rename_i ready
    split
    · rename_i ended
      cases b with
      | fiber => exact on _ trivial rfl
      | cb => exact on _ ⟨less, x, there, ended⟩ rfl
    · rename_i live
      refine on _ ⟨less, x, there, ?_⟩ (by cases b <;> rfl)
      obtain ⟨init, -⟩ | ⟨hold | ready', -⟩ | ⟨ended, -⟩ := rests
      · exact (begun init).elim
      · exact hold
      · exact (ready ready').elim
      · exact (live ended).elim

/-- Back to the loop: the callback branch has given its fiber away. -/
theorem Keeps.release (n : State) (b : Branch) (keeps : Keeps m n.cbFiber p)
    (free : b = .fiber → p.cbTask = none) : Keeps m (n.release b).cbFiber .loop := by
  cases b with
  | fiber => exact keeps.free (free rfl) rfl
  | cb => exact keeps_none rfl

theorem release_cb {n : State} : (n.release b).cbFiber = some c → n.cbFiber = some c := by
  cases b with
  | fiber => exact id
  | cb => simp [State.release, State.goto]

theorem release_m (n : State) (b : Branch) : (n.release b).m = { n.m with code := .run .loop } := by cases b <;> rfl
theorem release_sh (n : State) (b : Branch) : (n.release b).sh = n.sh := by cases b <;> rfl
theorem release_entered (n : State) (b : Branch) : (n.release b).entered = n.entered := by cases b <;> rfl
theorem release_failed (n : State) (b : Branch) : (n.release b).failed = n.failed := by cases b <;> rfl

theorem Inv.requeue (inv : Inv cfg s) (tasks : Tasks s none) (inRun : InRun cfg s (.requeue b f)) :
    Inv cfg (runStep cfg s (.requeue b f)) := by
  simp only [runStep]
  have free : b = .fiber → (RunPc.requeue b f).cbTask = none := by
    rintro rfl
    rfl
  refine inv.on tasks inRun (release_m _ b) trivial (Keeps.release _ b inRun.keeps free) ?_ ?_ (fun c => release_cb)
    (release_entered _ b) (release_failed _ b)
  · rw [release_sh]
  · rw [release_sh]
    intro task member g fiber
    obtain old | new := List.mem_append.mp member
    · exact tasks.queue task old g fiber
    · rw [List.mem_singleton.mp new] at fiber
      cases fiber
      exact inRun.fits

theorem Inv.setHold (inv : Inv cfg s) (tasks : Tasks s none) (inRun : InRun cfg s (.setHold b f)) :
    Inv cfg (runStep cfg s (.setHold b f)) := by
  obtain ⟨less, x, there, hold⟩ := inRun.fits
  obtain ⟨y, there', made, rests⟩ := tasks.resting less
  obtain rfl := Option.some.inj (there.symm.trans there')
  have same : { x with m_state := .hold } = x := by rw [← hold]
  simp only [runStep, there, same]
  refine inv.run (tasks.write ?_ made rests ?_ ?_ fun c kept => ?_)
    (inRun.write (release_m _ b) (.inr ⟨f, rfl⟩) (by simp) trivial ?_) (release_entered _ b) (release_failed _ b)
  · rw [release_m]
    rfl
  · rw [release_sh]
    exact fun g less _ => less
  · rw [release_sh]
    exact tasks.queue
  · rw [release_sh]
    have kept := release_cb kept
    exact tasks.cb c kept
  · refine Keeps.release _ b (inRun.keeps.switched (s.m.set_fibers_self _ x) (fun g => s.m.set_fibers x)
      fun w here none => ?_) ?_
    · obtain rfl := Option.some.inj (there.symm.trans here)
      exact none
    · rintro rfl
      rfl

/-- The callback fiber is reset and kept. -/
theorem Inv.resetCb (inv : Inv cfg s) (tasks : Tasks s none) (inRun : InRun cfg s (.resetCb c)) :
    Inv cfg (runStep cfg s (.resetCb c)) := by
  obtain ⟨less, x, there, ended⟩ := inRun.fits
  have resettable : (view s.m c).state.resettable = true := by
    rw [view_state there]
    cases state : x.m_state <;> simp_all [FiberState.ended, FiberState.resettable]
  have kept : s.cbFiber = some c := by
    obtain ⟨free, -⟩ | ⟨d, busy, kept⟩ := inRun.keeps
    · cases free
    · cases busy
      exact kept
  simp only [runStep, resettable, if_true]
  refine inv.run (tasks.write rfl (.inl rfl) (.inl ⟨rfl, rfl⟩) (fun g less _ => less) tasks.queue tasks.cb)
    (inRun.write rfl (.inr ⟨c, rfl⟩) (by simp) trivial (.inl ⟨rfl, fun d here => ?_⟩)) rfl rfl
  obtain rfl := Option.some.inj (kept.symm.trans here)
  exact ⟨_, s.m.set_fibers_self _ _, rfl⟩

/-- The scan has found nothing. -/
theorem Inv.miss (inv : Inv cfg s) (tasks : Tasks s none) (inRun : InRun cfg s (.dispatch none)) :
    Inv cfg (runStep cfg s (.dispatch none)) := by
  obtain ⟨x, there, -⟩ := inRun.idle
  have on (q : RunPc) (fits : Fits s.m s.sh.nextFiber q) (free : q.cbTask = none) : Inv cfg (s.goto (.run q)) :=
    inv.on tasks inRun rfl fits (inRun.keeps.free rfl free) rfl tasks.queue (fun _ => id) rfl rfl
  simp only [runStep, there]
  split
  · exact on _ trivial rfl
  · rename_i live
    exact on _ ⟨x, there, live⟩ rfl

theorem Inv.idleSwap (inv : Inv cfg s) (tasks : Tasks s none) (inRun : InRun cfg s .idleSwap) :
    Inv cfg (runStep cfg s .idleSwap) := by
  obtain ⟨x, there, made, rests⟩ := inRun.idle
  obtain ⟨y, there', notTerm⟩ := inRun.fits
  obtain rfl := Option.some.inj (there.symm.trans there')
  have live : x.m_state.ended = false := by
    obtain ⟨init, -⟩ | ⟨hold, -⟩ | ⟨term, -⟩ := rests
    · simp [init, FiberState.ended]
    · simp [hold, FiberState.ended]
    · exact (notTerm term).elim
  obtain ⟨t, swap, after⟩ := inRun.swapIn tasks there made rests live (by simp) rfl (inRun.keeps.free rfl rfl)
  obtain ⟨tasks', inFiber⟩ := after (s.entered ++ [x.m_state]) s.failed
  simp only [runStep, there, swap, State.switch]
  refine ⟨⟨_, tasks', .fiber inFiber⟩, fun st member => ?_, inv.failed⟩
  obtain old | new := List.mem_append.mp member
  · exact inv.entered st old
  · rw [List.mem_singleton.mp new]
    exact live

theorem Inv.idleSettle (inv : Inv cfg s) (tasks : Tasks s none) (inRun : InRun cfg s .idleSettle) :
    Inv cfg (runStep cfg s .idleSettle) := by
  obtain ⟨x, there, made, rests⟩ := inRun.idle
  obtain ⟨y, there', begun⟩ := inRun.fits
  obtain rfl := Option.some.inj (there.symm.trans there')
  have same : { x with m_state := if x.m_state.ended then x.m_state else .hold } = x := by
    obtain ⟨init, -⟩ | ⟨hold, -⟩ | ⟨term, -⟩ := rests
    · exact (begun init).elim
    · rw [hold]
      simp [FiberState.ended, ← hold]
    · rw [term]
      simp [FiberState.ended, ← term]
  simp only [runStep, there, same]
  have others (f : FiberId) : (s.m.set .idle x).fibers (.task f) = s.m.fibers (.task f) := s.m.set_fibers x (by simp)
  have tasks' : Tasks ({ s with m := s.m.set .idle x }.goto (.run .loop)) none :=
    tasks.keep others rfl tasks.queue fun _ => id
  refine inv.run tasks' (inRun.write rfl (.inl rfl) (fun _ => ⟨made, rests⟩) trivial ?_) rfl rfl
  exact (inRun.keeps.free rfl rfl).imp fun c w _ here none => ⟨w, (others c).trans here, none⟩

/-- `run()` returns: the worker ends, or the root fiber goes back to the caller in `stop()`. -/
theorem Inv.exited (inv : Inv cfg s) (tasks : Tasks s none) (inRun : InRun cfg s .exited) :
    Inv cfg (runStep cfg s .exited) := by
  simp only [runStep]
  split
  · rename_i useCaller
    obtain ⟨threadFiber, -, ⟨x, root⟩, caller⟩ := inRun.mains
    rw [Setup.main_caller useCaller] at root
    obtain ⟨y, thread, ctx⟩ := caller useCaller
    obtain ⟨t, back, returned⟩ := Thread.finish_back root threadFiber thread (by simp) false Code.past
    simp only [back, State.switch]
    have tasks' : Tasks { s with m := t } none :=
      tasks.keep (fun f => returned.others _ (by simp)) rfl tasks.queue fun _ => id
    exact ⟨⟨none, tasks', .outside ⟨useCaller, returned.code.trans ctx, returned.this,
      returned.threadFiber.trans threadFiber, fun before => by cases before⟩⟩, inv.entered, inv.failed⟩
  · exact ⟨⟨none, tasks.keep (fun _ => rfl) rfl tasks.queue fun _ => id, .ended rfl⟩, inv.entered, inv.failed⟩

/-- A step of `run()`, from a place between two switches. -/
theorem Inv.runStep (inv : Inv cfg s) (tasks : Tasks s none) (inRun : InRun cfg s p) : Inv cfg (runStep cfg s p) := by
  cases p with
  | start => exact inRun.fits.elim
  | loop => exact inv.loop tasks inRun
  | dispatch ft =>
    cases ft with
    | none => exact inv.miss tasks inRun
    | some ft => exact inv.dispatch tasks inRun
  | enter b f => exact inv.enter tasks inRun
  | dec b f =>
    have keeps : Keeps s.m s.cbFiber (.settle b f) := inRun.keeps.same (by cases b <;> rfl)
    exact inv.on tasks inRun rfl inRun.fits keeps rfl tasks.queue (fun _ => id) rfl rfl
  | settle b f => exact inv.settle tasks inRun
  | requeue b f => exact inv.requeue tasks inRun
  | setHold b f => exact inv.setHold tasks inRun
  | resetCb c => exact inv.resetCb tasks inRun
  | skip => exact inv.on tasks inRun rfl trivial (inRun.keeps.free rfl rfl) rfl tasks.queue (fun _ => id) rfl rfl
  | idleEnter =>
    exact inv.on tasks inRun rfl inRun.fits (inRun.keeps.free rfl rfl) rfl tasks.queue (fun _ => id) rfl rfl
  | idleSwap => exact inv.idleSwap tasks inRun
  | idleDec =>
    exact inv.on tasks inRun rfl inRun.fits (inRun.keeps.free rfl rfl) rfl tasks.queue (fun _ => id) rfl rfl
  | idleSettle => exact inv.idleSettle tasks inRun
  | exited => exact inv.exited tasks inRun

/-! ## The steps of the other places -/

/-- The start of `run()`. -/
theorem Inv.begin (inv : Inv cfg s) (tasks : Tasks s none) (begins : Begins cfg s) : Inv cfg (s.begin cfg) := by
  -- `idle_fiber` is written, whatever the pointers are
  have idle (m : Thread) : ∃ x, (m.set .idle (Fiber.new (some .idle))).fibers .idle = some x ∧ Ref.Made .idle x ∧
      Ref.Rests .idle x := ⟨_, m.set_fibers_self _ _, .inl rfl, .inl ⟨rfl, rfl⟩⟩
  have others (m : Thread) (G : Ref) (ne : G ≠ .idle) :
      (m.set .idle (Fiber.new (some .idle))).fibers G = m.fibers G := m.set_fibers _ ne
  have keeps (m : Thread) : Keeps m s.cbFiber .loop := by
    rw [begins.cb]
    exact keeps_none rfl
  cases caller : cfg.useCaller with
  | true =>
    obtain ⟨this, threadFiber, scheduler, ⟨x, main⟩, thread⟩ := begins.caller caller
    obtain ⟨y, there, ctx⟩ := thread caller
    simp only [State.begin, caller, if_true]
    have tasks' : Tasks ({ s with m := s.m.set .idle (Fiber.new (some .idle)) }.goto (.run .loop)) none :=
      tasks.keep (fun f => others s.m (.task f) (by simp)) rfl tasks.queue fun _ => id
    refine ⟨⟨none, tasks', .run (p := .loop) ⟨rfl, ?_, ⟨threadFiber, scheduler, ?_, fun _ => ?_⟩, idle s.m, trivial,
      keeps _⟩⟩, inv.entered, inv.failed⟩
    · rw [Setup.main_caller caller]
      exact this
    · exact ⟨x, (others s.m _ cfg.main_ne_idle.symm).trans main⟩
    · exact ⟨y, (others s.m .thread (by simp)).trans there, ctx⟩
  | false =>
    have none := begins.worker caller
    have made := idle ({ { s.m with t_fiber := some .thread, t_threadFiber := some .thread }.set .thread
      { m_state := .exec, m_ctx := .run .start } with t_scheduler_fiber := some .thread })
    simp only [State.begin, caller, Thread.getThis, none]
    refine ⟨⟨Option.none, tasks.keep (fun f => ?_) rfl tasks.queue fun _ => id, .run (p := .loop) ⟨rfl, ?_,
      ⟨rfl, ?_, ?_, fun useCaller => ?_⟩, made, trivial, keeps _⟩⟩, inv.entered, inv.failed⟩
    · simp [State.goto, Thread.set]
    · rw [Setup.main_worker caller]
      rfl
    · rw [Setup.main_worker caller]
      rfl
    · rw [Setup.main_worker caller]
      simp [State.goto, Thread.set]
    · rw [caller] at useCaller
      cases useCaller

/-- `stop()` calls the root fiber, which has not begun. -/
theorem Inv.callRoot (inv : Inv cfg s) (tasks : Tasks s none) (outside : Outside cfg s .test) :
    ∃ x t, s.m.fibers .root = some x ∧ s.m.call .root (.main .join) = some t ∧
      Inv cfg { s with m := t, entered := s.entered ++ [x.m_state] } := by
  obtain ⟨useCaller, -, -, threadFiber, root⟩ := outside
  obtain ⟨scheduler, ⟨y, thread⟩, ⟨x, root, init, ctx, cb⟩, kept⟩ := root rfl
  obtain ⟨t, call, entered⟩ := Thread.call_enters root threadFiber thread (by simp) (.main .join)
  have main := Setup.main_caller useCaller
  refine ⟨x, t, root, call, ⟨none, ?_, .begins ⟨.inl ⟨useCaller, entered.code.trans ctx, _, entered.fiber, cb⟩, ?_, ?_,
    kept⟩⟩, fun st member => ?_, inv.failed⟩
  · exact tasks.keep (fun f => entered.others _ (by simp) (by simp)) rfl tasks.queue fun _ => id
  · refine fun _ => ⟨entered.this, entered.threadFiber.trans threadFiber, ?_, ?_, fun _ => ⟨_, entered.saved, rfl⟩⟩
    · exact entered.schedulerFiber.trans (main ▸ scheduler)
    · exact ⟨_, main ▸ entered.fiber⟩
  · intro worker
    rw [useCaller] at worker
    cases worker
  · obtain old | new := List.mem_append.mp member
    · exact inv.entered st old
    · rw [List.mem_singleton.mp new, init]
      rfl

/-- A step of `stop()` that stays on the caller's stack. -/
theorem Inv.stay {n : State} {p q : StopPc} (inv : Inv cfg s) (tasks : Tasks s none) (outside : Outside cfg s p)
    (here : n.m = { s.m with code := .main q }) (before : StopPc.before q = true → StopPc.before p = true)
    (next : n.sh.nextFiber = s.sh.nextFiber) (queue : n.sh.queue = s.sh.queue) (cb : n.cbFiber = s.cbFiber)
    (entered : n.entered = s.entered) (failed : n.failed = s.failed) : Inv cfg n := by
  obtain ⟨useCaller, -, this, threadFiber, root⟩ := outside
  have known : n.sh.Known := by
    intro task member f fiber
    rw [next]
    exact tasks.queue task (queue ▸ member) f fiber
  have tasks' : Tasks n none := tasks.keep (fun f => by rw [here]) next known fun c kept => cb ▸ kept
  refine ⟨⟨none, tasks', .outside (p := q) ⟨useCaller, ?_, ?_, ?_, fun early => ?_⟩⟩,
    fun st member => inv.entered st (entered ▸ member), failed.trans inv.failed⟩
  · rw [here]
  · rw [here]
    exact this
  · rw [here]
    exact threadFiber
  · rw [here, cb]
    exact root (before early)

theorem Inv.stop {p : StopPc} (inv : Inv cfg s) (tasks : Tasks s none) (outside : Outside cfg s p)
    (step : stopStep s p = some s') : Inv cfg s' := by
  cases p with
  | notCalled | setStopping =>
    simp only [stopStep] at step
    cases step
    exact inv.stay tasks outside rfl (fun _ => rfl) rfl rfl rfl rfl rfl
  | first =>
    obtain ⟨-, -, ⟨x, root, init, -⟩, -⟩ := outside.root rfl
    simp only [stopStep, root, init, Option.bind_eq_bind, Option.bind_some, or_true, if_true] at step
    cases step
    exact inv.stay tasks outside rfl (fun _ => rfl) rfl rfl rfl rfl rfl
  | firstStopping =>
    simp only [stopStep] at step
    cases step
    exact inv.stay tasks outside rfl (fun _ => rfl) rfl rfl rfl rfl rfl
  | test =>
    simp only [stopStep] at step
    split at step
    · cases step
      exact inv.stay tasks outside rfl (fun _ => rfl) rfl rfl rfl rfl rfl
    · obtain ⟨x, t, root, call, inv'⟩ := inv.callRoot tasks outside
      simp only [root, call, State.switch] at step
      cases step
      exact inv'
  | join =>
    simp only [stopStep] at step
    cases step
    exact inv.stay tasks outside rfl (fun early => by cases early) rfl rfl rfl rfl rfl
  | inRoot | returned => cases step

/-- A switch out of the fiber that executes. -/
theorem Inv.left (inv : Inv cfg s) (tasks : Tasks { s with m := t } none) (inRun : InRun cfg { s with m := t } q) :
    Inv cfg (s.switch (some t)) :=
  ⟨⟨none, tasks, .run inRun⟩, inv.entered, inv.failed⟩

/-- `MainFunc` calls the function of the fiber, which may be empty. -/
theorem Inv.call (inv : Inv cfg s) (tasks : Tasks s (some F)) (inFiber : InFiber cfg s F q) :
    Inv cfg (enterStep s false) := by
  obtain ⟨x, fiber, exec, -, made⟩ := inFiber.fiber_made tasks
  have this := inFiber.this
  have call {k : Code} (at_ : F.At x.m_cb k) : Inv cfg (s.goto k) :=
    ⟨⟨_, tasks.keep (fun _ => rfl) rfl tasks.queue fun _ => id, .fiber ⟨this, inFiber.mains.goto k, inFiber.made,
      ⟨x, fiber, exec, at_⟩, inFiber.idle, inFiber.behind, inFiber.back, inFiber.keeps⟩⟩, inv.entered, inv.failed⟩
  unfold enterStep
  simp only [this, fiber]
  cases F with
  | thread | root => exact inFiber.behind.elim
  | idle =>
    have cb : x.m_cb = some .idle := made.resolve_right (by simp [exec])
    simp only [cb]
    exact call (.inr rfl)
  | task f =>
    obtain none | cb := made
    · obtain ⟨t, ended, tasks', inRun⟩ := inFiber.finish tasks true (by simp)
      simp only [none, ended]
      exact inv.left tasks' inRun
    · simp only [cb]
      exact call (.inr ⟨rfl, cb⟩)

/-- The code of a fiber. -/
theorem Inv.idle {caller : Bool} {cur : Ref} (inv : Inv cfg s) (tasks : Tasks s (some F)) (inFiber : InFiber cfg s F q)
    (code : s.m.code = .idle caller cur) (step : nextStep cfg s = some s') : Inv cfg s' := by
  obtain ⟨x, fiber, exec, at_⟩ := inFiber.fiber
  cases F with
  | thread | root => exact at_.elim
  | task f =>
    obtain entry | ⟨body, -⟩ := at_
    · cases code.symm.trans entry
    · cases code.symm.trans body
  | idle =>
    obtain entry | here := at_
    · cases code.symm.trans entry
    · obtain ⟨rfl, rfl⟩ := Code.idle.inj (code.symm.trans here)
      simp only [nextStep, code] at step
      cases step
      split
      · obtain ⟨t, ended, tasks', inRun⟩ := inFiber.finish tasks false fun _ => rfl
        rw [ended]
        exact inv.left tasks' inRun
      · have rests : ∀ cb, Ref.At .idle cb s.m.code → Ref.Rests .idle ⟨.hold, .idle false .idle, cb⟩ :=
          fun _ _ => .inr (.inl ⟨rfl, rfl⟩)
        obtain ⟨t, yielded, tasks', inRun⟩ := inFiber.yieldTo tasks rests (by simp)
        rw [yielded]
        exact inv.left tasks' inRun

/-- Only the queue is written, or a flag. -/
theorem Inv.sh {sh : Shared} (inv : Inv cfg s) (next : sh.nextFiber = s.sh.nextFiber)
    (queue : s.sh.Known → sh.Known) : Inv cfg { s with sh } := by
  obtain ⟨⟨busy, tasks, place⟩, entered, failed⟩ := inv
  refine ⟨⟨busy, tasks.keep (fun _ => rfl) next (queue tasks.queue) fun _ => id, ?_⟩, entered, failed⟩
  cases place with
  | outside outside => exact .outside ⟨outside.caller, outside.code, outside.this, outside.threadFiber, outside.root⟩
  | begins begins => exact .begins ⟨begins.code, begins.caller, begins.worker, begins.cb⟩
  | run inRun =>
    exact .run ⟨inRun.code, inRun.this, inRun.mains, inRun.idle, next ▸ inRun.fits, inRun.keeps⟩
  | fiber inFiber =>
    exact .fiber ⟨inFiber.this, inFiber.mains, fun f same => next ▸ inFiber.made f same, inFiber.fiber, inFiber.idle,
      inFiber.behind, inFiber.back, inFiber.keeps⟩
  | ended code => exact .ended code

theorem Fits.create {made : FiberId} (fits : Fits m made p) (z : Fiber) :
    Fits (m.set (.task made) z) (made + 1) p := by
  -- the fibers that exist are not the new one
  have other {f : FiberId} {P : Fiber → Prop} : (f < made ∧ ∃ x, m.fibers (.task f) = some x ∧ P x) →
      f < made + 1 ∧ ∃ x, (m.set (.task made) z).fibers (.task f) = some x ∧ P x := by
    rintro ⟨less, x, there, holds⟩
    exact ⟨Nat.lt_succ_of_lt less, x, (m.set_fibers z (by simp [Nat.ne_of_lt less])).trans there, holds⟩
  have idle {P : Fiber → Prop} : (∃ x, m.fibers .idle = some x ∧ P x) →
      ∃ x, (m.set (.task made) z).fibers .idle = some x ∧ P x := by
    rintro ⟨x, there, holds⟩
    exact ⟨x, (m.set_fibers z (by simp)).trans there, holds⟩
  cases p with
  | start => exact fits.elim
  | loop | skip | exited => trivial
  | dispatch ft =>
    cases ft with
    | none => trivial
    | some ft => exact fun f fiber => Nat.lt_succ_of_lt (fits f fiber)
  | enter b f | dec b f | settle b f | setHold b f | resetCb f => exact other fits
  | requeue b f => exact Nat.lt_succ_of_lt fits
  | idleEnter | idleSwap | idleDec | idleSettle => exact idle fits

theorem Inv.create (inv : Inv cfg s) :
    Inv cfg { s with
      m := s.m.set (.task s.sh.nextFiber) (Fiber.new (some .user))
      sh := { s.sh with nextFiber := s.sh.nextFiber + 1 } } := by
  obtain ⟨⟨busy, tasks, place⟩, entered, failed⟩ := inv
  have others (G : Ref) (ne : G ≠ .task s.sh.nextFiber) :
      (s.m.set (.task s.sh.nextFiber) (Fiber.new (some .user))).fibers G = s.m.fibers G := s.m.set_fibers _ ne
  have old (f : FiberId) (less : f < s.sh.nextFiber) : Ref.task f ≠ .task s.sh.nextFiber := by
    simp [Nat.ne_of_lt less]
  have main : cfg.main ≠ .task s.sh.nextFiber := (cfg.main_ne_task _).symm
  have mains (mains : Mains cfg s.m) : Mains cfg (s.m.set (.task s.sh.nextFiber) (Fiber.new (some .user))) := by
    obtain ⟨x, there⟩ := mains.main
    exact mains.switched rfl rfl ⟨x, (others _ main).trans there⟩ fun _ => others .thread (by simp)
  have keeps {p : RunPc} (keeps : Keeps s.m s.cbFiber p) :
      Keeps (s.m.set (.task s.sh.nextFiber) (Fiber.new (some .user))) s.cbFiber p :=
    keeps.imp fun c x kept there none => ⟨x, (others _ (old c (tasks.cb c kept))).trans there, none⟩
  refine ⟨⟨busy, ⟨fun f less => ?_, fun task member f fiber => ?_, fun c kept => ?_⟩, ?_⟩, entered, failed⟩
  · by_cases same : f = s.sh.nextFiber
    · subst same
      exact ⟨_, s.m.set_fibers_self _ _, .inr rfl, fun _ => .inl ⟨rfl, rfl⟩⟩
    · have less : f < s.sh.nextFiber := Nat.lt_of_le_of_ne (Nat.le_of_lt_succ less) same
      obtain ⟨x, there, found⟩ := tasks.made f less
      exact ⟨x, (others _ (old f less)).trans there, found⟩
  · exact Nat.lt_succ_of_lt (tasks.queue task member f fiber)
  · exact Nat.lt_succ_of_lt (tasks.cb c kept)
  · cases place with
    | outside outside =>
      refine .outside ⟨outside.caller, outside.code, outside.this, outside.threadFiber, fun before => ?_⟩
      obtain ⟨scheduler, ⟨y, thread⟩, ⟨x, root, holds⟩, kept⟩ := outside.root before
      exact ⟨scheduler, ⟨y, (others .thread (by simp)).trans thread⟩, ⟨x, (others .root (by simp)).trans root, holds⟩,
        kept⟩
    | begins begins =>
      refine .begins ⟨begins.code.imp_left fun ⟨useCaller, code, x, root, cb⟩ => ⟨useCaller, code, x,
        (others .root (by simp)).trans root, cb⟩, fun useCaller => ?_, begins.worker, begins.cb⟩
      obtain ⟨this, pointers⟩ := begins.caller useCaller
      exact ⟨this, mains pointers⟩
    | run inRun =>
      obtain ⟨x, idle, rests⟩ := inRun.idle
      exact .run ⟨inRun.code, inRun.this, mains inRun.mains, ⟨x, (others .idle (by simp)).trans idle, rests⟩,
        inRun.fits.create _, keeps inRun.keeps⟩
    | @fiber F p inFiber =>
      obtain ⟨x, idle, rests⟩ := inFiber.idle
      obtain ⟨y, fiber, exec⟩ := inFiber.fiber
      obtain ⟨w, back, ctx⟩ := inFiber.back
      have ne : F ≠ .task s.sh.nextFiber := by
        rintro rfl
        exact Nat.lt_irrefl _ (inFiber.made _ rfl)
      exact .fiber ⟨inFiber.this, mains inFiber.mains, fun f same => Nat.lt_succ_of_lt (inFiber.made f same),
        ⟨y, (others F ne).trans fiber, exec⟩, ⟨x, (others .idle (by simp)).trans idle, rests⟩, inFiber.behind,
        ⟨w, (others _ main).trans back, ctx⟩, keeps inFiber.keeps⟩
    | ended code => exact .ended code

/-- The code of a task is executed by a task's fiber. -/
theorem Inv.body {caller : Bool} (inv : Inv cfg s) (code : s.m.code = .body caller F) :
    ∃ f q, caller = false ∧ F = .task f ∧ Tasks s (some (.task f)) ∧ InFiber cfg s (.task f) q := by
  obtain ⟨busy, tasks, place⟩ := inv.place
  cases place with
  | outside outside => cases code.symm.trans outside.code
  | begins begins =>
    obtain ⟨-, code', -⟩ | code' := begins.code
    · cases code.symm.trans code'
    · cases code.symm.trans code'
  | run inRun => cases code.symm.trans inRun.code
  | ended code' => cases code.symm.trans code'
  | @fiber G q inFiber =>
    obtain ⟨x, fiber, exec, at_⟩ := inFiber.fiber
    cases G with
    | thread | root => exact at_.elim
    | idle =>
      obtain entry | idle := at_
      · cases code.symm.trans entry
      · cases code.symm.trans idle
    | task f =>
      obtain entry | ⟨here, -⟩ := at_
      · cases code.symm.trans entry
      · obtain ⟨rfl, rfl⟩ := Code.body.inj (code.symm.trans here)
        exact ⟨f, q, rfl, rfl, tasks, inFiber⟩

/-- The code of a task: it yields, ends or schedules. -/
theorem Inv.user {u : UserAct} (inv : Inv cfg s) (step : userStep s u = some s') : Inv cfg s' := by
  unfold userStep at step
  split at step
  · rename_i caller cur code
    obtain ⟨f, q, rfl, rfl, tasks, inFiber⟩ := inv.body code
    -- a switch loads the place in `run()` behind the one into the fiber
    have ends (threw : Bool) : Inv cfg (s.switch (s.m.finish false threw (.task f) .past)) := by
      obtain ⟨t, ended, tasks', inRun⟩ := inFiber.finish tasks threw (by simp)
      rw [ended]
      exact inv.left tasks' inRun
    have yields (st : FiberState) (state : st = .hold ∨ st = .ready) :
        Inv cfg (s.switch (s.m.yieldTo st (.body false (.task f)))) := by
      have rests : ∀ cb, Ref.At (.task f) cb s.m.code → Ref.Rests (.task f) ⟨st, .body false (.task f), cb⟩ := by
        rintro cb (entry | ⟨-, user⟩)
        · cases code.symm.trans entry
        · exact .inr (.inl ⟨state, rfl, user⟩)
      have begun : st ≠ .init := by
        rintro rfl
        simp at state
      obtain ⟨t, yielded, tasks', inRun⟩ := inFiber.yieldTo tasks rests begun
      rw [yielded]
      exact inv.left tasks' inRun
    cases u with
    | throw => cases step; exact ends true
    | ret => cases step; exact ends false
    | yieldReady => cases step; exact yields .ready (.inr rfl)
    | yieldHold => cases step; exact yields .hold (.inl rfl)
    | schedule r =>
      simp only at step
      split at step
      · rename_i known
        cases step
        exact inv.sh (Sched.schedule_nextFiber _ _ _) fun queue => Sched.schedule_known queue known
      · cases step
  · cases step

theorem Inv.next (inv : Inv cfg s) (step : nextStep cfg s = some s') : Inv cfg s' := by
  obtain ⟨busy, tasks, place⟩ := inv.place
  cases place with
  | outside outside =>
    simp only [nextStep, outside.code] at step
    exact inv.stop tasks outside step
  | begins begins =>
    obtain ⟨useCaller, code, x, root, cb⟩ | code := begins.code
    · simp only [nextStep, code] at step
      obtain ⟨this, mains⟩ := begins.caller useCaller
      simp only [enterStep, this, root, cb] at step
      cases step
      refine ⟨⟨none, tasks.keep (fun _ => rfl) rfl tasks.queue fun _ => id, .begins ⟨.inr rfl, fun _ => ?_,
        fun worker => ?_, begins.cb⟩⟩, inv.entered, inv.failed⟩
      · exact ⟨this, mains.goto _⟩
      · rw [useCaller] at worker
        cases worker
    · simp only [nextStep, code, Loop.runStep] at step
      cases step
      exact inv.begin tasks begins
  | run inRun =>
    simp only [nextStep, inRun.code] at step
    cases step
    exact inv.runStep tasks inRun
  | ended code => simp [nextStep, code] at step
  | @fiber F q inFiber =>
    obtain ⟨x, fiber, exec, at_⟩ := inFiber.fiber
    cases F with
    | thread | root => exact at_.elim
    | idle =>
      obtain entry | idle := at_
      · simp only [nextStep, entry] at step
        cases step
        exact inv.call tasks inFiber
      · exact inv.idle tasks inFiber idle step
    | task f =>
      obtain entry | ⟨body, -⟩ := at_
      · simp only [nextStep, entry] at step
        cases step
        exact inv.call tasks inFiber
      · simp [nextStep, body] at step

theorem Inv.step (inv : Inv cfg s) (step : step cfg s a = some s') : Inv cfg s' := by
  simp only [Loop.step] at step
  split at step
  · cases step
  · cases a with
    | next => exact inv.next step
    | user u => exact inv.user step
    | external r =>
      simp only at step
      split at step
      · rename_i known
        cases step
        exact inv.sh (Sched.schedule_nextFiber _ _ _) fun queue => Sched.schedule_known queue known
      · cases step
    | create =>
      cases step
      exact inv.create
    | stop =>
      simp only at step
      split at step
      · cases step
      · cases step
        exact inv.sh rfl id

theorem inv_init (cfg : Setup) : Inv cfg (init cfg) := by
  have tasks : Tasks (init cfg) none := by
    refine ⟨fun f less => ?_, fun task member => ?_, fun c kept => ?_⟩
    · cases less
    · cases member
    · cases kept
  refine ⟨⟨none, tasks, ?_⟩, by simp [init], rfl⟩
  cases caller : cfg.useCaller with
  | true =>
    refine .outside (p := .notCalled) ⟨caller, ?_, ?_, ?_, fun _ => ?_⟩
    · simp [init, caller]
    · simp [init, caller]
    · simp [init, caller]
    · simp [init, caller]
  | false =>
    refine .begins ⟨.inr ?_, fun useCaller => ?_, fun _ => ?_, rfl⟩
    · simp [init, caller]
    · rw [caller] at useCaller
      cases useCaller
    · simp [init, caller]

/-- **The current fiber** is the one that executes, in every state of every run. -/
theorem discipline {acts : List Act} (run : exec (step cfg) (init cfg) acts = some s) : Disciplined cfg s :=
  ((Guarded.of_exec run).invariant (I := Inv cfg) (inv_init cfg) fun _ _ _ _ _ inv _ step => inv.step step).disciplined

/-- A caller's scheduler with one callback, which yields once. -/
def yieldOnce : List Act :=
  .external (.one .cb none) :: List.replicate 11 .next ++ [.user .yieldReady] ++ List.replicate 6 .next ++
    [.user .ret] ++ List.replicate 14 .next

theorem discipline_yieldOnce : ∃ s, exec (step ⟨0, true⟩) (init ⟨0, true⟩) yieldOnce = some s ∧
    s.m.code = .main .returned ∧ s.entered = [.init, .init, .ready, .init] ∧ Disciplined ⟨0, true⟩ s := by
  obtain ⟨s, run, test⟩ := exec_of_any (show (exec (step ⟨0, true⟩) (init ⟨0, true⟩) yieldOnce).any
    (fun s => s.m.code = .main .returned ∧ s.entered = [.init, .init, .ready, .init]) = true by decide)
  obtain ⟨returned, entered⟩ := of_decide_eq_true test
  exact ⟨s, run, returned, entered, discipline run⟩

end Atpdxy.Fibers.Loop
