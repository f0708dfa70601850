import Atpdxy.Fibers.Switch

/-!
# A fiber that is reset

`reset` builds the context again, always with `MainFunc`, where the constructor
takes `CallerMainFunc` for a fiber of the thread that makes it (`use_caller`). The two
differ at the end of the callback: one switches to the scheduler's main fiber, the
other to the thread's. `Alike` compares all that can be seen of a reset fiber
with what can be seen of a new one; what executes outside of the fiber is a tag.
-/

namespace Atpdxy.Fibers.Reset

open Sched (FiberState)

/-- How a segment of the callback ends. -/
inductive Stop
  | toHold | toReady
  | returns | throws
  deriving DecidableEq, Repr

/-- The callback, by its segments. -/
abbrev Callback := Nat → Stop

def Callback.ends (cb : Callback) (i : Nat) : Bool := cb i = .returns || cb i = .throws

/-- Where the thread is. -/
inductive Code (ι : Type)
  /-- outside of the fiber -/
  | env (tag : Nat)
  /-- at the start of `MainFunc` or `CallerMainFunc` -/
  | entry (caller : Bool)
  /-- about to execute segment `i`; `cur` is the fiber the function began with -/
  | segment (caller : Bool) (cur : ι) (cb : Callback) (i : Nat)
  /-- behind the last switch of the function -/
  | past

variable {ι : Type} [DecidableEq ι]

abbrev Fiber (ι : Type) := Fibers.Fiber (Code ι) Callback
abbrev Thread (ι : Type) := Fibers.Thread ι (Code ι) Callback

/-- `Fiber(cb, stacksize, use_caller)`. -/
def Fiber.new (useCaller : Bool) (cb : Callback) : Fiber ι := { m_ctx := .entry useCaller, m_cb := some cb }

/-- `Fiber::reset`. -/
def Fiber.reset (x : Fiber ι) (cb : Callback) : Option (Fiber ι) :=
  if x.m_state.resettable then some { x with m_state := .init, m_ctx := .entry false, m_cb := some cb } else none

/-- What happens next: the code outside enters the fiber, and goes on at the tag when that
returns; or the next step inside. -/
inductive Move
  | enter (tag : Nat)
  | next
  deriving DecidableEq, Repr

/-- A step; a fiber of the thread is entered by `call`, another by `swapIn`. -/
def step (useCaller : Bool) (f : ι) (m : Thread ι) : Move → Option (Thread ι)
  | .enter tag =>
    match m.code with
    | .env _ => if useCaller then m.call f (.env tag) else m.swapIn f (.env tag)
    | _ => none
  | .next =>
    match m.code with
    | .env _ | .past => none
    | .entry caller => do
      let cur ← m.t_fiber
      let x ← m.fibers cur
      match x.m_cb with
      | some cb => return { m with code := .segment caller cur cb 0 }
      | none => m.finish caller true cur .past
    | .segment caller cur cb i =>
      match cb i with
      | .toHold => m.yieldTo .hold (.segment caller cur cb (i + 1))
      | .toReady => m.yieldTo .ready (.segment caller cur cb (i + 1))
      | .returns => m.finish caller false cur .past
      | .throws => m.finish caller true cur .past

def run (useCaller : Bool) (f : ι) : List Move → Thread ι → Option (Thread ι)
  | [], m => some m
  | a :: as, m => (step useCaller f m a).bind (run useCaller f as)

/-- What can be seen of a place: not which function it is in. -/
inductive Seen (ι : Type)
  | env (tag : Nat)
  | entry
  | segment (cur : ι) (i : Nat)
  | past
  deriving DecidableEq, Repr

def Code.seen : Code ι → Seen ι
  | .env tag => .env tag
  | .entry _ => .entry
  | .segment _ cur _ i => .segment cur i
  | .past => .past

/-- The place, the current fiber and the state of the fiber; none when the thread has failed. -/
def observe (f : ι) (m : Option (Thread ι)) : Option (Seen ι × Option ι × Option FiberState) :=
  m.map fun m => (m.code.seen, m.t_fiber, (m.fibers f).map fun x => x.m_state)

/-- After any moves, both are seen to do the same. -/
def Alike (useCaller : Bool) (f : ι) (a b : Thread ι) : Prop :=
  ∀ moves, observe f (run useCaller f moves a) = observe f (run useCaller f moves b)

/-- The thread is outside of the fiber, and so is where it goes on in another. -/
structure Outside (m : Thread ι) (f : ι) : Prop where
  code : ∃ tag, m.code = .env tag
  others : ∀ g x, g ≠ f → m.fibers g = some x → ∃ tag, x.m_ctx = .env tag

/-- The pointer is to another fiber. -/
def Other (m : Thread ι) (f : ι) (p : Option ι) : Prop := ∃ g, p = some g ∧ g ≠ f ∧ (m.fibers g).isSome = true

/-- The fiber comes to the end of the callback: in the first segment; in the second, where a yield
goes on at once, in the scheduler's main fiber itself; in any, where a yield leaves it. -/
def Comes (m : Thread ι) (f : ι) (cb : Callback) : Prop :=
  ∃ n, cb.ends n = true ∧ (n = 0 ∨ (n = 1 ∧ m.t_scheduler_fiber = some f) ∨ Other m f m.t_scheduler_fiber)

variable {m a b : Thread ι} {f g : ι} {x y : Fiber ι} {cb : Callback} {useCaller : Bool} {mv : Move} {i n : Nat}

/-! ## Where the two functions are the same -/

/-- The same place in `CallerMainFunc`. -/
def Code.asCaller : Code ι → Code ι
  | .entry _ => .entry true
  | .segment _ cur cb i => .segment true cur cb i
  | c => c

def asCaller (m : Thread ι) : Thread ι := m.map Code.asCaller

omit [DecidableEq ι] in
theorem asCaller_t_fiber (m : Thread ι) : (asCaller m).t_fiber = m.t_fiber := rfl

omit [DecidableEq ι] in
theorem asCaller_fibers (m : Thread ι) (f : ι) :
    (asCaller m).fibers f = (m.fibers f).map (Fiber.map Code.asCaller) := rfl

omit [DecidableEq ι] in
theorem observe_asCaller (f : ι) (m : Option (Thread ι)) : observe f (m.map asCaller) = observe f m := by
  cases m with
  | none => rfl
  | some m =>
    have seen : m.code.asCaller.seen = m.code.seen := by cases m.code <;> rfl
    simp [observe, asCaller, Thread.map, seen]
    cases m.fibers f <;> simp [Fiber.map]

/-- The next step is the last of the function. -/
def Ending (m : Thread ι) : Prop :=
  (∃ caller cur x, m.code = .entry caller ∧ m.t_fiber = some cur ∧ m.fibers cur = some x ∧ x.m_cb = none) ∨
    ∃ caller cur cb i, m.code = .segment caller cur cb i ∧ cb.ends i = true

/-- Both switch to the same fiber. -/
theorem finish_eq (same : m.t_scheduler_fiber = m.t_threadFiber) (caller caller' threw : Bool) (f : ι) (k : Code ι) :
    m.finish caller threw f k = m.finish caller' threw f k := by
  cases fiber : m.fibers f with
  | none => simp [Thread.finish, fiber]
  | some x =>
    have switch : (m.set f (x.finished threw)).back f k = (m.set f (x.finished threw)).swapOut f k := by
      simp [Thread.back, Thread.swapOut, same]
    cases caller <;> cases caller' <;> simp [Thread.finish, fiber, switch]

/-- A step that is not the last is the same in both. -/
theorem step_asCaller (common : m.t_scheduler_fiber = m.t_threadFiber ∨ ¬ Ending m) (f : ι) (mv : Move) :
    step true f (asCaller m) mv = (step true f m mv).map asCaller := by
  have last (caller threw : Bool) (cur : ι) (same : m.t_scheduler_fiber = m.t_threadFiber) :
      (asCaller m).finish true threw cur .past = (m.finish caller threw cur .past).map asCaller := by
    rw [finish_eq same caller true]
    exact Thread.map_finish Code.asCaller m true threw cur .past
  cases mv with
  | enter tag =>
    cases code : m.code with
    | env tag' =>
      have call := Thread.map_call Code.asCaller m f (.env tag)
      have code' : (asCaller m).code = .env tag' := congrArg Code.asCaller code
      simp only [step, code, code', if_true]
      exact call
    | entry _ | segment _ _ _ _ | past => simp [step, asCaller, Thread.map, code, Code.asCaller]
  | next =>
    cases code : m.code with
    | env _ | past => simp [step, asCaller, Thread.map, code, Code.asCaller]
    | entry caller =>
      have code' : (asCaller m).code = .entry true := congrArg Code.asCaller code
      cases this : m.t_fiber with
      | none => simp [step, code, code', asCaller_t_fiber, this]
      | some cur =>
        cases fiber : m.fibers cur with
        | none => simp [step, code, code', asCaller_t_fiber, asCaller_fibers, this, fiber]
        | some x =>
          cases cb : x.m_cb with
          | none =>
            have same : m.t_scheduler_fiber = m.t_threadFiber := by
              refine common.resolve_right fun still => still (.inl ⟨caller, cur, x, code, this, fiber, cb⟩)
            have ends := last caller true cur same
            simpa [step, code, code', asCaller_t_fiber, asCaller_fibers, Fiber.map, this, fiber, cb] using ends
          | some cb' =>
            simp [step, code, code', asCaller_t_fiber, asCaller_fibers, Fiber.map, this, fiber, cb]
            rfl
    | segment caller cur cb i =>
      have code' : (asCaller m).code = .segment true cur cb i := congrArg Code.asCaller code
      simp only [step, code, code']
      cases stop : cb i with
      | toHold => exact Thread.map_yieldTo Code.asCaller m .hold (.segment caller cur cb (i + 1))
      | toReady => exact Thread.map_yieldTo Code.asCaller m .ready (.segment caller cur cb (i + 1))
      | returns =>
        refine last caller false cur (common.resolve_right fun still => still (.inr ⟨caller, cur, cb, i, code, ?_⟩))
        simp [Callback.ends, stop]
      | throws =>
        refine last caller true cur (common.resolve_right fun still => still (.inr ⟨caller, cur, cb, i, code, ?_⟩))
        simp [Callback.ends, stop]

/-- What cannot be seen in any step cannot be seen in a run. -/
theorem alike_of_invariant {I : Thread ι → Prop} (start : I m)
    (keep : ∀ a mv b, I a → step true f a mv = some b → I b)
    (common : ∀ a, I a → a.t_scheduler_fiber = a.t_threadFiber ∨ ¬ Ending a) : Alike true f m (asCaller m) := by
  intro moves
  induction moves generalizing m with
  | nil => exact (observe_asCaller f (some m)).symm
  | cons mv moves ih =>
    rw [run, run, step_asCaller (common m start)]
    cases next : step true f m mv with
    | none => rfl
    | some b => exact ih (keep m mv b start next)

/-- A new fiber is the reset one in the other function. -/
theorem set_new (outside : Outside m f) (cb : Callback) :
    m.set f (Fiber.new true cb) = asCaller (m.set f (Fiber.new false cb)) := by
  obtain ⟨⟨tag, code⟩, others⟩ := outside
  have fibers : ∀ g, (m.set f (Fiber.new true cb)).fibers g = (asCaller (m.set f (Fiber.new false cb))).fibers g := by
    intro g
    rw [asCaller_fibers]
    by_cases same : g = f
    · subst same
      simp [Fiber.new, Fiber.map, Code.asCaller]
    · rw [Thread.set_fibers _ _ same, Thread.set_fibers _ _ same]
      cases fiber : m.fibers g with
      | none => rfl
      | some x =>
        obtain ⟨tag, ctx⟩ := others g x same fiber
        have same : x.m_ctx.asCaller = x.m_ctx := by rw [ctx]; rfl
        simp [Fiber.map, same]
  have place : (m.set f (Fiber.new true cb)).code = (asCaller (m.set f (Fiber.new false cb))).code := by
    simp [asCaller, Thread.map, code, Code.asCaller]
  have all := funext fibers
  simp only [asCaller, Thread.map, Thread.set, Thread.mk.injEq] at all place ⊢
  exact ⟨all, trivial, trivial, trivial, place⟩

theorem step_pointers (step : step useCaller f a mv = some b) : SamePointers a b := by
  cases mv with
  | enter tag =>
    simp only [Reset.step] at step
    split at step
    · split at step
      · exact Thread.call_pointers step
      · exact Thread.swapIn_pointers step
    · cases step
  | next =>
    simp only [Reset.step, Option.bind_eq_bind] at step
    split at step
    · cases step
    · cases step
    · obtain ⟨cur, -, step⟩ := Option.bind_eq_some_iff.mp step
      obtain ⟨x, -, step⟩ := Option.bind_eq_some_iff.mp step
      split at step
      · cases step
        exact ⟨rfl, rfl⟩
      · exact Thread.finish_pointers step
    · split at step
      · exact Thread.yieldTo_pointers step
      · exact Thread.yieldTo_pointers step
      · exact Thread.finish_pointers step
      · exact Thread.finish_pointers step

/-! ## A callback that never comes to its end -/

/-- The segment can be begun. -/
def Begun (m : Thread ι) (f : ι) (i : Nat) : Prop :=
  i = 0 ∨ (i = 1 ∧ m.t_scheduler_fiber = some f) ∨ Other m f m.t_scheduler_fiber

/-- Outside of the fiber. -/
def Code.Outer (c : Code ι) : Prop := ∃ tag, c = .env tag

/-- What a context of the fiber may be, saved on thread `a`. -/
def Saved (m : Thread ι) (f : ι) (cb : Callback) (a : Thread ι) (c : Code ι) : Prop :=
  c.Outer ∨ c = .entry false ∨ ∃ i, c = .segment false f cb i ∧ (a.code.Outer → Other m f m.t_scheduler_fiber)

/-- Where thread `a` may be, with the fiber in state `st`. In the second segment the state of the
scheduler's main fiber is no longer `EXEC`. -/
def Place (m : Thread ι) (f : ι) (cb : Callback) (a : Thread ι) (st : FiberState) : Prop :=
  a.code.Outer ∨ (a.t_fiber = some f ∧ (a.code = .entry false ∨ ∃ i, a.code = .segment false f cb i ∧ Begun m f i ∧
    (i = 0 ∨ Other m f m.t_scheduler_fiber ∨ st ≠ .exec)))

/-- The fiber, called on a thread with the pointers of `m`, has not ended. -/
structure Goes (m : Thread ι) (f : ι) (cb : Callback) (a : Thread ι) : Prop where
  threadFiber : a.t_threadFiber = m.t_threadFiber
  schedulerFiber : a.t_scheduler_fiber = m.t_scheduler_fiber
  others : ∀ g, g ≠ f → (a.fibers g).isSome = (m.fibers g).isSome ∧ ∀ x, a.fibers g = some x → x.m_ctx.Outer
  fiber : ∃ x, a.fibers f = some x ∧ x.m_cb = some cb ∧ Saved m f cb a x.m_ctx ∧ Place m f cb a x.m_state

omit [DecidableEq ι] in
theorem Goes.not_ending (goes : Goes m f cb a) (endless : ¬ Comes m f cb) : ¬ Ending a := by
  obtain ⟨x, fiber, callback, -, place⟩ := goes.fiber
  rintro (⟨caller, cur, y, code, this, there, none⟩ | ⟨caller, cur, cb', i, code, ends⟩)
  · obtain ⟨tag, code'⟩ | ⟨this', code' | ⟨i, code', -⟩⟩ := place
    · cases code.symm.trans code'
    · obtain rfl := Option.some.inj (this.symm.trans this')
      obtain rfl := Option.some.inj (there.symm.trans fiber)
      rw [none] at callback
      cases callback
    · cases code.symm.trans code'
  · obtain ⟨tag, code'⟩ | ⟨-, code' | ⟨j, code', begun, -⟩⟩ := place
    · cases code.symm.trans code'
    · cases code.symm.trans code'
    · cases code.symm.trans code'
      exact endless ⟨i, ends, begun⟩

/-- The fiber goes on where it was. -/
theorem Goes.enter {tag : Nat} (goes : Goes m f cb a) (step : step true f a (.enter tag) = some b) : Goes m f cb b := by
  obtain ⟨threadFiber, schedulerFiber, others, x, fiber, callback, saved, place⟩ := goes
  cases code : a.code with
  | entry _ | segment _ _ _ _ | past => simp [Reset.step, code] at step
  | env tag' =>
    simp only [Reset.step, code, if_true] at step
    obtain ⟨main, stayed⟩ | ⟨g, y, main, ne, live, entered⟩ := Thread.call_cases fiber step
    · exact {
        threadFiber := stayed.threadFiber.trans threadFiber
        schedulerFiber := stayed.schedulerFiber.trans schedulerFiber
        others := fun g ne => stayed.others g ne ▸ others g ne
        fiber := ⟨_, stayed.fiber, callback, .inl ⟨tag, rfl⟩, .inl ⟨tag, stayed.code⟩⟩ }
    · refine ⟨entered.threadFiber.trans threadFiber, entered.schedulerFiber.trans schedulerFiber, fun h other => ?_,
        _, entered.fiber, callback, ?_, ?_⟩
      · by_cases same : h = g
        · subst same
          obtain ⟨exists', -⟩ := others h other
          refine ⟨?_, fun z there => ?_⟩
          · rw [← exists', entered.saved, live]
            rfl
          · cases entered.saved.symm.trans there
            exact ⟨tag, rfl⟩
        · exact entered.others h other same ▸ others h other
      · obtain outer | entry | ⟨i, segment, away⟩ := saved
        · exact .inl outer
        · exact .inr (.inl entry)
        · exact .inr (.inr ⟨i, segment, fun _ => away ⟨tag', code⟩⟩)
      · obtain outer | entry | ⟨i, segment, away⟩ := saved
        · exact .inl (entered.code ▸ outer)
        · exact .inr ⟨entered.this, .inl (entered.code.trans entry)⟩
        · have other := away ⟨tag', code⟩
          exact .inr ⟨entered.this, .inr ⟨i, entered.code.trans segment, .inr (.inr other), .inr (.inl other)⟩⟩

/-- A segment that yields. -/
theorem Goes.yield {st : FiberState} (goes : Goes m f cb a) (code : a.code = .segment false f cb i) (left : st ≠ .exec)
    (step : a.yieldTo st (.segment false f cb (i + 1)) = some b) : Goes m f cb b := by
  obtain ⟨threadFiber, schedulerFiber, others, x, fiber, callback, saved, place⟩ := goes
  have inside : ¬ a.code.Outer := by
    rintro ⟨tag, code'⟩
    cases code.symm.trans code'
  obtain ⟨this, entry | ⟨j, code', begun, state⟩⟩ := place.resolve_left inside
  · cases code.symm.trans entry
  cases code.symm.trans code'
  obtain ⟨exec, ⟨main, stayed⟩ | ⟨g, y, main, ne, live, returned⟩⟩ := Thread.yieldTo_cases this fiber step
  · -- the scheduler's main fiber itself: it goes on at once
    have main := schedulerFiber.symm.trans main
    have first : i = 0 := by
      obtain first | ⟨g, main', ne, -⟩ | away := state
      · exact first
      · exact (ne (Option.some.inj (main'.symm.trans main))).elim
      · exact (away exec).elim
    subst first
    refine ⟨stayed.threadFiber.trans threadFiber, stayed.schedulerFiber.trans schedulerFiber, fun h other => ?_, _,
      stayed.fiber, callback, .inr (.inr ⟨1, rfl, fun outer => ?_⟩), .inr ⟨stayed.this, .inr ⟨1, stayed.code, ?_⟩⟩⟩
    · exact stayed.others h other ▸ others h other
    · obtain ⟨tag, outer⟩ := outer
      cases stayed.code.symm.trans outer
    · exact ⟨.inr (.inl ⟨rfl, main⟩), .inr (.inr left)⟩
  · have other : Other m f m.t_scheduler_fiber := by
      refine ⟨g, schedulerFiber.symm.trans main, ne, ?_⟩
      rw [← (others g ne).1, live]
      rfl
    refine ⟨returned.threadFiber.trans threadFiber, returned.schedulerFiber.trans schedulerFiber, fun h other => ?_, _,
      returned.fiber, callback, .inr (.inr ⟨i + 1, rfl, fun _ => other⟩), .inl ?_⟩
    · exact returned.others h other ▸ others h other
    · exact returned.code ▸ (others g ne).2 y live

/-- `MainFunc` calls the callback. -/
theorem Goes.begin (goes : Goes m f cb a) (code : a.code = .entry false) (this : a.t_fiber = some f) :
    step true f a .next = some { a with code := .segment false f cb 0 } ∧
      Goes m f cb { a with code := .segment false f cb 0 } := by
  obtain ⟨threadFiber, schedulerFiber, others, x, fiber, callback, saved, -⟩ := goes
  refine ⟨by simp [Reset.step, code, this, fiber, callback], threadFiber, schedulerFiber, others, x, fiber, callback,
    ?_, .inr ⟨this, .inr ⟨0, rfl, .inl rfl, .inl rfl⟩⟩⟩
  obtain outer | entry | ⟨i, segment, -⟩ := saved
  · exact .inl outer
  · exact .inr (.inl entry)
  · refine .inr (.inr ⟨i, segment, ?_⟩)
    rintro ⟨tag, outer⟩
    cases outer

theorem Goes.next (goes : Goes m f cb a) (endless : ¬ Comes m f cb) (step : step true f a .next = some b) :
    Goes m f cb b := by
  have still := goes.not_ending endless
  obtain ⟨x, fiber, callback, saved, place⟩ := goes.fiber
  obtain ⟨tag, code⟩ | ⟨this, code | ⟨i, code, begun, state⟩⟩ := place
  · simp [Reset.step, code] at step
  · obtain ⟨begins, after⟩ := goes.begin code this
    cases begins.symm.trans step
    exact after
  · simp only [Reset.step, code] at step
    cases stop : cb i with
    | toHold => exact goes.yield code (by decide : FiberState.hold ≠ .exec) (by simpa [stop] using step)
    | toReady => exact goes.yield code (by decide : FiberState.ready ≠ .exec) (by simpa [stop] using step)
    | returns | throws => exact (still (.inr ⟨false, f, cb, i, code, by simp [Callback.ends, stop]⟩)).elim

theorem Goes.step (goes : Goes m f cb a) (endless : ¬ Comes m f cb) (step : step true f a mv = some b) :
    Goes m f cb b := by
  cases mv with
  | enter tag => exact goes.enter step
  | next => exact goes.next endless step

theorem Goes.start (outside : Outside m f) (cb : Callback) : Goes m f cb (m.set f (Fiber.new false cb)) where
  threadFiber := rfl
  schedulerFiber := rfl
  others g ne := by
    rw [Thread.set_fibers _ _ ne]
    exact ⟨rfl, fun x there => outside.others g x ne there⟩
  fiber := ⟨_, m.set_fibers_self f _, rfl, .inr (.inl rfl), .inl outside.code⟩

/-! ## The two functions at their ends -/

/-- The thread cannot get into the fiber. -/
structure Shut (f : ι) (a : Thread ι) : Prop where
  code : a.code.Outer
  main : ¬ Other a f a.t_threadFiber
  fiber : (a.fibers f).isSome = true

theorem Shut.step (shut : Shut f a) (step : step true f a mv = some b) : Shut f b := by
  obtain ⟨tag', code⟩ := shut.code
  cases mv with
  | next => simp [Reset.step, code] at step
  | enter tag =>
    obtain ⟨x, fiber⟩ := Option.isSome_iff_exists.mp shut.fiber
    simp only [Reset.step, code, if_true] at step
    obtain ⟨main, stayed⟩ | ⟨g, y, main, ne, live, -⟩ := Thread.call_cases fiber step
    · refine ⟨⟨tag, stayed.code⟩, ?_, by rw [stayed.fiber]; rfl⟩
      rintro ⟨g, main', ne, -⟩
      exact ne (Option.some.inj ((main'.symm.trans stayed.threadFiber).trans main))
    · exact (shut.main ⟨g, main, ne, by rw [live]; rfl⟩).elim

/-- A yield, the pointers and a missing fiber look the same in both functions. -/
theorem alike (outside : Outside m f) (common : ¬ Other m f m.t_threadFiber ∨
    m.t_scheduler_fiber = m.t_threadFiber ∨ ¬ Comes m f cb) :
    Alike true f (m.set f (Fiber.new false cb)) (m.set f (Fiber.new true cb)) := by
  rw [set_new outside]
  obtain shut | same | endless := common
  · refine alike_of_invariant (I := Shut f) ⟨outside.code, ?_, by simp⟩ (fun a mv b => Shut.step) fun a shut => .inr ?_
    · rintro ⟨g, main, ne, live⟩
      exact shut ⟨g, main, ne, by rwa [Thread.set_fibers _ _ ne] at live⟩
    · obtain ⟨tag, code⟩ := shut.code
      simp [Ending, code]
  · refine alike_of_invariant (I := fun a => a.t_scheduler_fiber = a.t_threadFiber) same ?_ fun a same => .inl same
    intro a mv b same step
    obtain ⟨threadFiber, schedulerFiber⟩ := step_pointers step
    rw [schedulerFiber, threadFiber, same]
  · exact alike_of_invariant (I := Goes m f cb) (.start outside cb) (fun a mv b goes => goes.step endless)
      fun a goes => .inr (goes.not_ending endless)

theorem run_append (as bs : List Move) (m : Thread ι) :
    run useCaller f (as ++ bs) m = (run useCaller f as m).bind (run useCaller f bs) := by
  induction as generalizing m with
  | nil => rfl
  | cons mv as ih => simp [run, Option.bind_assoc, ih]

/-- Both fibers have come to `a` by the same moves. -/
def Reaches (m : Thread ι) (f : ι) (a : Thread ι) : Prop :=
  ∃ moves, run true f moves m = some a ∧ run true f moves (asCaller m) = some (asCaller a)

theorem Reaches.snoc (reaches : Reaches m f a) (still : ¬ Ending a) (next : step true f a mv = some b) :
    Reaches m f b := by
  obtain ⟨moves, first, second⟩ := reaches
  refine ⟨moves ++ [mv], ?_, ?_⟩
  · rw [run_append, first]
    simp [run, next]
  · rw [run_append, second]
    simp [run, step_asCaller (.inr still), next]

/-- At the start of segment `i`. -/
structure At (m : Thread ι) (f : ι) (cb : Callback) (i : Nat) (a : Thread ι) : Prop where
  goes : Goes m f cb a
  code : a.code = .segment false f cb i
  this : a.t_fiber = some f
  exec : i = 0 ∨ Other m f m.t_scheduler_fiber → ∃ x, a.fibers f = some x ∧ x.m_state = .exec

/-- The fiber is called, with `c` its context. -/
theorem Goes.call {c : Code ι} (goes : Goes m f cb a) (outer : a.code.Outer) (main : Other m f m.t_threadFiber)
    (fiber : a.fibers f = some x) (ctx : x.m_ctx = c) : ∃ b, Reset.step true f a (.enter 0) = some b ∧
      Goes m f cb b ∧ b.code = c ∧ b.t_fiber = some f ∧ ∃ x, b.fibers f = some x ∧ x.m_state = .exec := by
  obtain ⟨tag, code⟩ := outer
  obtain ⟨g, main, ne, live⟩ := main
  rw [← (goes.others g ne).1] at live
  obtain ⟨y, live⟩ := Option.isSome_iff_exists.mp live
  obtain ⟨b, call, entered⟩ := Thread.call_enters fiber (goes.threadFiber.trans main) live ne (.env 0)
  have step : Reset.step true f a (.enter 0) = some b := by simpa [Reset.step, code] using call
  exact ⟨b, step, goes.enter step, entered.code.trans ctx, entered.this, _, entered.fiber, rfl⟩

omit [DecidableEq ι] in
theorem not_ending_of_outer (outer : a.code.Outer) : ¬ Ending a := by
  obtain ⟨tag, code⟩ := outer
  simp [Ending, code]

/-- The first segment. -/
theorem exists_first (outside : Outside m f) (main : Other m f m.t_threadFiber) (cb : Callback) :
    ∃ a, Reaches (m.set f (Fiber.new false cb)) f a ∧ At m f cb 0 a := by
  have goes := Goes.start outside cb
  obtain ⟨a, enter, goes', code, this, x, fiber, exec⟩ := goes.call outside.code main (m.set_fibers_self f _) rfl
  have entered : Reaches (m.set f (Fiber.new false cb)) f a :=
    Reaches.snoc ⟨[], rfl, rfl⟩ (not_ending_of_outer outside.code) enter
  have code : a.code = .entry false := code
  obtain ⟨begins, goes''⟩ := goes'.begin code this
  have still : ¬ Ending a := by
    obtain ⟨x, fiber, callback, -⟩ := goes'.fiber
    simp [Ending, code, this, fiber, callback]
  exact ⟨_, entered.snoc still begins, goes'', rfl, this, fun _ => ⟨x, fiber, exec⟩⟩

omit [DecidableEq ι] in
theorem not_ending_of_segment (code : a.code = .segment false f cb i) (more : cb.ends i = false) : ¬ Ending a := by
  simp [Ending, code, more]

/-- The state a segment that does not end yields with. -/
theorem yields (more : cb.ends i = false) (code : a.code = .segment false f cb i) : ∃ st, st ≠ FiberState.exec ∧
    step true f a .next = a.yieldTo st (.segment false f cb (i + 1)) := by
  cases stop : cb i with
  | toHold => exact ⟨.hold, by decide, by simp [step, code, stop]⟩
  | toReady => exact ⟨.ready, by decide, by simp [step, code, stop]⟩
  | returns | throws => simp [Callback.ends, stop] at more

/-- A segment that leaves the fiber, and the call that comes back to the next. -/
theorem At.next {r : Thread ι} (reaches : Reaches r f a) (at' : At m f cb i a) (more : cb.ends i = false)
    (main : Other m f m.t_threadFiber) (away : Other m f m.t_scheduler_fiber) :
    ∃ b, Reaches r f b ∧ At m f cb (i + 1) b := by
  obtain ⟨goes, code, this, exec⟩ := at'
  obtain ⟨x, fiber, exec⟩ := exec (.inr away)
  obtain ⟨g, scheduler, ne, live⟩ := away
  rw [← (goes.others g ne).1] at live
  obtain ⟨y, live⟩ := Option.isSome_iff_exists.mp live
  obtain ⟨st, left, yields⟩ := yields more code
  obtain ⟨b, yielded, returned⟩ := Thread.yieldTo_returns this fiber exec (goes.schedulerFiber.trans scheduler) live ne
    st (.segment false f cb (i + 1))
  have goes' := goes.yield code left yielded
  have outer : b.code.Outer := returned.code ▸ (goes.others g ne).2 y live
  obtain ⟨c, enter, goes'', code', this', exec'⟩ := goes'.call outer main returned.fiber rfl
  have out := reaches.snoc (not_ending_of_segment code more) (yields.trans yielded)
  exact ⟨c, out.snoc (not_ending_of_outer outer) enter, goes'', code', this', fun _ => exec'⟩

/-- The first segment of the scheduler's main fiber goes over into the second. -/
theorem At.second {r : Thread ι} (reaches : Reaches r f a) (at' : At m f cb 0 a) (more : cb.ends 0 = false)
    (self : m.t_scheduler_fiber = some f) : ∃ b, Reaches r f b ∧ At m f cb 1 b := by
  obtain ⟨goes, code, this, exec⟩ := at'
  obtain ⟨x, fiber, exec⟩ := exec (.inl rfl)
  obtain ⟨st, left, yields⟩ := yields more code
  obtain ⟨b, swap, stayed⟩ := Thread.swapOut_stays (m := a.set f { x with m_state := st }) (a.set_fibers_self f _)
    (goes.schedulerFiber.trans self) (.segment false f cb 1)
  have yielded : a.yieldTo st (.segment false f cb (0 + 1)) = some b := by
    simpa [Thread.yieldTo, this, fiber, exec] using swap
  refine ⟨b, reaches.snoc (not_ending_of_segment code more) (yields.trans yielded), goes.yield code left yielded,
    stayed.code, stayed.this, ?_⟩
  rintro (zero | ⟨g, main, ne, -⟩)
  · cases zero
  · exact (ne (Option.some.inj (main.symm.trans self))).elim

/-- Where yields leave the fiber, segment `n` is reached unless the callback ends before. -/
theorem reaches_or_ends (outside : Outside m f) (main : Other m f m.t_threadFiber)
    (away : Other m f m.t_scheduler_fiber) (cb : Callback) (n : Nat) :
    (∃ k a, cb.ends k = true ∧ Reaches (m.set f (Fiber.new false cb)) f a ∧ At m f cb k a) ∨
      ∃ a, Reaches (m.set f (Fiber.new false cb)) f a ∧ At m f cb n a := by
  induction n with
  | zero => exact .inr (exists_first outside main cb)
  | succ n ih =>
    obtain ended | ⟨a, reaches, at'⟩ := ih
    · exact .inl ended
    · cases stop : cb.ends n with
      | true => exact .inl ⟨n, a, stop, reaches, at'⟩
      | false => exact .inr (at'.next reaches stop main away)

/-- A callback that comes to its end. -/
theorem exists_end (outside : Outside m f) (main : Other m f m.t_threadFiber) (comes : Comes m f cb) :
    ∃ n a, cb.ends n = true ∧ Reaches (m.set f (Fiber.new false cb)) f a ∧ At m f cb n a := by
  obtain ⟨n, ends, rfl | ⟨rfl, self⟩ | away⟩ := comes
  · obtain ⟨a, first⟩ := exists_first outside main cb
    exact ⟨0, a, ends, first⟩
  · obtain ⟨a, reaches, first⟩ := exists_first outside main cb
    cases stop : cb.ends 0 with
    | true => exact ⟨0, a, stop, reaches, first⟩
    | false =>
      obtain ⟨b, second⟩ := first.second reaches stop self
      exact ⟨1, b, ends, second⟩
  · obtain ended | ⟨a, reached⟩ := reaches_or_ends outside main away cb n
    · exact ended
    · exact ⟨n, a, ends, reached⟩

/-- The end of a callback, in either function. -/
theorem finishes {caller : Bool} (ends : cb.ends i = true) (code : a.code = .segment caller f cb i) :
    ∃ threw, step true f a .next = a.finish caller threw f .past := by
  cases stop : cb i with
  | returns => exact ⟨false, by simp [step, code, stop]⟩
  | throws => exact ⟨true, by simp [step, code, stop]⟩
  | toHold | toReady => simp [Callback.ends, stop] at ends

/-- At its end the reset fiber goes to the scheduler's main fiber, the new one to the thread's. -/
theorem At.differ (at' : At m f cb n a) (ends : cb.ends n = true) (main : Other m f m.t_threadFiber)
    (differ : m.t_scheduler_fiber ≠ m.t_threadFiber) :
    observe f (step true f a .next) ≠ observe f (step true f (asCaller a) .next) := by
  obtain ⟨goes, code, this, -⟩ := at'
  obtain ⟨x, fiber, -⟩ := goes.fiber
  obtain ⟨g, thread, ne, live⟩ := main
  rw [← (goes.others g ne).1] at live
  obtain ⟨y, live⟩ := Option.isSome_iff_exists.mp live
  have main' : a.t_threadFiber = some g := goes.threadFiber.trans thread
  obtain ⟨threw, reset⟩ := finishes ends code
  have code' : (asCaller a).code = .segment true f cb n := congrArg Code.asCaller code
  obtain ⟨threw', fresh⟩ := finishes ends code'
  have fiber' : (asCaller a).fibers f = some (x.map Code.asCaller) := by simp [asCaller_fibers, fiber]
  have live' : (asCaller a).fibers g = some (y.map Code.asCaller) := by simp [asCaller_fibers, live]
  obtain ⟨t, back, returned⟩ := Thread.finish_back fiber' (main' : (asCaller a).t_threadFiber = some g) live' ne threw'
    Code.past
  rw [reset, fresh, back]
  cases out : a.finish false threw f .past with
  | none => simp [observe]
  | some b =>
    intro same
    have this : b.t_fiber = t.t_fiber := by
      simp only [observe, Option.map_some, Option.some.injEq, Prod.mk.injEq] at same
      exact same.2.1
    rw [Thread.finish_this out, goes.schedulerFiber, returned.this, ← thread] at this
    exact differ this

theorem not_alike (outside : Outside m f) (main : Other m f m.t_threadFiber)
    (differ : m.t_scheduler_fiber ≠ m.t_threadFiber) (comes : Comes m f cb) :
    ¬ Alike true f (m.set f (Fiber.new false cb)) (m.set f (Fiber.new true cb)) := by
  intro alike
  rw [set_new outside] at alike
  obtain ⟨n, a, ends, ⟨moves, first, second⟩, at'⟩ := exists_end outside main comes
  have seen := alike (moves ++ [.next])
  rw [run_append, run_append, first, second] at seen
  simp only [run, Option.bind_some] at seen
  exact at'.differ ends main differ (by simpa using seen)

omit [DecidableEq ι] in
/-- What is reset is made again with `MainFunc`. -/
theorem Fiber.reset_eq (reset : x.reset cb = some y) : y = Fiber.new false cb := by
  simp only [Fiber.reset] at reset
  split at reset
  · cases reset
    rfl
  · cases reset

/-- **A reset fiber does what a new one does** unless it is a fiber of the thread that comes to the end of the
callback while the scheduler's main fiber is not the thread's: then it goes to the wrong one. -/
theorem reset_fresh (outside : Outside m f) (reset : x.reset cb = some y) :
    Alike useCaller f (m.set f y) (m.set f (Fiber.new useCaller cb)) ↔
      useCaller = false ∨ ¬ Other m f m.t_threadFiber ∨ m.t_scheduler_fiber = m.t_threadFiber ∨ ¬ Comes m f cb := by
  rw [Fiber.reset_eq reset]
  cases useCaller with
  | false => exact ⟨fun _ => .inl rfl, fun _ _ => rfl⟩
  | true =>
    constructor
    · intro alike
      by_contra differ
      push Not at differ
      obtain ⟨-, main, differ, comes⟩ := differ
      exact not_alike outside main differ comes alike
    · rintro (absurd | common)
      · cases absurd
      · exact alike outside common

/-- A thread that made a scheduler with `use_caller` (its main fiber is 0, the scheduler's is 1), and a fiber, 2,
that was called and has returned. -/
def caller : Thread Nat where
  fibers
    | 0 => some { m_state := .exec, m_ctx := .env 0 }
    | 1 => some { m_state := .init, m_ctx := .env 1 }
    | 2 => some { m_state := .term, m_ctx := .past }
    | _ => none
  t_fiber := some 0
  t_threadFiber := some 0
  t_scheduler_fiber := some 1
  code := .env 0

theorem caller_outside : Outside caller 2 where
  code := ⟨0, rfl⟩
  others g x ne fiber := by
    match g, fiber with
    | 0, rfl => exact ⟨0, rfl⟩
    | 1, rfl => exact ⟨1, rfl⟩
    | 2, _ => exact (ne rfl).elim

theorem reset_fresh_caller : Alike true 2 (caller.set 2 (Fiber.new false fun _ => .toHold))
    (caller.set 2 (Fiber.new true fun _ => .toHold)) := by
  have endless : ¬ Comes caller 2 fun _ => .toHold := by
    rintro ⟨n, ends, -⟩
    cases ends
  exact (reset_fresh (x := { m_state := .term, m_ctx := .past }) caller_outside rfl).mpr (.inr (.inr (.inr endless)))

/-- Reset, called again and at its end, the fiber is left for the scheduler's main fiber. -/
theorem not_reset_fresh :
    ¬ ∀ (useCaller : Bool) (m : Thread Nat) (f : Nat) (x y : Fiber Nat) (cb : Callback), m.fibers f = some x →
      Outside m f → x.reset cb = some y → Alike useCaller f (m.set f y) (m.set f (Fiber.new useCaller cb)) := by
  intro always
  have alike := always true caller 2 _ _ (fun _ => .returns) rfl caller_outside rfl [.enter 0, .next, .next]
  revert alike
  decide

end Atpdxy.Fibers.Reset
