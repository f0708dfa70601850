import Atpdxy.Sched.State

/-!
# Switching between fibers

The switches of `atpdxy/fiber.cpp` on one thread. A context is where its code
goes on, so `swapcontext` writes the one of the caller into a fiber and goes on
with the one it finds in another; what these places are, and what the callbacks, is left
open. A fiber that does not exist is one nothing may be read from: the
pointer is null, or what it pointed to is gone.
-/

namespace Atpdxy.Fibers

open Sched (FiberState)

variable {ι K B : Type}

/-- A `Fiber`. -/
structure Fiber (K B : Type) where
  m_state : FiberState := .init
  /-- where the code goes on when the context is loaded -/
  m_ctx : K
  m_cb : Option B := none

/-- The fibers a thread can see, its thread-local pointers, and where it executes. -/
structure Thread (ι K B : Type) where
  fibers : ι → Option (Fiber K B)
  t_fiber : Option ι := none
  t_threadFiber : Option ι := none
  t_scheduler_fiber : Option ι := none
  code : K

/-- The pointer can be followed. -/
def Thread.Live (m : Thread ι K B) (p : Option ι) : Prop := ∃ f ∈ p, (m.fibers f).isSome = true

theorem Thread.live_iff {m : Thread ι K B} {p : Option ι} :
    m.Live p ↔ ∃ f y, p = some f ∧ m.fibers f = some y := by
  simp [Thread.Live, Option.isSome_iff_exists]

variable [DecidableEq ι]

def Thread.set (m : Thread ι K B) (f : ι) (x : Fiber K B) : Thread ι K B :=
  { m with fibers := Function.update m.fibers f (some x) }

/-- `swapcontext(&save->m_ctx, &load->m_ctx)` in a function that goes on at `k`. -/
def Thread.swapcontext (m : Thread ι K B) (save load : Option ι) (k : K) : Option (Thread ι K B) := do
  let a ← save
  let x ← m.fibers a
  let m := m.set a { x with m_ctx := k }
  let b ← load
  let y ← m.fibers b
  return { m with code := y.m_ctx }

/-- `Fiber::swapIn`. -/
def Thread.swapIn (m : Thread ι K B) (f : ι) (k : K) : Option (Thread ι K B) := do
  let x ← m.fibers f
  guard (x.m_state ≠ .exec)
  ({ m with t_fiber := some f }.set f { x with m_state := .exec }).swapcontext m.t_scheduler_fiber (some f) k

/-- `Fiber::swapOut`. -/
def Thread.swapOut (m : Thread ι K B) (f : ι) (k : K) : Option (Thread ι K B) :=
  { m with t_fiber := m.t_scheduler_fiber }.swapcontext (some f) m.t_scheduler_fiber k

/-- `Fiber::call`. -/
def Thread.call (m : Thread ι K B) (f : ι) (k : K) : Option (Thread ι K B) := do
  let x ← m.fibers f
  ({ m with t_fiber := some f }.set f { x with m_state := .exec }).swapcontext m.t_threadFiber (some f) k

/-- `Fiber::back`. -/
def Thread.back (m : Thread ι K B) (f : ι) (k : K) : Option (Thread ι K B) :=
  { m with t_fiber := m.t_threadFiber }.swapcontext (some f) m.t_threadFiber k

/-- `Fiber::GetThis`; `fresh` is the fiber it makes of a thread that has none. -/
def Thread.getThis (m : Thread ι K B) (fresh : ι) (k : K) : ι × Thread ι K B :=
  match m.t_fiber with
  | some f => (f, m)
  | none =>
    (fresh, { m with t_fiber := some fresh, t_threadFiber := some fresh }.set fresh { m_state := .exec, m_ctx := k })

/-- `YieldToReady` and `YieldToHold`, in the code of a fiber. -/
def Thread.yieldTo (m : Thread ι K B) (st : FiberState) (k : K) : Option (Thread ι K B) := do
  let cur ← m.t_fiber
  let x ← m.fibers cur
  guard (x.m_state = .exec)
  (m.set cur { x with m_state := st }).swapOut cur k

/-- Behind a callback that returned, or threw. -/
def Fiber.finished (x : Fiber K B) (threw : Bool) : Fiber K B :=
  if threw then { x with m_state := .except } else { x with m_state := .term, m_cb := none }

/-- The end of `MainFunc`, and of `CallerMainFunc`, for the fiber `cur` they began with. -/
def Thread.finish (m : Thread ι K B) (caller threw : Bool) (cur : ι) (k : K) : Option (Thread ι K B) := do
  let x ← m.fibers cur
  let m := m.set cur (x.finished threw)
  if caller then m.back cur k else m.swapOut cur k

/-! ## What a switch does -/

variable {m : Thread ι K B} {a b f g : ι} {x y : Fiber K B} {k : K}

@[simp] theorem Thread.set_fibers_self (m : Thread ι K B) (f : ι) (x : Fiber K B) :
    (m.set f x).fibers f = some x := by
  simp [Thread.set]

theorem Thread.set_fibers (m : Thread ι K B) (x : Fiber K B) (ne : g ≠ f) : (m.set f x).fibers g = m.fibers g := by
  simp [Thread.set, ne]

@[simp] theorem Thread.set_t_fiber (m : Thread ι K B) (f : ι) (x : Fiber K B) : (m.set f x).t_fiber = m.t_fiber := rfl
@[simp] theorem Thread.set_t_threadFiber (m : Thread ι K B) (f : ι) (x : Fiber K B) :
    (m.set f x).t_threadFiber = m.t_threadFiber := rfl
@[simp] theorem Thread.set_t_scheduler_fiber (m : Thread ι K B) (f : ι) (x : Fiber K B) :
    (m.set f x).t_scheduler_fiber = m.t_scheduler_fiber := rfl
@[simp] theorem Thread.set_code (m : Thread ι K B) (f : ι) (x : Fiber K B) : (m.set f x).code = m.code := rfl

/-- Without the fiber to save into. -/
theorem Thread.swapcontext_dead {save : Option ι} (dead : ¬ m.Live save) (load : Option ι) (k : K) :
    m.swapcontext save load k = none := by
  cases save with
  | none => rfl
  | some a =>
    have gone : m.fibers a = none := by simpa [Thread.Live] using dead
    simp [Thread.swapcontext, gone]

/-- Without the fiber to load from. -/
theorem Thread.swapcontext_lost {load : Option ι} (dead : ¬ m.Live load) (save : m.fibers a = some x) (k : K) :
    m.swapcontext (some a) load k = none := by
  cases load with
  | none => simp [Thread.swapcontext]
  | some b =>
    have gone : m.fibers b = none := by simpa [Thread.Live] using dead
    have ne : b ≠ a := by
      rintro rfl
      simp [gone] at save
    simp [Thread.swapcontext, save, m.set_fibers _ ne, gone]

/-- Writing to a fiber makes no other one. -/
theorem Thread.live_set {p : Option ι} (fiber : m.fibers f = some x) (y : Fiber K B) :
    (m.set f y).Live p ↔ m.Live p := by
  rw [Thread.live_iff, Thread.live_iff]
  constructor
  · rintro ⟨g, z, main, live⟩
    by_cases same : g = f
    · subst same
      exact ⟨g, x, main, fiber⟩
    · exact ⟨g, z, main, (m.set_fibers y same).symm.trans live⟩
  · rintro ⟨g, z, main, live⟩
    by_cases same : g = f
    · subst same
      exact ⟨g, y, main, m.set_fibers_self g y⟩
    · exact ⟨g, z, main, (m.set_fibers y same).trans live⟩

theorem Thread.swapIn_dead (dead : ¬ m.Live m.t_scheduler_fiber) (f : ι) (k : K) : m.swapIn f k = none := by
  cases fiber : m.fibers f with
  | none => simp [Thread.swapIn, fiber]
  | some x =>
    have dead' := mt (Thread.live_set (m := { m with t_fiber := some f }) fiber { x with m_state := .exec }).mp dead
    simp [Thread.swapIn, fiber, Thread.swapcontext_dead dead']

/-- `t` is `m` after a switch from `g`, which goes on at `k`, into `f`. -/
structure Entered (m t : Thread ι K B) (g f : ι) (y x : Fiber K B) (k : K) : Prop where
  code : t.code = x.m_ctx
  this : t.t_fiber = some f
  fiber : t.fibers f = some { x with m_state := .exec }
  saved : t.fibers g = some { y with m_ctx := k }
  others : ∀ h, h ≠ f → h ≠ g → t.fibers h = m.fibers h
  threadFiber : t.t_threadFiber = m.t_threadFiber
  schedulerFiber : t.t_scheduler_fiber = m.t_scheduler_fiber

/-- `t` is `m` after a switch from `f`, which goes on at `k`, back into `g`. -/
structure Returned (m t : Thread ι K B) (f g : ι) (x y : Fiber K B) (k : K) : Prop where
  code : t.code = y.m_ctx
  this : t.t_fiber = some g
  fiber : t.fibers f = some { x with m_ctx := k }
  others : ∀ h, h ≠ f → t.fibers h = m.fibers h
  threadFiber : t.t_threadFiber = m.t_threadFiber
  schedulerFiber : t.t_scheduler_fiber = m.t_scheduler_fiber

theorem Thread.swapIn_enters (fiber : m.fibers f = some x) (resting : x.m_state ≠ .exec)
    (main : m.t_scheduler_fiber = some g) (live : m.fibers g = some y) (ne : g ≠ f) (k : K) :
    ∃ t, m.swapIn f k = some t ∧ Entered m t g f y x k := by
  refine ⟨{ (m.set f { x with m_state := .exec }).set g { y with m_ctx := k } with
    t_fiber := some f, code := x.m_ctx }, ?_, rfl, rfl, ?_, ?_, fun h notF notG => ?_, rfl, rfl⟩
  · simp [Thread.swapIn, fiber, resting, main, Thread.swapcontext, Thread.set, ne, Ne.symm ne, live]
  · simp [Thread.set, Ne.symm ne]
  · simp [Thread.set]
  · simp [Thread.set, notF, notG]

theorem Thread.call_enters (fiber : m.fibers f = some x) (main : m.t_threadFiber = some g)
    (live : m.fibers g = some y) (ne : g ≠ f) (k : K) : ∃ t, m.call f k = some t ∧ Entered m t g f y x k := by
  refine ⟨{ (m.set f { x with m_state := .exec }).set g { y with m_ctx := k } with
    t_fiber := some f, code := x.m_ctx }, ?_, rfl, rfl, ?_, ?_, fun h notF notG => ?_, rfl, rfl⟩
  · simp [Thread.call, fiber, main, Thread.swapcontext, Thread.set, ne, Ne.symm ne, live]
  · simp [Thread.set, Ne.symm ne]
  · simp [Thread.set]
  · simp [Thread.set, notF, notG]

theorem Thread.swapOut_returns (fiber : m.fibers f = some x) (main : m.t_scheduler_fiber = some g)
    (live : m.fibers g = some y) (ne : g ≠ f) (k : K) : ∃ t, m.swapOut f k = some t ∧ Returned m t f g x y k := by
  refine ⟨{ m.set f { x with m_ctx := k } with t_fiber := some g, code := y.m_ctx }, ?_, rfl, rfl, ?_,
    fun h notF => ?_, rfl, rfl⟩
  · simp [Thread.swapOut, fiber, main, Thread.swapcontext, Thread.set, ne, live]
  · simp [Thread.set]
  · simp [Thread.set, notF]

theorem Thread.back_returns (fiber : m.fibers f = some x) (main : m.t_threadFiber = some g)
    (live : m.fibers g = some y) (ne : g ≠ f) (k : K) : ∃ t, m.back f k = some t ∧ Returned m t f g x y k := by
  refine ⟨{ m.set f { x with m_ctx := k } with t_fiber := some g, code := y.m_ctx }, ?_, rfl, rfl, ?_,
    fun h notF => ?_, rfl, rfl⟩
  · simp [Thread.back, fiber, main, Thread.swapcontext, Thread.set, ne, live]
  · simp [Thread.set]
  · simp [Thread.set, notF]

/-- What was written into a fiber before it is left. -/
theorem Returned.of_set {t : Thread ι K B} (returned : Returned (m.set f x) t f g x y k) : Returned m t f g x y k where
  code := returned.code
  this := returned.this
  fiber := returned.fiber
  others h notF := (returned.others h notF).trans (m.set_fibers x notF)
  threadFiber := returned.threadFiber
  schedulerFiber := returned.schedulerFiber

theorem Thread.yieldTo_returns (this : m.t_fiber = some f) (fiber : m.fibers f = some x) (exec : x.m_state = .exec)
    (main : m.t_scheduler_fiber = some g) (live : m.fibers g = some y) (ne : g ≠ f) (st : FiberState) (k : K) :
    ∃ t, m.yieldTo st k = some t ∧ Returned m t f g { x with m_state := st } y k := by
  obtain ⟨t, swap, returned⟩ := Thread.swapOut_returns (m := m.set f { x with m_state := st })
    (m.set_fibers_self f _) main ((m.set_fibers _ ne).trans live) ne k
  exact ⟨t, by simpa [Thread.yieldTo, this, fiber, exec] using swap, returned.of_set⟩

theorem Thread.finish_swapOut (fiber : m.fibers f = some x) (main : m.t_scheduler_fiber = some g)
    (live : m.fibers g = some y) (ne : g ≠ f) (threw : Bool) (k : K) :
    ∃ t, m.finish false threw f k = some t ∧ Returned m t f g (x.finished threw) y k := by
  obtain ⟨t, swap, returned⟩ := Thread.swapOut_returns (m := m.set f (x.finished threw)) (m.set_fibers_self f _)
    main ((m.set_fibers _ ne).trans live) ne k
  exact ⟨t, by simpa [Thread.finish, fiber] using swap, returned.of_set⟩

theorem Thread.finish_back (fiber : m.fibers f = some x) (main : m.t_threadFiber = some g)
    (live : m.fibers g = some y) (ne : g ≠ f) (threw : Bool) (k : K) :
    ∃ t, m.finish true threw f k = some t ∧ Returned m t f g (x.finished threw) y k := by
  obtain ⟨t, swap, returned⟩ := Thread.back_returns (m := m.set f (x.finished threw)) (m.set_fibers_self f _)
    main ((m.set_fibers _ ne).trans live) ne k
  exact ⟨t, by simpa [Thread.finish, fiber] using swap, returned.of_set⟩

/-! ## The pointers to the main fibers -/

/-- No switch writes them. -/
def SamePointers (m t : Thread ι K B) : Prop :=
  t.t_threadFiber = m.t_threadFiber ∧ t.t_scheduler_fiber = m.t_scheduler_fiber

theorem Thread.swapcontext_pointers {t : Thread ι K B} {save load : Option ι}
    (swap : m.swapcontext save load k = some t) : SamePointers m t := by
  simp only [Thread.swapcontext, Option.bind_eq_bind, Option.bind_eq_some_iff, Option.pure_def] at swap
  obtain ⟨a, -, x, -, b, -, y, -, swap⟩ := swap
  cases swap
  exact ⟨rfl, rfl⟩

theorem Thread.swapIn_pointers {t : Thread ι K B} (swap : m.swapIn f k = some t) : SamePointers m t := by
  simp only [Thread.swapIn, Option.bind_eq_bind, Option.bind_eq_some_iff] at swap
  obtain ⟨x, -, -, -, swap⟩ := swap
  have kept := Thread.swapcontext_pointers swap
  exact kept

theorem Thread.call_pointers {t : Thread ι K B} (swap : m.call f k = some t) : SamePointers m t := by
  simp only [Thread.call, Option.bind_eq_bind, Option.bind_eq_some_iff] at swap
  obtain ⟨x, -, swap⟩ := swap
  have kept := Thread.swapcontext_pointers swap
  exact kept

theorem Thread.yieldTo_pointers {t : Thread ι K B} {st : FiberState} (yielded : m.yieldTo st k = some t) :
    SamePointers m t := by
  simp only [Thread.yieldTo, Option.bind_eq_bind, Option.bind_eq_some_iff] at yielded
  obtain ⟨cur, -, x, -, -, -, swap⟩ := yielded
  have kept := Thread.swapcontext_pointers swap
  exact kept

theorem Thread.finish_pointers {t : Thread ι K B} {caller threw : Bool} (ended : m.finish caller threw f k = some t) :
    SamePointers m t := by
  simp only [Thread.finish, Option.bind_eq_bind, Option.bind_eq_some_iff] at ended
  obtain ⟨x, -, swap⟩ := ended
  cases caller
  · have kept := Thread.swapcontext_pointers swap
    exact kept
  · have kept := Thread.swapcontext_pointers swap
    exact kept

theorem Thread.swapOut_this {t : Thread ι K B} (swap : m.swapOut f k = some t) : t.t_fiber = m.t_scheduler_fiber := by
  simp only [Thread.swapOut, Thread.swapcontext, Option.bind_eq_bind, Option.bind_eq_some_iff, Option.pure_def] at swap
  obtain ⟨a, -, x, -, b, -, y, -, swap⟩ := swap
  cases swap
  rfl

theorem Thread.finish_this {t : Thread ι K B} {threw : Bool} (ended : m.finish false threw f k = some t) :
    t.t_fiber = m.t_scheduler_fiber := by
  simp only [Thread.finish, Option.bind_eq_bind, Option.bind_eq_some_iff] at ended
  obtain ⟨x, -, swap⟩ := ended
  have this := Thread.swapOut_this (by simpa using swap)
  exact this

/-! ## What a switch may have done -/

/-- `t` is `m` after a switch of `f`, which goes on at `k`, to itself. -/
structure Stayed (m t : Thread ι K B) (f : ι) (x : Fiber K B) (k : K) : Prop where
  code : t.code = k
  this : t.t_fiber = some f
  fiber : t.fibers f = some { x with m_ctx := k }
  others : ∀ h, h ≠ f → t.fibers h = m.fibers h
  threadFiber : t.t_threadFiber = m.t_threadFiber
  schedulerFiber : t.t_scheduler_fiber = m.t_scheduler_fiber

theorem Thread.swapOut_stays (fiber : m.fibers f = some x) (main : m.t_scheduler_fiber = some f) (k : K) :
    ∃ t, m.swapOut f k = some t ∧ Stayed m t f x k := by
  refine ⟨{ m.set f { x with m_ctx := k } with t_fiber := some f, code := k }, ?_, rfl, rfl, ?_, fun h ne => ?_,
    rfl, rfl⟩
  · simp [Thread.swapOut, main, Thread.swapcontext, Thread.set, fiber]
  · simp [Thread.set]
  · simp [Thread.set, ne]

theorem Thread.call_stays (fiber : m.fibers f = some x) (main : m.t_threadFiber = some f) (k : K) :
    ∃ t, m.call f k = some t ∧ Stayed m t f { x with m_state := .exec } k := by
  refine ⟨{ m.set f { x with m_state := .exec, m_ctx := k } with t_fiber := some f, code := k }, ?_, rfl, rfl, ?_,
    fun h ne => ?_, rfl, rfl⟩
  · simp [Thread.call, main, Thread.swapcontext, Thread.set, fiber]
  · simp [Thread.set]
  · simp [Thread.set, ne]

theorem Thread.swapOut_cases {t : Thread ι K B} (fiber : m.fibers f = some x) (swap : m.swapOut f k = some t) :
    (m.t_scheduler_fiber = some f ∧ Stayed m t f x k) ∨
      ∃ g y, m.t_scheduler_fiber = some g ∧ g ≠ f ∧ m.fibers g = some y ∧ Returned m t f g x y k := by
  by_cases live : m.Live m.t_scheduler_fiber
  · obtain ⟨g, y, main, live⟩ := Thread.live_iff.mp live
    by_cases same : g = f
    · subst same
      obtain ⟨u, swap', stayed⟩ := Thread.swapOut_stays fiber main k
      cases swap.symm.trans swap'
      exact .inl ⟨main, stayed⟩
    · obtain ⟨u, swap', returned⟩ := Thread.swapOut_returns fiber main live same k
      cases swap.symm.trans swap'
      exact .inr ⟨g, y, main, same, live, returned⟩
  · have lost := Thread.swapcontext_lost (m := { m with t_fiber := m.t_scheduler_fiber }) live fiber k
    rw [Thread.swapOut, lost] at swap
    cases swap

theorem Thread.call_cases {t : Thread ι K B} (fiber : m.fibers f = some x) (swap : m.call f k = some t) :
    (m.t_threadFiber = some f ∧ Stayed m t f { x with m_state := .exec } k) ∨
      ∃ g y, m.t_threadFiber = some g ∧ g ≠ f ∧ m.fibers g = some y ∧ Entered m t g f y x k := by
  by_cases live : m.Live m.t_threadFiber
  · obtain ⟨g, y, main, live⟩ := Thread.live_iff.mp live
    by_cases same : g = f
    · subst same
      obtain ⟨u, swap', stayed⟩ := Thread.call_stays fiber main k
      cases swap.symm.trans swap'
      exact .inl ⟨main, stayed⟩
    · obtain ⟨u, swap', entered⟩ := Thread.call_enters fiber main live same k
      cases swap.symm.trans swap'
      exact .inr ⟨g, y, main, same, live, entered⟩
  · have dead := mt (Thread.live_set (m := { m with t_fiber := some f }) fiber { x with m_state := .exec }).mp live
    simp [Thread.call, fiber, Thread.swapcontext_dead dead] at swap

theorem Thread.yieldTo_cases {t : Thread ι K B} {st : FiberState} (this : m.t_fiber = some f)
    (fiber : m.fibers f = some x) (yielded : m.yieldTo st k = some t) : x.m_state = .exec ∧
      ((m.t_scheduler_fiber = some f ∧ Stayed m t f { x with m_state := st } k) ∨
        ∃ g y, m.t_scheduler_fiber = some g ∧ g ≠ f ∧ m.fibers g = some y ∧
          Returned m t f g { x with m_state := st } y k) := by
  by_cases exec : x.m_state = .exec
  · refine ⟨exec, ?_⟩
    have swap : (m.set f { x with m_state := st }).swapOut f k = some t := by
      simpa [Thread.yieldTo, this, fiber, exec] using yielded
    rcases Thread.swapOut_cases (m.set_fibers_self f _) swap with ⟨main, stayed⟩ | ⟨g, y, main, ne, live, returned⟩
    · refine .inl ⟨main, stayed.code, stayed.this, stayed.fiber, fun h other => ?_, stayed.threadFiber,
        stayed.schedulerFiber⟩
      exact (stayed.others h other).trans (m.set_fibers _ other)
    · exact .inr ⟨g, y, main, ne, (m.set_fibers _ ne).symm.trans live, returned.of_set⟩
  · simp [Thread.yieldTo, this, fiber, exec] at yielded

/-! ## Other names for the places -/

section Map

variable {L : Type} (φ : K → L)

def Fiber.map (x : Fiber K B) : Fiber L B := ⟨x.m_state, φ x.m_ctx, x.m_cb⟩

/-- All places renamed. The switches do not look at them. -/
def Thread.map (m : Thread ι K B) : Thread ι L B where
  fibers f := (m.fibers f).map (Fiber.map φ)
  t_fiber := m.t_fiber
  t_threadFiber := m.t_threadFiber
  t_scheduler_fiber := m.t_scheduler_fiber
  code := φ m.code

theorem Thread.map_set (m : Thread ι K B) (f : ι) (x : Fiber K B) : (m.set f x).map φ = (m.map φ).set f (x.map φ) := by
  simp only [Thread.map, Thread.set, Thread.mk.injEq, and_true]
  funext g
  by_cases same : g = f
  · simp [same]
  · simp [same]

theorem Thread.map_swapcontext (m : Thread ι K B) (save load : Option ι) (k : K) :
    (m.map φ).swapcontext save load (φ k) = (m.swapcontext save load k).map (Thread.map φ) := by
  cases save with
  | none => rfl
  | some a =>
    cases fiber : m.fibers a with
    | none => simp [Thread.swapcontext, fiber, Thread.map]
    | some x =>
      have saved : (m.map φ).set a { x.map φ with m_ctx := φ k } = (m.set a { x with m_ctx := k }).map φ :=
        (m.map_set φ a { x with m_ctx := k }).symm
      have there : (m.map φ).fibers a = some (x.map φ) := by simp [Thread.map, fiber]
      cases load with
      | none => simp [Thread.swapcontext]
      | some b =>
        simp only [Thread.swapcontext, fiber, there, Option.bind_eq_bind, Option.bind_some, saved]
        cases loaded : (m.set a { x with m_ctx := k }).fibers b with
        | none => simp [Thread.map, loaded]
        | some y => simp [Thread.map, loaded, Fiber.map]

theorem Thread.map_call (m : Thread ι K B) (f : ι) (k : K) :
    (m.map φ).call f (φ k) = (m.call f k).map (Thread.map φ) := by
  cases fiber : m.fibers f with
  | none => simp [Thread.call, fiber, Thread.map]
  | some x =>
    have swap := Thread.map_swapcontext φ ({ m with t_fiber := some f }.set f { x with m_state := .exec })
      m.t_threadFiber (some f) k
    rw [Thread.map_set] at swap
    simpa [Thread.call, fiber, Thread.map, Fiber.map] using swap

theorem Thread.map_swapOut (m : Thread ι K B) (f : ι) (k : K) :
    (m.map φ).swapOut f (φ k) = (m.swapOut f k).map (Thread.map φ) :=
  Thread.map_swapcontext φ { m with t_fiber := m.t_scheduler_fiber } (some f) m.t_scheduler_fiber k

theorem Thread.map_back (m : Thread ι K B) (f : ι) (k : K) :
    (m.map φ).back f (φ k) = (m.back f k).map (Thread.map φ) :=
  Thread.map_swapcontext φ { m with t_fiber := m.t_threadFiber } (some f) m.t_threadFiber k

theorem Thread.map_yieldTo (m : Thread ι K B) (st : FiberState) (k : K) :
    (m.map φ).yieldTo st (φ k) = (m.yieldTo st k).map (Thread.map φ) := by
  cases this : m.t_fiber with
  | none => simp [Thread.yieldTo, this, Thread.map]
  | some f =>
    cases fiber : m.fibers f with
    | none => simp [Thread.yieldTo, this, fiber, Thread.map]
    | some x =>
      by_cases exec : x.m_state = .exec
      · have swap := Thread.map_swapOut φ (m.set f { x with m_state := st }) f k
        rw [Thread.map_set] at swap
        simpa [Thread.yieldTo, this, fiber, Thread.map, Fiber.map, exec] using swap
      · simp [Thread.yieldTo, this, fiber, Thread.map, Fiber.map, exec]

theorem Fiber.map_finished (x : Fiber K B) (threw : Bool) : (x.map φ).finished threw = (x.finished threw).map φ := by
  cases threw <;> rfl

theorem Thread.map_finish (m : Thread ι K B) (caller threw : Bool) (f : ι) (k : K) :
    (m.map φ).finish caller threw f (φ k) = (m.finish caller threw f k).map (Thread.map φ) := by
  cases fiber : m.fibers f with
  | none => simp [Thread.finish, fiber, Thread.map]
  | some x =>
    have there : (m.map φ).fibers f = some (x.map φ) := by simp [Thread.map, fiber]
    have written : (m.map φ).set f ((x.map φ).finished threw) = (m.set f (x.finished threw)).map φ := by
      rw [Thread.map_set, Fiber.map_finished]
    cases caller
    · simp [Thread.finish, fiber, there, written, Thread.map_swapOut]
    · simp [Thread.finish, fiber, there, written, Thread.map_back]

end Map

end Atpdxy.Fibers
