import Mathlib.Tactic.Common
import Atpdxy.Run.Guarded

/-!
# How a thread is started

The constructor of `Thread` creates the new thread and waits on a semaphore of
the object until `Thread::run` has read what it needs from it. `sem_wait` comes
back when a signal is handled, and `Semaphore::wait` throws then, so the object is
gone while the new thread still uses it. The other accesses that come too late are
those of the callback itself, through `Thread::GetThis()`.
-/

namespace Atpdxy.Sync.Handshake

open Run

/-- A `std::string`. -/
abbrev Name := List Char

/-- What a callback does with the object of its thread. -/
inductive Op
  /-- `Thread::SetName(name)` -/
  | setName (name : Name)
  /-- a read through `Thread::GetThis()` -/
  | getThis
  | other
  deriving DecidableEq, Repr

abbrev Callback := List Op

/-- The fields of `Thread`; `m_thread` says whether there is an id, `m_semaphore` is the count. -/
structure Thread where
  m_id : Int := -1
  m_thread : Bool := false
  m_cb : Option Callback
  m_name : Name
  m_semaphore : Nat := 0
  deriving DecidableEq, Repr

/-- Where the creator is. -/
inductive Creator
  /-- about to call `pthread_create` -/
  | create
  /-- in `m_semaphore.wait()` -/
  | wait
  | returned
  /-- an exception has left the constructor -/
  | threw
  deriving DecidableEq, Repr

/-- The statement of `Thread::run` that comes next. -/
inductive Point
  /-- `t_thread = thread` -/
  | setThis
  /-- `t_thread_name = thread->m_name` -/
  | readName
  /-- `thread->m_id = GetThreadId()` -/
  | storeId
  /-- `pthread_setname_np(..)` -/
  | setKernelName
  /-- `cb.swap(thread->m_cb)` -/
  | swap
  | notify
  /-- `cb()` -/
  | call
  | inside (rest : Callback)
  | exited
  deriving DecidableEq, Repr

/-- An access of the new thread to the object. -/
structure Access where
  /-- the object has not been destroyed -/
  alive : Bool
  /-- the new thread has notified the creator -/
  notified : Bool
  deriving DecidableEq, Repr

structure State where
  creator : Creator := .create
  object : Thread
  alive : Bool := true
  /-- none before `pthread_create` -/
  point : Option Point := none
  /-- whether `t_thread` of the new thread points to the object -/
  t_thread : Bool := false
  t_thread_name : Name := "UNKNOW".toList
  /-- the name the kernel shows -/
  kernelName : Name := []
  /-- the local variable of `Thread::run` -/
  cb : Option Callback := none
  /-- how often the callback was called -/
  calls : Nat := 0
  accesses : List Access := []
  deriving DecidableEq, Repr

inductive Act
  /-- `pthread_create`, with its result -/
  | create (rt : Int)
  /-- `sem_wait` takes one from the count -/
  | wake
  /-- a signal for the creator; `eintr` says whether `sem_wait` comes back for it -/
  | signal (eintr : Bool)
  /-- the owner destroys the object -/
  | destroy
  /-- the next statement of the new thread -/
  | child
  deriving DecidableEq, Repr

/-- The constructor is entered with a callback. -/
def State.start (cb : Callback) (name : Name) : State where
  object := { m_cb := some cb, m_name := if name.isEmpty then "UNKNOW".toList else name }

/-- `run` has reached a statement behind `notify`. -/
def Point.notified : Point → Bool
  | .call | .inside _ | .exited => true
  | _ => false

/-- The new thread uses the object. -/
def State.access (s : State) : State :=
  { s with accesses := s.accesses ++ [⟨s.alive, s.point.any Point.notified⟩] }

def State.goto (s : State) (p : Point) : State := { s with point := some p }

/-- One operation of the callback. -/
def State.op (s : State) : Op → State
  | .setName name =>
    let s := if s.t_thread then { s.access with object := { s.object with m_name := name } } else s
    { s with t_thread_name := name }
  | .getThis => if s.t_thread then s.access else s
  | .other => s

/-- `Thread::run`, statement by statement; `tid` is what `GetThreadId()` returns. -/
def State.child (tid : Int) (s : State) : Option State :=
  match s.point with
  | none | some .exited => none
  | some .setThis => some ({ s with t_thread := true }.goto .readName)
  | some .readName => some ({ s.access with t_thread_name := s.object.m_name }.goto .storeId)
  | some .storeId => some ({ s.access with object := { s.object with m_id := tid } }.goto .setKernelName)
  | some .setKernelName => some ({ s.access with kernelName := s.object.m_name.take 15 }.goto .swap)
  | some .swap => some ({ s.access with cb := s.object.m_cb, object := { s.object with m_cb := s.cb } }.goto .notify)
  | some .notify =>
    some ({ s.access with object := { s.object with m_semaphore := s.object.m_semaphore + 1 } }.goto .call)
  | some .call => s.cb.map fun ops => { s with calls := s.calls + 1 }.goto (.inside ops)
  | some (.inside []) => some (s.goto .exited)
  | some (.inside (op :: ops)) => some ((s.op op).goto (.inside ops))

/-- The exception of a constructor destroys the members; `~Thread` destroys them
when the owner does. -/
def step (tid : Int) (s : State) : Act → Option State
  | .create rt =>
    if s.creator = .create then
      if rt = 0 then
        some { s with creator := .wait, object := { s.object with m_thread := true }, point := some .setThis }
      else some { s with creator := .threw, alive := false }
    else none
  | .wake =>
    if s.creator = .wait ∧ 0 < s.object.m_semaphore then
      some { s with creator := .returned, object := { s.object with m_semaphore := s.object.m_semaphore - 1 } }
    else none
  | .signal eintr => if eintr ∧ s.creator = .wait then some { s with creator := .threw, alive := false } else some s
  | .destroy => if s.creator = .returned ∧ s.alive then some { s with alive := false } else none
  | .child => s.child tid

/-- The callback is about to go to the object of its thread. -/
def Point.late : Point → Bool
  | .inside (op :: _) => op != .other
  | _ => false

/-- The condition on a step: no signal ends `sem_wait`, and the callback does not go to the object. -/
def Undisturbed (s : State) : Act → Prop
  | .signal eintr => ¬ (eintr = true ∧ s.creator = .wait)
  | .child => s.point.any Point.late = false
  | _ => True

instance : ∀ (s : State) (a : Act), Decidable (Undisturbed s a)
  | s, .signal eintr => inferInstanceAs (Decidable (¬ (eintr = true ∧ s.creator = .wait)))
  | s, .child => inferInstanceAs (Decidable (s.point.any Point.late = false))
  | _, .create _ | _, .wake | _, .destroy => inferInstanceAs (Decidable True)

/-! ## What is kept -/

/-- What the start of a thread is for. -/
structure Safe (tid : Int) (s : State) : Prop where
  /-- the constructor throws only where there is no new thread -/
  completes : s.creator = .threw → s.point = none
  /-- it returns when the new thread has its id stored and the callback taken -/
  handed : s.creator = .returned → s.object.m_id = tid ∧ s.object.m_cb = none
  once : s.calls ≤ 1 ∧ (s.point = some .exited → s.calls = 1)
  /-- the new thread uses the object while it is there, and not behind its `notify` -/
  inTime : ∀ a ∈ s.accesses, a.alive = true ∧ a.notified = false

variable {tid : Int} {s t : State} {p : Point} {a : Act} {as : List Act} {cb : Callback} {name : Name}

/-- `run` has stored the id. -/
def Point.stored : Point → Bool
  | .setThis | .readName | .storeId => false
  | _ => true

/-- `run` has taken the callback. -/
def Point.taken : Point → Bool
  | .notify | .call | .inside _ | .exited => true
  | _ => false

def Point.called : Point → Bool
  | .inside _ | .exited => true
  | _ => false

/-- An undisturbed start, with the new thread at `p`. -/
structure Started (tid : Int) (s : State) (p : Point) : Prop where
  point : s.point = some p
  creator : s.creator = .wait ∨ (s.creator = .returned ∧ p.notified = true)
  alive : s.creator = .wait → s.alive = true
  count : s.object.m_semaphore = if p.notified = true ∧ s.creator = .wait then 1 else 0
  id : p.stored = true → s.object.m_id = tid
  m_cb : s.object.m_cb.isSome = !p.taken
  cb : s.cb.isSome = p.taken
  calls : s.calls = if p.called then 1 else 0

/-- Before `pthread_create`, or after it has failed. -/
structure Alone (s : State) : Prop where
  point : s.point = none
  creator : s.creator = .threw ∨ (s.creator = .create ∧ s.alive = true)
  count : s.object.m_semaphore = 0
  m_cb : s.object.m_cb.isSome = true
  cb : s.cb = none
  calls : s.calls = 0

/-- What undisturbed steps keep. -/
structure Inv (tid : Int) (s : State) : Prop where
  stage : Alone s ∨ ∃ p, Started tid s p
  inTime : ∀ a ∈ s.accesses, a.alive = true ∧ a.notified = false

theorem Started.waits (started : Started tid s p) (early : p.notified = false) :
    s.creator = .wait ∧ s.alive = true := by
  have waits : s.creator = .wait := by simpa [early] using started.creator
  exact ⟨waits, started.alive waits⟩

/-- Before its `notify` the new thread finds the object there. -/
theorem Started.access (started : Started tid s p) (early : p.notified = false) :
    ⟨s.alive, s.point.any Point.notified⟩ = (⟨true, false⟩ : Access) := by
  simp [started.point, early, started.waits early]

/-- The new thread goes one statement on. -/
theorem Started.child (started : Started tid s p) (quiet : Undisturbed s .child) (step : s.child tid = some t) :
    (∃ q, Started tid t q) ∧ (t.accesses = s.accesses ∨ t.accesses = s.accesses ++ [⟨true, false⟩]) := by
  have ⟨point, creator, alive, count, id, m_cb, cb, calls⟩ := started
  simp only [State.child, point] at step
  cases p with
  | setThis =>
    cases step
    exact ⟨⟨.readName, rfl, creator, alive, count, nofun, m_cb, cb, calls⟩, .inl rfl⟩
  | readName =>
    cases step
    exact ⟨⟨.storeId, rfl, creator, alive, count, nofun, m_cb, cb, calls⟩,
      .inr (congrArg (s.accesses ++ [·]) (started.access rfl))⟩
  | storeId =>
    cases step
    exact ⟨⟨.setKernelName, rfl, creator, alive, count, fun _ => rfl, m_cb, cb, calls⟩,
      .inr (congrArg (s.accesses ++ [·]) (started.access rfl))⟩
  | setKernelName =>
    cases step
    exact ⟨⟨.swap, rfl, creator, alive, count, id, m_cb, cb, calls⟩,
      .inr (congrArg (s.accesses ++ [·]) (started.access rfl))⟩
  | swap =>
    cases step
    exact ⟨⟨.notify, rfl, creator, alive, count, id, cb, m_cb, calls⟩,
      .inr (congrArg (s.accesses ++ [·]) (started.access rfl))⟩
  | notify =>
    cases step
    have waits := (started.waits rfl).1
    refine ⟨⟨.call, rfl, .inl waits, alive, ?_, id, m_cb, cb, calls⟩,
      .inr (congrArg (s.accesses ++ [·]) (started.access rfl))⟩
    simp [State.goto, State.access, count, waits, Point.notified]
  | call =>
    obtain ⟨ops, taken, rfl⟩ := Option.map_eq_some_iff.mp step
    exact ⟨⟨.inside ops, rfl, creator, alive, count, id, m_cb, cb, congrArg (· + 1) calls⟩, .inl rfl⟩
  | inside rest =>
    cases rest with
    | nil =>
      cases step
      exact ⟨⟨.exited, rfl, creator, alive, count, id, m_cb, cb, calls⟩, .inl rfl⟩
    | cons op ops =>
      obtain rfl : op = .other := by simpa [Undisturbed, point, Point.late] using quiet
      cases step
      exact ⟨⟨.inside ops, rfl, creator, alive, count, id, m_cb, cb, calls⟩, .inl rfl⟩
  | exited => cases step

theorem Inv.start (cb : Callback) (name : Name) : Inv tid (.start cb name) where
  stage := .inl ⟨rfl, .inr ⟨rfl, rfl⟩, rfl, rfl, rfl, rfl⟩
  inTime a there := by cases there

theorem Inv.create {rt : Int} (inv : Inv tid s) (step : step tid s (.create rt) = some t) : Inv tid t := by
  simp only [Handshake.step] at step
  split at step
  · rename_i first
    obtain ⟨point, creator, count, m_cb, cb, calls⟩ | ⟨p, started⟩ := inv.stage
    · have alive : s.alive = true := by simpa [first] using creator
      split at step <;> cases step
      · refine ⟨.inr ⟨.setThis, rfl, .inl rfl, fun _ => alive, count, ?_, m_cb, ?_, calls⟩, inv.inTime⟩
        · simp [Point.stored]
        · simp [cb, Point.taken]
      · exact ⟨.inl ⟨point, .inl rfl, count, m_cb, cb, calls⟩, inv.inTime⟩
    · have late := started.creator
      simp [first] at late
  · cases step

/-- The creator goes on when the new thread has notified it. -/
theorem Inv.wake (inv : Inv tid s) (step : step tid s .wake = some t) : Inv tid t := by
  simp only [Handshake.step] at step
  split at step <;> cases step
  rename_i ready
  obtain ⟨waits, posted⟩ := ready
  refine ⟨.inr ?_, inv.inTime⟩
  obtain ⟨-, creator, -, -, -, -⟩ | ⟨p, ⟨point, creator, alive, count, id, m_cb, cb, calls⟩⟩ := inv.stage
  · simp [waits] at creator
  · have notified : p.notified = true := by
      by_contra early
      simp [count, early] at posted
    exact ⟨p, point, .inr ⟨rfl, notified⟩, nofun, by simp [count, notified, waits], id, m_cb, cb, calls⟩

theorem Inv.destroy (inv : Inv tid s) (step : step tid s .destroy = some t) : Inv tid t := by
  simp only [Handshake.step] at step
  split at step <;> cases step
  rename_i owner
  refine ⟨.inr ?_, inv.inTime⟩
  obtain ⟨-, creator, -, -, -, -⟩ | ⟨p, ⟨point, creator, alive, count, id, m_cb, cb, calls⟩⟩ := inv.stage
  · simp [owner.1] at creator
  · exact ⟨p, point, creator, by simp [owner.1], count, id, m_cb, cb, calls⟩

theorem Inv.step (inv : Inv tid s) (quiet : Undisturbed s a) (step : step tid s a = some t) : Inv tid t := by
  cases a with
  | create rt => exact inv.create step
  | wake => exact inv.wake step
  | signal eintr =>
    simp only [Handshake.step] at step
    rw [if_neg quiet] at step
    cases step
    exact inv
  | destroy => exact inv.destroy step
  | child =>
    obtain alone | ⟨p, started⟩ := inv.stage
    · simp [Handshake.step, State.child, alone.point] at step
    · obtain ⟨later, accesses⟩ := started.child quiet step
      refine ⟨.inr later, fun a there => ?_⟩
      rcases accesses with same | more
      · exact inv.inTime a (same ▸ there)
      · rw [more, List.mem_append, List.mem_singleton] at there
        rcases there with before | rfl
        · exact inv.inTime a before
        · exact ⟨rfl, rfl⟩

theorem Inv.of_run (run : Guarded (Handshake.step tid) Undisturbed (.start cb name) as s) : Inv tid s :=
  run.invariant (.start cb name) fun _ _ _ _ _ inv quiet step => inv.step quiet step

theorem Point.taken_of_notified (notified : p.notified = true) : p.taken = true := by
  cases p <;> first | rfl | cases notified

theorem Point.stored_of_notified (notified : p.notified = true) : p.stored = true := by
  cases p <;> first | rfl | cases notified

/-- **An undisturbed start is safe.** -/
theorem Inv.safe (inv : Inv tid s) : Safe tid s := by
  obtain ⟨point, creator, count, m_cb, cb, calls⟩ | ⟨p, started⟩ := inv.stage
  · refine ⟨fun _ => point, fun returned => ?_, ⟨by omega, by simp [point]⟩, inv.inTime⟩
    simp [returned] at creator
  · obtain ⟨point, creator, alive, count, id, m_cb, cb, calls⟩ := started
    refine ⟨fun threw => ?_, fun returned => ?_, ⟨?_, fun exited => ?_⟩, inv.inTime⟩
    · simp [threw] at creator
    · have notified : p.notified = true := by simpa [returned] using creator
      refine ⟨id (Point.stored_of_notified notified), ?_⟩
      simpa [Point.taken_of_notified notified] using m_cb
    · rw [calls]
      split <;> omega
    · obtain rfl := Option.some.inj (point.symm.trans exited)
      exact calls

/-! ## What a disturbance breaks for good -/

/-- The constructor has thrown with the new thread running, or an access came too late. -/
def Broken (s : State) : Prop :=
  (s.creator = .threw ∧ s.point.isSome = true) ∨ ∃ a ∈ s.accesses, a.alive = false ∨ a.notified = true

theorem Broken.not_safe (broken : Broken s) : ¬ Safe tid s := by
  intro safe
  obtain ⟨threw, running⟩ | ⟨a, there, late⟩ := broken
  · simp [safe.completes threw] at running
  · have inTime := safe.inTime a there
    simp [inTime] at late

@[simp] theorem State.access_creator (s : State) : s.access.creator = s.creator := rfl
@[simp] theorem State.access_accesses (s : State) :
    s.access.accesses = s.accesses ++ [⟨s.alive, s.point.any Point.notified⟩] := rfl

@[simp] theorem State.access_t_thread (s : State) : s.access.t_thread = s.t_thread := rfl

theorem State.op_kept (s : State) (op : Op) :
    (s.op op).creator = s.creator ∧ (s.op op).t_thread = s.t_thread ∧ s.accesses <+: (s.op op).accesses := by
  cases op with
  | setName name => by_cases set : s.t_thread <;> simp [State.op, set]
  | getThis => by_cases set : s.t_thread <;> simp [State.op, set]
  | other => simp [State.op]

/-- The new thread leaves the creator alone, keeps `t_thread` once it is set and forgets no access. -/
theorem child_kept (step : s.child tid = some t) : t.creator = s.creator ∧ t.point.isSome = true ∧
    (t.t_thread = s.t_thread ∨ t.t_thread = true) ∧ (s.point = some .setThis → t.t_thread = true) ∧
    s.accesses <+: t.accesses := by
  cases point : s.point with
  | none => simp [State.child, point] at step
  | some p =>
    simp only [State.child, point] at step
    cases p with
    | exited => cases step
    | setThis => cases step; simp [State.goto]
    | call =>
      obtain ⟨ops, -, rfl⟩ := Option.map_eq_some_iff.mp step
      simp [State.goto]
    | inside rest =>
      cases rest with
      | nil => cases step; simp [State.goto]
      | cons op ops => cases step; simp [State.goto, s.op_kept op]
    | _ => cases step; simp [State.goto]

theorem step_kept (step : step tid s a = some t) :
    (s.creator = .threw → t.creator = .threw) ∧ (s.point.isSome = true → t.point.isSome = true) ∧
      s.accesses <+: t.accesses := by
  cases a with
  | child =>
    obtain ⟨creator, point, -, -, accesses⟩ := child_kept step
    exact ⟨creator.trans, fun _ => point, accesses⟩
  | create rt =>
    simp only [Handshake.step] at step
    split at step
    · split at step <;> cases step <;> simp [*]
    · cases step
  | wake | destroy =>
    simp only [Handshake.step] at step
    split at step <;> cases step
    simp [*]
  | signal eintr =>
    simp only [Handshake.step] at step
    split at step <;> cases step <;> simp

theorem Broken.step (broken : Broken s) (step : step tid s a = some t) : Broken t := by
  obtain ⟨creator, point, accesses⟩ := step_kept step
  obtain ⟨threw, running⟩ | ⟨a, there, late⟩ := broken
  · exact .inl ⟨creator threw, point running⟩
  · exact .inr ⟨a, accesses.subset there, late⟩

/-- There is a new thread once `pthread_create` is over, and behind its first statement it has
`t_thread` set. -/
structure Linked (s : State) : Prop where
  fresh : s.creator = .create → s.point = none
  this : s.t_thread = true ∨ s.point = none ∨ s.point = some .setThis
  running : s.creator = .wait → s.point.isSome = true

theorem Linked.step (linked : Linked s) (step : step tid s a = some t) : Linked t := by
  cases a with
  | child =>
    obtain ⟨creator, point, this, first, -⟩ := child_kept step
    have running : s.point ≠ none := fun none => by simp [Handshake.step, State.child, none] at step
    refine ⟨fun early => (running (linked.fresh (creator ▸ early))).elim, .inl ?_, fun _ => point⟩
    obtain set | none | start := linked.this
    · simpa [set] using this
    · exact (running none).elim
    · exact first start
  | create rt =>
    simp only [Handshake.step] at step
    split at step
    · split at step <;> cases step
      · exact ⟨nofun, .inr (.inr rfl), fun _ => rfl⟩
      · exact ⟨nofun, linked.this, nofun⟩
    · cases step
  | wake | destroy =>
    simp only [Handshake.step] at step
    split at step <;> cases step
    exact ⟨by simp [*], linked.this, by simp [*]⟩
  | signal eintr =>
    simp only [Handshake.step] at step
    split at step <;> cases step
    · exact ⟨nofun, linked.this, nofun⟩
    · exact linked

theorem exists_late (disturbed : ¬ Undisturbed s .child) :
    ∃ op ops, s.point = some (.inside (op :: ops)) ∧ op ≠ .other := by
  cases point : s.point with
  | none => simp [Undisturbed, point] at disturbed
  | some p =>
    simp only [Undisturbed, point, Option.any_some, Bool.not_eq_false] at disturbed
    unfold Point.late at disturbed
    split at disturbed
    · exact ⟨_, _, rfl, by simpa using disturbed⟩
    · cases disturbed

/-- A step that is not undisturbed breaks the start. -/
theorem broken_of_disturbed (linked : Linked s) (disturbed : ¬ Undisturbed s a) (step : step tid s a = some t) :
    Broken t := by
  cases a with
  | signal eintr =>
    have ends : eintr = true ∧ s.creator = .wait := by simpa [Undisturbed] using disturbed
    simp only [Handshake.step, if_pos ends] at step
    cases step
    exact .inl ⟨rfl, linked.running ends.2⟩
  | child =>
    obtain ⟨op, ops, point, uses⟩ := exists_late disturbed
    have this : s.t_thread = true := by simpa [point] using linked.this
    simp only [Handshake.step, State.child, point] at step
    cases step
    have late : (⟨s.alive, true⟩ : Access) ∈ ((s.op op).goto (.inside ops)).accesses := by
      cases op with
      | setName name => simp [State.op, this, State.goto, point, Point.notified]
      | getThis => simp [State.op, this, State.goto, point, Point.notified]
      | other => exact (uses rfl).elim
    exact .inr ⟨_, late, .inr rfl⟩
  | create _ | wake | destroy => exact (disturbed trivial).elim

/-! ## Progress -/

/-- The steps of the two threads. -/
def Act.ofParty : Act → Bool
  | .create _ | .wake | .child => true
  | .signal _ | .destroy => false

/-- A run that was disturbed is broken. -/
theorem guarded_or_broken (run : exec (step tid) (.start cb name) as = some s) :
    Linked s ∧ (Guarded (step tid) Undisturbed (.start cb name) as s ∨ Broken s) := by
  have start : Linked (.start cb name) := ⟨fun _ => rfl, .inr (.inl rfl), nofun⟩
  induction Guarded.of_exec run with
  | refl => exact ⟨start, .inl .refl⟩
  | @snoc as t a u before _ step ih =>
    obtain ⟨linked, quiet⟩ := ih before.exec_eq
    refine ⟨linked.step step, ?_⟩
    obtain run | broken := quiet
    · by_cases undisturbed : Undisturbed t a
      · exact .inl (run.snoc undisturbed step)
      · exact .inr (broken_of_disturbed linked undisturbed step)
    · exact .inr (broken.step step)

/-- How long the callback is, wherever it is. -/
def State.length (s : State) : Nat := (s.object.m_cb.getD []).length + (s.cb.getD []).length

/-- The steps left to the new thread. -/
def State.left (s : State) : Nat :=
  match s.point with
  | none => 0
  | some .setThis => 9 + s.length
  | some .readName => 8 + s.length
  | some .storeId => 7 + s.length
  | some .setKernelName => 6 + s.length
  | some .swap => 5 + s.length
  | some .notify => 4 + s.length
  | some .call => 3 + s.length
  | some (.inside rest) => 1 + rest.length
  | some .exited => 0

/-- The steps left to both threads. -/
def State.work (s : State) : Nat :=
  match s.creator with
  | .create => 11 + s.length
  | .wait => 1 + s.left
  | .returned | .threw => s.left

theorem child_left (step : s.child tid = some t) : t.left < s.left := by
  cases point : s.point with
  | none => simp [State.child, point] at step
  | some p =>
    simp only [State.child, point] at step
    cases p with
    | exited => cases step
    | call =>
      obtain ⟨ops, taken, rfl⟩ := Option.map_eq_some_iff.mp step
      simp [State.left, State.goto, point, State.length, taken]
      omega
    | inside rest =>
      cases rest with
      | nil => cases step; simp [State.left, State.goto, point]
      | cons op ops => cases step; simp [State.left, State.goto, point]
    | _ => cases step; simp [State.left, State.goto, State.length, State.access, point, Nat.add_comm]

/-- Each step of a thread is one step less to do; no other makes more. -/
theorem work_step (linked : Linked s) (step : step tid s a = some t) :
    t.work + (if a.ofParty then 1 else 0) ≤ s.work := by
  cases a with
  | child =>
    obtain ⟨creator, -⟩ := child_kept step
    have less := child_left step
    have started : s.creator ≠ .create := fun early => by
      simp [Handshake.step, State.child, linked.fresh early] at step
    simp only [State.work, creator, Act.ofParty, if_true]
    split <;> first | omega | contradiction
  | create rt =>
    simp only [Handshake.step] at step
    split at step
    · rename_i first
      split at step <;> cases step
      · simp [State.work, first, State.left, State.length, Act.ofParty]
        omega
      · simp [State.work, first, State.left, linked.fresh first, Act.ofParty]
        omega
    · cases step
  | wake =>
    simp only [Handshake.step] at step
    split at step <;> cases step
    rename_i ready
    simp [State.work, ready.1, State.left, State.length, Act.ofParty, Nat.add_comm]
  | destroy =>
    simp only [Handshake.step] at step
    split at step <;> cases step
    exact Nat.le_refl _
  | signal eintr =>
    simp only [Handshake.step] at step
    split at step <;> cases step
    · rename_i ends
      simp [State.work, ends.2, State.left, State.length, Act.ofParty]
    · exact Nat.le_refl _

/-- The threads make no more steps than there were to do. -/
theorem countP_run (run : exec (step tid) (.start cb name) as = some s) :
    s.work + as.countP Act.ofParty ≤ 11 + cb.length := by
  induction Guarded.of_exec run with
  | refl => exact Nat.le_refl (11 + cb.length)
  | @snoc as t a u before _ step ih =>
    have linked := (guarded_or_broken before.exec_eq).1
    have less := work_step linked step
    have sofar := ih before.exec_eq
    rw [List.countP_append, List.countP_singleton]
    omega

/-- Where neither thread can go on, the start is over. -/
theorem Inv.stuck (inv : Inv tid s) (stuck : ∀ a, a.ofParty = true → Handshake.step tid s a = none)
    (created : s.point ≠ none) : s.creator = .returned ∧ s.point = some .exited := by
  obtain alone | ⟨p, ⟨point, creator, alive, count, id, m_cb, cb, calls⟩⟩ := inv.stage
  · exact (created alone.point).elim
  · have child := stuck .child rfl
    have exited : p = .exited := by
      simp only [Handshake.step, State.child, point] at child
      cases p with
      | exited => rfl
      | call =>
        obtain ⟨ops, taken⟩ := Option.isSome_iff_exists.mp cb
        simp [taken] at child
      | inside rest => cases rest <;> cases child
      | _ => cases child
    subst exited
    refine ⟨?_, point⟩
    obtain waits | ⟨returned, -⟩ := creator
    · have wake := stuck .wake rfl
      simp [Handshake.step, waits, count, Point.notified] at wake
    · exact returned

/-- **Main result**: the start of a thread is safe exactly when each step of the run is undisturbed.
The two threads make a bounded number of steps; where neither can go on in an
undisturbed run, the constructor has returned and the callback was called once. -/
theorem handshake (tid : Int) (cb : Callback) (name : Name) :
    (∀ as s, exec (step tid) (.start cb name) as = some s →
      (Safe tid s ↔ Guarded (step tid) Undisturbed (.start cb name) as s) ∧
        as.countP Act.ofParty ≤ 11 + cb.length) ∧
      ∀ as s, Guarded (step tid) Undisturbed (.start cb name) as s → s.point ≠ none →
        (∀ a, a.ofParty = true → step tid s a = none) → s.creator = .returned ∧ s.calls = 1 := by
  refine ⟨fun as s run => ⟨⟨fun safe => ?_, fun quiet => (Inv.of_run quiet).safe⟩, ?_⟩, ?_⟩
  · obtain quiet | broken := (guarded_or_broken run).2
    · exact quiet
    · exact (broken.not_safe safe).elim
  · have bounded := countP_run run
    omega
  · intro as s run created stuck
    have inv := Inv.of_run run
    obtain ⟨returned, exited⟩ := inv.stuck stuck created
    exact ⟨returned, inv.safe.once.2 exited⟩

/-- A start with a signal that does not end `sem_wait`, destroyed while the callback runs. -/
def quietStart : List Act :=
  [.create 0, .signal false, .child, .child, .child, .child, .child, .child, .wake, .child, .destroy, .child, .child]

theorem handshake_quiet : ∃ s, exec (step 7) (.start [.other] "a".toList) quietStart = some s ∧ Safe 7 s ∧
    s.creator = .returned ∧ s.calls = 1 := by
  obtain ⟨s, run, test⟩ := Guarded.of_any (show
    (execIf (step 7) Undisturbed (.start [.other] "a".toList) quietStart).any
      (fun s => s.point == some .exited && s.creator == .returned) = true by decide)
  obtain ⟨runs, ends⟩ := handshake 7 [.other] "a".toList
  obtain ⟨exited, returned⟩ : s.point = some .exited ∧ s.creator = .returned := by simpa using test
  have stuck : ∀ a, Act.ofParty a = true → step 7 s a = none := by
    intro a party
    cases a with
    | create _ | wake => simp [step, returned]
    | child => simp [step, State.child, exited]
    | signal _ | destroy => cases party
  exact ⟨s, run.exec_eq, (runs _ s run.exec_eq).1.mpr run, ends _ s run (by simp [exited]) stuck⟩

/-- A signal ends `sem_wait` before the new thread has read its name. -/
theorem not_handshake : ∃ s,
    exec (step 7) (.start [.other] "a".toList) [.create 0, .signal true, .child, .child] = some s ∧
      s.creator = .threw ∧ s.accesses = [⟨false, false⟩] ∧ ¬ Safe 7 s := by
  refine ⟨_, rfl, rfl, rfl, fun safe => ?_⟩
  have created := safe.completes rfl
  cases created

end Atpdxy.Sync.Handshake
