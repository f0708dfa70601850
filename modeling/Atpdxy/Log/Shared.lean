import Atpdxy.Log.Logger
import Atpdxy.Sync.Mutex

/-!
# Threads that ask for loggers

`LoggerManager::getLogger` statement by statement, on logger objects behind pointers and
under the spinlock of the manager. Any number of threads call it: one logger is made for
each name and all are given the same (`getLogger_shared`), and what they make of the
manager is what the calls make of it one at a time.
-/

namespace Atpdxy.Log.Shared

open Run Run.Sections

/-- A logger with its pointer to the root logger. A `Logger::ptr` is the number of the object. -/
structure Object where
  logger : Logger
  m_root : Option Nat := none

/-- `LoggerManager`, and the loggers there are. -/
structure Manager where
  m_loggers : Text → Option Nat
  m_root : Nat
  heap : Nat → Option Object
  /-- where the next logger goes -/
  next : Nat

/-- `new Logger(name)`. -/
def Manager.alloc (m : Manager) (name : Text) : Manager :=
  { m with heap := Function.update m.heap m.next (some { logger := .new name }), next := m.next + 1 }

/-- `logger->m_root = m_root`. -/
def Manager.setRoot (m : Manager) (logger : Nat) : Manager :=
  { m with
    heap := Function.update m.heap logger ((m.heap logger).map fun o => { o with m_root := some m.m_root }) }

/-- `m_loggers[name] = logger`. -/
def Manager.insert (m : Manager) (name : Text) (logger : Nat) : Manager :=
  { m with m_loggers := Function.update m.m_loggers name (some logger) }

/-- The constructor: the root logger, with an appender. -/
def Manager.new : Manager where
  m_loggers name := if name = rootName then some 0 else none
  m_root := 0
  heap ptr := if ptr = 0 then some { logger := (Logger.new rootName).addAppender { kind := .stdout } } else none
  next := 1

/-- `LoggerManager::getLogger`. -/
def getLogger (name : Text) : Sections.Op Manager Nat := .exclusive <|
  .get fun m =>
    match m.m_loggers name with
    | some it => .done it
    | none =>
      .get fun m =>
        .put (fun m => m.alloc name) <|
        .put (fun m' => m'.setRoot m.next) <|
        .put (fun m' => m'.insert name m.next) <|
        .done m.next

/-- The manager as it is seen without the pointers. -/
def Manager.view (m : Manager) : LoggerManager where
  root := ((m.heap m.m_root).map Object.logger).getD (.new rootName)
  loggers name := if name = rootName then none else ((m.m_loggers name).bind m.heap).map Object.logger

/-- Each name has a logger of that name; all but the root logger point to it. -/
structure Managed (m : Manager) : Prop where
  entry : ∀ name ptr, m.m_loggers name = some ptr → ∃ o, m.heap ptr = some o ∧ o.logger.name = name ∧
    o.m_root = if name = rootName then none else some m.m_root
  root : m.m_loggers rootName = some m.m_root
  unused : ∀ ptr, m.next ≤ ptr → m.heap ptr = none

/-- The manager after a call for a new name. -/
def Manager.create (m : Manager) (name : Text) : Manager where
  m_loggers := Function.update m.m_loggers name (some m.next)
  m_root := m.m_root
  heap := Function.update m.heap m.next (some { logger := .new name, m_root := some m.m_root })
  next := m.next + 1

variable {m : Manager} {name other : Text} {ptr : Nat} {ι : Type}

/-- `getLogger` finds or creates. -/
theorem run_getLogger (m : Manager) (name : Text) : (getLogger name).body.run m =
    match m.m_loggers name with
    | some it => (m, it)
    | none => (m.create name, m.next) := by
  unfold getLogger Sections.Op.exclusive
  cases found : m.m_loggers name with
  | some it => simp [found]
  | none =>
    simp [found, Manager.alloc, Manager.setRoot, Manager.insert, Manager.create]

theorem Managed.new : Managed .new where
  entry name ptr found := by
    by_cases root : name = rootName
    · subst root
      obtain rfl : 0 = ptr := by simpa [Manager.new] using found
      exact ⟨_, rfl, rfl, rfl⟩
    · simp [Manager.new, root] at found
  root := rfl
  unused ptr later := by
    have later : 1 ≤ ptr := later
    simp [Manager.new, show ptr ≠ 0 by omega]

theorem Managed.ptr_lt (managed : Managed m) (found : m.m_loggers name = some ptr) : ptr < m.next := by
  obtain ⟨o, there, -⟩ := managed.entry name ptr found
  by_contra later
  rw [managed.unused ptr (by omega)] at there
  cases there

theorem Managed.create (managed : Managed m) (new : m.m_loggers name = none) : Managed (m.create name) where
  entry other ptr found := by
    by_cases same : other = name
    · subst same
      obtain rfl : m.next = ptr := by simpa [Manager.create] using found
      have notRoot : other ≠ rootName := by
        rintro rfl
        rw [managed.root] at new
        cases new
      refine ⟨{ logger := .new other, m_root := some m.m_root }, ?_, rfl, ?_⟩
      · simp [Manager.create]
      · simp [Manager.create, notRoot]
    · have found : m.m_loggers other = some ptr := by simpa [Manager.create, same] using found
      obtain ⟨o, there, named⟩ := managed.entry other ptr found
      have old := managed.ptr_lt found
      exact ⟨o, by simp [Manager.create, show ptr ≠ m.next by omega, there], named⟩
  root := by
    have notRoot : rootName ≠ name := by
      rintro rfl
      rw [managed.root] at new
      cases new
    simpa [Manager.create, notRoot] using managed.root
  unused ptr later := by
    have later : m.next + 1 ≤ ptr := later
    simpa [Manager.create, show ptr ≠ m.next by omega] using managed.unused ptr (by omega)

/-- A pointer tells the name. -/
theorem Managed.name_eq (managed : Managed m) (found : m.m_loggers name = some ptr)
    (found' : m.m_loggers other = some ptr) : name = other := by
  obtain ⟨o, there, named, -⟩ := managed.entry name ptr found
  obtain ⟨o', there', named', -⟩ := managed.entry other ptr found'
  rw [there] at there'
  cases there'
  exact named.symm.trans named'

/-! ## The manager without pointers -/

theorem Managed.get_view (managed : Managed m) (found : m.m_loggers name = some ptr) {o : Object}
    (there : m.heap ptr = some o) : m.view.get name = o.logger := by
  by_cases root : name = rootName
  · subst root
    obtain rfl : m.m_root = ptr := by simpa [managed.root] using found
    simp [LoggerManager.get, Manager.view, there]
  · simp [LoggerManager.get, Manager.view, root, found, there]

/-- A call for a known name leaves the manager as it is. -/
theorem Managed.view_getLogger (managed : Managed m) (found : m.m_loggers name = some ptr) :
    m.view.getLogger name = m.view := by
  obtain ⟨o, there, -⟩ := managed.entry name ptr found
  rw [LoggerManager.getLogger, managed.get_view found there, LoggerManager.set]
  by_cases root : name = rootName
  · subst root
    obtain rfl : m.m_root = ptr := by simpa [managed.root] using found
    simp [Manager.view, there]
  · have same : Function.update m.view.loggers name (some o.logger) = m.view.loggers := by
      funext other
      by_cases here : other = name
      · subst here
        simp [Manager.view, root, found, there]
      · simp [here]
    rw [if_neg root, same]

/-- A call for a new name. -/
theorem Managed.view_create (managed : Managed m) (new : m.m_loggers name = none) :
    (m.create name).view = m.view.getLogger name := by
  have notRoot : name ≠ rootName := by
    rintro rfl
    rw [managed.root] at new
    cases new
  have rootOld : m.m_root ≠ m.next := by
    have old := managed.ptr_lt managed.root
    omega
  have fresh : m.view.get name = .new name := by simp [LoggerManager.get, Manager.view, notRoot, new]
  have root : (m.create name).view.root = m.view.root := by simp [Manager.view, Manager.create, rootOld]
  have loggers : (m.create name).view.loggers = Function.update m.view.loggers name (some (.new name)) := by
    funext other
    by_cases here : other = name
    · subst here
      simp [Manager.view, Manager.create, notRoot]
    · have heap : ∀ ptr, m.m_loggers other = some ptr →
          Function.update m.heap m.next (some { logger := .new name, m_root := some m.m_root }) ptr = m.heap ptr := by
        intro ptr found
        have old := managed.ptr_lt found
        rw [Function.update_of_ne (by omega)]
      simp only [Manager.view, Manager.create, ne_eq, here, not_false_eq_true, Function.update_of_ne]
      cases found : m.m_loggers other with
      | none => rfl
      | some ptr => simp [heap ptr found]
  rw [LoggerManager.getLogger, fresh, LoggerManager.set, if_neg notRoot, ← root, ← loggers]

/-! ## All threads together -/

/-- What the calls were given, against the manager they leave: one logger for each name, which the manager keeps;
and the manager is what the calls make of it one at a time. -/
structure Served (log : List (Entry ι Text Nat)) (m : Manager) : Prop where
  one : ∀ e ∈ log, ∀ e' ∈ log, e.call = e'.call ↔ e.result = e'.result
  kept : ∀ e ∈ log, m.m_loggers e.call = some e.result ∧ ∃ o, m.heap e.result = some o ∧ o.logger.name = e.call ∧
    o.m_root = if e.call = rootName then none else some m.m_root
  refines : m.view = (log.map Entry.call).foldl LoggerManager.getLogger .new

theorem view_new : Manager.new.view = .new := by
  have loggers : Manager.new.view.loggers = fun _ => none := by
    funext name
    by_cases root : name = rootName <;> simp [Manager.view, Manager.new, root]
  show LoggerManager.mk Manager.new.view.root Manager.new.view.loggers = _
  rw [loggers]
  rfl

/-- What the calls leave, when they are made one at a time. -/
theorem Managed.of_replays {log : List (Entry ι Text Nat)} (replays : Replays getLogger .new log m) :
    Managed m ∧ (∀ e ∈ log, m.m_loggers e.call = some e.result) ∧
      m.view = (log.map Entry.call).foldl LoggerManager.getLogger .new := by
  induction replays with
  | nil => exact ⟨.new, nofun, view_new⟩
  | @snoc log m m' e _ last ih =>
    obtain ⟨managed, found, refines⟩ := ih
    rw [run_getLogger] at last
    rw [List.map_append, List.foldl_append, ← refines]
    cases known : m.m_loggers e.call with
    | some it =>
      rw [known] at last
      cases last
      refine ⟨managed, fun e' member => ?_, (managed.view_getLogger known).symm⟩
      obtain before | here := List.mem_append.mp member
      · exact found e' before
      · obtain rfl := List.mem_singleton.mp here
        exact known
    | none =>
      rw [known] at last
      obtain ⟨rfl, result⟩ := Prod.mk.inj last
      refine ⟨managed.create known, fun e' member => ?_, managed.view_create known⟩
      obtain before | here := List.mem_append.mp member
      · have other : e'.call ≠ e.call := by
          intro same
          have there := found e' before
          rw [same, known] at there
          cases there
        simpa [Manager.create, other] using found e' before
      · obtain rfl := List.mem_singleton.mp here
        simpa [Manager.create] using result

/-- **Main result**: however the calls of the threads are interleaved, there is one logger for each name. -/
theorem getLogger_shared [DecidableEq ι] (as : List (Sections.Act ι Text))
    (s : Sections.State (Sync.LockClass.spinlock.lock (ι := ι)) Text Manager Nat)
    (run : exec (Sections.step Sync.LockClass.spinlock.lock getLogger) { data := .new } as = some s) :
    ∃ m, Served s.log m ∧ ((∀ t, s.phases t = .idle) → s.data = m ∧
      (s.log.map fun e => (e.party, e.call)).Perm (as.flatMap Sections.Act.called)) := by
  obtain ⟨m, replays, data⟩ := linearizable run
  obtain ⟨managed, found, refines⟩ := Managed.of_replays replays
  refine ⟨m, ⟨fun e member e' member' => ⟨fun same => ?_, fun same => ?_⟩, fun e member => ?_, refines⟩, fun idle => ?_⟩
  · have there := found e member
    rw [same, found e' member'] at there
    exact (Option.some.inj there).symm
  · apply managed.name_eq (found e member)
    rw [same]
    exact found e' member'
  · exact ⟨found e member, managed.entry _ _ (found e member)⟩
  · exact ⟨data (not_holding idle), log_perm run idle⟩

/-- Two threads ask for one name while neither has been given it. -/
def sameName : List (Sections.Act Bool Text) :=
  [.call true "system".toList, .call false "system".toList] ++ List.replicate 7 (.next true) ++
    List.replicate 3 (.next false)

theorem getLogger_shared_sameName :
    ∃ (s : Sections.State (Sync.LockClass.spinlock.lock (ι := Bool)) Text Manager Nat) (m : Manager),
      exec (Sections.step Sync.LockClass.spinlock.lock getLogger) { data := .new } sameName = some s ∧
      s.log.map Entry.result = [1, 1] ∧ Served s.log m := by
  obtain ⟨s, run, test⟩ := exec_of_any (show (exec (Sections.step Sync.LockClass.spinlock.lock getLogger)
    ({ data := .new } : Sections.State (Sync.LockClass.spinlock.lock (ι := Bool)) Text Manager Nat) sameName).any
      (fun s => s.log.map Entry.result = [1, 1]) = true from by decide)
  obtain ⟨m, served, -⟩ := getLogger_shared sameName s run
  exact ⟨s, m, run, by simpa using test, served⟩

end Atpdxy.Log.Shared
