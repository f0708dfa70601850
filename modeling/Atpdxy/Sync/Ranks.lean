import Atpdxy.Sync.Paths

/-!
# No deadlock among the locks

The seven kinds of lock have a rank each (`Lock.rank`), and every path takes
them in that order: a scheduler may log, the registry may print a variable and
log, a variable's listener uses the manager, a logger and appenders, and a logger
falls back to root. So the rules for ranked locks apply (`no_deadlock`).
-/

namespace Atpdxy.Sync

open Run Run.Locks

def Lock.rank : Lock → Nat
  | .scheduler _ => 1
  | .config => 2
  | .var _ => 3
  | .manager => 4
  | .logger _ => 5
  | .root => 6
  | .appender _ => 7

/-- The path takes its locks in order, from a rank on. -/
abbrev Above (bound : Nat) (p : Path) : Prop := p.Ranked Lock.rank bound

variable {p : Path} {ps : List Path} {bound : Nat} {c : Bool} {l : LoggerId} {a : AppenderId} {v : VarId}

theorem above_when (above : Above bound p) : Above bound (when c p) := by
  cases c with
  | true => exact above
  | false => trivial

theorem above_mutex {l : Lock} (less : bound < l.rank) (body : Above l.rank p) : Above bound (mutex l p) := ⟨less, body⟩

/-- A list of paths made from other data. -/
theorem above_map {α : Type} {f : α → Path} (each : ∀ x, Above bound (f x)) (xs : List α) :
    Above bound (.all (xs.map f)) := by
  apply ranked_all
  intro p member
  obtain ⟨x, -, rfl⟩ := List.mem_map.mp member
  exact each x

theorem above_elim {α : Type} {f : α → Path} (each : ∀ x, Above bound (f x)) (x : Option α) :
    Above bound (x.elim .skip f) := by
  cases x with
  | none => trivial
  | some x => exact each x

/-! ## Logging -/

theorem above_appender (less : bound < 7) : Above bound (mutex (.appender a) .skip) := above_mutex less trivial

theorem above_write (less : bound < 7) (w : Writing) : Above bound (LogAppender.log w) :=
  above_when ⟨above_when (above_appender less), above_appender less⟩

theorem above_logRoot (less : bound < 6) (f : Finds) : Above bound (Logger.logRoot f) :=
  above_when (above_mutex less (above_map (above_write (by decide)) _))

theorem LoggerId.rank_lock (l : LoggerId) : 5 ≤ l.lock.rank ∧ l.lock.rank < 7 := by
  cases l with
  | root => decide
  | named l => exact ⟨Nat.le_refl 5, by simp [LoggerId.lock, Lock.rank]⟩

theorem above_log (less : bound < 5) (line : Line) : Above bound line.log := by
  unfold Line.log
  cases line.logger with
  | root => exact above_logRoot (by omega) _
  | named l =>
    apply above_when
    apply above_mutex less
    split
    · exact above_logRoot (by simp [Lock.rank]) _
    · exact above_map (above_write (by simp [Lock.rank])) _

theorem above_logAll (less : bound < 5) (lines : List Line) : Above bound (Line.logAll lines) :=
  above_map (above_log less) lines

/-! ## Loggers -/

theorem above_logger (less : bound < 5) (body : ∀ bound, bound < 7 → Above bound p) : Above bound (mutex l.lock p) := by
  obtain ⟨least, most⟩ := l.rank_lock
  exact above_mutex (by omega) (body _ most)

theorem above_addAppender (less : bound < 5) (fills : Bool) : Above bound (Logger.addAppender l a fills) :=
  above_logger less fun _ less => ⟨above_appender less, above_when (above_appender less)⟩

theorem above_setFormatter (less : bound < 5) (inheriting : Option (List AppenderId)) :
    Above bound (Logger.setFormatter l inheriting) := by
  cases inheriting with
  | none => trivial
  | some as => exact above_logger less fun _ less => above_map (fun _ => above_appender less) as

theorem above_toYamlString (less : bound < 5) (appenders : List AppenderId) :
    Above bound (Logger.toYamlString l appenders) :=
  above_logger less fun _ less => above_map (fun _ => above_appender less) appenders

theorem above_getLogger (less : bound < 4) : Above bound LoggerManager.getLogger := above_mutex less trivial

/-! ## Variables -/

theorem above_newAppender (less : bound < 5) (x : NewAppender) : Above bound (x.run l) := by
  have appender : Above bound (mutex (.appender x.appender) .skip) := above_appender (by omega)
  exact ⟨above_when appender, above_when appender, above_addAppender less _, trivial⟩

theorem above_configure (less : bound < 4) (x : Configure) : Above bound x.run :=
  ⟨above_getLogger less, above_setFormatter (by omega) _, trivial,
    above_map (above_newAppender (by omega)) _, trivial⟩

theorem above_listener (less : bound < 4) (x : Listener) : Above bound x.run := by
  refine ⟨above_log (by omega) _, above_map (above_configure less) _, ranked_all ?_, trivial⟩
  intro p member
  rw [List.eq_of_mem_replicate member]
  exact ⟨above_getLogger less, trivial⟩

theorem above_var {mode : Mode} (less : bound < 3) (body : Above 3 p) : Above bound (.locked (.var v) mode p) :=
  ⟨less, body⟩

theorem above_toString (less : bound < 3) (failed : Option Line) : Above bound (ConfigVar.toString v failed) :=
  ⟨above_var less trivial, above_logAll (by omega) _⟩

theorem above_setValue (less : bound < 3) (listeners : Option (List Listener)) :
    Above bound (ConfigVar.setValue v listeners) := by
  cases listeners with
  | none => exact above_var less trivial
  | some xs => exact ⟨above_var less (above_map (above_listener (by decide)) xs), above_var less trivial⟩

theorem above_fromString (less : bound < 3) (set : Option (Option (List Listener))) (failed : Option Line) :
    Above bound (ConfigVar.fromString v set failed) :=
  ⟨above_elim (above_setValue less) set, above_logAll (by omega) _⟩

/-! ## The registry and the scheduler -/

theorem above_lookupOr (less : bound < 2) (looked : Looked) : Above bound (Config.lookupOr looked) := by
  apply above_mutex less
  cases looked with
  | found line => exact above_log (by decide) line
  | mismatch shown line => exact ⟨above_elim (fun s => above_toString (by decide) s.2) shown, above_log (by decide) line⟩
  | invalid line => exact above_log (by decide) line
  | created => trivial

theorem above_loadFromYaml (less : bound < 2) (lines : List Line) (keys : List Loaded) :
    Above bound (Config.loadFromYaml lines keys) := by
  have key (key : Loaded) : Above bound key.path :=
    ⟨⟨less, trivial⟩, above_elim (fun v => above_fromString (by omega) v.2.1 v.2.2) key.var⟩
  exact ⟨above_logAll (by omega) lines, above_map key keys⟩

/-- A callback that reads and logs takes locks above the registry's. -/
theorem Reading.above (reading : Reading p) : Above 2 p := by
  induction reading with
  | none => trivial
  | seq _ _ ihp ihq => exact ⟨ihp, ihq⟩
  | getValue v => exact above_var (by decide) trivial
  | toString v failed => exact above_toString (by decide) failed
  | getListener v => exact above_var (by decide) trivial
  | getLogger => exact above_getLogger (by decide)
  | log line => exact above_log (by decide) line

theorem above_scheduler {s : Nat} (body : Above 1 p) : Above 0 (mutex (.scheduler s) p) :=
  above_mutex Nat.one_pos body

theorem above_start (s : Nat) (asserts failed : Option Line) (threads : ∀ p ∈ ps, Above 0 p) :
    Above 0 (Scheduler.start s asserts ps failed) := by
  apply above_scheduler
  refine ⟨above_logAll (by decide) _, ranked_all ?_, above_logAll (by decide) _, trivial⟩
  intro p member
  obtain ⟨q, listed, rfl⟩ := List.mem_map.mp member
  exact threads q listed

/-- Each operation takes its locks in order. -/
theorem Operations.above (operations : Operations p) : Above 0 p := by
  induction operations with
  | none => trivial
  | seq _ _ ihp ihq => exact ⟨ihp, ihq⟩
  | lookupOr looked => exact above_lookupOr (by decide) looked
  | lookup => exact ⟨by decide, trivial⟩
  | lookupBase => exact ⟨by decide, trivial⟩
  | loadFromYaml lines keys => exact above_loadFromYaml (by decide) lines keys
  | visit reading => exact ⟨by decide, ranked_all fun cb member => (reading cb member).above⟩
  | getValue v => exact above_var (by decide) trivial
  | toString v failed => exact above_toString (by decide) failed
  | setValue v listeners => exact above_setValue (by decide) listeners
  | fromString v set failed => exact above_fromString (by decide) set failed
  | addListener v => exact above_var (by decide) trivial
  | delListener v => exact above_var (by decide) trivial
  | getListener v => exact above_var (by decide) trivial
  | clearListener v => exact above_var (by decide) trivial
  | getLogger => exact above_getLogger (by decide)
  | managerToYamlString loggers =>
    exact above_mutex (by decide) (above_map (fun l => above_toYamlString (by decide) l.2) loggers)
  | log line => exact above_log (by decide) line
  | addAppender l a fills => exact above_addAppender (by decide) fills
  | delAppender l => exact above_logger (by decide) fun _ _ => trivial
  | clearAppenders => trivial
  | setFormatterPtr l inheriting => exact above_setFormatter (by decide) (some inheriting)
  | setFormatter l inheriting => exact above_setFormatter (by decide) inheriting
  | getFormatter l => exact above_logger (by decide) fun _ _ => trivial
  | toYamlString l appenders => exact above_toYamlString (by decide) appenders
  | appenderLog w => exact above_write (by decide) w
  | appenderGetFormatter a => exact above_appender (by decide)
  | appenderSetFormatter a => exact above_appender (by decide)
  | appenderToYamlString a => exact above_appender (by decide)
  | reopen a => exact above_appender (by decide)
  | start s asserts failed _ ih => exact above_start s asserts failed ih
  | schedule s tickle => exact ⟨above_scheduler trivial, above_logAll (by decide) _⟩
  | stopping s => exact above_scheduler trivial
  | take s asserts => exact above_scheduler (above_logAll (by decide) asserts)

/-- **Main result**: in each state that threads with operations of the library
lead to, no threads wait for each other in a cycle, none waits for itself, and
while one has something left to do one can move. -/
theorem no_deadlock {ts : List Nat} {ths : Threads Lock} (operations : ∀ p ∈ ps, Operations p)
    (run : exec step (ps.map Thread.start) ts = some ths) :
    (∀ t, ¬ Relation.TransGen (WaitsFor ths) t t) ∧
      ∀ (t : Nat) (th : Thread Lock), ths[t]? = some th → th.stack ≠ [] → ∃ u, (step ths u).isSome = true := by
  have sound : Sound Lock.rank ths := .run (fun p member => (operations p member).above) run
  constructor
  · intro t
    exact acyclic sound t
  · intro t th there busy
    exact progress sound there busy

/-- A thread starts a scheduler with one worker, which takes a task; another
schedules one; a third prints a variable from `Visit` and logs. -/
def programs : List Path :=
  [Scheduler.start 0 none [Scheduler.take 0 []] none, Scheduler.schedule 0 none,
    Config.visit [ConfigVar.getValue 1, Line.log ⟨.named 1, ⟨true, []⟩, ⟨true, [⟨0, true, false⟩]⟩⟩]]

theorem programs_operations : ∀ p ∈ programs, Operations p := by
  intro p member
  simp only [programs, List.mem_cons, List.not_mem_nil, or_false] at member
  obtain rfl | rfl | rfl := member
  · refine .start 0 none none fun p member => ?_
    rw [List.mem_singleton.mp member]
    exact .take 0 []
  · exact .schedule 0 none
  · refine .visit fun cb member => ?_
    simp only [List.mem_cons, List.not_mem_nil, or_false] at member
    obtain rfl | rfl := member
    · exact .getValue 1
    · exact .log _

/-- The first is inside the constructor of its thread, with the mutex; the second
is at the mutex; the third is in an appender, under the registry, its logger and root. -/
def inConstructor : List Nat := [0, 0, 0, 0, 0, 0, 1, 2, 2, 2, 2, 2, 2, 2, 2, 2]

theorem no_deadlock_inConstructor :
    ∃ ths, exec step (programs.map Thread.start) inConstructor = some ths ∧
      WaitsFor ths 0 3 ∧ WaitsFor ths 1 0 ∧ ∀ t, ¬ Relation.TransGen (WaitsFor ths) t t := by
  have safe : ∀ ths, exec step (programs.map Thread.start) inConstructor = some ths →
      ∀ t, ¬ Relation.TransGen (WaitsFor ths) t t := fun ths run => (no_deadlock programs_operations run).1
  refine ⟨_, rfl, ?_, ?_, safe _ rfl⟩
  · exact ⟨_, _, rfl, rfl, .inr ⟨rfl, rfl⟩⟩
  · exact ⟨_, _, rfl, rfl, .inl ⟨.scheduler 0, .write, .skip, rfl, .write, by simp⟩⟩

end Atpdxy.Sync
