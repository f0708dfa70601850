import Atpdxy.Log.Listener

/-!
# Loggers removed from the configuration

The listener means to forbid a logger whose entry has gone: it gives it level 0 and
takes its appenders. Level 0 is the lowest, so every event passes, and without
appenders it goes to the root logger (`removed_log`). It stays so until the logger is
configured or called itself, whatever happens to the others.
-/

namespace Atpdxy.Log

open Run (Guarded)

variable {s t u : System} {new v : LogDefines} {name : Text} {level : Level}

/-- The calls of an appender's own interface. -/
inductive AppenderCall
  | setLevel (level : Level)
  | setFormatter (val : Option LogFormatter)

def Appender.call (a : Appender) : AppenderCall → Appender
  | .setLevel level => { a with level }
  | .setFormatter val => a.setFormatter val

/-- `Logger::delAppender`, which erases the first place of the appender. -/
def Logger.delAppender (l : Logger) (i : Nat) : Logger := { l with appenders := l.appenders.eraseIdx i }

/-- A call on an appender that is in the list at these places. -/
def Logger.callAppender (l : Logger) (places : Nat → Bool) (c : AppenderCall) : Logger :=
  { l with appenders := l.appenders.mapIdx fun i a => if places i then a.call c else a }

/-- Loggers may share the appender. -/
def LoggerManager.callAppender (m : LoggerManager) (places : Text → Nat → Bool) (c : AppenderCall) : LoggerManager where
  root := m.root.callAppender (places rootName) c
  loggers name := (m.loggers name).map fun l => l.callAppender (places name) c

/-- What can happen to the manager: an operation, or a call of a logger's or an appender's own interface. -/
inductive Act
  | op (op : Op)
  | call (name : Text) (c : LoggerCall)
  | delAppender (name : Text) (i : Nat)
  | callAppender (places : Text → Nat → Bool) (c : AppenderCall)

def System.act (s : System) : Act → Option System
  | .op op => s.step op
  | .call name c => some { s with manager := s.manager.call (name, c) }
  | .delAppender name i => some { s with manager := s.manager.set name ((s.manager.get name).delAppender i) }
  | .callAppender places c => some { s with manager := s.manager.callAppender places c }

/-- The logger is neither configured nor called. -/
def Act.leaves (name : Text) : Act → Bool
  | .op (.assign v) => (v.find name).isNone
  | .op (.getLogger _) => true
  | .call other _ | .delAppender other _ => other ≠ name
  | .callAppender _ _ => true

/-- No appender writes the event. -/
def System.Silent (s : System) (name : Text) (level : Level) : Prop := (s.manager.log name level).getD [] = []

/-- No appender of the logger lets the event pass, or the logger itself does not. -/
def Logger.Drops (l : Logger) (level : Level) : Prop := level < l.level ∨ ∀ a ∈ l.appenders, level < a.level

theorem Level.not_le {a b : Level} : ¬ a ≤ b ↔ b < a := Nat.not_le

/-- A logger as the removal leaves it. -/
structure System.Removed (s : System) (name : Text) : Prop where
  entry : s.val.find name = none
  level : (s.manager.get name).level = .unknow
  appenders : (s.manager.get name).appenders = []

theorem System.removed_setValue (was : s.val.find name ≠ none) (gone : new.find name = none)
    (assigned : s.setValue new = some t) : t.Removed name := by
  have calls : effect s.val new name = removeCalls := by
    simp [effect, gone, Option.isSome_iff_ne_none, was]
  have now := System.get_effect assigned name
  rw [calls, foldl_remove] at now
  exact ⟨by rw [System.val_setValue assigned, gone], by rw [now], by rw [now]⟩

/-- A logger that is not there yet has no appenders to call. -/
@[simp] theorem LoggerManager.get_callAppender (m : LoggerManager) (places : Text → Nat → Bool) (c : AppenderCall)
    (name : Text) : (m.callAppender places c).get name = (m.get name).callAppender (places name) c := by
  by_cases root : name = rootName
  · simp [LoggerManager.get, LoggerManager.callAppender, root]
  · cases found : m.loggers name with
    | none =>
      simp only [LoggerManager.get, LoggerManager.callAppender, root, found, if_false]
      rfl
    | some l => simp [LoggerManager.get, LoggerManager.callAppender, root, found]

/-- What leaves the logger alone leaves it removed. -/
theorem System.Removed.act {a : Act} (removed : s.Removed name) (leaves : a.leaves name = true)
    (acted : s.act a = some t) : t.Removed name := by
  cases a with
  | op op =>
    cases op with
    | assign v =>
      have unnamed : v.find name = none := by simpa [Act.leaves] using leaves
      have calls : effect s.val v name = [] := by simp [effect, unnamed, removed.entry]
      have now := System.get_effect acted name
      rw [calls, List.foldl_nil] at now
      exact ⟨by rw [System.val_setValue acted, unnamed], now ▸ removed.level, now ▸ removed.appenders⟩
    | getLogger other =>
      cases acted
      exact ⟨removed.entry, by simpa using removed.level, by simpa using removed.appenders⟩
  | call other c =>
    cases acted
    have apart : name ≠ other := Ne.symm (by simpa [Act.leaves] using leaves)
    have same : (s.manager.call (other, c)).get name = s.manager.get name := LoggerManager.get_set_ne apart
    exact ⟨removed.entry, same ▸ removed.level, same ▸ removed.appenders⟩
  | delAppender other i =>
    cases acted
    have apart : name ≠ other := Ne.symm (by simpa [Act.leaves] using leaves)
    have same : (s.manager.set other ((s.manager.get other).delAppender i)).get name = s.manager.get name :=
      LoggerManager.get_set_ne apart
    exact ⟨removed.entry, same ▸ removed.level, same ▸ removed.appenders⟩
  | callAppender places c =>
    cases acted
    refine ⟨removed.entry, ?_, ?_⟩
    · simpa [Logger.callAppender] using removed.level
    · simp [Logger.callAppender, removed.appenders]

/-- An event of a removed logger is an event of the root logger. -/
theorem System.Removed.log (removed : s.Removed name) (level : Level) :
    s.manager.log name level = s.manager.root.log none level := by
  have passes : Level.unknow ≤ level := Nat.zero_le _
  unfold LoggerManager.log
  split
  · rfl
  · rw [Logger.log, removed.level, if_pos passes, removed.appenders]
    rfl

theorem Logger.log_eq_nil {l : Logger} : (l.log none level).getD [] = [] ↔ l.Drops level := by
  unfold Logger.log Logger.Drops
  split
  · rename_i passes
    have reaches : ¬ level < l.level := fun less => Level.not_le.mpr less passes
    cases empty : l.appenders with
    | nil => simp
    | cons a appenders =>
      simp only [reaches, false_or, List.isEmpty_cons, Bool.false_eq_true, if_false, Option.getD_some,
        List.filter_eq_nil_iff, decide_eq_true_eq, Level.not_le]
  · rename_i drops
    simp [Level.not_le.mp drops]

/-- **A logger removed from the configuration is silent** exactly as far as the root logger
drops the event. -/
theorem removed_log {s t u : System} {new : LogDefines} {name : Text} {acts : List Act}
    (was : s.val.find name ≠ none) (gone : new.find name = none) (assigned : s.setValue new = some t)
    (run : Guarded System.act (fun _ a => a.leaves name) t acts u) (level : Level) :
    u.Silent name level ↔ u.manager.root.Drops level := by
  have removed : u.Removed name := by
    apply run.invariant (I := fun s => s.Removed name) (System.removed_setValue was gone assigned)
    intro _ s a t _ removed leaves acted
    exact removed.act leaves acted
  rw [System.Silent, removed.log, Logger.log_eq_nil]

/-- A value with one entry. -/
def oneEntry : LogDefines := LogDefines.empty.insert { name := ['a'] }

/-- The system once `oneEntry` is assigned. -/
def System.withEntry : System := ⟨(listenerCalls .empty oneEntry).foldl .call .new, oneEntry⟩

/-- The system once the entry has gone. -/
def System.withoutEntry : System := ⟨(listenerCalls oneEntry .empty).foldl .call System.withEntry.manager, .empty⟩

/-- With the root logger set to WARN. -/
theorem removed_log_warn :
    ∃ u, System.withoutEntry.act (.call rootName (.setLevel .warn)) = some u ∧ u.Silent ['a'] .info := by
  refine ⟨_, rfl, ?_⟩
  refine (@removed_log System.withEntry System.withoutEntry _ .empty ['a'] [.call rootName (.setLevel .warn)]
    (by decide) (by decide) rfl (.single (by decide) rfl) .info).mpr ?_
  exact .inl (by decide)

/-- An event of a removed logger that the root logger writes. -/
theorem not_removed_silent : ¬ ∀ (s t : System) (new : LogDefines) (name : Text) (level : Level),
    s.val.find name ≠ none → new.find name = none → s.setValue new = some t → t.Silent name level := by
  intro all
  have silent := all System.withEntry System.withoutEntry .empty ['a'] .info (by decide) rfl rfl
  exact absurd silent (by unfold System.Silent; decide +kernel)

end Atpdxy.Log
