import Atpdxy.Log.Logger

/-!
# What the listener of `logs` does

The calls the listener makes on the logger of one name (`effect`), the logger
they leave (`Logger.configured`), and what an assignment does to each logger
(`System.get_setValue`): in a run an entry that has not changed could as well be
applied again.
-/

namespace Atpdxy.Log

variable {m : LoggerManager} {name other : Text} {l : Logger} {d : LogDefine} {old new v : LogDefines}
  {s t : System}

/-! ## The calls on one logger -/

/-- A logger sees the calls on it. -/
theorem get_calls (calls : List (Text × LoggerCall)) (m : LoggerManager) (name : Text) :
    (calls.foldl LoggerManager.call m).get name =
      ((calls.filter fun c => c.1 = name).map Prod.snd).foldl Logger.call (m.get name) := by
  induction calls generalizing m with
  | nil => rfl
  | cons c calls ih =>
    rw [List.foldl_cons, ih]
    by_cases here : c.1 = name
    · subst here
      simp [LoggerManager.call]
    · rw [List.filter_cons_of_neg (by simpa using here), LoggerManager.call,
        LoggerManager.get_set_ne (Ne.symm here)]

/-- The calls the listener makes on the logger of a name. -/
def effect (old new : LogDefines) (name : Text) : List LoggerCall :=
  match new.find name with
  | some d => if old.find name = some d then [] else d.configure
  | none => if (old.find name).isSome then removeCalls else []

theorem LogDefines.find_name (found : old.find name = some d) : d.name = name := by
  simpa using List.find?_some found

/-- Of the calls of a loop over a set, a logger sees those for its own definition. -/
theorem filter_on (f : LogDefine → List LoggerCall) {defines : List LogDefine}
    (sorted : defines.Pairwise fun a b => a.name < b.name) (name : Text) :
    ((defines.flatMap fun i => on i.name (f i)).filter fun c => c.1 = name).map Prod.snd =
      ((defines.find? fun i => i.name = name).map f).getD [] := by
  have here : ∀ other calls, ((on other calls).filter fun c => c.1 = name).map Prod.snd =
      if other = name then calls else [] := by
    intro other calls
    by_cases same : other = name <;> simp [on, same, List.filter_map, Function.comp_def]
  induction defines with
  | nil => rfl
  | cons d defines ih =>
    obtain ⟨first, later⟩ := List.pairwise_cons.mp sorted
    rw [List.flatMap_cons, List.filter_append, List.map_append, here, ih later]
    by_cases same : d.name = name
    · -- the names behind are greater
      have none : defines.find? (fun i => i.name = name) = none := by
        rw [List.find?_eq_none]
        intro e member found
        have less := first e member
        rw [same, show e.name = name by simpa using found] at less
        exact lt_irrefl _ less
      simp [same, none]
    · simp [same]

/-- Of the calls of the listener, a logger sees its effect. -/
theorem listenerCalls_on (old new : LogDefines) (name : Text) :
    ((listenerCalls old new).filter fun c => c.1 = name).map Prod.snd = effect old new name := by
  rw [listenerCalls, List.filter_append, List.map_append, filter_on _ new.sorted, filter_on _ old.sorted]
  change ((new.find name).map fun i => if old.find i.name = some i then [] else i.configure).getD [] ++
      ((old.find name).map fun i => if new.find i.name = none then removeCalls else []).getD [] =
        effect old new name
  unfold effect
  cases found : new.find name with
  | none =>
    cases foundOld : old.find name with
    | none => rfl
    | some e => simp [old.find_name foundOld, found]
  | some d =>
    have last : ((old.find name).map fun i => if new.find i.name = none then removeCalls else []).getD [] = [] := by
      cases foundOld : old.find name with
      | none => rfl
      | some e => simp [old.find_name foundOld, found]
    rw [last]
    simp [new.find_name found]

theorem get_listener (old new : LogDefines) (m : LoggerManager) (name : Text) :
    ((listenerCalls old new).foldl LoggerManager.call m).get name =
      (effect old new name).foldl Logger.call (m.get name) := by
  rw [get_calls, listenerCalls_on]

/-! ## What the calls leave -/

/-- `addAppender` gives an appender without a formatter the logger's. -/
def Appender.attach (formatter : LogFormatter) (a : Appender) : Appender :=
  if a.formatter.isNone then { a with formatter := some formatter } else a

/-- The logger after the calls for a definition. -/
def Logger.configured (l : Logger) (d : LogDefine) : Logger :=
  let formatter := if valid d.formatter then .init d.formatter else l.formatter
  { l with level := d.level, formatter, appenders := d.appenders.map fun a => a.build.attach formatter }

theorem foldl_addAppender (l : Logger) (appenders : List Appender) :
    (appenders.map LoggerCall.addAppender).foldl Logger.call l =
      { l with appenders := l.appenders ++ appenders.map (Appender.attach l.formatter) } := by
  induction appenders generalizing l with
  | nil => simp
  | cons a appenders ih =>
    rw [List.map_cons, List.foldl_cons, ih]
    simp [Logger.call, Logger.addAppender, Appender.attach]

theorem foldl_configure (l : Logger) (d : LogDefine) : d.configure.foldl Logger.call l = l.configured d := by
  have set : (if d.formatter.isEmpty then [] else [LoggerCall.setFormatter d.formatter]).foldl Logger.call
      { l with level := d.level } = if valid d.formatter then
        ({ l with level := d.level } : Logger).setFormatterPtr (.init d.formatter) else { l with level := d.level } := by
    by_cases empty : d.formatter.isEmpty = true
    · simp [empty, valid]
    · simp only [empty, valid, Logger.call, Logger.setFormatter, List.foldl_cons, List.foldl_nil, Bool.not_false,
        Bool.true_and, Bool.false_eq_true, if_false]
      by_cases error : (LogFormatter.init d.formatter).isError = true <;> simp [error]
  have adds := fun l => foldl_addAppender l (d.appenders.map LogAppenderDefine.build)
  simp only [List.map_map, Function.comp_def] at adds
  rw [LogDefine.configure, List.foldl_append, List.foldl_append, List.foldl_append, adds, List.foldl_cons,
    List.foldl_nil, List.foldl_cons, List.foldl_nil, Logger.call, set]
  by_cases ok : valid d.formatter = true <;>
    simp [ok, Logger.call, Logger.setFormatterPtr, Logger.configured]

theorem foldl_remove (l : Logger) :
    removeCalls.foldl Logger.call l = { l with level := .unknow, appenders := [] } := rfl

/-- Calls for a definition a logger already follows change nothing. -/
theorem Logger.configured_configured (l : Logger) (d : LogDefine) : (l.configured d).configured d = l.configured d := by
  by_cases ok : valid d.formatter = true <;> simp [Logger.configured, ok]

/-! ## Assignments -/

/-- The loggers with an entry in the current value are as the entry says. -/
def System.Follows (s : System) : Prop :=
  ∀ name d, s.val.find name = some d → s.manager.get name = (s.manager.get name).configured d

theorem System.start_follows : System.start.Follows := fun name d found => by
  simp [System.start, LogDefines.empty, LogDefines.find] at found

/-- An assigned value is the current one. -/
theorem System.val_setValue (assigned : s.setValue v = some t) : t.val = v := by
  unfold System.setValue at assigned
  split at assigned
  · rename_i same
    cases assigned
    exact same.symm
  · obtain ⟨manager, -, rfl⟩ := Option.map_eq_some_iff.mp assigned
    rfl

/-- The assignment crashes in the listener's own log line or not at all. -/
theorem System.setValue_eq_none : s.setValue v = none ↔ v ≠ s.val ∧ s.manager.log rootName .info = none := by
  unfold System.setValue listener
  split <;> simp_all

theorem System.get_effect (assigned : s.setValue v = some t) (name : Text) :
    t.manager.get name = (effect s.val v name).foldl Logger.call (s.manager.get name) := by
  unfold System.setValue at assigned
  split at assigned
  · rename_i same
    cases assigned
    have nothing : effect s.val v name = [] := by
      unfold effect
      rw [same]
      cases s.val.find name <;> simp
    rw [nothing]
    rfl
  · obtain ⟨manager, called, rfl⟩ := Option.map_eq_some_iff.mp assigned
    obtain ⟨-, -, rfl⟩ := Option.map_eq_some_iff.mp called
    exact get_listener s.val v s.manager name

/-- **An assignment, logger by logger.** -/
theorem System.get_setValue (follows : s.Follows) (assigned : s.setValue v = some t) (name : Text) :
    t.manager.get name = match v.find name with
      | some d => (s.manager.get name).configured d
      | none => if (s.val.find name).isSome then { s.manager.get name with level := .unknow, appenders := [] }
        else s.manager.get name := by
  rw [System.get_effect assigned, effect]
  cases found : v.find name with
  | none => cases gone : (s.val.find name).isSome <;> simp [foldl_remove]
  | some d =>
    by_cases same : s.val.find name = some d
    · simpa [same] using follows name d same
    · simp [same, foldl_configure]

theorem System.follows_setValue (follows : s.Follows) (assigned : s.setValue v = some t) : t.Follows := by
  intro name d found
  rw [System.val_setValue assigned] at found
  have now := System.get_setValue follows assigned name
  simp only [found] at now
  rw [now, Logger.configured_configured]

end Atpdxy.Log
