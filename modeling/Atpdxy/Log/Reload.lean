import Atpdxy.Log.Listener

/-!
# Incremental reload against reload from scratch

The listener applies the difference of two values. An entry it applies replaces
the level and the appenders of its logger; the formatter only if the entry has a
valid one. So after a sequence of values a logger differs from what the last
value alone makes of it by the last valid pattern it was given (`lastPattern`),
and in nothing else (`reload_incremental`). The sequence is applied to its end
unless the listener's own line goes through a null pointer (`reloaded_isSome`).
-/

namespace Atpdxy.Log

variable {s t : System} {v old : LogDefines} {vs : List LogDefines} {name : Text} {named : Bool} {d : LogDefine}

/-- What is seen of a logger: its level, its pattern, and of each appender the kind
with its file, the level and the pattern it prints in. -/
structure View where
  level : Level
  pattern : Text
  appenders : List (AppenderKind × Level × Option Text)
  deriving DecidableEq

def Logger.view (l : Logger) : View where
  level := l.level
  pattern := l.formatter.getPattern
  appenders := l.appenders.map fun a => (a.kind, a.level, a.formatter.map LogFormatter.getPattern)

/-- A logger after the values were assigned one after the other to a fresh manager;
none if that crashed. -/
def reloaded (vs : List LogDefines) (name : Text) : Option View :=
  (System.start.run (vs.map .assign)).map fun s => (s.manager.get name).view

/-- The pattern of a logger after a value was assigned. -/
def patternAfter (name pattern : Text) (v : LogDefines) : Text :=
  match v.find name with
  | some d => if valid d.formatter then d.formatter else pattern
  | none => pattern

/-- The last valid pattern the values give a logger, else the one it is made with. -/
def lastPattern (vs : List LogDefines) (name : Text) : Text := vs.foldl (patternAfter name) defaultPattern

/-- The root logger is without appenders, at a level that lets the line of the listener
pass. `named` says whether an earlier value had an entry for it. -/
def rootless (named : Bool) (old : LogDefines) : Bool :=
  match old.find rootName with
  | some d => d.appenders.isEmpty && d.level ≤ .info
  | none => named

/-- No value is replaced that leaves the root logger so. -/
def applies (named : Bool) (old : LogDefines) : List LogDefines → Bool
  | [] => true
  | new :: rest =>
    (new = old || !rootless named old) && applies (named || (old.find rootName).isSome) new rest

/-! ## Which sequences are applied to their end -/

/-- How the root logger is after a sequence of values. -/
structure System.Applied (s : System) (named : Bool) : Prop where
  follows : s.Follows
  gone : s.val.find rootName = none → named = true →
    (s.manager.get rootName).level = .unknow ∧ (s.manager.get rootName).appenders = []
  never : s.val.find rootName = none → named = false → (s.manager.get rootName).appenders ≠ []

theorem System.start_applied : System.start.Applied false where
  follows := System.start_follows
  gone _ named := by cases named
  never _ _ := by decide

theorem System.Applied.line (applied : s.Applied named) :
    s.manager.log rootName .info = none ↔ rootless named s.val := by
  rw [LoggerManager.log_root, Logger.log, rootless]
  cases found : s.val.find rootName with
  | some d =>
    rw [applied.follows rootName d found]
    by_cases passes : d.level ≤ Level.info <;> simp [Logger.configured, passes]
  | none =>
    cases named with
    | true =>
      obtain ⟨level, empty⟩ := applied.gone found rfl
      simp [level, empty, show Level.unknow ≤ Level.info by decide]
    | false =>
      have kept := applied.never found rfl
      split <;> simp [kept]

theorem System.Applied.setValue (applied : s.Applied named) (assigned : s.setValue v = some t) :
    t.Applied (named || (s.val.find rootName).isSome) := by
  have now := System.get_setValue applied.follows assigned rootName
  have val := System.val_setValue assigned
  refine ⟨System.follows_setValue applied.follows assigned, ?_, ?_⟩
  · intro none flag
    rw [val] at none
    rw [now, none]
    cases was : s.val.find rootName with
    | some d => simp
    | none => simpa [was] using applied.gone was (by simpa [was] using flag)
  · intro none flag
    rw [val] at none
    obtain ⟨never, was⟩ := Bool.or_eq_false_iff.mp flag
    rw [now, none, was]
    exact applied.never (by simpa using was) never

/-- The sequence is applied to its end unless the listener's own line crashes. -/
theorem System.Applied.run (applied : s.Applied named) (vs : List LogDefines) :
    (s.run (vs.map .assign)).isSome = applies named s.val vs := by
  induction vs generalizing s named with
  | nil => rfl
  | cons v vs ih =>
    rw [List.map_cons, System.run, Run.exec, System.step, applies]
    cases assigned : s.setValue v with
    | none =>
      obtain ⟨differs, crash⟩ := System.setValue_eq_none.mp assigned
      simp [differs, applied.line.mp crash]
    | some t =>
      have passes : (v = s.val || !rootless named s.val) = true := by
        by_contra crash
        obtain ⟨differs, lost⟩ : v ≠ s.val ∧ rootless named s.val = true := by simpa using crash
        have stuck := System.setValue_eq_none.mpr ⟨differs, applied.line.mpr lost⟩
        rw [assigned] at stuck
        cases stuck
      have rest := ih (applied.setValue assigned)
      rw [System.val_setValue assigned] at rest
      simpa [passes] using rest

/-! ## What is left of the earlier values -/

theorem LogFormatter.getPattern_init (pattern : Text) : (LogFormatter.init pattern).getPattern = pattern := rfl

/-- What a definition makes of a logger with the pattern. -/
def LogDefine.view (d : LogDefine) (pattern : Text) : View where
  level := d.level
  pattern
  appenders := d.appenders.map fun a =>
    (a.build.kind, a.build.level, some (if valid a.formatter then a.formatter else pattern))

theorem Logger.view_configured (l : Logger) (d : LogDefine) :
    (l.configured d).view = d.view (if valid d.formatter then d.formatter else l.formatter.getPattern) := by
  have pattern : (l.configured d).formatter.getPattern =
      if valid d.formatter then d.formatter else l.formatter.getPattern := by
    simp only [Logger.configured]
    split <;> rfl
  have appender : ∀ (f : LogFormatter) (a : LogAppenderDefine),
      ((a.build.attach f).kind, (a.build.attach f).level, (a.build.attach f).formatter.map LogFormatter.getPattern) =
        (a.build.kind, a.build.level, some (if valid a.formatter then a.formatter else f.getPattern)) := by
    intro f a
    by_cases ok : valid a.formatter = true <;>
      simp [LogAppenderDefine.build, Appender.attach, Appender.setFormatter, ok, LogFormatter.getPattern_init]
  rw [← pattern]
  simp only [Logger.view, LogDefine.view, Logger.configured, List.map_map, Function.comp_def, appender]

theorem System.pattern_setValue (follows : s.Follows) (assigned : s.setValue v = some t) (name : Text) :
    (t.manager.get name).formatter.getPattern =
      patternAfter name (s.manager.get name).formatter.getPattern v := by
  rw [System.get_setValue follows assigned, patternAfter]
  cases v.find name with
  | some d =>
    simp only [Logger.configured]
    split <;> rfl
  | none => cases (s.val.find name).isSome <;> rfl

theorem System.run_follows (follows : s.Follows) (ran : s.run (vs.map .assign) = some t) (name : Text) :
    t.Follows ∧ t.val = (s.val :: vs).getLast (by simp) ∧
      (t.manager.get name).formatter.getPattern =
        vs.foldl (patternAfter name) (s.manager.get name).formatter.getPattern := by
  induction vs generalizing s with
  | nil =>
    cases ran
    exact ⟨follows, rfl, rfl⟩
  | cons v vs ih =>
    obtain ⟨u, assigned, rest⟩ := Option.bind_eq_some_iff.mp ran
    obtain ⟨settled, val, pattern⟩ := ih (System.follows_setValue follows assigned) rest
    rw [System.val_setValue assigned] at val
    refine ⟨settled, val, ?_⟩
    rw [pattern, System.pattern_setValue follows assigned]
    rfl

theorem reloaded_isSome (vs : List LogDefines) (name : Text) :
    (reloaded vs name).isSome = applies false .empty vs := by
  rw [reloaded, Option.isSome_map]
  exact System.start_applied.run vs

/-- A logger with an entry in the last value: that entry and the last valid pattern. -/
theorem reloaded_eq (found : v.find name = some d) (ends : applies false .empty (vs ++ [v])) :
    reloaded (vs ++ [v]) name =
      some (d.view (if valid d.formatter then d.formatter else lastPattern vs name)) := by
  obtain ⟨t, ran⟩ := Option.isSome_iff_exists.mp ((System.start_applied.run (vs ++ [v])).trans ends)
  obtain ⟨follows, val, pattern⟩ := System.run_follows System.start_follows ran name
  have current : t.val.find name = some d := by simpa [val] using found
  have fresh : (System.start.manager.get name).formatter.getPattern = defaultPattern := by
    by_cases root : name = rootName <;> simp [System.start, LoggerManager.new, LoggerManager.get, root] <;> rfl
  rw [reloaded, ran, Option.map_some, follows name d current, Logger.view_configured, pattern, fresh,
    List.foldl_append, lastPattern, List.foldl_cons, List.foldl_nil, patternAfter, found]
  by_cases ok : valid d.formatter = true <;> simp [ok]

/-- **Incremental reload against reload from scratch.** A sequence applied to its end leaves
a logger with an entry in the last value the level and the appenders of the entry, and
the entry's pattern if it is valid, else the last valid one the logger was given. That
is what the last value alone gives exactly if the two patterns are the same. -/
theorem reload_incremental (vs : List LogDefines) (v : LogDefines) (name : Text) (d : LogDefine)
    (found : v.find name = some d) (ends : applies false .empty (vs ++ [v])) :
    reloaded (vs ++ [v]) name =
        some (d.view (if valid d.formatter then d.formatter else lastPattern vs name)) ∧
      (reloaded (vs ++ [v]) name = reloaded [v] name ↔
        valid d.formatter ∨ lastPattern vs name = defaultPattern) := by
  have alone : applies false .empty ([] ++ [v]) = true := by
    simp [applies, rootless, LogDefines.find, LogDefines.empty]
  have scratch : reloaded [v] name =
      some (d.view (if valid d.formatter then d.formatter else defaultPattern)) := reloaded_eq found alone
  have after := reloaded_eq found ends
  refine ⟨after, ?_⟩
  rw [after, scratch, Option.some.injEq]
  constructor
  · intro same
    have patterns := congrArg View.pattern same
    by_cases ok : valid d.formatter = true
    · exact .inl ok
    · exact .inr (by simpa [LogDefine.view, ok] using patterns)
  · rintro (given | left)
    · rw [if_pos given, if_pos given]
    · rw [left]

/-- A logger that keeps the default pattern through an edit of its level. -/
theorem reload_incremental_edit :
    let edited := LogDefines.empty.insert { name := ['a'], level := .warn }
    reloaded [LogDefines.empty.insert { name := ['a'], level := .info }, edited] ['a'] = reloaded [edited] ['a'] :=
  (reload_incremental [LogDefines.empty.insert { name := ['a'], level := .info }]
    (LogDefines.empty.insert { name := ['a'], level := .warn }) ['a'] { name := ['a'], level := .warn }
    (by decide) (by decide)).2.mpr (.inr (by decide))

/-- An entry with a pattern, and then the entry without. -/
theorem not_reloaded_eq : ¬ ∀ vs v name d, LogDefines.find v name = some d →
    reloaded (vs ++ [v]) name = reloaded [v] name := by
  intro all
  have same := all [LogDefines.empty.insert { name := ['a'], formatter := "%m".toList }]
    (LogDefines.empty.insert { name := ['a'] }) ['a'] { name := ['a'] } (by decide)
  exact absurd same (by decide +kernel)

end Atpdxy.Log
