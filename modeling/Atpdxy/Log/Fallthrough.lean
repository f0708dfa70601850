import Atpdxy.Log.Listener
import Mathlib.Data.List.Chain

/-!
# When logging falls through a missing root

A logger without appenders logs through `m_root`, which is null in the root
logger. So events are safe as long as the root logger has an appender, and the
listener empties its list in two places: for an entry without appenders, and for
an entry that has gone. `never_falls` says for which sequences of values that
does not happen.
-/

namespace Atpdxy.Log

variable {s t : System} {v : LogDefines} {ops : List Op}

/-- No event of any logger goes through a null pointer. -/
def System.Safe (s : System) : Prop := ∀ name level, s.manager.log name level ≠ none

/-- No operation goes through a null pointer, and no event logged before, between or
after them does. -/
def System.NeverFalls (s : System) : List Op → Prop
  | [] => s.Safe
  | op :: ops => s.Safe ∧ ∃ t, s.step op = some t ∧ t.NeverFalls ops

/-- The value an operation assigns. -/
def Op.value? : Op → Option LogDefines
  | .assign v => some v
  | .getLogger _ => none

/-- A new value that leaves the root logger an appender: it has an entry for it with
appenders, or it has none and neither had the old value. -/
def RootKept (old new : LogDefines) : Prop :=
  match new.find rootName with
  | some d => d.appenders ≠ []
  | none => old.find rootName = none

theorem System.safe_iff : s.Safe ↔ (s.manager.get rootName).appenders ≠ [] := by
  constructor
  · intro safe empty
    apply safe rootName .fatal
    have passes : (s.manager.get rootName).level ≤ Level.fatal := by
      cases (s.manager.get rootName).level <;> decide
    rw [LoggerManager.log_root, Logger.log, if_pos passes, empty]
    rfl
  · intro kept name level
    have root : s.manager.log rootName level ≠ none := by
      rw [LoggerManager.log_root, Logger.log]
      split <;> simp [kept]
    by_cases here : name = rootName
    · rw [here]
      exact root
    · rw [LoggerManager.log_eq, if_neg here, Logger.log]
      split
      · split
        · exact root
        · simp
      · simp

/-- The root logger has an appender, and so has its entry if there is one. -/
structure System.Kept (s : System) : Prop where
  follows : s.Follows
  appenders : (s.manager.get rootName).appenders ≠ []
  entry : ∀ d, s.val.find rootName = some d → d.appenders ≠ []

theorem System.start_kept : System.start.Kept where
  follows := System.start_follows
  appenders := by decide
  entry d found := by simp [System.start, LogDefines.empty, LogDefines.find] at found

/-- The assignment itself does not crash as long as events do not. -/
theorem System.setValue_isSome (safe : s.Safe) (v : LogDefines) : ∃ t, s.setValue v = some t := by
  rw [← Option.ne_none_iff_exists']
  exact fun none => safe _ _ (System.setValue_eq_none.mp none).2

/-- What one assignment needs, and what it gives. -/
theorem System.Kept.assign (kept : s.Kept) (assigned : s.setValue v = some t) :
    (t.Safe ↔ RootKept s.val v) ∧ (RootKept s.val v → t.Kept) := by
  have now := System.get_setValue kept.follows assigned rootName
  have safe : t.Safe ↔ RootKept s.val v := by
    rw [System.safe_iff, now, RootKept]
    cases v.find rootName with
    | some d => simp [Logger.configured]
    | none => cases s.val.find rootName <;> simp [kept.appenders]
  refine ⟨safe, fun rootKept => ⟨System.follows_setValue kept.follows assigned, ?_, ?_⟩⟩
  · exact System.safe_iff.mp (safe.mpr rootKept)
  · intro d found
    rw [System.val_setValue assigned] at found
    simpa [RootKept, found] using rootKept

theorem System.NeverFalls.safe (never : s.NeverFalls ops) : s.Safe := by
  cases ops with
  | nil => exact never
  | cons op ops => exact never.1

theorem System.Kept.getLogger (kept : s.Kept) (name : Text) :
    System.Kept { s with manager := s.manager.getLogger name } where
  follows other d found := by simpa using kept.follows other d found
  appenders := by simpa using kept.appenders
  entry := kept.entry

/-- From a state with the root logger kept, the values decide. -/
theorem System.Kept.neverFalls_iff (kept : s.Kept) (ops : List Op) :
    s.NeverFalls ops ↔ (s.val :: ops.filterMap Op.value?).IsChain RootKept := by
  have safe : s.Safe := System.safe_iff.mpr kept.appenders
  induction ops generalizing s with
  | nil => simpa [System.NeverFalls] using safe
  | cons op ops ih =>
    cases op with
    | getLogger name =>
      have kept := kept.getLogger name
      have rest := ih kept (System.safe_iff.mpr kept.appenders)
      simpa [System.NeverFalls, System.step, Op.value?, safe, List.filterMap_cons] using rest
    | assign v =>
      obtain ⟨t, assigned⟩ := System.setValue_isSome safe v
      obtain ⟨here, keep⟩ := kept.assign assigned
      have val := System.val_setValue assigned
      simp only [System.NeverFalls, System.step, assigned, Option.some.injEq, exists_eq_left', List.filterMap_cons,
        Op.value?, List.isChain_cons_cons, safe, true_and]
      constructor
      · intro never
        have rootKept := here.mp never.safe
        exact ⟨rootKept, val ▸ (ih (keep rootKept) never.safe).mp never⟩
      · rintro ⟨rootKept, rest⟩
        exact (ih (keep rootKept) (here.mpr rootKept)).mpr (val ▸ rest)

/-- **Logging never falls through a missing root** exactly when each value assigned
keeps the root logger an appender. -/
theorem never_falls (ops : List Op) :
    System.start.NeverFalls ops ↔ (LogDefines.empty :: ops.filterMap Op.value?).IsChain RootKept :=
  System.start_kept.neverFalls_iff ops

/-- An entry for the root logger without appenders, and then an event. -/
theorem not_never_falls : ¬ ∀ ops, System.start.NeverFalls ops := by
  intro all
  obtain ⟨-, t, ran, safe⟩ := all [.assign (LogDefines.empty.insert { name := rootName })]
  have falls : (System.start.run [.assign (LogDefines.empty.insert { name := rootName })]).map
      (fun t => t.manager.log rootName .fatal) = some none := by decide +kernel
  simp only [Run.exec, ran, Option.bind_some, Option.map_some, Option.some.injEq] at falls
  exact safe _ _ falls

end Atpdxy.Log
