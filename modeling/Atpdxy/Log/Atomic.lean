import Atpdxy.Log.Race

/-!
# How far a reload is atomic for other threads

A log call reads a level and a list, of its logger and, without appenders, of the
root logger. Each level is the old or the new one at any time (`level_settled`). A
list is the old one until `clearAppenders` and the new one from the last call on. A
call all of whose reads are on one side is written as under that side's complete
configuration (`reload_atomic`). Nothing keeps a call from reading on both, or from
reading a list in between (`gap`).
-/

namespace Atpdxy.Log.Race

open Run (Guarded)

variable {old new : LogDefines} {m : LoggerManager} {s s' : State} {side : Side} {name here : Text}

/-- The complete configuration of a side. -/
def Side.manager (old new : LogDefines) (m : LoggerManager) : Side → LoggerManager
  | .old => m
  | .new => (listenerCalls old new).foldl .call m

/-- An appender up to the format it prints in. -/
def bare (a : Appender) : Appender := { a with formatter := none }

/-- The appenders that write the event are those of the complete configuration. -/
def Call.reaches (c : Call) (m : LoggerManager) (written : Option (List Appender)) : Bool :=
  written.map (List.map bare) = (m.log c.name c.level).map (List.map bare)

/-- A call that has returned was written as under the configuration, and none has followed
an iterator into a cleared list. -/
def Thread.under (m : LoggerManager) (th : Thread) : Bool :=
  match th.phase with
  | .entered _ | .passed _ | .visiting _ _ _ => true
  | .done written => th.call.reaches m written
  | .broken => false

/-- The same under the complete old configuration or under the complete new one. -/
def Thread.atomic (old new : LogDefines) (m : LoggerManager) (th : Thread) : Bool :=
  [Side.old, .new].any fun side => th.under (side.manager old new m)

/-! ## What the listener has done to a logger -/

/-- Each logger is as the calls made on it leave it. -/
def State.Progress (old new : LogDefines) (m : LoggerManager) (s : State) : Prop :=
  ∀ name, ∃ made, effect old new name = made ++ s.left name ∧
    s.manager.get name = made.foldl Logger.call (m.get name)

theorem State.progress_start : (State.start old new m).Progress old new m := by
  intro name
  refine ⟨[], ?_, rfl⟩
  rw [List.nil_append]
  exact (listenerCalls_on old new name).symm

theorem State.Progress.listener (progress : s.Progress old new m) (stepped : s.listener = some s') :
    s'.Progress old new m := by
  intro name
  obtain ⟨made, calls, now⟩ := progress name
  unfold State.listener at stepped
  split at stepped
  · cases stepped
  · rename_i c todo ahead
    split at stepped
    · cases stepped
    · cases stepped
      by_cases here : c.1 = name
      · subst here
        refine ⟨made ++ [c.2], ?_, ?_⟩
        · simpa [State.left, ahead] using calls
        · simp [LoggerManager.call, now]
      · refine ⟨made, ?_, ?_⟩
        · simpa [State.left, ahead, here] using calls
        · rw [← now]
          exact LoggerManager.get_set_ne (Ne.symm here)

/-- The calls on one logger: none, or its level, a formatter, its list cleared, its
appenders. -/
theorem effect_shape (old new : LogDefines) (name : Text) :
    effect old new name = [] ∨ ∃ level formatters adds,
      effect old new name = .setLevel level :: (formatters ++ .clearAppenders :: adds) ∧
        (∀ c ∈ formatters, ∃ val, c = .setFormatter val) ∧ ∀ c ∈ adds, ∃ a, c = .addAppender a := by
  have removal : removeCalls = .setLevel .unknow :: ([] ++ .clearAppenders :: []) := rfl
  unfold effect
  split
  · rename_i d _
    split
    · exact .inl rfl
    · refine .inr ⟨d.level, if d.formatter.isEmpty then [] else [.setFormatter d.formatter],
        d.appenders.map fun a => .addAppender a.build, ?_, ?_, ?_⟩
      · simp [LogDefine.configure]
      · intro c member
        split at member
        · cases member
        · exact ⟨_, List.mem_singleton.mp member⟩
      · intro c member
        obtain ⟨a, -, rfl⟩ := List.mem_map.mp member
        exact ⟨_, rfl⟩
  · split
    · exact .inr ⟨.unknow, [], [], removal, by simp, by simp⟩
    · exact .inl rfl

/-- Calls that set no other level keep the level. -/
theorem foldl_level {calls : List LoggerCall} {l : Logger} (same : ∀ level, .setLevel level ∈ calls → level = l.level) :
    (calls.foldl Logger.call l).level = l.level := by
  induction calls generalizing l with
  | nil => rfl
  | cons c calls ih =>
    have first : (l.call c).level = l.level := by
      cases c with
      | setLevel level => exact same level List.mem_cons_self
      | setFormatter val =>
        simp only [Logger.call, Logger.setFormatter]
        split <;> rfl
      | clearAppenders => rfl
      | addAppender a => rfl
    rw [List.foldl_cons, ih, first]
    intro level member
    rw [first, same level (List.mem_cons_of_mem c member)]

/-- An empty list stays empty until an appender is added. -/
theorem foldl_empty {calls : List LoggerCall} {l : Logger} (empty : l.appenders = [])
    (none : calls.filter isAddAppender = []) : (calls.foldl Logger.call l).appenders = [] := by
  induction calls generalizing l with
  | nil => exact empty
  | cons c calls ih =>
    have others := List.filter_eq_nil_iff.mp none
    refine ih ?_ (List.filter_eq_nil_iff.mpr fun c member => others c (List.mem_cons_of_mem _ member))
    cases c with
    | setLevel level => exact empty
    | setFormatter val =>
      simp only [Logger.call, Logger.setFormatter]
      split
      · exact empty
      · simp [Logger.setFormatterPtr, empty]
    | clearAppenders => rfl
    | addAppender a => exact absurd rfl (others _ List.mem_cons_self)

/-- `setLevel` and `setFormatter` keep the appenders up to their formats. -/
theorem foldl_appenders {calls : List LoggerCall}
    (others : ∀ c ∈ calls, (∃ level, c = .setLevel level) ∨ ∃ val, c = .setFormatter val) (l : Logger) :
    (calls.foldl Logger.call l).appenders.map bare = l.appenders.map bare := by
  induction calls generalizing l with
  | nil => rfl
  | cons c calls ih =>
    obtain ⟨other, rest⟩ := List.forall_mem_cons.mp others
    rw [List.foldl_cons, ih rest]
    rcases other with ⟨level, rfl⟩ | ⟨val, rfl⟩
    · rfl
    · simp only [Logger.call, Logger.setFormatter]
      split
      · rfl
      · simp only [Logger.setFormatterPtr, List.map_map]
        refine List.map_congr_left fun a _ => ?_
        by_cases own : a.hasFormatter = true <;> simp [bare, own]

theorem Side.get_new (old new : LogDefines) (m : LoggerManager) (name : Text) :
    (Side.new.manager old new m).get name = (effect old new name).foldl Logger.call (m.get name) :=
  get_listener old new m name

/-- After all calls a logger is as in the new configuration. -/
theorem State.Progress.finished (progress : s.Progress old new m) (none : s.left name = []) :
    s.manager.get name = (Side.new.manager old new m).get name := by
  obtain ⟨made, calls, now⟩ := progress name
  rw [none, List.append_nil] at calls
  rw [now, Side.get_new, calls]

theorem State.Progress.unstarted (progress : s.Progress old new m) (all : s.left name = effect old new name) :
    s.manager.get name = m.get name := by
  obtain ⟨made, calls, now⟩ := progress name
  rw [all] at calls
  rw [now, List.self_eq_append_left.mp calls]
  rfl

/-- The listener sets a level once. -/
theorem setLevel_once {a b : Level} (first : .setLevel a ∈ effect old new name)
    (second : .setLevel b ∈ effect old new name) : a = b := by
  rcases effect_shape old new name with nothing | ⟨level, formatters, adds, shape, formatter, add⟩
  · rw [nothing] at first
    cases first
  · have only : ∀ c, .setLevel c ∈ effect old new name → c = level := by
      intro c member
      rw [shape] at member
      rcases List.mem_cons.mp member with head | member
      · exact LoggerCall.setLevel.inj head
      · rcases List.mem_append.mp member with member | member
        · obtain ⟨val, wrong⟩ := formatter _ member
          cases wrong
        · rcases List.mem_cons.mp member with wrong | member
          · cases wrong
          · obtain ⟨val, wrong⟩ := add _ member
            cases wrong
    rw [only a first, only b second]

/-- A level read on a side is the level of the side. -/
theorem State.Progress.level (progress : s.Progress old new m)
    (on : levelOn (m.get name).level (effect old new name) (s.left name) side = true) :
    (s.manager.get name).level = ((side.manager old new m).get name).level := by
  obtain ⟨made, calls, now⟩ := progress name
  by_cases same : .setLevel (m.get name).level ∈ effect old new name
  · -- the level never changes
    have keeps : ∀ level, .setLevel level ∈ effect old new name → level = (m.get name).level :=
      fun level member => setLevel_once member same
    have current : (s.manager.get name).level = (m.get name).level := by
      rw [now]
      exact foldl_level fun level member => keeps level (by rw [calls]; exact List.mem_append_left _ member)
    cases side with
    | old => exact current
    | new => rw [current, Side.get_new, foldl_level keeps]
  · cases side with
    | old => rw [progress.unstarted (by simpa [levelOn, same] using on)]; rfl
    | new =>
      have set : ∀ level, .setLevel level ∈ s.left name → level = (s.manager.get name).level := by
        intro level member
        have none : (s.left name).filter isSetLevel = [] := by simpa [levelOn, same] using on
        exact absurd rfl (List.filter_eq_nil_iff.mp none _ member)
      calc (s.manager.get name).level = ((s.left name).foldl Logger.call (s.manager.get name)).level :=
            (foldl_level set).symm
        _ = ((Side.new.manager old new m).get name).level := by rw [Side.get_new, now, calls, List.foldl_append]

/-- The calls made before `clearAppenders`. -/
theorem made_before_clear {made left : List LoggerCall} (calls : effect old new name = made ++ left)
    (ahead : .clearAppenders ∈ left) : ∀ c ∈ made, (∃ level, c = .setLevel level) ∨ ∃ val, c = .setFormatter val := by
  rcases effect_shape old new name with nothing | ⟨level, formatters, adds, shape, formatter, add⟩
  · rw [nothing] at calls
    rw [(List.append_eq_nil_iff.mp calls.symm).2] at ahead
    cases ahead
  · have first : ∀ c ∈ .setLevel level :: formatters, (∃ level, c = .setLevel level) ∨ ∃ val, c = .setFormatter val := by
      intro c member
      rcases List.mem_cons.mp member with rfl | member
      · exact .inl ⟨_, rfl⟩
      · exact .inr (formatter c member)
    rw [shape, ← List.cons_append] at calls
    rcases List.append_eq_append_iff.mp calls with ⟨more, rfl, behind⟩ | ⟨more, before, behind⟩
    · -- the clearing is the first of what is behind, so nothing more was made
      cases more with
      | nil => simpa using first
      | cons c more =>
        rw [List.cons_append] at behind
        obtain ⟨-, rfl⟩ := List.cons.inj behind
        obtain ⟨a, clear⟩ := add _ (List.mem_append_right more ahead)
        cases clear
    · intro c member
      exact first c (by rw [before]; exact List.mem_append_left more member)

/-- A list read on a side is the list of the side. -/
theorem State.Progress.appenders (progress : s.Progress old new m)
    (on : listOn (m.get name).appenders (effect old new name) (s.left name) side = true) :
    (s.manager.get name).appenders.map bare = ((side.manager old new m).get name).appenders.map bare := by
  obtain ⟨made, calls, now⟩ := progress name
  cases side with
  | old =>
    simp only [listOn, Bool.or_eq_true, Bool.and_eq_true, decide_eq_true_eq, List.isEmpty_iff] at on
    rcases on with (all | ahead) | ⟨empty, none⟩
    · rw [progress.unstarted all]
      rfl
    · rw [now]
      exact foldl_appenders (made_before_clear calls ahead) (m.get name)
    · rw [calls, List.filter_append] at none
      rw [now, foldl_empty empty (List.self_eq_append_left.mp none)]
      exact congrArg (List.map bare) empty.symm
  | new =>
    simp only [listOn, Bool.or_eq_true, Bool.and_eq_true, decide_eq_true_eq, List.isEmpty_iff] at on
    rcases on with finished | ⟨empty, none⟩
    · rw [progress.finished finished]
    · rw [Side.get_new, foldl_empty empty none, now, foldl_empty empty]
      rw [calls, List.filter_append] at none
      exact (List.append_eq_nil_iff.mp none).1

/-- A side left after the read of a level. -/
theorem State.Progress.read_level {sides : List Side} (progress : s.Progress old new m)
    (member : side ∈ sides.filter (levelOn (m.get here).level (effect old new here) (s.left here))) :
    side ∈ sides ∧ (s.manager.get here).level = ((side.manager old new m).get here).level := by
  obtain ⟨member, on⟩ := List.mem_filter.mp member
  exact ⟨member, progress.level on⟩

/-- At any time the level of a logger is that of a side. -/
theorem State.Progress.level_settled (progress : s.Progress old new m) (name : Text) :
    ∃ side, levelOn (m.get name).level (effect old new name) (s.left name) side = true := by
  obtain ⟨made, calls, -⟩ := progress name
  rcases effect_shape old new name with nothing | ⟨level, formatters, adds, shape, formatter, add⟩
  · rw [nothing] at calls
    exact ⟨.old, by simp [levelOn, nothing, (List.append_eq_nil_iff.mp calls.symm).2]⟩
  · cases made with
    | nil => exact ⟨.old, by simp [levelOn, calls]⟩
    | cons c made =>
      -- `setLevel` is the first call, so it has been made
      rw [shape, List.cons_append] at calls
      obtain ⟨-, behind⟩ := List.cons.inj calls
      have others : (s.left name).filter isSetLevel = [] := by
        rw [List.filter_eq_nil_iff]
        intro c member
        have later : c ∈ formatters ++ .clearAppenders :: adds := by
          rw [behind]
          exact List.mem_append_right made member
        rcases List.mem_append.mp later with member | member
        · obtain ⟨val, rfl⟩ := formatter c member
          simp [isSetLevel]
        · rcases List.mem_cons.mp member with rfl | member
          · simp [isSetLevel]
          · obtain ⟨a, rfl⟩ := add c member
            simp [isSetLevel]
      exact ⟨.new, by simp [levelOn, others]⟩

/-- A side left after the read of a list. -/
theorem State.Progress.read_list {sides : List Side} (progress : s.Progress old new m)
    (member : side ∈ sides.filter (listOn (m.get here).appenders (effect old new here) (s.left here))) :
    side ∈ sides ∧
      (s.manager.get here).appenders.map bare = ((side.manager old new m).get here).appenders.map bare := by
  obtain ⟨member, on⟩ := List.mem_filter.mp member
  exact ⟨member, progress.appenders on⟩

/-! ## What a call has read -/

/-- How far a call has come is how far it comes in the complete configuration. -/
def Thread.Follows (m : LoggerManager) (th : Thread) : Prop :=
  match th.phase with
  | .entered here => m.log th.call.name th.call.level = m.log here th.call.level
  | .passed here =>
    m.log th.call.name th.call.level = m.log here th.call.level ∧ (m.get here).level ≤ th.call.level
  | .visiting here n written =>
    m.log th.call.name th.call.level = m.log here th.call.level ∧ (m.get here).level ≤ th.call.level ∧
      (m.get here).appenders ≠ [] ∧
        written.map bare =
          (((m.get here).appenders.take n).filter fun a => a.level ≤ th.call.level).map bare
  | .done written => th.call.reaches m written = true
  | .broken => False

/-- An event that is below the level of a logger is dropped there. -/
theorem log_drop {level : Level} (drops : ¬ (m.get here).level ≤ level) : m.log here level = some [] := by
  rw [m.log_eq, Logger.log, if_neg drops]

/-- Without appenders it goes on in the root logger, and from there through null. -/
theorem log_empty {level : Level} (passes : (m.get here).level ≤ level) (empty : (m.get here).appenders = []) :
    m.log here level = if here = rootName then none else m.log rootName level := by
  rw [m.log_eq, Logger.log, if_pos passes, empty]
  rfl

theorem log_list {level : Level} (passes : (m.get here).level ≤ level) (some : (m.get here).appenders ≠ []) :
    m.log here level = .some ((m.get here).appenders.filter fun a => a.level ≤ level) := by
  rw [m.log_eq, Logger.log, if_pos passes, if_neg (by simpa using some)]

theorem empty_iff {as bs : List Appender} (same : as.map bare = bs.map bare) : as = [] ↔ bs = [] := by
  rw [← List.map_eq_nil_iff (f := bare), same, List.map_eq_nil_iff]

/-- A visit adds to what is written what it adds in a list that is the same up to formats. -/
theorem take_visit {as bs : List Appender} {n : Nat} {a : Appender} {level : Level}
    (same : as.map bare = bs.map bare) (found : as[n]? = some a) :
    ((bs.take (n + 1)).filter fun a => a.level ≤ level).map bare =
      ((bs.take n).filter fun a => a.level ≤ level).map bare ++ if a.level ≤ level then [bare a] else [] := by
  have there : (bs[n]?).map bare = some (bare a) := by
    rw [← List.getElem?_map, ← same, List.getElem?_map, found]
    rfl
  obtain ⟨b, foundB, sameB⟩ := Option.map_eq_some_iff.mp there
  have levels : b.level = a.level := show (bare b).level = (bare a).level by rw [sameB]
  rw [List.take_add_one, foundB, List.filter_append, List.map_append, Option.toList_some]
  by_cases passes : a.level ≤ level <;> simp [levels, passes, sameB]

theorem take_end {as bs : List Appender} {n : Nat} (same : as.map bare = bs.map bare) (past : as[n]? = none) :
    bs.take n = bs := by
  have lengths : as.length = bs.length := by simpa using congrArg List.length same
  exact List.take_of_length_le (lengths ▸ List.getElem?_eq_none_iff.mp past)

section

variable {t : Nat} {call : Call} {n : Nat} {written : List Appender} {M : LoggerManager}

/-- The comparison with the level. -/
theorem Thread.Follows.enter (follows : Thread.Follows M ⟨call, .entered here⟩) (sides : List Side)
    (same : (s.manager.get here).level = (M.get here).level) :
    ((s.manager.get here).level ≤ call.level → Thread.Follows M ⟨{ call with sides }, .passed here⟩) ∧
      (¬ (s.manager.get here).level ≤ call.level →
        Thread.Follows M ⟨{ call with sides }, .done (some [])⟩) := by
  refine ⟨fun passes => ⟨follows, same ▸ passes⟩, fun drops => ?_⟩
  have goes : M.log call.name call.level = M.log here call.level := follows
  simp [Thread.Follows, Call.reaches, goes, log_drop (same ▸ drops)]

/-- The test of the list. -/
theorem Thread.Follows.test (follows : Thread.Follows M ⟨call, .passed here⟩) (sides : List Side)
    (same : (s.manager.get here).appenders.map bare = (M.get here).appenders.map bare) :
    ((s.manager.get here).appenders = [] → here = rootName →
      Thread.Follows M ⟨{ call with sides }, .done none⟩) ∧
    ((s.manager.get here).appenders = [] → here ≠ rootName →
      Thread.Follows M ⟨{ call with sides }, .entered rootName⟩) ∧
    ((s.manager.get here).appenders ≠ [] → Thread.Follows M ⟨{ call with sides }, .visiting here 0 []⟩) := by
  obtain ⟨goes, passes⟩ := follows
  refine ⟨fun empty root => ?_, fun empty apart => ?_, fun filled => ?_⟩
  · have on := log_empty passes ((empty_iff same).mp empty)
    rw [if_pos root] at on
    simp [Thread.Follows, Call.reaches, goes.trans on]
  · have on := log_empty passes ((empty_iff same).mp empty)
    exact goes.trans (on.trans (if_neg apart))
  · exact ⟨goes, passes, fun empty => filled ((empty_iff same).mpr empty), rfl⟩

/-- A visit, or the end of the list. -/
theorem Thread.Follows.visit (follows : Thread.Follows M ⟨call, .visiting here n written⟩) (sides : List Side)
    (same : (s.manager.get here).appenders.map bare = (M.get here).appenders.map bare) :
    (s.manager.get here).appenders ≠ [] ∧
    (∀ a, (s.manager.get here).appenders[n]? = some a → Thread.Follows M ⟨{ call with sides },
      .visiting here (n + 1) (if a.level ≤ call.level then written ++ [a] else written)⟩) ∧
    ((s.manager.get here).appenders[n]? = none → Thread.Follows M ⟨{ call with sides }, .done (some written)⟩) := by
  obtain ⟨goes, passes, filled, sofar⟩ := follows
  refine ⟨fun empty => filled ((empty_iff same).mp empty), fun a found => ⟨goes, passes, filled, ?_⟩, fun past => ?_⟩
  · rw [take_visit same found, ← sofar]
    split <;> simp
  · rw [take_end same past] at sofar
    simp [Thread.Follows, Call.reaches, goes, log_list passes filled, sofar]

end

/-- A thread that moves leaves the loggers and the other threads alone, and goes on as in every
configuration it has read. -/
theorem State.Progress.thread {t : Nat} {th : Thread} (progress : s.Progress old new m) (at_t : s.threads t = some th)
    (follows : ∀ side ∈ th.call.sides, th.Follows (side.manager old new m))
    (stepped : s.thread old new m t = some s') :
    s'.manager = s.manager ∧ s'.todo = s.todo ∧ ∃ th', s'.threads = Function.update s.threads t (some th') ∧
      ∀ side ∈ th'.call.sides, th'.Follows (side.manager old new m) := by
  obtain ⟨call, phase⟩ := th
  simp only [State.thread, at_t] at stepped
  cases phase with
  | entered here =>
    dsimp only at stepped
    split at stepped
    · rename_i passes
      cases stepped
      refine ⟨rfl, rfl, _, rfl, fun side member => ?_⟩
      obtain ⟨member, same⟩ := progress.read_level member
      exact ((follows side member).enter _ same).1 passes
    · rename_i drops
      cases stepped
      refine ⟨rfl, rfl, _, rfl, fun side member => ?_⟩
      obtain ⟨member, same⟩ := progress.read_level member
      exact ((follows side member).enter _ same).2 drops
  | passed here =>
    dsimp only at stepped
    split at stepped
    · cases stepped
    · split at stepped
      · rename_i empty
        rw [List.isEmpty_iff] at empty
        split at stepped
        · rename_i root
          cases stepped
          refine ⟨rfl, rfl, _, rfl, fun side member => ?_⟩
          obtain ⟨member, same⟩ := progress.read_list member
          exact ((follows side member).test _ same).1 empty root
        · rename_i root
          cases stepped
          refine ⟨rfl, rfl, _, rfl, fun side member => ?_⟩
          obtain ⟨member, same⟩ := progress.read_list member
          exact ((follows side member).test _ same).2.1 empty root
      · rename_i filled
        cases stepped
        refine ⟨rfl, rfl, _, rfl, fun side member => ?_⟩
        obtain ⟨member, same⟩ := progress.read_list member
        exact ((follows side member).test _ same).2.2 (by simpa using filled)
  | visiting here n written =>
    dsimp only at stepped
    split at stepped
    · rename_i empty
      cases stepped
      refine ⟨rfl, rfl, _, rfl, fun side member => ?_⟩
      obtain ⟨member, same⟩ := progress.read_list member
      exact ((follows side member).visit [] same).1 (by simpa using empty)
    · split at stepped
      · rename_i a found
        cases stepped
        refine ⟨rfl, rfl, _, rfl, fun side member => ?_⟩
        obtain ⟨member, same⟩ := progress.read_list member
        exact ((follows side member).visit _ same).2.1 a found
      · rename_i past
        cases stepped
        refine ⟨rfl, rfl, _, rfl, fun side member => ?_⟩
        obtain ⟨member, same⟩ := progress.read_list member
        exact ((follows side member).visit _ same).2.2 past
  | done written => cases stepped
  | broken => cases stepped

/-! ## Runs -/

/-- What a run keeps: the loggers are as the calls made leave them, and each call has
come as far as in every configuration it has read. -/
structure State.Inv (old new : LogDefines) (m : LoggerManager) (s : State) : Prop where
  progress : s.Progress old new m
  follows : ∀ t th, s.threads t = some th → ∀ side ∈ th.call.sides, th.Follows (side.manager old new m)

theorem State.inv_start : (State.start old new m).Inv old new m where
  progress := State.progress_start
  follows t th found := by cases found

/-- What holds of every thread holds after another entry for one of them. -/
theorem threads_update {P : Thread → Prop} {t : Nat} {th : Thread} (all : ∀ u uh, s.threads u = some uh → P uh)
    (threads : s'.threads = Function.update s.threads t (some th)) (fresh : P th) :
    ∀ u uh, s'.threads u = some uh → P uh := by
  intro u uh found
  rw [threads] at found
  by_cases same : u = t
  · subst same
    cases (Function.update_self u _ s.threads).symm.trans found
    exact fresh
  · rw [Function.update_of_ne same] at found
    exact all u uh found

theorem State.Inv.update {t : Nat} {th : Thread} (inv : s.Inv old new m) (manager : s'.manager = s.manager)
    (todo : s'.todo = s.todo) (threads : s'.threads = Function.update s.threads t (some th))
    (follows : ∀ side ∈ th.call.sides, th.Follows (side.manager old new m)) : s'.Inv old new m where
  progress name := by
    obtain ⟨made, calls, now⟩ := inv.progress name
    exact ⟨made, by rw [calls, State.left, State.left, todo], by rw [manager, now]⟩
  follows := threads_update inv.follows threads follows

theorem State.Inv.step {a : Act} (inv : s.Inv old new m) (stepped : step old new m s a = some s') :
    s'.Inv old new m := by
  cases a with
  | listener =>
    have threads : s'.threads = s.threads := by
      simp only [Race.step, State.listener] at stepped
      split at stepped
      · cases stepped
      · split at stepped <;> cases stepped
        rfl
    exact ⟨inv.progress.listener stepped, threads ▸ inv.follows⟩
  | log t name level =>
    have entered : some (s.set t ⟨{ name, level }, .entered name⟩) = some s' := by
      simp only [Race.step, State.log] at stepped
      split at stepped
      · exact stepped
      · exact stepped
      · cases stepped
    cases entered
    exact inv.update rfl rfl rfl (fun _ _ => rfl)
  | thread t =>
    cases found : s.threads t with
    | none => simp [Race.step, State.thread, found] at stepped
    | some th =>
      obtain ⟨manager, todo, th', threads, follows⟩ :=
        inv.progress.thread found (inv.follows t th found) stepped
      exact inv.update manager todo threads follows

/-- **A reload is atomic** for a call each of whose reads agrees with one complete
configuration: its event is written as under that configuration. -/
theorem reload_atomic (old new : LogDefines) (m : LoggerManager) {acts : List Act} {s : State}
    (ran : Run.exec (step old new m) (State.start old new m) acts = some s) {t : Nat} {th : Thread}
    (here : s.threads t = some th) {side : Side} (agrees : side ∈ th.call.sides) :
    th.under (side.manager old new m) := by
  have inv : s.Inv old new m := by
    apply (Guarded.of_exec ran).invariant State.inv_start
    intro _ s a s' _ inv _ stepped
    exact inv.step stepped
  have follows := inv.follows t th here side agrees
  obtain ⟨call, phase⟩ := th
  cases phase with
  | entered here => rfl
  | passed here => rfl
  | visiting here n written => rfl
  | done written => exact follows
  | broken => cases follows

/-! ## Reloads of one logger -/

/-- A logger that writes to one file. -/
def toFile (file : Text) : LogDefines :=
  LogDefines.empty.insert { name := ['a'], level := .debug, appenders := [{ type := 1, level := .debug, file }] }

/-- The manager with the logger at its first file. -/
def atFirst : LoggerManager := (listenerCalls .empty (toFile ['x'])).foldl .call .new

/-- A call that ends between `setLevel` and `clearAppenders`, and one after the reload. -/
def inTurn : List Act :=
  [.log 0 ['a'] .info, .thread 0, .thread 0, .thread 0, .listener, .thread 0, .listener, .listener,
    .log 1 ['a'] .info, .thread 1, .thread 1, .thread 1, .thread 1]

/-- The file the appender of a call that has returned has written to. -/
def Thread.wrote (th : Thread) : List AppenderKind :=
  match th.phase with
  | .done (some written) => written.map Appender.kind
  | _ => []

/-- Both calls have returned: the first agrees with the old configuration, the second with the new one. -/
theorem reload_atomic_inTurn : ∃ s first second,
    Run.exec (step (toFile ['x']) (toFile ['y']) atFirst) (State.start (toFile ['x']) (toFile ['y']) atFirst) inTurn =
      some s ∧ s.threads 0 = some first ∧ s.threads 1 = some second ∧
    first.wrote = [.file ['x']] ∧ second.wrote = [.file ['y']] ∧
    first.under (Side.old.manager (toFile ['x']) (toFile ['y']) atFirst) ∧
    second.under (Side.new.manager (toFile ['x']) (toFile ['y']) atFirst) := by
  obtain ⟨s, ran, test⟩ := Run.exec_of_any
    (show (Run.exec (step (toFile ['x']) (toFile ['y']) atFirst) (State.start (toFile ['x']) (toFile ['y']) atFirst)
      inTurn).any (fun s =>
        (s.threads 0).any (fun th => .old ∈ th.call.sides ∧ th.wrote = [.file ['x']]) &&
        (s.threads 1).any fun th => .new ∈ th.call.sides ∧ th.wrote = [.file ['y']]) from by decide +kernel)
  obtain ⟨first, second⟩ := Bool.and_eq_true_iff.mp test
  obtain ⟨first, here, before⟩ := (Option.any_eq_true ..).mp first
  obtain ⟨second, there, after⟩ := (Option.any_eq_true ..).mp second
  obtain ⟨old, wroteOld⟩ := of_decide_eq_true before
  obtain ⟨new, wroteNew⟩ := of_decide_eq_true after
  exact ⟨s, first, second, ran, here, there, wroteOld, wroteNew, reload_atomic _ _ _ ran here old,
    reload_atomic _ _ _ ran there new⟩

/-- A call that finds the list cleared, and writes to the standard output. -/
def gap : List Act :=
  [.log 0 ['a'] .info, .thread 0, .listener, .listener, .thread 0, .thread 0, .thread 0, .thread 0, .thread 0]

/-- A call whose list is cleared after its first visit. -/
def cleared : List Act :=
  [.log 0 ['a'] .info, .thread 0, .thread 0, .thread 0, .listener, .listener, .thread 0]

/-- The first call of the schedule is not written as under either configuration. -/
def Breaks (acts : List Act) : Prop :=
  ∃ s th, Run.exec (step (toFile ['x']) (toFile ['y']) atFirst) (State.start (toFile ['x']) (toFile ['y']) atFirst)
    acts = some s ∧ s.threads 0 = some th ∧ th.atomic (toFile ['x']) (toFile ['y']) atFirst = false

theorem Breaks.of_any {acts : List Act} (test : (Run.exec (step (toFile ['x']) (toFile ['y']) atFirst)
    (State.start (toFile ['x']) (toFile ['y']) atFirst) acts).any (fun s => (s.threads 0).any fun th =>
      !th.atomic (toFile ['x']) (toFile ['y']) atFirst) = true) : Breaks acts := by
  obtain ⟨s, ran, wrong⟩ := Run.exec_of_any test
  obtain ⟨th, here, wrong⟩ := (Option.any_eq_true ..).mp wrong
  exact ⟨s, th, ran, here, by simpa using wrong⟩

/-- Both schedules break the call, through root's appender and through a freed list. -/
theorem not_reload_atomic : Breaks gap ∧ Breaks cleared :=
  ⟨.of_any (by decide +kernel), .of_any (by decide +kernel)⟩

end Atpdxy.Log.Race
