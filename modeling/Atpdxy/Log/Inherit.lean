import Mathlib.Logic.Function.Basic
import Atpdxy.Log.Pattern
import Atpdxy.Run.Guarded

/-!
# Appenders that follow their logger

Loggers and appenders are shared objects here: an appender that is detached,
or about to be attached, keeps what it holds. `LogAppender::m_formatter` caches
the logger's formatter for an appender without one of its own
(`m_hasFormatter`), and `Following` says that the cache is right.

`addAppender` fills the cache only when it is empty, so an appender that comes
back with the formatter of another time keeps it (`staleAppender`), and
`LogAppender::setFormatter(nullptr)` empties the cache of an attached appender
(`emptied`). `Fresh` is the condition on a call, and it is exact.
-/

namespace Atpdxy.Log.Inherit

open Run

abbrev LoggerId := Nat
abbrev AppenderId := Nat

/-- A `LogFormatter::ptr` that is not null: the address and the object there. -/
structure FormatterPtr where
  address : Nat
  formatter : LogFormatter
  deriving DecidableEq, Repr

/-- The data of a `LogAppender`. -/
structure LogAppender where
  level : Level := .debug
  formatter : Option FormatterPtr := none
  hasFormatter : Bool := false
  deriving DecidableEq, Repr

/-- The data of a `Logger`. -/
structure Logger where
  formatter : FormatterPtr
  appenders : List AppenderId := []
  deriving DecidableEq, Repr

structure State where
  logger : LoggerId → Logger
  appender : AppenderId → LogAppender := fun _ => {}
  /-- the address of the next object -/
  fresh : Nat := 0

/-- The loggers as constructed, each with a formatter, and the appenders. -/
def State.start (formatter : LoggerId → FormatterPtr) : State := { logger := fun l => ⟨formatter l, []⟩ }

inductive Call
  | addAppender (l : LoggerId) (a : AppenderId)
  | delAppender (l : LoggerId) (a : AppenderId)
  | clearAppenders (l : LoggerId)
  | setFormatterPtr (l : LoggerId) (val : FormatterPtr)
  | setFormatter (l : LoggerId) (val : Text)
  | appenderSetFormatter (a : AppenderId) (val : Option FormatterPtr)
  deriving DecidableEq, Repr

def State.setLogger (s : State) (l : LoggerId) (x : Logger) : State := { s with logger := Function.update s.logger l x }

def State.setAppender (s : State) (a : AppenderId) (x : LogAppender) : State :=
  { s with appender := Function.update s.appender a x }

/-- `Logger::addAppender`. -/
def State.addAppender (s : State) (l : LoggerId) (a : AppenderId) : State :=
  let s := if (s.appender a).formatter.isNone then
      s.setAppender a { s.appender a with formatter := some (s.logger l).formatter }
    else s
  s.setLogger l { s.logger l with appenders := (s.logger l).appenders ++ [a] }

/-- `Logger::delAppender` erases the first occurrence. -/
def State.delAppender (s : State) (l : LoggerId) (a : AppenderId) : State :=
  s.setLogger l { s.logger l with appenders := (s.logger l).appenders.erase a }

/-- `Logger::clearAppenders`. -/
def State.clearAppenders (s : State) (l : LoggerId) : State := s.setLogger l { s.logger l with appenders := [] }

/-- The body of the loop of `Logger::setFormatter`. -/
def State.inherit (val : FormatterPtr) (s : State) (a : AppenderId) : State :=
  if (s.appender a).hasFormatter then s else s.setAppender a { s.appender a with formatter := some val }

/-- `Logger::setFormatter(ptr)`. -/
def State.setFormatterPtr (s : State) (l : LoggerId) (val : FormatterPtr) : State :=
  (s.logger l).appenders.foldl (State.inherit val) (s.setLogger l { s.logger l with formatter := val })

/-- `Logger::setFormatter(string)`. -/
def State.setFormatter (s : State) (l : LoggerId) (val : Text) : State :=
  let new : FormatterPtr := ⟨s.fresh, .init val⟩
  let s := { s with fresh := s.fresh + 1 }
  if new.formatter.isError then s else s.setFormatterPtr l new

/-- `LogAppender::setFormatter`. -/
def LogAppender.setFormatter (a : LogAppender) (val : Option FormatterPtr) : LogAppender :=
  { a with formatter := val, hasFormatter := val.isSome }

def step (s : State) : Call → Option State
  | .addAppender l a => some (s.addAppender l a)
  | .delAppender l a => some (s.delAppender l a)
  | .clearAppenders l => some (s.clearAppenders l)
  | .setFormatterPtr l val => some (s.setFormatterPtr l val)
  | .setFormatter l val => some (s.setFormatter l val)
  | .appenderSetFormatter a val => some (s.setAppender a ((s.appender a).setFormatter val))

/-- `StdoutLogAppender::log` and `FileLogAppender::log`: the formatter the event
is printed with, if it is; none is a call through a null pointer. -/
def LogAppender.log (a : LogAppender) (level : Level) : Option (Option FormatterPtr) :=
  if a.level ≤ level then a.formatter.map some else some none

/-- Every attached appender without a formatter of its own has its logger's. -/
def Following (s : State) : Prop :=
  ∀ l, ∀ a ∈ (s.logger l).appenders,
    (s.appender a).hasFormatter = false → (s.appender a).formatter = some (s.logger l).formatter

/-- No appender is attached to two loggers. -/
def Unshared (s : State) : Prop :=
  ∀ l l' a, a ∈ (s.logger l).appenders → a ∈ (s.logger l').appenders → l = l'

/-- The call attaches no appender to a second logger. -/
def Apart (s : State) : Call → Prop
  | .addAppender l a => ∀ l', a ∈ (s.logger l').appenders → l' = l
  | _ => True

/-- The condition on a call: an appender is attached with a formatter of its
own, with none, or with that of the logger; and the formatter of an attached
appender is not set to null. -/
def Fresh (s : State) : Call → Prop
  | .addAppender l a =>
    (s.appender a).hasFormatter = true ∨ (s.appender a).formatter = none ∨
      (s.appender a).formatter = some (s.logger l).formatter
  | .appenderSetFormatter a none => ∀ l, a ∉ (s.logger l).appenders
  | _ => True

/-- The flag tells of a formatter. -/
def Flagged (s : State) : Prop := ∀ a, (s.appender a).hasFormatter = true → (s.appender a).formatter.isSome = true

variable {s s' : State} {l : LoggerId} {a : AppenderId} {val : FormatterPtr} {calls : List Call}

/-! ## The loop of `setFormatter` -/

theorem foldl_inherit_logger (as : List AppenderId) : (as.foldl (State.inherit val) s).logger = s.logger := by
  induction as generalizing s with
  | nil => rfl
  | cons a as ih =>
    rw [List.foldl_cons, ih]
    unfold State.inherit
    split <;> rfl

/-- The appenders of the list without a formatter of their own get the new one. -/
theorem foldl_inherit_appender (as : List AppenderId) (a : AppenderId) :
    (as.foldl (State.inherit val) s).appender a =
      if a ∈ as ∧ (s.appender a).hasFormatter = false then { s.appender a with formatter := some val }
      else s.appender a := by
  induction as generalizing s with
  | nil => simp
  | cons b as ih =>
    rw [List.foldl_cons, ih]
    by_cases own : (s.appender b).hasFormatter = true
    · have same : s.inherit val b = s := if_pos own
      rw [same]
      by_cases first : a = b
      · subst first
        simp [own]
      · simp [first]
    · have moved : s.inherit val b = s.setAppender b { s.appender b with formatter := some val } := if_neg own
      rw [moved]
      by_cases first : a = b
      · subst first
        simp [State.setAppender, own]
      · simp [State.setAppender, first]

/-! ## What a call does to the lists, the formatters and the flags -/

@[simp] theorem setLogger_appender (x : Logger) : (s.setLogger l x).appender = s.appender := rfl
@[simp] theorem setAppender_logger (x : LogAppender) : (s.setAppender a x).logger = s.logger := rfl

theorem setLogger_appenders (x : Logger) (l' : LoggerId) :
    ((s.setLogger l x).logger l').appenders = if l' = l then x.appenders else (s.logger l').appenders := by
  by_cases this : l' = l
  · simp [State.setLogger, this]
  · simp [State.setLogger, this]

theorem setLogger_formatter (x : Logger) (l' : LoggerId) :
    ((s.setLogger l x).logger l').formatter = if l' = l then x.formatter else (s.logger l').formatter := by
  by_cases this : l' = l
  · simp [State.setLogger, this]
  · simp [State.setLogger, this]

theorem setFormatterPtr_appenders (l' : LoggerId) :
    ((s.setFormatterPtr l val).logger l').appenders = (s.logger l').appenders := by
  rw [State.setFormatterPtr, foldl_inherit_logger, setLogger_appenders]
  split
  · next same => rw [same]
  · rfl

theorem setFormatterPtr_formatter (l' : LoggerId) :
    ((s.setFormatterPtr l val).logger l').formatter = if l' = l then val else (s.logger l').formatter := by
  rw [State.setFormatterPtr, foldl_inherit_logger, setLogger_formatter]

theorem addAppender_appenders (l' : LoggerId) :
    ((s.addAppender l a).logger l').appenders =
      if l' = l then (s.logger l).appenders ++ [a] else (s.logger l').appenders := by
  rw [State.addAppender, setLogger_appenders]
  split <;> split <;> rfl

theorem addAppender_formatter (l' : LoggerId) :
    ((s.addAppender l a).logger l').formatter = (s.logger l').formatter := by
  rw [State.addAppender, setLogger_formatter]
  split
  · next same => rw [same]; split <;> rfl
  · split <;> rfl

/-- `addAppender` fills an empty cache and leaves a full one. -/
theorem addAppender_appender (b : AppenderId) :
    (s.addAppender l a).appender b =
      if b = a ∧ (s.appender a).formatter = none then
        { s.appender a with formatter := some (s.logger l).formatter }
      else s.appender b := by
  unfold State.addAppender
  by_cases empty : (s.appender a).formatter = none
  · by_cases this : b = a
    · simp [State.setAppender, empty, this]
    · simp [State.setAppender, empty, this]
  · have full : ¬ (s.appender a).formatter.isNone := by simpa using empty
    simp [empty, full]

theorem setFormatterPtr_appender (b : AppenderId) :
    (s.setFormatterPtr l val).appender b =
      if b ∈ (s.logger l).appenders ∧ (s.appender b).hasFormatter = false then
        { s.appender b with formatter := some val }
      else s.appender b :=
  foldl_inherit_appender _ b

/-! ## What each call keeps -/

theorem Following.addAppender (following : Following s) (apart : Apart s (.addAppender l a))
    (fresh : Fresh s (.addAppender l a)) : Following (s.addAppender l a) := by
  intro l' b attached inherits
  rw [addAppender_formatter]
  rw [addAppender_appenders] at attached
  rw [addAppender_appender] at inherits ⊢
  by_cases same : b = a
  · subst same
    have owner : l' = l := by
      split at attached
      · assumption
      · exact apart l' attached
    subst owner
    split
    · rfl
    · next full =>
      rw [if_neg full] at inherits
      obtain own | empty | current := fresh
      · rw [own] at inherits
        cases inherits
      · exact absurd ⟨rfl, empty⟩ full
      · exact current
  · rw [if_neg (by simp [same])] at inherits ⊢
    apply following l' b _ inherits
    split at attached
    · next owner => simpa [owner, same] using attached
    · exact attached

theorem Following.setFormatterPtr (following : Following s) (unshared : Unshared s) :
    Following (s.setFormatterPtr l val) := by
  intro l' b attached inherits
  rw [setFormatterPtr_appenders] at attached
  rw [setFormatterPtr_formatter]
  rw [setFormatterPtr_appender] at inherits ⊢
  by_cases owner : l' = l
  · subst owner
    have inherited : (s.appender b).hasFormatter = false := by
      split at inherits <;> exact inherits
    rw [if_pos ⟨attached, inherited⟩, if_pos rfl]
  · have elsewhere : b ∉ (s.logger l).appenders := fun there => owner (unshared _ _ _ attached there)
    rw [if_neg (by simp [elsewhere])] at inherits ⊢
    rw [if_neg owner]
    exact following l' b attached inherits

/-- `setFormatter(string)` is `setFormatter(ptr)` with a new formatter, or no change. -/
theorem setFormatter_cases (val : Text) :
    s.setFormatter l val = { s with fresh := s.fresh + 1 } ∨
      s.setFormatter l val =
        State.setFormatterPtr { s with fresh := s.fresh + 1 } l ⟨s.fresh, .init val⟩ := by
  by_cases invalid : (LogFormatter.init val).isError = true
  · exact .inl (if_pos invalid)
  · exact .inr (if_neg invalid)

/-- `delAppender` and `clearAppenders` leave a part of the list. -/
theorem Following.shorten {as : List AppenderId} (following : Following s) (fewer : as ⊆ (s.logger l).appenders) :
    Following (s.setLogger l { s.logger l with appenders := as }) := by
  intro l' b attached inherits
  rw [setLogger_appenders] at attached
  rw [setLogger_formatter]
  split at attached
  · next owner =>
    subst owner
    rw [if_pos rfl]
    exact following l' b (fewer attached) inherits
  · next other =>
    rw [if_neg other]
    exact following l' b attached inherits

theorem Following.appenderSetFormatter {val : Option FormatterPtr} (following : Following s)
    (fresh : Fresh s (.appenderSetFormatter a val)) :
    Following (s.setAppender a ((s.appender a).setFormatter val)) := by
  intro l b attached inherits
  by_cases same : b = a
  · subst same
    cases val with
    | none => exact absurd attached (fresh l)
    | some val => simp [State.setAppender, LogAppender.setFormatter] at inherits
  · simp only [State.setAppender, Function.update_of_ne same] at inherits ⊢
    exact following l b attached inherits

/-- The step lemma of `Following`. -/
theorem Following.step {call : Call} (following : Following s) (unshared : Unshared s)
    (apart : Apart s call) (fresh : Fresh s call) (next : step s call = some s') : Following s' := by
  cases call with
  | addAppender l a =>
    cases next
    exact following.addAppender apart fresh
  | delAppender l a =>
    cases next
    exact following.shorten List.erase_subset
  | clearAppenders l =>
    cases next
    exact following.shorten (List.nil_subset _)
  | setFormatterPtr l val =>
    cases next
    exact following.setFormatterPtr unshared
  | setFormatter l val =>
    cases next
    obtain same | set := setFormatter_cases (s := s) (l := l) val
    · rw [same]
      exact following
    · rw [set]
      exact Following.setFormatterPtr (s := { s with fresh := s.fresh + 1 }) following unshared
  | appenderSetFormatter a val =>
    cases next
    exact following.appenderSetFormatter fresh

theorem attached_shorten {as : List AppenderId} (fewer : as ⊆ (s.logger l).appenders) {l' : LoggerId}
    (attached : a ∈ ((s.setLogger l { s.logger l with appenders := as }).logger l').appenders) :
    a ∈ (s.logger l').appenders := by
  rw [setLogger_appenders] at attached
  split at attached
  · next owner =>
    subst owner
    exact fewer attached
  · exact attached

/-- An appender attached after a call was so before, or the call attached it. -/
theorem attached_of_step {call : Call} (next : step s call = some s') (l' : LoggerId) {b : AppenderId}
    (attached : b ∈ (s'.logger l').appenders) :
    b ∈ (s.logger l').appenders ∨ call = .addAppender l' b := by
  cases call with
  | addAppender l a =>
    cases next
    rw [addAppender_appenders] at attached
    split at attached
    · next owner => simpa [owner, eq_comm, or_comm] using attached
    · exact .inl attached
  | delAppender l a =>
    cases next
    exact .inl (attached_shorten List.erase_subset attached)
  | clearAppenders l =>
    cases next
    exact .inl (attached_shorten (List.nil_subset _) attached)
  | setFormatterPtr l val =>
    cases next
    rw [setFormatterPtr_appenders] at attached
    exact .inl attached
  | setFormatter l val =>
    cases next
    obtain same | set := setFormatter_cases (s := s) (l := l) val
    · rw [same] at attached
      exact .inl attached
    · rw [set, setFormatterPtr_appenders] at attached
      exact .inl attached
  | appenderSetFormatter a val =>
    cases next
    exact .inl attached

theorem Unshared.step {call : Call} (unshared : Unshared s) (apart : Apart s call)
    (next : step s call = some s') : Unshared s' := by
  intro l l' b here there
  obtain here | rfl := attached_of_step next l here
  · obtain there | rfl := attached_of_step next l' there
    · exact unshared l l' b here there
    · exact apart l here
  · obtain there | same := attached_of_step next l' there
    · exact (apart l' there).symm
    · cases same
      rfl

/-- Where a formatter is put, the flag tells of one. -/
theorem Flagged.fill {p : Prop} [Decidable p] {x : LogAppender} (flagged : Flagged s)
    (own : (if p then { x with formatter := some val } else s.appender a).hasFormatter = true) :
    (if p then { x with formatter := some val } else s.appender a).formatter.isSome = true := by
  split at own
  · next filled =>
    rw [if_pos filled]
    rfl
  · next kept =>
    rw [if_neg kept]
    exact flagged a own

/-- A flag that a call sets comes with a formatter. -/
theorem Flagged.step {call : Call} (flagged : Flagged s) (next : step s call = some s') : Flagged s' := by
  intro b own
  cases call with
  | addAppender l a =>
    cases next
    rw [addAppender_appender] at own ⊢
    exact flagged.fill own
  | delAppender l a => cases next; exact flagged b own
  | clearAppenders l => cases next; exact flagged b own
  | setFormatterPtr l val =>
    cases next
    rw [setFormatterPtr_appender] at own ⊢
    exact flagged.fill own
  | setFormatter l val =>
    cases next
    obtain same | set := setFormatter_cases (s := s) (l := l) val
    · rw [same] at own ⊢
      exact flagged b own
    · rw [set, setFormatterPtr_appender] at own ⊢
      exact Flagged.fill (s := { s with fresh := s.fresh + 1 }) flagged own
  | appenderSetFormatter a val =>
    cases next
    by_cases same : b = a
    · subst same
      simpa [State.setAppender, LogAppender.setFormatter] using own
    · simp only [State.setAppender, Function.update_of_ne same] at own ⊢
      exact flagged b own

/-- An appender that is attached nowhere may be attached. -/
theorem Apart.free (free : ∀ l', a ∉ (s.logger l').appenders) : Apart s (.addAppender l a) :=
  fun l' attached => absurd attached (free l')

/-- A call that does not meet the condition leaves an appender that does not
follow its logger. -/
theorem not_following {call : Call} (stale : ¬ Fresh s call) (next : step s call = some s') : ¬ Following s' := by
  intro following
  cases call with
  | addAppender l a =>
    cases next
    simp only [Fresh, not_or] at stale
    obtain ⟨inherits, full, other⟩ := stale
    have kept : (s.addAppender l a).appender a = s.appender a := by
      rw [addAppender_appender, if_neg (by simp [full])]
    apply other
    rw [← kept, ← addAppender_formatter (s := s) (l := l) (a := a) l]
    apply following l a
    · rw [addAppender_appenders, if_pos rfl]
      simp
    · rw [kept]
      simpa using inherits
  | appenderSetFormatter a val =>
    cases next
    cases val with
    | some val => exact stale trivial
    | none =>
      simp only [Fresh, not_forall, not_not] at stale
      obtain ⟨l, attached⟩ := stale
      have empty := following l a attached (by simp [State.setAppender, LogAppender.setFormatter])
      simp [State.setAppender, LogAppender.setFormatter] at empty
  | delAppender l a => exact stale trivial
  | clearAppenders l => exact stale trivial
  | setFormatterPtr l val => exact stale trivial
  | setFormatter l val => exact stale trivial

/-! ## Whole runs -/

section Runs

variable {formatter : LoggerId → FormatterPtr}

theorem invariants (run : Guarded step (fun s call => Apart s call ∧ Fresh s call) (.start formatter) calls s) :
    Following s ∧ Unshared s ∧ Flagged s := by
  refine run.invariant (I := fun s => Following s ∧ Unshared s ∧ Flagged s) ⟨?_, ?_, ?_⟩
    fun _ s call s' _ kept met next => ?_
  · intro l a attached
    cases attached
  · intro l l' a attached
    cases attached
  · intro a own
    cases own
  · obtain ⟨following, unshared, flagged⟩ := kept
    obtain ⟨apart, fresh⟩ := met
    exact ⟨following.step unshared apart fresh next, unshared.step apart next, flagged.step next⟩

/-- An attached appender prints with a formatter. -/
theorem Following.log (following : Following s) (flagged : Flagged s) (attached : a ∈ (s.logger l).appenders)
    (level : Level) : (s.appender a).formatter ≠ none ∧ (s.appender a).log level ≠ none := by
  have present : (s.appender a).formatter.isSome = true := by
    cases own : (s.appender a).hasFormatter with
    | true => exact flagged a own
    | false => rw [following l a attached own]; rfl
  obtain ⟨f, present⟩ := Option.isSome_iff_exists.mp present
  constructor
  · simp [present]
  · unfold LogAppender.log
    split
    · simp [present]
    · simp

/-- **Main result**: as long as the calls meet the condition, each attached
appender without a formatter of its own has its logger's, and none prints
through a null pointer. The first call that does not meet it ends that. -/
theorem follows (run : Guarded step (fun s call => Apart s call ∧ Fresh s call) (.start formatter) calls s) :
    Following s ∧
      (∀ l, ∀ a ∈ (s.logger l).appenders, ∀ level,
        (s.appender a).formatter ≠ none ∧ (s.appender a).log level ≠ none) ∧
      ∀ call s', step s call = some s' → ¬ Fresh s call → ¬ Following s' := by
  obtain ⟨following, -, flagged⟩ := invariants run
  refine ⟨following, ?_, ?_⟩
  · intro l a attached level
    exact following.log flagged attached level
  · intro call s' next stale
    exact not_following stale next

end Runs

/-! ## An appender that comes and goes -/

/-- The formatters of the loggers, `%m` and `%m%n`. -/
def twoFormatters (l : LoggerId) : FormatterPtr :=
  if l = 0 then ⟨100, .init "%m".toList⟩ else ⟨200, .init "%m%n".toList⟩

/-- Appender 0 inherits from logger 0, is detached, gets a formatter of its own
and loses it, and is attached to logger 1. -/
def reattached : List Call :=
  [.addAppender 0 0, .delAppender 0 0, .appenderSetFormatter 0 (some ⟨300, .init "%p".toList⟩),
    .appenderSetFormatter 0 none, .addAppender 1 0]

/-- Whatever has been attached to logger 0 alone and erased is attached nowhere. -/
theorem detached (s : State) (none : ∀ l, (s.logger l).appenders = []) (l : LoggerId) :
    a ∉ (((s.addAppender 0 a).delAppender 0 a).logger l).appenders := by
  rw [State.delAppender, setLogger_appenders, addAppender_appenders, addAppender_appenders]
  split <;> simp [none]

theorem reattached_run :
    ∃ s, Guarded step (fun s call => Apart s call ∧ Fresh s call) (.start twoFormatters) reattached s ∧
      (s.appender 0).formatter = some (twoFormatters 1) := by
  refine ⟨_, .cons ⟨.free fun _ => List.not_mem_nil, .inr (.inl rfl)⟩ rfl (.cons ⟨trivial, trivial⟩ rfl
    (.cons ⟨trivial, trivial⟩ rfl (.cons ⟨trivial, ?_⟩ rfl (.single ⟨.free ?_, .inr (.inl rfl)⟩ rfl)))), rfl⟩
  · exact detached _ (fun _ => rfl)
  · exact detached _ (fun _ => rfl)

theorem follows_reattached :
    ∃ s, exec step (.start twoFormatters) reattached = some s ∧ Following s ∧
      (s.appender 0).formatter = some (twoFormatters 1) := by
  obtain ⟨s, run, inherited⟩ := reattached_run
  exact ⟨s, run.exec_eq, (follows run).1, inherited⟩

/-- Appender 0 inherits from logger 0, is detached, and is attached to logger 1. -/
def staleAppender : List Call := [.addAppender 0 0, .delAppender 0 0, .addAppender 1 0]

/-- The formatter of an attached appender is set to null. -/
def emptied : List Call := [.addAppender 0 0, .appenderSetFormatter 0 none]

theorem staleAppender_run :
    ∃ s, Guarded step Apart (.start twoFormatters) staleAppender s ∧ ¬ Following s := by
  refine ⟨_, .cons (.free fun _ => List.not_mem_nil) rfl (.cons trivial rfl (.single (.free ?_) rfl)), ?_⟩
  · exact detached _ (fun _ => rfl)
  · intro following
    have same := following 1 0 (.head _) rfl
    have other : some (twoFormatters 0) ≠ some (twoFormatters 1) := by
      simp [twoFormatters]
    exact other same

theorem emptied_run :
    ∃ s, Guarded step Apart (.start twoFormatters) emptied s ∧
      0 ∈ (s.logger 0).appenders ∧ (s.appender 0).log .debug = none := by
  refine ⟨_, .cons (.free fun _ => List.not_mem_nil) rfl (.single trivial rfl), ?_, rfl⟩
  exact .head _

/-- Neither half of the result holds of every run. -/
theorem not_follows :
    (¬ ∀ formatter calls s, Guarded step Apart (.start formatter) calls s → Following s) ∧
      ¬ ∀ formatter calls s, Guarded step Apart (.start formatter) calls s →
        ∀ l, ∀ a ∈ (s.logger l).appenders, ∀ level, (s.appender a).log level ≠ none := by
  constructor
  · intro always
    obtain ⟨s, run, unequal⟩ := staleAppender_run
    exact unequal (always _ _ s run)
  · intro always
    obtain ⟨s, run, attached, null⟩ := emptied_run
    exact always _ _ s run 0 0 attached .debug null

end Atpdxy.Log.Inherit
