import Atpdxy.Log.FormatItem
import Atpdxy.Run.Guarded

/-!
# The file appender after an error

`FileLogAppender` (`log.cpp`) on a `std::ofstream`, which is open or not and, apart
from that, in error or not. `open` fails on a stream that is open, and `reopen()`
closes the stream only when it is not in error: a stream that is open and in error
stays so (`reopen_usable`).
-/

namespace Atpdxy.Log.Reopen

open Run

/-- A `std::ofstream`: `is_open()`, and `failbit` or `badbit`. -/
structure Stream where
  isOpen : Bool := false
  fail : Bool := false
  deriving DecidableEq, Repr

/-- What the file system does in a call. -/
structure World where
  /-- what is buffered can be written when a file is closed -/
  flushes : Bool
  canOpen : Text → Bool
  /-- a line can be written to an open file -/
  writes : Bool

/-- The file is closed in any case. -/
def Stream.close (w : World) (s : Stream) : Stream :=
  if s.isOpen then { isOpen := false, fail := s.fail || !w.flushes } else { s with fail := true }

/-- `open(filename, out | app)`. -/
def Stream.open (w : World) (filename : Text) (s : Stream) : Stream :=
  if s.isOpen then { s with fail := true }
  else if w.canOpen filename then { isOpen := true, fail := false }
  else { s with fail := true }

/-- `m_filestream << text`. -/
def Stream.write (w : World) (text : Text) (s : Stream) : Stream :=
  if s.fail || text.isEmpty || (s.isOpen && w.writes) then s else { s with fail := true }

structure FileLogAppender where
  m_level : Level
  m_filename : Text
  m_filestream : Stream := {}
  m_lastTime : Nat := 0
  deriving DecidableEq, Repr

/-- `FileLogAppender::reopen`, with what it returns. -/
def FileLogAppender.reopen (w : World) (a : FileLogAppender) : FileLogAppender × Bool :=
  let closed := if a.m_filestream.fail then a.m_filestream else a.m_filestream.close w
  let opened := closed.open w a.m_filename
  ({ a with m_filestream := opened }, !opened.fail)

/-- The stream can be written to. -/
def FileLogAppender.Usable (a : FileLogAppender) : Prop :=
  a.m_filestream.isOpen = true ∧ a.m_filestream.fail = false

instance : DecidablePred FileLogAppender.Usable := fun _ => inferInstanceAs (Decidable (_ ∧ _))

/-! ## Calls -/

/-- A call of `reopen()`. -/
structure Reopened where
  canOpen : Bool
  returned : Bool
  usable : Bool
  deriving DecidableEq, Repr

/-- A line handed to `log` in a new second. -/
structure Line where
  /-- the file could be opened and the line written -/
  possible : Bool
  written : Bool
  deriving DecidableEq, Repr

structure State where
  appender : FileLogAppender
  file : List Text := []
  reopened : List Reopened := []
  lines : List Line := []

inductive Act
  | reopen (w : World)
  /-- `log`, with the line the formatter makes of the event, at the time `now` -/
  | log (w : World) (level : Level) (now : Nat) (text : Text)

/-- `reopen()`, recorded. -/
def State.reopen (w : World) (s : State) : State :=
  let (appender, returned) := s.appender.reopen w
  { s with
    appender
    reopened := s.reopened ++ [⟨w.canOpen s.appender.m_filename, returned, appender.Usable⟩] }

/-- The line is printed into the stream. -/
def State.print (w : World) (text : Text) (s : State) : State :=
  { s with
    appender := { s.appender with m_filestream := s.appender.m_filestream.write w text }
    file := if s.appender.Usable ∧ w.writes then s.file ++ [text] else s.file }

/-- `FileLogAppender::log`. -/
def State.log (w : World) (level : Level) (now : Nat) (text : Text) (s : State) : State :=
  if s.appender.m_level ≤ level then
    if now = s.appender.m_lastTime then s.print w text
    else
      let s := s.reopen w
      let s := { s with appender := { s.appender with m_lastTime := now } }
      let printed := s.print w text
      { printed with
        lines := s.lines ++ [⟨w.canOpen s.appender.m_filename && w.writes, printed.file = s.file ++ [text]⟩] }
  else s

/-- The constructor. -/
def State.start (w : World) (m_level : Level) (m_filename : Text) : State :=
  ({ appender := { m_level, m_filename } } : State).reopen w

def step (s : State) : Act → Option State
  | .reopen w => some (s.reopen w)
  | .log w level now text => some (s.log w level now text)

/-- Each `reopen()` that could open the file returned true and left a usable stream, and
the lines of a new second were written when they could be. -/
def Recovers (s : State) : Prop :=
  (∀ r ∈ s.reopened, r.canOpen = true → r.returned = true ∧ r.usable = true) ∧
    ∀ l ∈ s.lines, l.possible = true → l.written = true

/-- The stream is open and in error. -/
def Stuck (a : FileLogAppender) : Prop := a.m_filestream.isOpen = true ∧ a.m_filestream.fail = true

instance : DecidablePred Stuck := fun _ => inferInstanceAs (Decidable (_ ∧ _))

/-- The call reopens the file, in this world. -/
def Act.reopens (s : State) : Act → Option World
  | .reopen w => some w
  | .log w level now _ => if s.appender.m_level ≤ level ∧ now ≠ s.appender.m_lastTime then some w else none

/-- The stream is not stuck where the call could open the file. -/
def Free (s : State) (a : Act) : Prop :=
  ∀ w ∈ a.reopens s, w.canOpen s.appender.m_filename = true → ¬ Stuck s.appender

instance (s : State) (a : Act) : Decidable (Free s a) := inferInstanceAs (Decidable (∀ w ∈ _, _ → _))

variable {a : FileLogAppender} {s t : State} {w : World} {act : Act} {acts : List Act}

/-! ## One call -/

/-- The stream after a `reopen()` that can open the file. -/
theorem reopen_stream (can : w.canOpen a.m_filename = true) :
    (a.reopen w).1.m_filestream = ⟨true, decide (Stuck a)⟩ := by
  obtain ⟨level, filename, ⟨isOpen, fail⟩, last⟩ := a
  have can : w.canOpen filename = true := can
  cases isOpen <;> cases fail <;>
    simp [FileLogAppender.reopen, Stream.close, Stream.open, Stuck, can]

theorem reopen_usable (can : w.canOpen a.m_filename = true) : (a.reopen w).1.Usable ↔ ¬ Stuck a := by
  simp [FileLogAppender.Usable, reopen_stream can]

theorem reopen_returned (can : w.canOpen a.m_filename = true) : (a.reopen w).2 = true ↔ ¬ Stuck a := by
  have stream := reopen_stream can
  have returned : (a.reopen w).2 = !(a.reopen w).1.m_filestream.fail := rfl
  rw [returned, stream]
  simp

/-- A recorded `reopen()` keeps the property when the stream is not stuck, and only then. -/
theorem recovers_reopen :
    Recovers (s.reopen w) ↔ Recovers s ∧ (w.canOpen s.appender.m_filename = true → ¬ Stuck s.appender) := by
  have last : (w.canOpen s.appender.m_filename = true →
      (s.appender.reopen w).2 = true ∧ decide (s.appender.reopen w).1.Usable = true) ↔
        (w.canOpen s.appender.m_filename = true → ¬ Stuck s.appender) := by
    constructor
    · intro well can
      exact (reopen_returned can).mp (well can).1
    · intro free can
      exact ⟨(reopen_returned can).mpr (free can), decide_eq_true ((reopen_usable can).mpr (free can))⟩
  unfold Recovers State.reopen
  simp only [List.mem_append, List.mem_singleton]
  constructor
  · rintro ⟨each, lines⟩
    refine ⟨⟨fun r member => each r (.inl member), lines⟩, last.mp ?_⟩
    exact each _ (.inr rfl)
  · rintro ⟨⟨each, lines⟩, free⟩
    refine ⟨?_, lines⟩
    rintro r (member | rfl)
    · exact each r member
    · exact last.mpr free

/-- A line goes into the file when the stream is usable and it can be written. -/
theorem print_file {text : Text} (usable : s.appender.Usable) (writes : w.writes = true) :
    (s.print w text).file = s.file ++ [text] := by
  simp [State.print, usable, writes]

/-- A line recorded behind a `reopen()`. -/
theorem recovers_line (s : State) (appender : FileLogAppender) (file : List Text) (l : Line) :
    Recovers { s with appender, file, lines := s.lines ++ [l] } ↔
      Recovers s ∧ (l.possible = true → l.written = true) := by
  unfold Recovers
  simp only [List.mem_append, List.mem_singleton]
  constructor
  · rintro ⟨each, all⟩
    exact ⟨⟨each, fun l member => all l (.inl member)⟩, all _ (.inr rfl)⟩
  · rintro ⟨⟨each, all⟩, last⟩
    refine ⟨each, ?_⟩
    rintro l (member | rfl)
    · exact all l member
    · exact last

/-- The step lemma. -/
theorem recovers_step (step : step s act = some t) : Recovers t ↔ Recovers s ∧ Free s act := by
  cases act with
  | reopen w =>
    cases step
    rw [recovers_reopen]
    simp [Free, Act.reopens]
  | log w level now text =>
    cases step
    by_cases passes : s.appender.m_level ≤ level
    · by_cases same : now = s.appender.m_lastTime
      · have free : Free s (.log w level now text) := by simp [Free, Act.reopens, same]
        have printed : s.log w level now text = s.print w text := by simp [State.log, passes, same]
        rw [printed]
        exact (and_iff_left free).symm
      · have free : Free s (.log w level now text) ↔
            (w.canOpen s.appender.m_filename = true → ¬ Stuck s.appender) := by
          simp [Free, Act.reopens, passes, same]
        rw [free, ← recovers_reopen, State.log, if_pos passes, if_neg same]
        refine Iff.trans (recovers_line (s.reopen w) _ _ _) (and_iff_left_of_imp fun recovers possible => ?_)
        -- the stream was not stuck, so the line goes into the file
        obtain ⟨can, writes⟩ := Bool.and_eq_true_iff.mp possible
        have can : w.canOpen s.appender.m_filename = true := can
        have usable := (reopen_usable can).mpr ((recovers_reopen.mp recovers).2 can)
        exact decide_eq_true (print_file usable writes)
    · have free : Free s (.log w level now text) := by simp [Free, Act.reopens, passes]
      simp [State.log, passes, free]

/-! ## Runs -/

/-- A new appender is not stuck. -/
theorem recovers_start (w : World) (m_level : Level) (m_filename : Text) :
    Recovers (.start w m_level m_filename) := by
  refine recovers_reopen.mpr ⟨⟨?_, ?_⟩, fun _ stuck => ?_⟩
  · intro r member
    cases member
  · intro l member
    cases member
  · exact absurd stuck.1 (by simp)

/-- **Main result**: a file appender recovers exactly in the runs that never reopen a file that
can be opened while the stream is open and in error. -/
theorem reopen_recovers (w : World) (m_level : Level) (m_filename : Text)
    (run : exec step (.start w m_level m_filename) acts = some s) :
    Recovers s ↔ Guarded step Free (.start w m_level m_filename) acts s :=
  Guarded.iff_of_step (recovers_start w m_level m_filename) (fun _ _ _ => recovers_step) run

/-- Nothing fails, and a file that can be opened or not. -/
def World.fine (canOpen : Bool) : World := ⟨true, fun _ => canOpen, true⟩

/-- The disk is full. -/
def World.full : World := ⟨false, fun _ => true, false⟩

/-- The file cannot be opened at first. -/
def openedLate : List Act :=
  [.log (.fine false) .info 1 "x".toList, .log (.fine true) .info 2 "y".toList]

theorem reopen_recovers_late : ∃ s, exec step (.start (.fine false) .debug "a".toList) openedLate = some s ∧
    s.file = ["y".toList] ∧ Recovers s := by
  obtain ⟨s, run, test⟩ := Guarded.of_any (show
    (execIf step Free (.start (.fine false) .debug "a".toList) openedLate).any
      (fun s => s.file == ["y".toList]) = true by decide)
  exact ⟨s, run.exec_eq, eq_of_beq test, (reopen_recovers _ _ _ run.exec_eq).mpr run⟩

/-- A line is not written, and the file is never reopened. -/
theorem not_reopen_recovers : ∃ s, exec step (.start (.fine true) .debug "a".toList)
      [.log .full .info 1 "x".toList, .log (.fine true) .info 2 "y".toList, .reopen (.fine true)] = some s ∧
    s.file = [] ∧ s.reopened.map Reopened.returned = [true, true, false, false] ∧ ¬ Recovers s := by
  refine ⟨_, rfl, by decide, by decide, ?_⟩
  rintro ⟨each, -⟩
  have last := each ⟨true, false, false⟩ (by decide) rfl
  cases last.1

end Atpdxy.Log.Reopen
