import Atpdxy.Log.Reopen
import Atpdxy.Sync.Mutex

/-!
# Threads that write to one logger

`Logger::log` behind the comparison with the level, `addAppender` and `delAppender`, under
the spinlock of the logger and statement by statement. The events have one order: each
appender writes the lines of those that come while it is in the list, whole and in that
order (`appenders_agree`), and to a file appender it is a run of it alone. The appenders
are in the list of no other logger.
-/

namespace Atpdxy.Log.Order

open Run Run.Sections
open Reopen (World)

/-- An event as an appender finds it: the line that its formatter makes of it, and what the system does
meanwhile. -/
structure Line where
  level : Level
  text : Text
  /-- `time(0)` -/
  now : Nat
  world : World

/-- A `LogEvent` that is handed to `log`, with its line for each place in the list. -/
structure Event where
  level : Level
  text : Nat → Text
  now : Nat → Nat
  world : Nat → World

def Event.line (e : Event) (n : Nat) : Line := ⟨e.level, e.text n, e.now n, e.world n⟩

/-- An appender, with what it has written. -/
inductive Sink
  | stdout (m_level : Level) (lines : List Text)
  | file (s : Reopen.State)

/-- The list of a logger, and the appenders there are. A `LogAppender::ptr` is the number of the object. -/
structure Appenders where
  m_appenders : List Nat
  heap : Nat → Sink

def Appenders.write (d : Appenders) (ptr : Nat) (f : Sink → Sink) : Appenders :=
  { d with heap := Function.update d.heap ptr (f (d.heap ptr)) }

/-- `std::cout << text`. -/
def Sink.print (text : Text) : Sink → Sink
  | .stdout level lines => .stdout level (lines ++ [text])
  | .file s => .file s

def Sink.onFile (f : Reopen.State → Reopen.State) : Sink → Sink
  | .stdout level lines => .stdout level lines
  | .file s => .file (f s)

/-- `m_lastTime = now`. -/
def setLastTime (now : Nat) (s : Reopen.State) : Reopen.State :=
  { s with appender := { s.appender with m_lastTime := now } }

/-- The line behind a `reopen()`, recorded. -/
def printNew (l : Line) (s : Reopen.State) : Reopen.State :=
  let printed := s.print l.world l.text
  { printed with
    lines := s.lines ++ [⟨l.world.canOpen s.appender.m_filename && l.world.writes, printed.file = s.file ++ [l.text]⟩] }

/-- How a call ends; an event that finds no appender is handed to the root logger. -/
inductive Ends
  | returned | root
  deriving DecidableEq, Repr

/-- `StdoutLogAppender::log` and `FileLogAppender::log`. -/
def appenderLog (l : Line) (ptr : Nat) (k : Body Appenders Ends) : Body Appenders Ends :=
  .get fun d =>
    match d.heap ptr with
    | .stdout level _ => if level ≤ l.level then .put (fun d => d.write ptr (.print l.text)) k else k
    | .file s =>
      if s.appender.m_level ≤ l.level then
        if l.now = s.appender.m_lastTime then .put (fun d => d.write ptr (.onFile (.print l.world l.text))) k
        else
          .put (fun d => d.write ptr (.onFile (.reopen l.world))) <|
          .put (fun d => d.write ptr (.onFile (setLastTime l.now))) <|
          .put (fun d => d.write ptr (.onFile (printNew l))) k
      else k

/-- The loop over the appenders, from a place on. -/
def loop (e : Event) : Nat → List Nat → Body Appenders Ends
  | _, [] => .done .returned
  | n, ptr :: rest => appenderLog (e.line n) ptr (loop e (n + 1) rest)

inductive Call
  | log (e : Event)
  | addAppender (ptr : Nat)
  | delAppender (ptr : Nat)

/-- `Logger::log`, `addAppender`, `delAppender`. -/
def ops : Call → Sections.Op Appenders Ends
  | .log e => .exclusive <| .get fun d => if d.m_appenders.isEmpty then .done .root else loop e 0 d.m_appenders
  | .addAppender ptr => .exclusive <|
    .put (fun d => { d with m_appenders := d.m_appenders ++ [ptr] }) <| .done .returned
  | .delAppender ptr => .exclusive <|
    .put (fun d => { d with m_appenders := d.m_appenders.erase ptr }) <| .done .returned

/-! ## One call alone -/

/-- What a line makes of an appender. -/
def Sink.log (l : Line) : Sink → Sink
  | .stdout level lines => .stdout level (if level ≤ l.level then lines ++ [l.text] else lines)
  | .file s => .file (s.log l.world l.level l.now l.text)

/-- The places of an appender in a list, counted from a place on. -/
def places (ptr : Nat) : Nat → List Nat → List Nat
  | _, [] => []
  | n, other :: rest => if other = ptr then n :: places ptr (n + 1) rest else places ptr (n + 1) rest

/-- The list after a call. -/
def Call.list : Call → List Nat → List Nat
  | .log _, list => list
  | .addAppender ptr, list => list ++ [ptr]
  | .delAppender ptr, list => list.erase ptr

/-- The lines that a call hands to an appender. -/
def Call.lines (ptr : Nat) : Call → List Nat → List Line
  | .log e, list => (places ptr 0 list).map e.line
  | _, _ => []

/-- The lines an appender is handed by calls one after the other. -/
def heard (ptr : Nat) : List Nat → List Call → List Line
  | _, [] => []
  | list, c :: calls => c.lines ptr list ++ heard ptr (c.list list) calls

variable {d : Appenders} {l : Line} {ptr : Nat} {e : Event} {s : Reopen.State} {k : Body Appenders Ends}

theorem write_write (d : Appenders) (ptr : Nat) (f g : Sink → Sink) :
    (d.write ptr f).write ptr g = d.write ptr (g ∘ f) := by
  simp [Appenders.write]

/-- The three statements of a new second are `log`. -/
theorem printNew_eq (passes : s.appender.m_level ≤ l.level) (new : l.now ≠ s.appender.m_lastTime) :
    printNew l (setLastTime l.now (s.reopen l.world)) = s.log l.world l.level l.now l.text := by
  rw [Reopen.State.log, if_pos passes, if_neg new]
  rfl

theorem run_appenderLog : (appenderLog l ptr k).run d = k.run (d.write ptr (.log l)) := by
  have same : ∀ f : Sink → Sink, f (d.heap ptr) = (d.heap ptr).log l → d.write ptr f = d.write ptr (.log l) := by
    intro f eq
    rw [Appenders.write, Appenders.write, eq]
  have kept : (d.heap ptr).log l = d.heap ptr → d.write ptr (.log l) = d := by
    intro eq
    rw [Appenders.write, eq, Function.update_eq_self]
  rw [appenderLog, Body.run_get]
  cases there : d.heap ptr with
  | stdout level lines =>
    dsimp only
    split
    · rename_i passes
      rw [Body.run_put, same]
      rw [there, Sink.log, if_pos passes]
      rfl
    · rename_i drops
      rw [kept]
      rw [there, Sink.log, if_neg drops]
  | file s =>
    dsimp only
    split
    · rename_i passes
      split
      · rename_i now
        rw [Body.run_put, same]
        rw [there, Sink.log, Reopen.State.log, if_pos passes, if_pos now]
        rfl
      · rename_i new
        rw [Body.run_put, Body.run_put, Body.run_put, write_write, write_write, same]
        rw [there, Sink.log, ← printNew_eq passes new]
        rfl
    · rename_i drops
      rw [kept]
      rw [there, Sink.log, Reopen.State.log, if_neg drops]

/-- The loop over a list, without its steps. -/
def Appenders.visit (e : Event) : Nat → List Nat → Appenders → Appenders
  | _, [], d => d
  | n, ptr :: rest, d => (d.write ptr (.log (e.line n))).visit e (n + 1) rest

theorem run_loop (e : Event) (n : Nat) (list : List Nat) (d : Appenders) :
    (loop e n list).run d = (d.visit e n list, .returned) := by
  induction list generalizing n d with
  | nil => rfl
  | cons ptr rest ih =>
    rw [loop, run_appenderLog, ih]
    rfl

theorem visit_m_appenders (e : Event) (n : Nat) (list : List Nat) (d : Appenders) :
    (d.visit e n list).m_appenders = d.m_appenders := by
  induction list generalizing n d with
  | nil => rfl
  | cons ptr rest ih => exact ih (n + 1) _

/-- An appender is handed its line for each of its places. -/
theorem visit_heap (e : Event) (n : Nat) (list : List Nat) (d : Appenders) (ptr : Nat) :
    (d.visit e n list).heap ptr = ((places ptr n list).map e.line).foldl (fun s l => s.log l) (d.heap ptr) := by
  induction list generalizing n d with
  | nil => rfl
  | cons other rest ih =>
    rw [Appenders.visit, ih, places]
    by_cases here : other = ptr
    · subst here
      simp [Appenders.write]
    · simp [Appenders.write, here, Ne.symm here]

/-- What a call does, alone: the list, the lines for each appender, and how it ends. -/
theorem run_call (c : Call) (d : Appenders) :
    ((ops c).body.run d).1.m_appenders = c.list d.m_appenders ∧
      (∀ ptr, ((ops c).body.run d).1.heap ptr = (c.lines ptr d.m_appenders).foldl (fun s l => s.log l) (d.heap ptr)) ∧
      (((ops c).body.run d).2 = .root ↔ ∃ e, c = .log e ∧ d.m_appenders = []) := by
  cases c with
  | log e =>
    by_cases empty : d.m_appenders = []
    · simp [ops, Sections.Op.exclusive, empty, Call.list, Call.lines, places]
    · simp [ops, Sections.Op.exclusive, empty, Call.list, Call.lines, run_loop, visit_m_appenders, visit_heap]
  | addAppender ptr => simp [ops, Sections.Op.exclusive, Call.list, Call.lines]
  | delAppender ptr => simp [ops, Sections.Op.exclusive, Call.list, Call.lines]

/-! ## Lines one after the other -/

/-- A line is written. -/
def Line.Passes (level : Level) (l : Line) : Bool := level ≤ l.level

/-- What an appender on the standard output has printed. -/
theorem foldl_stdout (level : Level) (lines : List Text) (more : List Line) :
    more.foldl (fun s l => s.log l) (Sink.stdout level lines) =
      .stdout level (lines ++ (more.filter (Line.Passes level)).map Line.text) := by
  induction more generalizing lines with
  | nil => simp
  | cons l more ih =>
    rw [List.foldl_cons, Sink.log, ih]
    by_cases passes : level ≤ l.level <;> simp [Line.Passes, passes]

def Line.act (l : Line) : Reopen.Act := .log l.world l.level l.now l.text

/-- To a file appender they are a run. -/
theorem foldl_file (s : Reopen.State) (more : List Line) :
    ∃ s', more.foldl (fun s l => s.log l) (Sink.file s) = .file s' ∧
      exec Reopen.step s (more.map Line.act) = some s' := by
  induction more generalizing s with
  | nil => exact ⟨s, rfl, rfl⟩
  | cons l more ih =>
    obtain ⟨s', file, ran⟩ := ih (s.log l.world l.level l.now l.text)
    exact ⟨s', file, ran⟩

/-- The file system does what is asked for. -/
def Line.Fine (filename : Text) (l : Line) : Prop :=
  l.world.flushes = true ∧ l.world.canOpen filename = true ∧ l.world.writes = true

theorem print_fine {w : World} {text : Text} (usable : s.appender.Usable) (writes : w.writes = true) :
    s.print w text = { s with file := s.file ++ [text] } := by
  obtain ⟨⟨level, filename, ⟨isOpen, fail⟩, last⟩, file, reopened, lines⟩ := s
  obtain ⟨rfl, rfl⟩ : isOpen = true ∧ fail = false := usable
  simp [Reopen.State.print, Reopen.Stream.write, Reopen.FileLogAppender.Usable, writes]

theorem log_fine (usable : s.appender.Usable) (fine : l.Fine s.appender.m_filename) :
    (s.log l.world l.level l.now l.text).appender.Usable ∧
      (s.log l.world l.level l.now l.text).appender.m_filename = s.appender.m_filename ∧
      (s.log l.world l.level l.now l.text).appender.m_level = s.appender.m_level ∧
      (s.log l.world l.level l.now l.text).file =
        s.file ++ if s.appender.m_level ≤ l.level then [l.text] else [] := by
  obtain ⟨flushes, canOpen, writes⟩ := fine
  by_cases passes : s.appender.m_level ≤ l.level
  · by_cases now : l.now = s.appender.m_lastTime
    · rw [Reopen.State.log, if_pos passes, if_pos now, if_pos passes, print_fine usable writes]
      exact ⟨usable, rfl, rfl, rfl⟩
    · have free : ¬ Reopen.Stuck s.appender := fun stuck => by
        rw [Reopen.FileLogAppender.Usable, stuck.2] at usable
        cases usable.2
      have again : (setLastTime l.now (s.reopen l.world)).appender.Usable := (Reopen.reopen_usable canOpen).mpr free
      rw [← printNew_eq passes now, if_pos passes, printNew, print_fine again writes]
      exact ⟨again, rfl, rfl, rfl⟩
  · rw [Reopen.State.log, if_neg passes, if_neg passes, List.append_nil]
    exact ⟨usable, rfl, rfl, rfl⟩

/-- Then a file gets all its lines. -/
theorem exec_file {s' : Reopen.State} {more : List Line} (usable : s.appender.Usable)
    (fine : ∀ l ∈ more, l.Fine s.appender.m_filename) (ran : exec Reopen.step s (more.map Line.act) = some s') :
    s'.file = s.file ++ (more.filter (Line.Passes s.appender.m_level)).map Line.text := by
  induction more generalizing s with
  | nil =>
    cases ran
    simp
  | cons l more ih =>
    obtain ⟨still, filename, level, file⟩ := log_fine usable (fine l List.mem_cons_self)
    have rest := ih still (fun l' member => by rw [filename]; exact fine l' (List.mem_cons_of_mem l member)) ran
    rw [rest, file, level]
    by_cases passes : s.appender.m_level ≤ l.level <;> simp [Line.Passes, passes]

/-! ## All threads together -/

/-- The list after calls. -/
def listAfter (list : List Nat) (calls : List Call) : List Nat := calls.foldl (fun list c => c.list list) list

theorem heard_snoc (ptr : Nat) (list : List Nat) (calls : List Call) (c : Call) :
    heard ptr list (calls ++ [c]) = heard ptr list calls ++ c.lines ptr (listAfter list calls) := by
  induction calls generalizing list with
  | nil => simp [heard, listAfter]
  | cons c' calls ih =>
    rw [List.cons_append, heard, heard, ih, List.append_assoc, listAfter, listAfter, List.foldl_cons]

variable {ι : Type} {start : Appenders} {log : List (Entry ι Call Ends)}

/-- What calls leave, when they are made one at a time. -/
theorem list_of_replays (replays : Replays ops start log d) :
    d.m_appenders = listAfter start.m_appenders (log.map Entry.call) ∧
      ∀ ptr, d.heap ptr =
        (heard ptr start.m_appenders (log.map Entry.call)).foldl (fun s l => s.log l) (start.heap ptr) := by
  induction replays with
  | nil => exact ⟨rfl, fun ptr => rfl⟩
  | @snoc log d d' entry before last ih =>
    obtain ⟨listBefore, heapBefore⟩ := ih
    obtain ⟨list, heap, -⟩ := run_call entry.call d
    rw [last] at list heap
    refine ⟨?_, fun ptr => ?_⟩
    · rw [list, listBefore, List.map_append, listAfter, listAfter, List.foldl_append]
      rfl
    · rw [heap, heapBefore, listBefore, List.map_append, List.map_singleton, heard_snoc, List.foldl_append]

/-- An event goes to the root logger when it finds no appender. -/
theorem ends_of_replays {pre post : List (Entry ι Call Ends)} {entry : Entry ι Call Ends}
    (replays : Replays ops start (pre ++ entry :: post) d) :
    entry.result = .root ↔ ∃ e, entry.call = .log e ∧ listAfter start.m_appenders (pre.map Entry.call) = [] := by
  obtain ⟨d₁, before, result⟩ := replays.result
  obtain ⟨-, -, ends⟩ := run_call entry.call d₁
  rw [← result, ends, (list_of_replays before).1]

/-- What the appenders have written, against an order of the calls. -/
structure Written (start : Appenders) (log : List (Entry ι Call Ends)) (d : Appenders) : Prop where
  list : d.m_appenders = listAfter start.m_appenders (log.map Entry.call)
  stdout : ∀ ptr level lines, start.heap ptr = .stdout level lines → d.heap ptr = .stdout level (lines ++
    ((heard ptr start.m_appenders (log.map Entry.call)).filter (Line.Passes level)).map Line.text)
  file : ∀ ptr s, start.heap ptr = .file s → ∃ s', d.heap ptr = .file s' ∧
    exec Reopen.step s ((heard ptr start.m_appenders (log.map Entry.call)).map Line.act) = some s' ∧
    (s.appender.Usable → (∀ l ∈ heard ptr start.m_appenders (log.map Entry.call), l.Fine s.appender.m_filename) →
      s'.file = s.file ++
        ((heard ptr start.m_appenders (log.map Entry.call)).filter (Line.Passes s.appender.m_level)).map Line.text)
  root : ∀ pre entry post, log = pre ++ entry :: post →
    (entry.result = .root ↔ ∃ e, entry.call = .log e ∧ listAfter start.m_appenders (pre.map Entry.call) = [])

theorem Written.of_replays (replays : Replays ops start log d) : Written start log d := by
  obtain ⟨list, heap⟩ := list_of_replays replays
  refine ⟨list, fun ptr level lines there => ?_, fun ptr s there => ?_, fun pre entry post same => ?_⟩
  · rw [heap, there, foldl_stdout]
  · obtain ⟨s', file, ran⟩ := foldl_file s (heard ptr start.m_appenders (log.map Entry.call))
    exact ⟨s', by rw [heap, there, file], ran, fun usable fine => exec_file usable fine ran⟩
  · subst same
    exact ends_of_replays replays

/-- **Main result**: however the calls of the threads are interleaved, there is one order of them that all appenders
go by, in which each call has its place once, before those that begin when it has ended. An appender on the standard
output has printed the lines of that order which come while it is in the list and pass its level; to a file
appender they are a run, with all of them in the file if the file system does what is asked for. -/
theorem appenders_agree [DecidableEq ι] (as : List (Sections.Act ι Call))
    (s : Sections.State (Sync.LockClass.spinlock.lock (ι := ι)) Call Appenders Ends)
    (run : exec (Sections.step Sync.LockClass.spinlock.lock ops) { data := start } as = some s) :
    (∃ d, Written start s.log d ∧ ((∀ t, s.phases t = .idle) → s.data = d ∧
      (s.log.map fun e => (e.party, e.call)).Perm (as.flatMap Sections.Act.called))) ∧
    ∀ more s', exec (Sections.step Sync.LockClass.spinlock.lock ops) s more = some s' → s.log <+: s'.log := by
  classical
  obtain ⟨d, replays, data⟩ := linearizable run
  exact ⟨⟨d, .of_replays replays, fun idle => ⟨data (not_holding idle), log_perm run idle⟩⟩,
    fun more s' later => log_prefix later⟩

/-- An event with one line for all appenders, in a second and a world where nothing fails. -/
def plainEvent (text : Text) (now : Nat) : Event := ⟨.info, fun _ => text, fun _ => now, fun _ => .fine true⟩

/-- A logger with the standard output and a file, of which the second is not in the list yet. -/
def twoSinks : Appenders where
  m_appenders := [0]
  heap ptr := if ptr = 0 then .stdout .debug [] else .file (.start (.fine true) .debug "log.txt".toList)

/-- A file is added while another thread logs, and gets the next line. -/
def addedBetween : List (Sections.Act Bool Call) :=
  [.call true (.log (plainEvent "x".toList 1)), .next true, .call false (.addAppender 1)] ++
    List.replicate 4 (.next true) ++ List.replicate 3 (.next false) ++
    [.call true (.log (plainEvent "y".toList 1))] ++ List.replicate 9 (.next true)

theorem appenders_agree_addedBetween :
    ∃ (s : Sections.State (Sync.LockClass.spinlock.lock (ι := Bool)) Call Appenders Ends) (d : Appenders),
      exec (Sections.step Sync.LockClass.spinlock.lock ops) { data := twoSinks } addedBetween = some s ∧
      s.log.map Entry.party = [true, false, true] ∧ Written twoSinks s.log d := by
  obtain ⟨s, run, test⟩ := exec_of_any (show (exec (Sections.step Sync.LockClass.spinlock.lock ops)
    ({ data := twoSinks } : Sections.State (Sync.LockClass.spinlock.lock (ι := Bool)) Call Appenders Ends)
      addedBetween).any (fun s => s.log.map Entry.party = [true, false, true]) = true from by decide)
  obtain ⟨⟨d, written, -⟩, -⟩ := appenders_agree addedBetween s run
  exact ⟨s, d, run, by simpa using test, written⟩

end Atpdxy.Log.Order
