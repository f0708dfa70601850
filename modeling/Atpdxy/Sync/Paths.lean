import Atpdxy.Run.Locks

/-!
# The locks each operation takes

The operations of the library as programs over its locks (`config.h`,
`config.cpp`, `log.cpp`, `scheduler.cpp`, `thread.cpp`). What an operation reads
on its way, such as levels, lists and values, is an argument, so each case of it
is a program; a lock object that is released early or by unwinding is a scope.
-/

namespace Atpdxy.Sync

open Run.Locks

abbrev VarId := Nat
abbrev AppenderId := Nat

inductive Lock
  /-- `Scheduler::m_mutex` -/
  | scheduler (s : Nat)
  /-- `Config::GetMutex()` -/
  | config
  /-- `ConfigVar::m_mutex` -/
  | var (v : VarId)
  /-- `LoggerManager::m_mutex` -/
  | manager
  /-- `Logger::m_mutex`, of the root logger and of the others -/
  | root
  | logger (l : Nat)
  /-- `LogAppender::m_mutex` -/
  | appender (a : AppenderId)
  deriving DecidableEq, Repr

abbrev Path := Prog Lock

/-- `MutexType::Lock lock(l);` and the rest of the block. -/
def mutex (l : Lock) (body : Path) : Path := .locked l .write body

def when (c : Bool) (p : Path) : Path := if c then p else .skip

/-! ## Appenders -/

def LogAppender.getFormatter (a : AppenderId) : Path := mutex (.appender a) .skip
def LogAppender.setFormatter (a : AppenderId) : Path := mutex (.appender a) .skip
def LogAppender.toYamlString (a : AppenderId) : Path := mutex (.appender a) .skip
def FileLogAppender.reopen (a : AppenderId) : Path := mutex (.appender a) .skip

/-- An appender that is handed an event: whether the level lets it pass, and
whether a file is opened again. -/
structure Writing where
  appender : AppenderId
  passes : Bool
  reopens : Bool

/-- `StdoutLogAppender::log` and, where `reopens` may be, `FileLogAppender::log`. -/
def LogAppender.log (w : Writing) : Path :=
  when w.passes (.seq (when w.reopens (FileLogAppender.reopen w.appender)) (mutex (.appender w.appender) .skip))

/-! ## Loggers -/

inductive LoggerId
  | root
  | named (l : Nat)

def LoggerId.lock : LoggerId → Lock
  | .root => .root
  | .named l => .logger l

/-- What `Logger::log` finds: whether the level lets the event pass, and the appenders. -/
structure Finds where
  passes : Bool
  appenders : List Writing

/-- `Logger::log` in the root logger. Without an appender it ends at a null pointer. -/
def Logger.logRoot (f : Finds) : Path := when f.passes (mutex .root (.all (f.appenders.map LogAppender.log)))

/-- `Logger::log`; `root` is what the root logger finds. -/
def Logger.log (f root : Finds) : LoggerId → Path
  | .root => Logger.logRoot f
  | .named l => when f.passes (mutex (.logger l)
      (if f.appenders.isEmpty then Logger.logRoot root else .all (f.appenders.map LogAppender.log)))

/-- A line of one of the macros: `~LogEventWrap` logs it. -/
structure Line where
  logger : LoggerId
  finds : Finds
  root : Finds

def Line.log (line : Line) : Path := Logger.log line.finds line.root line.logger

def Line.logAll (lines : List Line) : Path := .all (lines.map Line.log)

/-- `fills` when the appender has no formatter. -/
def Logger.addAppender (l : LoggerId) (a : AppenderId) (fills : Bool) : Path :=
  mutex l.lock (.seq (LogAppender.getFormatter a) (when fills (mutex (.appender a) .skip)))

def Logger.delAppender (l : LoggerId) : Path := mutex l.lock .skip

/-- Takes no lock. -/
def Logger.clearAppenders : Path := .skip

/-- `setFormatter(ptr)`, with the appenders that inherit. -/
def Logger.setFormatterPtr (l : LoggerId) (inheriting : List AppenderId) : Path :=
  mutex l.lock (.all (inheriting.map fun a => mutex (.appender a) .skip))

/-- `setFormatter(string)`; none is a pattern with an error. -/
def Logger.setFormatter (l : LoggerId) : Option (List AppenderId) → Path
  | none => .skip
  | some inheriting => Logger.setFormatterPtr l inheriting

def Logger.getFormatter (l : LoggerId) : Path := mutex l.lock .skip

def Logger.toYamlString (l : LoggerId) (appenders : List AppenderId) : Path :=
  mutex l.lock (.all (appenders.map LogAppender.toYamlString))

def LoggerManager.getLogger : Path := mutex .manager .skip

def LoggerManager.toYamlString (loggers : List (LoggerId × List AppenderId)) : Path :=
  mutex .manager (.all (loggers.map fun l => Logger.toYamlString l.1 l.2))

/-! ## Variables -/

/-- The listener of `logs` on an appender it makes. -/
structure NewAppender where
  appender : AppenderId
  file : Bool
  own : Bool

/-- The listener of `logs` on a definition. -/
structure Configure where
  logger : LoggerId
  formatter : Option (List AppenderId)
  appenders : List NewAppender

/-- A run of the listener: its line, the definitions, and how many names have gone. -/
structure Listener where
  line : Line
  configured : List Configure
  removed : Nat

def NewAppender.run (l : LoggerId) (a : NewAppender) : Path :=
  .all [when a.file (FileLogAppender.reopen a.appender), when a.own (LogAppender.setFormatter a.appender),
    Logger.addAppender l a.appender (!a.own)]

def Configure.run (c : Configure) : Path :=
  .all [LoggerManager.getLogger, Logger.setFormatter c.logger c.formatter, Logger.clearAppenders,
    .all (c.appenders.map (NewAppender.run c.logger))]

def Listener.run (listener : Listener) : Path :=
  .all [listener.line.log, .all (listener.configured.map Configure.run),
    .all (List.replicate listener.removed (.seq LoggerManager.getLogger Logger.clearAppenders))]

def ConfigVar.getValue (v : VarId) : Path := .locked (.var v) .read .skip

/-- The line is that of an exception, after the lock. -/
def ConfigVar.toString (v : VarId) (failed : Option Line) : Path :=
  .seq (.locked (.var v) .read .skip) (Line.logAll failed.toList)

/-- `setValue`, with the runs of the listener if the value differs. -/
def ConfigVar.setValue (v : VarId) : Option (List Listener) → Path
  | none => .locked (.var v) .read .skip
  | some listeners => .seq (.locked (.var v) .read (.all (listeners.map Listener.run))) (mutex (.var v) .skip)

/-- None is a text that is not a value. -/
def ConfigVar.fromString (v : VarId) (set : Option (Option (List Listener))) (failed : Option Line) : Path :=
  .seq (set.elim .skip (ConfigVar.setValue v)) (Line.logAll failed.toList)

def ConfigVar.addListener (v : VarId) : Path := mutex (.var v) .skip
def ConfigVar.delListener (v : VarId) : Path := mutex (.var v) .skip
def ConfigVar.getListener (v : VarId) : Path := .locked (.var v) .read .skip
def ConfigVar.clearListener (v : VarId) : Path := mutex (.var v) .skip

/-! ## The registry -/

/-- How `Lookup` with a default goes. The line of a mismatch prints the variable. -/
inductive Looked
  | found (line : Line)
  | mismatch (shown : Option (VarId × Option Line)) (line : Line)
  | invalid (line : Line)
  | created

def Looked.path : Looked → Path
  | .found line => line.log
  | .mismatch shown line => .seq (shown.elim .skip fun s => ConfigVar.toString s.1 s.2) line.log
  | .invalid line => line.log
  | .created => .skip

def Config.lookupOr (looked : Looked) : Path := mutex .config looked.path
def Config.lookup : Path := .locked .config .read .skip
def Config.lookupBase : Path := .locked .config .read .skip

/-- A key of `LoadFromYaml`, with the call of `fromString` if there is a variable. -/
structure Loaded where
  var : Option (VarId × Option (Option (List Listener)) × Option Line)

def Loaded.path (l : Loaded) : Path :=
  .seq Config.lookupBase (l.var.elim .skip fun v => ConfigVar.fromString v.1 v.2.1 v.2.2)

/-- The lines are those of `ListAllMember`. -/
def Config.loadFromYaml (lines : List Line) (keys : List Loaded) : Path :=
  .seq (Line.logAll lines) (.all (keys.map Loaded.path))

/-- What a callback of `Visit` does that only reads variables and logs. -/
inductive Reading : Path → Prop
  | none : Reading .skip
  | seq {p q : Path} : Reading p → Reading q → Reading (.seq p q)
  | getValue (v : VarId) : Reading (ConfigVar.getValue v)
  | toString (v : VarId) (failed : Option Line) : Reading (ConfigVar.toString v failed)
  | getListener (v : VarId) : Reading (ConfigVar.getListener v)
  | getLogger : Reading LoggerManager.getLogger
  | log (line : Line) : Reading line.log

/-- The callback on each variable. -/
def Config.visit (cbs : List Path) : Path := .locked .config .read (.all cbs)

/-! ## The scheduler -/

/-- `start`, with the lines of its assertion and of a `pthread_create` that fails;
each new thread runs its path once it has notified the constructor. -/
def Scheduler.start (s : Nat) (asserts : Option Line) (threads : List Path) (failed : Option Line) : Path :=
  mutex (.scheduler s)
    (.all [Line.logAll asserts.toList, .all (threads.map .spawn), Line.logAll failed.toList])

/-- The line is that of `tickle`. -/
def Scheduler.schedule (s : Nat) (tickle : Option Line) : Path :=
  .seq (mutex (.scheduler s) .skip) (Line.logAll tickle.toList)

def Scheduler.stopping (s : Nat) : Path := mutex (.scheduler s) .skip

/-- The section of `run` that takes a task, with the lines of its assertion. -/
def Scheduler.take (s : Nat) (asserts : List Line) : Path := mutex (.scheduler s) (Line.logAll asserts)

/-- Any finite sequence of operations, by the thread of the program or by a new one. -/
inductive Operations : Path → Prop
  | none : Operations .skip
  | seq {p q : Path} : Operations p → Operations q → Operations (.seq p q)
  | lookupOr (looked : Looked) : Operations (Config.lookupOr looked)
  | lookup : Operations Config.lookup
  | lookupBase : Operations Config.lookupBase
  | loadFromYaml (lines : List Line) (keys : List Loaded) : Operations (Config.loadFromYaml lines keys)
  | visit {cbs : List Path} : (∀ cb ∈ cbs, Reading cb) → Operations (Config.visit cbs)
  | getValue (v : VarId) : Operations (ConfigVar.getValue v)
  | toString (v : VarId) (failed : Option Line) : Operations (ConfigVar.toString v failed)
  | setValue (v : VarId) (listeners : Option (List Listener)) : Operations (ConfigVar.setValue v listeners)
  | fromString (v : VarId) (set : Option (Option (List Listener))) (failed : Option Line) :
      Operations (ConfigVar.fromString v set failed)
  | addListener (v : VarId) : Operations (ConfigVar.addListener v)
  | delListener (v : VarId) : Operations (ConfigVar.delListener v)
  | getListener (v : VarId) : Operations (ConfigVar.getListener v)
  | clearListener (v : VarId) : Operations (ConfigVar.clearListener v)
  | getLogger : Operations LoggerManager.getLogger
  | managerToYamlString (loggers : List (LoggerId × List AppenderId)) :
      Operations (LoggerManager.toYamlString loggers)
  | log (line : Line) : Operations line.log
  | addAppender (l : LoggerId) (a : AppenderId) (fills : Bool) : Operations (Logger.addAppender l a fills)
  | delAppender (l : LoggerId) : Operations (Logger.delAppender l)
  | clearAppenders : Operations Logger.clearAppenders
  | setFormatterPtr (l : LoggerId) (inheriting : List AppenderId) : Operations (Logger.setFormatterPtr l inheriting)
  | setFormatter (l : LoggerId) (inheriting : Option (List AppenderId)) :
      Operations (Logger.setFormatter l inheriting)
  | getFormatter (l : LoggerId) : Operations (Logger.getFormatter l)
  | toYamlString (l : LoggerId) (appenders : List AppenderId) : Operations (Logger.toYamlString l appenders)
  | appenderLog (w : Writing) : Operations (LogAppender.log w)
  | appenderGetFormatter (a : AppenderId) : Operations (LogAppender.getFormatter a)
  | appenderSetFormatter (a : AppenderId) : Operations (LogAppender.setFormatter a)
  | appenderToYamlString (a : AppenderId) : Operations (LogAppender.toYamlString a)
  | reopen (a : AppenderId) : Operations (FileLogAppender.reopen a)
  | start (s : Nat) (asserts : Option Line) {threads : List Path} (failed : Option Line) :
      (∀ p ∈ threads, Operations p) → Operations (Scheduler.start s asserts threads failed)
  | schedule (s : Nat) (tickle : Option Line) : Operations (Scheduler.schedule s tickle)
  | stopping (s : Nat) : Operations (Scheduler.stopping s)
  | take (s : Nat) (asserts : List Line) : Operations (Scheduler.take s asserts)

end Atpdxy.Sync
