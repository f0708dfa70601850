import Atpdxy.Log.Define
import Atpdxy.Log.Pattern
import Atpdxy.Run.Guarded

/-!
# Loggers, their manager and the listener of `logs`

`Logger`, `LoggerManager` and the on-change listener of `LogIniter` (`log.cpp`).
What the listener does to one logger is a sequence of calls of the logger's
interface (`LoggerCall`), so that a run in which other threads log in between
can be put together from the same calls.

`m_root` is null in the root logger and the root logger in all others:
`getLogger` sets it, and the root logger is never made there.
-/

namespace Atpdxy.Log

/-! ## Appenders -/

/-- `FileLogAppender` with its file name, or `StdoutLogAppender`. -/
inductive AppenderKind
  | file (filename : Text)
  | stdout
  deriving DecidableEq, Repr

structure Appender where
  kind : AppenderKind
  level : Level := .debug
  formatter : Option LogFormatter := none
  hasFormatter : Bool := false
  deriving DecidableEq, Repr

/-- `LogAppender::setFormatter`. -/
def Appender.setFormatter (a : Appender) (val : Option LogFormatter) : Appender :=
  { a with formatter := val, hasFormatter := val.isSome }

/-- The pattern `formatter` of a definition is used: it is not empty and has no error. -/
def valid (formatter : Text) : Bool := !formatter.isEmpty && !(LogFormatter.init formatter).isError

/-- The appender the listener makes of its definition. -/
def LogAppenderDefine.build (a : LogAppenderDefine) : Appender :=
  let ap : Appender := { kind := if a.type = 1 then .file a.file else .stdout, level := a.level }
  if valid a.formatter then ap.setFormatter (some (.init a.formatter)) else ap

/-! ## A logger -/

structure Logger where
  name : Text
  level : Level
  appenders : List Appender
  formatter : LogFormatter
  deriving DecidableEq, Repr

/-- The pattern of the constructor of `Logger`. -/
def defaultPattern : Text := "%d{%Y-%m-%d %H:%M:%S}%T%t%T%N%T%F%T[%p]%T[%c]%T%f:%l%T%m%n".toList

/-- The constructor. -/
def Logger.new (name : Text) : Logger where
  name
  level := .debug
  appenders := []
  formatter := .init defaultPattern

/-- The calls of a logger's interface the listener makes. -/
inductive LoggerCall
  | setLevel (level : Level)
  | setFormatter (val : Text)
  | clearAppenders
  | addAppender (appender : Appender)
  deriving DecidableEq, Repr

/-- `Logger::addAppender`. -/
def Logger.addAppender (l : Logger) (appender : Appender) : Logger :=
  let appender := if appender.formatter.isNone then { appender with formatter := some l.formatter } else appender
  { l with appenders := l.appenders ++ [appender] }

/-- `Logger::setFormatter(ptr)`: appenders without a formatter of their own follow. -/
def Logger.setFormatterPtr (l : Logger) (val : LogFormatter) : Logger :=
  { l with
    formatter := val
    appenders := l.appenders.map fun a => if a.hasFormatter then a else { a with formatter := some val } }

/-- `Logger::setFormatter(string)`; a pattern with an error changes nothing. -/
def Logger.setFormatter (l : Logger) (val : Text) : Logger :=
  if (LogFormatter.init val).isError then l else l.setFormatterPtr (.init val)

def Logger.call (l : Logger) : LoggerCall → Logger
  | .setLevel level => { l with level }
  | .setFormatter val => l.setFormatter val
  | .clearAppenders => { l with appenders := [] }
  | .addAppender appender => l.addAppender appender

/-- `Logger::log`: the appenders that write the event. `root` is what logging
through `m_root` gives; none is a call through a null pointer. -/
def Logger.log (root : Option (List Appender)) (l : Logger) (level : Level) : Option (List Appender) :=
  if l.level ≤ level then
    if l.appenders.isEmpty then root else some (l.appenders.filter fun a => a.level ≤ level)
  else some []

/-! ## The manager -/

/-- `LoggerManager`; `m_loggers` is `root` at "root" and `loggers` elsewhere. -/
structure LoggerManager where
  root : Logger
  loggers : Text → Option Logger

def rootName : Text := "root".toList

/-- The constructor. -/
def LoggerManager.new : LoggerManager where
  root := (Logger.new rootName).addAppender { kind := .stdout }
  loggers _ := none

/-- What `getLogger` returns. -/
def LoggerManager.get (m : LoggerManager) (name : Text) : Logger :=
  if name = rootName then m.root else (m.loggers name).getD (.new name)

def LoggerManager.set (m : LoggerManager) (name : Text) (l : Logger) : LoggerManager :=
  if name = rootName then { m with root := l } else { m with loggers := Function.update m.loggers name (some l) }

/-- `getLogger` itself, which keeps the logger it returns. -/
def LoggerManager.getLogger (m : LoggerManager) (name : Text) : LoggerManager := m.set name (m.get name)

/-- A call on the logger `getLogger` returns. -/
def LoggerManager.call (m : LoggerManager) (c : Text × LoggerCall) : LoggerManager :=
  m.set c.1 ((m.get c.1).call c.2)

/-- An event of the level logged through the logger of the name. -/
def LoggerManager.log (m : LoggerManager) (name : Text) (level : Level) : Option (List Appender) :=
  if name = rootName then m.root.log none level else (m.get name).log (m.root.log none level) level

/-! ## The listener -/

/-- The calls for a definition that is new or has changed. -/
def LogDefine.configure (i : LogDefine) : List LoggerCall :=
  [.setLevel i.level] ++ (if i.formatter.isEmpty then [] else [.setFormatter i.formatter]) ++ [.clearAppenders] ++
    i.appenders.map fun a => .addAppender a.build

/-- The calls for a name that has gone. -/
def removeCalls : List LoggerCall := [.setLevel .unknow, .clearAppenders]

/-- The calls on the logger of one name. -/
def on (name : Text) (calls : List LoggerCall) : List (Text × LoggerCall) := calls.map fun c => (name, c)

/-- The two loops of the listener. -/
def listenerCalls (old new : LogDefines) : List (Text × LoggerCall) :=
  (new.defines.flatMap fun i => on i.name (if old.find i.name = some i then [] else i.configure)) ++
    old.defines.flatMap fun i => on i.name (if new.find i.name = none then removeCalls else [])

/-- The listener: its log line on the root logger, and the calls. -/
def listener (old new : LogDefines) (m : LoggerManager) : Option LoggerManager :=
  (m.log rootName .info).map fun _ => (listenerCalls old new).foldl .call m

/-- The manager and the value of the variable `logs`. -/
structure System where
  manager : LoggerManager
  val : LogDefines

/-- At the start of the program. -/
def System.start : System := ⟨.new, .empty⟩

/-- `g_log_defines->setValue(v)`. -/
def System.setValue (s : System) (v : LogDefines) : Option System :=
  if v = s.val then some s else (listener s.val v s.manager).map fun manager => ⟨manager, v⟩

/-- What happens to the manager: a value is assigned, or somebody asks for a logger. -/
inductive Op
  | assign (v : LogDefines)
  | getLogger (name : Text)

def System.step (s : System) : Op → Option System
  | .assign v => s.setValue v
  | .getLogger name => some { s with manager := s.manager.getLogger name }

/-- A sequence of operations; none after a call through a null pointer. -/
abbrev System.run (s : System) (ops : List Op) : Option System := Run.exec System.step s ops

/-! ## Looking a logger up -/

variable {m : LoggerManager} {name other : Text} {l : Logger}

@[simp] theorem LoggerManager.get_set (m : LoggerManager) (name : Text) (l : Logger) : (m.set name l).get name = l := by
  by_cases root : name = rootName <;> simp [LoggerManager.set, LoggerManager.get, root]

theorem LoggerManager.get_set_ne (apart : other ≠ name) : (m.set name l).get other = m.get other := by
  by_cases root : name = rootName
  · subst root
    simp [LoggerManager.set, LoggerManager.get, apart]
  · by_cases rootOther : other = rootName <;>
      simp [LoggerManager.set, LoggerManager.get, root, rootOther, Function.update_of_ne apart]

/-- Asking for a logger changes none. -/
@[simp] theorem LoggerManager.get_getLogger (m : LoggerManager) (name other : Text) :
    (m.getLogger name).get other = m.get other := by
  by_cases same : other = name
  · subst same
    exact m.get_set _ _
  · exact LoggerManager.get_set_ne same

theorem LoggerManager.root_eq (m : LoggerManager) : m.root = m.get rootName := (if_pos rfl).symm

/-- From the root logger a call goes on through a null pointer. -/
theorem LoggerManager.log_root (m : LoggerManager) (level : Level) :
    m.log rootName level = (m.get rootName).log none level := by
  rw [LoggerManager.log, if_pos rfl, m.root_eq]

/-- From another it goes on in the root logger. -/
theorem LoggerManager.log_eq (m : LoggerManager) (name : Text) (level : Level) :
    m.log name level = (m.get name).log (if name = rootName then none else m.log rootName level) level := by
  by_cases root : name = rootName
  · rw [if_pos root, root, m.log_root]
  · rw [if_neg root, LoggerManager.log, if_neg root, m.log_root, m.root_eq]

end Atpdxy.Log
