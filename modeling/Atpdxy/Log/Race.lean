import Atpdxy.Log.Listener

/-!
# Log calls while the listener runs

One thread makes the calls of the listener, the others are in `Logger::log`. The
steps of a log call are the comparison with the level of the logger, taking its
spinlock with the test of the list, and each visit of an appender; without
appenders the call goes on in the root logger, with the first spinlock held.
`addAppender` and `setFormatter` wait for the spinlock, `setLevel` and
`clearAppenders` do not.

The line the listener logs before its calls is a log call like the others.
-/

namespace Atpdxy.Log.Race

/-- The complete configuration before the reload, and the one after it. -/
inductive Side
  | old | new
  deriving DecidableEq, Repr

/-- A call of `Logger::log` on the logger of the name. -/
structure Call where
  name : Text
  level : Level
  /-- The configurations all it has read agrees with; no step depends on it. -/
  sides : List Side := [.old, .new]

inductive Phase
  /-- about to compare with the level of the logger `here` -/
  | entered (here : Text)
  /-- about to take the spinlock of `here` -/
  | passed (here : Text)
  /-- in the loop, before the `n`-th appender of `here` -/
  | visiting (here : Text) (n : Nat) (written : List Appender)
  /-- returned, or went through a null pointer -/
  | done (written : Option (List Appender))
  /-- followed an iterator into a list that was cleared -/
  | broken

structure Thread where
  call : Call
  phase : Phase

structure State where
  manager : LoggerManager
  /-- what the listener has still to call -/
  todo : List (Text × LoggerCall)
  /-- the thread that holds the spinlock of a logger -/
  held : Text → Option Nat
  threads : Nat → Option Thread

/-- Who moves: the listener, a thread that calls `log`, a thread in such a call. -/
inductive Act
  | listener
  | log (t : Nat) (name : Text) (level : Level)
  | thread (t : Nat)

/-- Before the first call of the listener. -/
def State.start (old new : LogDefines) (m : LoggerManager) : State where
  manager := m
  todo := listenerCalls old new
  held _ := none
  threads _ := none

/-! ## What a read agrees with -/

/-- The calls of the listener on a logger that are still to come. -/
def State.left (s : State) (name : Text) : List LoggerCall := (s.todo.filter fun c => c.1 = name).map Prod.snd

def isSetLevel : LoggerCall → Bool
  | .setLevel _ => true
  | _ => false

def isAddAppender : LoggerCall → Bool
  | .addAppender _ => true
  | _ => false

/-- The level of a logger that was `was` is that of the side: its `setLevel` has not been made,
or has been; both if it changes nothing. -/
def levelOn (was : Level) (calls left : List LoggerCall) : Side → Bool
  | .old => left = calls || .setLevel was ∈ calls
  | .new => left.filter isSetLevel = [] || .setLevel was ∈ calls

/-- The list of a logger is that of the side: it has not been cleared, or all calls have been
made. A list that was empty is the old one until the first appender comes. -/
def listOn (was : List Appender) (calls left : List LoggerCall) : Side → Bool
  | .old => left = calls || .clearAppenders ∈ left ||
      (was.isEmpty && left.filter isAddAppender = calls.filter isAddAppender)
  | .new => left = [] || (was.isEmpty && calls.filter isAddAppender = [])

variable (old new : LogDefines) (m : LoggerManager)

/-- The sides left to a call by the read its next step makes. -/
def State.sides (s : State) (th : Thread) : List Side :=
  match th.phase with
  | .entered here => th.call.sides.filter (levelOn (m.get here).level (effect old new here) (s.left here))
  | .passed here | .visiting here _ _ =>
    th.call.sides.filter (listOn (m.get here).appenders (effect old new here) (s.left here))
  | .done _ | .broken => th.call.sides

/-! ## The steps -/

/-- The calls that take the spinlock; a pattern with an error is turned down before. -/
def locks : LoggerCall → Bool
  | .setFormatter val => !(LogFormatter.init val).isError
  | .addAppender _ => true
  | .setLevel _ | .clearAppenders => false

def State.listener (s : State) : Option State :=
  match s.todo with
  | [] => none
  | c :: todo =>
    if locks c.2 && (s.held c.1).isSome then none else some { s with manager := s.manager.call c, todo }

def State.set (s : State) (t : Nat) (th : Thread) : State :=
  { s with threads := Function.update s.threads t (some th) }

def State.lock (s : State) (t : Nat) (name : Text) : State :=
  { s with held := Function.update s.held name (some t) }

/-- At the return all locks of the thread are released. -/
def State.unlock (s : State) (t : Nat) : State :=
  { s with held := fun name => if s.held name = some t then none else s.held name }

/-- A thread calls `log` when it is in no other call. -/
def State.log (s : State) (t : Nat) (name : Text) (level : Level) : Option State :=
  match s.threads t with
  | none | some ⟨_, .done (some _)⟩ => some (s.set t ⟨{ name, level }, .entered name⟩)
  | some _ => none

/-- The next step of a call. -/
def State.thread (s : State) (t : Nat) : Option State :=
  match s.threads t with
  | none => none
  | some th =>
    let call := { th.call with sides := s.sides old new m th }
    match th.phase with
    | .entered here =>
      if (s.manager.get here).level ≤ call.level then some (s.set t ⟨call, .passed here⟩)
      else some ((s.unlock t).set t ⟨call, .done (some [])⟩)
    | .passed here =>
      if (s.held here).isSome then none
      else if (s.manager.get here).appenders.isEmpty then
        if here = rootName then some ((s.lock t here).set t ⟨call, .done none⟩)
        else some ((s.lock t here).set t ⟨call, .entered rootName⟩)
      else some ((s.lock t here).set t ⟨call, .visiting here 0 []⟩)
    | .visiting here n written =>
      if (s.manager.get here).appenders.isEmpty then some (s.set t ⟨call, .broken⟩)
      else match (s.manager.get here).appenders[n]? with
        | some a =>
          some (s.set t ⟨call, .visiting here (n + 1) (if a.level ≤ call.level then written ++ [a] else written)⟩)
        | none => some ((s.unlock t).set t ⟨call, .done (some written)⟩)
    | .done _ | .broken => none

def step (s : State) : Act → Option State
  | .listener => s.listener
  | .log t name level => s.log t name level
  | .thread t => s.thread old new m t

end Atpdxy.Log.Race
