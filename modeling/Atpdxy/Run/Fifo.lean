import Atpdxy.Run.Guarded

/-!
# A first-in first-out run queue

One executor takes the head of a queue of tasks, drops it if it has ended, and
otherwise runs it to its next yield or end; a task that yielded `ready` is
appended again, one that yielded `hold` is not. Pushes may come at any time. The
machine is a step function on labels, to be played with `exec`; tasks are any
type with decidable equality.
-/

namespace Atpdxy.Run.Fifo

/-- How a task gives the executor back. -/
inductive Outcome
  | ready | hold | ended
  deriving DecidableEq, Repr

inductive Label (α : Type*)
  /-- a task is appended, by anybody -/
  | push (a : α)
  /-- the executor removes the head -/
  | take
  /-- the running task stops -/
  | yield (o : Outcome)
  /-- the executor deals with the stopped task -/
  | back
  deriving DecidableEq, Repr

structure State (α : Type*) where
  queue : List α := []
  ended : List α := []
  /-- the task that was taken, and how it has stopped -/
  running : Option (α × Option Outcome) := none
  /-- the resumptions so far, in order -/
  resumed : List α := []
  deriving Repr

variable {α : Type*} [DecidableEq α]

def step (q : State α) : Label α → Option (State α)
  | .push a => some { q with queue := q.queue ++ [a] }
  | .take =>
    match q.running, q.queue with
    | none, a :: rest =>
      if a ∈ q.ended then some { q with queue := rest }
      else some { q with queue := rest, running := some (a, none), resumed := q.resumed ++ [a] }
    | _, _ => none
  | .yield o =>
    match q.running with
    | some (a, none) => some { q with running := some (a, some o) }
    | _ => none
  | .back =>
    match q.running with
    | some (a, some o) =>
      some { q with
        running := none
        queue := if o = .ready then q.queue ++ [a] else q.queue
        ended := if o = .ended then a :: q.ended else q.ended }
    | _ => none

variable {q : State α} {a : α} {rest : List α} {o : Outcome}

theorem step_drop (idle : q.running = none) (queue : q.queue = a :: rest) (ended : a ∈ q.ended) :
    step q .take = some { q with queue := rest } := by
  simp [step, idle, queue, ended]

theorem step_resume (idle : q.running = none) (queue : q.queue = a :: rest) (live : a ∉ q.ended) :
    step q .take =
      some { q with queue := rest, running := some (a, none), resumed := q.resumed ++ [a] } := by
  simp [step, idle, queue, live]

theorem step_yield (running : q.running = some (a, none)) :
    step q (.yield o) = some { q with running := some (a, some o) } := by
  simp [step, running]

theorem step_back (running : q.running = some (a, some o)) :
    step q .back = some { q with
      running := none
      queue := if o = .ready then q.queue ++ [a] else q.queue
      ended := if o = .ended then a :: q.ended else q.ended } := by
  simp [step, running]

theorem exec_single {l : Label α} : exec step q [l] = step q l := by
  simp [exec]

/-- Only tasks that were resumed have ended. -/
theorem ended_resumed {ls : List (Label α)} (run : exec step {} ls = some q) : ∀ a ∈ q.ended, a ∈ q.resumed := by
  have kept : (∀ a ∈ q.ended, a ∈ q.resumed) ∧ ∀ p ∈ q.running, p.1 ∈ q.resumed := by
    refine (Guarded.of_exec run).invariant
      (I := fun q => (∀ a ∈ q.ended, a ∈ q.resumed) ∧ ∀ p ∈ q.running, p.1 ∈ q.resumed) ⟨nofun, nofun⟩ ?_
    rintro _ q l q' _ ⟨ended, running⟩ _ moved
    cases l with
    | push => cases moved; exact ⟨ended, running⟩
    | take =>
      simp only [step] at moved
      split at moved
      · split at moved <;> cases moved
        · exact ⟨ended, running⟩
        · refine ⟨fun a member => List.mem_append_left _ (ended a member), ?_⟩
          rintro _ ⟨⟩
          exact List.mem_append_right _ (List.mem_singleton_self _)
      · cases moved
    | yield =>
      simp only [step] at moved
      split at moved
      · rename_i a taken
        cases moved
        refine ⟨ended, ?_⟩
        rintro _ ⟨⟩
        exact running (a, none) taken
      · cases moved
    | back =>
      simp only [step] at moved
      split at moved
      · rename_i a o taken
        cases moved
        refine ⟨fun b member => ?_, nofun⟩
        dsimp only at member
        split at member
        · rcases List.mem_cons.mp member with rfl | old
          · exact running (b, some o) taken
          · exact ended b old
        · exact ended b member
      · cases moved
  exact kept.1

/-- Pushes only append. -/
theorem exec_push (as : List α) : exec step q (as.map .push) = some { q with queue := q.queue ++ as } := by
  induction as generalizing q with
  | nil => simp [exec]
  | cons a as ih => simp [exec, step, ih]

end Atpdxy.Run.Fifo
