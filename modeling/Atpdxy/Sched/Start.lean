import Mathlib.Data.List.Basic

/-!
# Starting the workers

`Scheduler::start` clears the flag and resizes the vector of threads before it
creates the first of them. When the constructor of `Thread` throws, what was
created stays, the rest of the vector is null pointers, and nothing of it is taken
back: the flag lets no later `start()` try again, and `stop()` comes to the first
null pointer when it joins.
-/

namespace Atpdxy.Sched.Start

/-- What `start()` and the end of `stop()` read and write. A `Thread::ptr` is null
or has the id of its thread. -/
structure Scheduler where
  m_threadCount : Nat
  m_stopping : Bool := true
  m_threads : List (Option Int) := []
  m_threadIds : List Int := []
  deriving DecidableEq, Repr

/-- How a call ends. -/
inductive Exit
  | normal
  /-- the constructor of `Thread` has thrown -/
  | exception
  /-- `ATPDXY_ASSERT` -/
  | assertion
  /-- a call through a null pointer -/
  | null
  deriving DecidableEq, Repr

/-- The loop of `start()` with `left` turns to go. `create i` is the id of the thread made in
turn `i`, none if its constructor throws. -/
def Scheduler.spawn (create : Nat → Option Int) : (left i : Nat) → Scheduler → Scheduler × Exit
  | 0, _, s => (s, .normal)
  | left + 1, i, s =>
    match create i with
    | none => (s, .exception)
    | some id =>
      spawn create left (i + 1)
        { s with m_threads := s.m_threads.set i (some id), m_threadIds := s.m_threadIds ++ [id] }

/-- `Scheduler::start`, a section under `m_mutex`. -/
def Scheduler.start (create : Nat → Option Int) (s : Scheduler) : Scheduler × Exit :=
  if !s.m_stopping then (s, .normal)
  else
    let s := { s with m_stopping := false }
    if !s.m_threads.isEmpty then (s, .assertion)
    else spawn create s.m_threadCount 0 { s with m_threads := List.replicate s.m_threadCount none }

/-- The loop at the end of `stop()`: the threads it has joined, in order. -/
def join : List (Option Int) → List Int × Exit
  | [] => ([], .normal)
  | none :: _ => ([], .null)
  | some id :: rest => (id :: (join rest).1, (join rest).2)

/-- `stop()` where there are workers, without the root fiber. -/
def Scheduler.stop (s : Scheduler) : Scheduler × List Int × Exit :=
  ({ s with m_stopping := true, m_threads := [] }, join s.m_threads)

/-- The fields a failed `start()` should leave alone. -/
def Unchanged (before after : Scheduler) : Prop :=
  after.m_stopping = before.m_stopping ∧ after.m_threads = before.m_threads ∧
    after.m_threadIds = before.m_threadIds

variable {create : Nat → Option Int} {s : Scheduler}

/-- After the ids `ids` have been made. -/
def Scheduler.spawned (s : Scheduler) (front : List (Option Int)) (left : Nat) (ids : List Int) : Scheduler :=
  { s with
    m_threads := front ++ (ids.map some ++ List.replicate (left - ids.length) none)
    m_threadIds := s.m_threadIds ++ ids }

theorem set_front {α : Type*} (front rest : List α) (a b : α) :
    (front ++ a :: rest).set front.length b = front ++ b :: rest := by
  simp [List.set_append_right]

/-- The loop fills the vector from the front, up to the first thread that is not made. -/
theorem spawn_eq (create : Nat → Option Int) (left : Nat) (front : List (Option Int)) (s : Scheduler)
    (threads : s.m_threads = front ++ List.replicate left none) :
    ∃ ids, (s.spawn create left front.length).1 = s.spawned front left ids ∧
      (((s.spawn create left front.length).2 = .normal ∧ ids.length = left) ∨
        ((s.spawn create left front.length).2 = .exception ∧ ids.length < left ∧
          create (front.length + ids.length) = none)) := by
  induction left generalizing front s with
  | zero =>
    have same : s.m_threads = front := by simpa using threads
    exact ⟨[], by simp [Scheduler.spawn, Scheduler.spawned, ← same], .inl ⟨rfl, rfl⟩⟩
  | succ left ih =>
    cases made : create front.length with
    | none =>
      refine ⟨[], ?_, .inr ⟨by simp [Scheduler.spawn, made], by simp, made⟩⟩
      simp [Scheduler.spawn, made, Scheduler.spawned, ← threads]
    | some id =>
      have filled : s.m_threads.set front.length (some id) = (front ++ [some id]) ++ List.replicate left none := by
        rw [threads, List.replicate_succ, set_front]
        simp
      obtain ⟨ids, after, ends⟩ := ih (front ++ [some id])
        { s with m_threads := s.m_threads.set front.length (some id), m_threadIds := s.m_threadIds ++ [id] } filled
      rw [List.length_append, List.length_singleton] at after ends
      refine ⟨id :: ids, ?_, ?_⟩
      · simp only [Scheduler.spawn, made, after]
        simp [Scheduler.spawned]
      · simp only [Scheduler.spawn, made]
        rcases ends with ⟨normal, all⟩ | ⟨failed, early, none⟩
        · exact .inl ⟨normal, by simp [all]⟩
        · exact .inr ⟨failed, by simpa using early, by rw [← none, List.length_cons]; congr 1; omega⟩

theorem join_ids (ids : List Int) (rest : List (Option Int)) :
    join (ids.map some ++ rest) = (ids ++ (join rest).1, (join rest).2) := by
  induction ids with
  | nil => rfl
  | cons id ids ih => simp [join, ih]

/-- `start()` on an idle scheduler. -/
theorem start_eq (stopping : s.m_stopping = true) (threads : s.m_threads = []) : s.start create =
    Scheduler.spawn create s.m_threadCount 0
      { s with m_stopping := false, m_threads := List.replicate s.m_threadCount none } := by
  simp [Scheduler.start, stopping, threads]

/-- An exception comes from the loop alone. -/
theorem idle_of_exception (failed : (s.start create).2 = .exception) : s.m_stopping = true ∧ s.m_threads = [] := by
  unfold Scheduler.start at failed
  split at failed
  · cases failed
  · rename_i stopping
    simp only at failed
    split at failed
    · cases failed
    · rename_i threads
      exact ⟨by simpa using stopping, by simpa using threads⟩

/-- What a failed `start()` leaves: the flag cleared, and null pointers behind the threads made. -/
theorem exists_left (failed : (s.start create).2 = .exception) : ∃ ids : List Int, ids.length < s.m_threadCount ∧
    create ids.length = none ∧ (s.start create).1 =
      { s with
        m_stopping := false
        m_threads := ids.map some ++ List.replicate (s.m_threadCount - ids.length) none
        m_threadIds := s.m_threadIds ++ ids } := by
  obtain ⟨stopping, threads⟩ := idle_of_exception failed
  rw [start_eq stopping threads] at failed ⊢
  obtain ⟨ids, after, ends⟩ := spawn_eq create s.m_threadCount []
    { s with m_stopping := false, m_threads := List.replicate s.m_threadCount none } rfl
  rw [List.length_nil] at after ends
  rcases ends with ⟨normal, -⟩ | ⟨-, early, none⟩
  · rw [normal] at failed
    cases failed
  · exact ⟨ids, early, by simpa using none, after⟩

/-- **A failed start.** Wherever the loop is left by an exception, the scheduler is not as it was: a
later `start()` returns at once, and a later `stop()` joins the threads that were made and
then goes through a null pointer. -/
theorem failed_start (create : Nat → Option Int) (s : Scheduler) (failed : (s.start create).2 = .exception) :
    ¬ Unchanged s (s.start create).1 ∧
      (∀ create', (s.start create).1.start create' = ((s.start create).1, .normal)) ∧
      ∃ ids, (s.start create).1.stop.2 = (ids, .null) := by
  obtain ⟨stopping, -⟩ := idle_of_exception failed
  obtain ⟨ids, early, -, left⟩ := exists_left failed
  rw [left]
  refine ⟨?_, fun create' => rfl, ids, ?_⟩
  · rintro ⟨same, -, -⟩
    rw [stopping] at same
    cases same
  · obtain ⟨more, count⟩ := Nat.exists_eq_add_one_of_ne_zero (Nat.sub_ne_zero_of_lt early)
    simp [Scheduler.stop, count, List.replicate_succ, join_ids, join]

/-- The second of three threads is not made. -/
def secondFails (i : Nat) : Option Int := if i = 0 then some 7 else none

theorem failed_start_second :
    ¬ Unchanged ⟨3, true, [], []⟩ (Scheduler.start secondFails ⟨3, true, [], []⟩).1 ∧
      ∃ ids, (Scheduler.start secondFails ⟨3, true, [], []⟩).1.stop.2 = (ids, .null) :=
  have left := failed_start secondFails ⟨3, true, [], []⟩ rfl
  ⟨left.1, left.2.2⟩

theorem not_unchanged : (Scheduler.start secondFails ⟨3, true, [], []⟩) =
      (⟨3, false, [some 7, none, none], [7]⟩, .exception) ∧
    ¬ ∀ create (s : Scheduler), (s.start create).2 = .exception → Unchanged s (s.start create).1 := by
  refine ⟨by decide, fun unchanged => ?_⟩
  exact absurd (unchanged secondFails ⟨3, true, [], []⟩ rfl).1 (by decide)

/-- **A start that succeeds**: all threads are there, and `stop()` joins each of them. -/
theorem started (stopping : s.m_stopping = true) (threads : s.m_threads = []) (normal : (s.start create).2 = .normal) :
    ∃ ids : List Int, ids.length = s.m_threadCount ∧ (s.start create).1.m_threads = ids.map some ∧
      (s.start create).1.m_threadIds = s.m_threadIds ++ ids ∧ (s.start create).1.stop.2 = (ids, .normal) := by
  rw [start_eq stopping threads] at normal ⊢
  obtain ⟨ids, after, ends⟩ := spawn_eq create s.m_threadCount []
    { s with m_stopping := false, m_threads := List.replicate s.m_threadCount none } rfl
  rw [List.length_nil] at after ends
  rcases ends with ⟨-, all⟩ | ⟨failed, -⟩
  · have joined := join_ids ids []
    rw [List.append_nil] at joined
    exact ⟨ids, all, by simp [after, Scheduler.spawned, all], by simp [after, Scheduler.spawned],
      by simp [after, Scheduler.spawned, Scheduler.stop, all, joined, join]⟩
  · rw [normal] at failed
    cases failed

end Atpdxy.Sched.Start
