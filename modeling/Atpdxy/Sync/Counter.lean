import Atpdxy.Sync.Mutex

/-!
# A counter under a lock

The loop of `test01` in `test_thread.cpp`: each round makes a guard and increments the
shared counter, which is a read and a write. With a lock of any class no increment is
lost, whichever threads make how many rounds, as long as an `int` has room for them.
-/

namespace Atpdxy.Sync.Counter

open Run Run.Sections

/-- `++count` on a `volatile int`, in the scope of a guard. Where there is no room the sum
stands for whatever becomes of `count`. -/
def increment : Op Int32 Unit := .exclusive (.get fun count => .put (fun _ => count + 1) (.done ()))

/-- The threads that make rounds of `test01`. -/
abbrev Threads (cls : LockClass) (ι : Type) [DecidableEq ι] := Sections.State (cls.lock (ι := ι)) Unit Int32 Unit

variable {ι : Type} [DecidableEq ι] {cls : LockClass}

abbrev step (cls : LockClass) : Threads cls ι → Sections.Act ι Unit → Option (Threads cls ι) :=
  Sections.step cls.lock fun _ => increment

theorem toInt_add_one {n : Int32} (room : n.toInt < Int32.maxValue.toInt) : (n + 1).toInt = n.toInt + 1 := by
  have low := n.le_toInt
  rw [Int32.toInt_maxValue] at room
  rw [Int32.toInt_add, Int32.toInt_one]
  exact Int.bmod_eq_of_le (by omega) (by omega)

omit [DecidableEq ι] in
/-- The sections of a log, one after the other, count its entries. -/
theorem toInt_eq_add_length {log : List (Entry ι Unit Unit)} {d d' : Int32}
    (replays : Replays (fun _ => increment) d log d') (room : d.toInt + log.length ≤ Int32.maxValue.toInt) :
    d'.toInt = d.toInt + log.length := by
  induction replays with
  | nil => simp
  | @snoc log d' d'' e _ last ih =>
    have next : d'' = d' + 1 := (congrArg Prod.fst last).symm
    rw [List.length_append, List.length_singleton] at room ⊢
    have before : d'.toInt = d.toInt + log.length := ih (by omega)
    rw [next, toInt_add_one (by omega), before]
    omega

/-- **Main result**: once every thread has finished its rounds the counter has grown by one for each round, if an
`int` has room for them, and until then some thread can go on. -/
theorem count_rounds (cls : LockClass) (count : Int32) (as : List (Sections.Act ι Unit)) (s : Threads cls ι)
    (run : exec (step cls) { data := count } as = some s) :
    (count.toInt + (as.flatMap Sections.Act.called).length ≤ Int32.maxValue.toInt → (∀ t, s.phases t = .idle) →
      s.data.toInt = count.toInt + (as.flatMap Sections.Act.called).length) ∧
      ∀ t, s.phases t ≠ .idle → ∃ u : ι, (step cls s (.next u)).isSome := by
  refine ⟨fun room idle => ?_, fun t busy => progress run busy⟩
  obtain ⟨d, replays, data⟩ := linearizable run
  have rounds : s.log.length = (as.flatMap Sections.Act.called).length := by
    rw [← (log_perm run idle).length_eq, List.length_map]
  rw [← rounds] at room ⊢
  rw [data (not_holding idle), toInt_eq_add_length replays room]

/-- Two threads at a `CASLock`, with one round each; the second is at the lock while the first increments. -/
def twoRounds : List (Sections.Act Bool Unit) :=
  [.call true (), .call false (), .next true, .next true, .next true, .next true, .next false, .next false, .next false,
    .next false]

theorem count_rounds_two :
    ∃ s : Threads .casLock Bool, exec (step .casLock) { data := 0 } twoRounds = some s ∧
      s.data.toInt = 2 := by
  refine ⟨_, rfl, ?_⟩
  have counted := (count_rounds .casLock 0 twoRounds _ rfl).1
  exact counted (by decide) fun t => by cases t <;> rfl

end Atpdxy.Sync.Counter
