import Atpdxy.Run.Guarded
import Atpdxy.Sched.Cases

/-!
# Which thread refers to a fiber

A thread refers to a fiber through `ft` while it handles a task, and through
`cb_fiber` between callbacks (`Thread.Holds`). A fiber's state and context are
written only by a thread that refers to it, so everything `run()` concludes
from a state it has read stays true as long as no second thread refers to the
fiber. The one step by which a thread comes to refer to an existing fiber is
the dequeue; `FreeDequeue` is the condition that it takes a fiber no other
thread still refers to. The test `m_state != EXEC` of the scan is weaker.
-/

namespace Atpdxy.Sched

open Run

variable {cfg : Setup} {t u : Tid} {m : Move} {th th' : Thread} {sh sh' : Shared} {s s' : State} {a : Act}
  {f : FiberId}

/-- A dequeue takes a callback, or a fiber to which no other thread refers. -/
def FreeDequeue (cfg : Setup) (s : State) : Act → Prop
  | .thread t _ =>
    (s.thr t).pc = .loop → ∀ found ∈ dequeue t s.sh.fibers s.sh.queue, ∀ f ∈ found.1.fiber,
      ∀ u ∈ cfg.threads, u ≠ t → ¬ (s.thr u).Holds f
  | _ => True

instance : Decidable (FreeDequeue cfg s a) :=
  match a with
  | .thread _ _ => inferInstanceAs (Decidable (_ → _))
  | .external _ | .create | .stop => isTrue trivial

/-! ## The scan -/

/-- The scan splits the queue at the entry it takes. -/
theorem dequeue_some {fibers : FiberId → Fiber} {q rest : List Task} {ft : Task}
    (found : dequeue t fibers q = some (ft, rest)) :
    ∃ front back, q = front ++ ft :: back ∧ rest = front ++ back ∧ skips t fibers ft = false := by
  induction q generalizing rest with
  | nil => cases found
  | cons task q ih =>
    simp only [dequeue] at found
    split at found
    · obtain ⟨⟨_, _⟩, before, same⟩ := Option.map_eq_some_iff.mp found
      obtain ⟨rfl, rfl⟩ := Prod.mk.inj same
      obtain ⟨front, back, rfl, rfl, taken⟩ := ih before
      exact ⟨task :: front, back, rfl, rfl, taken⟩
    · rename_i taken
      cases found
      exact ⟨[], q, rfl, rfl, by simpa using taken⟩

/-- What the scan takes and what it leaves was in the queue. -/
theorem dequeue_mem {fibers : FiberId → Fiber} {q rest : List Task} {ft : Task}
    (found : dequeue t fibers q = some (ft, rest)) : ft ∈ q ∧ rest ⊆ q := by
  obtain ⟨front, back, rfl, rfl, _⟩ := dequeue_some found
  constructor
  · exact List.mem_append_right _ List.mem_cons_self
  · intro task member
    rcases List.mem_append.mp member with member | member
    · exact List.mem_append_left _ member
    · exact List.mem_append_right _ (List.mem_cons_of_mem _ member)

/-- The scan takes nothing exactly when it walks past every entry. -/
theorem dequeue_none {fibers : FiberId → Fiber} {q : List Task} :
    dequeue t fibers q = none ↔ ∀ task ∈ q, skips t fibers task = true := by
  induction q with
  | nil => simp [dequeue]
  | cons task q ih =>
    simp only [dequeue, List.forall_mem_cons]
    split
    · rename_i skipped
      simp [skipped, ih]
    · rename_i taken
      simp [taken]

/-! ## What a step of a thread does to references and fibers -/

@[simp] theorem Shared.setFiber_fibers (sh : Shared) (f : FiberId) (x : Fiber) :
    (sh.setFiber f x).fibers = Function.update sh.fibers f x := rfl
@[simp] theorem Shared.setFiber_queue (sh : Shared) (f : FiberId) (x : Fiber) :
    (sh.setFiber f x).queue = sh.queue := rfl
@[simp] theorem Shared.setFiber_nextFiber (sh : Shared) (f : FiberId) (x : Fiber) :
    (sh.setFiber f x).nextFiber = sh.nextFiber := rfl
@[simp] theorem Shared.setFiber_failed (sh : Shared) (f : FiberId) (x : Fiber) :
    (sh.setFiber f x).failed = sh.failed := rfl
@[simp] theorem Shared.setFiber_started (sh : Shared) (f : FiberId) (x : Fiber) :
    (sh.setFiber f x).started = sh.started := rfl
@[simp] theorem Shared.setFiber_nextTicket (sh : Shared) (f : FiberId) (x : Fiber) :
    (sh.setFiber f x).nextTicket = sh.nextTicket := rfl
@[simp] theorem Shared.fail_fibers (sh : Shared) (e : Assertion) : (sh.fail e).fibers = sh.fibers := rfl
@[simp] theorem Shared.fail_queue (sh : Shared) (e : Assertion) : (sh.fail e).queue = sh.queue := rfl
@[simp] theorem Shared.fail_nextFiber (sh : Shared) (e : Assertion) :
    (sh.fail e).nextFiber = sh.nextFiber := rfl
@[simp] theorem Shared.fail_started (sh : Shared) (e : Assertion) : (sh.fail e).started = sh.started := rfl
@[simp] theorem Shared.fail_nextTicket (sh : Shared) (e : Assertion) :
    (sh.fail e).nextTicket = sh.nextTicket := rfl
@[simp] theorem Shared.fail_failed (sh : Shared) (e : Assertion) : (sh.fail e).failed = some e := rfl

@[simp] theorem Thread.release_refs (th : Thread) (b : Branch) : (th.release b).pc = .loop := by
  cases b <;> rfl
@[simp] theorem Thread.release_idle (th : Thread) (b : Branch) : (th.release b).idle = th.idle := by
  cases b <;> rfl

theorem Thread.release_cbFiber {b : Branch} (kept : (th.release b).cbFiber = some f) :
    th.cbFiber = some f := by
  cases b with
  | fiber => exact kept
  | cb => cases kept

/-- A call of `schedule()` is a sequence of pushes. -/
theorem schedule_induct {P : Shared → Prop} {owed : Bool} {r : Request} (start : P sh)
    (keep : ∀ sh, ∀ i ∈ r.items, P sh → P (scheduleNoLock owed i.2 sh i.1)) : P (schedule owed sh r) := by
  unfold schedule
  generalize r.items = items at keep
  induction items generalizing sh with
  | nil => exact start
  | cons i items ih =>
    exact ih (keep sh i (by simp) start) fun sh j member => keep sh j (by simp [member])

/-- A push touches no fiber and begins no callback. -/
theorem scheduleNoLock_spec (owed : Bool) (thread : Option Tid) (sh : Shared) (fc : FiberOrCb) :
    (scheduleNoLock owed thread sh fc).fibers = sh.fibers ∧
      (scheduleNoLock owed thread sh fc).nextFiber = sh.nextFiber ∧
      (scheduleNoLock owed thread sh fc).failed = sh.failed ∧
      (scheduleNoLock owed thread sh fc).started = sh.started := by
  cases fc <;> exact ⟨rfl, rfl, rfl, rfl⟩

theorem schedule_spec (owed : Bool) (sh : Shared) (r : Request) :
    (schedule owed sh r).fibers = sh.fibers ∧ (schedule owed sh r).nextFiber = sh.nextFiber ∧
      (schedule owed sh r).failed = sh.failed ∧ (schedule owed sh r).started = sh.started := by
  refine schedule_induct (P := fun sh' => sh'.fibers = sh.fibers ∧ sh'.nextFiber = sh.nextFiber ∧
    sh'.failed = sh.failed ∧ sh'.started = sh.started) ⟨rfl, rfl, rfl, rfl⟩ ?_
  intro sh' i _ same
  obtain ⟨fibers, next, failed, started⟩ := scheduleNoLock_spec owed i.2 sh' i.1
  exact ⟨fibers.trans same.1, next.trans same.2.1, failed.trans same.2.2.1, started.trans same.2.2.2⟩

@[simp] theorem schedule_fibers (owed : Bool) (sh : Shared) (r : Request) :
    (schedule owed sh r).fibers = sh.fibers := (schedule_spec owed sh r).1
@[simp] theorem schedule_nextFiber (owed : Bool) (sh : Shared) (r : Request) :
    (schedule owed sh r).nextFiber = sh.nextFiber := (schedule_spec owed sh r).2.1
@[simp] theorem schedule_failed (owed : Bool) (sh : Shared) (r : Request) :
    (schedule owed sh r).failed = sh.failed := (schedule_spec owed sh r).2.2.1
@[simp] theorem schedule_started (owed : Bool) (sh : Shared) (r : Request) :
    (schedule owed sh r).started = sh.started := (schedule_spec owed sh r).2.2.2

/-- Queue entries name fibers that exist. -/
def Shared.Known (sh : Shared) : Prop := ∀ task ∈ sh.queue, ∀ f ∈ task.fiber, f < sh.nextFiber

theorem schedule_known {owed : Bool} {r : Request} (known : sh.Known) (exists_ : r.known sh = true) :
    (schedule owed sh r).Known := by
  have same : (schedule owed sh r).nextFiber = sh.nextFiber ∧ (schedule owed sh r).Known := by
    refine schedule_induct (P := fun sh' => sh'.nextFiber = sh.nextFiber ∧ sh'.Known) ⟨rfl, known⟩ ?_
    rintro sh' ⟨fc, thread⟩ member ⟨same, known⟩
    have fresh := List.all_eq_true.mp exists_ _ member
    cases fc with
    | fiber g =>
      refine ⟨same, fun task queued f named => ?_⟩
      rcases List.mem_append.mp queued with queued | queued
      · exact known task queued f named
      · obtain rfl := List.mem_singleton.mp queued
        cases named
        exact (show g < sh'.nextFiber by simpa [FiberOrCb.known, ← same] using fresh)
    | cb =>
      refine ⟨same, fun task queued f named => ?_⟩
      rcases List.mem_append.mp queued with queued | queued
      · exact known task queued f named
      · obtain rfl := List.mem_singleton.mp queued
        cases named
    | null => exact ⟨same, known⟩
  exact same.2

/-- A thread refers to nothing new but a fiber it dequeues or creates. -/
theorem Moves.holds (moves : Moves cfg t th sh m th' sh') (held : th'.Holds f) :
    th.Holds f ∨ (th.pc = .loop ∧ ∃ found ∈ dequeue t sh.fibers sh.queue, found.1.fiber = some f) ∨
      (f = sh.nextFiber ∧ sh'.nextFiber = sh.nextFiber + 1) := by
  unfold Thread.Holds at held ⊢
  cases moves with
  | take pc found =>
    rcases held with held | held
    · exact .inr (.inl ⟨pc, _, found, held⟩)
    · exact .inl (.inr held)
  | reuse pc cb kept =>
    rcases held with held | held
    · exact .inl (.inr (kept.trans held))
    · exact .inl (.inr held)
  | make pc cb kept =>
    refine .inr (.inr ⟨?_, rfl⟩)
    rcases held with held | held <;> exact (Option.some.inj held).symm
  | requeue pc | setHold pc =>
    rcases held with held | held
    · simp [Pc.refs] at held
    · exact .inl (.inr (Thread.release_cbFiber held))
  | _ => simp_all [Pc.refs]

/-- Fiber ids are never given back. -/
theorem Moves.nextFiber (moves : Moves cfg t th sh m th' sh') : sh.nextFiber ≤ sh'.nextFiber := by
  cases moves <;> simp

/-- A thread writes only fibers it refers to, and the one it creates. -/
theorem Moves.frame (moves : Moves cfg t th sh m th' sh') (other : ¬ th.Holds f) (old : f < sh.nextFiber) :
    sh'.fibers f = sh.fibers f := by
  have apart : ∀ g, th.pc.refs = some g ∨ th.cbFiber = some g → f ≠ g := by
    rintro g held rfl
    exact other held
  cases moves with
  | reuse pc cb kept => exact Function.update_of_ne (apart _ (.inr kept)) _ _
  | make pc cb kept => exact Function.update_of_ne (Nat.ne_of_lt old) _ _
  | begin pc | resume pc | switchOut pc | setHold pc | resetCb pc | yield pc | ret pc | throw pc =>
    exact Function.update_of_ne (apart _ (.inl (by simp [pc, Pc.refs]))) _ _
  | _ => simp

/-- Only `swapIn` writes `EXEC`, and it moves the thread into the fiber. -/
theorem Moves.exec (moves : Moves cfg t th sh m th' sh') (exec : (sh'.fibers f).state = .exec) :
    (∃ b, th'.pc = .running b f) ∨ ((sh.fibers f).state = .exec ∧ ∀ b, th.pc ≠ .running b f) := by
  have write : ∀ (g : FiberId) (x : Fiber), ((Function.update sh.fibers g x) f).state = .exec →
      (f = g ∧ x.state = .exec) ∨ (f ≠ g ∧ (sh.fibers f).state = .exec) := by
    intro g x exec
    by_cases same : f = g
    · subst same
      exact .inl ⟨rfl, by simpa using exec⟩
    · exact .inr ⟨same, by simpa [same] using exec⟩
  cases moves with
  | begin pc | resume pc =>
    rcases write _ _ exec with ⟨rfl, _⟩ | ⟨_, exec⟩
    · exact .inl ⟨_, rfl⟩
    · exact .inr ⟨exec, by simp [pc]⟩
  | switchOut pc =>
    rcases write _ _ exec with ⟨rfl, exec⟩ | ⟨_, exec⟩ <;> exact .inr ⟨exec, by simp [pc]⟩
  | @reuse ft k c pc =>
    rcases write c (.new (.callback k)) exec with ⟨_, exec⟩ | ⟨_, exec⟩
    · cases exec
    · exact .inr ⟨exec, by simp [pc]⟩
  | @make ft k pc =>
    rcases write sh.nextFiber (.new (.callback k)) exec with ⟨_, exec⟩ | ⟨_, exec⟩
    · cases exec
    · exact .inr ⟨exec, by simp [pc]⟩
  | @setHold b g pc =>
    rcases write g { sh.fibers g with state := .hold } exec with ⟨_, exec⟩ | ⟨_, exec⟩
    · cases exec
    · exact .inr ⟨exec, by simp [pc]⟩
  | @resetCb c pc =>
    rcases write c (.new .null) exec with ⟨_, exec⟩ | ⟨_, exec⟩
    · cases exec
    · exact .inr ⟨exec, by simp [pc]⟩
  | yield pc state cb kind =>
    rcases write _ _ exec with ⟨rfl, exec⟩ | ⟨other, exec⟩
    · rcases kind with ⟨_, rfl⟩ | ⟨_, rfl⟩ <;> cases exec
    · exact .inr ⟨exec, by simp [pc, Ne.symm other]⟩
  | ret pc | throw pc =>
    rcases write _ _ exec with ⟨rfl, exec⟩ | ⟨other, exec⟩
    · cases exec
    · exact .inr ⟨exec, by simp [pc, Ne.symm other]⟩
  | @failYield b g _ pc | @schedule b g _ pc =>
    by_cases same : g = f
    · subst same; exact .inl ⟨b, pc⟩
    · exact .inr ⟨by simpa using exec, by simp [pc, same]⟩
  | failReset kept =>
    refine .inr ⟨by simpa using exec, fun b => ?_⟩
    rcases kept with pc | ⟨⟨ft, pc, _⟩, _⟩ <;> simp [pc]
  | _ => exact .inr ⟨by simpa using exec, by simp_all⟩

/-- The idle fiber is in `EXEC` exactly while the thread is inside `idle()`. -/
def Thread.IdleOk (th : Thread) : Prop := th.idle = .exec ↔ th.pc = .idling

theorem Moves.idleOk (moves : Moves cfg t th sh m th' sh') (ok : th.IdleOk) : th'.IdleOk := by
  unfold Thread.IdleOk at ok ⊢
  cases moves with
  | idleSettle pc =>
    simp only [pc, reduceCtorEq, iff_false] at ok ⊢
    split
    · exact ok
    · simp
  | failReset => exact ok
  | _ => simp_all

end Atpdxy.Sched
