import Mathlib.Data.List.Nodup
import Atpdxy.Sched.Watch

/-!
# One executing thread: fibers, entries and tickets

What holds along a `Plain` run of the tasks' names: an entry is a fiber or a
callback, none of it is the fiber `run()` keeps for the next callback, each
ticket is in one place, and two fibers never stand for one task.
-/

namespace Atpdxy.Sched

open Run

variable {cfg : Setup} {t u : Tid} {m : Move} {th th' : Thread} {sh sh' : Shared} {s s' : State} {a : Act}
  {f c : FiberId} {k : Ticket} {who : FiberId → Work} {resumed : List Work}

/-- The fibers in the thread's hands are told apart by the branch. -/
structure Thread.Branches (th : Thread) : Prop where
  taken : ∀ ft, th.pc = .dispatch (some ft) → ft.Proper ∧ ∀ f ∈ ft.fiber, th.cbFiber ≠ some f
  fiber : ∀ f, th.pc.switch = some (.fiber, f) → th.cbFiber ≠ some f
  cb : ∀ f, th.pc.switch = some (.cb, f) → th.cbFiber = some f

/-- What an entry of the queue is. -/
def Task.Plain (th : Thread) (task : Task) : Prop :=
  task.thread = none ∧ task.Proper ∧ ∀ f ∈ task.fiber, ¬ th.Kept f

/-- What the names of the tasks keep, given the callbacks that wait and the next
ticket: a callback that waits is on no fiber and has not been resumed. -/
structure Named (waiting : List Ticket) (next : Ticket) (who : FiberId → Work) (resumed : List Work) : Prop where
  nodup : waiting.Nodup
  unused : ∀ k ∈ waiting, k < next ∧ (∀ f, who f ≠ .callback k) ∧ .callback k ∉ resumed
  used : ∀ k, (∃ f, who f = .callback k) ∨ .callback k ∈ resumed → k < next
  injective : Function.Injective who

/-- What one executing thread keeps. -/
structure Single (th : Thread) (sh : Shared) (who : FiberId → Work) (resumed : List Work) : Prop where
  branches : th.Branches
  queued : ∀ task ∈ sh.queue, task.Plain th
  named : Named (th.tickets ++ sh.queued) sh.nextTicket who resumed
  spent : ∀ f, (sh.fibers f).ctx = .finished → (sh.fibers f).state.ended = true

theorem Single.start : Single {} {} .fiber [] where
  branches := ⟨nofun, nofun, nofun⟩
  queued _ member := by cases member
  named.nodup := List.nodup_nil
  named.unused _ member := by cases member
  named.used k used := by
    rcases used with ⟨f, same⟩ | member
    · cases same
    · cases member
  named.injective f g same := by cases same; rfl
  spent := nofun

/-! ## Branches and entries -/

theorem Thread.not_kept_of_none (none : th.cbFiber = none) : ¬ th.Kept f := by
  rintro ⟨kept, _⟩
  simp [none] at kept

/-- `run()` starts to keep a fiber when it resets it. -/
theorem Moves.kept (moves : Moves cfg t th sh m th' sh') (branches : th.Branches) (kept : th'.Kept f) :
    th.Kept f ∨ th.pc = .resetCb f := by
  obtain ⟨kept, apart⟩ := kept
  have cb := branches.cb
  unfold Thread.Kept
  cases moves with
  | requeue pc | setHold pc =>
    rename_i b g
    cases b with
    | fiber => exact .inl ⟨kept, by simp [pc, Pc.switch]⟩
    | cb => cases kept
  | @resetCb c pc =>
    have own := cb c (by simp [pc, Pc.switch])
    rw [own] at kept
    exact .inr (by rw [pc, Option.some.inj kept])
  | make => simp_all [Pc.switch]
  | failReset => exact .inl ⟨kept, apart⟩
  | _ => exact .inl (by simp_all [Pc.switch])

theorem Task.Plain.mono {task : Task} (plain : task.Plain th) (kept : ∀ f ∈ task.fiber, th'.Kept f → th.Kept f) :
    task.Plain th' :=
  ⟨plain.1, plain.2.1, fun f named after => plain.2.2 f named (kept f named after)⟩

theorem Moves.branches (moves : Moves cfg t th sh m th' sh') (branches : th.Branches)
    (queued : ∀ task ∈ sh.queue, task.Plain th) : th'.Branches := by
  obtain ⟨taken, fiber, cb⟩ := branches
  cases moves with
  | take pc found =>
    refine ⟨?_, by simp [Pc.switch], by simp [Pc.switch]⟩
    rintro _ ⟨⟩
    obtain ⟨_, proper, apart⟩ := queued _ (dequeue_mem found).1
    exact ⟨proper, fun f named kept => apart f named ⟨kept, by simp [pc, Pc.switch]⟩⟩
  | enterFiber pc named =>
    refine ⟨by simp, ?_, by simp [Pc.switch]⟩
    rintro _ ⟨⟩
    exact (taken _ pc).2 _ named
  | reuse pc _ kept =>
    refine ⟨by simp, by simp [Pc.switch], ?_⟩
    rintro _ ⟨⟩
    exact kept
  | make =>
    refine ⟨by simp, by simp [Pc.switch], ?_⟩
    rintro _ ⟨⟩
    rfl
  | settleCb pc =>
    refine ⟨by simp, by simp [Pc.switch], ?_⟩
    rintro _ ⟨⟩
    exact cb _ (by simp [pc, Pc.switch])
  | requeue | setHold => exact ⟨by simp, by simp [Pc.switch], by simp [Pc.switch]⟩
  | failReset => exact ⟨taken, fiber, cb⟩
  | _ => constructor <;> simp_all [Pc.switch]

/-- A call without targets that avoids the kept fiber pushes plain entries. -/
theorem schedule_plain {owed : Bool} {r : Request} (unpinned : r.Unpinned) (avoids : r.Avoids th)
    (queued : ∀ task ∈ sh.queue, task.Plain th) : ∀ task ∈ (schedule owed sh r).queue, task.Plain th := by
  refine schedule_induct (P := fun sh => ∀ task ∈ sh.queue, task.Plain th) queued ?_
  rintro sh ⟨fc, thread⟩ item queued task member
  cases fc with
  | null => exact queued task member
  | fiber f =>
    rcases List.mem_append.mp member with old | new
    · exact queued task old
    · obtain rfl := List.mem_singleton.mp new
      refine ⟨unpinned _ item, rfl, ?_⟩
      rintro _ ⟨⟩
      exact avoids _ item
  | cb =>
    rcases List.mem_append.mp member with old | new
    · exact queued task old
    · obtain rfl := List.mem_singleton.mp new
      exact ⟨unpinned _ item, rfl, nofun⟩

theorem Moves.plain (moves : Moves cfg t th sh m th' sh') (branches : th.Branches)
    (queued : ∀ task ∈ sh.queue, task.Plain th) (scope : InScope s (.thread t m)) (apart : Apart t s (.thread t m))
    (own : s.thr t = th) (same : s.sh = sh) : ∀ task ∈ sh'.queue, task.Plain th' := by
  subst own same
  have keeps : ∀ task ∈ s.sh.queue, task.Plain th' := by
    intro task member
    apply (queued task member).mono
    intro f named after
    rcases moves.kept branches after with before | reset
    · exact before
    · cases moves with
      | resetCb =>
        exact (apart f (by rw [reset]; rfl) task member named).elim
      | failReset => exact after
      | _ => simp_all
  cases moves with
  | take pc found => exact fun task member => keeps task ((dequeue_mem found).2 member)
  | @requeue b f pc =>
    intro task member
    rcases List.mem_append.mp member with old | new
    · exact keeps task old
    · obtain rfl := List.mem_singleton.mp new
      refine ⟨rfl, rfl, ?_⟩
      rintro _ ⟨⟩ ⟨kept, _⟩
      cases b with
      | fiber => exact branches.fiber f (by simp [pc, Pc.switch]) kept
      | cb => cases kept
  | schedule pc => exact schedule_plain scope apart keeps
  | _ => exact keeps

/-! ## Tickets -/

/-- A step other than `schedule()` makes no waiting callback. -/
theorem Moves.waiting (moves : Moves cfg t th sh m th' sh') (other : ∀ r, m ≠ .user (.schedule r)) :
    List.Subperm (th'.tickets ++ sh'.queued) (th.tickets ++ sh.queued) ∧ sh'.nextTicket = sh.nextTicket := by
  have less : th'.tickets = [] → sh'.queued = sh.queued →
      List.Subperm (th'.tickets ++ sh'.queued) (th.tickets ++ sh.queued) := by
    intro empty same
    rw [empty, same]
    exact (List.sublist_append_right ..).subperm
  cases moves with
  | take pc found =>
    obtain ⟨front, back, queue, rfl, _⟩ := dequeue_some found
    refine ⟨List.Perm.subperm ?_, rfl⟩
    simp only [Thread.tickets, Shared.queued, pc, queue, List.filterMap_append, List.filterMap_cons, List.nil_append]
    split
    · rename_i cb
      rw [cb]
      exact .refl _
    · rename_i k cb
      rw [cb, Option.toList_some, List.singleton_append]
      exact List.perm_middle.symm
  | requeue | setHold => exact ⟨less (by simp [Thread.tickets]) (by simp [Shared.queued]), rfl⟩
  | schedule => exact (other _ rfl).elim
  | failReset => exact ⟨.refl _, rfl⟩
  | _ => exact ⟨less (by simp_all [Thread.tickets]) rfl, rfl⟩

/-- `schedule()` numbers its callbacks from the next ticket. -/
theorem schedule_tickets (owed : Bool) (sh : Shared) (r : Request) :
    ∃ n, (schedule owed sh r).queued = sh.queued ++ List.range' sh.nextTicket n ∧
      (schedule owed sh r).nextTicket = sh.nextTicket + n := by
  refine schedule_induct (P := fun sh' => ∃ n, sh'.queued = sh.queued ++ List.range' sh.nextTicket n ∧
    sh'.nextTicket = sh.nextTicket + n) ⟨0, by simp, rfl⟩ ?_
  rintro sh' ⟨fc, thread⟩ _ ⟨n, queued, next⟩
  cases fc with
  | fiber f => exact ⟨n, by simpa [scheduleNoLock, Shared.queued] using queued, next⟩
  | null => exact ⟨n, queued, next⟩
  | cb =>
    refine ⟨n + 1, ?_, congrArg (· + 1) next⟩
    simp only [Shared.queued] at queued
    simp only [scheduleNoLock, Shared.queued, List.filterMap_append, queued, next, List.range'_concat,
      List.filterMap_cons, List.filterMap_nil, List.append_assoc, Nat.one_mul]

/-- What a step does to the names. -/
theorem Moves.names (moves : Moves cfg t th sh m th' sh') (who : FiberId → Work) :
    renamed who th.pc th'.pc = who ∨
      ∃ ft k c, th.pc = .dispatch (some ft) ∧ ft.cb = some k ∧ th'.pc = .enter .cb c ∧ sh'.queued = sh.queued ∧
        sh'.nextTicket = sh.nextTicket ∧ renamed who th.pc th'.pc = Function.update who c (.callback k) := by
  have named : ∀ (ft : Task) (k : Ticket) (c : FiberId), ft.cb = some k →
      renamed who (.dispatch (some ft)) (.enter .cb c) = Function.update who c (.callback k) := by
    intro ft k c cb
    simp [renamed, cb]
  cases moves with
  | @reuse ft k c pc cb => exact .inr ⟨ft, k, c, pc, cb, rfl, rfl, rfl, by rw [pc]; exact named ft k c cb⟩
  | @make ft k pc cb => exact .inr ⟨ft, k, _, pc, cb, rfl, rfl, rfl, by rw [pc]; exact named ft k _ cb⟩
  | failReset kept =>
    refine .inl ?_
    rcases kept with pc | ⟨⟨ft, pc, _⟩, _⟩ <;> simp [pc, renamed]
  | _ => exact .inl (by simp_all [renamed])

theorem Moves.resumption (moves : Moves cfg t th sh m th' sh') (who : FiberId → Work) :
    resumes who th.pc th'.pc = [] ∨ ∃ b f, th.pc = .enter b f ∧ resumes who th.pc th'.pc = [who f] := by
  cases moves with
  | begin pc | resume pc => exact .inr ⟨_, _, pc, by rw [pc]; rfl⟩
  | failReset kept =>
    refine .inl ?_
    rcases kept with pc | ⟨⟨ft, pc, _⟩, _⟩ <;> simp [pc, resumes]
  | _ => exact .inl (by simp_all [resumes])

/-- A callback is put on a fiber: two fibers still stand for two tasks. -/
theorem injective_update (injective : Function.Injective who) (fresh : ∀ f, who f ≠ .callback k) :
    Function.Injective (Function.update who c (.callback k)) := by
  intro f g same
  by_cases first : f = c <;> by_cases second : g = c
  · rw [first, second]
  · subst first
    rw [Function.update_self, Function.update_of_ne second] at same
    exact (fresh g same.symm).elim
  · subst second
    rw [Function.update_self, Function.update_of_ne first] at same
    exact (fresh f same).elim
  · rw [Function.update_of_ne first, Function.update_of_ne second] at same
    exact injective same

variable {waiting waiting' : List Ticket} {next n : Ticket}

theorem Named.subperm (named : Named waiting next who resumed) (fewer : List.Subperm waiting' waiting) :
    Named waiting' next who resumed where
  nodup := by
    obtain ⟨l, perm, sub⟩ := fewer
    exact perm.nodup_iff.mp (sub.nodup named.nodup)
  unused k member := named.unused k (fewer.subset member)
  used := named.used
  injective := named.injective

theorem Named.fresh (named : Named waiting next who resumed) :
    Named (waiting ++ List.range' next n) (next + n) who resumed where
  nodup := by
    refine List.nodup_append.mpr ⟨named.nodup, List.nodup_range' .., ?_⟩
    rintro k old _ new rfl
    exact Nat.not_lt_of_le (List.mem_range'_1.mp new).1 (named.unused k old).1
  unused k member := by
    rcases List.mem_append.mp member with old | new
    · obtain ⟨below, unused⟩ := named.unused k old
      exact ⟨Nat.lt_of_lt_of_le below (Nat.le_add_right ..), unused⟩
    · obtain ⟨above, below⟩ := List.mem_range'_1.mp new
      refine ⟨below, fun f same => ?_, fun member => ?_⟩
      · exact Nat.not_lt_of_le above (named.used k (.inl ⟨f, same⟩))
      · exact Nat.not_lt_of_le above (named.used k (.inr member))
  used k used := Nat.lt_of_lt_of_le (named.used k used) (Nat.le_add_right ..)
  injective := named.injective

theorem Named.update (named : Named (k :: waiting) next who resumed) :
    Named waiting next (Function.update who c (.callback k)) resumed where
  nodup := (List.nodup_cons.mp named.nodup).2
  unused k' member := by
    obtain ⟨below, unused, notResumed⟩ := named.unused k' (List.mem_cons_of_mem _ member)
    refine ⟨below, fun f same => ?_, notResumed⟩
    by_cases own : f = c
    · subst own
      rw [Function.update_self] at same
      cases same
      exact (List.nodup_cons.mp named.nodup).1 member
    · rw [Function.update_of_ne own] at same
      exact unused f same
  used k' used := by
    rcases used with ⟨f, same⟩ | member
    · by_cases own : f = c
      · subst own
        rw [Function.update_self] at same
        cases same
        exact (named.unused _ (List.mem_cons_self ..)).1
      · rw [Function.update_of_ne own] at same
        exact named.used k' (.inl ⟨f, same⟩)
    · exact named.used k' (.inr member)
  injective := injective_update named.injective (named.unused k (List.mem_cons_self ..)).2.1

theorem Named.resume (named : Named waiting next who resumed) : Named waiting next who (resumed ++ [who f]) where
  nodup := named.nodup
  unused k member := by
    obtain ⟨below, unused, notResumed⟩ := named.unused k member
    refine ⟨below, unused, fun after => ?_⟩
    rcases List.mem_append.mp after with old | new
    · exact notResumed old
    · exact unused f (List.mem_singleton.mp new).symm
  used k used := by
    rcases used with used | after
    · exact named.used k (.inl used)
    · rcases List.mem_append.mp after with old | new
      · exact named.used k (.inr old)
      · exact named.used k (.inl ⟨f, (List.mem_singleton.mp new).symm⟩)
  injective := named.injective

/-! ## The step -/

/-- A fiber whose context is behind the end of `MainFunc` has ended. -/
theorem Moves.spent (moves : Moves cfg t th sh m th' sh') (acc : th.Accurate sh)
    (spent : ∀ f, (sh.fibers f).ctx = .finished → (sh.fibers f).state.ended = true) :
    ∀ f, (sh'.fibers f).ctx = .finished → (sh'.fibers f).state.ended = true := by
  have write : ∀ (g : FiberId) (x : Fiber), (x.ctx = .finished → x.state.ended = true) →
      ∀ f, ((Function.update sh.fibers g x) f).ctx = .finished →
        ((Function.update sh.fibers g x) f).state.ended = true := by
    intro g x own
    apply (Function.forall_update_iff sh.fibers fun _ y => y.ctx = .finished → y.state.ended = true).mpr
    exact ⟨own, fun f _ => spent f⟩
  cases moves with
  | reuse | make | resetCb => exact write _ _ nofun
  | begin _ _ ctx | resume _ _ ctx => exact write _ _ fun finished => by simp [ctx] at finished
  | @switchOut b f last pc =>
    apply write
    intro finished
    cases last with
    | true => exact acc.ended b f pc
    | false => cases finished
  | @setHold b f pc =>
    apply write
    intro finished
    have open_ := acc.holding b f pc
    rw [FiberState.resettable_of_ended (spent f finished)] at open_
    cases open_
  | @yield b f st u pc state =>
    apply write
    intro finished
    have ended := spent f finished
    simp [state, FiberState.ended] at ended
  | ret | throw => exact write _ _ fun _ => rfl
  | schedule => simpa using spent
  | _ => exact spent

/-- A step of the only thread. -/
theorem Single.thread {w : Watched} (single : Single (w.s.thr t) w.s.sh w.who w.resumed)
    (acc : (w.s.thr t).Accurate w.s.sh) (moves : Moves cfg t (w.s.thr t) w.s.sh m th sh)
    (plain : Plain t w (.thread t m)) :
    Single th sh (renamed w.who (w.s.thr t).pc th.pc) (w.resumed ++ resumes w.who (w.s.thr t).pc th.pc) where
  branches := moves.branches single.branches single.queued
  queued := moves.plain single.branches single.queued plain.1 plain.2 rfl rfl
  spent := moves.spent acc single.spent
  named := by
    have named := single.named
    rcases moves.names w.who with same | ⟨ft, k, c, pc, cb, after, queued, next, same⟩
    · rw [same]
      have step : Named (th.tickets ++ sh.queued) sh.nextTicket w.who w.resumed := by
        by_cases call : ∃ r, m = .user (.schedule r)
        · obtain ⟨r, rfl⟩ := call
          cases moves with
          | schedule =>
            obtain ⟨n, queued, next⟩ := schedule_tickets true w.s.sh r
            rw [queued, next, ← List.append_assoc]
            exact named.fresh
          | failYield => exact named
          | yield _ _ _ kind => rcases kind with ⟨other, _⟩ | ⟨other, _⟩ <;> cases other
        · obtain ⟨fewer, next⟩ := moves.waiting fun r same => call ⟨r, same⟩
          rw [next]
          exact named.subperm fewer
      rcases moves.resumption w.who with none | ⟨b, f, _, one⟩
      · rw [none, List.append_nil]
        exact step
      · rw [one]
        exact step.resume
    · have before : (w.s.thr t).tickets ++ w.s.sh.queued = k :: w.s.sh.queued := by
        simp [Thread.tickets, pc, cb]
      have empty : th.tickets ++ sh.queued = w.s.sh.queued := by
        simp [Thread.tickets, after, queued]
      have quiet : resumes w.who (w.s.thr t).pc th.pc = [] := by
        rw [pc, after]
        rfl
      rw [same, quiet, empty, next, List.append_nil]
      rw [before] at named
      exact named.update

end Atpdxy.Sched
