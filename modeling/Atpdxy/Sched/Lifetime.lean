import Atpdxy.Sched.Accurate
import Atpdxy.Sched.Counts

/-!
# When a fiber is destroyed

A `Fiber` is destroyed with the last `Fiber::ptr` to it. Pointers are in the
queue, in `ft.fiber` and `cb_fiber` of `run()`, in the hands of user code, and on
the stack of the fiber itself: `MainFunc` and the yields keep `Fiber::ptr cur`
across the switch. `Living` carries along those that are not in `State`.

A fiber that has yielded therefore keeps itself alive. Whoever can still resume
it has one of the other pointers (`Pointed`); when the last of these goes, the
fiber is neither destroyed nor resumed any more.
-/

namespace Atpdxy.Sched

open Run

variable {cfg : Setup} {t u : Tid} {m : Move} {th th' : Thread} {sh sh' : Shared} {s s' : State} {a : Act}
  {f g : FiberId}

/-- The scheduler with the pointers to its fibers. -/
structure Living where
  s : State := {}
  /-- `ft.fiber` -/
  ft : Tid → Option FiberId := fun _ => none
  /-- how many `Fiber::ptr cur` the stack of a fiber has -/
  cur : FiberId → Nat := fun _ => 0
  /-- how many pointers to it user code has -/
  user : FiberId → Nat := fun _ => 0

inductive LifeAct
  | step (a : Act)
  /-- user code copies a pointer, takes one from `GetThis()`, or drops one -/
  | copy (f : FiberId)
  | getThis (t : Tid)
  | drop (f : FiberId)
  deriving DecidableEq, Repr

/-! ## The steps -/

/-- `ft.fiber` once the thread is at a place of `run()`. -/
def ftAt (ft : Option FiberId) : Pc → Option FiberId
  | .dispatch (some task) => task.fiber
  -- `ft.reset()`
  | .loop | .enter .cb _ => none
  | _ => ft

/-- `MainFunc` begins with `cur = GetThis()` and ends with `cur.reset()`; a yield
has one more from its start to its return. -/
def curAt (sh : Shared) (cur : FiberId → Nat) : Pc → Pc → FiberId → Nat
  | .enter _ f, .running _ _ =>
    Function.update cur f (if (sh.fibers f).ctx = .entry then cur f + 1 else cur f - 1)
  | .running _ f, .leaving _ _ last => Function.update cur f (if last then cur f - 1 else cur f + 1)
  | _, _ => cur

/-- The call of `schedule()` of a step. -/
def Act.request : Act → Option Request
  | .thread _ (.user (.schedule r)) | .external r => some r
  | _ => none

/-- The pointers to `f` a call takes out of the caller's range: `Task(Fiber::ptr*, int)`
swaps them. -/
def Request.moved (f : FiberId) : Request → Nat
  | .one _ _ => 0
  | .range fcs => fcs.count (.fiber f)

/-- The caller has the pointers it passes. -/
def FiberOrCb.Held (user : FiberId → Nat) (r : Request) : FiberOrCb → Prop
  | .fiber f => 0 < user f ∧ r.moved f ≤ user f
  | _ => True

instance {user : FiberId → Nat} {r : Request} (fc : FiberOrCb) : Decidable (fc.Held user r) :=
  match fc with
  | .fiber _ => inferInstanceAs (Decidable (_ ∧ _))
  | .cb | .null => isTrue trivial

def Request.Held (user : FiberId → Nat) (r : Request) : Prop := ∀ i ∈ r.items, i.1.Held user r

instance {user : FiberId → Nat} {r : Request} : Decidable (r.Held user) :=
  inferInstanceAs (Decidable (∀ _ ∈ _, _))

/-- The pointers of user code after a call. -/
def spend (user : FiberId → Nat) : Option Request → FiberId → Nat
  | some r, f => user f - r.moved f
  | none, f => user f

/-- The pointers after a step of the scheduler. -/
def Living.after (w : Living) (s' : State) : Act → Living
  | .thread t m =>
    { s := s'
      ft := Function.update w.ft t (ftAt (w.ft t) (s'.thr t).pc)
      cur := curAt w.s.sh w.cur (w.s.thr t).pc (s'.thr t).pc
      user := spend w.user (Act.thread t m).request }
  | .external r => { w with s := s', user := spend w.user r }
  | .create => { w with s := s', user := Function.update w.user w.s.sh.nextFiber 1 }
  | .stop => { w with s := s' }

/-- `step`, with pointers. -/
def lifeStep (cfg : Setup) (w : Living) : LifeAct → Option Living
  | .step a =>
    if ∀ r ∈ a.request, r.Held w.user then (step cfg w.s a).map fun s' => w.after s' a else none
  | .copy f => if 0 < w.user f then some { w with user := Function.update w.user f (w.user f + 1) } else none
  | .getThis t =>
    match (w.s.thr t).pc with
    | .running _ f =>
      if (w.s.sh.fibers f).cb = .null then none
      else some { w with user := Function.update w.user f (w.user f + 1) }
    | _ => none
  | .drop f => if 0 < w.user f then some { w with user := Function.update w.user f (w.user f - 1) } else none

/-- `FreeDequeue` of the scheduler's steps. -/
def LifeFree (cfg : Setup) (w : Living) : LifeAct → Prop
  | .step a => FreeDequeue cfg w.s a
  | _ => True

instance {w : Living} {a : LifeAct} : Decidable (LifeFree cfg w a) :=
  match a with
  | .step _ => inferInstanceAs (Decidable (FreeDequeue ..))
  | .copy _ | .getThis _ | .drop _ => isTrue trivial

/-- Somebody else than the fiber itself has a pointer to it. -/
def Pointed (cfg : Setup) (w : Living) (f : FiberId) : Prop :=
  (∃ task ∈ w.s.sh.queue, task.fiber = some f) ∨
    (∃ t ∈ cfg.threads, w.ft t = some f ∨ (w.s.thr t).pc ≠ .exited ∧ (w.s.thr t).cbFiber = some f) ∨
    0 < w.user f

/-- The fiber has not been destroyed. -/
def Alive (cfg : Setup) (w : Living) (f : FiberId) : Prop := Pointed cfg w f ∨ 0 < w.cur f

instance {w : Living} : Decidable (Pointed cfg w f) := inferInstanceAs (Decidable (_ ∨ _))

instance {w : Living} : Decidable (Alive cfg w f) := inferInstanceAs (Decidable (_ ∨ _))

/-! ## Pointers of `run()` -/

variable {ft : Option FiberId} {cur : FiberId → Nat}

/-- Where the thread has its pointer to the fiber it handles. -/
structure Thread.Rooted (th : Thread) (ft : Option FiberId) : Prop where
  taken : ∀ task, th.pc = .dispatch (some task) → ft = task.fiber
  fiber : ∀ f, th.pc.switch = some (.fiber, f) → ft = some f
  cb : ∀ f, th.pc.switch = some (.cb, f) → th.cbFiber = some f

theorem Moves.rooted (moves : Moves cfg t th sh m th' sh') (rooted : th.Rooted ft) : th'.Rooted (ftAt ft th'.pc) := by
  have fiber := rooted.fiber
  have cb := rooted.cb
  have taken := rooted.taken
  constructor
  case taken =>
    intro task pc
    rw [pc]
    rfl
  case fiber =>
    intro f switch
    cases moves with
    | failReset kept => rcases kept with pc | ⟨⟨_, pc, _⟩, _⟩ <;> simp_all [Pc.switch]
    | @begin b | @resume b | @switchOut b | @dec b | @settleReady b | @settleHold b | @failSwapIn b | @failYield b
    | @failNeverReach b | @yield b | @ret b | @throw b | @schedule b =>
      cases b <;> simp_all [Pc.switch, ftAt]
    | _ => simp_all [Pc.switch, ftAt]
  case cb =>
    intro f switch
    cases moves with
    | failReset kept => exact cb f switch
    | _ => simp_all [Pc.switch]

/-- `ft` gets a new pointer from the queue only. -/
theorem ftAt_some {pc : Pc} (taken : ftAt ft pc = some f) : pc.refs = some f ∨ ft = some f := by
  unfold ftAt at taken
  split at taken
  · exact .inl taken
  · cases taken
  · cases taken
  · exact .inr taken

/-- A thread that is in `run()` and refers to a fiber has a pointer to it. -/
theorem Thread.Rooted.points (rooted : th.Rooted ft) (held : th.Holds f) : ft = some f ∨ th.cbFiber = some f := by
  rcases held with refs | kept
  · have fiber := rooted.fiber f
    have cb := rooted.cb f
    cases pc : th.pc with
    | dispatch task =>
      cases task with
      | none => simp [pc, Pc.refs] at refs
      | some task => exact .inl ((rooted.taken task pc).trans (by simpa [pc, Pc.refs] using refs))
    | enter b | running b | leaving b | dec b | settle b | requeue b | setHold b =>
      cases b <;> simp_all [Pc.refs, Pc.switch]
    | resetCb => simp_all [Pc.refs, Pc.switch]
    | _ => simp [pc, Pc.refs] at refs
  · exact .inr kept

/-! ## Pointers on the stack of the fiber -/

/-- A fiber nobody executes. -/
def Fiber.Rests (x : Fiber) (cur : Nat) : Prop :=
  match x.ctx with
  | .entry => x.state = .init ∧ cur = 0
  | .saved => x.state.resettable = false ∧ cur = 2
  | .finished => x.state.ended = true ∧ cur = 0

/-- The fiber the thread executes. -/
structure Thread.Stacked (th : Thread) (sh : Shared) (cur : FiberId → Nat) : Prop where
  running : ∀ b f, th.pc = .running b f → cur f = 1
  yields : ∀ b f, th.pc = .leaving b f false → (sh.fibers f).state.resettable = false ∧ cur f = 2
  ends : ∀ b f, th.pc = .leaving b f true → cur f = 0

theorem curAt_of_ne {pc pc' : Pc} (other : pc.refs ≠ some f) : curAt sh cur pc pc' f = cur f := by
  unfold curAt
  split
  · exact Function.update_of_ne (fun same => other (by rw [same]; rfl)) _ _
  · exact Function.update_of_ne (fun same => other (by rw [same]; rfl)) _ _
  · rfl

theorem Fiber.Rests.cur_eq_zero {x : Fiber} {n : Nat} (rests : x.Rests n) (resettable : x.state.resettable = true) :
    n = 0 := by
  unfold Fiber.Rests at rests
  split at rests
  · exact rests.2
  · rw [rests.1] at resettable
    cases resettable
  · exact rests.2

theorem Fiber.Rests.saved {x : Fiber} {n : Nat} (rests : x.Rests n) (live : x.state.resettable = false) :
    x.ctx = .saved ∧ n = 2 := by
  unfold Fiber.Rests at rests
  split at rests
  · simp [rests.1, FiberState.resettable] at live
  · rename_i ctx
    exact ⟨ctx, rests.2⟩
  · rw [FiberState.resettable_of_ended rests.1] at live
    cases live

theorem Moves.rests (moves : Moves cfg t th sh m th' sh') (acc : th.Accurate sh) (stacked : th.Stacked sh cur)
    (rests : ¬ th.Executes f → (sh.fibers f).Rests (cur f)) (fresh : f = sh.nextFiber → cur f = 0)
    (out : ¬ th'.Executes f) : (sh'.fibers f).Rests (curAt sh cur th.pc th'.pc f) := by
  -- a fiber that is written, and one that is not
  have write : ∀ (g : FiberId) (x : Fiber), (f = g → x.Rests (cur f)) → ¬ th.Executes f →
      ((Function.update sh.fibers g x) f).Rests (cur f) := by
    intro g x own idle
    by_cases same : f = g
    · subst same
      simpa using own rfl
    · simpa [same] using rests idle
  have outside : ∀ {pc : Pc}, th.pc = pc → (∀ b g, pc ≠ .running b g) → (∀ b g last, pc ≠ .leaving b g last) →
      ¬ th.Executes f := by
    rintro _ rfl apart apart' ⟨b, pc | ⟨last, pc⟩⟩
    · exact apart b f pc
    · exact apart' b f last pc
  cases moves with
  | reuse pc cb kept resettable =>
    have idle := outside pc (by simp) (by simp)
    simp only [pc, curAt]
    refine write _ _ (fun same => ?_) idle
    subst same
    exact ⟨rfl, (rests idle).cur_eq_zero resettable⟩
  | make pc =>
    simp only [pc, curAt]
    exact write _ _ (fun same => ⟨rfl, fresh same⟩) (outside pc (by simp) (by simp))
  | @begin b g pc | @resume b g pc =>
    have apart : f ≠ g := fun same => out ⟨b, .inl (by rw [same])⟩
    simpa [pc, curAt, apart] using rests (outside pc (by simp) (by simp))
  | @switchOut b g last pc =>
    simp only [pc, curAt]
    by_cases same : f = g
    · subst same
      cases last with
      | true => simpa [Fiber.Rests] using And.intro (acc.ended b f pc) (stacked.ends b f pc)
      | false => simpa [Fiber.Rests] using stacked.yields b f pc
    · have apart : ¬ th.Executes f := by simp [Thread.Executes, pc, Ne.symm same]
      simpa [same] using rests apart
  | @setHold b g pc =>
    have idle := outside pc (by simp) (by simp)
    simp only [pc, Thread.release_refs, curAt]
    refine write _ _ (fun same => ?_) idle
    subst same
    obtain ⟨saved, two⟩ := (rests idle).saved (acc.holding b f pc)
    simp [Fiber.Rests, saved, two, FiberState.resettable]
  | @resetCb c pc resettable =>
    have idle := outside pc (by simp) (by simp)
    simp only [pc, curAt]
    refine write _ _ (fun same => ?_) idle
    subst same
    exact ⟨rfl, (rests idle).cur_eq_zero resettable⟩
  | @yield b g _ _ pc | @ret b g pc | @throw b g pc =>
    have apart : f ≠ g := fun same => out ⟨b, .inr ⟨_, by rw [same]⟩⟩
    have idle : ¬ th.Executes f := by simp [Thread.Executes, pc, Ne.symm apart]
    simpa [pc, curAt, apart] using rests idle
  | failReset kept =>
    rcases kept with pc | ⟨⟨_, pc, _⟩, _⟩ <;> simpa [pc, curAt] using rests out
  | @failYield b g _ pc | @schedule b g _ pc => simpa [pc, curAt] using rests out
  | _ => simp_all [Thread.Executes, curAt]

theorem Moves.stacked (moves : Moves cfg t th sh m th' sh') (stacked : th.Stacked sh cur)
    (rests : ∀ f, th.Holds f → ¬ th.Executes f → (sh.fibers f).Rests (cur f)) :
    th'.Stacked sh' (curAt sh cur th.pc th'.pc) := by
  have running := stacked.running
  have yields := stacked.yields
  have ends := stacked.ends
  have entering : ∀ b f, th.pc = .enter b f → (sh.fibers f).Rests (cur f) := fun b f pc =>
    rests f (.inl (by rw [pc]; rfl)) (by simp [Thread.Executes, pc])
  constructor
  case running =>
    intro b f pc'
    cases moves with
    | @begin b' g pc state ctx =>
      obtain ⟨rfl, rfl⟩ : b' = b ∧ g = f := by simpa using pc'
      have none := entering b' g pc
      simp only [Fiber.Rests, ctx] at none
      simp [pc, curAt, ctx, none.2]
    | @resume b' g pc state ctx =>
      obtain ⟨rfl, rfl⟩ : b' = b ∧ g = f := by simpa using pc'
      have two := entering b' g pc
      simp only [Fiber.Rests, ctx] at two
      simp [pc, curAt, ctx, two.2]
    | failYield pc | schedule pc => simpa [pc', curAt] using running b f pc'
    | failReset kept => rcases kept with pc | ⟨⟨_, pc, _⟩, _⟩ <;> simp [pc] at pc'
    | _ => simp_all
  case yields =>
    intro b f pc'
    cases moves with
    | @yield b' g st u pc state cb kind =>
      obtain ⟨rfl, rfl⟩ : b' = b ∧ g = f := by simpa using pc'
      have one := running b' g pc
      refine ⟨?_, by simp [pc, curAt, one]⟩
      rcases kind with ⟨_, rfl⟩ | ⟨_, rfl⟩ <;> simp [FiberState.resettable]
    | failReset kept => rcases kept with pc | ⟨⟨_, pc, _⟩, _⟩ <;> simp [pc] at pc'
    | _ => simp_all
  case ends =>
    intro b f pc'
    cases moves with
    | @ret b' g pc | @throw b' g pc =>
      obtain ⟨rfl, rfl⟩ : b' = b ∧ g = f := by simpa using pc'
      simp [pc, curAt, running b' g pc]
    | failReset kept => rcases kept with pc | ⟨⟨_, pc, _⟩, _⟩ <;> simp [pc] at pc'
    | _ => simp_all

/-- The stack of a fiber the thread refers to is written by no other thread. -/
theorem Thread.Stacked.frame {cur' : FiberId → Nat} (stacked : th.Stacked sh cur)
    (same : ∀ f, th.Holds f → sh'.fibers f = sh.fibers f ∧ cur' f = cur f) : th.Stacked sh' cur' where
  running b f pc := by
    rw [(same f (.inl (by rw [pc]; rfl))).2]
    exact stacked.running b f pc
  yields b f pc := by
    obtain ⟨fiber, pointers⟩ := same f (.inl (by rw [pc]; rfl))
    rw [fiber, pointers]
    exact stacked.yields b f pc
  ends b f pc := by
    rw [(same f (.inl (by rw [pc]; rfl))).2]
    exact stacked.ends b f pc

/-! ## Along a run -/

/-- What the pointers keep. -/
structure Kept (cfg : Setup) (w : Living) : Prop where
  rooted : ∀ t, (w.s.thr t).Rooted (w.ft t)
  stacked : ∀ t, (w.s.thr t).Stacked w.s.sh w.cur
  rests : ∀ f, (∀ t, ¬ (w.s.thr t).Executes f) → (w.s.sh.fibers f).Rests (w.cur f)
  /-- nobody has a pointer to a fiber that is still to be made -/
  fresh : ∀ f, w.s.sh.nextFiber ≤ f → w.cur f = 0

variable {w w' : Living}

/-- A step of a thread leaves the fibers alone it does not refer to. -/
theorem Moves.untouched (cur : FiberId → Nat) (moves : Moves cfg t th sh m th' sh') (other : ¬ th.Holds f)
    (old : f < sh.nextFiber) :
    sh'.fibers f = sh.fibers f ∧ curAt sh cur th.pc th'.pc f = cur f :=
  ⟨moves.frame other old, curAt_of_ne fun refs => other (.inl refs)⟩

theorem Kept.thread (user : FiberId → Nat) (kept : Kept cfg w) (owned : Owned cfg w.s)
    (acc : (w.s.thr t).Accurate w.s.sh) (moves : Moves cfg t (w.s.thr t) w.s.sh m th sh) :
    Kept cfg { s := { w.s with thr := Function.update w.s.thr t th, sh }
               ft := Function.update w.ft t (ftAt (w.ft t) th.pc)
               cur := curAt w.s.sh w.cur (w.s.thr t).pc th.pc, user } := by
  have other : ∀ u, u ≠ t → Function.update w.s.thr t th u = w.s.thr u :=
    fun u apart => Function.update_of_ne apart _ _
  have own : Function.update w.s.thr t th t = th := Function.update_self ..
  have alone : ∀ f, (w.s.thr t).Holds f → ∀ u, u ≠ t → ¬ (w.s.thr u).Executes f :=
    fun f held u apart executes => apart (owned.single u t f executes.holds held)
  constructor
  case rooted =>
    intro u
    by_cases same : u = t
    · subst same
      simpa using moves.rooted (kept.rooted u)
    · simpa only [other u same, Function.update_of_ne same] using kept.rooted u
  case stacked =>
    intro u
    by_cases same : u = t
    · subst same
      simp only [own]
      refine moves.stacked (kept.stacked u) fun f held idle => kept.rests f fun v => ?_
      by_cases here : v = u
      · rwa [here]
      · exact alone f held v here
    · simp only [other u same]
      refine (kept.stacked u).frame fun f held => moves.untouched w.cur (fun here => same ?_) (owned.held u f held)
      exact owned.single u t f held here
  case rests =>
    intro f out
    have left : ∀ u, u ≠ t → ¬ (w.s.thr u).Executes f := fun u apart => by simpa only [other u apart] using out u
    refine moves.rests acc (kept.stacked t) (fun idle => kept.rests f fun u => ?_)
      (fun new => kept.fresh f (Nat.le_of_eq new.symm)) (by simpa only [own] using out t)
    by_cases same : u = t
    · rwa [same]
    · exact left u same
  case fresh =>
    intro f new
    have old : w.s.sh.nextFiber ≤ f := moves.nextFiber.trans new
    show curAt w.s.sh w.cur (w.s.thr t).pc th.pc f = 0
    rw [curAt_of_ne fun refs => Nat.not_lt.mpr old (owned.held t f (.inl refs))]
    exact kept.fresh f old

/-- Neither a thread nor a fiber has changed. -/
theorem Kept.share {stop : StopPc} {root : FiberState} {user : FiberId → Nat} (kept : Kept cfg w)
    (fibers : sh.fibers = w.s.sh.fibers) (next : w.s.sh.nextFiber ≤ sh.nextFiber) :
    Kept cfg { w with s := { w.s with sh, stop, root }, user } where
  rooted := kept.rooted
  stacked t := (kept.stacked t).frame fun f _ => ⟨congrFun fibers f, rfl⟩
  rests f out := by simpa only [fibers] using kept.rests f out
  fresh f new := kept.fresh f (next.trans new)

theorem Kept.stop (kept : Kept cfg w) (placed : Placed cfg w.s) (moves : StopMoves cfg w.s s') :
    Kept cfg { w with s := s' } := by
  cases moves with
  | @callRoot r pc root =>
    have waiting := placed.waiting (by rw [pc]; rfl) r root
    have same : ∀ u f, (Function.update w.s.thr r { w.s.thr r with pc := .loop } u).Executes f ↔
        (w.s.thr u).Executes f := by
      intro u f
      by_cases same : u = r
      · subst same
        simp [Thread.Executes, waiting]
      · rw [Function.update_of_ne same]
    constructor
    case rooted =>
      intro u
      by_cases same : u = r
      · subst same
        constructor <;> simp [Pc.switch]
      · simpa only [Function.update_of_ne same] using kept.rooted u
    case stacked =>
      intro u
      by_cases same : u = r
      · subst same
        constructor <;> simp
      · simpa only [Function.update_of_ne same] using kept.stacked u
    case rests => exact fun f out => kept.rests f fun u executes => out u ((same u f).mpr executes)
    case fresh => exact kept.fresh
  | _ => exact kept.share rfl (Nat.le_refl _)

/-- The steps of the scheduler with its pointers. -/
theorem lifeStep_step (moved : lifeStep cfg w (.step a) = some w') :
    (∀ r ∈ a.request, r.Held w.user) ∧ ∃ s', step cfg w.s a = some s' ∧ w' = w.after s' a := by
  simp only [lifeStep] at moved
  split at moved
  · rename_i held
    obtain ⟨s', step, same⟩ := Option.map_eq_some_iff.mp moved
    exact ⟨held, s', step, same.symm⟩
  · cases moved

/-- User code touches its own pointers only, and takes them from those there are. -/
theorem lifeStep_user {a : LifeAct} (moved : lifeStep cfg w a = some w') (other : ∀ b, a ≠ .step b) :
    ∃ g n, w' = { w with user := Function.update w.user g n } ∧
      (0 < w.user g ∨ ∃ t, (w.s.thr t).Executes g) := by
  cases a with
  | step b => exact (other b rfl).elim
  | copy f | drop f =>
    simp only [lifeStep] at moved
    split at moved
    · rename_i some
      cases moved
      exact ⟨f, _, rfl, .inl some⟩
    · cases moved
  | getThis t =>
    simp only [lifeStep] at moved
    split at moved
    · rename_i b f pc
      split at moved
      · cases moved
      · cases moved
        exact ⟨f, _, rfl, .inr ⟨t, b, .inl pc⟩⟩
    · cases moved

@[simp] theorem Living.after_s (w : Living) (s' : State) (a : Act) : (w.after s' a).s = s' := by
  cases a <;> rfl

theorem scheduler_run {as : List LifeAct} (run : Guarded (lifeStep cfg) (LifeFree cfg) {} as w) :
    ∃ bs, Guarded (step cfg) (FreeDequeue cfg) {} bs w.s := by
  refine run.project Living.s fun w a w' free moved => ?_
  by_cases scheduler : ∃ b, a = .step b
  · obtain ⟨b, rfl⟩ := scheduler
    obtain ⟨_, s', step, rfl⟩ := lifeStep_step moved
    exact ⟨[b], .single free (by simpa using step)⟩
  · obtain ⟨g, n, rfl, _⟩ := lifeStep_user moved fun b same => scheduler ⟨b, same⟩
    exact ⟨[], .refl⟩

theorem Kept.step {a : LifeAct} (kept : Kept cfg w) (owned : Owned cfg w.s) (placed : Placed cfg w.s)
    (acc : ∀ t, (w.s.thr t).Accurate w.s.sh) (moved : lifeStep cfg w a = some w') : Kept cfg w' := by
  by_cases scheduler : ∃ b, a = .step b
  · obtain ⟨b, rfl⟩ := scheduler
    obtain ⟨_, s', step, rfl⟩ := lifeStep_step moved
    obtain ⟨_, moves⟩ := step_cases step
    cases moves with
    | @thread t m th sh moves =>
      have after := kept.thread (spend w.user (Act.thread t m).request) owned (acc t) moves
      simpa only [Living.after, Function.update_self] using after
    | external => exact kept.share (schedule_fibers ..) (Nat.le_of_eq (schedule_nextFiber ..).symm)
    | create => exact kept.share rfl (Nat.le_succ _)
    | stop moves => exact kept.stop placed moves
  · obtain ⟨g, n, rfl, _⟩ := lifeStep_user moved fun b same => scheduler ⟨b, same⟩
    exact kept.share rfl (Nat.le_refl _)

theorem Kept.start : Kept cfg {} where
  rooted _ := by constructor <;> simp [Pc.switch]
  stacked _ := by constructor <;> simp
  rests _ _ := ⟨rfl, rfl⟩
  fresh _ _ := rfl

theorem Kept.run {as : List LifeAct} (run : Guarded (lifeStep cfg) (LifeFree cfg) {} as w) : Kept cfg w := by
  refine run.invariant .start fun _ w a w' before kept _ moved => ?_
  obtain ⟨_, scheduler⟩ := scheduler_run before
  have placed := Placed.run (scheduler.mono fun _ _ _ => trivial)
  exact kept.step (Owned.run scheduler) placed (accurate_run scheduler) moved

/-! ## The last pointer -/

/-- A thread in `run()` points at every fiber it refers to. -/
theorem Kept.pointed (kept : Kept cfg w) (among : t ∈ cfg.threads) (inside : (w.s.thr t).pc ≠ .exited)
    (held : (w.s.thr t).Holds f) : Pointed cfg w f := by
  refine .inr (.inl ⟨t, among, ?_⟩)
  rcases (kept.rooted t).points held with taken | own
  · exact .inl taken
  · exact .inr ⟨inside, own⟩

theorem Kept.executes (kept : Kept cfg w) (owned : Owned cfg w.s) (executes : (w.s.thr t).Executes f) :
    Pointed cfg w f := by
  refine kept.pointed (owned.holder_mem executes.holds) (fun left => ?_) executes.holds
  obtain ⟨b, pc | ⟨last, pc⟩⟩ := executes <;> simp [left] at pc

/-- The fibers a call queues are those it is given. -/
theorem schedule_names {owed : Bool} {r : Request} (queued : ∃ task ∈ (schedule owed sh r).queue, task.fiber = some f) :
    (∃ task ∈ sh.queue, task.fiber = some f) ∨ ∃ i ∈ r.items, i.1 = .fiber f := by
  revert queued
  refine schedule_induct (P := fun sh' => (∃ task ∈ sh'.queue, task.fiber = some f) →
    (∃ task ∈ sh.queue, task.fiber = some f) ∨ ∃ i ∈ r.items, i.1 = .fiber f) .inl ?_
  rintro sh' ⟨fc, thread⟩ member ih ⟨task, queued, named⟩
  cases fc with
  | null => exact ih ⟨task, queued, named⟩
  | fiber g =>
    rcases List.mem_append.mp queued with queued | queued
    · exact ih ⟨task, queued, named⟩
    · obtain rfl := List.mem_singleton.mp queued
      cases named
      exact .inr ⟨_, member, rfl⟩
  | cb =>
    rcases List.mem_append.mp queued with queued | queued
    · exact ih ⟨task, queued, named⟩
    · obtain rfl := List.mem_singleton.mp queued
      cases named

/-- A thread queues fibers it refers to, and those its fiber schedules. -/
theorem Moves.enqueues (moves : Moves cfg t th sh m th' sh') (queued : ∃ task ∈ sh'.queue, task.fiber = some f) :
    (∃ task ∈ sh.queue, task.fiber = some f) ∨ th.Holds f ∨
      ∃ r ∈ (Act.thread t m).request, ∃ i ∈ r.items, i.1 = .fiber f := by
  cases moves with
  | take pc found =>
    obtain ⟨task, queued, named⟩ := queued
    exact .inl ⟨task, (dequeue_mem found).2 queued, named⟩
  | requeue pc =>
    obtain ⟨task, queued, named⟩ := queued
    rcases List.mem_append.mp queued with queued | queued
    · exact .inl ⟨task, queued, named⟩
    · obtain rfl := List.mem_singleton.mp queued
      exact .inr (.inl (.inl (by rw [pc]; exact named)))
  | schedule => exact (schedule_names queued).imp id fun named => .inr ⟨_, rfl, named⟩
  | _ => exact .inl queued

/-- A call is given fibers to which user code has pointers. -/
theorem Request.Held.pointed {r : Request} (held : r.Held w.user) (named : ∃ i ∈ r.items, i.1 = .fiber f) :
    Pointed cfg w f := by
  obtain ⟨⟨fc, target⟩, member, rfl⟩ := named
  exact .inr (.inr (held _ member).1)

theorem spend_le (user : FiberId → Nat) (r : Option Request) (f : FiberId) : spend user r f ≤ user f := by
  cases r with
  | none => exact Nat.le_refl _
  | some r => exact Nat.sub_le ..

/-- The only pointers to a fiber are those of the fiber itself. -/
structure Unpointed (cfg : Setup) (f : FiberId) (x : Fiber) (n : Nat) (w : Living) : Prop where
  made : f < w.s.sh.nextFiber
  none : ¬ Pointed cfg w f
  fiber : w.s.sh.fibers f = x
  cur : w.cur f = n

variable {x : Fiber} {n : Nat}

theorem Unpointed.thread (unpointed : Unpointed cfg f x n w) (kept : Kept cfg w) (owned : Owned cfg w.s)
    (moves : Moves cfg t (w.s.thr t) w.s.sh m th sh) (held : ∀ r ∈ (Act.thread t m).request, r.Held w.user) :
    Unpointed cfg f x n (w.after { w.s with thr := Function.update w.s.thr t th, sh } (.thread t m)) := by
  have out : ¬ (w.s.thr t).Holds f := fun here =>
    unpointed.none (kept.pointed (owned.mover moves) moves.inside_run here)
  have out' : ¬ th.Holds f := by
    intro here
    rcases moves.holds here with before | ⟨_, ⟨task, rest⟩, found, named⟩ | ⟨new, _⟩
    · exact out before
    · exact unpointed.none (.inl ⟨task, (dequeue_mem found).1, named⟩)
    · exact Nat.ne_of_lt unpointed.made new
  obtain ⟨fiber, cur⟩ := moves.untouched w.cur out unpointed.made
  refine ⟨Nat.lt_of_lt_of_le unpointed.made moves.nextFiber, ?_, fiber.trans unpointed.fiber, ?_⟩
  case refine_1 =>
    rintro (queued | ⟨u, among, pointer⟩ | user)
    · rcases moves.enqueues queued with queued | here | ⟨r, called, named⟩
      · exact unpointed.none (.inl queued)
      · exact out here
      · exact unpointed.none ((held r called).pointed named)
    · by_cases same : u = t
      · subst same
        simp only [Living.after, Function.update_self] at pointer
        rcases pointer with taken | ⟨_, own⟩
        · rcases ftAt_some taken with refs | before
          · exact out' (.inl refs)
          · exact unpointed.none (.inr (.inl ⟨u, among, .inl before⟩))
        · exact out' (.inr own)
      · simp only [Living.after, Function.update_of_ne same] at pointer
        exact unpointed.none (.inr (.inl ⟨u, among, pointer⟩))
    · exact unpointed.none (.inr (.inr (Nat.lt_of_lt_of_le user (spend_le ..))))
  case refine_2 =>
    simp only [Living.after, Function.update_self]
    exact cur.trans unpointed.cur

theorem Unpointed.mono (unpointed : Unpointed cfg f x n w) (next : w.s.sh.nextFiber ≤ w'.s.sh.nextFiber)
    (pointed : Pointed cfg w' f → Pointed cfg w f) (fiber : w'.s.sh.fibers f = w.s.sh.fibers f)
    (cur : w'.cur f = w.cur f) : Unpointed cfg f x n w' where
  made := Nat.lt_of_lt_of_le unpointed.made next
  none := mt pointed unpointed.none
  fiber := fiber.trans unpointed.fiber
  cur := cur.trans unpointed.cur

theorem Unpointed.stop (unpointed : Unpointed cfg f x n w) (placed : Placed cfg w.s) (moves : StopMoves cfg w.s s') :
    Unpointed cfg f x n { w with s := s' } := by
  cases moves with
  | @callRoot r pc root =>
    have waiting := placed.waiting (by rw [pc]; rfl) r root
    refine unpointed.mono (Nat.le_refl _) (fun pointed => ?_) rfl rfl
    refine pointed.imp id (Or.imp ?_ id)
    rintro ⟨t, among, pointer⟩
    refine ⟨t, among, pointer.imp id ?_⟩
    rintro ⟨inside, own⟩
    by_cases same : t = r
    · subst same
      simp [waiting] at own
    · simpa only [Function.update_of_ne same] using And.intro inside own
  | _ => exact unpointed.mono (Nat.le_refl _) id rfl rfl

/-- A call adds to the queue only fibers to which user code has pointers. -/
theorem Unpointed.external {r : Request} {owed : Bool} (unpointed : Unpointed cfg f x n w) (held : r.Held w.user) :
    Unpointed cfg f x n (w.after { w.s with sh := schedule owed w.s.sh r } (.external r)) := by
  refine unpointed.mono (Nat.le_of_eq (schedule_nextFiber ..).symm) ?_ (congrFun (schedule_fibers ..) f) rfl
  rintro (queued | threads | user)
  · rcases schedule_names queued with queued | named
    · exact .inl queued
    · exact held.pointed named
  · exact .inr (.inl threads)
  · exact .inr (.inr (Nat.lt_of_lt_of_le user (spend_le w.user (some r) f)))

/-- New pointers of user code to another fiber. -/
theorem Unpointed.user {s' : State} {k : Nat} (unpointed : Unpointed cfg f x n w) (apart : f ≠ g)
    (next : w.s.sh.nextFiber ≤ s'.sh.nextFiber) (queue : s'.sh.queue = w.s.sh.queue) (thr : s'.thr = w.s.thr)
    (fibers : s'.sh.fibers = w.s.sh.fibers) :
    Unpointed cfg f x n { w with s := s', user := Function.update w.user g k } := by
  refine unpointed.mono next ?_ (congrFun fibers f) rfl
  rintro (queued | threads | user)
  · exact .inl (by simpa only [queue] using queued)
  · exact .inr (.inl (by simpa only [thr] using threads))
  · exact .inr (.inr (by simpa only [Function.update_of_ne apart] using user))

/-- The step lemma: nobody gets a pointer to a fiber that at most the fiber itself has. -/
theorem Unpointed.step {a : LifeAct} (unpointed : Unpointed cfg f x n w) (kept : Kept cfg w) (owned : Owned cfg w.s)
    (placed : Placed cfg w.s) (moved : lifeStep cfg w a = some w') : Unpointed cfg f x n w' := by
  by_cases scheduler : ∃ b, a = .step b
  · obtain ⟨b, rfl⟩ := scheduler
    obtain ⟨held, s', step, rfl⟩ := lifeStep_step moved
    obtain ⟨_, moves⟩ := step_cases step
    cases moves with
    | thread moves => exact unpointed.thread kept owned moves held
    | external => exact unpointed.external (held _ rfl)
    | create => exact unpointed.user (Nat.ne_of_lt unpointed.made) (Nat.le_succ _) rfl rfl rfl
    | stop moves => exact unpointed.stop placed moves
  · obtain ⟨g, k, rfl, pointer⟩ := lifeStep_user moved fun b same => scheduler ⟨b, same⟩
    refine unpointed.user ?_ (Nat.le_refl _) rfl rfl rfl
    rintro rfl
    rcases pointer with user | ⟨t, executes⟩
    · exact unpointed.none (.inr (.inr user))
    · exact unpointed.none (kept.executes owned executes)

/-- The run lemma. -/
theorem Unpointed.run {as bs : List LifeAct} (run : Guarded (lifeStep cfg) (LifeFree cfg) {} as w)
    (unpointed : Unpointed cfg f x n w) (later : Guarded (lifeStep cfg) (LifeFree cfg) w bs w') :
    Unpointed cfg f x n w' := by
  refine later.invariant unpointed fun _ _ _ _ before unpointed _ moved => ?_
  have before := run.append before
  obtain ⟨_, scheduler⟩ := scheduler_run before
  exact unpointed.step (Kept.run before) (Owned.run scheduler)
    (Placed.run (scheduler.mono fun _ _ _ => trivial)) moved

/-- A fiber is destroyed unless somebody else points at it or it has yielded. -/
theorem Kept.alive_iff (kept : Kept cfg w) (owned : Owned cfg w.s) :
    Alive cfg w f ↔ Pointed cfg w f ∨ (w.s.sh.fibers f).ctx = .saved := by
  by_cases out : ∀ t, ¬ (w.s.thr t).Executes f
  · have rests := kept.rests f out
    refine or_congr_right ?_
    unfold Fiber.Rests at rests
    split at rests <;> rename_i ctx <;> simp [ctx, rests.2]
  · obtain ⟨t, executes⟩ := not_forall_not.mp out
    have pointed := kept.executes owned executes
    exact iff_of_true (.inl pointed) (.inl pointed)

/-- **Destruction.** A fiber is destroyed when nobody else points at it, unless it has yielded; `run()` itself points
at the fiber it executes. A destroyed one is in a state `~Fiber` asserts, and nobody comes to refer to it any more. -/
theorem fiber_destroyed {as : List LifeAct} (run : Guarded (lifeStep cfg) (LifeFree cfg) {} as w)
    (made : f < w.s.sh.nextFiber) :
    (Alive cfg w f ↔ Pointed cfg w f ∨ (w.s.sh.fibers f).ctx = .saved) ∧
    (∀ t, (w.s.thr t).Executes f → w.ft t = some f ∨ (w.s.thr t).cbFiber = some f) ∧
    (¬ Alive cfg w f → (w.s.sh.fibers f).state.resettable = true ∧
      ∀ bs w', Guarded (lifeStep cfg) (LifeFree cfg) w bs w' → ¬ Alive cfg w' f ∧ ∀ t, ¬ (w'.s.thr t).Executes f) := by
  have kept := Kept.run run
  obtain ⟨_, scheduler⟩ := scheduler_run run
  have owned := Owned.run scheduler
  refine ⟨kept.alive_iff owned, fun t executes => (kept.rooted t).points executes.holds, fun gone => ?_⟩
  obtain ⟨none, cur⟩ := not_or.mp gone
  have out : ∀ t, ¬ (w.s.thr t).Executes f := fun t executes => none (kept.executes owned executes)
  have rests := kept.rests f out
  constructor
  · by_contra live
    have two := (rests.saved (by simpa using live)).2
    omega
  · intro bs w' later
    have unpointed : Unpointed cfg f (w.s.sh.fibers f) 0 w := ⟨made, none, rfl, by omega⟩
    have after := unpointed.run run later
    obtain ⟨_, scheduler'⟩ := scheduler_run (run.append later)
    refine ⟨not_or.mpr ⟨after.none, by simp [after.cur]⟩, fun t executes => after.none ?_⟩
    exact (Kept.run (run.append later)).executes (Owned.run scheduler') executes

/-- A fiber that user code has made, scheduled and let go of ends. -/
def letGo : List LifeAct :=
  [.step .create, .step (.external (.one (.fiber 0) none)), .drop 0] ++
    List.replicate 4 (.step (.thread 1 .next)) ++ [.step (.thread 1 (.user .ret))] ++
    List.replicate 3 (.step (.thread 1 .next))

theorem fiber_destroyed_letGo :
    ∃ w, Guarded (lifeStep twoWorkers) (LifeFree twoWorkers) {} letGo w ∧ ¬ Alive twoWorkers w 0 ∧
      (w.s.sh.fibers 0).state.resettable = true := by
  obtain ⟨w, run, test⟩ := Guarded.of_any
    (show (execIf (lifeStep twoWorkers) (LifeFree twoWorkers) {} letGo).any (fun w =>
      0 < w.s.sh.nextFiber ∧ ¬ Alive twoWorkers w 0) from by decide +kernel)
  obtain ⟨made, gone⟩ := of_decide_eq_true test
  exact ⟨w, run, gone, ((fiber_destroyed run made).2.2 gone).1⟩

/-- **Abandoned fibers.** A fiber that has yielded and to which nobody else points is never destroyed and never
executed again. -/
theorem fiber_abandoned {as : List LifeAct} (run : Guarded (lifeStep cfg) (LifeFree cfg) {} as w)
    (made : f < w.s.sh.nextFiber) (none : ¬ Pointed cfg w f) (yielded : (w.s.sh.fibers f).ctx = .saved)
    {bs : List LifeAct} (later : Guarded (lifeStep cfg) (LifeFree cfg) w bs w') :
    Alive cfg w' f ∧ ¬ Pointed cfg w' f ∧ w'.s.sh.fibers f = w.s.sh.fibers f ∧ ∀ t, ¬ (w'.s.thr t).Executes f := by
  have unpointed : Unpointed cfg f (w.s.sh.fibers f) (w.cur f) w := ⟨made, none, rfl, rfl⟩
  have after := unpointed.run run later
  obtain ⟨_, scheduler⟩ := scheduler_run (run.append later)
  have owned := Owned.run scheduler
  have kept := Kept.run (run.append later)
  refine ⟨(kept.alive_iff owned).mpr (.inr ?_), after.none, after.fiber, fun t executes => ?_⟩
  · rw [after.fiber, yielded]
  · exact after.none (kept.executes owned executes)

/-- A callback yields `HOLD`, and nobody has taken a pointer to its fiber. -/
def abandons : List LifeAct :=
  .step (.external (.one .cb none)) :: List.replicate 4 (.step (.thread 1 .next)) ++
    .step (.thread 1 (.user .yieldHold)) :: List.replicate 4 (.step (.thread 1 .next))

theorem fiber_abandoned_abandons :
    ∃ w, Guarded (lifeStep twoWorkers) (LifeFree twoWorkers) {} abandons w ∧
      ∀ bs w', Guarded (lifeStep twoWorkers) (LifeFree twoWorkers) w bs w' → Alive twoWorkers w' 0 ∧
        ∀ t, ¬ (w'.s.thr t).Executes 0 := by
  obtain ⟨w, run, test⟩ := Guarded.of_any
    (show (execIf (lifeStep twoWorkers) (LifeFree twoWorkers) {} abandons).any (fun w =>
      0 < w.s.sh.nextFiber ∧ ¬ Pointed twoWorkers w 0 ∧ (w.s.sh.fibers 0).ctx = .saved) from by decide +kernel)
  obtain ⟨made, none, yielded⟩ := of_decide_eq_true test
  refine ⟨w, run, fun bs w' later => ?_⟩
  obtain ⟨alive, _, _, out⟩ := fiber_abandoned run made none yielded later
  exact ⟨alive, out⟩

end Atpdxy.Sched
