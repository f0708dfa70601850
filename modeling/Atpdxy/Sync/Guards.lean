import Atpdxy.Sync.Mutex

/-!
# Guards

`ScopedLockImpl`, `ReadLockImpl` and `WriteLockImpl` of `mutex.h` on one lock of any class. A
guard is an object of its own, so which thread has it does not matter, and any number
of them are constructed, called and destroyed in any order. What is left in `m_locked` by
what was in its place before is read by nobody.
-/

namespace Atpdxy.Sync.Guards

open Run
open Run.Locks (Mode)
open Run.Sections (Holding)

/-- The statement of a guard's code that comes next. -/
inductive Point
  /-- `m_mutex.lock()` -/
  | locking
  /-- `m_locked = true` -/
  | locked
  /-- none: no call is in progress -/
  | between
  /-- `m_mutex.unlock()` -/
  | unlocking
  /-- `m_locked = false` -/
  | unlocked
  deriving DecidableEq, Repr

structure Guard where
  mode : Mode
  m_locked : Bool
  point : Point
  destroying : Bool := false
  deriving DecidableEq, Repr

/-- The constructor: it locks before it writes `m_locked`. -/
def Guard.new (mode : Mode) (junk : Bool) : Guard := { mode, m_locked := junk, point := .locking }

def ScopedLockImpl (junk : Bool) : Guard := .new .write junk
def ReadLockImpl (junk : Bool) : Guard := .new .read junk
def WriteLockImpl (junk : Bool) : Guard := .new .write junk

/-- The three templates. -/
inductive Kind
  | scoped | read | write
  deriving DecidableEq, Repr

def Kind.construct : Kind → Bool → Guard
  | .scoped => ScopedLockImpl
  | .read => ReadLockImpl
  | .write => WriteLockImpl

/-- The guards of a class: `Lock`, or `ReadLock` and `WriteLock`. -/
def guardsOf : LockClass → Kind → Bool
  | .rwMutex, .read | .rwMutex, .write => true
  | .rwMutex, .scoped => false
  | _, kind => kind = .scoped

/-- `lock()` of each of the three. -/
def Guard.lock (x : Guard) : Guard := if x.m_locked then x else { x with point := .locking }

/-- `unlock()` of each of the three. -/
def Guard.unlock (x : Guard) : Guard := if x.m_locked then { x with point := .unlocking } else x

/-- What a guard has done to the lock. -/
inductive Event
  | acquired | released
  deriving DecidableEq, Repr

variable {ι : Type} [DecidableEq ι]

/-- The lock, the guards there are, and what each has done to it. -/
structure State (cls : LockClass) (ι : Type) [DecidableEq ι] where
  mutex : (cls.lock (ι := ι)).State
  guards : ι → Option Guard := fun _ => none
  /-- read by no step -/
  trail : ι → List Event := fun _ => []

variable {cls : LockClass}

def State.start : State cls ι := { mutex := cls.lock.free }

inductive Act (ι : Type)
  | construct (g : ι) (kind : Kind) (junk : Bool)
  | lock (g : ι)
  | unlock (g : ι)
  | destroy (g : ι)
  /-- the next statement of the call in progress -/
  | next (g : ι)
  deriving DecidableEq, Repr

def State.set (s : State cls ι) (g : ι) (x : Option Guard) : State cls ι :=
  { s with guards := Function.update s.guards g x }

def State.record (s : State cls ι) (g : ι) (e : Event) : State cls ι :=
  { s with trail := Function.update s.trail g (s.trail g ++ [e]) }

/-- A guard between two calls is called. -/
def State.call (s : State cls ι) (g : ι) (f : Guard → Option Guard) : Option (State cls ι) :=
  match s.guards g with
  | some x => if x.point = .between then some (s.set g (f x)) else none
  | none => none

/-- The destructor calls `unlock()`. -/
def Guard.destroy (x : Guard) : Option Guard := if x.m_locked then some { x.unlock with destroying := true } else none

/-- The next statement of guard `x`. -/
def State.advance (s : State cls ι) (g : ι) (x : Guard) : Option (State cls ι) :=
  match x.point with
  | .locking =>
    (cls.lock.acquire x.mode s.mutex).map fun mutex =>
      { (s.set g (some { x with point := .locked })).record g .acquired with mutex }
  | .locked => some (s.set g (some { x with m_locked := true, point := .between }))
  | .between => none
  | .unlocking =>
    some { (s.set g (some { x with point := .unlocked })).record g .released with mutex := cls.lock.release s.mutex }
  | .unlocked => some (s.set g (if x.destroying then none else some { x with m_locked := false, point := .between }))

def step (s : State cls ι) : Act ι → Option (State cls ι)
  | .construct g kind junk =>
    if (s.guards g).isNone ∧ guardsOf cls kind then some (s.set g (some (kind.construct junk))) else none
  | .lock g => s.call g fun x => some x.lock
  | .unlock g => s.call g fun x => some x.unlock
  | .destroy g => s.call g Guard.destroy
  | .next g => (s.guards g).bind (s.advance g)

/-- The last thing the guard did was to take the lock. -/
def State.Has (s : State cls ι) (g : ι) : Prop := (s.trail g).getLast? = some .acquired

/-- Each taking is followed by one giving back. -/
inductive Alternating : List Event → Prop
  | nil : Alternating []
  | acquired {es : List Event} : Alternating es → es.getLast? ≠ some .acquired → Alternating (es ++ [.acquired])
  | released {es : List Event} : Alternating es → es.getLast? = some .acquired → Alternating (es ++ [.released])

/-- Guards share the lock only to read; between calls `m_locked` says whether a guard has the lock; it is given
back once each time it was taken, and never else; a guard that is gone has not got it; and where no guard has,
the next one gets it. -/
structure Sound (s : State cls ι) : Prop where
  exclusive : ∀ g g' x x', g ≠ g' → s.guards g = some x → s.guards g' = some x' → s.Has g → s.Has g' →
    x.mode = .read ∧ x'.mode = .read
  accurate : ∀ g x, s.guards g = some x → x.point = .between → (x.m_locked = true ↔ s.Has g)
  once : ∀ g, Alternating (s.trail g)
  gone : ∀ g, s.guards g = none → ¬ s.Has g
  free : (∀ g, ¬ s.Has g) → ∀ mode, (cls.lock.acquire mode s.mutex).isSome

/-! ## The invariant -/

/-- The guard has the lock, by where its code is. -/
def Guard.has (x : Guard) : Bool :=
  match x.point with
  | .locked | .unlocking => true
  | .between => x.m_locked
  | .locking | .unlocked => false

/-- The mode in which a guard has the lock. -/
def heldBy (x : Option Guard) : Option Mode := x.bind fun x => if x.has then some x.mode else none

def State.holding (s : State cls ι) : Holding ι := fun g => heldBy (s.guards g)

/-- What is known of one guard and its trail. -/
structure Tracked (x : Option Guard) (trail : List Event) : Prop where
  alternating : Alternating trail
  last : trail.getLast? = some .acquired ↔ (heldBy x).isSome

structure Inv (s : State cls ι) : Prop where
  rep : cls.lock.Rep s.mutex s.holding
  compatible : s.holding.Compatible
  tracked : ∀ g, Tracked (s.guards g) (s.trail g)

variable {s s' : State cls ι} {g : ι} {x : Guard} {y : Option Guard} {a : Act ι} {as : List (Act ι)}

@[simp] theorem set_guards (s : State cls ι) (g : ι) (y : Option Guard) :
    (s.set g y).guards = Function.update s.guards g y := rfl
@[simp] theorem set_trail (s : State cls ι) (g : ι) (y : Option Guard) : (s.set g y).trail = s.trail := rfl
@[simp] theorem record_guards (s : State cls ι) (g : ι) (e : Event) : (s.record g e).guards = s.guards := rfl
@[simp] theorem record_trail (s : State cls ι) (g : ι) (e : Event) :
    (s.record g e).trail = Function.update s.trail g (s.trail g ++ [e]) := rfl

theorem heldBy_update (guards : ι → Option Guard) (g : ι) (y : Option Guard) :
    (fun g' => heldBy (Function.update guards g y g')) = Holding.set (fun g' => heldBy (guards g')) g (heldBy y) := by
  funext g'
  by_cases same : g' = g
  · subst same
    simp
  · rw [Holding.set_ne _ _ same]
    simp [same]

theorem Inv.start : Inv (State.start : State cls ι) where
  rep := cls.lock.rep_free
  compatible _ _ _ _ _ found := by cases found
  tracked _ := ⟨.nil, by simp [State.start, heldBy]⟩

/-- A statement that does nothing to the lock. -/
theorem Inv.set (inv : Inv s) (same : heldBy y = heldBy (s.guards g)) : Inv (s.set g y) := by
  have held : (s.set g y).holding = s.holding := by
    have updated := heldBy_update s.guards g y
    rw [same] at updated
    exact updated.trans (Function.update_eq_self g s.holding)
  refine ⟨held ▸ inv.rep, held ▸ inv.compatible, fun g' => ?_⟩
  by_cases here : g' = g
  · subst here
    obtain ⟨alternating, last⟩ := inv.tracked g'
    refine ⟨alternating, ?_⟩
    rw [set_trail, last, set_guards, Function.update_self, same]
  · simpa [here] using inv.tracked g'

/-- `m_mutex.lock()` has returned. -/
theorem Inv.acquire {mutex : (cls.lock (ι := ι)).State} (inv : Inv s) (there : s.guards g = some x)
    (locking : x.point = .locking) (taken : cls.lock.acquire x.mode s.mutex = some mutex) :
    Inv { (s.set g (some { x with point := .locked })).record g .acquired with mutex } := by
  have outside : s.holding g = none := by simp [State.holding, there, heldBy, Guard.has, locking]
  obtain ⟨shares, rep⟩ := cls.lock.rep_acquire _ _ _ g _ inv.rep outside taken
  have held : (fun g' => heldBy (Function.update s.guards g (some { x with point := .locked }) g')) =
      s.holding.set g (some x.mode) := heldBy_update s.guards g _
  refine ⟨?_, ?_, fun g' => ?_⟩
  · show cls.lock.Rep mutex fun g' => heldBy (Function.update s.guards g _ g')
    rw [held]
    exact rep
  · show Holding.Compatible fun g' => heldBy (Function.update s.guards g _ g')
    rw [held]
    exact inv.compatible.acquire shares
  · show Tracked (Function.update s.guards g _ g') (Function.update s.trail g _ g')
    obtain ⟨alternating, last⟩ := inv.tracked g'
    by_cases here : g' = g
    · subst here
      have not : (s.trail g').getLast? ≠ some .acquired := by
        intro had
        rw [last, there, heldBy] at had
        simp [Guard.has, locking] at had
      rw [Function.update_self, Function.update_self]
      exact ⟨alternating.acquired not, by simp [heldBy, Guard.has]⟩
    · simpa [here] using inv.tracked g'

/-- `m_mutex.unlock()` has returned. -/
theorem Inv.release (inv : Inv s) (there : s.guards g = some x) (unlocking : x.point = .unlocking) :
    Inv { (s.set g (some { x with point := .unlocked })).record g .released with
      mutex := cls.lock.release s.mutex } := by
  have mine : s.holding g = some x.mode := by simp [State.holding, there, heldBy, Guard.has, unlocking]
  have held : (fun g' => heldBy (Function.update s.guards g (some { x with point := .unlocked }) g')) =
      s.holding.set g none := heldBy_update s.guards g _
  refine ⟨?_, ?_, fun g' => ?_⟩
  · show cls.lock.Rep _ fun g' => heldBy (Function.update s.guards g _ g')
    rw [held]
    exact cls.lock.rep_release _ _ g _ inv.rep inv.compatible mine
  · show Holding.Compatible fun g' => heldBy (Function.update s.guards g _ g')
    rw [held]
    exact inv.compatible.release g
  · show Tracked (Function.update s.guards g _ g') (Function.update s.trail g _ g')
    obtain ⟨alternating, last⟩ := inv.tracked g'
    by_cases here : g' = g
    · subst here
      have had : (s.trail g').getLast? = some .acquired := by
        rw [last, there, heldBy]
        simp [Guard.has, unlocking]
      rw [Function.update_self, Function.update_self]
      exact ⟨alternating.released had, by simp [heldBy, Guard.has]⟩
    · simpa [here] using inv.tracked g'

/-- A call between two others does nothing to the lock by itself. -/
theorem Inv.call {f : Guard → Option Guard} (inv : Inv s) (called : s.call g f = some s')
    (same : ∀ x, x.point = .between → heldBy (f x) = heldBy (some x)) : Inv s' := by
  unfold State.call at called
  split at called
  · rename_i x there
    split at called <;> cases called
    rename_i between
    exact inv.set (by rw [there]; exact same x between)
  · cases called

theorem Inv.advance (inv : Inv s) (there : s.guards g = some x) (advanced : s.advance g x = some s') : Inv s' := by
  unfold State.advance at advanced
  split at advanced
  · rename_i locking
    obtain ⟨mutex, taken, rfl⟩ := Option.map_eq_some_iff.mp advanced
    exact inv.acquire there locking taken
  · rename_i locked
    cases advanced
    exact inv.set (by simp [there, heldBy, Guard.has, locked])
  · cases advanced
  · rename_i unlocking
    cases advanced
    exact inv.release there unlocking
  · rename_i unlocked
    cases advanced
    refine inv.set ?_
    split <;> simp [there, heldBy, Guard.has, unlocked]

theorem Inv.step (inv : Inv s) (step : Guards.step s a = some s') : Inv s' := by
  cases a with
  | construct g kind junk =>
    simp only [Guards.step] at step
    split at step <;> cases step
    rename_i new
    refine inv.set ?_
    rw [Option.isNone_iff_eq_none.mp new.1]
    cases kind <;> rfl
  | lock g =>
    refine inv.call step fun x between => ?_
    unfold Guard.lock
    by_cases locked : x.m_locked = true <;> simp [heldBy, Guard.has, locked, between]
  | unlock g =>
    refine inv.call step fun x between => ?_
    unfold Guard.unlock
    by_cases locked : x.m_locked = true <;> simp [heldBy, Guard.has, locked, between]
  | destroy g =>
    refine inv.call step fun x between => ?_
    unfold Guard.destroy Guard.unlock
    by_cases locked : x.m_locked = true <;> simp [heldBy, Guard.has, locked, between]
  | next g =>
    obtain ⟨x, there, advanced⟩ := Option.bind_eq_some_iff.mp step
    exact inv.advance there advanced

theorem Inv.has_iff (inv : Inv s) (g : ι) : s.Has g ↔ (s.holding g).isSome := (inv.tracked g).last

theorem Inv.sound (inv : Inv s) : Sound s where
  exclusive g g' x x' apart there there' has has' := by
    have mode : ∀ g x, s.guards g = some x → s.Has g → s.holding g = some x.mode := by
      intro g x there has
      have held := (inv.has_iff g).mp has
      simp only [State.holding, there, heldBy, Option.bind_some] at held ⊢
      split at held
      · rename_i holds
        rw [if_pos holds]
      · cases held
    exact inv.compatible g g' apart _ _ (mode g x there has) (mode g' x' there' has')
  accurate g x there between := by
    rw [inv.has_iff, State.holding, there]
    by_cases locked : x.m_locked = true <;> simp [heldBy, Guard.has, between, locked]
  once g := (inv.tracked g).alternating
  gone g none has := by
    have held := (inv.has_iff g).mp has
    rw [State.holding, none] at held
    cases held
  free nobody mode := by
    have none : s.holding = .nobody := by
      funext g
      have not := mt (inv.has_iff g).mpr (nobody g)
      show s.holding g = none
      simpa using not
    exact cls.lock.available _ _ (none ▸ inv.rep)

/-- **Main result**: guards on a lock of any class are sound in every run, however their calls are interleaved. -/
theorem guards_sound (cls : LockClass) (as : List (Act ι)) (s : State cls ι) (run : exec step .start as = some s) :
    Sound s := by
  have inv : Inv s := (Guarded.of_exec run).invariant (I := Inv) .start fun _ _ _ _ _ inv _ step => inv.step step
  exact inv.sound

/-- Two threads at a `CASLock`: the second waits until the first guard is unlocked early, and is destroyed then. -/
def contended : List (Act Bool) :=
  [.construct true .scoped true, .construct false .scoped false, .next true, .next true, .unlock true, .next true,
    .next false, .next true, .next false, .destroy true, .destroy false, .next false, .next false]

theorem guards_sound_contended :
    ∃ s, exec step (State.start : State .casLock Bool) contended = some s ∧ Sound s ∧
      s.trail true = [.acquired, .released] ∧ s.trail false = [.acquired, .released] := by
  obtain ⟨s, run, test⟩ := exec_of_any (show (exec step (State.start : State .casLock Bool) contended).any
    (fun s => s.trail true = [.acquired, .released] ∧ s.trail false = [.acquired, .released]) = true from by decide)
  obtain ⟨first, second⟩ : s.trail true = [.acquired, .released] ∧ s.trail false = [.acquired, .released] := by
    simpa using test
  exact ⟨s, run, guards_sound .casLock contended s run, first, second⟩

end Atpdxy.Sync.Guards
