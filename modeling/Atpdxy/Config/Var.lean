import Mathlib.Data.Finset.Basic
import Mathlib.Data.List.Chain
import Atpdxy.Run.Guarded

/-!
# A configuration variable and its listeners

`ConfigVar::setValue` (`config.h`) in two steps: under the read lock it compares
and calls the listeners, under the write lock it assigns. Any number of threads
may be between the two. A listener's record is the list of the pairs it was
called with.

The read lock is shared, so two calls can both notify from one old value and
assign in the other order (`crossed`). `Alone` is the condition that excludes
it, and the first step that breaks it also breaks the chain (`overlap`).
-/

namespace Atpdxy.Config

open Run

/-- The key of a listener in `m_cbs`. -/
abbrev ListenerId := Nat

abbrev Tid := Nat

/-- A `ConfigVar<T>` and the calls of `setValue` in progress. -/
structure ConfigVar (T : Type) where
  val : T
  /-- the threads between the two sections, with the value each will assign -/
  calls : List (Tid × T) := []
  /-- the pairs `(old_value, new_value)` each listener was called with, in order -/
  received : ListenerId → List (T × T) := fun _ => []

/-- The two sections of a call. -/
inductive Act (T : Type)
  | notify (t : Tid) (v : T)
  | assign (t : Tid)
  deriving DecidableEq, Repr

variable {T : Type} [BEq T]

/-- The section under the read lock. -/
def notify (cbs : Finset ListenerId) (s : ConfigVar T) (t : Tid) (v : T) : ConfigVar T :=
  if v == s.val then s
  else
    { s with
      calls := s.calls ++ [(t, v)]
      received := fun l => if l ∈ cbs then s.received l ++ [(s.val, v)] else s.received l }

/-- One section of one call. -/
def step (cbs : Finset ListenerId) (s : ConfigVar T) : Act T → Option (ConfigVar T)
  | .notify t v => if s.calls.any fun c => c.1 = t then none else some (notify cbs s t v)
  | .assign t => (s.calls.lookup t).map fun v => { s with val := v, calls := s.calls.filter fun c => c.1 ≠ t }

/-- A call that finds a difference finds no other call between its sections. -/
def Alone (s : ConfigVar T) : Act T → Prop
  | .notify _ v => (v == s.val) = true ∨ s.calls = []
  | .assign _ => True

instance (s : ConfigVar T) (a : Act T) : Decidable (Alone s a) :=
  match a with
  | .notify _ _ => inferInstanceAs (Decidable (_ ∨ _))
  | .assign _ => isTrue trivial

/-- Every old value is the new value of the call before. -/
def Chained (received : List (T × T)) : Prop := received.IsChain fun p q => q.1 = p.2

/-- What a listener knows is what is stored, or what the one call in progress will store. -/
structure Agrees (cbs : Finset ListenerId) (s : ConfigVar T) : Prop where
  chained : ∀ l ∈ cbs, Chained (s.received l)
  stored : s.calls = [] → ∀ l ∈ cbs, ∀ p ∈ (s.received l).getLast?, p.2 = s.val
  single : s.calls ≠ [] → ∃ t v, s.calls = [(t, v)] ∧ (v == s.val) = false ∧
    ∀ l ∈ cbs, ∃ old, (s.received l).getLast? = some (old, v)

variable {cbs : Finset ListenerId} {s s' : ConfigVar T} {a : Act T} {as : List (Act T)} {init : T}

theorem Agrees.start (init : T) : Agrees cbs ({ val := init } : ConfigVar T) where
  chained _ _ := List.isChain_nil
  stored _ _ _ _ last := by cases last
  single calls := (calls rfl).elim

theorem Agrees.notify (agrees : Agrees cbs s) (t : Tid) (v : T) (alone : (v == s.val) = true ∨ s.calls = []) :
    Agrees cbs (notify cbs s t v) := by
  unfold Config.notify
  split
  · exact agrees
  · rename_i differs
    have none := alone.resolve_left differs
    refine ⟨fun l listens => ?_, fun calls => by simp at calls, fun _ => ⟨t, v, by simp [none], by simpa using differs, ?_⟩⟩
    · simp only [if_pos listens, Chained, List.isChain_append]
      exact ⟨agrees.chained l listens, List.isChain_singleton _, by simpa [eq_comm] using agrees.stored none l listens⟩
    · intro l listens
      exact ⟨s.val, by simp [if_pos listens]⟩

theorem Agrees.step (agrees : Agrees cbs s) (alone : Alone s a) (step : step cbs s a = some s') : Agrees cbs s' := by
  cases a with
  | notify t v =>
    simp only [Config.step] at step
    split at step <;> cases step
    exact agrees.notify t v alone
  | assign t =>
    obtain ⟨v, found, rfl⟩ := Option.map_eq_some_iff.mp step
    have busy : s.calls ≠ [] := by
      intro none
      simp [none] at found
    obtain ⟨u, w, only, _, last⟩ := agrees.single busy
    obtain ⟨rfl, rfl⟩ : t = u ∧ v = w := by
      rw [only, List.lookup_cons] at found
      split at found
      · rename_i same
        exact ⟨by simpa using same, by cases found; rfl⟩
      · cases found
    refine ⟨agrees.chained, fun _ l listens p received => ?_, fun calls => by simp [only] at calls⟩
    obtain ⟨old, same⟩ := last l listens
    rw [show (s.received l).getLast? = some p from received] at same
    cases same
    rfl

/-- **Listeners and stored value agree.** While calls that change the value do
not overlap, each listener's record is a chain, and when no call is in progress
its last new value is the stored one. -/
theorem agree (run : Guarded (step cbs) Alone ({ val := init } : ConfigVar T) as s) :
    (s.calls = [] → ∀ l ∈ cbs, ∀ p ∈ (s.received l).getLast?, p.2 = s.val) ∧
      ∀ l ∈ cbs, Chained (s.received l) := by
  have agrees : Agrees cbs s := run.invariant (.start init) fun _ _ _ _ _ agrees alone step => agrees.step alone step
  exact ⟨agrees.stored, agrees.chained⟩

/-- The condition is exact: a first step that breaks it breaks every listener's chain. -/
theorem overlap [ReflBEq T] (run : Guarded (step cbs) Alone ({ val := init } : ConfigVar T) as s)
    (overlaps : ¬ Alone s a) (step : step cbs s a = some s') : ∀ l ∈ cbs, ¬ Chained (s'.received l) := by
  have agrees : Agrees cbs s := run.invariant (.start init) fun _ _ _ _ _ agrees alone step => agrees.step alone step
  cases a with
  | assign t => exact (overlaps trivial).elim
  | notify t v =>
    obtain ⟨differs, busy⟩ := not_or.mp overlaps
    obtain ⟨u, w, _, changes, last⟩ := agrees.single busy
    simp only [Config.step] at step
    split at step <;> cases step
    intro l listens chained
    obtain ⟨old, last⟩ := last l listens
    simp only [Config.notify, if_neg differs, if_pos listens, Chained, List.isChain_append, last] at chained
    have same : s.val = w := chained.2.2 _ rfl _ rfl
    rw [same, beq_self_eq_true] at changes
    cases changes

/-- Two calls one after the other. -/
def inTurn : List (Act Nat) := [.notify 1 5, .assign 1, .notify 2 7, .assign 2]

theorem agree_inTurn : ∃ s, exec (step {1}) ({ val := 0 } : ConfigVar Nat) inTurn = some s ∧
    s.received 1 = [(0, 5), (5, 7)] ∧ (s.calls = [] → ∀ l ∈ ({1} : Finset Nat), ∀ p ∈ (s.received l).getLast?, p.2 = s.val) ∧
      ∀ l ∈ ({1} : Finset Nat), Chained (s.received l) := by
  obtain ⟨s, run, test⟩ := Guarded.of_any (show (execIf (step {1}) Alone ({ val := 0 } : ConfigVar Nat) inTurn).any
    (fun s => s.received 1 = [(0, 5), (5, 7)]) from by decide)
  exact ⟨s, run.exec_eq, of_decide_eq_true test, agree run⟩

/-- Two calls that notify from one old value and assign in the other order. -/
def crossed : List (Act Nat) := [.notify 1 5, .notify 2 7, .assign 2, .assign 1]

/-- The listener was last told 7, the value is 5, and the second pair does not start where the first ends. -/
theorem not_agree : ∃ s, exec (step {1}) ({ val := 0 } : ConfigVar Nat) crossed = some s ∧ s.calls = [] ∧
    s.val = 5 ∧ s.received 1 = [(0, 5), (0, 7)] ∧ ¬ Chained (s.received 1) := by
  obtain ⟨s, run, test⟩ := exec_of_any (show (exec (step {1}) ({ val := 0 } : ConfigVar Nat) crossed).any
    (fun s => s.calls = [] ∧ s.val = 5 ∧ s.received 1 = [(0, 5), (0, 7)]) from by decide)
  obtain ⟨done, val, received⟩ := of_decide_eq_true test
  exact ⟨s, run, done, val, received, by simp [received, Chained]⟩

end Atpdxy.Config
