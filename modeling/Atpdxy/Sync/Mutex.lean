import Mathlib.Data.Finset.Card
import Atpdxy.Run.Sections

/-!
# The locks and their guards

The classes of `mutex.h` with what their calls do to the object behind them, each a lock in
the sense of `Run.Sections`, and the guards that take one in the constructor and
give it back in the destructor. `m_locked` of a guard says whether it has the lock,
whatever is called on it (`Sound`); so `test01` of `test_thread.cpp` loses no
increment.
-/

namespace Atpdxy.Sync

open Run
open Run.Locks (Mode)
open Run.Sections (Holding)

/-! ## The classes -/

/-- `std::atomic_flag_test_and_set`: the old value, and the new one. -/
def testAndSet (flag : Bool) : Bool × Bool := (flag, true)

/-- One turn of the loop of `CASLock::lock`; without a result comes another. -/
def CASLock.lock (m_mutex : Bool) : Option Bool :=
  let (old, m_mutex) := testAndSet m_mutex
  if old then none else some m_mutex

/-- `std::atomic_flag_clear`. -/
def CASLock.unlock (_ : Bool) : Bool := false

/-- `pthread_mutex_lock` waits while the mutex is taken. -/
def Mutex.lock (m_mutex : Bool) : Option Bool := if m_mutex then none else some true

def Mutex.unlock (_ : Bool) : Bool := false

/-- `pthread_spin_lock`. -/
def Spinlock.lock (m_mutex : Bool) : Option Bool := if m_mutex then none else some true

def Spinlock.unlock (_ : Bool) : Bool := false

/-- `pthread_rwlock_t`. -/
structure RWLock where
  writer : Bool := false
  readers : Nat := 0
  deriving DecidableEq, Repr

/-- Readers wait for the writer only. -/
def RWMutex.rdlock (m_lock : RWLock) : Option RWLock :=
  if m_lock.writer then none else some { m_lock with readers := m_lock.readers + 1 }

def RWMutex.wrlock (m_lock : RWLock) : Option RWLock :=
  if m_lock.writer ∨ m_lock.readers ≠ 0 then none else some { m_lock with writer := true }

/-- `pthread_rwlock_unlock`, for a reader and for the writer. -/
def RWMutex.unlock (m_lock : RWLock) : RWLock :=
  if m_lock.writer then { m_lock with writer := false } else { m_lock with readers := m_lock.readers - 1 }

/-! ## Each is a lock -/

variable {ι : Type} [DecidableEq ι]

/-- One party has the lock, or nobody. -/
def Single (taken : Bool) (h : Holding ι) : Prop :=
  if taken then ∃ t m, h = Holding.nobody.set t (some m) else h = .nobody

/-- A flag that is set by who finds it clear, in whatever mode. -/
def exclusive (lock : Bool → Option Bool) (unlock : Bool → Bool) (waits : lock true = none)
    (takes : lock false = some true) (gives : unlock true = false) : Sections.Lock ι where
  State := Bool
  free := false
  acquire _ := lock
  release := unlock
  Rep := Single
  rep_free := rfl
  rep_acquire s s' h t mode rep _ taken := by
    cases s with
    | true => simp [waits] at taken
    | false =>
      obtain rfl : h = .nobody := rep
      obtain rfl : true = s' := by simpa [takes] using taken
      refine ⟨fun u m found => ?_, t, mode, rfl⟩
      cases found
  rep_release s h t mode rep _ held := by
    cases s with
    | false =>
      obtain rfl : h = .nobody := rep
      cases held
    | true =>
      obtain ⟨u, m, rfl⟩ := rep
      by_cases same : t = u
      · subst same
        rw [gives, Holding.set_set, Holding.nobody_set_none]
        rfl
      · rw [Holding.set_ne _ _ same] at held
        cases held
  available s mode rep := by
    cases s with
    | false => simp [takes]
    | true =>
      obtain ⟨t, m, same⟩ := rep
      have held := congrFun same t
      rw [Holding.set_self] at held
      cases held

/-- The readers are those who have the lock to read, or one writes. -/
def RWRep (l : RWLock) (h : Holding ι) : Prop :=
  if l.writer then l.readers = 0 ∧ ∃ t, h = Holding.nobody.set t (some .write)
  else ∃ readers : Finset ι, readers.card = l.readers ∧ ∀ u, h u = if u ∈ readers then some .read else none

/-- What `RWMutex` does in a mode. -/
def RWMutex.acquire : Mode → RWLock → Option RWLock
  | .read => RWMutex.rdlock
  | .write => RWMutex.wrlock

theorem RWRep.acquire {l l' : RWLock} {h : Holding ι} {t : ι} {mode : Mode} (rep : RWRep l h) (outside : h t = none)
    (taken : RWMutex.acquire mode l = some l') :
    (∀ u m, h u = some m → mode = .read ∧ m = .read) ∧ RWRep l' (h.set t (some mode)) := by
  cases mode with
  | read =>
    simp only [RWMutex.acquire, RWMutex.rdlock] at taken
    split at taken <;> cases taken
    rename_i noWriter
    obtain ⟨readers, card, all⟩ : ∃ readers : Finset ι, readers.card = l.readers ∧
        ∀ u, h u = if u ∈ readers then some .read else none := by simpa [RWRep, noWriter] using rep
    have new : t ∉ readers := by
      intro member
      rw [all t, if_pos member] at outside
      cases outside
    refine ⟨fun u m found => ⟨rfl, ?_⟩, ?_⟩
    · rw [all u] at found
      split at found <;> cases found
      rfl
    · have grown : ∃ readers' : Finset ι, readers'.card = l.readers + 1 ∧
          ∀ u, h.set t (some .read) u = if u ∈ readers' then some .read else none := by
        refine ⟨insert t readers, by rw [Finset.card_insert_of_notMem new, card], fun u => ?_⟩
        by_cases same : u = t
        · subst same
          simp
        · rw [Holding.set_ne _ _ same, all u]
          simp [same]
      simpa [RWRep, noWriter] using grown
  | write =>
    simp only [RWMutex.acquire, RWMutex.wrlock] at taken
    split at taken <;> cases taken
    rename_i alone
    obtain ⟨noWriter, noReader⟩ : l.writer = false ∧ l.readers = 0 := by simpa using alone
    obtain ⟨readers, card, all⟩ : ∃ readers : Finset ι, readers.card = l.readers ∧
        ∀ u, h u = if u ∈ readers then some .read else none := by simpa [RWRep, noWriter] using rep
    obtain rfl : readers = ∅ := Finset.card_eq_zero.mp (card.trans noReader)
    obtain rfl : h = .nobody := funext fun u => by simp [all u, Holding.nobody]
    refine ⟨fun u m found => ?_, ?_⟩
    · cases found
    · have alone : ∃ u, (Holding.nobody : Holding ι).set t (some .write) = Holding.nobody.set u (some .write) :=
        ⟨t, rfl⟩
      simpa [RWRep, noReader] using alone

theorem RWRep.release {l : RWLock} {h : Holding ι} {t : ι} {mode : Mode} (rep : RWRep l h) (held : h t = some mode) :
    RWRep (RWMutex.unlock l) (h.set t none) := by
  unfold RWMutex.unlock
  split
  · rename_i writer
    obtain ⟨noReader, u, rfl⟩ : l.readers = 0 ∧ ∃ u, h = Holding.nobody.set u (some .write) := by
      simpa [RWRep, writer] using rep
    obtain rfl : t = u := by
      by_contra other
      rw [Holding.set_ne _ _ other] at held
      cases held
    rw [Holding.set_set, Holding.nobody_set_none]
    have none : ∃ readers : Finset ι, readers.card = l.readers ∧
        ∀ u, (Holding.nobody : Holding ι) u = if u ∈ readers then some .read else none :=
      ⟨∅, by simp [noReader], fun u => by simp [Holding.nobody]⟩
    simpa [RWRep] using none
  · rename_i noWriter
    obtain ⟨readers, card, all⟩ : ∃ readers : Finset ι, readers.card = l.readers ∧
        ∀ u, h u = if u ∈ readers then some .read else none := by simpa [RWRep, noWriter] using rep
    have member : t ∈ readers := by
      by_contra out
      rw [all t, if_neg out] at held
      cases held
    have fewer : ∃ readers' : Finset ι, readers'.card = l.readers - 1 ∧
        ∀ u, h.set t none u = if u ∈ readers' then some .read else none := by
      refine ⟨readers.erase t, by rw [Finset.card_erase_of_mem member, card], fun u => ?_⟩
      by_cases same : u = t
      · subst same
        simp
      · rw [Holding.set_ne _ _ same, all u]
        simp [same]
    simpa [RWRep, noWriter] using fewer

/-- The classes that lock. -/
inductive LockClass
  | mutex | spinlock | casLock | rwMutex
  deriving DecidableEq, Repr

/-- A class with what its calls do. -/
def LockClass.lock : LockClass → Sections.Lock ι
  | .mutex => exclusive Mutex.lock Mutex.unlock rfl rfl rfl
  | .spinlock => exclusive Spinlock.lock Spinlock.unlock rfl rfl rfl
  | .casLock => exclusive CASLock.lock CASLock.unlock rfl rfl rfl
  | .rwMutex => {
      State := RWLock
      free := {}
      acquire := RWMutex.acquire
      release := RWMutex.unlock
      Rep := RWRep
      rep_free := ⟨∅, rfl, fun u => by simp [Holding.nobody]⟩
      rep_acquire := fun _ _ _ _ _ => RWRep.acquire
      rep_release := fun _ _ _ _ rep _ => RWRep.release rep
      available := fun l mode rep => by
        by_cases writer : l.writer = true
        · obtain ⟨-, t, same⟩ : l.readers = 0 ∧ ∃ t, Holding.nobody = Holding.nobody.set t (some .write) := by
            simpa [RWRep, writer] using rep
          have held := congrFun same t
          rw [Holding.set_self] at held
          cases held
        · obtain ⟨readers, card, all⟩ : ∃ readers : Finset ι, readers.card = l.readers ∧
              ∀ u, (Holding.nobody : Holding ι) u = if u ∈ readers then some .read else none := by
            simpa [RWRep, writer] using rep
          have empty : l.readers = 0 := by
            rw [← card, Finset.card_eq_zero]
            apply Finset.eq_empty_of_forall_notMem
            intro u member
            have held := all u
            rw [if_pos member] at held
            cases held
          cases mode <;> simp [RWMutex.acquire, RWMutex.rdlock, RWMutex.wrlock, writer, empty] }

end Atpdxy.Sync
