import Mathlib.Data.Fintype.Basic
import Mathlib.Logic.Function.Basic
import Atpdxy.Run.Guarded

/-!
# The ids of listeners

`addListener` (`config.h`) takes its ids from a static counter that all variables of a type
share, under a lock that each of them has for itself. So one call at a time is in a
variable, whichever thread makes it, and between the steps of one the calls of other variables
read and write the counter: it is read to be incremented, written, read for the key, and
read again for the result.

A write that lowers the counter makes a later call store over a listener (`stale`), and a
write between the last two reads makes a call return another number than its key
(`mixed`). Without such writes the ids are unique (`unique_ids`).
-/

namespace Atpdxy.Config.ListenerIds

open Run

variable {V Cb : Type}

/-- Where a call of `addListener` is. -/
inductive Pc
  | locked
  /-- has read this to increment it -/
  | loaded (n : Nat)
  | incremented
  /-- has read the key -/
  | keyed (key : Nat)
  | stored (key : Nat)
  /-- has read the result -/
  | returning (key id : Nat)
  deriving DecidableEq, Repr

/-- A call that holds the lock of its variable. -/
inductive Call (Cb : Type)
  | add (cb : Cb) (pc : Pc)
  | del (key : Nat) (erased : Bool)
  deriving DecidableEq, Repr

/-- An entry of `m_cbs`. -/
structure Entry (V Cb : Type) where
  var : V
  key : Nat
  cb : Cb
  deriving DecidableEq, Repr

/-- A call of `addListener` that has returned, with the entry it made. -/
structure Handle (V Cb : Type) extends Entry V Cb where
  id : Nat
  deriving DecidableEq, Repr

/-- The counter and the variables, which are the elements of `V`. -/
structure State (V Cb : Type) where
  s_func_id : Nat := 0
  m_cbs : V → Nat → Option Cb := fun _ _ => none
  calls : V → Option (Call Cb) := fun _ => none
  /-- all that was stored, what a store replaced, and what was erased -/
  stores : List (Entry V Cb) := []
  replaced : List (Entry V Cb) := []
  erased : List (Entry V Cb) := []
  handles : List (Handle V Cb) := []

/-- A call begins, or one in progress makes its next step. -/
inductive Act (V Cb : Type)
  | addListener (var : V) (cb : Cb)
  | delListener (var : V) (key : Nat)
  | next (var : V)
  deriving DecidableEq, Repr

/-- `++` on a `uint64_t`. -/
def increment (n : Nat) : Nat := (n + 1) % UInt64.size

variable [DecidableEq V]

def State.set (s : State V Cb) (var : V) (c : Option (Call Cb)) : State V Cb :=
  { s with calls := Function.update s.calls var c }

/-- What is registered under a key. -/
def State.entries (s : State V Cb) (var : V) (key : Nat) : List (Entry V Cb) :=
  (s.m_cbs var key).toList.map fun cb => ⟨var, key, cb⟩

def State.assign (s : State V Cb) (var : V) (key : Nat) (cb : Option Cb) : State V Cb :=
  { s with m_cbs := Function.update s.m_cbs var (Function.update (s.m_cbs var) key cb) }

/-- `m_cbs[key] = cb`. -/
def State.store (s : State V Cb) (var : V) (key : Nat) (cb : Cb) : State V Cb :=
  { s.assign var key (some cb) with
    stores := s.stores ++ [⟨var, key, cb⟩]
    replaced := s.replaced ++ s.entries var key }

/-- `m_cbs.erase(key)`. -/
def State.erase (s : State V Cb) (var : V) (key : Nat) : State V Cb :=
  { s.assign var key none with erased := s.erased ++ s.entries var key }

/-- `return s_func_id`, which was read as `id`. -/
def State.finish (s : State V Cb) (var : V) (key id : Nat) (cb : Cb) : State V Cb :=
  { s with handles := s.handles ++ [⟨⟨var, key, cb⟩, id⟩] }

/-- `++s_func_id`, the write. -/
def State.write (s : State V Cb) (n : Nat) : State V Cb := { s with s_func_id := n }

/-- The next step of a call; after the last the lock is released. -/
def State.advance (s : State V Cb) (var : V) : Call Cb → State V Cb
  | .add cb .locked => s.set var (some (.add cb (.loaded s.s_func_id)))
  | .add cb (.loaded n) => (s.write (increment n)).set var (some (.add cb .incremented))
  | .add cb .incremented => s.set var (some (.add cb (.keyed s.s_func_id)))
  | .add cb (.keyed key) => (s.store var key cb).set var (some (.add cb (.stored key)))
  | .add cb (.stored key) => s.set var (some (.add cb (.returning key s.s_func_id)))
  | .add cb (.returning key id) => (s.finish var key id cb).set var none
  | .del key false => (s.erase var key).set var (some (.del key true))
  | .del _ true => s.set var none

def step (s : State V Cb) : Act V Cb → Option (State V Cb)
  | .addListener var cb => if (s.calls var).isSome then none else some (s.set var (some (.add cb .locked)))
  | .delListener var key => if (s.calls var).isSome then none else some (s.set var (some (.del key false)))
  | .next var => (s.calls var).map (s.advance var)

/-! ## The condition, and what it gives -/

/-- What the next step writes to the counter. -/
def Call.writes : Call Cb → Option Nat
  | .add _ (.loaded n) => some (increment n)
  | _ => none

/-- The call has read its key, and not yet its result. -/
def Call.between : Call Cb → Bool
  | .add _ (.keyed _) | .add _ (.stored _) => true
  | _ => false

/-- A write does not lower the counter, and does not change it while a call is between its last two reads. -/
def Orderly (s : State V Cb) : Act V Cb → Prop
  | .next var => ∀ w ∈ (s.calls var).bind Call.writes,
      s.s_func_id ≤ w ∧ ∀ other, (s.calls other).any Call.between = true → w = s.s_func_id
  | _ => True

instance [Fintype V] (s : State V Cb) (a : Act V Cb) : Decidable (Orderly s a) :=
  match a with
  | .next _ => inferInstanceAs (Decidable (∀ w ∈ Option.bind _ _, _))
  | .addListener _ _ => isTrue trivial
  | .delListener _ _ => isTrue trivial

/-- No store has replaced a listener; each result is the key of its entry, which is there until it is
erased; to erase it is to erase that entry and nothing else; and no two calls on a variable have one result. -/
structure Unique (s : State V Cb) : Prop where
  kept : s.replaced = []
  returned : ∀ h ∈ s.handles, h.id = h.key
  registered : ∀ h ∈ s.handles, s.m_cbs h.var h.id = some h.cb ∨ h.toEntry ∈ s.erased
  deletes : ∀ h ∈ s.handles, h.toEntry ∉ s.erased → (s.erase h.var h.id).erased = s.erased ++ [h.toEntry] ∧
    ∀ var key, ¬ (var = h.var ∧ key = h.id) → (s.erase h.var h.id).m_cbs var key = s.m_cbs var key
  distinct : s.handles.Pairwise fun h h' => h.var = h'.var → h.id ≠ h'.id

/-! ## The invariant -/

variable {s s' : State V Cb} {var other : V} {c : Call Cb} {a : Act V Cb} {as : List (Act V Cb)} {cb : Cb}
  {n key id : Nat}

/-- What a call in a variable relies on: the keys stored there before are below what it has read. -/
def Sound (s : State V Cb) (var : V) : Call Cb → Prop
  | .add _ .locked => True
  | .add _ (.loaded n) => n ≤ s.s_func_id ∧ ∀ p ∈ s.stores, p.var = var → p.key ≤ n
  | .add _ .incremented => ∀ p ∈ s.stores, p.var = var → p.key < s.s_func_id
  | .add _ (.keyed key) => key = s.s_func_id ∧ ∀ p ∈ s.stores, p.var = var → p.key < key
  | .add cb (.stored key) =>
    key = s.s_func_id ∧ ⟨var, key, cb⟩ ∈ s.stores ∧ ∀ h ∈ s.handles, h.var = var → h.key < key
  | .add cb (.returning key id) =>
    id = key ∧ ⟨var, key, cb⟩ ∈ s.stores ∧ ∀ h ∈ s.handles, h.var = var → h.key < key
  | .del _ _ => True

structure Inv (s : State V Cb) : Prop where
  below : ∀ p ∈ s.stores, p.key ≤ s.s_func_id
  sound : ∀ var c, s.calls var = some c → Sound s var c
  known : ∀ var key cb, s.m_cbs var key = some cb → ⟨var, key, cb⟩ ∈ s.stores
  registered : ∀ p ∈ s.stores, s.m_cbs p.var p.key = some p.cb ∨ p ∈ s.erased
  kept : s.replaced = []
  returned : ∀ h ∈ s.handles, h.id = h.key ∧ h.toEntry ∈ s.stores
  distinct : s.handles.Pairwise fun h h' => h.var = h'.var → h.key ≠ h'.key

omit [DecidableEq V] in
theorem Inv.start : Inv ({} : State V Cb) where
  below _ member := by cases member
  sound _ _ found := by cases found
  known _ _ _ found := by cases found
  registered _ member := by cases member
  kept := rfl
  returned _ member := by cases member
  distinct := .nil

omit [DecidableEq V] in
/-- The call of another variable relies on what a step leaves as it is. -/
theorem Sound.frame (sound : Sound s other c) (counter : s.s_func_id ≤ s'.s_func_id)
    (between : c.between = true → s'.s_func_id = s.s_func_id)
    (here : ∀ p ∈ s'.stores, p.var = other → p ∈ s.stores) (grows : ∀ p ∈ s.stores, p ∈ s'.stores)
    (handles : ∀ h ∈ s'.handles, h.var = other → h ∈ s.handles) : Sound s' other c := by
  cases c with
  | del key erased => trivial
  | add cb pc =>
    cases pc with
    | locked => trivial
    | loaded n => exact ⟨sound.1.trans counter, fun p member same => sound.2 p (here p member same) same⟩
    | incremented => exact fun p member same => (sound p (here p member same) same).trans_le counter
    | keyed key =>
      exact ⟨sound.1.trans (between rfl).symm, fun p member same => sound.2 p (here p member same) same⟩
    | stored key =>
      exact ⟨sound.1.trans (between rfl).symm, grows _ sound.2.1,
        fun h member same => sound.2.2 h (handles h member same) same⟩
    | returning key id =>
      exact ⟨sound.1, grows _ sound.2.1, fun h member same => sound.2.2 h (handles h member same) same⟩

theorem sound_set {c' : Option (Call Cb)} (own : ∀ c ∈ c', Sound s var c)
    (others : ∀ other c, other ≠ var → s.calls other = some c → Sound s other c) :
    ∀ other c, (s.set var c').calls other = some c → Sound (s.set var c') other c := by
  intro other c found
  by_cases same : other = var
  · subst same
    exact own c (by simpa [State.set] using found)
  · exact others other c same (by simpa [State.set, Function.update_of_ne same] using found)

/-- A step that changes nothing but the call. -/
theorem Inv.set (inv : Inv s) {c' : Option (Call Cb)} (own : ∀ c ∈ c', Sound s var c) : Inv (s.set var c') where
  below := inv.below
  sound := sound_set own fun other c _ found => inv.sound other c found
  known := inv.known
  registered := inv.registered
  kept := inv.kept
  returned := inv.returned
  distinct := inv.distinct

/-- The write of an increment. -/
theorem Inv.write (inv : Inv s) (found : s.calls var = some (.add cb (.loaded n))) (rises : s.s_func_id ≤ increment n)
    (between : ∀ other, (s.calls other).any Call.between = true → increment n = s.s_func_id) :
    Inv ((s.write (increment n)).set var (some (.add cb .incremented))) where
  below p member := (inv.below p member).trans rises
  sound := by
    refine sound_set ?_ fun other c _ there => ?_
    · rintro _ ⟨⟩ p member same
      obtain ⟨read, below⟩ := inv.sound var _ found
      have passed : n < increment n := by
        simp only [increment, UInt64.size] at rises ⊢
        omega
      exact (below p member same).trans_lt passed
    · have there : s.calls other = some c := there
      exact (inv.sound other c there).frame rises (fun here => between other (by rw [there]; exact here))
        (fun p member _ => member) (fun p member => member) (fun h member _ => member)
  known := inv.known
  registered := inv.registered
  kept := inv.kept
  returned := inv.returned
  distinct := inv.distinct

theorem assign_m_cbs (s : State V Cb) (var other : V) (key key' : Nat) (cb : Option Cb) :
    (s.assign var key cb).m_cbs other key' = if other = var ∧ key' = key then cb else s.m_cbs other key' := by
  by_cases same : other = var
  · subst same
    by_cases here : key' = key
    · subst here
      simp [State.assign]
    · simp [State.assign, here]
  · simp [State.assign, same]

theorem mem_store {p : Entry V Cb} : p ∈ (s.store var key cb).stores ↔ p ∈ s.stores ∨ p = ⟨var, key, cb⟩ := by
  simp [State.store]

omit [DecidableEq V] in
theorem mem_finish {h : Handle V Cb} :
    h ∈ (s.finish var key id cb).handles ↔ h ∈ s.handles ∨ h = ⟨⟨var, key, cb⟩, id⟩ := by
  simp [State.finish]

/-- The store goes to a key above all that are stored in the variable. -/
theorem Inv.store (inv : Inv s) (found : s.calls var = some (.add cb (.keyed key))) :
    Inv ((s.store var key cb).set var (some (.add cb (.stored key)))) := by
  obtain ⟨rfl, above⟩ := inv.sound var _ found
  have new : s.m_cbs var s.s_func_id = none := by
    cases there : s.m_cbs var s.s_func_id with
    | none => rfl
    | some old => exact absurd (above _ (inv.known _ _ _ there) rfl) (Nat.lt_irrefl _)
  constructor
  case below =>
    intro p member
    obtain member | rfl := mem_store.mp member
    · exact inv.below p member
    · exact Nat.le_refl _
  case sound =>
    refine sound_set ?_ fun other c apart there => ?_
    · rintro _ ⟨⟩
      refine ⟨rfl, mem_store.mpr (.inr rfl), fun h member same => ?_⟩
      exact above _ (inv.returned h member).2 same
    · refine (inv.sound other c there).frame (Nat.le_refl _) (fun _ => rfl) ?_ ?_ fun h member _ => member
      · intro p member same
        obtain member | rfl := mem_store.mp member
        · exact member
        · exact (apart same.symm).elim
      · exact fun p member => mem_store.mpr (.inl member)
  case known =>
    intro other key' cb' there
    change (s.assign var s.s_func_id (some cb)).m_cbs other key' = some cb' at there
    rw [assign_m_cbs] at there
    split at there
    · next same =>
      obtain ⟨rfl, rfl⟩ := same
      obtain rfl := Option.some.inj there
      exact mem_store.mpr (.inr rfl)
    · exact mem_store.mpr (.inl (inv.known _ _ _ there))
  case registered =>
    intro p member
    change (s.assign var s.s_func_id (some cb)).m_cbs p.var p.key = some p.cb ∨ p ∈ s.erased
    rw [assign_m_cbs]
    obtain member | rfl := mem_store.mp member
    · have apart : ¬ (p.var = var ∧ p.key = s.s_func_id) := fun same => absurd (above p member same.1) (by omega)
      rw [if_neg apart]
      exact inv.registered p member
    · exact .inl (if_pos ⟨rfl, rfl⟩)
  case kept =>
    change s.replaced ++ s.entries var s.s_func_id = []
    rw [inv.kept, State.entries, new]
    rfl
  case returned =>
    intro h member
    obtain ⟨same, stored⟩ := inv.returned h member
    exact ⟨same, mem_store.mpr (.inl stored)⟩
  case distinct => exact inv.distinct

/-- The result is the key, and greater than those returned before. -/
theorem Inv.finish (inv : Inv s) (found : s.calls var = some (.add cb (.returning key id))) :
    Inv ((s.finish var key id cb).set var none) := by
  obtain ⟨rfl, stored, above⟩ := inv.sound var _ found
  constructor
  case below => exact inv.below
  case sound =>
    refine sound_set (fun _ none => by cases none) fun other c apart there => ?_
    refine (inv.sound other c there).frame (Nat.le_refl _) (fun _ => rfl) (fun p member _ => member)
      (fun p member => member) fun h member same => ?_
    obtain member | rfl := mem_finish.mp member
    · exact member
    · exact (apart same.symm).elim
  case known => exact inv.known
  case registered => exact inv.registered
  case kept => exact inv.kept
  case returned =>
    intro h member
    obtain member | rfl := mem_finish.mp member
    · exact inv.returned h member
    · exact ⟨rfl, stored⟩
  case distinct =>
    refine List.pairwise_append.mpr ⟨inv.distinct, List.pairwise_singleton _ _, fun h member h' last same => ?_⟩
    rw [List.mem_singleton.mp last] at same ⊢
    exact Nat.ne_of_lt (above h member same)

/-- An erased entry is recorded. -/
theorem Inv.erase (inv : Inv s) (key : Nat) : Inv ((s.erase var key).set var (some (.del key true))) := by
  constructor
  case below => exact inv.below
  case sound =>
    refine sound_set (fun c own => ?_) fun other c _ there => inv.sound other c there
    obtain rfl := Option.some.inj own
    trivial
  case known =>
    intro other key' cb' there
    change (s.assign var key none).m_cbs other key' = some cb' at there
    rw [assign_m_cbs] at there
    split at there
    · cases there
    · exact inv.known _ _ _ there
  case registered =>
    intro p member
    change (s.assign var key none).m_cbs p.var p.key = some p.cb ∨ p ∈ s.erased ++ s.entries var key
    rw [assign_m_cbs, List.mem_append]
    obtain there | gone := inv.registered p member
    · by_cases same : p.var = var ∧ p.key = key
      · obtain ⟨rfl, rfl⟩ := same
        exact .inr (.inr (by simp [State.entries, there]))
      · rw [if_neg same]
        exact .inl there
    · exact .inr (.inl gone)
  case kept => exact inv.kept
  case returned => exact inv.returned
  case distinct => exact inv.distinct

/-- The step lemma. -/
theorem Inv.step (inv : Inv s) (orderly : Orderly s a) (step : step s a = some s') : Inv s' := by
  cases a with
  | addListener var cb =>
    simp only [ListenerIds.step] at step
    split at step <;> cases step
    refine inv.set fun c own => ?_
    obtain rfl := Option.some.inj own
    trivial
  | delListener var key =>
    simp only [ListenerIds.step] at step
    split at step <;> cases step
    refine inv.set fun c own => ?_
    obtain rfl := Option.some.inj own
    trivial
  | next var =>
    obtain ⟨c, found, rfl⟩ := Option.map_eq_some_iff.mp step
    have sound := inv.sound var c found
    cases c with
    | del key erased =>
      cases erased with
      | false => exact inv.erase key
      | true => exact inv.set fun c own => by cases own
    | add cb pc =>
      cases pc with
      | locked =>
        refine inv.set fun c own => ?_
        obtain rfl := Option.some.inj own
        exact ⟨Nat.le_refl _, fun p member _ => inv.below p member⟩
      | loaded n =>
        obtain ⟨rises, between⟩ := orderly (increment n) (by rw [found]; rfl)
        exact inv.write found rises between
      | incremented =>
        refine inv.set fun c own => ?_
        obtain rfl := Option.some.inj own
        exact ⟨rfl, sound⟩
      | keyed key => exact inv.store found
      | stored key =>
        refine inv.set fun c own => ?_
        obtain rfl := Option.some.inj own
        exact ⟨sound.1.symm, sound.2⟩
      | returning key id => exact inv.finish found

theorem Inv.unique (inv : Inv s) : Unique s where
  kept := inv.kept
  returned h member := (inv.returned h member).1
  registered h member := by
    obtain ⟨same, stored⟩ := inv.returned h member
    rw [same]
    exact inv.registered h.toEntry stored
  deletes h member present := by
    obtain ⟨same, stored⟩ := inv.returned h member
    have there := (inv.registered h.toEntry stored).resolve_right present
    refine ⟨?_, fun other key apart => ?_⟩
    · change s.erased ++ s.entries h.var h.id = _
      rw [same, State.entries, there]
      rfl
    · exact (assign_m_cbs s h.var other h.id key none).trans (if_neg apart)
  distinct := inv.distinct.imp_of_mem fun {h h'} member member' apart same => by
    rw [(inv.returned h member).1, (inv.returned h' member').1]
    exact apart same

/-- **Main result**: in every run in which no write lowers the counter or changes it between the last
two reads of another call, the ids are unique. -/
theorem unique_ids (run : Guarded step Orderly ({} : State V Cb) as s) : Unique s := by
  have inv : Inv s := run.invariant .start fun _ _ _ _ _ inv orderly step => inv.step orderly step
  exact inv.unique

/-- A call of `addListener` from its start to its return. -/
def whole (var : V) (cb : Cb) : List (Act V Cb) := .addListener var cb :: List.replicate 6 (.next var)

/-- Two variables: the second call waits with its write until the first has its result, and the first
listener is deleted. -/
def inTurn : List (Act Bool Nat) :=
  [.addListener false 10, .next false, .next false, .next false, .addListener true 20, .next true, .next false,
    .next false, .next true, .next false, .next true, .next true, .next true, .next true, .delListener false 1,
    .next false, .next false]

theorem unique_ids_inTurn : ∃ s, exec step ({} : State Bool Nat) inTurn = some s ∧ Unique s ∧
    s.handles.map Handle.id = [1, 2] ∧ s.erased = [⟨false, 1, 10⟩] := by
  obtain ⟨s, run, test⟩ := Guarded.of_any (show (execIf step Orderly ({} : State Bool Nat) inTurn).any
    (fun s => s.handles.map Handle.id = [1, 2] ∧ s.erased = [⟨false, 1, 10⟩]) from by decide)
  exact ⟨s, run.exec_eq, unique_ids run, of_decide_eq_true test⟩

/-- A call increments the counter while another is between its last two reads. -/
def mixed : List (Act Bool Nat) :=
  [.addListener false 10, .next false, .next false, .next false, .next false, .addListener true 20, .next true,
    .next true, .next false, .next false]

/-- A call that has read the counter is overtaken by two others. -/
def stale : List (Act Bool Nat) :=
  [.addListener true 20, .next true] ++ whole false 10 ++ whole false 11 ++ [.next true] ++ whole false 12

/-- In the first run a result is not the key; in the second a listener is replaced. -/
theorem not_unique_ids :
    (∃ s, exec step ({} : State Bool Nat) mixed = some s ∧ s.handles = [⟨⟨false, 1, 10⟩, 2⟩] ∧
      ¬ Unique s) ∧
    ∃ s, exec step ({} : State Bool Nat) stale = some s ∧ s.replaced = [⟨false, 2, 11⟩] ∧ ¬ Unique s := by
  constructor
  · obtain ⟨s, run, test⟩ := exec_of_any (show (exec step ({} : State Bool Nat) mixed).any
      (fun s => s.handles = [⟨⟨false, 1, 10⟩, 2⟩]) from by decide)
    have handles := of_decide_eq_true test
    refine ⟨s, run, handles, fun unique => ?_⟩
    have returned := unique.returned ⟨⟨false, 1, 10⟩, 2⟩ (by rw [handles]; simp)
    cases returned
  · obtain ⟨s, run, test⟩ := exec_of_any (show (exec step ({} : State Bool Nat) stale).any
      (fun s => s.replaced = [⟨false, 2, 11⟩]) from by decide)
    have replaced := of_decide_eq_true test
    refine ⟨s, run, replaced, fun unique => ?_⟩
    cases replaced.symm.trans unique.kept

end Atpdxy.Config.ListenerIds
