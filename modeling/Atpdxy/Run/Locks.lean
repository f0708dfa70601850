import Mathlib.Data.Fintype.EquivFin
import Mathlib.Logic.Relation
import Mathlib.Order.WellFounded
import Atpdxy.Run.Guarded

/-!
# Locks with ranks

Threads run programs with scoped locks, and start threads they wait for until
these have got under way. `WaitsFor` has an edge from a thread at a lock to each
thread that holds it, in whatever mode, itself included, and from one that waits
for a new thread to that thread.

Where each lock has a rank and a scope takes only locks of a higher rank than
those around it (`Prog.Ranked`), ranks rise along the edges: there is no cycle
(`acyclic`), and while a thread is left one can move (`progress`).
-/

namespace Atpdxy.Run.Locks

/-- A mutex is always locked in mode `write`. -/
inductive Mode
  | read | write
  deriving DecidableEq, Repr

inductive Prog (L : Type)
  | skip
  | seq (p q : Prog L)
  /-- a scope with the lock -/
  | locked (l : L) (mode : Mode) (body : Prog L)
  /-- starts a thread, and waits for its notice -/
  | spawn (body : Prog L)
  deriving Repr

/-- What a thread is still to do. -/
inductive Frame (L : Type)
  | run (p : Prog L)
  | release (l : L) (mode : Mode)
  | wait (t : Nat)
  | notify
  deriving Repr

structure Thread (L : Type) where
  stack : List (Frame L)
  notified : Bool := true
  deriving Repr

abbrev Threads (L : Type) := List (Thread L)

variable {L : Type}

def Thread.start (p : Prog L) : Thread L := { stack := [.run p] }

/-- Several programs one after the other. -/
def Prog.all : List (Prog L) → Prog L
  | [] => .skip
  | p :: rest => .seq p (all rest)

/-- The thread is inside a scope with the lock. -/
def Thread.Holds (th : Thread L) (l : L) : Prop := ∃ mode, .release l mode ∈ th.stack

section Step

variable [DecidableEq L]

/-- This frame keeps the lock from being taken in the mode. -/
def Frame.blocks (l : L) (mode : Mode) : Frame L → Bool
  | .release l' mode' => l' = l && (mode = .write || mode' = .write)
  | _ => false

def Thread.blocks (l : L) (mode : Mode) (th : Thread L) : Bool := th.stack.any (Frame.blocks l mode)

/-- Readers share a lock, a writer has it alone. -/
def free (ths : Threads L) (l : L) (mode : Mode) : Bool := !ths.any (Thread.blocks l mode)

def notified (ths : Threads L) (t : Nat) : Bool := ths[t]?.any Thread.notified

/-- The next move of a thread; none when it has to wait or has ended. -/
def step (ths : Threads L) (t : Nat) : Option (Threads L) :=
  ths[t]?.bind fun th =>
    let go (stack : List (Frame L)) : Option (Threads L) := some (ths.set t { th with stack })
    match th.stack with
    | [] => none
    | .run .skip :: k => go k
    | .run (.seq p q) :: k => go (.run p :: .run q :: k)
    | .run (.locked l mode body) :: k => if free ths l mode then go (.run body :: .release l mode :: k) else none
    | .run (.spawn body) :: k =>
      some (ths.set t { th with stack := .wait ths.length :: k } ++ [{ stack := [.notify, .run body], notified := false }])
    | .release _ _ :: k => go k
    | .wait u :: k => if notified ths u then go k else none
    | .notify :: k => some (ths.set t { stack := k, notified := true })

end Step

/-- The thread is at a lock the other has, or waits for its notice. -/
def WaitsFor (ths : Threads L) (t u : Nat) : Prop :=
  ∃ th uh, ths[t]? = some th ∧ ths[u]? = some uh ∧
    ((∃ l mode body, th.stack.head? = some (.run (.locked l mode body)) ∧ uh.Holds l) ∨
      (th.stack.head? = some (.wait u) ∧ uh.notified = false))

/-! ## Ranks -/

variable {rank : L → Nat}

/-- All locks are taken in the order of their ranks, above `bound`. -/
def Prog.Ranked (rank : L → Nat) : Prog L → (bound : Nat) → Prop
  | .skip, _ => True
  | .seq p q, bound => p.Ranked rank bound ∧ q.Ranked rank bound
  | .locked l _ body, bound => bound < rank l ∧ body.Ranked rank (rank l)
  | .spawn body, _ => body.Ranked rank 0

/-- The rank of the innermost scope. -/
def level (rank : L → Nat) : List (Frame L) → Nat
  | [] => 0
  | .release l _ :: _ => rank l
  | _ :: k => level rank k

/-- What is still to do keeps to the ranks. -/
def InOrder (rank : L → Nat) : List (Frame L) → Prop
  | [] => True
  | .run p :: k => p.Ranked rank (level rank k) ∧ InOrder rank k
  | .release l _ :: k => level rank k < rank l ∧ InOrder rank k
  | _ :: k => InOrder rank k

/-- A thread keeps to the ranks; its notice is the first thing it does; and it
waits for threads that are there. -/
structure Thread.Sound (rank : L → Nat) (count : Nat) (th : Thread L) : Prop where
  inOrder : InOrder rank th.stack
  first : th.notified = false → th.stack.head? = some .notify
  known : ∀ u, .wait u ∈ th.stack → u < count

def Sound (rank : L → Nat) (ths : Threads L) : Prop := ∀ th ∈ ths, th.Sound rank ths.length

variable {p q : Prog L} {ps : List (Prog L)} {k : List (Frame L)} {th : Thread L} {ths ths' : Threads L}
  {t u bound bound' : Nat} {l : L}

theorem Prog.Ranked.mono (ranked : p.Ranked rank bound) (lower : bound' ≤ bound) : p.Ranked rank bound' := by
  induction p generalizing bound bound' with
  | skip => trivial
  | seq p q ihp ihq => exact ⟨ihp ranked.1 lower, ihq ranked.2 lower⟩
  | locked l mode body ih => exact ⟨Nat.lt_of_le_of_lt lower ranked.1, ranked.2⟩
  | spawn body ih => exact ranked

theorem ranked_all (each : ∀ p ∈ ps, p.Ranked rank bound) : (Prog.all ps).Ranked rank bound := by
  induction ps with
  | nil => trivial
  | cons p ps ih => exact ⟨each p List.mem_cons_self, ih fun q member => each q (List.mem_cons_of_mem p member)⟩

/-- Locks that are held have at most the rank of the innermost scope. -/
theorem rank_le_level (inOrder : InOrder rank k) {mode : Mode} (held : .release l mode ∈ k) :
    rank l ≤ level rank k := by
  induction k with
  | nil => cases held
  | cons f k ih =>
    cases f with
    | run p =>
      have held : .release l mode ∈ k := by simpa using held
      exact ih inOrder.2 held
    | release l' mode' =>
      obtain ⟨below, inOrder⟩ := inOrder
      obtain same | held := List.mem_cons.mp held
      · cases same
        exact Nat.le_refl _
      · exact Nat.le_of_lt (Nat.lt_of_le_of_lt (ih inOrder held) below)
    | wait u =>
      have held : .release l mode ∈ k := by simpa using held
      exact ih inOrder held
    | notify =>
      have held : .release l mode ∈ k := by simpa using held
      exact ih inOrder held

/-! ## No cycle -/

/-- The thread is at the lock. -/
def At (ths : Threads L) (t : Nat) (l : L) : Prop :=
  ∃ th mode body, ths[t]? = some th ∧ th.stack.head? = some (.run (.locked l mode body))

theorem At.unique {l' : L} (first : At ths t l) (second : At ths t l') : l = l' := by
  obtain ⟨th, mode, body, there, head⟩ := first
  obtain ⟨th', mode', body', there', head'⟩ := second
  obtain rfl : th = th' := by simpa [there] using there'
  rw [head] at head'
  cases head'
  rfl

/-- Before its notice a thread waits for nothing. -/
theorem Sound.notified (sound : Sound rank ths) (waits : WaitsFor ths t u) {th : Thread L}
    (there : ths[t]? = some th) : th.notified = true := by
  by_contra silent
  have notice := (sound th (List.mem_of_getElem? there)).first (by simpa using silent)
  obtain ⟨th', uh, there', -, ⟨l, mode, body, head, -⟩ | ⟨head, -⟩⟩ := waits
  all_goals
    obtain rfl : th = th' := by simpa [there] using there'
    rw [notice] at head
    cases head

/-- An edge to a thread that waits itself. -/
def Onward (ths : Threads L) (t u : Nat) : Prop := WaitsFor ths t u ∧ ∃ v, WaitsFor ths u v

/-- It is one to the holder of a lock. -/
theorem Onward.at_lock (sound : Sound rank ths) (edge : Onward ths t u) :
    ∃ l uh, At ths t l ∧ ths[u]? = some uh ∧ uh.Holds l := by
  obtain ⟨⟨th, uh, there, uthere, ⟨l, mode, body, head, held⟩ | ⟨-, silent⟩⟩, v, waits⟩ := edge
  · exact ⟨l, uh, ⟨th, mode, body, there, head⟩, uthere, held⟩
  · rw [sound.notified waits uthere] at silent
    cases silent

/-- A thread that holds a lock waits only at one of a higher rank. -/
theorem Sound.rank_lt (sound : Sound rank ths) {uh : Thread L} (there : ths[u]? = some uh) {l l' : L}
    (held : uh.Holds l) (waits : At ths u l') : rank l < rank l' := by
  obtain ⟨uh', mode, body, there', head⟩ := waits
  obtain rfl : uh = uh' := by simpa [there] using there'
  obtain ⟨k, stack⟩ := List.head?_eq_some_iff.mp head
  obtain ⟨mode', held⟩ := held
  have inOrder := (sound uh (List.mem_of_getElem? there)).inOrder
  rw [stack] at inOrder
  have held : .release l mode' ∈ k := by simpa [stack] using held
  exact Nat.lt_of_le_of_lt (rank_le_level inOrder.2 held) inOrder.1.1

/-- Along such edges the ranks rise. -/
theorem Sound.rising (sound : Sound rank ths) {v : Nat} (path : Relation.TransGen (Onward ths) t u)
    (edge : Onward ths u v) : ∃ l l', At ths t l ∧ At ths u l' ∧ rank l < rank l' := by
  induction path generalizing v with
  | single first =>
    obtain ⟨l, uh, here, uthere, held⟩ := first.at_lock sound
    obtain ⟨l', _, there, -, -⟩ := edge.at_lock sound
    exact ⟨l, l', here, there, sound.rank_lt uthere held there⟩
  | tail _ next ih =>
    obtain ⟨l, m, here, middle, less⟩ := ih next
    obtain ⟨m', uh, middle', uthere, held⟩ := next.at_lock sound
    obtain rfl := middle.unique middle'
    obtain ⟨l', _, there, -, -⟩ := edge.at_lock sound
    exact ⟨l, l', here, there, Nat.lt_trans less (sound.rank_lt uthere held there)⟩

theorem onward_of_path {v : Nat} (path : Relation.TransGen (WaitsFor ths) t u) (last : WaitsFor ths u v) :
    Relation.TransGen (Onward ths) t u := by
  induction path generalizing v with
  | single first => exact .single ⟨first, v, last⟩
  | tail _ next ih => exact .tail (ih next) ⟨next, v, last⟩

/-- **No cycle**, and no thread waits for itself. -/
theorem acyclic (sound : Sound rank ths) (t : Nat) : ¬ Relation.TransGen (WaitsFor ths) t t := by
  intro cycle
  obtain ⟨v, first, -⟩ := Relation.TransGen.head'_iff.mp cycle
  have path := onward_of_path cycle first
  obtain ⟨w, edge, -⟩ := Relation.TransGen.head'_iff.mp path
  obtain ⟨l, l', here, here', less⟩ := sound.rising path edge
  obtain rfl := here.unique here'
  exact lt_irrefl _ less

/-! ## Runs -/

theorem Sound.set (sound : Sound rank ths) {th' : Thread L} (keeps : th'.Sound rank ths.length) (t : Nat) :
    Sound rank (ths.set t th') := by
  intro th member
  rw [List.length_set]
  obtain old | rfl := List.mem_or_eq_of_mem_set member
  · exact sound th old
  · exact keeps

theorem Thread.Sound.mono {count count' : Nat} (sound : th.Sound rank count) (more : count ≤ count') :
    th.Sound rank count' where
  inOrder := sound.inOrder
  first := sound.first
  known u member := Nat.lt_of_lt_of_le (sound.known u member) more

/-- The thread after a move other than its notice. -/
theorem Thread.Sound.next {count count' : Nat} (sound : th.Sound rank count) {f : Frame L} (stack : th.stack = f :: k)
    (other : f ≠ .notify) (k' : List (Frame L)) (inOrder : InOrder rank k')
    (known : ∀ u, .wait u ∈ k' → u < count') : ({ th with stack := k' } : Thread L).Sound rank count' where
  inOrder := inOrder
  first silent := by
    have notice := sound.first silent
    rw [stack] at notice
    exact absurd (Option.some.inj notice) other
  known := known

theorem Sound.start (each : ∀ p ∈ ps, p.Ranked rank 0) : Sound rank (ps.map Thread.start) := by
  intro th member
  obtain ⟨p, listed, rfl⟩ := List.mem_map.mp member
  exact ⟨⟨each p listed, trivial⟩, nofun, by simp [Thread.start]⟩

section Moves

variable [DecidableEq L]

/-- The step lemma. -/
theorem Sound.step (sound : Sound rank ths) (next : step ths t = some ths') : Sound rank ths' := by
  obtain ⟨th, there, next⟩ := Option.bind_eq_some_iff.mp next
  have keeps := sound th (List.mem_of_getElem? there)
  have inOrder := keeps.inOrder
  have known : ∀ f k, th.stack = f :: k → ∀ u, .wait u ∈ k → u < ths.length := by
    intro f k stack u member
    exact keeps.known u (by rw [stack]; exact List.mem_cons_of_mem f member)
  split at next
  · cases next
  · next k stack =>
    cases next
    rw [stack] at inOrder
    exact sound.set (keeps.next stack nofun k inOrder.2 (known _ _ stack)) t
  · next p q k stack =>
    cases next
    rw [stack] at inOrder
    obtain ⟨⟨first, second⟩, rest⟩ := inOrder
    refine sound.set (keeps.next stack nofun (.run p :: .run q :: k) ⟨first, second, rest⟩ ?_) t
    simpa using known _ _ stack
  · next l mode body k stack =>
    rw [stack] at inOrder
    split at next
    · cases next
      obtain ⟨⟨above, ranked⟩, rest⟩ := inOrder
      refine sound.set (keeps.next stack nofun (.run body :: .release l mode :: k) ⟨ranked, above, rest⟩ ?_) t
      simpa using known _ _ stack
    · cases next
  · next body k stack =>
    cases next
    rw [stack] at inOrder
    obtain ⟨ranked, rest⟩ := inOrder
    have waiting : ({ th with stack := .wait ths.length :: k } : Thread L).Sound rank (ths.length + 1) := by
      refine keeps.next stack nofun (.wait ths.length :: k) rest fun u member => ?_
      obtain same | member := List.mem_cons.mp member
      · cases same
        exact Nat.lt_succ_self _
      · exact Nat.lt_succ_of_lt (known _ _ stack u member)
    have new : ({ stack := [.notify, .run body], notified := false } : Thread L).Sound rank (ths.length + 1) :=
      ⟨⟨ranked, trivial⟩, fun _ => rfl, by simp⟩
    intro th' member
    rw [List.length_append, List.length_set, List.length_singleton]
    obtain member | member := List.mem_append.mp member
    · obtain old | rfl := List.mem_or_eq_of_mem_set member
      · exact (sound th' old).mono (Nat.le_succ _)
      · exact waiting
    · obtain rfl := List.mem_singleton.mp member
      exact new
  · next l mode k stack =>
    cases next
    rw [stack] at inOrder
    exact sound.set (keeps.next stack nofun k inOrder.2 (known _ _ stack)) t
  · next u k stack =>
    split at next
    · cases next
      rw [stack] at inOrder
      exact sound.set (keeps.next stack nofun k inOrder (known _ _ stack)) t
    · cases next
  · next k stack =>
    cases next
    rw [stack] at inOrder
    exact sound.set ⟨inOrder, fun silent => (by cases silent), known _ _ stack⟩ t

/-- The run lemma. -/
theorem Sound.run (each : ∀ p ∈ ps, p.Ranked rank 0) {ts : List Nat}
    (run : exec Locks.step (ps.map Thread.start) ts = some ths) : Sound rank ths :=
  (Guarded.of_exec run).invariant (.start each) fun _ _ _ _ _ sound _ next => sound.step next

/-! ## Progress -/

/-- Who cannot move waits for a thread that is still there. -/
theorem Sound.blocked (sound : Sound rank ths) (there : ths[t]? = some th) (busy : th.stack ≠ [])
    (stuck : Locks.step ths t = none) : ∃ u uh, WaitsFor ths t u ∧ ths[u]? = some uh ∧ uh.stack ≠ [] := by
  have keeps := sound th (List.mem_of_getElem? there)
  rw [Locks.step, there, Option.bind_some] at stuck
  simp only at stuck
  split at stuck
  · contradiction
  · cases stuck
  · cases stuck
  · next l mode body k stack =>
    split at stuck
    · cases stuck
    · next taken =>
      have taken : ∃ uh ∈ ths, uh.blocks l mode = true := by simpa [free] using taken
      obtain ⟨uh, member, blocks⟩ := taken
      obtain ⟨f, inside, blocks⟩ := List.any_eq_true.mp blocks
      obtain ⟨u, uthere⟩ := List.mem_iff_getElem?.mp member
      have held : uh.Holds l := by
        cases f with
        | release l' mode' =>
          simp only [Frame.blocks, Bool.and_eq_true, decide_eq_true_eq] at blocks
          exact ⟨mode', blocks.1 ▸ inside⟩
        | run _ => cases blocks
        | wait _ => cases blocks
        | notify => cases blocks
      refine ⟨u, uh, ⟨th, uh, there, uthere, .inl ⟨l, mode, body, by rw [stack]; rfl, held⟩⟩, uthere, ?_⟩
      exact List.ne_nil_of_mem inside
  · cases stuck
  · cases stuck
  · next u k stack =>
    split at stuck
    · cases stuck
    · next silent =>
      have known : u < ths.length := keeps.known u (by rw [stack]; exact List.mem_cons_self)
      obtain ⟨uh, uthere⟩ : ∃ uh, ths[u]? = some uh := ⟨ths[u], List.getElem?_eq_getElem known⟩
      have silent : uh.notified = false := by simpa [Locks.notified, uthere] using silent
      have notice := (sound uh (List.mem_of_getElem? uthere)).first silent
      refine ⟨u, uh, ⟨th, uh, there, uthere, .inr ⟨by rw [stack]; rfl, silent⟩⟩, uthere, ?_⟩
      intro none
      rw [none] at notice
      cases notice
  · cases stuck

/-- **Progress**: while a thread has something to do, one can move. -/
theorem progress (sound : Sound rank ths) (there : ths[t]? = some th) (busy : th.stack ≠ []) :
    ∃ u, (Locks.step ths u).isSome = true := by
  by_contra idle
  have stuck : ∀ u, Locks.step ths u = none := by
    intro u
    by_contra moves
    exact idle ⟨u, Option.isSome_iff_ne_none.mpr moves⟩
  -- of the threads left, one has none that it waits for behind it
  let behind (i j : Fin ths.length) : Prop := Relation.TransGen (WaitsFor ths) j i
  have irrefl : Std.Irrefl behind := ⟨fun i => acyclic sound i⟩
  have trans : IsTrans (Fin ths.length) behind := ⟨fun _ _ _ first second => second.trans first⟩
  have wf : WellFounded behind := Finite.wellFounded_of_trans_of_irrefl behind
  have inside {u : Nat} {uh : Thread L} (there : ths[u]? = some uh) : u < ths.length :=
    (List.getElem?_eq_some_iff.mp there).1
  obtain ⟨m, ⟨mh, mthere, mbusy⟩, last⟩ := wf.has_min
    {i | ∃ th, ths[i.val]? = some th ∧ th.stack ≠ []} ⟨⟨t, inside there⟩, th, there, busy⟩
  obtain ⟨u, uh, waits, uthere, ubusy⟩ := sound.blocked mthere mbusy (stuck m)
  exact last ⟨u, inside uthere⟩ ⟨uh, uthere, ubusy⟩ (.single waits)

end Moves

end Atpdxy.Run.Locks
