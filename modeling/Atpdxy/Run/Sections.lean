import Mathlib.Logic.Function.Basic
import Atpdxy.Run.Guarded
import Atpdxy.Run.Locks

/-!
# Operations under one lock

Parties call operations on shared data. An operation takes the lock in its mode, reads
and writes the data in single steps between which others move, and gives the lock
back with its result. `log` has the operations in the order in which they end.

A `Lock` carries what makes it one: a state of it stands for who holds it in what
mode, and it is given only to a party that gets on with those. The data of any run
are then those of its operations done one at a time, in the order of the log and
with the same results (`linearizable`).
-/

namespace Atpdxy.Run.Sections

open Locks (Mode)

/-- Who has the lock, and how. -/
abbrev Holding (ι : Type) := ι → Option Mode

/-- Nobody has the lock. -/
def Holding.nobody {ι : Type} : Holding ι := fun _ => none

/-- One party takes the lock, or gives it back. -/
def Holding.set {ι : Type} [DecidableEq ι] (h : Holding ι) (t : ι) (mode : Option Mode) : Holding ι :=
  Function.update h t mode

/-- Two parties have the lock only to read. -/
def Holding.Compatible {ι : Type} (h : Holding ι) : Prop :=
  ∀ t u, t ≠ u → ∀ m n, h t = some m → h u = some n → m = .read ∧ n = .read

section Holding

variable {ι : Type} [DecidableEq ι] {h : Holding ι} {mode : Mode} {t : ι}

@[simp] theorem Holding.set_self (h : Holding ι) (t : ι) (m : Option Mode) : h.set t m t = m := by
  simp [Holding.set]

theorem Holding.set_ne {u : ι} (h : Holding ι) (m : Option Mode) (other : u ≠ t) : h.set t m u = h u := by
  simp [Holding.set, other]

theorem Holding.set_set (h : Holding ι) (t : ι) (m n : Option Mode) : (h.set t m).set t n = h.set t n := by
  simp [Holding.set]

theorem Holding.nobody_set_none (t : ι) : (Holding.nobody : Holding ι).set t none = .nobody :=
  Function.update_eq_self t (fun _ => none)

theorem Holding.Compatible.acquire (compatible : h.Compatible)
    (shares : ∀ u m, h u = some m → mode = .read ∧ m = .read) : (h.set t (some mode)).Compatible := by
  intro v u apart m n first second
  by_cases here : v = t
  · subst here
    rw [Holding.set_ne _ _ (Ne.symm apart)] at second
    rw [Holding.set_self] at first
    cases first
    exact shares u n second
  · rw [Holding.set_ne _ _ here] at first
    by_cases there : u = t
    · subst there
      rw [Holding.set_self] at second
      cases second
      exact (shares v m first).symm
    · rw [Holding.set_ne _ _ there] at second
      exact compatible v u apart m n first second

theorem Holding.Compatible.release (compatible : h.Compatible) (t : ι) : (h.set t none).Compatible := by
  intro v u apart m n first second
  by_cases here : v = t
  · subst here
    rw [Holding.set_self] at first
    cases first
  · by_cases there : u = t
    · subst there
      rw [Holding.set_self] at second
      cases second
    · rw [Holding.set_ne _ _ here] at first
      rw [Holding.set_ne _ _ there] at second
      exact compatible v u apart m n first second

end Holding

/-- A lock for the parties `ι`. `acquire` is one try: without a result the caller tries again. -/
structure Lock (ι : Type) [DecidableEq ι] where
  State : Type
  free : State
  acquire : Mode → State → Option State
  release : State → State
  /-- what a state stands for -/
  Rep : State → Holding ι → Prop
  rep_free : Rep free .nobody
  rep_acquire : ∀ s s' h t mode, Rep s h → h t = none → acquire mode s = some s' →
    (∀ u m, h u = some m → mode = .read ∧ m = .read) ∧ Rep s' (h.set t (some mode))
  rep_release : ∀ s h t mode, Rep s h → h.Compatible → h t = some mode → Rep (release s) (h.set t none)
  available : ∀ s mode, Rep s .nobody → (acquire mode s).isSome

/-- The steps of an operation while it has the lock, and its result. -/
inductive Body (δ ρ : Type)
  | done (r : ρ)
  | get (k : δ → Body δ ρ)
  | put (f : δ → δ) (k : Body δ ρ)

variable {ι κ δ ρ : Type}

/-- All steps at once. -/
def Body.run : Body δ ρ → δ → δ × ρ
  | .done r, d => (d, r)
  | .get k, d => (k d).run d
  | .put f k, d => k.run (f d)

/-- No step writes. -/
def Body.ReadOnly : Body δ ρ → Prop
  | .done _ => True
  | .get k => ∀ d, (k d).ReadOnly
  | .put _ _ => False

@[simp] theorem Body.run_done (r : ρ) (d : δ) : (Body.done r).run d = (d, r) := rfl
@[simp] theorem Body.run_get (k : δ → Body δ ρ) (d : δ) : (Body.get k).run d = (k d).run d := rfl
@[simp] theorem Body.run_put (f : δ → δ) (k : Body δ ρ) (d : δ) : (Body.put f k).run d = k.run (f d) := rfl

theorem Body.ReadOnly.run_fst {b : Body δ ρ} (readOnly : b.ReadOnly) (d : δ) : (b.run d).1 = d := by
  induction b with
  | done r => rfl
  | get k ih => exact ih d (readOnly d)
  | put f k ih => exact readOnly.elim

/-- An operation: who only shares the lock writes nothing. -/
structure Op (δ ρ : Type) where
  mode : Mode
  body : Body δ ρ
  readOnly : mode = .read → body.ReadOnly

/-- An operation that has the lock for itself. -/
def Op.exclusive (body : Body δ ρ) : Op δ ρ := ⟨.write, body, nofun⟩

/-- Where a party is. -/
inductive Phase (κ δ ρ : Type)
  | idle
  /-- at the lock -/
  | waiting (c : κ)
  /-- has the lock, with the steps still to do -/
  | inside (c : κ) (rest : Body δ ρ)

/-- An operation that has ended. -/
structure Entry (ι κ ρ : Type) where
  party : ι
  call : κ
  result : ρ

variable [DecidableEq ι] {L : Lock ι} {ops : κ → Op δ ρ}

structure State (L : Lock ι) (κ δ ρ : Type) where
  data : δ
  lock : L.State := L.free
  phases : ι → Phase κ δ ρ := fun _ => .idle
  /-- read by no step -/
  log : List (Entry ι κ ρ) := []

inductive Act (ι κ : Type)
  | call (t : ι) (c : κ)
  | next (t : ι)

def State.goto (s : State L κ δ ρ) (t : ι) (p : Phase κ δ ρ) : State L κ δ ρ :=
  { s with phases := Function.update s.phases t p }

/-- One step of one party. -/
def step (L : Lock ι) (ops : κ → Op δ ρ) (s : State L κ δ ρ) : Act ι κ → Option (State L κ δ ρ)
  | .call t c =>
    match s.phases t with
    | .idle => some (s.goto t (.waiting c))
    | _ => none
  | .next t =>
    match s.phases t with
    | .idle => none
    | .waiting c =>
      (L.acquire (ops c).mode s.lock).map fun lock => { s.goto t (.inside c (ops c).body) with lock }
    | .inside c (.done r) =>
      some { s.goto t .idle with lock := L.release s.lock, log := s.log ++ [⟨t, c, r⟩] }
    | .inside c (.get k) => some (s.goto t (.inside c (k s.data)))
    | .inside c (.put f k) => some { s.goto t (.inside c k) with data := f s.data }

/-- The operations of a log, done one at a time, give its results. -/
inductive Replays (ops : κ → Op δ ρ) (d : δ) : List (Entry ι κ ρ) → δ → Prop
  | nil : Replays ops d [] d
  | snoc {log : List (Entry ι κ ρ)} {d' d'' : δ} {e : Entry ι κ ρ} :
      Replays ops d log d' → (ops e.call).body.run d' = (d'', e.result) → Replays ops d (log ++ [e]) d''

omit [DecidableEq ι] in
/-- The last operation of a log. -/
theorem Replays.of_snoc {log : List (Entry ι κ ρ)} {e : Entry ι κ ρ} {d d'' : δ}
    (replays : Replays ops d (log ++ [e]) d'') :
    ∃ d', Replays ops d log d' ∧ (ops e.call).body.run d' = (d'', e.result) := by
  generalize same : log ++ [e] = all at replays
  cases replays with
  | nil => simp at same
  | @snoc log' d' _ e' before last =>
    obtain ⟨rfl, one⟩ := List.append_inj' same rfl
    cases one
    exact ⟨d', before, last⟩

omit [DecidableEq ι] in
/-- An operation returns what it returns behind those before it in the log. -/
theorem Replays.result {pre post : List (Entry ι κ ρ)} {e : Entry ι κ ρ} {d d' : δ}
    (replays : Replays ops d (pre ++ e :: post) d') :
    ∃ d₁, Replays ops d pre d₁ ∧ ((ops e.call).body.run d₁).2 = e.result := by
  induction post using List.reverseRecOn generalizing d' with
  | nil =>
    obtain ⟨d₁, before, last⟩ := replays.of_snoc
    exact ⟨d₁, before, congrArg Prod.snd last⟩
  | append_singleton post e' ih =>
    rw [← List.cons_append, ← List.append_assoc] at replays
    obtain ⟨d₁, before, -⟩ := replays.of_snoc
    exact ih before

/-! ## The invariant -/

/-- The mode in which a party in the phase has the lock. -/
def Phase.holds (ops : κ → Op δ ρ) : Phase κ δ ρ → Option Mode
  | .inside c _ => some (ops c).mode
  | _ => none

def holding (ops : κ → Op δ ρ) (phases : ι → Phase κ δ ρ) : Holding ι := fun t => (phases t).holds ops

omit [DecidableEq ι] in
/-- While no call is in progress nothing is half written. -/
theorem not_holding {phases : ι → Phase κ δ ρ} (idle : ∀ t, phases t = .idle) (t : ι) :
    holding ops phases t ≠ some .write := by
  simp [holding, idle t, Phase.holds]

/-- What an operation inside has still to do leads from the data to where all of it leads from `d`. -/
def Phase.Leads (ops : κ → Op δ ρ) (data d : δ) : Phase κ δ ρ → Prop
  | .inside c rest => rest.run data = (ops c).body.run d ∧ ((ops c).mode = .read → rest.ReadOnly)
  | _ => True

/-- `d` is what the operations that have ended leave. -/
structure Inv (ops : κ → Op δ ρ) (d₀ : δ) (s : State L κ δ ρ) (d : δ) : Prop where
  rep : L.Rep s.lock (holding ops s.phases)
  compatible : (holding ops s.phases).Compatible
  replays : Replays ops d₀ s.log d
  leads : ∀ t, (s.phases t).Leads ops s.data d
  unwritten : (∀ t, holding ops s.phases t ≠ some .write) → s.data = d

variable {s s' : State L κ δ ρ} {d₀ d : δ} {t u : ι} {c : κ} {p : Phase κ δ ρ} {a : Act ι κ} {as : List (Act ι κ)}

@[simp] theorem goto_phases (s : State L κ δ ρ) (t : ι) (p : Phase κ δ ρ) :
    (s.goto t p).phases = Function.update s.phases t p := rfl
@[simp] theorem goto_data (s : State L κ δ ρ) (t : ι) (p : Phase κ δ ρ) : (s.goto t p).data = s.data := rfl
@[simp] theorem goto_lock (s : State L κ δ ρ) (t : ι) (p : Phase κ δ ρ) : (s.goto t p).lock = s.lock := rfl
@[simp] theorem goto_log (s : State L κ δ ρ) (t : ι) (p : Phase κ δ ρ) : (s.goto t p).log = s.log := rfl

theorem holding_update (phases : ι → Phase κ δ ρ) (t : ι) (p : Phase κ δ ρ) :
    holding ops (Function.update phases t p) = (holding ops phases).set t (p.holds ops) := by
  funext u
  by_cases same : u = t
  · subst same
    simp [holding]
  · rw [Holding.set_ne _ _ same]
    simp [holding, same]

/-- A step that takes and gives nothing back. -/
theorem holding_update_eq {phases : ι → Phase κ δ ρ} (same : p.holds ops = (phases t).holds ops) :
    holding ops (Function.update phases t p) = holding ops phases := by
  rw [holding_update, same]
  exact Function.update_eq_self t (holding ops phases)

theorem Inv.start (d₀ : δ) : Inv ops d₀ ({ data := d₀ } : State L κ δ ρ) d₀ where
  rep := L.rep_free
  compatible _ _ _ _ _ found := by cases found
  replays := .nil
  leads _ := trivial
  unwritten _ := rfl

/-- While one party writes, no other is inside. -/
theorem Inv.alone (inv : Inv ops d₀ s d) (writes : holding ops s.phases t = some .write) (other : u ≠ t) :
    holding ops s.phases u = none := by
  cases held : holding ops s.phases u with
  | none => rfl
  | some m =>
    obtain ⟨-, shared⟩ := inv.compatible u t other m .write held writes
    cases shared

/-- A party that has not the lock has nothing to do with the data. -/
theorem Phase.Leads.outside {data : δ} (outside : p.holds ops = none) : p.Leads ops data d := by
  cases p with
  | idle | waiting c => trivial
  | inside c rest => cases outside

/-- The phases of the others, where one party moves and the data stay. -/
theorem leads_update {data : δ} (phases : ι → Phase κ δ ρ) (leads : ∀ t, (phases t).Leads ops data d)
    (here : p.Leads ops data d) (u : ι) : (Function.update phases t p u).Leads ops data d := by
  by_cases same : u = t
  · subst same
    simpa using here
  · simpa [same] using leads u

/-- A step in which nobody takes or gives back the lock, and nobody writes. -/
theorem Inv.moves (inv : Inv ops d₀ s d) (same : p.holds ops = (s.phases t).holds ops)
    (leads : p.Leads ops s.data d) : Inv ops d₀ (s.goto t p) d := by
  have held : holding ops (s.goto t p).phases = holding ops s.phases := holding_update_eq same
  refine ⟨?_, ?_, inv.replays, leads_update s.phases inv.leads leads, ?_⟩
  · rw [held]
    exact inv.rep
  · rw [held]
    exact inv.compatible
  · rw [held]
    exact inv.unwritten

/-- Taking the lock: nobody has written since the last operation ended. -/
theorem Inv.acquire {lock : L.State} (inv : Inv ops d₀ s d) (waiting : s.phases t = .waiting c)
    (taken : L.acquire (ops c).mode s.lock = some lock) :
    Inv ops d₀ { s.goto t (.inside c (ops c).body) with lock } d := by
  have outside : holding ops s.phases t = none := by rw [holding, waiting]; rfl
  obtain ⟨shares, rep⟩ := L.rep_acquire _ _ _ t _ inv.rep outside taken
  have data : s.data = d := by
    apply inv.unwritten
    intro u writes
    cases (shares u .write writes).2
  have held : holding ops (Function.update s.phases t (.inside c (ops c).body)) =
      (holding ops s.phases).set t (some (ops c).mode) := holding_update s.phases t _
  refine ⟨held ▸ rep, ?_, inv.replays, ?_, fun _ => data⟩
  · show (holding ops (Function.update s.phases t _)).Compatible
    rw [held]
    exact inv.compatible.acquire shares
  · apply leads_update s.phases inv.leads
    exact ⟨by rw [data], (ops c).readOnly⟩

/-- A step that writes: it is the step of a writer, so nobody else is inside. -/
theorem Inv.put {f : δ → δ} {k : Body δ ρ} (inv : Inv ops d₀ s d) (inside : s.phases t = .inside c (.put f k)) :
    Inv ops d₀ { s.goto t (.inside c k) with data := f s.data } d := by
  have here := inv.leads t
  rw [inside] at here
  have reads : (ops c).mode ≠ .read := fun mode => here.2 mode
  have writes : holding ops s.phases t = some .write := by
    rw [holding, inside, Phase.holds]
    cases mode : (ops c).mode with
    | read => exact (reads mode).elim
    | write => rfl
  have held : holding ops (Function.update s.phases t (.inside c k)) = holding ops s.phases :=
    holding_update_eq (by rw [inside]; rfl)
  refine ⟨held ▸ inv.rep, held ▸ inv.compatible, inv.replays, fun u => ?_, fun none => ?_⟩
  · show (Function.update s.phases t (.inside c k) u).Leads ops (f s.data) d
    by_cases same : u = t
    · subst same
      rw [Function.update_self]
      exact ⟨here.1, fun mode => (reads mode).elim⟩
    · rw [Function.update_of_ne same]
      exact .outside (inv.alone writes same)
  · exact (none t (by rw [← writes]; exact congrFun held t)).elim

/-- The end of an operation: what it leaves is what it makes of what was there when the one before ended. -/
theorem Inv.done {r : ρ} (inv : Inv ops d₀ s d) (inside : s.phases t = .inside c (.done r)) :
    Inv ops d₀ { s.goto t .idle with lock := L.release s.lock, log := s.log ++ [⟨t, c, r⟩] } s.data := by
  have here := inv.leads t
  rw [inside] at here
  have mine : holding ops s.phases t = some (ops c).mode := by rw [holding, inside]; rfl
  have held : holding ops (Function.update s.phases t .idle) = (holding ops s.phases).set t none :=
    holding_update s.phases t _
  refine ⟨?_, ?_, inv.replays.snoc here.1.symm, ?_, fun _ => rfl⟩
  · show L.Rep (L.release s.lock) (holding ops (Function.update s.phases t .idle))
    rw [held]
    exact L.rep_release _ _ t _ inv.rep inv.compatible mine
  · show (holding ops (Function.update s.phases t .idle)).Compatible
    rw [held]
    exact inv.compatible.release t
  · show ∀ u, (Function.update s.phases t .idle u).Leads ops s.data s.data
    cases mode : (ops c).mode with
    | read =>
      -- a reader leaves the data as they are
      have data : s.data = d := by
        have kept := ((ops c).readOnly mode).run_fst d
        rw [← here.1] at kept
        exact kept
      apply leads_update s.phases
      · intro u
        have leads := inv.leads u
        rwa [← data] at leads
      · trivial
    | write =>
      intro u
      by_cases same : u = t
      · subst same
        rw [Function.update_self]
        trivial
      · rw [Function.update_of_ne same]
        exact .outside (inv.alone (mode ▸ mine) same)

theorem Inv.step (inv : Inv ops d₀ s d) (step : Sections.step L ops s a = some s') : ∃ d', Inv ops d₀ s' d' := by
  cases a with
  | call t c =>
    simp only [Sections.step] at step
    split at step
    · rename_i idle
      cases step
      exact ⟨d, inv.moves (by rw [idle]; rfl) trivial⟩
    · cases step
  | next t =>
    simp only [Sections.step] at step
    split at step
    · cases step
    · rename_i c waiting
      obtain ⟨lock, taken, rfl⟩ := Option.map_eq_some_iff.mp step
      exact ⟨d, inv.acquire waiting taken⟩
    · rename_i c r inside
      cases step
      exact ⟨s.data, inv.done inside⟩
    · rename_i c k inside
      cases step
      have here := inv.leads t
      rw [inside] at here
      exact ⟨d, inv.moves (by rw [inside]; rfl) ⟨here.1, fun mode => here.2 mode s.data⟩⟩
    · rename_i c f k inside
      cases step
      exact ⟨d, inv.put inside⟩

theorem Inv.of_run (run : exec (Sections.step L ops) ({ data := d₀ } : State L κ δ ρ) as = some s) :
    ∃ d, Inv ops d₀ s d := by
  refine (Guarded.of_exec run).invariant (I := fun s => ∃ d, Inv ops d₀ s d) ⟨d₀, .start d₀⟩ ?_
  rintro _ s a s' _ ⟨d, inv⟩ _ step
  exact inv.step step

/-! ## What holds of every run -/

/-- **Operations under a lock happen one at a time.** The results of a run are those of its operations done
in the order in which they end, and so are the data, except while one of them writes. -/
theorem linearizable (run : exec (step L ops) ({ data := d₀ } : State L κ δ ρ) as = some s) :
    ∃ d, Replays ops d₀ s.log d ∧ ((∀ t, holding ops s.phases t ≠ some .write) → s.data = d) := by
  obtain ⟨d, inv⟩ := Inv.of_run run
  exact ⟨d, inv.replays, inv.unwritten⟩

/-- An operation that has ended stays where it is in the order, whatever is called later. -/
theorem log_prefix (run : exec (step L ops) s as = some s') : s.log <+: s'.log := by
  induction Guarded.of_exec run with
  | refl => exact List.prefix_rfl
  | @snoc as t a u before _ last ih =>
    refine (ih before.exec_eq).trans ?_
    cases a with
    | call t c =>
      simp only [step] at last
      split at last <;> cases last
      exact List.prefix_rfl
    | next t =>
      simp only [step] at last
      split at last
      · cases last
      · obtain ⟨lock, -, rfl⟩ := Option.map_eq_some_iff.mp last
        exact List.prefix_rfl
      · cases last
        exact List.prefix_append _ _
      · cases last
        exact List.prefix_rfl
      · cases last
        exact List.prefix_rfl

/-- What a step calls. -/
def Act.called : Act ι κ → List (ι × κ)
  | .call t c => [(t, c)]
  | .next _ => []

/-- The call a party is in. -/
def Phase.call : Phase κ δ ρ → Option κ
  | .idle => none
  | .waiting c | .inside c _ => some c

/-- Each call has ended once, or its party is in it. -/
theorem count_calls [DecidableEq κ] (run : exec (step L ops) ({ data := d₀ } : State L κ δ ρ) as = some s)
    (t : ι) (c : κ) :
    (as.flatMap Act.called).count (t, c) =
      (s.log.map fun e => (e.party, e.call)).count (t, c) + if (s.phases t).call = some c then 1 else 0 := by
  induction Guarded.of_exec run with
  | refl => rfl
  | @snoc as s a s' before _ last ih =>
    have sofar := ih before.exec_eq
    cases a with
    | call u c' =>
      simp only [step] at last
      split at last
      · rename_i idle
        cases last
        by_cases same : u = t
        · subst same
          simp only [idle, Phase.call, reduceCtorEq, if_false, Nat.add_zero] at sofar
          by_cases called : c' = c
          · subst called
            simp [Act.called, sofar, Phase.call]
          · simp [Act.called, sofar, Phase.call, called]
        · simp [Act.called, sofar, same, Ne.symm same]
      · cases last
    | next u =>
      simp only [step] at last
      have kept : ∀ p : Phase κ δ ρ, p.call = (s.phases u).call →
          (Function.update s.phases u p t).call = (s.phases t).call := by
        intro p call
        by_cases same : t = u
        · subst same
          simpa using call
        · simp [same]
      split at last
      · cases last
      · rename_i c' waiting
        obtain ⟨lock, -, rfl⟩ := Option.map_eq_some_iff.mp last
        simp [Act.called, sofar, kept (.inside c' (ops c').body) (by rw [waiting]; rfl)]
      · rename_i c' r inside
        cases last
        by_cases same : u = t
        · subst same
          by_cases called : c' = c
          · subst called
            simp [Act.called, sofar, inside, Phase.call]
          · simp [Act.called, sofar, inside, Phase.call, called]
        · simp [Act.called, sofar, same, Ne.symm same]
      · rename_i c' k inside
        cases last
        simp [Act.called, sofar, kept (.inside c' (k s.data)) (by rw [inside]; rfl)]
      · rename_i c' f k inside
        cases last
        simp [Act.called, sofar, kept (.inside c' k) (by rw [inside]; rfl)]

/-- When all parties are done, the log has the calls that were made. -/
theorem log_perm [DecidableEq κ] (run : exec (step L ops) ({ data := d₀ } : State L κ δ ρ) as = some s)
    (idle : ∀ t, s.phases t = .idle) :
    (s.log.map fun e => (e.party, e.call)).Perm (as.flatMap Act.called) := by
  apply List.perm_iff_count.mpr
  rintro ⟨t, c⟩
  have counted := count_calls run t c
  rw [idle t] at counted
  exact counted.symm

/-- While a party is in a call, some party can move. -/
theorem progress (run : exec (step L ops) ({ data := d₀ } : State L κ δ ρ) as = some s) (busy : s.phases t ≠ .idle) :
    ∃ u : ι, (step L ops s (.next u)).isSome := by
  obtain ⟨d, inv⟩ := Inv.of_run run
  by_cases someone : ∃ u, holding ops s.phases u ≠ none
  · obtain ⟨u, held⟩ := someone
    refine ⟨u, ?_⟩
    cases at_u : s.phases u with
    | idle | waiting c => simp [holding, at_u, Phase.holds] at held
    | inside c rest =>
      simp only [step, at_u]
      cases rest <;> rfl
  · refine ⟨t, ?_⟩
    have nobody : holding ops s.phases = .nobody := funext fun u => not_not.mp fun held => someone ⟨u, held⟩
    cases at_t : s.phases t with
    | idle => exact (busy at_t).elim
    | waiting c =>
      have free := L.available s.lock (ops c).mode (nobody ▸ inv.rep)
      simpa [step, at_t] using free
    | inside c rest =>
      have held : holding ops s.phases t = some (ops c).mode := by rw [holding, at_t]; rfl
      rw [nobody] at held
      cases held

end Atpdxy.Run.Sections
