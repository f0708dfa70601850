import Mathlib.Data.List.Induction
import Mathlib.Order.WellFounded

/-!
# Runs of a partial step function

A system is a step function `step : σ → α → Option σ`: the action picks who
moves and which choice it makes, and `none` says the action is not enabled.
`exec` plays a schedule of actions and computes. `Guarded` is the same run as
a relation, with a condition `ok` that the state before each step meets; it
grows at its end, so `Guarded.invariant` is the step-to-run induction, and the
invariants already proved of a run are available in the step of the next one.
-/

namespace Atpdxy.Run

variable {σ α : Type*}

/-- Plays a schedule; `none` as soon as an action is not enabled. -/
def exec (step : σ → α → Option σ) : σ → List α → Option σ
  | s, [] => some s
  | s, a :: as => (step s a).bind fun t => exec step t as

/-- A run from `s` each of whose steps starts in a state that meets `ok`. -/
inductive Guarded (step : σ → α → Option σ) (ok : σ → α → Prop) (s : σ) : List α → σ → Prop
  | refl : Guarded step ok s [] s
  | snoc {as : List α} {t : σ} {a : α} {u : σ} :
      Guarded step ok s as t → ok t a → step t a = some u → Guarded step ok s (as ++ [a]) u

variable {step : σ → α → Option σ} {ok ok' : σ → α → Prop} {s t u : σ} {as bs : List α}

/-- The step-to-run rule. The step may use that its state ends a guarded run. -/
theorem Guarded.invariant {I : σ → Prop} (start : I s)
    (keep : ∀ as t a u, Guarded step ok s as t → I t → ok t a → step t a = some u → I u)
    (run : Guarded step ok s as t) : I t := by
  induction run with
  | refl => exact start
  | snoc run met step ih => exact keep _ _ _ _ run ih met step

/-- A weaker condition admits more runs. -/
theorem Guarded.mono (weaker : ∀ t a, ok t a → ok' t a) (run : Guarded step ok s as t) :
    Guarded step ok' s as t := by
  induction run with
  | refl => exact .refl
  | snoc _ met step ih => exact .snoc ih (weaker _ _ met) step

/-- A condition that follows at each step from the run so far. -/
theorem Guarded.imp (follows : ∀ as t a u, Guarded step ok s as t → ok t a → step t a = some u → ok' t a)
    (run : Guarded step ok s as t) : Guarded step ok' s as t := by
  induction run with
  | refl => exact .refl
  | snoc run met step ih => exact .snoc ih (follows _ _ _ _ run met step) step

theorem Guarded.single {a : α} (met : ok s a) (only : step s a = some t) : Guarded step ok s [a] t :=
  show Guarded step ok s ([] ++ [a]) t from .snoc .refl met only

theorem Guarded.append (first : Guarded step ok s as t) (second : Guarded step ok t bs u) :
    Guarded step ok s (as ++ bs) u := by
  induction second with
  | refl => simpa using first
  | snoc _ met last ih => simpa [← List.append_assoc] using ih.snoc met last

/-- A view of the states under which each guarded step is a guarded run of another system. -/
theorem Guarded.project {τ β : Type*} {other : τ → β → Option τ} {allowed : τ → β → Prop} (view : σ → τ)
    (split : ∀ s a t, ok s a → step s a = some t → ∃ bs, Guarded other allowed (view s) bs (view t))
    (run : Guarded step ok s as t) : ∃ bs, Guarded other allowed (view s) bs (view t) := by
  induction run with
  | refl => exact ⟨[], .refl⟩
  | snoc _ met last ih =>
    obtain ⟨bs, before⟩ := ih
    obtain ⟨cs, after⟩ := split _ _ _ met last
    exact ⟨bs ++ cs, before.append after⟩

/-- When each step of a coarse system is a guarded run of a fine one, so is each
guarded run. -/
theorem Guarded.refine {coarse : σ → α → Option σ} {allowed : σ → α → Prop}
    (split : ∀ s a t, allowed s a → coarse s a = some t → ∃ bs, Guarded step ok s bs t)
    (run : Guarded coarse allowed s as t) : ∃ bs, Guarded step ok s bs t :=
  run.project id split

/-- A view of the states under which each guarded step is one of another system. -/
theorem Guarded.map {τ : Type*} {other : τ → α → Option τ} {allowed : τ → α → Prop} (view : σ → τ)
    (steps : ∀ s a t, ok s a → step s a = some t → allowed (view s) a ∧ other (view s) a = some (view t))
    (run : Guarded step ok s as t) : Guarded other allowed (view s) as (view t) := by
  induction run with
  | refl => exact .refl
  | snoc _ met last ih =>
    obtain ⟨met, last⟩ := steps _ _ _ met last
    exact .snoc ih met last

theorem exec_append (as bs : List α) :
    exec step s (as ++ bs) = (exec step s as).bind fun t => exec step t bs := by
  induction as generalizing s with
  | nil => rfl
  | cons a as ih =>
    simp only [List.cons_append, exec, Option.bind_assoc]
    congr 1
    funext t
    exact ih

/-- A guarded run is a run. -/
theorem Guarded.exec_eq (run : Guarded step ok s as t) : exec step s as = some t := by
  induction run with
  | refl => rfl
  | snoc _ _ step ih => simp [exec_append, ih, exec, step]

/-- A schedule that plays through is a run without a condition. -/
theorem Guarded.of_exec (run : exec step s as = some t) : Guarded step (fun _ _ => True) s as t := by
  induction as using List.reverseRecOn generalizing t with
  | nil => cases run; exact .refl
  | append_singleton as a ih =>
    rw [exec_append] at run
    obtain ⟨u, before, last⟩ := Option.bind_eq_some_iff.mp run
    obtain ⟨v, last, done⟩ := Option.bind_eq_some_iff.mp last
    cases done
    exact .snoc (ih before) trivial last

/-- A condition on the actions alone. -/
theorem Guarded.of_forall {met : α → Prop} (run : exec step s as = some t) (all : ∀ a ∈ as, met a) :
    Guarded step (fun _ a => met a) s as t := by
  induction Guarded.of_exec run with
  | refl => exact .refl
  | snoc before _ last ih =>
    exact .snoc (ih before.exec_eq fun a member => all a (List.mem_append_left _ member)) (all _ (by simp)) last

/-- What each step keeps exactly when it meets `ok` holds of the guarded runs and of no others. -/
theorem Guarded.iff_of_step {P : σ → Prop} (start : P s)
    (steps : ∀ t a u, step t a = some u → (P u ↔ P t ∧ ok t a)) (run : exec step s as = some t) :
    P t ↔ Guarded step ok s as t := by
  constructor
  · intro holds
    induction Guarded.of_exec run with
    | refl => exact .refl
    | snoc before _ last ih =>
      obtain ⟨earlier, met⟩ := (steps _ _ _ last).mp holds
      exact .snoc (ih before.exec_eq earlier) met last
  · intro run
    exact run.invariant start fun _ _ _ _ _ holds met last => (steps _ _ _ last).mpr ⟨holds, met⟩

/-- Plays a schedule and tests the condition before each step. -/
def execIf (step : σ → α → Option σ) (ok : σ → α → Prop) [∀ s a, Decidable (ok s a)] :
    σ → List α → Option σ
  | s, [] => some s
  | s, a :: as => if ok s a then (step s a).bind fun t => execIf step ok t as else none

/-- A step before a guarded run. -/
theorem Guarded.cons {a : α} (met : ok s a) (first : step s a = some t)
    (run : Guarded step ok t as u) : Guarded step ok s (a :: as) u := by
  induction run with
  | refl => exact .single met first
  | snoc _ met last ih => exact .snoc ih met last

theorem Guarded.of_execIf [∀ s a, Decidable (ok s a)] (run : execIf step ok s as = some t) :
    Guarded step ok s as t := by
  induction as generalizing s with
  | nil => cases run; exact .refl
  | cons a as ih =>
    simp only [execIf] at run
    split at run
    · rename_i met
      obtain ⟨u, first, rest⟩ := Option.bind_eq_some_iff.mp run
      exact (ih rest).cons met first
    · cases run

/-- A state that passes a computed test after a schedule is reached by it. -/
theorem exec_of_any {p : σ → Bool} (test : (exec step s as).any p = true) :
    ∃ t, exec step s as = some t ∧ p t = true := by
  cases found : exec step s as with
  | none => simp [found] at test
  | some t => exact ⟨t, rfl, by simpa [found] using test⟩

theorem Guarded.of_any [∀ s a, Decidable (ok s a)] {p : σ → Bool} (test : (execIf step ok s as).any p = true) :
    ∃ t, Guarded step ok s as t ∧ p t = true := by
  cases found : execIf step ok s as with
  | none => simp [found] at test
  | some t => exact ⟨t, .of_execIf found, by simpa [found] using test⟩

/-- The progress rule: if every state with `I` that is not at the goal has a
guarded step that keeps `I` and lowers the measure, the goal is reached from
every state with `I`. -/
theorem Guarded.reaches {β : Type*} [LT β] [WellFoundedLT β] {I goal : σ → Prop} (measure : σ → β)
    (progress : ∀ s, I s → ¬ goal s → ∃ a t, ok s a ∧ step s a = some t ∧ I t ∧ measure t < measure s)
    (holds : I s) : ∃ as t, Guarded step ok s as t ∧ I t ∧ goal t := by
  induction found : measure s using WellFoundedLT.induction generalizing s with
  | ind m ih =>
    subst found
    by_cases there : goal s
    · exact ⟨[], s, .refl, holds, there⟩
    · obtain ⟨a, t, met, first, keeps, lower⟩ := progress s holds there
      obtain ⟨as, u, rest, last, reached⟩ := ih _ lower keeps rfl
      exact ⟨a :: as, u, rest.cons met first, last, reached⟩

end Atpdxy.Run
