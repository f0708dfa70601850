import Mathlib.Data.List.Infix

/-!
# Words and their powers

A border of a word begins it and ends it. A word without one of its own commutes
with nothing but its own powers.
-/

namespace Atpdxy.Words

variable {α : Type*} {w s : List α} {m n : Nat}

/-- `w`, `n` times. -/
def power (w : List α) (n : Nat) : List α := (List.replicate n w).flatten

@[simp] theorem power_zero (w : List α) : power w 0 = [] := rfl

theorem power_succ (w : List α) (n : Nat) : power w (n + 1) = w ++ power w n := by
  simp [power, List.replicate_succ]

theorem power_add (w : List α) (m n : Nat) : power w (m + n) = power w m ++ power w n := by
  rw [power, ← List.replicate_append_replicate, List.flatten_append]
  rfl

theorem power_comm (w : List α) (m n : Nat) : power w m ++ power w n = power w n ++ power w m := by
  rw [← power_add, ← power_add, Nat.add_comm]

/-- No other word than `w` and the empty one both begins `w` and ends it. -/
def Unbordered (w : List α) : Prop := w ≠ [] ∧ ∀ b, b <+: w → b <:+ w → b = [] ∨ b = w

instance [DecidableEq α] (w : List α) : Decidable (Unbordered w) :=
  decidable_of_iff (w ≠ [] ∧ ∀ b ∈ w.inits, b <:+ w → b = [] ∨ b = w) (by simp [Unbordered])

/-- The powers behind a word that commutes with them end with it, if it is short. -/
theorem suffix_of_comm (comm : power w (n + 1) ++ s = s ++ power w (n + 1)) (short : s.length ≤ w.length) :
    s <:+ w := by
  have ends : s <:+ s ++ power w (n + 1) := comm ▸ List.suffix_append _ s
  have last : w <:+ s ++ power w (n + 1) := by
    rw [power_add, power_succ, power_zero, List.append_nil, ← List.append_assoc]
    exact List.suffix_append _ w
  exact List.suffix_of_suffix_length_le ends last short

/-- **What commutes with a power of an unbordered word is a power of it.** -/
theorem comm_iff (unbordered : Unbordered w) :
    power w (n + 1) ++ s = s ++ power w (n + 1) ↔ ∃ m, s = power w m := by
  constructor
  · intro comm
    induction length : s.length using Nat.strongRecOn generalizing s with
    | ind k ih =>
      subst length
      have starts : w <+: s ++ power w (n + 1) := by
        rw [← comm, power_succ, List.append_assoc]
        exact List.prefix_append w _
      by_cases short : s.length ≤ w.length
      · -- a border
        have border := List.prefix_of_prefix_length_le (List.prefix_append s _) starts short
        rcases unbordered.2 s border (suffix_of_comm comm short) with rfl | rfl
        · exact ⟨0, rfl⟩
        · exact ⟨1, by simp [power_succ]⟩
      · -- `w` begins `s`; the rest commutes as well
        obtain ⟨t, rfl⟩ := List.prefix_of_prefix_length_le starts (List.prefix_append s _) (by omega)
        have less : t.length < (w ++ t).length := by
          have some := List.length_pos_iff.mpr unbordered.1
          rw [List.length_append]
          omega
        have rest : power w (n + 1) ++ t = t ++ power w (n + 1) := by
          have swap := power_comm w (n + 1) 1
          rw [power_succ w 0, power_zero, List.append_nil] at swap
          rw [← List.append_assoc, swap] at comm
          simpa using comm
        obtain ⟨m, rfl⟩ := ih _ less rest rfl
        exact ⟨m + 1, (power_succ w m).symm⟩
  · rintro ⟨m, rfl⟩
    exact power_comm w (n + 1) m

end Atpdxy.Words
