import Atpdxy.Log.Scan

/-!
# The loops of the parser by index

`innerLoop` and `outerLoop` are the two loops of `LogFormatter::init` as they
stand, on the indices `n` and `i` alone, and with fuel: one unit a turn.
`outerLoop_eq` says that more fuel than characters is enough, whatever the
pattern, and that the result is that of `parse`.
-/

namespace Atpdxy.Log

variable {pattern rest str : Text} {i n next fuel fmtBegin : Nat} {status : Bool} {s : Parsed} {c : Char}

/-- The inner loop; none when the fuel is used up. -/
def innerLoop (pattern : Text) (i : Nat) : (fuel n : Nat) → (status : Bool) → (fmtBegin : Nat) → (str : Text) →
    Option Directive
  | 0, _, _, _, _ => none
  | fuel + 1, n, status, fmtBegin, str =>
    match pattern[n]? with
    | none => some ⟨n, status, str, []⟩
    | some c =>
      if !status && (!c.isAlpha && c != '{' && c != '}') then
        some ⟨n, status, substr pattern (i + 1) (n - i - 1), []⟩
      else if !status && c == '{' then
        innerLoop pattern i fuel (n + 1) true n (substr pattern (i + 1) (n - i - 1))
      else if status && c == '}' then
        some ⟨n + 1, false, str, substr pattern (fmtBegin + 1) (n - fmtBegin - 1)⟩
      else
        let str := if n + 1 = pattern.length ∧ str.isEmpty then pattern.drop (i + 1) else str
        innerLoop pattern i fuel (n + 1) status fmtBegin str

/-- The outer loop; none when the fuel is used up. -/
def outerLoop (pattern : Text) : (fuel i : Nat) → Parsed → Option Parsed
  | 0, _, _ => none
  | fuel + 1, i, s =>
    match pattern[i]? with
    | none => some s.flush
    | some c =>
      if c ≠ '%' then outerLoop pattern fuel (i + 1) { s with nstr := s.nstr ++ [c] }
      else if pattern[i + 1]? = some '%' then outerLoop pattern fuel (i + 1) { s with nstr := s.nstr ++ ['%'] }
      else
        (innerLoop pattern i fuel (i + 1) false 0 []).bind fun d =>
          outerLoop pattern fuel (s.directive i d).2 (s.directive i d).1

theorem getElem?_of_drop (here : pattern.drop n = c :: rest) : pattern[n]? = some c := by
  rw [← List.head?_drop, here]
  rfl

theorem getElem?_of_drop_nil (here : pattern.drop n = []) : pattern[n]? = none := by
  rw [← List.head?_drop, here]
  rfl

/-- Each turn of the inner loop goes one character on. -/
theorem innerLoop_eq (here : pattern.drop n = rest) (enough : rest.length < fuel) :
    innerLoop pattern i fuel n status fmtBegin str = some (readDirective pattern i rest n status fmtBegin str) := by
  induction fuel generalizing n rest status fmtBegin str with
  | zero => omega
  | succ fuel ih =>
    rw [innerLoop]
    cases rest with
    | nil =>
      rw [getElem?_of_drop_nil here]
      rfl
    | cons c rest =>
      have less : rest.length < fuel := by
        simp only [List.length_cons] at enough
        omega
      rw [getElem?_of_drop here, readDirective]
      simp only [ih (drop_succ here) less]
      split
      · rfl
      · split
        · rfl
        · split <;> rfl

/-- The inner loop never goes back. -/
theorem readDirective_le (rest : Text) : n ≤ (readDirective pattern i rest n status fmtBegin str).n := by
  induction rest generalizing n status fmtBegin str with
  | nil => exact Nat.le_refl n
  | cons c rest ih =>
    rw [readDirective]
    split
    · exact Nat.le_refl n
    · split
      · exact Nat.le_of_succ_le ih
      · split
        · exact Nat.le_succ n
        · exact Nat.le_of_succ_le ih

/-- After a directive the outer loop goes on, by one character at least. -/
theorem lt_directive (d : Directive) (later : i + 1 ≤ d.n) : i < (s.directive i d).2 := by
  unfold Parsed.directive
  split
  · exact Nat.lt_succ_self i
  · exact later

/-- **Both loops end**, and the outer one with what `parse` says. -/
theorem outerLoop_eq (enough : (pattern.drop i).length < fuel) :
    outerLoop pattern fuel i s = some (parse pattern (pattern.drop i) i i s) := by
  induction fuel generalizing i s with
  | zero => omega
  | succ fuel ih =>
    rw [outerLoop]
    cases here : pattern.drop i with
    | nil =>
      rw [getElem?_of_drop_nil here]
      rfl
    | cons c rest =>
      have there := drop_succ here
      have less : rest.length < fuel := by
        simp only [here, List.length_cons] at enough
        omega
      -- a jump to `next` is where `parse` gets to
      have onward {next : Nat} {s : Parsed} (further : i < next) :
          outerLoop pattern fuel next s = some (parse pattern rest (i + 1) next s) := by
        have shorter : (pattern.drop next).length < fuel := by
          rw [← there, List.length_drop] at less
          rw [List.length_drop]
          omega
        rw [ih shorter, parse_jump there further]
      have walked (next : Nat) (s : Parsed) (near : next ≤ i + 1) :
          parse pattern rest (i + 1) next s = parse pattern rest (i + 1) (i + 1) s := by
        rw [parse_eq_scan there near, parse_eq_scan there (Nat.le_refl _)]
      rw [getElem?_of_drop here, parse, if_neg (Nat.lt_irrefl i)]
      have second : pattern[i + 1]? = rest.head? := by rw [← there, List.head?_drop]
      simp only [second]
      split
      · rw [onward (Nat.lt_succ_self i), walked i _ (Nat.le_succ i)]
      · split
        · rw [onward (Nat.lt_succ_self i), walked i _ (Nat.le_succ i)]
        · rw [innerLoop_eq there less]
          exact onward (lt_directive _ (readDirective_le rest))

/-- `init` by its loops; none when the fuel is used up. -/
def LogFormatter.initLoops (pattern : Text) (fuel : Nat) : Option LogFormatter :=
  (outerLoop pattern fuel 0 {}).map fun parsed =>
    { pattern
      items := parsed.vec.map fun piece => piece.item.1
      error := parsed.error || parsed.vec.any fun piece => !piece.item.2 }

theorem LogFormatter.initLoops_eq (enough : pattern.length < fuel) :
    initLoops pattern fuel = some (.init pattern) := by
  rw [initLoops, outerLoop_eq (by simpa using enough), List.drop_zero]
  rfl

end Atpdxy.Log
