import Atpdxy.Log.Pattern

/-!
# The parser without indices

`scan` reads a pattern from left to right: literal text, a `%` before another
`%`, or a directive (`splitDirective`). `parse_eq_scan` says that the loops of
`init` do the same.
-/

namespace Atpdxy.Log

variable {pattern rest q str : Text} {i n fmtBegin next : Nat} {s : Parsed} {c : Char}

/-- A character the inner loop walks over while no brace is open. -/
def nameChar (c : Char) : Bool := c.isAlpha || c == '}'

/-- The name, the format and what follows a directive; none when its brace is
not closed. -/
def splitDirective (rest : Text) : Option (Text × Text × Text) :=
  match rest.dropWhile nameChar with
  | '{' :: more =>
    match more.dropWhile (· != '}') with
    | _ :: after => some (rest.takeWhile nameChar, more.takeWhile (· != '}'), after)
    | [] => none
  | after => some (rest.takeWhile nameChar, [], after)

theorem splitDirective_brace (more : Text) (tail : rest.dropWhile nameChar = '{' :: more) :
    splitDirective rest = match more.dropWhile (· != '}') with
      | _ :: after => some (rest.takeWhile nameChar, more.takeWhile (· != '}'), after)
      | [] => none := by
  simp only [splitDirective, tail]

theorem splitDirective_plain (tail : (rest.dropWhile nameChar).head? ≠ some '{') :
    splitDirective rest = some (rest.takeWhile nameChar, [], rest.dropWhile nameChar) := by
  unfold splitDirective
  split
  · rename_i brace
    simp [brace] at tail
  · rfl

theorem splitDirective_length {name fmt after : Text} (split : splitDirective rest = some (name, fmt, after)) :
    after.length ≤ rest.length := by
  have tail : (rest.dropWhile nameChar).length ≤ rest.length := (List.dropWhile_sublist _).length_le
  unfold splitDirective at split
  split at split
  · rename_i more brace
    split at split
    · rename_i close
      obtain ⟨_, _, rfl⟩ := split
      have inner := (List.dropWhile_sublist (· != '}') (l := more)).length_le
      rw [close] at inner
      simp only [brace, List.length_cons] at tail inner
      omega
    · cases split
  · cases split
    exact tail

/-- The pattern from left to right. -/
def scan : Text → Parsed → Parsed
  | [], s => s.flush
  | c :: rest, s =>
    if c ≠ '%' then scan rest { s with nstr := s.nstr ++ [c] }
    else if rest.head? = some '%' then scan rest { s with nstr := s.nstr ++ ['%'] }
    else
      match _split : splitDirective rest with
      | none => scan rest { s with vec := s.vec ++ [⟨"<<pattern_error>>".toList, [], false⟩], error := true }
      | some (name, fmt, after) => scan after { s.flush with vec := s.flush.vec ++ [⟨name, fmt, true⟩] }
termination_by rest => rest.length
decreasing_by
  all_goals simp only [List.length_cons]
  all_goals try omega
  have := splitDirective_length _split
  omega

/-! ## The inner loop -/

theorem drop_succ (here : pattern.drop n = c :: rest) : pattern.drop (n + 1) = rest := by
  rw [← List.drop_drop, here]
  rfl

/-- `n` is at the last character exactly when nothing follows. -/
theorem last_iff (here : pattern.drop n = c :: rest) : n + 1 = pattern.length ↔ rest = [] := by
  have length := congrArg List.length here
  simp only [List.length_drop, List.length_cons] at length
  rw [← List.length_eq_zero_iff]
  omega

theorem substr_prefix (here : pattern.drop i = q ++ rest) : substr pattern i q.length = q := by
  simp [substr, here]

/-- With a brace open, the loop runs to the next closing one. -/
theorem readDirective_open (str : Text) (here : pattern.drop n = rest)
    (fmt : pattern.drop (fmtBegin + 1) = q ++ rest) (length : n = fmtBegin + 1 + q.length) :
    match rest.dropWhile (· != '}') with
    | [] => ∃ n' str', readDirective pattern i rest n true fmtBegin str = ⟨n', true, str', []⟩
    | _ :: after => ∃ n', readDirective pattern i rest n true fmtBegin str =
        ⟨n', false, str, q ++ rest.takeWhile (· != '}')⟩ ∧ pattern.drop n' = after ∧ n ≤ n' := by
  induction rest generalizing n q str with
  | nil => exact ⟨n, str, rfl⟩
  | cons c rest ih =>
    by_cases close : c = '}'
    · subst close
      have text : substr pattern (fmtBegin + 1) (n - fmtBegin - 1) = q := by
        rw [show n - fmtBegin - 1 = q.length by omega]
        exact substr_prefix fmt
      exact ⟨n + 1, by simp [readDirective, text], drop_succ here, by omega⟩
    · have step := ih (q := q ++ [c]) (if n + 1 = pattern.length ∧ str.isEmpty then pattern.drop (i + 1) else str)
        (drop_succ here) (by simpa using fmt) (by simp only [List.length_append, List.length_singleton]; omega)
      have same : readDirective pattern i (c :: rest) n true fmtBegin str =
          readDirective pattern i rest (n + 1) true fmtBegin
            (if n + 1 = pattern.length ∧ str.isEmpty then pattern.drop (i + 1) else str) := by
        simp [readDirective, close]
      rw [same, List.dropWhile_cons_of_pos (by simpa using close), List.takeWhile_cons_of_pos (by simpa using close)]
      cases tail : rest.dropWhile (· != '}') with
      | nil =>
        rw [tail] at step
        exact step
      | cons d after =>
        -- a brace still to come: the pattern is not at its end
        have more : n + 1 ≠ pattern.length := by
          rw [Ne, last_iff here]
          rintro rfl
          simp at tail
        rw [tail] at step
        obtain ⟨n', read, after, later⟩ := step
        exact ⟨n', by simpa [more] using read, after, by omega⟩

theorem splitDirective_letters (letters : ∀ c ∈ q, nameChar c = true) (rest : Text) : splitDirective (q ++ rest) =
    (splitDirective rest).map fun (name, fmt, after) => (q ++ name, fmt, after) := by
  unfold splitDirective
  rw [List.dropWhile_append_of_pos letters, List.takeWhile_append_of_pos letters]
  split
  · split <;> rfl
  · rfl

theorem splitDirective_other (letter : ¬ nameChar c = true) (brace : c ≠ '{') :
    splitDirective (c :: rest) = some ([], [], c :: rest) := by
  have tail := List.dropWhile_cons_of_neg (l := rest) letter
  rw [splitDirective_plain (by simpa [tail] using brace), tail, List.takeWhile_cons_of_neg letter]

/-- The inner loop, begun at `n`, ends with what the split says. -/
def Directive.Reads (pattern : Text) (n : Nat) (d : Directive) : Option (Text × Text × Text) → Prop
  | none => ∃ n' str', d = ⟨n', true, str', []⟩
  | some (str, fmt, after) => ∃ n', d = ⟨n', false, str, fmt⟩ ∧ pattern.drop n' = after ∧ n ≤ n'

theorem Directive.Reads.earlier {d : Directive} {m : Nat} {found : Option (Text × Text × Text)}
    (reads : d.Reads pattern n found)
    (le : m ≤ n) : d.Reads pattern m found := by
  cases found with
  | none => exact reads
  | some =>
    obtain ⟨n', read, after, later⟩ := reads
    exact ⟨n', read, after, Nat.le_trans le later⟩

/-- From the start of the name, the loop splits the directive. -/
theorem readDirective_name (here : pattern.drop n = rest) (name : pattern.drop (i + 1) = q ++ rest)
    (length : n = i + 1 + q.length) (letters : ∀ c ∈ q, nameChar c = true) :
    (readDirective pattern i rest n false 0 (if rest = [] then q else [])).Reads pattern n
      (splitDirective (q ++ rest)) := by
  induction rest generalizing n q with
  | nil =>
    have split : splitDirective (q ++ []) = some (q, [], []) := by
      rw [splitDirective_letters letters [], show splitDirective [] = some ([], [], []) from rfl]
      simp
    rw [split]
    exact ⟨n, by simp [readDirective], here, Nat.le_refl n⟩
  | cons c rest ih =>
    have text : substr pattern (i + 1) (n - i - 1) = q := by
      rw [show n - i - 1 = q.length by omega]
      exact substr_prefix name
    by_cases letter : nameChar c = true
    · -- one more character of the name
      have plain : c.isAlpha = true ∨ c = '}' := by simpa [nameChar] using letter
      have noBrace : c ≠ '{' := by
        rintro rfl
        simp [nameChar] at letter
      have step := ih (q := q ++ [c]) (drop_succ here) (by simpa using name)
        (by simp only [List.length_append, List.length_singleton]; omega)
        (by simpa [or_imp, forall_and] using ⟨letters, letter⟩)
      have whole : rest = [] → pattern.drop (i + 1) = q ++ [c] := by
        rintro rfl
        exact name
      have same : readDirective pattern i (c :: rest) n false 0 (if c :: rest = [] then q else []) =
          readDirective pattern i rest (n + 1) false 0 (if rest = [] then q ++ [c] else []) := by
        by_cases last : rest = []
        · rcases plain with plain | plain <;> simp [readDirective, plain, noBrace, last_iff here, last, whole last]
        · rcases plain with plain | plain <;> simp [readDirective, plain, noBrace, last_iff here, last]
      rw [same, show q ++ c :: rest = q ++ [c] ++ rest by simp]
      exact step.earlier (Nat.le_succ n)
    · have split := splitDirective_letters letters (c :: rest)
      by_cases brace : c = '{'
      · subst brace
        have read : readDirective pattern i ('{' :: rest) n false 0 (if '{' :: rest = [] then q else []) =
            readDirective pattern i rest (n + 1) true n q := by
          simp [readDirective, text]
        have inner := readDirective_open (i := i) (q := []) q (drop_succ here) (drop_succ here) rfl
        rw [read, split]
        have tail : ('{' :: rest).dropWhile nameChar = '{' :: rest := by simp [nameChar]
        simp only [splitDirective, tail]
        cases close : rest.dropWhile (· != '}') with
        | nil =>
          rw [close] at inner
          exact inner
        | cons d after =>
          rw [close] at inner
          obtain ⟨n', read, after, later⟩ := inner
          exact ⟨n', by simpa [nameChar] using read, after, by omega⟩
      · have stop : c.isAlpha = false ∧ c ≠ '}' := by simpa [nameChar] using letter
        rw [split, splitDirective_other letter brace]
        refine ⟨n, ?_, here, Nat.le_refl n⟩
        simp [readDirective, stop, brace, text]

/-! ## The outer loop -/

/-- A jump ends where it was to. -/
theorem parse_jump (here : pattern.drop i = rest) (ahead : i ≤ next) :
    parse pattern rest i next s = parse pattern (pattern.drop next) next next s := by
  induction rest generalizing i with
  | nil =>
    have none : pattern.drop next = [] := by
      rw [List.drop_eq_nil_iff] at here ⊢
      omega
    rw [none]
    rfl
  | cons c rest ih =>
    by_cases arrived : i = next
    · subst arrived
      rw [here]
    · rw [parse, if_pos (by omega)]
      exact ih (drop_succ here) (by omega)

/-- **`init` reads the pattern from left to right.** -/
theorem parse_eq_scan (here : pattern.drop i = rest) (ahead : next ≤ i) :
    parse pattern rest i next s = scan rest s := by
  induction length : rest.length using Nat.strongRecOn generalizing rest i next s with
  | ind k ih =>
    subst length
    cases rest with
    | nil => rw [parse, scan]
    | cons c rest =>
      have smaller : rest.length < (c :: rest).length := by simp
      have there := drop_succ here
      rw [parse, scan, if_neg (by omega)]
      split
      · exact ih _ smaller there (by omega) rfl
      · split
        · exact ih _ smaller there (by omega) rfl
        · have read := readDirective_name (q := []) there there rfl (by simp)
          simp only [ite_self, List.nil_append] at read
          cases split : splitDirective rest with
          | none =>
            rw [split] at read
            obtain ⟨n', str, read⟩ := read
            simp only [read, Parsed.directive, if_true]
            exact ih _ smaller there (Nat.le_refl _) rfl
          | some found =>
            obtain ⟨name, fmt, after⟩ := found
            rw [split] at read
            obtain ⟨n', read, after, later⟩ := read
            simp only [read, Parsed.directive]
            rw [if_neg (by simp), parse_jump there later, after]
            have less := splitDirective_length split
            exact ih _ (by simp only [List.length_cons]; omega) after (Nat.le_refl _) rfl

theorem parse_start (pattern : Text) : parse pattern pattern 0 0 {} = scan pattern {} :=
  parse_eq_scan (by rw [List.drop_zero]) (Nat.le_refl 0)

theorem init_eq_scan (pattern : Text) : LogFormatter.init pattern =
    { pattern
      items := (scan pattern {}).vec.map fun piece => piece.item.1
      error := (scan pattern {}).error || (scan pattern {}).vec.any fun piece => !piece.item.2 } := by
  rw [LogFormatter.init, parse_start]

/-! ## What the scan adds -/

section Added

variable {rest q name fmt after s : Text} {p : Parsed} {c : Char}

/-- The piece literal text becomes, if there is any. -/
def literal (str : Text) : List Piece := if str.isEmpty then [] else [⟨str, [], false⟩]

theorem Parsed.flush_eq (p : Parsed) : p.flush = { p with vec := p.vec ++ literal p.nstr, nstr := [] } := by
  obtain ⟨vec, nstr, error⟩ := p
  cases nstr <;> simp [Parsed.flush, literal]

/-- The result so far stays in front, and an error stays. -/
theorem scan_eq (rest : Text) (p : Parsed) : scan rest p =
    { vec := p.vec ++ (scan rest { nstr := p.nstr }).vec
      nstr := []
      error := p.error || (scan rest { nstr := p.nstr }).error } := by
  induction length : rest.length using Nat.strongRecOn generalizing rest p with
  | ind k ih =>
    subst length
    cases rest with
    | nil => simp [scan, Parsed.flush_eq]
    | cons c rest =>
      have smaller : rest.length < (c :: rest).length := by simp
      rw [scan, scan]
      split
      · exact ih _ smaller rest _ rfl
      · split
        · exact ih _ smaller rest _ rfl
        · split
          · rename_i split
            rw [ih _ smaller rest _ rfl, ih _ smaller rest ⟨_ ++ _, _, _⟩ rfl]
            simp
          · rename_i name fmt after split
            have less := splitDirective_length split
            have here : after.length < (c :: rest).length := by simp only [List.length_cons]; omega
            rw [ih _ here after _ rfl, ih _ here after ⟨_ ++ _, _, _⟩ rfl]
            simp [Parsed.flush_eq]

theorem scan_plain (plain : '%' ∉ s) (rest : Text) (p : Parsed) :
    scan (s ++ rest) p = scan rest { p with nstr := p.nstr ++ s } := by
  induction s generalizing p with
  | nil => simp
  | cons c s ih =>
    simp only [List.mem_cons, not_or] at plain
    rw [List.cons_append, scan, if_pos (Ne.symm plain.1), ih plain.2]
    simp

/-- The directive after a single `%`. -/
theorem scan_directive (single : rest.head? ≠ some '%') (split : splitDirective rest = some (name, fmt, after)) :
    scan ('%' :: rest) p = scan after { p.flush with vec := p.flush.vec ++ [⟨name, fmt, true⟩] } := by
  rw [scan, if_neg (by simp), if_neg single, split]

theorem scan_unclosed (single : rest.head? ≠ some '%') (split : splitDirective rest = none) :
    (scan ('%' :: rest) p).error = true := by
  rw [scan, if_neg (by simp), if_neg single, split, scan_eq]
  simp

/-- Parsed without an error. -/
def Parsed.Clean (p : Parsed) : Prop := p.error = false ∧ ∀ piece ∈ p.vec, piece.item.2 = true

theorem isError_iff (pattern : Text) :
    (LogFormatter.init pattern).isError = false ↔ (scan pattern {}).Clean := by
  simp [LogFormatter.isError, init_eq_scan, Parsed.Clean]

/-- The pieces of a clean result with one directive taken apart. -/
theorem Parsed.Clean.of_directive (single : rest.head? ≠ some '%') (split : splitDirective rest = some (name, fmt, after))
    (clean : (scan ('%' :: rest) p).Clean) : (Piece.mk name fmt true).item.2 = true ∧ (scan after {}).Clean := by
  rw [scan_directive single split, scan_eq] at clean
  obtain ⟨noError, known⟩ := clean
  simp only [Parsed.flush_eq, Bool.or_eq_false_iff] at noError known
  exact ⟨known _ (by simp), noError.2, fun piece member => known piece (List.mem_append_right _ member)⟩

end Added

end Atpdxy.Log
