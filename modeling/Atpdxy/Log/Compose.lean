import Atpdxy.Log.Grammar
import Atpdxy.Log.Percent
import Atpdxy.Words.Border

/-!
# Patterns put together

The text of a pattern behind another is the texts of both, unless a brace of the
second stays open. Then the error comes before the literal text the first one
ends with: the parser has not made an item of it yet. Nothing is seen of that
only where the literal text consists of such errors itself.
-/

namespace Atpdxy.Log

open Words

variable {rest name fmt after u v nstr : Text} {p : Parsed} {k : Nat} {strftime : Strftime}

/-- The text for a directive whose brace is not closed. -/
def patternError : Text := "<<pattern_error>>".toList

def errorPiece : Piece := ⟨patternError, [], false⟩

/-- The directive behind the first `%`s has its brace closed, if it has one. -/
def Closed (v : Text) : Prop := (splitDirective (v.dropWhile (· == '%'))).isSome = true

instance (v : Text) : Decidable (Closed v) := inferInstanceAs (Decidable (_ = true))

/-- The literal text behind the last directive; `nstr` is what comes before. -/
def trailing : (pattern nstr : Text) → Text
  | [], nstr => nstr
  | c :: rest, nstr =>
    if c ≠ '%' then trailing rest (nstr ++ [c])
    else if rest.head? = some '%' then trailing rest (nstr ++ ['%'])
    else
      match _split : splitDirective rest with
      | none => trailing rest nstr
      | some (_, _, after) => trailing after []
termination_by pattern => pattern.length
decreasing_by
  all_goals simp only [List.length_cons]
  all_goals try omega
  have := splitDirective_length _split
  omega

/-! ## The first pattern -/

/-- A `%` ends a directive without braces. -/
theorem splitDirective_append (split : splitDirective rest = some (name, fmt, after)) (percent : v.head? = some '%') :
    splitDirective (rest ++ v) = some (name, fmt, after ++ v) := by
  have letters : ∀ c ∈ name, nameChar c = true := by
    rw [splitDirective_name split]
    exact fun c => List.mem_takeWhile_imp
  obtain ⟨rfl, closed⟩ | ⟨rfl, rfl, stops⟩ := splitDirective_forms split
  · have inside : ∀ c ∈ fmt, (c != '}') = true := by
      intro c there
      have other : c ≠ '}' := by
        rintro rfl
        exact closed there
      simpa using other
    have tail : ('{' :: (fmt ++ '}' :: (after ++ v))).dropWhile nameChar = '{' :: (fmt ++ '}' :: (after ++ v)) := by
      simp [nameChar]
    rw [show name ++ '{' :: (fmt ++ '}' :: after) ++ v = name ++ '{' :: (fmt ++ '}' :: (after ++ v)) by simp,
      splitDirective_letters letters, splitDirective_brace _ tail, List.dropWhile_append_of_pos inside,
      List.takeWhile_append_of_pos inside]
    simp [nameChar]
  · rw [List.append_assoc, splitDirective_letters letters]
    obtain ⟨v, rfl⟩ := List.head?_eq_some_iff.mp percent
    cases after with
    | nil =>
      have none : splitDirective ('%' :: v) = some ([], [], '%' :: v) := splitDirective_other (by decide) (by decide)
      simp [none]
    | cons c after =>
      obtain ⟨noAlpha, noOpen, noClose⟩ := stops c rfl
      have none : splitDirective (c :: (after ++ '%' :: v)) = some ([], [], c :: (after ++ '%' :: v)) :=
        splitDirective_other (by simp [nameChar, noAlpha, noClose]) noOpen
      simp [none]

/-- No directive is left open at the end of a pattern without errors. -/
theorem single_append (clean : (scan ('%' :: rest) p).Clean) (single : rest.head? ≠ some '%') :
    (rest ++ v).head? ≠ some '%' := by
  cases rest with
  | nil =>
    obtain ⟨known, -⟩ := clean.of_directive single rfl
    cases known
  | cons c rest => exact single

/-- Behind a pattern without errors the scan goes on with the literal text the
pattern ends with. -/
theorem scan_append (clean : (scan u { nstr }).Clean) :
    ∃ vec, (scan u { nstr }).vec = vec ++ literal (trailing u nstr) ∧
    ∀ v, v.head? = some '%' → (scan (u ++ v) { nstr }).vec = vec ++ (scan v { nstr := trailing u nstr }).vec := by
  fun_induction trailing u nstr with
  | case1 nstr => exact ⟨[], by simp [scan, Parsed.flush_eq], fun v _ => rfl⟩
  | case2 c rest nstr plain ih =>
    rw [scan, if_pos plain] at clean ⊢
    obtain ⟨vec, here, there⟩ := ih clean
    refine ⟨vec, here, fun v percent => ?_⟩
    rw [List.cons_append, scan, if_pos plain]
    exact there v percent
  | case3 c rest nstr sign double ih =>
    rw [scan, if_neg sign, if_pos double] at clean ⊢
    obtain ⟨vec, here, there⟩ := ih clean
    refine ⟨vec, here, fun v percent => ?_⟩
    have double' : (rest ++ v).head? = some '%' := by
      obtain ⟨more, rfl⟩ := List.head?_eq_some_iff.mp double
      rfl
    rw [List.cons_append, scan, if_neg sign, if_pos double']
    exact there v percent
  | case4 c rest nstr sign single unclosed ih =>
    obtain rfl : c = '%' := by simpa using sign
    have failed := scan_unclosed (p := { nstr }) single unclosed
    rw [clean.1] at failed
    cases failed
  | case5 c rest nstr sign single name fmt after split ih =>
    obtain rfl : c = '%' := by simpa using sign
    obtain ⟨vec, here, there⟩ := ih (clean.of_directive single split).2
    refine ⟨literal nstr ++ ⟨name, fmt, true⟩ :: vec, ?_, fun v percent => ?_⟩
    · rw [scan_directive single split, scan_eq]
      simp [Parsed.flush_eq, here]
    · rw [List.cons_append,
        scan_directive (single_append clean single) (splitDirective_append split percent), scan_eq]
      simp [Parsed.flush_eq, there v percent]

/-! ## The second pattern -/

/-- What the scan makes of a pattern behind literal text: `k` errors come before it. -/
def Shifts (v : Text) (k : Nat) : Prop :=
  ∃ more vec, ∀ nstr, (scan v { nstr }).vec = List.replicate k errorPiece ++ (literal (nstr ++ more) ++ vec)

theorem Shifts.literal {c : Char} (shift : Shifts rest k) (plain : c ≠ '%') : Shifts (c :: rest) k := by
  obtain ⟨more, vec, shift⟩ := shift
  exact ⟨c :: more, vec, fun nstr => by rw [scan, if_pos plain, shift]; simp⟩

theorem Shifts.double (shift : Shifts rest k) (double : rest.head? = some '%') : Shifts ('%' :: rest) k := by
  obtain ⟨more, vec, shift⟩ := shift
  exact ⟨'%' :: more, vec, fun nstr => by rw [scan, if_neg (by simp), if_pos double, shift]; simp⟩

theorem Shifts.unclosed (shift : Shifts rest k) (single : rest.head? ≠ some '%') (split : splitDirective rest = none) :
    Shifts ('%' :: rest) (k + 1) := by
  obtain ⟨more, vec, shift⟩ := shift
  refine ⟨more, vec, fun nstr => ?_⟩
  rw [scan, if_neg (by simp), if_neg single, split, scan_eq, shift, List.replicate_succ]
  rfl

theorem Shifts.directive (single : rest.head? ≠ some '%') (split : splitDirective rest = some (name, fmt, after)) :
    Shifts ('%' :: rest) 0 := by
  refine ⟨[], ⟨name, fmt, true⟩ :: (scan after {}).vec, fun nstr => ?_⟩
  rw [scan_directive single split, scan_eq]
  simp [Parsed.flush_eq]

/-- Literal text stays in one piece, behind some errors. -/
theorem exists_shifts (rest : Text) : ∃ k, Shifts rest k := by
  induction rest with
  | nil => exact ⟨0, [], [], fun nstr => by simp [scan, Parsed.flush_eq]⟩
  | cons c rest ih =>
    obtain ⟨k, shift⟩ := ih
    by_cases plain : c ≠ '%'
    · exact ⟨k, shift.literal plain⟩
    · obtain rfl : c = '%' := by simpa using plain
      by_cases double : rest.head? = some '%'
      · exact ⟨k, shift.double double⟩
      · cases split : splitDirective rest with
        | none => exact ⟨k + 1, shift.unclosed double split⟩
        | some parts => exact ⟨0, .directive double split⟩

/-- Behind a `%` it stays where it is exactly when the brace is closed. -/
theorem shifts_closed (rest : Text) : ∃ k, Shifts ('%' :: rest) k ∧ (Closed ('%' :: rest) ↔ k = 0) := by
  induction rest with
  | nil => exact ⟨0, .directive (by simp) rfl, by decide⟩
  | cons c rest ih =>
    by_cases double : c = '%'
    · subst double
      obtain ⟨k, shift, closed⟩ := ih
      exact ⟨k, shift.double rfl, closed⟩
    · have single : (c :: rest).head? ≠ some '%' := by simpa using double
      have run : ('%' :: c :: rest).dropWhile (· == '%') = c :: rest := by simp [double]
      cases split : splitDirective (c :: rest) with
      | none =>
        obtain ⟨k, shift⟩ := exists_shifts (c :: rest)
        exact ⟨k + 1, shift.unclosed single split, by simp [Closed, run, split]⟩
      | some parts => exact ⟨0, .directive single split, by simp [Closed, run, split]⟩

theorem render_errors {print : FormatItem → Text} (string : ∀ str, print (.string str) = str) (k : Nat) :
    render print (List.replicate k errorPiece) = power patternError k := by
  induction k with
  | zero => rfl
  | succ k ih =>
    rw [List.replicate_succ, power_succ, ← ih]
    exact congrArg (· ++ _) (string patternError)

theorem Shifts.render {print : FormatItem → Text} (string : ∀ str, print (.string str) = str) (shift : Shifts v k) :
    ∃ out, ∀ nstr, render print (scan v { nstr }).vec = power patternError k ++ (nstr ++ out) := by
  obtain ⟨more, vec, shift⟩ := shift
  refine ⟨more ++ Log.render print vec, fun nstr => ?_⟩
  rw [shift, render_append, render_append, render_errors string, render_literal string, List.append_assoc]

/-! ## Both -/

theorem unbordered_patternError : Unbordered patternError := by decide

/-- **Main result**: the text of a pattern without errors and of one behind it that
begins with `%` is the texts of both, exactly when no brace stays open there, or
the literal text before it is the text for such a brace, any number of times. -/
theorem format_append (strftime : Strftime) (stack : Text) (level : Level) (event : Event)
    (valid : (LogFormatter.init u).isError = false) (percent : v.head? = some '%') :
    (LogFormatter.init (u ++ v)).format strftime stack level event =
        (LogFormatter.init u).format strftime stack level event ++
          (LogFormatter.init v).format strftime stack level event ↔
      Closed v ∨ ∃ m, trailing u [] = power patternError m := by
  have string : ∀ str, FormatItem.format strftime stack level event (.string str) = str := fun _ => rfl
  obtain ⟨vec, first, second⟩ := scan_append ((isError_iff u).mp valid)
  obtain ⟨rest, rfl⟩ := List.head?_eq_some_iff.mp percent
  obtain ⟨k, shift, closed⟩ := shifts_closed rest
  obtain ⟨out, output⟩ := shift.render string
  rw [format_eq_render, format_eq_render, format_eq_render, first, second _ percent, render_append, render_append,
    render_literal string, output, output [], closed]
  -- what both sides begin and end with goes
  simp only [List.nil_append, List.append_assoc, List.append_cancel_left_eq]
  rw [← List.append_assoc, ← List.append_assoc, List.append_cancel_right_eq]
  cases k with
  | zero => simp
  | succ k => rw [comm_iff unbordered_patternError]; simp

theorem format_append_date :
    (LogFormatter.init "%m at %d{%H}".toList).format epoch [] .info short =
      (LogFormatter.init "%m at ".toList).format epoch [] .info short ++
        (LogFormatter.init "%d{%H}".toList).format epoch [] .info short :=
  (format_append (u := "%m at ".toList) (v := "%d{%H}".toList) epoch [] .info short (by decide)
    (by decide)).mpr (.inl (by decide))

/-- The error comes in front of the text. -/
theorem not_format_append : ¬ ∀ u v : Text, (LogFormatter.init u).isError = false → v.head? = some '%' →
    ∀ stack level event, (LogFormatter.init (u ++ v)).format epoch stack level event =
      (LogFormatter.init u).format epoch stack level event ++ (LogFormatter.init v).format epoch stack level event := by
  intro append
  have texts := append "abc".toList "%d\x7bx".toList (by decide) rfl [] .info short
  have moved : (LogFormatter.init ("abc".toList ++ "%d\x7bx".toList)).format epoch [] .info short =
      "<<pattern_error>>abcd\x7bx".toList := by decide
  rw [moved] at texts
  exact absurd texts (by decide)

end Atpdxy.Log
