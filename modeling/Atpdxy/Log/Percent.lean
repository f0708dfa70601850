import Mathlib.Data.List.TakeWhile
import Atpdxy.Log.Scan

/-!
# Escaped percent signs

`escape` doubles every `%`. The parser appends a `%` when another one follows but
moves on by one character only, so of a run of `2k` signs `2k - 1` become text
and the last begins a directive. A text with a `%` is then not what its escape
renders to: a run of two or more comes out too long, and after a single one the
directive would have to print its own name, for every event.
-/

namespace Atpdxy.Log

variable {rest q name fmt after s : Text} {p : Parsed} {c : Char} {strftime : Strftime}

/-- Every `%` doubled. -/
def escape (s : Text) : Text := s.flatMap fun c => if c = '%' then ['%', '%'] else [c]

@[simp] theorem escape_nil : escape [] = [] := rfl
@[simp] theorem escape_percent : escape ('%' :: s) = '%' :: '%' :: escape s := rfl
theorem escape_cons (plain : c ≠ '%') : escape (c :: s) = c :: escape s := by simp [escape, plain]
theorem escape_append (s q : Text) : escape (s ++ q) = escape s ++ escape q := by simp [escape]

theorem escape_of_plain (plain : '%' ∉ s) : escape s = s := by
  induction s with
  | nil => rfl
  | cons c s ih =>
    simp only [List.mem_cons, not_or] at plain
    rw [escape_cons (Ne.symm plain.1), ih plain.2]

theorem escape_head (plain : s.head? ≠ some '%') : (escape s).head? = s.head? := by
  cases s with
  | nil => rfl
  | cons c s =>
    have other : c ≠ '%' := by simpa using plain
    rw [escape_cons other]
    rfl

/-! ## What the parser makes of an escaped text -/

/-- Of a run of `%`, all but the last become text. -/
theorem scan_run (k : Nat) (rest : Text) (p : Parsed) : scan (List.replicate (k + 1) '%' ++ rest) p =
    scan ('%' :: rest) { p with nstr := p.nstr ++ List.replicate k '%' } := by
  induction k generalizing p with
  | zero => simp
  | succ k ih =>
    rw [List.replicate_succ, List.cons_append, scan, if_neg (by simp), if_pos (by simp [List.replicate_succ]), ih]
    simp [List.replicate_succ]

theorem escape_takeWhile (stop : Char → Bool) (s : Text) :
    (escape s).takeWhile stop = escape (s.takeWhile stop) ∧ (escape s).dropWhile stop = escape (s.dropWhile stop) := by
  induction s with
  | nil => exact ⟨rfl, rfl⟩
  | cons c s ih =>
    by_cases percent : c = '%'
    · subst percent
      by_cases stops : stop '%' = true <;> simp [stops, ih]
    · rw [escape_cons percent]
      by_cases stops : stop c = true
      · simp [stops, ih, escape_cons percent]
      · simp [stops, escape_cons percent]

/-- The directive of an escaped text is the text's, with its format and what
follows escaped. -/
theorem splitDirective_escape (s : Text) : splitDirective (escape s) =
    (splitDirective s).map fun (name, fmt, after) => (name, escape fmt, escape after) := by
  have name : (escape s).takeWhile nameChar = s.takeWhile nameChar := by
    rw [(escape_takeWhile nameChar s).1]
    refine escape_of_plain fun percent => ?_
    have letter := List.mem_takeWhile_imp percent
    simp [nameChar] at letter
  have tail := (escape_takeWhile nameChar s).2
  by_cases brace : (s.dropWhile nameChar).head? = some '{'
  · obtain ⟨more, braced⟩ := List.head?_eq_some_iff.mp brace
    rw [splitDirective_brace more braced, splitDirective_brace (escape more) (by rw [tail, braced]; rfl), name,
      (escape_takeWhile _ more).1, (escape_takeWhile _ more).2]
    cases close : more.dropWhile (· != '}') with
    | nil => rfl
    | cons d after =>
      -- the brace that closes is no `%`
      have found : d = '}' := by
        have stops := List.head_dropWhile_not (· != '}') (l := more) (by simp [close])
        simpa [close] using stops
      rw [found, escape_cons (by decide)]
      rfl
  · rw [splitDirective_plain brace, splitDirective_plain ?_, name, tail]
    · rfl
    · rw [tail]
      by_cases percent : (s.dropWhile nameChar).head? = some '%'
      · obtain ⟨more, same⟩ := List.head?_eq_some_iff.mp percent
        simp [same]
      · rwa [escape_head percent]

/-! ## What a text is rendered to -/

/-- The output of the items, each printed by `print`. -/
def render (print : FormatItem → Text) (vec : List Piece) : Text := vec.flatMap fun piece => print piece.item.1

@[simp] theorem render_append (print : FormatItem → Text) (a b : List Piece) :
    render print (a ++ b) = render print a ++ render print b := by simp [render]

theorem format_eq_render (pattern stack : Text) (level : Level) (event : Event) :
    (LogFormatter.init pattern).format strftime stack level event =
      render (FormatItem.format strftime stack level event) (scan pattern {}).vec := by
  simp [LogFormatter.format, init_eq_scan, render, List.flatMap_map]

theorem render_literal {print : FormatItem → Text} (string : ∀ str, print (.string str) = str) (str : Text) :
    render print (literal str) = str := by
  cases str with
  | nil => rfl
  | cons c str => exact (List.append_nil _).trans (string (c :: str))

theorem render_flush {print : FormatItem → Text} (string : ∀ str, print (.string str) = str) (p : Parsed) :
    render print p.flush.vec = render print p.vec ++ p.nstr := by
  rw [Parsed.flush_eq, render_append, render_literal string]

/-- The output of a pattern with one directive taken apart. -/
theorem render_directive {print : FormatItem → Text} (string : ∀ str, print (.string str) = str)
    (single : rest.head? ≠ some '%') (split : splitDirective rest = some (name, fmt, after)) :
    render print (scan ('%' :: rest) p).vec = render print p.vec ++ p.nstr ++
      (print (Piece.mk name fmt true).item.1 ++ render print (scan after {}).vec) := by
  rw [scan_directive single split, scan_eq, render_append, render_append, render_flush string,
    List.append_assoc _ (render print [_])]
  simp [render, Parsed.flush_eq]

/-! ## Items that print something else for another event -/

/-- The item reads the event or the level, beyond the time. -/
def FormatItem.varies : FormatItem → Bool
  | .newLine | .dateTime _ | .tab | .string _ => false
  | _ => true

/-- Two events that differ in the length of every field. -/
def short : Event := ⟨[], 0, 0, 0, 0, 0, [], [], []⟩
def long : Event := ⟨['a'], 10, 10, 10, 10, 0, ['a'], ['a'], ['a']⟩

theorem format_short_le (strftime : Strftime) (item : FormatItem) : (item.format strftime [] .info short).length ≤
    (item.format strftime [] .error long).length := by
  cases item with
  | dateTime | newLine | tab | string => exact Nat.le_refl _
  | _ => exact Nat.le_of_ble_eq_true rfl

theorem format_short_lt (strftime : Strftime) {item : FormatItem} (varies : item.varies = true) :
    (item.format strftime [] .info short).length < (item.format strftime [] .error long).length := by
  cases item with
  | dateTime | newLine | tab | string => cases varies
  | _ => exact Nat.le_of_ble_eq_true rfl

theorem render_short_le (strftime : Strftime) (vec : List Piece) : (render (FormatItem.format strftime [] .info short) vec).length ≤
    (render (FormatItem.format strftime [] .error long) vec).length := by
  induction vec with
  | nil => exact Nat.le_refl _
  | cons piece vec ih =>
    have here := format_short_le strftime piece.item.1
    simp only [render, List.flatMap_cons, List.length_append] at ih ⊢
    omega

/-- A pattern with an item that varies has two outputs. -/
theorem render_short_lt (strftime : Strftime) {vec : List Piece} {piece : Piece} (member : piece ∈ vec)
    (varies : piece.item.1.varies = true) : (render (FormatItem.format strftime [] .info short) vec).length <
    (render (FormatItem.format strftime [] .error long) vec).length := by
  obtain ⟨front, back, rfl⟩ := List.append_of_mem member
  have before := render_short_le strftime front
  have here := format_short_lt strftime varies
  have behind := render_short_le strftime back
  simp only [render, List.flatMap_append, List.flatMap_cons, List.length_append] at before behind ⊢
  omega

/-- What the table holds: items that vary, and three that do not. -/
theorem formatItems_cases {make : Text → FormatItem} (known : formatItems name = some make) :
    (∀ fmt, (make fmt).varies = true) ∨ (name = ['n'] ∧ make = fun _ => .newLine) ∨
      (name = ['T'] ∧ make = fun _ => .tab) ∨ (name = ['d'] ∧ make = .dateTime) := by
  unfold formatItems at known
  split at known <;> cases known <;> simp [FormatItem.varies]

/-! ## Braces -/

/-- What the documentation of `strftime` says: ordinary characters are copied and
`%%` is a percent sign; the default format gives digits, `-`, `:` and blanks,
and fits into the buffer. -/
structure Documented (strftime : Strftime) : Prop where
  plain : ∀ format time, '\x00' ∉ format → strftime (escape format) time = format
  clock : ∀ time, strftime defaultTimeFormat time ≠ [] ∧ (strftime defaultTimeFormat time).length < 64 ∧
    ∀ c ∈ strftime defaultTimeFormat time, c.isDigit = true ∨ c ∈ ['-', ':', ' ']

theorem count_split (stop : Char → Bool) (c : Char) (s : Text) :
    s.count c = (s.takeWhile stop).count c + (s.dropWhile stop).count c := by
  rw [← List.count_append, List.takeWhile_append_dropWhile]

/-- A directive with a format uses up a brace. -/
theorem splitDirective_braces (split : splitDirective rest = some (name, fmt, after)) :
    fmt.count '{' + after.count '{' ≤ rest.count '{' ∧
      (fmt ≠ [] → fmt.count '{' + after.count '{' < rest.count '{') := by
  have whole := count_split nameChar '{' rest
  by_cases brace : (rest.dropWhile nameChar).head? = some '{'
  · obtain ⟨more, braced⟩ := List.head?_eq_some_iff.mp brace
    rw [splitDirective_brace more braced] at split
    have inner := count_split (· != '}') '{' more
    rw [braced, List.count_cons_self] at whole
    cases close : more.dropWhile (· != '}') with
    | nil =>
      rw [close] at split
      cases split
    | cons d tail =>
      rw [close] at split
      cases split
      rw [close, List.count_cons] at inner
      constructor
      · omega
      · intro _
        omega
  · rw [splitDirective_plain brace] at split
    cases split
    exact ⟨by simp only [List.count_nil]; omega, fun some => (some rfl).elim⟩

theorem cStr_escape (s : Text) : cStr (escape s) = escape (cStr s) := (escape_takeWhile _ s).1

theorem printTime_default (documented : Documented strftime) (time : UInt64) :
    printTime strftime [] [] time = strftime defaultTimeFormat time.toInt64 := by
  have whole : cStr defaultTimeFormat = defaultTimeFormat := by decide
  simp only [printTime, List.isEmpty_nil, if_true, whole]
  rw [if_pos (documented.clock _).2.1]

/-- A date with an escaped format prints no more braces than the format has. -/
theorem printTime_braces (documented : Documented strftime) (format : Text) (time : UInt64) :
    (printTime strftime [] (escape format) time).count '{' ≤ format.count '{' := by
  by_cases empty : format = []
  · subst empty
    rw [escape_nil, printTime_default documented, List.count_eq_zero_of_not_mem (fun member => ?_)]
    · exact Nat.zero_le _
    · rcases (documented.clock _).2.2 _ member with digit | other
      · exact absurd digit (by decide)
      · exact absurd other (by decide)
  · have more : (escape format).isEmpty = false := by
      cases format with
      | nil => exact (empty rfl).elim
      | cons c s =>
        by_cases percent : c = '%'
        · rw [percent]; rfl
        · rw [escape_cons percent]; rfl
    simp only [printTime, more, Bool.false_eq_true, if_false, cStr_escape]
    split
    · rw [documented.plain _ _ fun null => by simpa using List.mem_takeWhile_imp null]
      exact (List.takeWhile_sublist _).count_le _
    · simp

/-- The output of a known directive on the short event. -/
theorem directive_braces (documented : Documented strftime) (known : (Piece.mk name (escape fmt) true).item.2 = true) :
    ((Piece.mk name (escape fmt) true).item.1.format strftime [] .info short).count '{' ≤ fmt.count '{' := by
  cases make : formatItems name with
  | none => simp [Piece.item, make] at known
  | some make' =>
    have item : (Piece.mk name (escape fmt) true).item.1 = make' (escape fmt) := by simp [Piece.item, make]
    rw [item]
    cases shape : make' (escape fmt) with
    | dateTime format =>
      rcases formatItems_cases make with varies | ⟨_, rfl⟩ | ⟨_, rfl⟩ | ⟨_, rfl⟩
      · simpa [shape, FormatItem.varies] using varies (escape fmt)
      · cases shape
      · cases shape
      · cases shape
        exact printTime_braces documented fmt _
    | string str =>
      rcases formatItems_cases make with varies | ⟨_, rfl⟩ | ⟨_, rfl⟩ | ⟨_, rfl⟩
      · simpa [shape, FormatItem.varies] using varies (escape fmt)
      all_goals cases shape
    | _ => exact Nat.zero_le _

/-- The parser adds no braces, on an escaped text and from inside a pair of `%`. -/
theorem scan_braces (documented : Documented strftime) (shape : q = escape s ∨ q = '%' :: escape s)
    (clean : (scan q p).Clean) : (render (FormatItem.format strftime [] .info short) (scan q p).vec).count '{' ≤
      (render (FormatItem.format strftime [] .info short) p.vec).count '{' + p.nstr.count '{' + s.count '{' := by
  have string : ∀ str, FormatItem.format strftime [] .info short (.string str) = str := fun _ => rfl
  induction length : q.length using Nat.strongRecOn generalizing q s p with
  | ind k ih =>
    subst length
    rcases shape with rfl | rfl
    · cases s with
      | nil =>
        rw [escape_nil, scan, render_flush string, List.count_append]
        exact Nat.le_refl _
      | cons c s =>
        by_cases percent : c = '%'
        · subst percent
          rw [show escape ('%' :: s) = List.replicate 2 '%' ++ escape s from rfl, scan_run] at clean ⊢
          have step := ih _ (by simp) (.inr rfl) clean rfl
          simpa using step
        · rw [escape_cons percent, scan, if_pos percent] at clean ⊢
          have step := ih _ (by simp [escape_cons percent]) (.inl rfl) clean rfl
          simp only [List.count_append, List.count_cons, List.count_nil] at step ⊢
          omega
    · by_cases percent : s.head? = some '%'
      · obtain ⟨s, rfl⟩ := List.head?_eq_some_iff.mp percent
        have run := scan_run 2 (escape s) p
        rw [show '%' :: escape ('%' :: s) = List.replicate 3 '%' ++ escape s from rfl] at clean ⊢
        rw [run] at clean ⊢
        have step := ih _ (by simp) (.inr rfl) clean rfl
        simpa [List.count_append, List.count_replicate] using step
      · have single : (escape s).head? ≠ some '%' := by rwa [escape_head percent]
        have split := splitDirective_escape s
        cases found : splitDirective s with
        | none =>
          rw [found] at split
          have failed := scan_unclosed (p := p) single split
          rw [clean.1] at failed
          cases failed
        | some parts =>
          obtain ⟨name, fmt, after⟩ := parts
          rw [found] at split
          obtain ⟨known, cleanAfter⟩ := clean.of_directive single split
          have less := splitDirective_length split
          have step := ih _ (by simp only [List.length_cons]; omega) (.inl rfl) cleanAfter rfl
          have here := directive_braces documented known
          have braces := (splitDirective_braces found).1
          rw [render_directive string single split]
          simp only [List.count_append, render, List.flatMap_nil, List.count_nil] at step ⊢
          omega

/-! ## The result -/

/-- The pattern escaped from `s` is parsed without an error and renders to `s`,
for every level and event and whatever the buffer of a date held. -/
def Renders (strftime : Strftime) (s : Text) : Prop :=
  (LogFormatter.init (escape s)).isError = false ∧
    ∀ stack level event, (LogFormatter.init (escape s)).format strftime stack level event = s

theorem renders_of_plain (plain : '%' ∉ s) : Renders strftime s := by
  have parsed : scan (escape s) {} = { vec := literal s } := by
    have walked := scan_plain plain [] {}
    rw [List.append_nil, List.nil_append, scan, Parsed.flush_eq] at walked
    rw [escape_of_plain plain, walked]
    rfl
  refine ⟨?_, fun stack level event => ?_⟩
  · rw [isError_iff, parsed]
    refine ⟨rfl, fun piece member => ?_⟩
    cases s with
    | nil => cases member
    | cons c s =>
      obtain rfl := List.mem_singleton.mp member
      rfl
  · rw [format_eq_render, parsed]
    exact render_literal (fun _ => rfl) s

theorem escape_replicate (k : Nat) : escape (List.replicate k '%') = List.replicate (2 * k) '%' := by
  induction k with
  | zero => rfl
  | succ k ih => rw [List.replicate_succ, escape_percent, ih]; rfl

/-- The first run of `%` in a text. -/
theorem exists_run (mem : '%' ∈ s) : ∃ front k rest, s = front ++ (List.replicate (k + 1) '%' ++ rest) ∧
    '%' ∉ front ∧ rest.head? ≠ some '%' := by
  induction s with
  | nil => cases mem
  | cons c s ih =>
    by_cases percent : c = '%'
    · subst percent
      by_cases more : s.head? = some '%'
      · obtain ⟨tail, same⟩ := List.head?_eq_some_iff.mp more
        obtain ⟨front, k, rest, run, plain, single⟩ := ih (by simp [same])
        -- the run goes on
        cases front with
        | nil => exact ⟨[], k + 1, rest, by rw [run]; rfl, plain, single⟩
        | cons d front =>
          rw [same] at run
          obtain ⟨rfl, _⟩ := List.cons.inj run
          simp at plain
      · exact ⟨[], 0, s, rfl, by simp, more⟩
    · obtain ⟨front, k, rest, run, plain, single⟩ := ih (by simpa [Ne.symm percent] using mem)
      exact ⟨c :: front, k, rest, by rw [run]; rfl, by simp [Ne.symm percent, plain], single⟩

theorem splitDirective_name (split : splitDirective s = some (name, fmt, after)) : name = s.takeWhile nameChar := by
  by_cases brace : (s.dropWhile nameChar).head? = some '{'
  · obtain ⟨more, braced⟩ := List.head?_eq_some_iff.mp brace
    rw [splitDirective_brace more braced] at split
    split at split <;> cases split
    rfl
  · rw [splitDirective_plain brace] at split
    cases split
    rfl

/-- A directive whose output is constant does not print the text it stands for. -/
theorem directive_ne (documented : Documented strftime) (split : splitDirective s = some (name, fmt, after))
    (known : (Piece.mk name (escape fmt) true).item.2 = true) (clean : (scan (escape after) {}).Clean)
    (constant : (Piece.mk name (escape fmt) true).item.1.varies = false) :
    (Piece.mk name (escape fmt) true).item.1.format strftime [] .info short ++
      render (FormatItem.format strftime [] .info short) (scan (escape after) {}).vec ≠ s := by
  intro same
  by_cases plain : fmt = []
  · -- without a format the output begins with another letter
    subst plain
    have first : s.head? = (name ++ s.dropWhile nameChar).head? := by
      rw [splitDirective_name split, List.takeWhile_append_dropWhile]
    cases make : formatItems name with
    | none => simp [Piece.item, make] at known
    | some make' =>
      have item : (Piece.mk name (escape []) true).item.1 = make' [] := by simp [Piece.item, make]
      rw [item] at same constant
      rw [← same] at first
      rcases formatItems_cases make with varies | ⟨rfl, rfl⟩ | ⟨rfl, rfl⟩ | ⟨rfl, rfl⟩
      · simp [varies] at constant
      · simp [FormatItem.format] at first
      · simp [FormatItem.format] at first
      · obtain ⟨some, _, clock⟩ := documented.clock short.time.toInt64
        cases date : strftime defaultTimeFormat short.time.toInt64 with
        | nil => exact some date
        | cons c tail =>
          have letter : c = 'd' := by
            simpa [FormatItem.format, printTime_default documented, date] using first
          rcases clock c (by simp [date]) with digit | other
          · rw [letter] at digit
            exact absurd digit (by decide)
          · rw [letter] at other
            exact absurd other (by decide)
  · -- with a format it has a brace less
    have here := directive_braces documented known
    have behind := scan_braces documented (.inl rfl) clean
    have less := (splitDirective_braces split).2 plain
    have count := congrArg (List.count '{') same
    simp only [List.count_append, render, List.flatMap_nil, List.count_nil] at count behind
    omega

theorem mem_scan_directive (single : rest.head? ≠ some '%') (split : splitDirective rest = some (name, fmt, after)) :
    ⟨name, fmt, true⟩ ∈ (scan ('%' :: rest) p).vec := by
  rw [scan_directive single split, scan_eq]
  simp

theorem not_renders (documented : Documented strftime) (mem : '%' ∈ s) : ¬ Renders strftime s := by
  rintro ⟨noError, renders⟩
  obtain ⟨front, k, rest, rfl, plain, head⟩ := exists_run mem
  have single : (escape rest).head? ≠ some '%' := by rwa [escape_head head]
  have parsed : scan (escape (front ++ (List.replicate (k + 1) '%' ++ rest))) {} =
      scan ('%' :: escape rest) { nstr := front ++ List.replicate (2 * k + 1) '%' } := by
    rw [escape_append, escape_append, escape_of_plain plain, escape_replicate, scan_plain plain,
      show 2 * (k + 1) = 2 * k + 1 + 1 by omega, scan_run]
    rfl
  have clean := (isError_iff _).mp noError
  rw [parsed] at clean
  have split := splitDirective_escape rest
  cases found : splitDirective rest with
  | none =>
    rw [found] at split
    have failed := scan_unclosed (p := { nstr := front ++ List.replicate (2 * k + 1) '%' }) single split
    rw [clean.1] at failed
    cases failed
  | some parts =>
    obtain ⟨name, fmt, after⟩ := parts
    rw [found] at split
    obtain ⟨known, cleanAfter⟩ := clean.of_directive single split
    have output : ∀ level event, render (FormatItem.format strftime [] level event) (scan ('%' :: escape rest)
        { nstr := front ++ List.replicate (2 * k + 1) '%' }).vec = front ++ (List.replicate (k + 1) '%' ++ rest) := by
      intro level event
      rw [← parsed, ← format_eq_render]
      exact renders [] level event
    have constant : (Piece.mk name (escape fmt) true).item.1.varies = false := by
      cases varies : (Piece.mk name (escape fmt) true).item.1.varies with
      | false => rfl
      | true =>
        have longer := render_short_lt strftime (mem_scan_directive
          (p := { nstr := front ++ List.replicate (2 * k + 1) '%' }) single split) varies
        rw [output, output] at longer
        exact (Nat.lt_irrefl _ longer).elim
    have same := output .info short
    rw [render_directive (fun _ => rfl) single split, show 2 * k + 1 = k + 1 + k by omega,
      ← List.replicate_append_replicate] at same
    have same : List.replicate k '%' ++ ((Piece.mk name (escape fmt) true).item.1.format strftime [] .info short ++
        render (FormatItem.format strftime [] .info short) (scan (escape after) {}).vec) = rest := by
      simpa only [render, List.flatMap_nil, List.nil_append, List.append_assoc, List.append_cancel_left_eq] using same
    cases k with
    | zero => exact directive_ne documented found known cleanAfter constant same
    | succ k =>
      rw [← same] at head
      simp [List.replicate_succ] at head

/-- **Percent escaping.** Doubling every `%` gives a pattern that renders to the
text exactly when there was nothing to double. -/
theorem percent (documented : Documented strftime) (s : Text) : Renders strftime s ↔ '%' ∉ s :=
  ⟨fun renders mem => not_renders documented mem renders, renders_of_plain⟩

/-- `strftime` in UTC at time 0. -/
def epoch : Strftime := fun format _ => go format
where
  go : Text → Text
    | '%' :: c :: rest =>
      (match c with
        | '%' => ['%']
        | 'Y' => "1970".toList
        | 'm' | 'd' => "01".toList
        | 'H' | 'M' | 'S' => "00".toList
        | _ => []) ++ go rest
    | c :: rest => c :: go rest
    | [] => []

theorem go_plain (plain : c ≠ '%') (s : Text) : epoch.go (c :: s) = c :: epoch.go s := by
  conv_lhs => unfold epoch.go
  split <;> simp_all

theorem epoch_documented : Documented epoch where
  plain format time _ := by
    show epoch.go (escape format) = format
    induction format with
    | nil => rfl
    | cons c s ih =>
      by_cases percent : c = '%'
      · subst percent
        simpa [epoch.go] using ih (by simp_all)
      · rw [escape_cons percent, go_plain percent, ih (by simp_all)]
  clock time := by
    have text : epoch defaultTimeFormat time = "1970-01-01 00:00:00".toList := show epoch.go _ = _ by decide
    have all : "1970-01-01 00:00:00".toList.all (fun c => c.isDigit || ['-', ':', ' '].contains c) = true := by decide
    rw [text]
    refine ⟨by decide, by decide, fun c member => ?_⟩
    simpa [List.contains_iff_mem] using List.all_eq_true.mp all c member

theorem percent_braces : Renders epoch "d {m}".toList ↔ '%' ∉ "d {m}".toList := percent epoch_documented _

/-- Two texts with a `%`: one escape is a pattern with an error, the other
renders to a line break for its letter. -/
theorem not_percent : (LogFormatter.init (escape "50%".toList)).isError = true ∧
    (LogFormatter.init (escape "%n".toList)).isError = false ∧
    ∃ level event, (LogFormatter.init (escape "%n".toList)).format epoch [] level event = "%\n".toList :=
  ⟨by decide, by decide, .info, short, by decide⟩

end Atpdxy.Log
