import Atpdxy.Log.Grammar
import Atpdxy.Log.Percent

/-!
# Patterns of one directive

What may follow a directive without braces, and what a date directive prints.
The inner loop stops at neither brace, so a `}` behind a directive becomes part of
its name. A date is written into 64 bytes, and the result of `strftime` is not
looked at.
-/

namespace Atpdxy.Log

variable {t format : Text} {X : Char} {strftime : Strftime}

/-! ## What follows a bare directive -/

theorem Concat.of_plain (plain : '%' ∉ t) : Concat (if t.isEmpty then [] else [.literal t]) t := by
  cases t with
  | nil => exact .nil
  | cons c t =>
    have run := Concat.literal (List.cons_ne_nil c t) plain .nil
    rwa [List.append_nil] at run

theorem maximal_bare (X : Char) (t : Text) :
    Maximal (.bare X :: if t.isEmpty then [] else [.literal t]) := by
  refine Maximal.cons ?_ rfl
  split
  · exact .nil
  · exact .singleton _

/-- A directive's name has one character, so no brace fits behind it. -/
theorem isError_close (member : X ∈ known) (t : Text) : (LogFormatter.init ('%' :: X :: '}' :: t)).isError = true := by
  rw [← Bool.not_eq_false, isError_iff]
  intro clean
  have single : (X :: '}' :: t).head? ≠ some '%' := known_ne_percent member
  have letters : ∀ c ∈ [X, '}'], nameChar c = true := by
    simp [nameChar, known_isAlpha member]
  have split := splitDirective_letters letters t
  cases found : splitDirective t with
  | none =>
    rw [found] at split
    have failed := scan_unclosed (p := {}) single split
    rw [clean.1] at failed
    cases failed
  | some parts =>
    obtain ⟨name, fmt, after⟩ := parts
    rw [found] at split
    have named := (clean.of_directive single split).1
    have unknown : formatItems (X :: '}' :: name) = none := by
      rw [← Option.not_isSome_iff_eq_none, formatItems_isSome]
      rintro ⟨c, -, long⟩
      cases long
    simp [Piece.item, unknown] at named

/-- **Punctuation ends a bare directive.** What follows is the literal text,
unless it begins with `}`. -/
theorem punctuation (member : X ∈ known) (plain : '%' ∉ t) (begins : ∀ c ∈ t.head?, ¬ c.isAlpha ∧ c ≠ '{') :
    ((LogFormatter.init ('%' :: X :: t)).isError = false ∧
      (LogFormatter.init ('%' :: X :: t)).items.map some =
        (formatItems [X]).map (fun make => make []) :: if t.isEmpty then [] else [some (.string t)]) ↔
      t.head? ≠ some '}' := by
  constructor
  · rintro ⟨valid, -⟩ close
    obtain ⟨t, rfl⟩ := List.head?_eq_some_iff.mp close
    rw [isError_close member] at valid
    cases valid
  · intro noClose
    have stops : Stops t := fun c first =>
      ⟨(begins c first).1, (begins c first).2, fun close => noClose (close ▸ first)⟩
    have concat := Concat.bare member stops (.of_plain plain)
    refine ⟨concat.isError, ?_⟩
    rw [concat.items (maximal_bare X t), List.map_cons]
    cases t <;> rfl

theorem punctuation_bracket :
    (LogFormatter.init "%d]".toList).isError = false ∧
      (LogFormatter.init "%d]".toList).items.map some = [some (.dateTime []), some (.string [']'])] :=
  have first : ∀ c ∈ [']'].head?, ¬ c.isAlpha ∧ c ≠ '{' := by
    rintro c ⟨⟩
    exact ⟨by decide, by decide⟩
  (punctuation (X := 'd') (t := [']']) (by decide) (by decide) first).mpr (by decide)

/-- A closing brace is punctuation too. -/
theorem not_punctuation : ¬ ∀ (X : Char) (t : Text), X ∈ known → '%' ∉ t → (∀ c ∈ t.head?, ¬ c.isAlpha ∧ c ≠ '{') →
    (LogFormatter.init ('%' :: X :: t)).isError = false ∧
      (LogFormatter.init ('%' :: X :: t)).items.map some =
        (formatItems [X]).map (fun make => make []) :: if t.isEmpty then [] else [some (.string t)] := by
  intro ends
  have first : ∀ c ∈ ['}'].head?, ¬ c.isAlpha ∧ c ≠ '{' := by
    rintro c ⟨⟩
    exact ⟨by decide, by decide⟩
  have noError := (ends 'd' ['}'] (by decide) (by decide) first).1
  rw [isError_close (by decide)] at noError
  cases noError

/-! ## Dates -/

/-- What `strftime` makes of the format, in a buffer of any size. -/
def expansion (strftime : Strftime) (format : Text) (time : UInt64) : Text :=
  strftime (cStr (if format.isEmpty then defaultTimeFormat else format)) time.toInt64

theorem printTime_fits {time : UInt64} (fits : (expansion strftime format time).length < 64) (stack : Text) :
    printTime strftime stack format time = expansion strftime format time := if_pos fits

theorem printTime_long {time : UInt64} (long : ¬ (expansion strftime format time).length < 64) (stack : Text) :
    printTime strftime stack format time = stack := if_neg long

/-- A date directive alone prints its date. -/
theorem format_date (noBrace : '}' ∉ format) (stack : Text) (level : Level) (event : Event) :
    (LogFormatter.init ("%d\x7b".toList ++ format ++ ['}'])).format strftime stack level event =
      printTime strftime stack format event.time := by
  have concat : Concat [.braced 'd' format] ('%' :: 'd' :: '{' :: (format ++ ['}'])) := .braced (by decide) noBrace .nil
  have items := concat.items (.singleton _)
  have pattern : "%d\x7b".toList ++ format ++ ['}'] = '%' :: 'd' :: '{' :: (format ++ ['}']) := by simp
  have one : (LogFormatter.init ('%' :: 'd' :: '{' :: (format ++ ['}']))).items = [.dateTime format] := by
    rw [← List.map_inj_right (fun a b same => Option.some.inj same), items]
    rfl
  rw [pattern, LogFormatter.format, one]
  simp [FormatItem.format]

/-- **Date directives.** The whole expansion is printed, whatever the buffer held
before, exactly when it is shorter than the buffer. -/
theorem date (strftime : Strftime) (format : Text) (noBrace : '}' ∉ format) (time : UInt64) :
    (∀ stack level event, event.time = time →
      (LogFormatter.init ("%d\x7b".toList ++ format ++ ['}'])).format strftime stack level event =
        expansion strftime format time) ↔
      (expansion strftime format time).length < 64 := by
  constructor
  · intro complete
    by_contra long
    -- an empty buffer stays empty
    have empty := complete [] .info { short with time } rfl
    rw [format_date noBrace, printTime_long long] at empty
    exact long (by simp [← empty])
  · rintro fits stack level event rfl
    rw [format_date noBrace, printTime_fits fits]

theorem date_clock : (LogFormatter.init "%d\x7b%H:%M\x7d".toList).format epoch ['?'] .info short = "00:00".toList :=
  (date epoch "%H:%M".toList (by decide) 0).mpr (by decide) ['?'] .info short rfl

/-- The month, thirteen times. -/
def longFormat : Text := (List.replicate 13 "%Y-%m".toList).flatten

theorem not_date : ¬ ∀ (format : Text), '}' ∉ format → ∀ (event : Event) (stack : Text) (level : Level),
    (LogFormatter.init ("%d\x7b".toList ++ format ++ ['}'])).format epoch stack level event =
      expansion epoch format event.time := by
  intro complete
  have printed := complete longFormat (by decide) short [] .info
  rw [format_date (by decide), printTime_long (by decide)] at printed
  exact absurd (congrArg List.length printed) (by decide)

end Atpdxy.Log
