import Mathlib.Data.List.Chain
import Mathlib.Data.List.TakeWhile
import Atpdxy.Log.Loops

/-!
# The grammar of patterns

A pattern is read as segments: literal runs, and directives with or without a
format in braces (`Concat`). The parser accepts a pattern without `%%` exactly
when it can be read so, and its items are those of the segments whose literal
runs are maximal.
-/

namespace Atpdxy.Log

/-- What a pattern is made of. -/
inductive Segment
  | literal (run : Text)
  | bare (name : Char)
  | braced (name : Char) (fmt : Text)
  deriving DecidableEq, Repr

/-- The names of `s_format_items`. -/
def known : List Char := ['m', 'p', 'r', 'c', 't', 'n', 'd', 'f', 'l', 'T', 'F', 'N']

/-- What may follow a bare directive: the end, or neither a letter nor a brace. -/
def Stops (rest : Text) : Prop := ∀ c ∈ rest.head?, ¬ c.isAlpha ∧ c ≠ '{' ∧ c ≠ '}'

/-- The pattern is the concatenation of the segments. -/
inductive Concat : List Segment → Text → Prop
  | nil : Concat [] []
  | literal {run rest : Text} {segs : List Segment} :
      run ≠ [] → '%' ∉ run → Concat segs rest → Concat (.literal run :: segs) (run ++ rest)
  | bare {name : Char} {rest : Text} {segs : List Segment} :
      name ∈ known → Stops rest → Concat segs rest → Concat (.bare name :: segs) ('%' :: name :: rest)
  | braced {name : Char} {fmt rest : Text} {segs : List Segment} :
      name ∈ known → '}' ∉ fmt → Concat segs rest →
        Concat (.braced name fmt :: segs) ('%' :: name :: '{' :: (fmt ++ '}' :: rest))

/-- The text of a segment. -/
def Segment.text : Segment → Text
  | .literal run => run
  | .bare name => ['%', name]
  | .braced name fmt => '%' :: name :: '{' :: (fmt ++ ['}'])

/-- The item of a segment; none for an unknown name. -/
def Segment.item : Segment → Option FormatItem
  | .literal run => some (.string run)
  | .bare name => (formatItems [name]).map fun make => make []
  | .braced name fmt => (formatItems [name]).map fun make => make fmt

def Segment.isLiteral : Segment → Bool
  | .literal _ => true
  | _ => false

/-- No literal run is next to another. -/
def Maximal (segs : List Segment) : Prop := segs.IsChain fun a b => ¬ (a.isLiteral ∧ b.isLiteral)

/-- No two consecutive `%`. -/
def NoDouble (pattern : Text) : Prop := ¬ ['%', '%'] <:+: pattern

variable {pattern rest run fmt after : Text} {name c : Char} {segs : List Segment} {s : Parsed}

theorem formatItems_isSome (name : Text) : (formatItems name).isSome = true ↔ ∃ c ∈ known, name = [c] := by
  constructor
  · intro found
    unfold formatItems at found
    split at found
    all_goals first | exact ⟨_, by decide, rfl⟩ | cases found
  · rintro ⟨c, member, rfl⟩
    simp only [known, List.mem_cons, List.not_mem_nil, or_false] at member
    rcases member with rfl | rfl | rfl | rfl | rfl | rfl | rfl | rfl | rfl | rfl | rfl | rfl <;> rfl

theorem known_isAlpha (member : name ∈ known) : name.isAlpha = true := by
  have all : known.all Char.isAlpha = true := by decide
  exact List.all_eq_true.mp all name member

theorem Concat.text (concat : Concat segs pattern) : segs.flatMap Segment.text = pattern := by
  induction concat with
  | nil => rfl
  | literal _ _ _ ih => simp [Segment.text, ih]
  | bare _ _ _ ih => simp [Segment.text, ih]
  | braced _ _ _ ih => simp [Segment.text, ih]

/-! ## Maximal runs -/

/-- Literal text before segments whose runs are maximal. -/
def join (run : Text) : List Segment → List Segment
  | .literal run' :: segs => .literal (run ++ run') :: segs
  | segs => if run.isEmpty then segs else .literal run :: segs

/-- Literal runs that are next to each other become one. -/
def merge : List Segment → List Segment
  | [] => []
  | .literal run :: segs => join run (merge segs)
  | seg :: segs => seg :: merge segs

@[simp] theorem join_nil (segs : List Segment) : join [] segs = segs := by
  unfold join
  split <;> rfl

theorem join_join (run run' : Text) (segs : List Segment) : join run (join run' segs) = join (run ++ run') segs := by
  cases segs with
  | nil => by_cases empty : run' = [] <;> simp [join, empty]
  | cons seg segs =>
    cases seg with
    | literal _ => simp [join]
    | bare _ => by_cases empty : run' = [] <;> simp [join, empty]
    | braced _ _ => by_cases empty : run' = [] <;> simp [join, empty]

theorem Concat.join (plain : '%' ∉ run) (concat : Concat segs rest) : Concat (join run segs) (run ++ rest) := by
  unfold Log.join
  split
  · cases concat with
    | literal filled plain' concat =>
      rw [← List.append_assoc]
      exact .literal (by simp [filled]) (by simp [plain, plain']) concat
  · split
    · next empty => simpa [List.isEmpty_iff.mp empty] using concat
    · next filled => exact .literal (by simpa using filled) plain concat

theorem Concat.merge (concat : Concat segs pattern) : Concat (merge segs) pattern := by
  induction concat with
  | nil => exact .nil
  | literal _ plain _ ih => exact ih.join plain
  | bare member stops _ ih => exact .bare member stops ih
  | braced member closed _ ih => exact .braced member closed ih

theorem Maximal.join (maximal : Maximal segs) (run : Text) : Maximal (join run segs) := by
  cases segs with
  | nil => by_cases empty : run = [] <;> simp [Log.join, Maximal, empty]
  | cons seg segs =>
    cases seg with
    | literal _ =>
      cases segs with
      | nil => simp [Log.join, Maximal]
      | cons next segs => simpa [Log.join, Maximal, Segment.isLiteral] using maximal
    | bare _ => by_cases empty : run = [] <;> simpa [Log.join, Maximal, Segment.isLiteral, empty] using maximal
    | braced _ _ => by_cases empty : run = [] <;> simpa [Log.join, Maximal, Segment.isLiteral, empty] using maximal

theorem Maximal.cons {seg : Segment} (maximal : Maximal segs) (directive : seg.isLiteral = false) :
    Maximal (seg :: segs) := by
  cases segs with
  | nil => exact .singleton seg
  | cons next segs => exact List.isChain_cons_cons.mpr ⟨by simp [directive], maximal⟩

theorem merge_bare (name : Char) (segs : List Segment) : merge (.bare name :: segs) = .bare name :: merge segs := rfl

theorem merge_braced (name : Char) (fmt : Text) (segs : List Segment) :
    merge (.braced name fmt :: segs) = .braced name fmt :: merge segs := rfl

theorem maximal_merge (segs : List Segment) : Maximal (merge segs) := by
  induction segs with
  | nil => exact .nil
  | cons seg segs ih =>
    cases seg with
    | literal run => exact ih.join run
    | bare name => exact ih.cons rfl
    | braced name fmt => exact ih.cons rfl

/-- Where the runs are maximal nothing is merged. -/
theorem Concat.merge_eq (concat : Concat segs pattern) (maximal : Maximal segs) : Log.merge segs = segs := by
  induction concat with
  | nil => rfl
  | bare _ _ _ ih => rw [merge_bare, ih (List.isChain_cons.mp maximal).2]
  | braced _ _ _ ih => rw [merge_braced, ih (List.isChain_cons.mp maximal).2]
  | @literal run rest segs filled _ _ ih =>
    obtain ⟨apart, maximal⟩ := List.isChain_cons.mp maximal
    rw [Log.merge, ih maximal]
    cases segs with
    | nil => simp [Log.join, filled]
    | cons next segs =>
      cases next with
      | literal _ => exact absurd ⟨rfl, rfl⟩ (apart _ rfl)
      | bare _ => simp [Log.join, filled]
      | braced _ _ => simp [Log.join, filled]

/-! ## What is in the grammar is accepted -/

/-- The piece of a segment. -/
def Segment.piece : Segment → Piece
  | .literal run => ⟨run, [], false⟩
  | .bare name => ⟨[name], [], true⟩
  | .braced name fmt => ⟨[name], fmt, true⟩

/-- What the scan adds when it reads these segments. -/
def Parsed.read (s : Parsed) (segs : List Segment) : Parsed :=
  { s with vec := s.vec ++ (join s.nstr segs).map Segment.piece, nstr := [] }

theorem splitDirective_bare (member : name ∈ known) (stops : Stops rest) :
    splitDirective (name :: rest) = some ([name], [], rest) := by
  have letter : nameChar name = true := by simp [nameChar, known_isAlpha member]
  have none : splitDirective rest = some ([], [], rest) := by
    cases rest with
    | nil => rfl
    | cons c rest =>
      obtain ⟨noAlpha, noOpen, noClose⟩ := stops c rfl
      exact splitDirective_other (by simp [nameChar, noAlpha, noClose]) noOpen
  have step := splitDirective_letters (q := [name]) (by simpa using letter) rest
  rw [none] at step
  exact step

theorem splitDirective_braced (member : name ∈ known) (closed : '}' ∉ fmt) :
    splitDirective (name :: '{' :: (fmt ++ '}' :: rest)) = some ([name], fmt, rest) := by
  have letter : nameChar name = true := by simp [nameChar, known_isAlpha member]
  have inside : ∀ c ∈ fmt, (c != '}') = true := by
    intro c there
    have other : c ≠ '}' := by
      rintro rfl
      exact closed there
    simpa using other
  have tail : (name :: '{' :: (fmt ++ '}' :: rest)).dropWhile nameChar = '{' :: (fmt ++ '}' :: rest) := by
    rw [List.dropWhile_cons_of_pos letter, List.dropWhile_cons_of_neg (by decide)]
  rw [splitDirective_brace _ tail, List.dropWhile_append_of_pos inside, List.takeWhile_append_of_pos inside]
  simp [letter, show nameChar '{' = false by decide]

theorem known_ne_percent (member : name ∈ known) : (name :: rest).head? ≠ some '%' := by
  rintro ⟨⟩
  exact absurd member (by decide)

/-- Literal text before a directive. -/
theorem join_directive {seg : Segment} (directive : seg.isLiteral = false) (run : Text) (segs : List Segment) :
    (join run (seg :: segs)).map Segment.piece = literal run ++ seg.piece :: segs.map Segment.piece := by
  have first : join run (seg :: segs) = if run.isEmpty then seg :: segs else .literal run :: seg :: segs := by
    cases seg with
    | literal _ => cases directive
    | bare _ => rfl
    | braced _ _ => rfl
  rw [first, literal]
  split <;> rfl

theorem Parsed.flush_read (s : Parsed) (seg : Segment) (segs : List Segment) (directive : seg.isLiteral = false) :
    ({ s.flush with vec := s.flush.vec ++ [seg.piece] } : Parsed).read segs = s.read (seg :: segs) := by
  rw [Parsed.read, Parsed.read, join_directive directive, Parsed.flush_eq, join_nil]
  simp

/-- The scan reads what the grammar says. -/
theorem scan_concat (concat : Concat segs pattern) : scan pattern s = s.read (merge segs) := by
  induction concat generalizing s with
  | nil =>
    rw [scan, merge, Parsed.read, Parsed.flush_eq, literal]
    simp only [join]
    split <;> rfl
  | literal _ plain _ ih =>
    rw [scan_plain plain, ih, merge, Parsed.read, Parsed.read, join_join]
  | bare member stops _ ih =>
    rw [scan_directive (known_ne_percent member) (splitDirective_bare member stops), ih, merge_bare]
    exact s.flush_read (.bare _) _ rfl
  | braced member closed _ ih =>
    rw [scan_directive (known_ne_percent member) (splitDirective_braced member closed), ih, merge_braced]
    exact s.flush_read (.braced _ _) _ rfl

/-! ## What is accepted is in the grammar -/

/-- The scan keeps what it has recorded: a clean end had a clean start. -/
theorem Parsed.Clean.of_scan (clean : (scan pattern s).Clean) : s.Clean := by
  rw [scan_eq] at clean
  obtain ⟨noError, named⟩ := clean
  exact ⟨(Bool.or_eq_false_iff.mp noError).1, fun piece there => named piece (List.mem_append_left _ there)⟩

/-- The two forms of a directive. -/
theorem splitDirective_forms {name : Text} (found : splitDirective rest = some (name, fmt, after)) :
    (rest = name ++ '{' :: (fmt ++ '}' :: after) ∧ '}' ∉ fmt) ∨ (fmt = [] ∧ rest = name ++ after ∧ Stops after) := by
  have whole : rest.takeWhile nameChar ++ rest.dropWhile nameChar = rest := List.takeWhile_append_dropWhile
  unfold splitDirective at found
  split at found
  · next more brace =>
    split at found
    · next d after' close =>
      simp only [Option.some.injEq, Prod.mk.injEq] at found
      obtain ⟨rfl, rfl, rfl⟩ := found
      have inner : more.takeWhile (· != '}') ++ more.dropWhile (· != '}') = more := List.takeWhile_append_dropWhile
      have stop : d = '}' := by
        have head := List.head?_dropWhile_not (· != '}') more
        simpa [close] using head
      left
      constructor
      · rw [close, stop] at inner
        rw [inner, ← brace]
        exact whole.symm
      · intro there
        have other := List.mem_takeWhile_imp there
        simp at other
    · cases found
  · next noBrace =>
    simp only [Option.some.injEq, Prod.mk.injEq] at found
    obtain ⟨rfl, rfl, rfl⟩ := found
    refine .inr ⟨rfl, whole.symm, fun c first => ?_⟩
    have stop := List.head?_dropWhile_not nameChar rest
    rw [Option.mem_def.mp first] at stop
    have other : c ≠ '{' := by
      rintro rfl
      obtain ⟨more, tail⟩ := List.head?_eq_some_iff.mp first
      exact noBrace more tail
    simp only [nameChar, Bool.or_eq_false_iff, beq_eq_false_iff_ne] at stop
    simpa [other] using stop

/-- A directive with a known name is one of the grammar. -/
theorem concat_directive {name : Text} (found : splitDirective rest = some (name, fmt, after))
    (named : (formatItems name).isSome = true) (concat : Concat segs after) :
    ∃ seg, Concat (seg :: segs) ('%' :: rest) := by
  obtain ⟨X, member, rfl⟩ := (formatItems_isSome name).mp named
  obtain ⟨rfl, closed⟩ | ⟨rfl, rfl, stops⟩ := splitDirective_forms found
  · exact ⟨_, .braced member closed concat⟩
  · exact ⟨_, .bare member stops concat⟩

theorem NoDouble.of_suffix (single : NoDouble pattern) (suffix : rest <:+ pattern) : NoDouble rest :=
  fun double => single (double.trans suffix.isInfix)

theorem splitDirective_suffix {name : Text} (found : splitDirective rest = some (name, fmt, after)) :
    after <:+ rest := by
  obtain ⟨rfl, -⟩ | ⟨rfl, rfl, -⟩ := splitDirective_forms found
  · exact ⟨name ++ '{' :: (fmt ++ ['}']), by simp⟩
  · exact ⟨name, rfl⟩

/-- **Soundness**: a pattern without `%%` that is scanned without an error is in
the grammar. -/
theorem concat_of_scan (single : NoDouble pattern) (clean : (scan pattern s).Clean) : ∃ segs, Concat segs pattern := by
  fun_induction scan pattern s with
  | case1 s => exact ⟨[], .nil⟩
  | case2 c rest s literal ih =>
    obtain ⟨segs, concat⟩ := ih (single.of_suffix (List.suffix_cons c rest)) clean
    exact ⟨.literal [c] :: segs, .literal (by simp) (by simpa using Ne.symm literal) concat⟩
  | case3 c rest s percent double ih =>
    obtain ⟨more, rfl⟩ := List.head?_eq_some_iff.mp double
    have percent : c = '%' := by simpa using percent
    subst percent
    exact absurd ⟨[], more, rfl⟩ single
  | case4 c rest s _ _ _ ih =>
    cases clean.of_scan.1
  | case5 c rest s percent _ name fmt after found ih =>
    have percent : c = '%' := by simpa using percent
    subst percent
    obtain ⟨segs, concat⟩ := ih
      (single.of_suffix ((splitDirective_suffix found).trans (List.suffix_cons _ rest))) clean
    have named : (formatItems name).isSome = true := by
      have known := clean.of_scan.2 _ (List.mem_append_right _ (.head _))
      cases item : formatItems name with
      | some make => rfl
      | none => simp [Piece.item, item] at known
    obtain ⟨seg, concat⟩ := concat_directive found named concat
    exact ⟨_, concat⟩

/-! ## The parser -/

/-- The item of a piece is that of its segment. -/
theorem Concat.item (concat : Concat segs pattern) :
    ∀ seg ∈ segs, seg.piece.item.2 = true ∧ seg.item = some seg.piece.item.1 := by
  have named {name : Char} (member : name ∈ known) : ∃ make, formatItems [name] = some make :=
    Option.isSome_iff_exists.mp ((formatItems_isSome _).mpr ⟨name, member, rfl⟩)
  induction concat with
  | nil => nofun
  | literal _ _ _ ih =>
    rintro seg (_ | there)
    · exact ⟨rfl, rfl⟩
    · exact ih _ ‹_›
  | bare member _ _ ih =>
    obtain ⟨make, named⟩ := named member
    rintro seg (_ | there)
    · simp [Segment.piece, Segment.item, Piece.item, named]
    · exact ih _ ‹_›
  | braced member _ _ ih =>
    obtain ⟨make, named⟩ := named member
    rintro seg (_ | there)
    · simp [Segment.piece, Segment.item, Piece.item, named]
    · exact ih _ ‹_›

theorem scan_start (concat : Concat segs pattern) : scan pattern {} = { vec := (merge segs).map Segment.piece } := by
  rw [scan_concat concat, Parsed.read]
  simp

/-- **Completeness**: what is in the grammar is parsed without an error. -/
theorem Concat.isError (concat : Concat segs pattern) : (LogFormatter.init pattern).isError = false := by
  rw [isError_iff, scan_start concat]
  refine ⟨rfl, fun piece there => ?_⟩
  obtain ⟨seg, member, rfl⟩ := List.mem_map.mp there
  exact (concat.merge.item seg member).1

/-- The items are those of the segments. -/
theorem Concat.items (concat : Concat segs pattern) (maximal : Maximal segs) :
    (LogFormatter.init pattern).items.map some = segs.map Segment.item := by
  rw [init_eq_scan, scan_start concat, concat.merge_eq maximal]
  simp only [List.map_map]
  apply List.map_congr_left
  intro seg there
  exact (concat.item seg there).2.symm

/-- **Main result**: the loops of the parser end on each pattern. One without
`%%` has no error exactly when it is in the grammar; then it has segments with
maximal runs, and for all such segments the items are theirs and the texts are
the pattern. -/
theorem grammar (pattern : Text) :
    (∀ fuel, pattern.length < fuel → LogFormatter.initLoops pattern fuel = some (.init pattern)) ∧
      (NoDouble pattern →
        ((LogFormatter.init pattern).isError = false ↔ ∃ segs, Concat segs pattern) ∧
        ((LogFormatter.init pattern).isError = false → ∃ segs, Concat segs pattern ∧ Maximal segs) ∧
        ∀ segs, Concat segs pattern → Maximal segs →
          (LogFormatter.init pattern).items.map some = segs.map Segment.item ∧
          segs.flatMap Segment.text = pattern) := by
  refine ⟨fun fuel enough => LogFormatter.initLoops_eq enough, fun single => ⟨?_, ?_, ?_⟩⟩
  · constructor
    · intro valid
      exact concat_of_scan single ((isError_iff pattern).mp valid)
    · rintro ⟨segs, concat⟩
      exact concat.isError
  · intro valid
    obtain ⟨segs, concat⟩ := concat_of_scan single ((isError_iff pattern).mp valid)
    exact ⟨merge segs, concat.merge, maximal_merge segs⟩
  · intro segs concat maximal
    exact ⟨concat.items maximal, concat.text⟩

/-- A pattern with a format that has a `%` of its own, and with literal braces. -/
def samplePattern : Text := "\x7b%d\x7b%H\x7d%T[%p] %m%n".toList

theorem grammar_sample :
    LogFormatter.initLoops samplePattern (samplePattern.length + 1) = some (.init samplePattern) ∧
      ∃ segs, Concat segs samplePattern ∧ Maximal segs := by
  have single : NoDouble samplePattern := by
    unfold NoDouble
    decide +kernel
  obtain ⟨ends, parses⟩ := grammar samplePattern
  exact ⟨ends _ (Nat.lt_succ_self _), (parses single).2.1 (by decide +kernel)⟩

end Atpdxy.Log
