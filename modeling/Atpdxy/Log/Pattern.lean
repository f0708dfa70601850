import Atpdxy.Log.FormatItem

/-!
# The pattern parser

`LogFormatter::init` walks over the pattern with the index `i`; at a directive a
second loop reads from `n` on, and `i` jumps to where it stopped. The model keeps
the indices and the calls of `substr`; next to an index it carries the rest of
the pattern from there, so that both loops are recursions on a list. A jump is
walked: nothing happens until `i` is `next`.
-/

namespace Atpdxy.Log

/-- `s.substr(pos, n)`. -/
def substr (s : Text) (pos n : Nat) : Text := (s.drop pos).take n

/-- A tuple of `vec`: the text, the format, and whether it is a directive. -/
structure Piece where
  str : Text
  fmt : Text
  directive : Bool
  deriving DecidableEq, Repr

/-- The variables of the inner loop when it ends. -/
structure Directive where
  n : Nat
  /-- `fmt_status == 1`: a brace is open -/
  status : Bool
  str : Text
  fmt : Text
  deriving DecidableEq, Repr

/-- The inner loop; the list is the pattern from `n` on. -/
def readDirective (pattern : Text) (i : Nat) : Text → (n : Nat) → (status : Bool) → (fmtBegin : Nat) →
    (str : Text) → Directive
  | [], n, status, _, str => ⟨n, status, str, []⟩
  | c :: rest, n, status, fmtBegin, str =>
    if !status && (!c.isAlpha && c != '{' && c != '}') then
      ⟨n, status, substr pattern (i + 1) (n - i - 1), []⟩
    else if !status && c == '{' then
      readDirective pattern i rest (n + 1) true n (substr pattern (i + 1) (n - i - 1))
    else if status && c == '}' then
      ⟨n + 1, false, str, substr pattern (fmtBegin + 1) (n - fmtBegin - 1)⟩
    else
      -- at the end of the pattern the name is all that is left
      let str := if n + 1 = pattern.length ∧ str.isEmpty then pattern.drop (i + 1) else str
      readDirective pattern i rest (n + 1) status fmtBegin str

/-- The variables of the outer loop. -/
structure Parsed where
  vec : List Piece := []
  nstr : Text := []
  error : Bool := false
  deriving DecidableEq, Repr

/-- The literal text so far becomes a piece. -/
def Parsed.flush (s : Parsed) : Parsed :=
  if s.nstr.isEmpty then s else { s with vec := s.vec ++ [⟨s.nstr, [], false⟩], nstr := [] }

/-- What follows the inner loop; the second component is where `i` goes. -/
def Parsed.directive (s : Parsed) (i : Nat) (d : Directive) : Parsed × Nat :=
  if d.status then
    ({ s with vec := s.vec ++ [⟨"<<pattern_error>>".toList, d.fmt, false⟩], error := true }, i + 1)
  else ({ s.flush with vec := s.flush.vec ++ [⟨d.str, d.fmt, true⟩] }, d.n)

/-- The outer loop; the list is the pattern from `i` on. -/
def parse (pattern : Text) : Text → (i next : Nat) → Parsed → Parsed
  | [], _, _, s => s.flush
  | c :: rest, i, next, s =>
    if i < next then parse pattern rest (i + 1) next s
    else if c ≠ '%' then parse pattern rest (i + 1) next { s with nstr := s.nstr ++ [c] }
    else if rest.head? = some '%' then parse pattern rest (i + 1) next { s with nstr := s.nstr ++ ['%'] }
    else
      let (s, next) := s.directive i (readDirective pattern i rest (i + 1) false 0 [])
      parse pattern rest (i + 1) next s

/-- `s_format_items`. -/
def formatItems : Text → Option (Text → FormatItem)
  | ['m'] => some fun _ => .message
  | ['p'] => some fun _ => .level
  | ['r'] => some fun _ => .elapse
  | ['c'] => some fun _ => .name
  | ['t'] => some fun _ => .threadId
  | ['n'] => some fun _ => .newLine
  | ['d'] => some .dateTime
  | ['f'] => some fun _ => .filename
  | ['l'] => some fun _ => .line
  | ['T'] => some fun _ => .tab
  | ['F'] => some fun _ => .fiberId
  | ['N'] => some fun _ => .threadName
  | _ => none

/-- The item of a piece, and whether its directive is known. -/
def Piece.item (piece : Piece) : FormatItem × Bool :=
  if piece.directive then
    match formatItems piece.str with
    | some make => (make piece.fmt, true)
    | none => (.string ("<<error_format %".toList ++ piece.str ++ ">>".toList), false)
  else (.string piece.str, true)

/-- `LogFormatter`. -/
structure LogFormatter where
  pattern : Text
  items : List FormatItem
  error : Bool
  deriving DecidableEq, Repr

/-- The constructor: `init` on the pattern. -/
def LogFormatter.init (pattern : Text) : LogFormatter :=
  let parsed := parse pattern pattern 0 0 {}
  { pattern
    items := parsed.vec.map fun piece => piece.item.1
    error := parsed.error || parsed.vec.any fun piece => !piece.item.2 }

def LogFormatter.isError (f : LogFormatter) : Bool := f.error

def LogFormatter.getPattern (f : LogFormatter) : Text := f.pattern

/-- `LogFormatter::format`. -/
def LogFormatter.format (f : LogFormatter) (strftime : Strftime) (stack : Text) (level : Level) (event : Event) :
    Text :=
  f.items.flatMap fun item => item.format strftime stack level event

example : (LogFormatter.init "%d{%H}%T[%p] %m%n".toList).items =
    [.dateTime "%H".toList, .tab, .string ['['], .level, .string "] ".toList, .message, .newLine] := by decide

example : (LogFormatter.init "%d\x7b%H".toList).isError = true := by decide

end Atpdxy.Log
