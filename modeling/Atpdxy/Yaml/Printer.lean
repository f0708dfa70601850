import Mathlib.Data.List.Nodup
import Mathlib.Logic.Function.Basic
import Atpdxy.Yaml.Node

/-!
# Printers whose texts are all different

`Node.code` marks where each part of a node ends, so no text is the beginning of
another (`Node.code_append`). `YamlCpp.total` prints given nodes in block style
and the others so; its `load` undoes its `emit` on every node. `YamlCpp.quoting`
is one that prints scalars with quotes where they need them (`YamlCpp.Quotes`).
-/

namespace Atpdxy.Yaml

/-- Each character behind a mark, and the end. -/
def quote : Text → Text
  | [] => ['"']
  | c :: s => '\\' :: c :: quote s

mutual
def Node.code : Node → Text
  | .null => ['~']
  | .scalar s => '"' :: quote s
  | .seq nodes => '[' :: seqCode nodes
  | .map entries => '{' :: mapCode entries

def seqCode : List Node → Text
  | [] => [']']
  | node :: rest => ',' :: (node.code ++ seqCode rest)

def mapCode : List (Text × Node) → Text
  | [] => ['}']
  | entry :: rest => ',' :: (entryCode entry ++ mapCode rest)

def entryCode : Text × Node → Text
  | (key, node) => quote key ++ node.code
end

variable {r r' : Text}

theorem quote_append {s t : Text} (same : quote s ++ r = quote t ++ r') : s = t ∧ r = r' := by
  induction s generalizing t with
  | nil =>
    cases t with
    | nil => simpa [quote] using same
    | cons d t => simp [quote] at same
  | cons c s ih =>
    cases t with
    | nil => simp [quote] at same
    | cons d t =>
      simp only [quote, List.cons_append, List.cons.injEq, true_and] at same
      obtain ⟨rfl, rest⟩ := same
      obtain ⟨rfl, rfl⟩ := ih rest
      exact ⟨rfl, rfl⟩

mutual
/-- What follows a node's text does not change how it is read. -/
theorem Node.code_append : ∀ {n m : Node} {r r' : Text}, n.code ++ r = m.code ++ r' → n = m ∧ r = r'
  | .null, m, r, r', same => by
    cases m <;> simp [Node.code] at same
    exact ⟨rfl, same⟩
  | .scalar s, m, r, r', same => by
    cases m <;> simp [Node.code] at same
    obtain ⟨rfl, rfl⟩ := quote_append same
    exact ⟨rfl, rfl⟩
  | .seq nodes, m, r, r', same => by
    cases m <;> simp [Node.code] at same
    obtain ⟨rfl, rfl⟩ := seqCode_append same
    exact ⟨rfl, rfl⟩
  | .map entries, m, r, r', same => by
    cases m <;> simp [Node.code] at same
    obtain ⟨rfl, rfl⟩ := mapCode_append same
    exact ⟨rfl, rfl⟩

theorem seqCode_append : ∀ {ns ms : List Node} {r r' : Text}, seqCode ns ++ r = seqCode ms ++ r' → ns = ms ∧ r = r'
  | [], ms, r, r', same => by
    cases ms <;> simp [seqCode] at same
    exact ⟨rfl, same⟩
  | n :: ns, ms, r, r', same => by
    cases ms <;> simp [seqCode] at same
    obtain ⟨rfl, rest⟩ := Node.code_append same
    obtain ⟨rfl, rfl⟩ := seqCode_append rest
    exact ⟨rfl, rfl⟩

theorem mapCode_append : ∀ {es fs : List (Text × Node)} {r r' : Text},
    mapCode es ++ r = mapCode fs ++ r' → es = fs ∧ r = r'
  | [], fs, r, r', same => by
    cases fs <;> simp [mapCode] at same
    exact ⟨rfl, same⟩
  | (key, n) :: es, fs, r, r', same => by
    cases fs with
    | nil => simp [mapCode] at same
    | cons f fs =>
      obtain ⟨key', m⟩ := f
      simp only [mapCode, entryCode, List.cons_append, List.append_assoc, List.cons.injEq, true_and] at same
      obtain ⟨rfl, value⟩ := quote_append same
      obtain ⟨rfl, rest⟩ := Node.code_append value
      obtain ⟨rfl, rfl⟩ := mapCode_append rest
      exact ⟨rfl, rfl⟩
end

theorem Node.code_injective : Function.Injective Node.code := by
  intro n m same
  have texts : n.code ++ [] = m.code ++ [] := congrArg (· ++ []) same
  exact (Node.code_append texts).1

/-! ## Block style for some nodes -/

open Classical in
/-- The given nodes in block style, the others marked. -/
noncomputable def printer (blocks : List Node) (node : Node) : Text :=
  if node ∈ blocks then node.block else '\x00' :: node.code

/-- Prints the given nodes in block style, and reads every node back. -/
noncomputable def YamlCpp.total (blocks : List Node) : YamlCpp where
  load := Function.partialInv (printer blocks)
  emit := printer blocks
  asString
    | .scalar s => some s
    | _ => none

theorem printer_injective {blocks : List Node} (distinct : (blocks.map Node.block).Nodup)
    (plain : ∀ node ∈ blocks, node.block.head? ≠ some '\x00') : Function.Injective (printer blocks) := by
  intro n m same
  unfold printer at same
  split at same
  · next first =>
    split at same
    · next second => exact List.inj_on_of_nodup_map distinct first second same
    · exact absurd (by rw [same]; rfl) (plain n first)
  · split at same
    · next second => exact absurd (by rw [← same]; rfl) (plain m second)
    · exact Node.code_injective (List.cons.inj same).2

theorem total_undoes {blocks : List Node} (distinct : (blocks.map Node.block).Nodup)
    (plain : ∀ node ∈ blocks, node.block.head? ≠ some '\x00') (node : Node) : (YamlCpp.total blocks).Undoes node :=
  Function.partialInv_left (printer_injective distinct plain) node

theorem total_emit {blocks : List Node} {node : Node} (listed : node ∈ blocks) :
    (YamlCpp.total blocks).emit node = node.block := if_pos listed

theorem total_readsScalars (blocks : List Node) : (YamlCpp.total blocks).ReadsScalars := fun _ => rfl

/-! ## Quotes where they are needed -/

/-- A scalar is printed as it is where that is valid, else in quotes. -/
structure YamlCpp.Quotes (yaml : YamlCpp) (plain : Text → Prop) : Prop where
  bare : ∀ s, plain s → yaml.emit (.scalar s) = s
  quoted : ∀ s, ¬ plain s → ∃ body, s.length ≤ body.length ∧ yaml.emit (.scalar s) = '"' :: (body ++ ['"'])

theorem YamlCpp.Quotes.emit_iff {yaml : YamlCpp} {plain : Text → Prop} (quotes : yaml.Quotes plain) (s : Text) :
    yaml.emit (.scalar s) = s ↔ plain s := by
  refine ⟨fun same => ?_, quotes.bare s⟩
  by_contra needed
  obtain ⟨body, longer, quoted⟩ := quotes.quoted s needed
  have lengths := congrArg List.length (same.symm.trans quoted)
  simp only [List.length_cons, List.length_append, List.length_nil] at lengths
  omega

/-- Letters and digits, and not nothing. -/
def Word (s : Text) : Prop := s ≠ [] ∧ s.all Char.isAlphanum = true

instance (s : Text) : Decidable (Word s) := inferInstanceAs (Decidable (s ≠ [] ∧ s.all Char.isAlphanum = true))

open Classical in
/-- Words as they are and other scalars in quotes; the given nodes as given, the others marked. -/
noncomputable def quoting (given : List (Node × Text)) : Node → Text
  | .scalar s => if Word s then s else '"' :: quote s
  | node => ((given.find? fun g => g.1 = node).map Prod.snd).getD ('\x00' :: node.code)

/-- What each text is read as; an empty one is a null node. -/
noncomputable def reading (given : List (Node × Text)) (v : Text) : Option Node :=
  if v = [] then some .null
  else if Word v then some (.scalar v)
  else if v.head? = some '"' then (Function.partialInv quote v.tail).map .scalar
  else if v.head? = some '\x00' then Function.partialInv Node.code v.tail
  else (given.find? fun g => g.2 = v).map Prod.fst

/-- Prints and reads so. -/
noncomputable def YamlCpp.quoting (given : List (Node × Text)) : YamlCpp where
  load := reading given
  emit := Yaml.quoting given
  asString
    | .scalar s => some s
    | _ => none

/-- The texts of the given nodes are all different, and not those of other nodes. -/
structure Apart (given : List (Node × Text)) : Prop where
  distinct : (given.map Prod.snd).Nodup
  other : ∀ g ∈ given, g.2 ≠ [] ∧ ¬ Word g.2 ∧ g.2.head? ≠ some '"' ∧ g.2.head? ≠ some '\x00'

variable {given : List (Node × Text)} {s : Text}

theorem quote_eq (s : Text) : ∃ body, s.length ≤ body.length ∧ quote s = body ++ ['"'] := by
  induction s with
  | nil => exact ⟨[], Nat.le_refl 0, rfl⟩
  | cons c s ih =>
    obtain ⟨body, longer, quoted⟩ := ih
    exact ⟨'\\' :: c :: body, by simp only [List.length_cons]; omega, by rw [quote, quoted]; rfl⟩

theorem quoting_quotes (given : List (Node × Text)) : (YamlCpp.quoting given).Quotes Word where
  bare _ word := if_pos word
  quoted s needed := by
    obtain ⟨body, longer, quoted⟩ := quote_eq s
    exact ⟨body, longer, (if_neg needed).trans (by rw [quoted])⟩

open Classical in
/-- The four ways a node is printed. -/
theorem quoting_cases (given : List (Node × Text)) (node : Node) :
    (∃ s, node = .scalar s ∧ Word s ∧ quoting given node = s) ∨
      (∃ s, node = .scalar s ∧ quoting given node = '"' :: quote s) ∨
      (∃ g ∈ given, g.1 = node ∧ quoting given node = g.2) ∨ quoting given node = '\x00' :: node.code := by
  have listed : ∀ node, (∀ s, node ≠ .scalar s) → (∃ g ∈ given, g.1 = node ∧ quoting given node = g.2) ∨
      quoting given node = '\x00' :: node.code := by
    intro node compound
    have printed : quoting given node =
        ((given.find? fun g => g.1 = node).map Prod.snd).getD ('\x00' :: node.code) := by
      cases node with
      | scalar s => exact (compound s rfl).elim
      | null | seq _ | map _ => rfl
    rw [printed]
    cases found : given.find? fun g => g.1 = node with
    | none => exact .inr rfl
    | some g => exact .inl ⟨g, List.mem_of_find?_eq_some found, by simpa using List.find?_some found, rfl⟩
  cases node with
  | scalar s =>
    by_cases word : Word s
    · exact .inl ⟨s, rfl, word, if_pos word⟩
    · exact .inr (.inl ⟨s, rfl, if_neg word⟩)
  | null => exact .inr (.inr (listed _ fun s => Node.noConfusion))
  | seq nodes => exact .inr (.inr (listed _ fun s => Node.noConfusion))
  | map entries => exact .inr (.inr (listed _ fun s => Node.noConfusion))

theorem quote_injective : Function.Injective quote := by
  intro s t same
  have texts : quote s ++ [] = quote t ++ [] := congrArg (· ++ []) same
  exact (quote_append texts).1

/-- A character that is in no word. -/
theorem not_word {c : Char} (mark : c.isAlphanum = false) (s : Text) : ¬ Word (c :: s) := by
  rintro ⟨-, each⟩
  rw [List.all_cons, mark] at each
  cases each

theorem quoting_undoes (apart : Apart given) (node : Node) : (YamlCpp.quoting given).Undoes node := by
  change reading given (quoting given node) = some node
  obtain ⟨s, rfl, word, printed⟩ | ⟨s, rfl, printed⟩ | ⟨g, member, rfl, printed⟩ | printed := quoting_cases given node
  · rw [printed, reading, if_neg word.1, if_pos word]
  · rw [printed, reading, if_neg (List.cons_ne_nil _ _), if_neg (not_word (by decide) _),
      if_pos List.head?_cons, List.tail_cons, Function.partialInv_left quote_injective, Option.map_some]
  · obtain ⟨some, word, quoted, marked⟩ := apart.other g member
    rw [printed, reading, if_neg some, if_neg word, if_neg quoted, if_neg marked]
    cases found : given.find? fun h => h.2 = g.2 with
    | none => simpa using List.find?_eq_none.mp found g member
    | some h =>
      have same : h.2 = g.2 := by simpa using List.find?_some found
      rw [List.inj_on_of_nodup_map apart.distinct (List.mem_of_find?_eq_some found) member same]
      rfl
  · rw [printed, reading, if_neg (List.cons_ne_nil _ _), if_neg (not_word (by decide) _),
      if_neg (by simp), if_pos List.head?_cons, List.tail_cons, Function.partialInv_left Node.code_injective]

end Atpdxy.Yaml
