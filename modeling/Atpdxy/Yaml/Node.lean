import Mathlib.Data.List.Lex
import Mathlib.Data.Char
import Mathlib.Tactic.Common

/-!
# YAML nodes as a program sees them

The part of yaml-cpp's node interface that reading and building configuration
values uses. Parsing and printing are parameters (`YamlCpp`); what one node has
to do with its text is a hypothesis where it is needed (`YamlCpp.Undoes`). A `Node`
keeps nothing of the way it was written; the casts of containers take any nodes with
the same interface (`Nodes`), those with a style of their own among them (`StyledNode`).
-/

namespace Atpdxy.Yaml

/-- A `std::string`. -/
abbrev Text := List Char

inductive Node
  | null
  | scalar (s : Text)
  | seq (nodes : List Node)
  | map (entries : List (Text × Node))
  deriving Repr

/-- What a program sees thrown: an exception of yaml-cpp, a `std::logic_error`, or
that of `boost::lexical_cast`. -/
inductive Thrown
  | yaml
  | logicError (what : Text)
  | badCast
  deriving DecidableEq, Repr

/-- `node[key]`; none is a node that is not defined. A scalar has no subscripts. -/
def Node.subscript (key : Text) : Node → Except Thrown (Option Node)
  | .scalar _ => .error .yaml
  | .map entries => .ok (entries.lookup key)
  | .null | .seq _ => .ok none

/-- The same on the result of a subscript; a node that is not defined has none. -/
def subscript (key : Text) : Option Node → Except Thrown (Option Node)
  | some node => node.subscript key
  | none => .ok none

/-- `node[0]` to `node[size() - 1]`; on a map a number is a key like another. -/
def Node.items : Node → List (Option Node)
  | .seq nodes => nodes.map some
  | .map entries => (List.range entries.length).map fun x => entries.lookup (Nat.repr x).toList
  | .null | .scalar _ => []

/-- A map of entries; a node nothing was written to is null. -/
def Node.ofEntries : List (Text × Node) → Node
  | [] => .null
  | entries => .map entries

/-- A sequence of nodes; the same for `push_back`. -/
def Node.ofItems : List Node → Node
  | [] => .null
  | nodes => .seq nodes

/-- `begin()` to `end()`, with `first.Scalar()`; an item of a sequence has no `first`. -/
def Node.entries : Node → Except Thrown (List (Text × Node))
  | .map entries => .ok entries
  | .seq (_ :: _) => .error .yaml
  | .seq [] | .null | .scalar _ => .ok []

/-- What the casts of the containers read from nodes, and the nodes they make. -/
class Nodes (N : Type) where
  items : N → List (Option N)
  entries : N → Except Thrown (List (Text × N))
  ofItems : List N → N
  ofEntries : List (Text × N) → N

instance : Nodes Node where
  items := Node.items
  entries := Node.entries
  ofItems := Node.ofItems
  ofEntries := Node.ofEntries

/-- `YAML::Load`, `operator<<` on a node, and `as<std::string>()`; none is an exception. -/
structure YamlCpp (N : Type := Node) where
  load : Text → Option N
  emit : N → Text
  asString : N → Option Text

variable {N : Type}

/-- `Load` undoes the emitter on this node. -/
def YamlCpp.Undoes (yaml : YamlCpp N) (node : N) : Prop := yaml.load (yaml.emit node) = some node

/-- A scalar is its text. -/
def YamlCpp.ReadsScalars (yaml : YamlCpp) : Prop := ∀ s, yaml.asString (.scalar s) = some s

/-- `Load`, with the exception. -/
def YamlCpp.loadNode (yaml : YamlCpp N) (v : Text) : Except Thrown N := (yaml.load v).elim (.error .yaml) .ok

def YamlCpp.readString (yaml : YamlCpp N) (node : N) : Except Thrown Text :=
  (yaml.asString node).elim (.error .yaml) .ok

variable {yaml : YamlCpp} {node : Node} {s key : Text}

/-- What went through without an exception. -/
theorem bind_eq_ok {α β : Type} {x : Except Thrown α} {f : α → Except Thrown β} {r : β} (ok : x >>= f = .ok r) :
    ∃ y, x = .ok y ∧ f y = .ok r := by
  cases x with
  | error e => cases ok
  | ok y => exact ⟨y, rfl, ok⟩

@[simp] theorem subscript_map (key : Text) (entries : List (Text × Node)) :
    subscript key (some (.map entries)) = .ok (entries.lookup key) := rfl

theorem YamlCpp.Undoes.loadNode {yaml : YamlCpp N} {node : N} (undoes : yaml.Undoes node) :
    yaml.loadNode (yaml.emit node) = .ok node := by
  rw [YamlCpp.loadNode, show yaml.load (yaml.emit node) = some node from undoes]
  rfl

theorem YamlCpp.ReadsScalars.readString (reads : yaml.ReadsScalars) (s : Text) :
    yaml.readString (.scalar s) = .ok s := by
  rw [YamlCpp.readString, reads s]
  rfl

theorem Node.ofEntries_eq {entries : List (Text × Node)} (some : entries ≠ []) :
    Node.ofEntries entries = .map entries := by
  cases entries with
  | nil => exact (some rfl).elim
  | cons e rest => rfl

theorem Node.items_ofItems (nodes : List Node) : (Node.ofItems nodes).items = nodes.map some := by
  cases nodes <;> rfl

/-! ## Block style -/

mutual
/-- The lines of a node in block style; scalars are those that need no quotes. -/
def Node.lines : Node → List Text
  | .null => [['~']]
  | .scalar s => [s]
  | .seq nodes => seqLines nodes
  | .map entries => mapLines entries

def seqLines : List Node → List Text
  | [] => []
  | node :: rest =>
    node.lines.mapIdx (fun i line => (if i = 0 then ['-', ' '] else [' ', ' ']) ++ line) ++ seqLines rest

def mapLines : List (Text × Node) → List Text
  | [] => []
  | entry :: rest => entryLines entry ++ mapLines rest

def entryLines : Text × Node → List Text
  | (key, .scalar s) => [key ++ [':', ' '] ++ s]
  | (key, .null) => [key ++ [':', ' ', '~']]
  | (key, .seq nodes) => (key ++ [':']) :: (seqLines nodes).map fun line => ' ' :: ' ' :: line
  | (key, .map entries) => (key ++ [':']) :: (mapLines entries).map fun line => ' ' :: ' ' :: line
end

def Node.block (node : Node) : Text := ['\n'].intercalate node.lines

/-- Prints block style, and reads the given nodes back. -/
def YamlCpp.ofBlocks (nodes : List Node) : YamlCpp where
  load v := nodes.find? fun node => node.block = v
  emit := Node.block
  asString
    | .scalar s => some s
    | _ => none

theorem ofBlocks_readsScalars (nodes : List Node) : (YamlCpp.ofBlocks nodes).ReadsScalars := fun _ => rfl

theorem ofBlocks_undoes (front back : List Node) (other : ∀ m ∈ front, m.block ≠ node.block) :
    (YamlCpp.ofBlocks (front ++ node :: back)).Undoes node := by
  have none : front.find? (fun m => m.block = node.block) = none := by
    simpa [List.find?_eq_none] using other
  simp [YamlCpp.Undoes, YamlCpp.ofBlocks, List.find?_append, none]

end Atpdxy.Yaml
