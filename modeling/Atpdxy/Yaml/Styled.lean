import Atpdxy.Yaml.Printer

/-!
# Nodes with the way they are written

A node of yaml-cpp is printed as it was written: it keeps whether a collection is in
block or in flow style, its tag and its anchor, which here are the elements of a type `L`
of looks. `Load` of a text without a document gives a node that is not there; it is printed
as nothing, and is null once it is put into a container.

What is loaded from a printed node need not be the same node, but it is printed alike
(`YamlCpp.Restores`). `YamlCpp.styled` is one that knows two styles.
-/

namespace Atpdxy.Yaml

inductive StyledNode (L : Type)
  /-- `YAML::Node()` -/
  | unwritten
  | null (look : L)
  | scalar (look : L) (s : Text)
  | seq (look : L) (nodes : List (StyledNode L))
  | map (look : L) (entries : List (Text × StyledNode L))

variable {L : Type} [Inhabited L]

/-- A node in a container. -/
def StyledNode.written : StyledNode L → StyledNode L
  | .unwritten => .null default
  | node => node

/-- `node[0]` to `node[size() - 1]`. -/
def StyledNode.items : StyledNode L → List (Option (StyledNode L))
  | .seq _ nodes => nodes.map some
  | .map _ entries => (List.range entries.length).map fun x => entries.lookup (Nat.repr x).toList
  | .unwritten | .null _ | .scalar _ _ => []

/-- `begin()` to `end()`, with `first.Scalar()`. -/
def StyledNode.entries : StyledNode L → Except Thrown (List (Text × StyledNode L))
  | .map _ entries => .ok entries
  | .seq _ (_ :: _) => .error .yaml
  | .seq _ [] | .unwritten | .null _ | .scalar _ _ => .ok []

/-- `push_back` on a new node, which looks like any that a program makes. -/
def StyledNode.ofItems : List (StyledNode L) → StyledNode L
  | [] => .unwritten
  | nodes => .seq default (nodes.map written)

/-- `node[key] = value` on a new node. -/
def StyledNode.ofEntries : List (Text × StyledNode L) → StyledNode L
  | [] => .unwritten
  | entries => .map default (entries.map (Prod.map id written))

instance : Nodes (StyledNode L) where
  items := StyledNode.items
  entries := StyledNode.entries
  ofItems := StyledNode.ofItems
  ofEntries := StyledNode.ofEntries

@[simp] theorem StyledNode.written_written (node : StyledNode L) : node.written.written = node.written := by
  cases node <;> rfl

theorem StyledNode.items_ofItems (nodes : List (StyledNode L)) :
    (ofItems nodes).items = (nodes.map written).map some := by
  cases nodes <;> rfl

theorem StyledNode.entries_ofEntries (entries : List (Text × StyledNode L)) :
    (ofEntries entries).entries = .ok (entries.map (Prod.map id written)) := by
  cases entries <;> rfl

/-! ## Loading what is printed -/

/-- Printed alike, alone and in a container, and so are the nodes inside. -/
structure YamlCpp.Alike (yaml : YamlCpp (StyledNode L)) (n m : StyledNode L) : Prop where
  emit : yaml.emit n = yaml.emit m
  written : yaml.emit n.written = yaml.emit m.written
  items : n.items.map (Option.map yaml.emit) = m.items.map (Option.map yaml.emit)
  entries : n.entries.map (List.map (Prod.map id yaml.emit)) = m.entries.map (List.map (Prod.map id yaml.emit))

/-- The nodes of a program: they are loaded, or put together from others. -/
inductive YamlCpp.Made (yaml : YamlCpp (StyledNode L)) : StyledNode L → Prop
  | load {v : Text} {n : StyledNode L} : yaml.load v = some n → yaml.Made n
  | written {n : StyledNode L} : yaml.Made n → yaml.Made n.written
  | ofItems {nodes : List (StyledNode L)} : (∀ n ∈ nodes, yaml.Made n) → yaml.Made (.ofItems nodes)
  | ofEntries {entries : List (Text × StyledNode L)} :
    (entries.map Prod.fst).Nodup → (∀ e ∈ entries, yaml.Made e.2) → yaml.Made (.ofEntries entries)

/-- `Load` undoes the emitter, as far as printing shows. -/
def YamlCpp.Restores (yaml : YamlCpp (StyledNode L)) : Prop :=
  ∀ n, yaml.Made n → ∃ m, yaml.load (yaml.emit n) = some m ∧ yaml.Alike m n

/-- The text is loaded, and the node is printed as that text where it is put. -/
def YamlCpp.PrintsBack (yaml : YamlCpp (StyledNode L)) (x : Text) : Prop :=
  ∃ n, yaml.load x = some n ∧ yaml.emit n.written = x

/-- What is printed once stays as it is. -/
theorem YamlCpp.Restores.printsBack {yaml : YamlCpp (StyledNode L)} {n : StyledNode L} (restores : yaml.Restores)
    (made : yaml.Made n) : yaml.PrintsBack (yaml.emit n.written) := by
  obtain ⟨m, loaded, alike⟩ := restores n.written made.written
  refine ⟨m, loaded, ?_⟩
  rw [alike.written, StyledNode.written_written]

/-! ## Two styles -/

inductive Style
  | block
  | flow
  deriving DecidableEq, Repr

instance : Inhabited Style := ⟨.block⟩

def Style.mark : Style → Text
  | .block => ['-']
  | .flow => ['[']

theorem Style.mark_injective : Function.Injective Style.mark := by
  intro a b same
  cases a <;> cases b <;> first | rfl | cases same

mutual
/-- The node with the style of each node as a key in front of it. -/
def StyledNode.marked : StyledNode Style → Node
  | .unwritten => .null
  | .null look => .map [(look.mark, .null)]
  | .scalar look s => .map [(look.mark, .scalar s)]
  | .seq look nodes => .map [(look.mark, .seq (markedNodes nodes))]
  | .map look entries => .map [(look.mark, .map (markedEntries entries))]

def markedNodes : List (StyledNode Style) → List Node
  | [] => []
  | node :: rest => node.marked :: markedNodes rest

def markedEntries : List (Text × StyledNode Style) → List (Text × Node)
  | [] => []
  | entry :: rest => markedEntry entry :: markedEntries rest

def markedEntry : Text × StyledNode Style → Text × Node
  | (key, node) => (key, node.marked)
end

mutual
theorem StyledNode.marked_inj : ∀ {n m : StyledNode Style}, n.marked = m.marked → n = m
  | .unwritten, m, same => by
    cases m <;> simp [StyledNode.marked] at same
    rfl
  | .null look, m, same => by
    cases m <;> simp [StyledNode.marked] at same
    rw [Style.mark_injective same]
  | .scalar look s, m, same => by
    cases m <;> simp [StyledNode.marked] at same
    rw [Style.mark_injective same.1, same.2]
  | .seq look nodes, m, same => by
    cases m <;> simp [StyledNode.marked] at same
    rw [Style.mark_injective same.1, markedNodes_inj same.2]
  | .map look entries, m, same => by
    cases m <;> simp [StyledNode.marked] at same
    rw [Style.mark_injective same.1, markedEntries_inj same.2]

theorem markedNodes_inj : ∀ {ns ms : List (StyledNode Style)}, markedNodes ns = markedNodes ms → ns = ms
  | [], ms, same => by
    cases ms <;> simp [markedNodes] at same
    rfl
  | n :: ns, ms, same => by
    cases ms <;> simp [markedNodes] at same
    rw [StyledNode.marked_inj same.1, markedNodes_inj same.2]

theorem markedEntries_inj : ∀ {es fs : List (Text × StyledNode Style)}, markedEntries es = markedEntries fs → es = fs
  | [], fs, same => by
    cases fs <;> simp [markedEntries] at same
    rfl
  | (key, n) :: es, fs, same => by
    cases fs with
    | nil => simp [markedEntries] at same
    | cons f fs =>
      obtain ⟨key', m⟩ := f
      simp only [markedEntries, markedEntry, List.cons.injEq, Prod.mk.injEq] at same
      rw [same.1.1, StyledNode.marked_inj same.1.2, markedEntries_inj same.2]
end

open Classical in
/-- The given nodes as given, the others marked. -/
noncomputable def styledText (given : List (StyledNode Style × Text)) (node : StyledNode Style) : Text :=
  ((given.find? fun g => g.1 = node).map Prod.snd).getD ('\x00' :: node.marked.code)

/-- Prints so, and reads every node back. -/
noncomputable def YamlCpp.styled (given : List (StyledNode Style × Text)) : YamlCpp (StyledNode Style) where
  load := Function.partialInv (styledText given)
  emit := styledText given
  asString
    | .scalar _ s => some s
    | _ => none

/-- The nodes given are different and so are their texts, which have no mark. -/
structure Table (given : List (StyledNode Style × Text)) : Prop where
  nodes : (given.map Prod.fst).Nodup
  texts : (given.map Prod.snd).Nodup
  plain : ∀ g ∈ given, g.2.head? ≠ some '\x00'

variable {given : List (StyledNode Style × Text)} {g : StyledNode Style × Text}

open Classical in
/-- The two ways a node is printed. -/
theorem styledText_cases (given : List (StyledNode Style × Text)) (node : StyledNode Style) :
    (∃ g ∈ given, g.1 = node ∧ styledText given node = g.2) ∨ styledText given node = '\x00' :: node.marked.code := by
  unfold styledText
  cases found : given.find? fun g => g.1 = node with
  | none => exact .inr rfl
  | some g => exact .inl ⟨g, List.mem_of_find?_eq_some found, by simpa using List.find?_some found, rfl⟩

theorem Table.injective (table : Table given) : Function.Injective (styledText given) := by
  intro n m same
  obtain ⟨g, first, rfl, printed⟩ | printed := styledText_cases given n <;>
    obtain ⟨h, second, rfl, printed'⟩ | printed' := styledText_cases given m <;> rw [printed, printed'] at same
  · rw [List.inj_on_of_nodup_map table.texts first second same]
  · exact absurd (by rw [same]; rfl) (table.plain g first)
  · exact absurd (by rw [← same]; rfl) (table.plain h second)
  · exact StyledNode.marked_inj (Node.code_injective (List.cons.inj same).2)

theorem Table.load_emit (table : Table given) (node : StyledNode Style) :
    (YamlCpp.styled given).load ((YamlCpp.styled given).emit node) = some node :=
  Function.partialInv_left table.injective node

theorem Table.restores (table : Table given) : (YamlCpp.styled given).Restores :=
  fun n _ => ⟨n, table.load_emit n, ⟨rfl, rfl, rfl, rfl⟩⟩

open Classical in
theorem Table.emit (table : Table given) (member : g ∈ given) : (YamlCpp.styled given).emit g.1 = g.2 := by
  change styledText given g.1 = g.2
  unfold styledText
  cases found : given.find? fun h => h.1 = g.1 with
  | none => simpa using List.find?_eq_none.mp found g member
  | some h =>
    have same : h.1 = g.1 := by simpa using List.find?_some found
    rw [List.inj_on_of_nodup_map table.nodes (List.mem_of_find?_eq_some found) member same]
    rfl

theorem Table.load (table : Table given) (member : g ∈ given) : (YamlCpp.styled given).load g.2 = some g.1 := by
  rw [← table.emit member, table.load_emit]

end Atpdxy.Yaml
