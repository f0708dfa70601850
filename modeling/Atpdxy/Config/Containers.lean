import Mathlib.Data.Finmap
import Mathlib.Data.Finset.Basic
import Atpdxy.Config.Var
import Atpdxy.Cpp.Ordered
import Atpdxy.Yaml.Printer

/-!
# The casts of the containers

The specialisations of `LexicalCast` for containers (`config.h`). Each prints
its elements one by one, loads what is printed into a node, and prints that
node; the way back prints each child of the loaded node and casts it.

`Survives` is the law of a pair of casts: a value comes back from its text after
the text has been loaded and printed. A container of elements with the law has
it too (`OneOf.writes`), so any nesting has it (`nested`).
-/

namespace Atpdxy.Config

open Yaml Cpp

/-- The two casts `LexicalCast<T, std::string>` and `LexicalCast<std::string, T>`. -/
structure Casts (T : Type) where
  toStr : T → Except Thrown Text
  fromStr : Text → Except Thrown T

variable {N : Type} {yaml : YamlCpp} {T U V : Type}

/-! ## Sequences and sets -/

/-- The loop that prints and loads each element. -/
def loadEach (yaml : YamlCpp N) (element : Casts T) : List T → Except Thrown (List N)
  | [] => pure []
  | i :: rest => do
    let text ← element.toStr i
    let node ← yaml.loadNode text
    let nodes ← loadEach yaml element rest
    pure (node :: nodes)

/-- `push_back` of each, and the node printed. -/
def printItems [Nodes N] (yaml : YamlCpp N) (element : Casts T) (v : List T) : Except Thrown Text := do
  let nodes ← loadEach yaml element v
  pure (yaml.emit (Nodes.ofItems nodes))

/-- The loop over `node[0]`, `node[1]`, and so on; `add` is `push_back` or `insert`. -/
def castItems (yaml : YamlCpp N) (element : Casts T) (add : V → T → V) : List (Option N) → V → Except Thrown V
  | [], vec => pure vec
  | item :: rest, vec => do
    let i ← element.fromStr (item.elim [] yaml.emit)
    castItems yaml element add rest (add vec i)

def castSequence [Nodes N] (yaml : YamlCpp N) (element : Casts T) (add : V → T → V) (empty : V) (v : Text) :
    Except Thrown V := do
  let node ← yaml.loadNode v
  castItems yaml element add (Nodes.items node) empty

/-- `push_back`. -/
def pushBack (vec : List T) (x : T) : List T := vec ++ [x]

/-- `std::vector<T>`. -/
def Casts.vector [Nodes N] (yaml : YamlCpp N) (element : Casts T) : Casts (List T) where
  toStr := printItems yaml element
  fromStr := castSequence yaml element pushBack []

/-- `std::list<T>`. -/
def Casts.list [Nodes N] (yaml : YamlCpp N) (element : Casts T) : Casts (List T) where
  toStr := printItems yaml element
  fromStr := castSequence yaml element pushBack []

/-- `std::set<T>`, with `operator<`. -/
def Casts.set [Nodes N] (yaml : YamlCpp N) (element : Casts T) (lt : T → T → Prop) [DecidableRel lt]
    [IsStrictOrder T lt] : Casts (Ordered lt) where
  toStr v := printItems yaml element v.elems
  fromStr := castSequence yaml element Ordered.insert .empty

/-- `insert` into a `std::unordered_set`. -/
def insertElement [DecidableEq T] (vec : Finset T) (x : T) : Finset T := insert x vec

/-- The order in which each `std::unordered_set` is walked. -/
structure Walk (T : Type) [DecidableEq T] where
  order : Finset T → List T
  all : ∀ s, (order s).toFinset = s

/-- `std::unordered_set<T>`. -/
def Casts.unorderedSet [Nodes N] [DecidableEq T] (yaml : YamlCpp N) (element : Casts T) (walk : Walk T) :
    Casts (Finset T) where
  toStr v := printItems yaml element (walk.order v)
  fromStr := castSequence yaml element insertElement ∅

/-! ## Maps -/

/-- `node[key] = value`. -/
def assignKey (key : Text) (value : N) : List (Text × N) → List (Text × N)
  | [] => [(key, value)]
  | e :: rest => if e.1 = key then (key, value) :: rest else e :: assignKey key value rest

/-- The loop that prints, loads and assigns each value. -/
def assignEach (yaml : YamlCpp N) (element : Casts T) : List (Text × T) → List (Text × N) →
    Except Thrown (List (Text × N))
  | [], entries => pure entries
  | i :: rest, entries => do
    let text ← element.toStr i.2
    let node ← yaml.loadNode text
    assignEach yaml element rest (assignKey i.1 node entries)

def printEntries [Nodes N] (yaml : YamlCpp N) (element : Casts T) (v : List (Text × T)) : Except Thrown Text := do
  let entries ← assignEach yaml element v []
  pure (yaml.emit (Nodes.ofEntries entries))

/-- The loop over the entries. -/
def castEntries (yaml : YamlCpp N) (element : Casts T) (add : V → Text × T → V) : List (Text × N) → V →
    Except Thrown V
  | [], vec => pure vec
  | e :: rest, vec => do
    let value ← element.fromStr (yaml.emit e.2)
    castEntries yaml element add rest (add vec (e.1, value))

def castMap [Nodes N] (yaml : YamlCpp N) (element : Casts T) (add : V → Text × T → V) (empty : V) (v : Text) :
    Except Thrown V := do
  let node ← yaml.loadNode v
  let entries ← Nodes.entries node
  castEntries yaml element add entries empty

/-- The order of a `std::map`. -/
def keyLt (p q : Text × T) : Prop := p.1 < q.1

instance : DecidableRel (keyLt (T := T)) := fun p q => inferInstanceAs (Decidable (p.1 < q.1))

instance : IsStrictOrder (Text × T) keyLt where
  irrefl p := lt_irrefl p.1
  trans p q r := lt_trans (a := p.1) (b := q.1) (c := r.1)

/-- `std::map<std::string, T>`. -/
def Casts.map [Nodes N] (yaml : YamlCpp N) (element : Casts T) : Casts (Ordered (keyLt (T := T))) where
  toStr v := printEntries yaml element v.elems
  fromStr := castMap yaml element Ordered.insert .empty

/-- A `std::unordered_map<std::string, T>`. -/
abbrev UnorderedMap (T : Type) := Finmap fun _ : Text => T

/-- `insert`; a key that is there keeps its value. -/
def UnorderedMap.insertNew (m : UnorderedMap T) (p : Text × T) : UnorderedMap T :=
  if p.1 ∈ m then m else Finmap.insert p.1 p.2 m

/-- The order in which each `std::unordered_map` is walked. -/
structure MapWalk (T : Type) where
  order : UnorderedMap T → List (Text × T)
  keys : ∀ m, ((order m).map Prod.fst).Nodup
  all : ∀ m key, (order m).lookup key = m.lookup key

/-- `std::unordered_map<std::string, T>`. -/
def Casts.unorderedMap [Nodes N] (yaml : YamlCpp N) (element : Casts T) (walk : MapWalk T) :
    Casts (UnorderedMap T) where
  toStr v := printEntries yaml element (walk.order v)
  fromStr := castMap yaml element UnorderedMap.insertNew ∅

/-! ## The law -/

/-- A value comes back after its text has been loaded and printed. -/
def Casts.Survives (yaml : YamlCpp) (casts : Casts T) : Prop :=
  ∀ x, (do let text ← casts.toStr x
           let node ← yaml.loadNode text
           casts.fromStr (yaml.emit node)) = .ok x

/-- The same of one value. -/
def Casts.Keeps (yaml : YamlCpp) (casts : Casts T) (x : T) : Prop :=
  (do let text ← casts.toStr x
      let node ← yaml.loadNode text
      casts.fromStr (yaml.emit node)) = .ok x

/-- A value comes back from its text. -/
def Casts.Returns (casts : Casts T) : Prop := ∀ x, (casts.toStr x >>= casts.fromStr) = .ok x

/-- A value is written as a node, and read from it. -/
def Casts.Writes (yaml : YamlCpp) (casts : Casts T) : Prop :=
  ∀ x, ∃ node, casts.toStr x = .ok (yaml.emit node) ∧ casts.fromStr (yaml.emit node) = .ok x

variable {casts : Casts T} {element : Casts T}

theorem Casts.Writes.survives (writes : casts.Writes yaml) (undoes : ∀ node, yaml.Undoes node) :
    casts.Survives yaml := by
  intro x
  obtain ⟨node, written, read⟩ := writes x
  rw [written]
  show (yaml.loadNode (yaml.emit node) >>= fun node => casts.fromStr (yaml.emit node)) = .ok x
  rw [(undoes node).loadNode]
  exact read

theorem Casts.Writes.returns (writes : casts.Writes yaml) : casts.Returns := by
  intro x
  obtain ⟨node, written, read⟩ := writes x
  rw [written]
  exact read

theorem Casts.Survives.keeps (survives : element.Survives yaml) (x : T) : element.Keeps yaml x := survives x

/-- The node an element is loaded into. -/
theorem Casts.Keeps.loaded {x : T} (back : element.Keeps yaml x) :
    ∃ text node, element.toStr x = .ok text ∧ yaml.loadNode text = .ok node ∧
      element.fromStr (yaml.emit node) = .ok x := by
  unfold Casts.Keeps at back
  cases printed : element.toStr x with
  | error e =>
    rw [printed] at back
    cases back
  | ok text =>
    rw [printed] at back
    change (yaml.loadNode text >>= fun node => element.fromStr (yaml.emit node)) = .ok x at back
    cases loaded : yaml.loadNode text with
    | error e =>
      rw [loaded] at back
      cases back
    | ok node =>
      rw [loaded] at back
      exact ⟨text, node, rfl, loaded, back⟩

/-! ## One container -/

theorem loadEach_eq {xs : List T} (keeps : ∀ x ∈ xs, element.Keeps yaml x) :
    ∃ nodes, loadEach yaml element xs = .ok nodes ∧
      List.Forall₂ (fun x node => element.fromStr (yaml.emit node) = .ok x) xs nodes := by
  induction xs with
  | nil => exact ⟨[], rfl, .nil⟩
  | cons x xs ih =>
    obtain ⟨nodes, rest, reads⟩ := ih fun y member => keeps y (List.mem_cons_of_mem x member)
    obtain ⟨text, node, printed, loaded, read⟩ := (keeps x List.mem_cons_self).loaded
    refine ⟨node :: nodes, ?_, .cons read reads⟩
    simp only [loadEach, printed, loaded, rest, bind, Except.bind, pure, Except.pure]

theorem castItems_eq {add : V → T → V} {xs : List T} {nodes : List Node}
    (reads : List.Forall₂ (fun x node => element.fromStr (yaml.emit node) = .ok x) xs nodes) (vec : V) :
    castItems yaml element add (nodes.map some) vec = .ok (xs.foldl add vec) := by
  induction reads generalizing vec with
  | nil => rfl
  | cons read _ ih =>
    rw [List.map_cons, castItems, Option.elim_some, read]
    exact ih _

/-- What a sequence prints is read as its elements, added one by one. -/
theorem printItems_eq (undoes : ∀ node, yaml.Undoes node) (add : V → T → V) (empty : V) {xs : List T}
    (keeps : ∀ x ∈ xs, element.Keeps yaml x) :
    ∃ node, printItems yaml element xs = .ok (yaml.emit node) ∧
      castSequence yaml element add empty (yaml.emit node) = .ok (xs.foldl add empty) := by
  obtain ⟨nodes, loaded, reads⟩ := loadEach_eq keeps
  refine ⟨.ofItems nodes, ?_, ?_⟩
  · rw [printItems, loaded]
    rfl
  · rw [castSequence, (undoes _).loadNode]
    show castItems yaml element add (Node.ofItems nodes).items empty = _
    rw [Node.items_ofItems, castItems_eq reads]

theorem assignKey_new {key : Text} {value : N} {entries : List (Text × N)}
    (new : key ∉ entries.map Prod.fst) : assignKey key value entries = entries ++ [(key, value)] := by
  induction entries with
  | nil => rfl
  | cons e entries ih =>
    simp only [List.map_cons, List.mem_cons, not_or] at new
    rw [assignKey, if_neg (Ne.symm new.1), ih new.2, List.cons_append]

/-- An entry that is read as this pair. -/
def ReadsAs (yaml : YamlCpp) (element : Casts T) (x : Text × T) (e : Text × Node) : Prop :=
  e.1 = x.1 ∧ element.fromStr (yaml.emit e.2) = .ok x.2

theorem assignEach_eq {xs : List (Text × T)} (keeps : ∀ x ∈ xs, element.Keeps yaml x.2)
    (entries : List (Text × Node)) (keys : (entries.map Prod.fst ++ xs.map Prod.fst).Nodup) :
    ∃ more, assignEach yaml element xs entries = .ok (entries ++ more) ∧
      List.Forall₂ (ReadsAs yaml element) xs more := by
  induction xs generalizing entries with
  | nil => exact ⟨[], by simp [assignEach, pure, Except.pure], .nil⟩
  | cons x xs ih =>
    obtain ⟨text, node, printed, loaded, read⟩ := (keeps x List.mem_cons_self).loaded
    have new : x.1 ∉ entries.map Prod.fst := by
      intro there
      exact (List.nodup_append.mp keys).2.2 _ there _ List.mem_cons_self rfl
    have later : ∀ y ∈ xs, element.Keeps yaml y.2 := fun y member => keeps y (List.mem_cons_of_mem x member)
    obtain ⟨more, rest, reads⟩ := ih later (entries ++ [(x.1, node)]) (by simpa using keys)
    refine ⟨(x.1, node) :: more, ?_, .cons ⟨rfl, read⟩ reads⟩
    simp only [assignEach, printed, loaded, bind, Except.bind, assignKey_new new, rest]
    simp

theorem castEntries_eq {add : V → Text × T → V} {xs : List (Text × T)} {entries : List (Text × Node)}
    (reads : List.Forall₂ (ReadsAs yaml element) xs entries) (vec : V) :
    castEntries yaml element add entries vec = .ok (xs.foldl add vec) := by
  induction reads generalizing vec with
  | nil => rfl
  | cons read _ ih =>
    obtain ⟨key, value⟩ := read
    rw [castEntries, value, key]
    exact ih _

theorem entries_ofEntries (entries : List (Text × Node)) : (Node.ofEntries entries).entries = .ok entries := by
  cases entries <;> rfl

/-- What a map prints is read as its pairs, added one by one. -/
theorem printEntries_eq (undoes : ∀ node, yaml.Undoes node) (add : V → Text × T → V) (empty : V)
    {xs : List (Text × T)} (keeps : ∀ x ∈ xs, element.Keeps yaml x.2) (keys : (xs.map Prod.fst).Nodup) :
    ∃ node, printEntries yaml element xs = .ok (yaml.emit node) ∧
      castMap yaml element add empty (yaml.emit node) = .ok (xs.foldl add empty) := by
  obtain ⟨entries, assigned, reads⟩ := assignEach_eq keeps [] (by simpa using keys)
  refine ⟨.ofEntries entries, ?_, ?_⟩
  · rw [printEntries, assigned]
    rfl
  · rw [castMap, (undoes _).loadNode]
    show ((Node.ofEntries entries).entries >>= fun entries => castEntries yaml element add entries empty) = _
    rw [entries_ofEntries]
    exact castEntries_eq reads empty

/-! ## Adding the elements of a container makes that container -/

theorem foldl_pushBack (xs vec : List T) : xs.foldl pushBack vec = vec ++ xs := by
  induction xs generalizing vec with
  | nil => exact (List.append_nil vec).symm
  | cons x xs ih => rw [List.foldl_cons, ih, pushBack, List.append_assoc, List.singleton_append]

theorem mem_foldl_insertElement [DecidableEq T] (xs : List T) (vec : Finset T) (x : T) :
    x ∈ xs.foldl insertElement vec ↔ x ∈ vec ∨ x ∈ xs := by
  induction xs generalizing vec with
  | nil => simp
  | cons y xs ih =>
    rw [List.foldl_cons, ih]
    simp only [insertElement, Finset.mem_insert, List.mem_cons]
    tauto

theorem Walk.foldl_insertElement [DecidableEq T] (walk : Walk T) (s : Finset T) :
    (walk.order s).foldl insertElement ∅ = s := by
  ext x
  rw [mem_foldl_insertElement, ← List.mem_toFinset, walk.all]
  simp

theorem lookup_insertNew (m : UnorderedMap T) (p : Text × T) (key : Text) :
    (m.insertNew p).lookup key = (m.lookup key).or (if p.1 = key then some p.2 else none) := by
  unfold UnorderedMap.insertNew
  split
  · next there =>
    obtain ⟨value, there⟩ := Finmap.mem_iff.mp there
    by_cases same : p.1 = key
    · subst same
      simp [there]
    · simp [same]
  · next new =>
    by_cases same : p.1 = key
    · subst same
      simp [Finmap.lookup_eq_none.mpr new]
    · simp [Finmap.lookup_insert_of_ne m (Ne.symm same), same]

theorem lookup_foldl_insertNew (xs : List (Text × T)) (m : UnorderedMap T) (key : Text) :
    (xs.foldl UnorderedMap.insertNew m).lookup key = (m.lookup key).or (xs.lookup key) := by
  induction xs generalizing m with
  | nil => simp
  | cons x xs ih =>
    rw [List.foldl_cons, ih, lookup_insertNew, Option.or_assoc]
    congr 1
    obtain ⟨first, value⟩ := x
    by_cases same : first = key
    · simp [same]
    · have differ : (key == first) = false := beq_eq_false_iff_ne.mpr (Ne.symm same)
      simp [List.lookup_cons, same, differ]

theorem MapWalk.foldl_insertNew (walk : MapWalk T) (m : UnorderedMap T) :
    (walk.order m).foldl UnorderedMap.insertNew ∅ = m := by
  apply Finmap.ext_lookup
  intro key
  rw [lookup_foldl_insertNew, walk.all]
  simp

theorem keys_nodup (m : Ordered (keyLt (T := T))) : (m.elems.map Prod.fst).Nodup := by
  have less : (m.elems.map Prod.fst).Pairwise (· < ·) := List.pairwise_map.mpr m.sorted
  exact less.imp ne_of_lt

/-! ## Nesting -/

/-- The six containers of elements of one type. -/
inductive OneOf (yaml : YamlCpp) (element : Casts T) : {U : Type} → Casts U → Prop
  | vector : OneOf yaml element (element.vector yaml)
  | list : OneOf yaml element (element.list yaml)
  | set (lt : T → T → Prop) [DecidableRel lt] [IsStrictOrder T lt] : OneOf yaml element (element.set yaml lt)
  | unorderedSet [DecidableEq T] (walk : Walk T) : OneOf yaml element (element.unorderedSet yaml walk)
  | map : OneOf yaml element (element.map yaml)
  | unorderedMap (walk : MapWalk T) : OneOf yaml element (element.unorderedMap yaml walk)

/-- The types built from one by nesting containers. -/
inductive Nested (yaml : YamlCpp) (base : Casts T) : {U : Type} → Casts U → Prop
  | one {U : Type} {casts : Casts U} : OneOf yaml base casts → Nested yaml base casts
  | more {U V : Type} {inner : Casts U} {casts : Casts V} :
      Nested yaml base inner → OneOf yaml inner casts → Nested yaml base casts

/-- A container of elements with the law is written as a node. -/
theorem OneOf.writes {casts : Casts U} (one : OneOf yaml element casts) (undoes : ∀ node, yaml.Undoes node)
    (survives : element.Survives yaml) : casts.Writes yaml := by
  cases one with
  | vector =>
    intro x
    have items := printItems_eq undoes pushBack [] fun i (_ : i ∈ x) => survives.keeps i
    rwa [foldl_pushBack] at items
  | list =>
    intro x
    have items := printItems_eq undoes pushBack [] fun i (_ : i ∈ x) => survives.keeps i
    rwa [foldl_pushBack] at items
  | set lt =>
    intro x
    have items := printItems_eq undoes (Ordered.insert : Ordered lt → _ → _) .empty
      fun i (_ : i ∈ x.elems) => survives.keeps i
    rwa [Ordered.foldl_insert] at items
  | unorderedSet walk =>
    intro x
    have items := printItems_eq undoes insertElement ∅ fun i (_ : i ∈ walk.order x) => survives.keeps i
    rwa [walk.foldl_insertElement] at items
  | map =>
    intro x
    have entries := printEntries_eq undoes (Ordered.insert : Ordered keyLt → _ → _) .empty
      (fun i _ => survives.keeps i.2) (keys_nodup x)
    rwa [Ordered.foldl_insert] at entries
  | unorderedMap walk =>
    intro x
    have entries := printEntries_eq undoes UnorderedMap.insertNew ∅ (fun i _ => survives.keeps i.2) (walk.keys x)
    rwa [walk.foldl_insertNew] at entries

/-- The induction over the nesting. -/
theorem Nested.writes {casts : Casts U} (nested : Nested yaml element casts) (undoes : ∀ node, yaml.Undoes node)
    (survives : element.Survives yaml) : casts.Writes yaml := by
  induction nested with
  | one one => exact one.writes undoes survives
  | more _ one ih => exact one.writes undoes (ih.survives undoes)

/-! ## Variables -/

/-- `setValue`, both sections. -/
def ConfigVar.setValue [BEq T] (s : ConfigVar T) (cbs : Finset ListenerId) (t : Tid) (v : T) : ConfigVar T :=
  if v == s.val then s else { notify cbs s t v with val := v, calls := s.calls }

/-- `ConfigVar::toString`; the text is empty after an exception. -/
def ConfigVar.toString (s : ConfigVar T) (casts : Casts T) : Text := (casts.toStr s.val).toOption.getD []

/-- `ConfigVar::fromString`; an exception is caught. -/
def ConfigVar.fromString [BEq T] (s : ConfigVar T) (casts : Casts T) (cbs : Finset ListenerId) (t : Tid)
    (val : Text) : ConfigVar T :=
  match casts.fromStr val with
  | .ok v => s.setValue cbs t v
  | .error _ => s

/-- `setValue` is a call of `notify` and, if there is a difference, `assign`. -/
theorem exec_setValue [BEq T] (s : ConfigVar T) (cbs : Finset ListenerId) (t : Tid) (v : T) (free : s.calls = []) :
    Run.exec (step cbs) s (if v == s.val then [.notify t v] else [.notify t v, .assign t]) =
      some (s.setValue cbs t v) := by
  unfold ConfigVar.setValue
  split
  · next same => simp [Run.exec, step, free, notify, same]
  · next differs => simp [Run.exec, step, free, notify, differs]

theorem Casts.Returns.fromString_toString [BEq T] [ReflBEq T] (returns : casts.Returns) (s : ConfigVar T)
    (cbs : Finset ListenerId) (t : Tid) : s.fromString casts cbs t (s.toString casts) = s := by
  have back := returns s.val
  unfold ConfigVar.fromString ConfigVar.toString
  cases printed : casts.toStr s.val with
  | error e =>
    rw [printed] at back
    cases back
  | ok text =>
    rw [printed] at back
    change casts.fromStr text = .ok s.val at back
    simp [Except.toOption, back, ConfigVar.setValue]

/-- `boost::lexical_cast` between `bool` and text. -/
def boolCasts : Casts Bool where
  toStr b := pure (if b then ['1'] else ['0'])
  fromStr
    | ['1'] => pure true
    | ['0'] => pure false
    | _ => throw .badCast

/-- A map and an empty one. -/
def maps : List (Ordered (keyLt (T := Bool))) :=
  [Ordered.empty.insert ("b".toList, false) |>.insert ("a".toList, true), .empty]

/-- The nodes written for them. -/
def mapsNodes : List Node :=
  let ab : Node := .map [("a".toList, .scalar ['1']), ("b".toList, .scalar ['0'])]
  [.scalar ['0'], .scalar ['1'], .null, ab, .seq [ab, .null]]

example : mapsNodes.map Node.block =
    [['0'], ['1'], ['~'], "a: 1\nb: 0".toList, "- a: 1\n  b: 0\n- ~".toList] := by decide +kernel

theorem mapsYaml_undoes (node : Node) : (YamlCpp.total mapsNodes).Undoes node :=
  total_undoes (by decide +kernel) (by decide +kernel) node

theorem boolCasts_survives : boolCasts.Survives (.total mapsNodes) := by
  have back (s : Text) (listed : Node.scalar s ∈ mapsNodes) :
      (YamlCpp.total mapsNodes).loadNode s = .ok (.scalar s) ∧ (YamlCpp.total mapsNodes).emit (.scalar s) = s := by
    have printed : (YamlCpp.total mapsNodes).emit (.scalar s) = s := by
      rw [total_emit listed]
      simp [Node.block, Node.lines, List.intercalate]
    constructor
    · rw [← printed, (mapsYaml_undoes _).loadNode, printed]
    · exact printed
  intro b
  cases b with
  | false =>
    obtain ⟨loaded, printed⟩ := back ['0'] (by simp [mapsNodes])
    simp [boolCasts, bind, Except.bind, pure, Except.pure, loaded, printed]
  | true =>
    obtain ⟨loaded, printed⟩ := back ['1'] (by simp [mapsNodes])
    simp [boolCasts, bind, Except.bind, pure, Except.pure, loaded, printed]

end Atpdxy.Config
