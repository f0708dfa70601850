import Atpdxy.Config.Exceptions
import Atpdxy.Config.Names
import Atpdxy.Yaml.Styled

/-!
# Strings in containers

A string of a container goes through the printer and the parser of YAML, where one that is
a variable itself does not (`config.h`, `config.cpp`). On the way in it is the printed
element, quotes and all, so it is the string only where that is printed plain
(`strings_alike`). On the way out its text is parsed before it is put into the
container, so it comes back only if that node is printed there as the same text, in the style
it was written in (`strings_survive`).
-/

namespace Atpdxy.Config

open Yaml Cpp

/-- The types of variables with strings. -/
inductive StringType
  | string
  | vector
  | list
  | set
  | map
  deriving DecidableEq, Repr

def StringType.Val : StringType → Type
  | .string => Text
  | .vector => List Text
  | .list => List Text
  | .set => Ordered fun a b : Text => a < b
  | .map => Ordered (keyLt (T := Text))

instance StringType.decidableEq : ∀ t : StringType, DecidableEq t.Val
  | .string => inferInstanceAs (DecidableEq Text)
  | .vector => inferInstanceAs (DecidableEq (List Text))
  | .list => inferInstanceAs (DecidableEq (List Text))
  | .set => inferInstanceAs (DecidableEq (Ordered fun a b : Text => a < b))
  | .map => inferInstanceAs (DecidableEq (Ordered keyLt))

/-- `boost::lexical_cast` between texts. -/
def stringCasts : Casts Text where
  toStr := pure
  fromStr := pure

def StringType.casts {N : Type} [Nodes N] (yaml : YamlCpp N) : ∀ t : StringType, Casts t.Val
  | .string => stringCasts
  | .vector => stringCasts.vector yaml
  | .list => stringCasts.list yaml
  | .set => stringCasts.set yaml fun a b : Text => a < b
  | .map => stringCasts.map yaml

/-- One string, behind the key in a map. -/
def StringType.node (key s : Text) : StringType → Node
  | .string => .scalar s
  | .vector | .list | .set => .seq [.scalar s]
  | .map => .map [(key, .scalar s)]

def StringType.single (key s : Text) : ∀ t : StringType, t.Val
  | .string => s
  | .vector => [s]
  | .list => [s]
  | .set => Ordered.empty.insert s
  | .map => Ordered.empty.insert (key, s)

variable {yaml : YamlCpp} {key s : Text} {t : StringType}

/-! ## Some nodes and their texts -/

/-- What nodes with a number, with an empty string and with nothing are printed as. -/
def nodeTexts : List (Node × Text) :=
  [(.null, ['~']), (.seq [.null], "- ~".toList), (.seq [.scalar []], "- \"\"".toList),
    (.seq [.scalar "80".toList], "- 80".toList), (.map [("k".toList, .scalar "80".toList)], "k: 80".toList)]

theorem nodeTexts_apart : Apart nodeTexts := ⟨by decide +kernel, by decide +kernel⟩

theorem nodeTexts_emit {g : Node × Text} (member : g ∈ nodeTexts) : (YamlCpp.quoting nodeTexts).emit g.1 = g.2 := by
  simp only [nodeTexts, List.mem_cons, List.not_mem_nil, or_false] at member
  obtain rfl | rfl | rfl | rfl | rfl := member <;> simp [YamlCpp.quoting, quoting, nodeTexts]

/-! ## Loading one string -/

/-- Loading a tree in which only this node has the variable's name makes the string its value. -/
def Yields (yaml : YamlCpp) (key s : Text) (t : StringType) : Prop :=
  ∀ (r : Registry StringType.Val) (ptr : Addr) (v : Variable StringType.Val) (name : Text) (root : Node)
    (path : List Text), Registered r → r.datas name = some ptr → r.heap ptr = some v → v.type = t →
    name ≠ [] → dotted path = name →
    ((nodes root).filter fun i => lower (dotted i.1) == name) = [(path, t.node key s)] →
    ∃ v', (r.loadFromYaml yaml (StringType.casts yaml) root).heap ptr = some v' ∧
      (⟨v'.type, v'.var.val⟩ : Sigma StringType.Val) = ⟨t, t.single key s⟩

/-- The text of a container is read as the printed element. -/
theorem fromStr_textOf (undoes : ∀ node, yaml.Undoes node) (key s : Text) (t : StringType) :
    (t.casts yaml).fromStr (textOf yaml (t.node key s)) =
      .ok (t.single key (if t = .string then s else yaml.emit (.scalar s))) := by
  have sequence : ∀ {V : Type} (add : V → Text → V) (empty : V),
      castSequence yaml stringCasts add empty (yaml.emit (.seq [.scalar s])) =
        .ok (add empty (yaml.emit (.scalar s))) := by
    intro V add empty
    rw [castSequence, (undoes _).loadNode]
    rfl
  cases t with
  | string => rfl
  | vector => exact sequence pushBack []
  | list => exact sequence pushBack []
  | set => exact sequence Ordered.insert .empty
  | map =>
    change castMap yaml stringCasts Ordered.insert .empty (yaml.emit (.map [(key, .scalar s)])) = _
    rw [castMap, (undoes _).loadNode]
    rfl

theorem single_injective (key : Text) (t : StringType) : Function.Injective fun s => t.single key s := by
  intro a b same
  cases t with
  | string => exact same
  | vector => exact List.singleton_injective same
  | list => exact List.singleton_injective same
  | set => exact List.singleton_injective (congrArg Ordered.elems same)
  | map => exact (Prod.mk.inj (List.singleton_injective (congrArg Ordered.elems same))).2

/-- What a variable of this type holds after its node has been loaded. -/
theorem loaded_val (undoes : ∀ node, yaml.Undoes node) (v : Variable StringType.Val) (key s : Text) :
    (v.fromString (StringType.casts yaml) (textOf yaml (v.type.node key s))).var.val =
      v.type.single key (if v.type = .string then s else yaml.emit (.scalar s)) := by
  have converted := fromStr_textOf undoes key s v.type
  change (v.var.fromString (v.type.casts yaml) v.cbs 0 (textOf yaml (v.type.node key s))).val = _
  rw [fromString_ok converted]
  obtain stored | equal := stores_setValue v.var v.cbs 0
    (v.type.single key (if v.type = .string then s else yaml.emit (.scalar s)))
  · exact stored
  · exact (eq_of_beq equal).symm

/-- One variable of the type, and a tree with one node. -/
theorem yields_iff (undoes : ∀ node, yaml.Undoes node) (key s : Text) (t : StringType) :
    Yields yaml key s t ↔ t = .string ∨ yaml.emit (.scalar s) = s := by
  have value : t.single key (if t = .string then s else yaml.emit (.scalar s)) = t.single key s ↔
      t = .string ∨ yaml.emit (.scalar s) = s := by
    rw [(single_injective key t).eq_iff]
    by_cases string : t = .string <;> simp [string]
  rw [← value]
  constructor
  · intro yields
    let r : Registry StringType.Val := ({} : Registry _).create ['x'] (.new t ['x'] (t.single key s) [])
    have registered : Registered r := Registered.start.create (invalid_eq_false.mp (by decide))
    have found : r.datas ['x'] = some 0 := rfl
    have only : ((nodes (.map [(['x'], t.node key s)])).filter fun i => lower (dotted i.1) == ['x']) =
        [([['x']], t.node key s)] := by cases t <;> rfl
    obtain ⟨v', there, same⟩ := yields r 0 _ ['x'] _ _ registered found rfl rfl (by decide) rfl only
    rw [load_single registered found rfl (by decide) only, if_pos (show dotted [['x']] = ['x'] from rfl)] at there
    obtain rfl := Option.some.inj there
    have values := eq_of_heq (Sigma.mk.inj same).2
    exact (loaded_val undoes _ key s).symm.trans values
  · rintro same r ptr v name root path registered found there rfl full named only
    refine ⟨_, load_single registered found there full only, ?_⟩
    rw [if_pos named]
    exact Sigma.ext rfl (heq_of_eq ((loaded_val undoes v key s).trans same))

/-- **Main result**: a string is loaded alike into a variable and into containers exactly when it is valid as
a plain scalar. -/
theorem strings_alike {plain : Text → Prop} (undoes : ∀ node, yaml.Undoes node) (quotes : yaml.Quotes plain)
    (key s : Text) : (∀ t, Yields yaml key s t) ↔ plain s := by
  rw [← quotes.emit_iff]
  constructor
  · intro yields
    exact ((yields_iff undoes key s .vector).mp (yields .vector)).resolve_left (by decide)
  · intro same t
    exact (yields_iff undoes key s t).mpr (.inr same)

theorem strings_alike_number :
    (∀ t, Yields (.quoting nodeTexts) ['k'] "80".toList t) ∧ Word "80".toList := by
  have word : Word "80".toList := by decide +kernel
  exact ⟨(strings_alike (quoting_undoes nodeTexts_apart) (quoting_quotes nodeTexts) ['k'] "80".toList).mpr word, word⟩

/-- The empty string of a sequence is read as its quotes. -/
theorem not_strings_alike :
    (YamlCpp.quoting nodeTexts).emit (.seq [.scalar []]) = "- \"\"".toList ∧
      (StringType.vector.casts (.quoting nodeTexts)).fromStr "- \"\"".toList = .ok ["\"\"".toList] ∧
      ¬ Yields (.quoting nodeTexts) ['k'] [] .vector := by
  have undoes := quoting_undoes nodeTexts_apart
  have printed : (YamlCpp.quoting nodeTexts).emit (.seq [.scalar []]) = "- \"\"".toList :=
    nodeTexts_emit (g := (.seq [.scalar []], "- \"\"".toList)) (by simp [nodeTexts])
  have quoted : (YamlCpp.quoting nodeTexts).emit (.scalar []) = "\"\"".toList := by
    simp [YamlCpp.quoting, quoting, quote, Word]
  have read := fromStr_textOf undoes ['k'] [] .vector
  refine ⟨printed, ?_, fun yields => ?_⟩
  · rw [← printed, ← quoted]
    exact read
  · have same := ((yields_iff undoes ['k'] [] .vector).mp yields).resolve_left (by decide)
    cases quoted.symm.trans same

/-! ## Printing a container and reading it -/

/-- The strings that are parsed before they are printed. -/
def StringType.elements : ∀ t : StringType, t.Val → List Text
  | .string, _ => []
  | .vector, v => v
  | .list, v => v
  | .set, v => v.elems
  | .map, v => v.elems.map Prod.snd

/-- The value is printed without an exception, and a variable that holds it holds it still after it has
been given its own text. -/
def RoundTrips {N : Type} [Nodes N] (yaml : YamlCpp N) (t : StringType) (v : t.Val) : Prop :=
  (∃ text, (t.casts yaml).toStr v = .ok text) ∧
    ∀ s : Exceptions.ConfigVar t.Val, s.m_val = v →
      (s.fromString (t.casts yaml) (s.toString (t.casts yaml))).1.m_val = v

section Styled

variable {L : Type} [Inhabited L] {yaml : YamlCpp (StyledNode L)} {xs : List Text} {entries : List (Text × Text)}
  {nodes : List (StyledNode L)} {made : List (Text × StyledNode L)} {V : Type}

/-- The node is what the text is loaded into. -/
def Loads (yaml : YamlCpp (StyledNode L)) (x : Text) (n : StyledNode L) : Prop := yaml.load x = some n

/-- The same of an entry and its value. -/
def LoadsEntry (yaml : YamlCpp (StyledNode L)) (x : Text × Text) (e : Text × StyledNode L) : Prop :=
  e.1 = x.1 ∧ Loads yaml x.2 e.2

/-- How a node is printed where it is put. -/
def printed (yaml : YamlCpp (StyledNode L)) (n : StyledNode L) : Text := yaml.emit n.written

omit [Inhabited L] in
theorem loadNode_eq_ok {x : Text} {n : StyledNode L} : yaml.loadNode x = .ok n ↔ Loads yaml x n := by
  rw [YamlCpp.loadNode, Loads]
  cases yaml.load x <;> simp

omit [Inhabited L] in
/-- The strings of a container are loaded as they are. -/
theorem loadEach_strings : loadEach yaml stringCasts xs = .ok nodes ↔ List.Forall₂ (Loads yaml) xs nodes := by
  induction xs generalizing nodes with
  | nil => cases nodes <;> simp [loadEach, pure, Except.pure]
  | cons x xs ih =>
    rw [loadEach]
    constructor
    · intro done
      obtain ⟨text, same, done⟩ := bind_eq_ok done
      obtain rfl := Except.ok.inj same
      obtain ⟨n, loaded, done⟩ := bind_eq_ok done
      obtain ⟨rest, later, done⟩ := bind_eq_ok done
      obtain rfl := Except.ok.inj done
      exact .cons (loadNode_eq_ok.mp loaded) (ih.mp later)
    · intro loads
      cases loads with
      | cons first rest =>
        change (yaml.loadNode x >>= fun node => loadEach yaml stringCasts xs >>= fun nodes => pure (node :: nodes)) = _
        rw [loadNode_eq_ok.mpr first, ih.mpr rest]
        rfl

omit [Inhabited L] in
/-- So are those of a map, whose keys are all different. -/
theorem assignEach_strings {assigned : List (Text × StyledNode L)}
    (keys : (assigned.map Prod.fst ++ entries.map Prod.fst).Nodup) :
    assignEach yaml stringCasts entries assigned = .ok made ↔
      ∃ more, made = assigned ++ more ∧ List.Forall₂ (LoadsEntry yaml) entries more := by
  induction entries generalizing assigned with
  | nil => simp [assignEach, pure, Except.pure, eq_comm]
  | cons x entries ih =>
    have new : x.1 ∉ assigned.map Prod.fst := fun there =>
      (List.nodup_append.mp keys).2.2 _ there _ List.mem_cons_self rfl
    have later : ∀ n : StyledNode L, ((assigned ++ [(x.1, n)]).map Prod.fst ++ entries.map Prod.fst).Nodup := by
      intro n
      simpa using keys
    rw [assignEach]
    constructor
    · intro done
      obtain ⟨text, same, done⟩ := bind_eq_ok done
      obtain rfl := Except.ok.inj same
      obtain ⟨n, loaded, done⟩ := bind_eq_ok done
      rw [assignKey_new new, ih (later n)] at done
      obtain ⟨more, rfl, loads⟩ := done
      exact ⟨(x.1, n) :: more, by simp, .cons ⟨rfl, loadNode_eq_ok.mp loaded⟩ loads⟩
    · rintro ⟨more, rfl, loads⟩
      cases loads with
      | @cons _ e _ more first rest =>
        obtain ⟨key, loaded⟩ := first
        change (yaml.loadNode x.2 >>= fun node => assignEach yaml stringCasts entries (assignKey x.1 node assigned)) = _
        rw [loadNode_eq_ok.mpr loaded]
        change assignEach yaml stringCasts entries (assignKey x.1 e.2 assigned) = _
        rw [assignKey_new new, ih (later e.2)]
        exact ⟨more, by simp [← key], rest⟩

omit [Inhabited L] in
/-- Items are read as they are printed; one that is not there is printed as nothing. -/
theorem castItems_strings (add : V → Text → V) (items : List (Option (StyledNode L))) (vec : V) :
    castItems yaml stringCasts add items vec =
      .ok (((items.map (Option.map yaml.emit)).map fun text => text.getD []).foldl add vec) := by
  induction items generalizing vec with
  | nil => rfl
  | cons item items ih =>
    cases item with
    | none => exact ih (add vec [])
    | some n => exact ih (add vec (yaml.emit n))

omit [Inhabited L] in
theorem castEntries_strings (add : V → Text × Text → V) (es : List (Text × StyledNode L)) (vec : V) :
    castEntries yaml stringCasts add es vec = .ok ((es.map (Prod.map id yaml.emit)).foldl add vec) := by
  induction es generalizing vec with
  | nil => rfl
  | cons e es ih => exact ih (add vec (e.1, yaml.emit e.2))

theorem made_nodes (loads : List.Forall₂ (Loads yaml) xs nodes) : ∀ n ∈ nodes, yaml.Made n := by
  induction loads with
  | nil => simp
  | cons first _ ih => exact List.forall_mem_cons.mpr ⟨.load first, ih⟩

theorem made_entries (loads : List.Forall₂ (LoadsEntry yaml) entries made) :
    made.map Prod.fst = entries.map Prod.fst ∧ ∀ e ∈ made, yaml.Made e.2 := by
  induction loads with
  | nil => simp
  | cons first _ ih =>
    obtain ⟨keys, each⟩ := ih
    exact ⟨by rw [List.map_cons, List.map_cons, first.1, keys], List.forall_mem_cons.mpr ⟨.load first.2, each⟩⟩

/-! ### What is printed -/

theorem printItems_strings {text : Text} : printItems yaml stringCasts xs = .ok text ↔
    ∃ nodes, List.Forall₂ (Loads yaml) xs nodes ∧ text = yaml.emit (.ofItems nodes) := by
  constructor
  · intro done
    obtain ⟨nodes, loaded, same⟩ := bind_eq_ok done
    exact ⟨nodes, loadEach_strings.mp loaded, (Except.ok.inj same).symm⟩
  · rintro ⟨nodes, loads, rfl⟩
    rw [printItems, loadEach_strings.mpr loads]
    rfl

theorem printEntries_strings {text : Text} (keys : (entries.map Prod.fst).Nodup) :
    printEntries yaml stringCasts entries = .ok text ↔
      ∃ made, List.Forall₂ (LoadsEntry yaml) entries made ∧ text = yaml.emit (.ofEntries made) := by
  have assigned (made : List (Text × StyledNode L)) :
      assignEach yaml stringCasts entries [] = .ok made ↔ List.Forall₂ (LoadsEntry yaml) entries made := by
    have fresh : (([] : List (Text × StyledNode L)).map Prod.fst ++ entries.map Prod.fst).Nodup := keys
    rw [assignEach_strings fresh]
    simp
  constructor
  · intro done
    obtain ⟨made, loaded, same⟩ := bind_eq_ok done
    exact ⟨made, (assigned made).mp loaded, (Except.ok.inj same).symm⟩
  · rintro ⟨made, loads, rfl⟩
    rw [printEntries, (assigned made).mpr loads]
    rfl

/-! ### What is read -/

/-- Each element is read as its node is printed in the sequence. -/
theorem castSequence_strings (restores : yaml.Restores) (add : V → Text → V) (empty : V)
    (loads : List.Forall₂ (Loads yaml) xs nodes) :
    castSequence yaml stringCasts add empty (yaml.emit (.ofItems nodes)) =
      .ok ((nodes.map (printed yaml)).foldl add empty) := by
  obtain ⟨m, loaded, alike⟩ := restores _ (.ofItems (made_nodes loads))
  rw [castSequence, loadNode_eq_ok.mpr loaded]
  change castItems yaml stringCasts add m.items empty = _
  rw [castItems_strings, alike.items, StyledNode.items_ofItems]
  simp only [List.map_map]
  rfl

/-- Each value is read as its node is printed in the map. -/
theorem castMap_strings (restores : yaml.Restores) (add : V → Text × Text → V) (empty : V)
    (keys : (entries.map Prod.fst).Nodup) (loads : List.Forall₂ (LoadsEntry yaml) entries made) :
    castMap yaml stringCasts add empty (yaml.emit (.ofEntries made)) =
      .ok ((made.map (Prod.map id (printed yaml))).foldl add empty) := by
  obtain ⟨same, each⟩ := made_entries loads
  obtain ⟨m, loaded, alike⟩ := restores _ (.ofEntries (same ▸ keys) each)
  have read := alike.entries
  rw [StyledNode.entries_ofEntries] at read
  rw [castMap, loadNode_eq_ok.mpr loaded]
  change (m.entries >>= fun es => castEntries yaml stringCasts add es empty) = _
  cases found : m.entries with
  | error e =>
    rw [found] at read
    cases read
  | ok es =>
    rw [found] at read
    change castEntries yaml stringCasts add es empty = _
    rw [castEntries_strings, show es.map (Prod.map id yaml.emit) = _ from Except.ok.inj read, List.map_map]
    rfl

/-! ### A container of strings that are printed back -/

theorem printsBack_nodes (back : ∀ x ∈ xs, yaml.PrintsBack x) :
    ∃ nodes, List.Forall₂ (Loads yaml) xs nodes ∧ nodes.map (printed yaml) = xs := by
  induction xs with
  | nil => exact ⟨[], .nil, rfl⟩
  | cons x xs ih =>
    obtain ⟨⟨n, loaded, same⟩, later⟩ := List.forall_mem_cons.mp back
    obtain ⟨nodes, loads, rest⟩ := ih later
    exact ⟨n :: nodes, .cons loaded loads, by rw [List.map_cons, rest, printed, same]⟩

theorem printsBack_entries (back : ∀ x ∈ entries.map Prod.snd, yaml.PrintsBack x) :
    ∃ made, List.Forall₂ (LoadsEntry yaml) entries made ∧ made.map (Prod.map id (printed yaml)) = entries := by
  induction entries with
  | nil => exact ⟨[], .nil, rfl⟩
  | cons x entries ih =>
    obtain ⟨⟨n, loaded, same⟩, later⟩ := List.forall_mem_cons.mp back
    obtain ⟨made, loads, rest⟩ := ih later
    refine ⟨(x.1, n) :: made, .cons ⟨rfl, loaded⟩ loads, ?_⟩
    rw [List.map_cons, rest, Prod.map, printed, same]
    rfl

theorem printItems_back (restores : yaml.Restores) (add : V → Text → V) (empty : V)
    (back : ∀ x ∈ xs, yaml.PrintsBack x) :
    ∃ text, printItems yaml stringCasts xs = .ok text ∧
      castSequence yaml stringCasts add empty text = .ok (xs.foldl add empty) := by
  obtain ⟨nodes, loads, same⟩ := printsBack_nodes back
  have read := castSequence_strings restores add empty loads
  rw [same] at read
  exact ⟨_, printItems_strings.mpr ⟨nodes, loads, rfl⟩, read⟩

theorem printEntries_back (restores : yaml.Restores) (add : V → Text × Text → V) (empty : V)
    (keys : (entries.map Prod.fst).Nodup) (back : ∀ x ∈ entries.map Prod.snd, yaml.PrintsBack x) :
    ∃ text, printEntries yaml stringCasts entries = .ok text ∧
      castMap yaml stringCasts add empty text = .ok (entries.foldl add empty) := by
  obtain ⟨made, loads, same⟩ := printsBack_entries back
  have read := castMap_strings restores add empty keys loads
  rw [same] at read
  exact ⟨_, (printEntries_strings keys).mpr ⟨made, loads, rfl⟩, read⟩

/-- Such a container comes back. -/
theorem string_writes {t : StringType} (restores : yaml.Restores) (v : t.Val)
    (back : ∀ x ∈ t.elements v, yaml.PrintsBack x) :
    ∃ text, (t.casts yaml).toStr v = .ok text ∧ (t.casts yaml).fromStr text = .ok v := by
  cases t with
  | string => exact ⟨v, rfl, rfl⟩
  | vector | list =>
    obtain ⟨text, written, read⟩ := printItems_back restores pushBack [] back
    rw [foldl_pushBack] at read
    exact ⟨text, written, read⟩
  | set =>
    obtain ⟨text, written, read⟩ :=
      printItems_back restores (Ordered.insert : Ordered (fun a b : Text => a < b) → _ → _) .empty back
    exact ⟨text, written, read.trans (congrArg Except.ok (Ordered.foldl_insert (v : Ordered fun a b : Text => a < b)))⟩
  | map =>
    obtain ⟨text, written, read⟩ :=
      printEntries_back restores (Ordered.insert : Ordered (keyLt (T := Text)) → _ → _) .empty (keys_nodup v) back
    exact ⟨text, written, read.trans (congrArg Except.ok (Ordered.foldl_insert (v : Ordered (keyLt (T := Text)))))⟩

/-! ### What has been printed once -/

theorem printItems_reads {text : Text} (restores : yaml.Restores) (add : V → Text → V) (empty : V)
    (written : printItems yaml stringCasts xs = .ok text) :
    ∃ ys : List Text, castSequence yaml stringCasts add empty text = .ok (ys.foldl add empty) ∧
      ∀ y ∈ ys, yaml.PrintsBack y := by
  obtain ⟨nodes, loads, rfl⟩ := printItems_strings.mp written
  refine ⟨_, castSequence_strings restores add empty loads, fun y member => ?_⟩
  obtain ⟨n, there, rfl⟩ := List.mem_map.mp member
  exact restores.printsBack (made_nodes loads n there)

theorem printEntries_reads {text : Text} (restores : yaml.Restores) (add : V → Text × Text → V) (empty : V)
    (keys : (entries.map Prod.fst).Nodup) (written : printEntries yaml stringCasts entries = .ok text) :
    ∃ es : List (Text × Text), castMap yaml stringCasts add empty text = .ok (es.foldl add empty) ∧
      ∀ e ∈ es, yaml.PrintsBack e.2 := by
  obtain ⟨made, loads, rfl⟩ := (printEntries_strings keys).mp written
  refine ⟨_, castMap_strings restores add empty keys loads, fun e member => ?_⟩
  obtain ⟨m, there, rfl⟩ := List.mem_map.mp member
  exact restores.printsBack ((made_entries loads).2 m there)

/-- Whatever is printed is read, as a container of strings that are printed back. -/
theorem string_reads {t : StringType} {v : t.Val} {text : Text} (restores : yaml.Restores)
    (written : (t.casts yaml).toStr v = .ok text) :
    ∃ w, (t.casts yaml).fromStr text = .ok w ∧ ∀ x ∈ t.elements w, yaml.PrintsBack x := by
  cases t with
  | string => exact ⟨text, rfl, fun x member => (List.not_mem_nil member).elim⟩
  | vector | list =>
    obtain ⟨ys, read, back⟩ := printItems_reads restores pushBack [] written
    rw [foldl_pushBack] at read
    exact ⟨ys, read, back⟩
  | set =>
    obtain ⟨ys, read, back⟩ :=
      printItems_reads restores (Ordered.insert : Ordered (fun a b : Text => a < b) → _ → _) .empty written
    exact ⟨_, read, fun x member => back x ((Ordered.mem_foldl_insert member).resolve_left List.not_mem_nil)⟩
  | map =>
    obtain ⟨es, read, back⟩ :=
      printEntries_reads restores (Ordered.insert : Ordered (keyLt (T := Text)) → _ → _) .empty (keys_nodup v) written
    refine ⟨_, read, fun x member => ?_⟩
    obtain ⟨e, there, rfl⟩ := List.mem_map.mp member
    exact back e ((Ordered.mem_foldl_insert there).resolve_left List.not_mem_nil)

omit [Inhabited L] in
/-- `fromString` with a text that converts. -/
theorem fromString_toString {N : Type} [Nodes N] {yaml : YamlCpp N} {t : StringType} {s : Exceptions.ConfigVar t.Val}
    {text : Text} {w : t.Val} (written : (t.casts yaml).toStr s.m_val = .ok text)
    (read : (t.casts yaml).fromStr text = .ok w) :
    (s.fromString (t.casts yaml) (s.toString (t.casts yaml))).1 = (s.setValue w).1 := by
  rw [Exceptions.ConfigVar.toString, written]
  exact Exceptions.update_ok (u := .fromString text) read

/-- **Main result**: a collection of strings survives `toString` and `fromString` exactly when yaml-cpp loads each of
its elements and prints the node back, in the container, as it was. -/
theorem strings_survive (restores : yaml.Restores) (t : StringType) (v : t.Val) :
    RoundTrips yaml t v ↔ ∀ x ∈ t.elements v, yaml.PrintsBack x := by
  constructor
  · rintro ⟨⟨text, written⟩, unchanged⟩
    obtain ⟨w, read, back⟩ := string_reads restores written
    -- a variable without listeners
    have same := unchanged { m_val := v } rfl
    rw [fromString_toString written read] at same
    by_cases equal : (w == v) = true
    · rwa [eq_of_beq equal] at back
    · rw [Exceptions.setValue_quiet (Bool.eq_false_iff.mpr equal) rfl] at same
      rwa [show w = v from same] at back
  · intro back
    obtain ⟨text, written, read⟩ := string_writes restores v back
    refine ⟨⟨text, written⟩, ?_⟩
    rintro s rfl
    rw [fromString_toString written read, Exceptions.setValue_same BEq.rfl]

end Styled

/-! ### Two lists and a number, and an empty string -/

/-- A list in flow style, one in block style, and a number, with the nodes that are made of them. -/
def styledTexts : List (StyledNode Style × Text) :=
  let a : StyledNode Style := .scalar .block ['a']
  let b : StyledNode Style := .scalar .block ['b']
  let number : StyledNode Style := .scalar .block "80".toList
  [(.unwritten, []), (.null .block, ['~']), (.seq .block [.null .block], "- ~".toList), (number, "80".toList),
    (.seq .flow [a, b], "[a, b]".toList), (.seq .block [a, b], "- a\n- b".toList),
    (.seq .block [.seq .flow [a, b], .seq .block [a, b], number], "- [a, b]\n-\n  - a\n  - b\n- 80".toList)]

theorem styledTexts_table : Table styledTexts := ⟨by simp [styledTexts], by decide +kernel, by decide +kernel⟩

/-- A node that is given its text is printed back. -/
theorem styledTexts_printsBack {g : StyledNode Style × Text} (member : g ∈ styledTexts) (there : g.1.written = g.1) :
    (YamlCpp.styled styledTexts).PrintsBack g.2 :=
  ⟨g.1, styledTexts_table.load member, by rw [there, styledTexts_table.emit member]⟩

/-- Each list comes back in its style. -/
theorem strings_survive_lists :
    RoundTrips (.styled styledTexts) .vector ["[a, b]".toList, "- a\n- b".toList, "80".toList] := by
  refine (strings_survive styledTexts_table.restores .vector _).mpr ?_
  have flow := styledTexts_printsBack (g := (.seq .flow [.scalar .block ['a'], .scalar .block ['b']], "[a, b]".toList))
    (by simp [styledTexts]) rfl
  have block := styledTexts_printsBack
    (g := (.seq .block [.scalar .block ['a'], .scalar .block ['b']], "- a\n- b".toList)) (by simp [styledTexts]) rfl
  have number := styledTexts_printsBack (g := (.scalar .block "80".toList, "80".toList)) (by simp [styledTexts]) rfl
  exact List.forall_mem_cons.mpr ⟨flow, List.forall_mem_cons.mpr ⟨block, List.forall_mem_singleton.mpr number⟩⟩

/-- A vector with an empty string. -/
def blank : Exceptions.ConfigVar StringType.vector.Val where
  m_val := ([[]] : List Text)

/-- The empty string is loaded as a node that is not there, and comes back as the text of null. -/
theorem not_strings_survive :
    blank.toString (StringType.vector.casts (.styled styledTexts)) = "- ~".toList ∧
      (blank.fromString (StringType.vector.casts (.styled styledTexts)) "- ~".toList).1.m_val =
        ([['~']] : List Text) ∧
      ¬ RoundTrips (.styled styledTexts) .vector ([[]] : List Text) := by
  have restores := styledTexts_table.restores
  have unwritten : Loads (.styled styledTexts) [] .unwritten :=
    styledTexts_table.load (g := (.unwritten, [])) (by simp [styledTexts])
  have null : (YamlCpp.styled styledTexts).emit (.null .block) = ['~'] :=
    styledTexts_table.emit (g := (.null .block, ['~'])) (by simp [styledTexts])
  have nulls : (YamlCpp.styled styledTexts).emit (.ofItems [.unwritten]) = "- ~".toList :=
    styledTexts_table.emit (g := (.seq .block [.null .block], "- ~".toList)) (by simp [styledTexts])
  have loads : List.Forall₂ (Loads (.styled styledTexts)) [[]] [.unwritten] := .cons unwritten .nil
  have written : (StringType.vector.casts (.styled styledTexts)).toStr ([[]] : List Text) = .ok "- ~".toList :=
    printItems_strings.mpr ⟨_, loads, nulls.symm⟩
  have read : (StringType.vector.casts (.styled styledTexts)).fromStr "- ~".toList = .ok ([['~']] : List Text) := by
    have cast := castSequence_strings restores pushBack [] loads
    rw [nulls, foldl_pushBack, List.map_singleton, printed, show StyledNode.unwritten.written = .null .block from rfl,
      null] at cast
    exact cast
  have update := Exceptions.update_ok (s := blank) (u := .fromString "- ~".toList) read
  have assigned := Exceptions.setValue_quiet (s := blank) (v := ([['~']] : List Text)) (by decide +kernel) rfl
  have stored : (blank.fromString (StringType.vector.casts (.styled styledTexts)) "- ~".toList).1.m_val =
      ([['~']] : List Text) :=
    (congrArg Exceptions.ConfigVar.m_val update).trans (congrArg (fun r => r.1.m_val) assigned)
  have text : blank.toString (StringType.vector.casts (.styled styledTexts)) = "- ~".toList := by
    rw [Exceptions.ConfigVar.toString, show blank.m_val = ([[]] : List Text) from rfl, written]
    rfl
  refine ⟨text, stored, fun roundTrips => ?_⟩
  have same := roundTrips.2 blank rfl
  rw [text, stored] at same
  cases same

end Atpdxy.Config
