import Atpdxy.Log.Define

/-!
# Logger definitions as YAML

The two casts between `LogDefine` and text (`LexicalCast` in `log.cpp`) and the
generic ones for sets (`config.h`). The encoder writes the level of an appender
and the decoder does not read it, so a definition comes back with all its
appenders at `UNKNOW`.
-/

namespace Atpdxy.Log

open Yaml

/-! ## Encoding -/

/-- The keys of the two kinds of node. -/
inductive Key
  | name | level | formatter | appenders | type | file
  deriving DecidableEq, Repr

def Key.text : Key → Text
  | .name => "name".toList
  | .level => "level".toList
  | .formatter => "formatter".toList
  | .appenders => "appenders".toList
  | .type => "type".toList
  | .file => "file".toList

def fileType : Text := "FileLogAppender".toList

def stdoutType : Text := "StdoutLogAppender".toList

/-- `n[key] = value`, or nothing. -/
def entry (key : Key) (value : Text) (present : Bool) : List (Text × Node) :=
  if present then [(key.text, .scalar value)] else []

/-- What is written to the node `na` of an appender. -/
def LogAppenderDefine.entries (a : LogAppenderDefine) : List (Text × Node) :=
  List.flatten [
    entry .type fileType (a.type = 1),
    entry .file a.file (a.type = 1),
    entry .type stdoutType (a.type = 2),
    entry .level a.level.toString (a.level ≠ .unknow),
    entry .formatter a.formatter (!a.formatter.isEmpty)]

def LogAppenderDefine.node (a : LogAppenderDefine) : Node := .ofEntries a.entries

/-- `push_back` of every appender; without one the key is not written. -/
def appendersEntry (appenders : List LogAppenderDefine) : List (Text × Node) :=
  if appenders.isEmpty then [] else [(Key.appenders.text, .ofItems (appenders.map LogAppenderDefine.node))]

/-- What is written to the node `n` of a logger. -/
def LogDefine.entries (i : LogDefine) : List (Text × Node) :=
  List.flatten [
    entry .name i.name true,
    entry .level i.level.toString (i.level ≠ .unknow),
    entry .formatter i.formatter (!i.formatter.isEmpty),
    appendersEntry i.appenders]

def LogDefine.node (i : LogDefine) : Node := .ofEntries i.entries

/-- `LexicalCast<LogDefine, std::string>`. -/
def encode (yaml : YamlCpp) (i : LogDefine) : Text := yaml.emit i.node

/-! ## Decoding -/

/-- `n[key].IsDefined() ? n[key].as<std::string>() : ""`. -/
def readOr (yaml : YamlCpp) (n : Option Node) (key : Key) : Except Thrown Text := do
  match ← subscript key.text n with
  | some value => yaml.readString value
  | none => pure []

/-- One round of the loop over `appenders`; none is a `continue`. -/
def decodeAppender (yaml : YamlCpp) (a : Option Node) : Except Thrown (Option LogAppenderDefine) := do
  match ← subscript Key.type.text a with
  | none => pure none
  | some type =>
    let type ← yaml.readString type
    if type = fileType then
      match ← subscript Key.file.text a with
      | none => pure none
      | some file =>
        let file ← yaml.readString file
        let formatter ← readOr yaml a .formatter
        pure (some { type := 1, file, formatter })
    else if type = stdoutType then
      let formatter ← readOr yaml a .formatter
      pure (some { type := 2, formatter })
    else pure none

def decodeAppenders (yaml : YamlCpp) : List (Option Node) → Except Thrown (List LogAppenderDefine)
  | [] => pure []
  | a :: rest => do
    let lad ← decodeAppender yaml a
    let more ← decodeAppenders yaml rest
    pure (lad.toList ++ more)

/-- `LexicalCast<std::string, LogDefine>`. -/
def decode (yaml : YamlCpp) (v : Text) : Except Thrown LogDefine := do
  let n ← yaml.loadNode v
  match ← n.subscript Key.name.text with
  | none => throw (.logicError "log config name is null".toList)
  | some name =>
    let name ← yaml.readString name
    let level ← readOr yaml (some n) .level
    let formatter ← readOr yaml (some n) .formatter
    match ← n.subscript Key.appenders.text with
    | none => pure { name, level := .fromString level, formatter }
    | some nodes =>
      let appenders ← decodeAppenders yaml nodes.items
      pure { name, level := .fromString level, formatter, appenders }

/-! ## Sets -/

/-- The loop that builds the node of a set: each element is encoded and loaded again. -/
def setNodes (yaml : YamlCpp) : List LogDefine → Except Thrown (List Node)
  | [] => pure []
  | i :: rest => do
    let node ← yaml.loadNode (encode yaml i)
    let nodes ← setNodes yaml rest
    pure (node :: nodes)

/-- `LexicalCast<std::set<T>, std::string>`. -/
def encodeSet (yaml : YamlCpp) (v : LogDefines) : Except Thrown Text := do
  let nodes ← setNodes yaml v.defines
  pure (yaml.emit (.ofItems nodes))

/-- The loop that fills the set; a node that is not defined prints as nothing. -/
def decodeItems (yaml : YamlCpp) : List (Option Node) → LogDefines → Except Thrown LogDefines
  | [], vec => pure vec
  | item :: rest, vec => do
    let i ← decode yaml (item.elim [] yaml.emit)
    decodeItems yaml rest (vec.insert i)

/-- `LexicalCast<std::string, std::set<T>>`. -/
def decodeSet (yaml : YamlCpp) (v : Text) : Except Thrown LogDefines := do
  let node ← yaml.loadNode v
  decodeItems yaml node.items .empty

/-! ## What comes back -/

variable {yaml : YamlCpp} {a : LogAppenderDefine} {d : LogDefine} {s : LogDefines}

theorem Key.text_injective : Function.Injective Key.text := by
  intro a b
  cases a <;> cases b <;> decide

@[simp] theorem lookup_entry (key other : Key) (value : Text) (present : Bool) (rest : List (Text × Node)) :
    (entry key value present ++ rest).lookup other.text =
      if other = key ∧ present = true then some (.scalar value) else rest.lookup other.text := by
  cases present with
  | false => simp [entry]
  | true =>
    by_cases same : other = key
    · subst same
      simp [entry]
    · have differ : (other.text == key.text) = false := beq_eq_false_iff_ne.mpr (Key.text_injective.ne same)
      simp [entry, List.lookup_cons, differ, same]

@[simp] theorem lookup_last (key other : Key) (value : Text) (present : Bool) :
    (entry key value present).lookup other.text =
      if other = key ∧ present = true then some (.scalar value) else none := by
  have last := lookup_entry key other value present []
  rwa [List.append_nil] at last

theorem readOr_map {entries : List (Text × Node)} {key : Key} (value : Text) (present : Bool)
    (reads : yaml.ReadsScalars)
    (found : entries.lookup key.text = if present then some (.scalar value) else none) :
    readOr yaml (some (.map entries)) key = .ok (if present then value else []) := by
  rw [readOr, subscript_map, found]
  cases present with
  | false => rfl
  | true => exact reads.readString value

/-- An optional text: empty when it is left out. -/
theorem present_text (text : Text) : (if (!text.isEmpty) = true then text else []) = text := by
  cases text <;> rfl

/-- An optional level: `UNKNOW` when it is left out. -/
theorem present_level (level : Level) :
    Level.fromString (if decide (level ≠ .unknow) = true then level.toString else []) = level := by
  by_cases unknow : level = .unknow
  · subst unknow
    rfl
  · simp [unknow, Level.fromString_toString]

/-- A file appender, or a standard output appender without a file. -/
def LogAppenderDefine.Typed (a : LogAppenderDefine) : Prop := a.type = 1 ∨ (a.type = 2 ∧ a.file = [])

def LogDefine.Typed (d : LogDefine) : Prop := ∀ a ∈ d.appenders, a.Typed

/-- What decoding leaves of an appender. -/
def LogAppenderDefine.forgetLevel (a : LogAppenderDefine) : LogAppenderDefine := { a with level := .unknow }

def LogDefine.forgetLevels (d : LogDefine) : LogDefine :=
  { d with appenders := d.appenders.map LogAppenderDefine.forgetLevel }

theorem entry_ne_nil (key : Key) (value : Text) (rest : List (Text × Node)) : entry key value true ++ rest ≠ [] :=
  List.cons_ne_nil _ _

theorem LogAppenderDefine.node_eq (typed : a.Typed) : a.node = .map a.entries := by
  refine Node.ofEntries_eq ?_
  unfold entries
  rcases typed with typed | ⟨typed, _⟩
  · rw [typed]; exact entry_ne_nil _ _ _
  · rw [typed]; exact entry_ne_nil _ _ _

theorem decodeAppender_node (reads : yaml.ReadsScalars) (typed : a.Typed) :
    decodeAppender yaml (some a.node) = .ok (some a.forgetLevel) := by
  have formatter : readOr yaml (some (.map a.entries)) .formatter = .ok a.formatter := by
    rw [readOr_map a.formatter (!a.formatter.isEmpty) reads (by simp [LogAppenderDefine.entries]),
      present_text]
  rw [LogAppenderDefine.node_eq typed, decodeAppender, subscript_map, subscript_map, formatter]
  rcases typed with typed | ⟨typed, plain⟩
  · have type : a.entries.lookup Key.type.text = some (.scalar fileType) := by
      simp [LogAppenderDefine.entries, typed]
    have file : a.entries.lookup Key.file.text = some (.scalar a.file) := by
      simp [LogAppenderDefine.entries, typed]
    rw [type, file]
    simp only [bind, Except.bind, reads.readString, if_true, pure, Except.pure]
    rw [LogAppenderDefine.forgetLevel, typed]
  · have type : a.entries.lookup Key.type.text = some (.scalar stdoutType) := by
      simp [LogAppenderDefine.entries, typed]
    have apart : ¬ stdoutType = fileType := by decide
    rw [type]
    simp only [bind, Except.bind, reads.readString, if_true, if_neg apart, pure, Except.pure]
    rw [LogAppenderDefine.forgetLevel, typed, plain]

theorem decodeAppenders_nodes (reads : yaml.ReadsScalars) {appenders : List LogAppenderDefine}
    (typed : ∀ a ∈ appenders, a.Typed) :
    decodeAppenders yaml ((appenders.map LogAppenderDefine.node).map some) =
      .ok (appenders.map LogAppenderDefine.forgetLevel) := by
  induction appenders with
  | nil => rfl
  | cons a appenders ih =>
    rw [List.map_cons, List.map_cons, decodeAppenders, decodeAppender_node reads (typed a List.mem_cons_self),
      ih fun b member => typed b (List.mem_cons_of_mem a member)]
    rfl

theorem LogDefine.node_eq (d : LogDefine) : d.node = .map d.entries := Node.ofEntries_eq (entry_ne_nil _ _ _)

@[simp] theorem lookup_appenders (appenders : List LogAppenderDefine) (other : Key) :
    (appendersEntry appenders).lookup other.text =
      if other = .appenders ∧ appenders ≠ [] then some (.ofItems (appenders.map LogAppenderDefine.node)) else none := by
  unfold appendersEntry
  by_cases none : appenders = []
  · simp [none]
  · by_cases same : other = .appenders
    · simp [none, same]
    · have differ : (other.text == Key.appenders.text) = false :=
        beq_eq_false_iff_ne.mpr (Key.text_injective.ne same)
      simp [none, same, List.lookup_cons, differ]

theorem LogDefine.lookup_appenders (d : LogDefine) : d.entries.lookup Key.appenders.text =
    if d.appenders = [] then none else some (.ofItems (d.appenders.map LogAppenderDefine.node)) := by
  simp [LogDefine.entries]

/-- **What decoding makes of an encoded definition**: all but the levels of its appenders. -/
theorem decode_encode_eq (reads : yaml.ReadsScalars) (undoes : yaml.Undoes d.node) (typed : d.Typed) :
    decode yaml (encode yaml d) = .ok d.forgetLevels := by
  have level : readOr yaml (some (.map d.entries)) .level =
      .ok (if decide (d.level ≠ .unknow) = true then d.level.toString else []) :=
    readOr_map _ _ reads (by simp [LogDefine.entries])
  have formatter : readOr yaml (some (.map d.entries)) .formatter = .ok d.formatter := by
    rw [readOr_map d.formatter (!d.formatter.isEmpty) reads (by simp [LogDefine.entries]), present_text]
  have name : d.entries.lookup Key.name.text = some (.scalar d.name) := by simp [LogDefine.entries]
  rw [decode, encode, undoes.loadNode, LogDefine.node_eq]
  simp only [bind, Except.bind, Node.subscript, name, reads.readString, level, formatter, d.lookup_appenders,
    present_level]
  by_cases none : d.appenders = []
  · rw [if_pos none]
    simp [LogDefine.forgetLevels, none, pure, Except.pure]
  · rw [if_neg none]
    simp only [Node.items_ofItems, decodeAppenders_nodes reads typed]
    rfl

theorem forgetLevels_eq : d.forgetLevels = d ↔ ∀ a ∈ d.appenders, a.level = .unknow := by
  have each : ∀ a : LogAppenderDefine, a.forgetLevel = a ↔ a.level = .unknow := by
    rintro ⟨type, level, formatter, file⟩
    simp [LogAppenderDefine.forgetLevel, eq_comm]
  have list : d.forgetLevels = d ↔ d.appenders.map LogAppenderDefine.forgetLevel = d.appenders := by
    obtain ⟨name, level, formatter, appenders⟩ := d
    simp [LogDefine.forgetLevels]
  have pointwise := List.map_inj_left (l := d.appenders) (f := LogAppenderDefine.forgetLevel) (g := id)
  rw [List.map_id] at pointwise
  rw [list, pointwise]
  exact forall₂_congr fun a _ => each a

/-! ## Sets -/

/-- `Load` undoes the emitter on what the set prints: its elements and their sequence. -/
def YamlUndoes (yaml : YamlCpp) (s : LogDefines) : Prop :=
  yaml.Undoes (.ofItems (s.defines.map LogDefine.node)) ∧ ∀ d ∈ s.defines, yaml.Undoes d.node

theorem setNodes_eq {defines : List LogDefine} (undoes : ∀ d ∈ defines, yaml.Undoes d.node) :
    setNodes yaml defines = .ok (defines.map LogDefine.node) := by
  induction defines with
  | nil => rfl
  | cons d defines ih =>
    rw [setNodes, encode, (undoes d List.mem_cons_self).loadNode, ih fun e member => undoes e (List.mem_cons_of_mem d member)]
    rfl

/-- The elements come back one after another, each behind those before it. -/
theorem decodeItems_nodes (reads : yaml.ReadsScalars) {defines : List LogDefine} (vec : LogDefines)
    (undoes : ∀ d ∈ defines, yaml.Undoes d.node) (typed : ∀ d ∈ defines, d.Typed)
    (sorted : (vec.defines.map LogDefine.name ++ defines.map LogDefine.name).Pairwise (· < ·)) :
    ∃ out, decodeItems yaml ((defines.map LogDefine.node).map some) vec = .ok out ∧
      out.defines = vec.defines ++ defines.map LogDefine.forgetLevels := by
  induction defines generalizing vec with
  | nil => exact ⟨vec, rfl, (List.append_nil _).symm⟩
  | cons d defines ih =>
    have read := decode_encode_eq reads (undoes d List.mem_cons_self) (typed d List.mem_cons_self)
    have last : (vec.insert d.forgetLevels).defines = vec.defines ++ [d.forgetLevels] :=
      insertDefine_last fun e member => (List.pairwise_append.mp sorted).2.2 e.name (List.mem_map_of_mem member)
        d.name List.mem_cons_self
    obtain ⟨out, rest, all⟩ := ih (vec.insert d.forgetLevels)
      (fun e member => undoes e (List.mem_cons_of_mem d member)) (fun e member => typed e (List.mem_cons_of_mem d member))
      (by rw [last]; simpa [LogDefine.forgetLevels] using sorted)
    refine ⟨out, ?_, by rw [all, last]; simp⟩
    rw [List.map_cons, List.map_cons, decodeItems]
    show (decode yaml (encode yaml d) >>= fun i => decodeItems yaml _ (vec.insert i)) = _
    rw [read]
    exact rest

theorem decodeSet_encodeSet (reads : yaml.ReadsScalars) (undoes : YamlUndoes yaml s)
    (typed : ∀ d ∈ s.defines, d.Typed) :
    ∃ out, (encodeSet yaml s >>= decodeSet yaml) = .ok out ∧ out.defines = s.defines.map LogDefine.forgetLevels := by
  obtain ⟨out, rest, all⟩ := decodeItems_nodes reads .empty undoes.2 typed
    (by simpa [LogDefines.empty, List.pairwise_map] using s.sorted)
  refine ⟨out, ?_, by simpa [LogDefines.empty] using all⟩
  have text : encodeSet yaml s = .ok (yaml.emit (.ofItems (s.defines.map LogDefine.node))) := by
    rw [encodeSet, setNodes_eq undoes.2]
    rfl
  rw [text]
  show decodeSet yaml _ = _
  rw [decodeSet, undoes.1.loadNode]
  show decodeItems yaml _ .empty = _
  rw [Node.items_ofItems]
  exact rest

/-- **Decode after encode.** A definition, and a set of them, comes back exactly
when no appender has a level. -/
theorem decode_encode (d : LogDefine) (s : LogDefines) (reads : yaml.ReadsScalars) (undoes : yaml.Undoes d.node)
    (typed : d.Typed) (undoesSet : YamlUndoes yaml s) (typedSet : ∀ d ∈ s.defines, d.Typed) :
    (decode yaml (encode yaml d) = .ok d ↔ ∀ a ∈ d.appenders, a.level = .unknow) ∧
      ((encodeSet yaml s >>= decodeSet yaml) = .ok s ↔ ∀ d ∈ s.defines, ∀ a ∈ d.appenders, a.level = .unknow) := by
  constructor
  · rw [decode_encode_eq reads undoes typed, Except.ok.injEq, forgetLevels_eq]
  · obtain ⟨out, read, all⟩ := decodeSet_encodeSet reads undoesSet typedSet
    have same : out = s ↔ s.defines.map LogDefine.forgetLevels = s.defines := by
      rw [← all]
      constructor
      · rintro rfl; rfl
      · intro eq
        obtain ⟨outDefines, _⟩ := out
        obtain ⟨defines, _⟩ := s
        cases eq
        rfl
    have pointwise := List.map_inj_left (l := s.defines) (f := LogDefine.forgetLevels) (g := id)
    rw [List.map_id] at pointwise
    rw [read, Except.ok.injEq, same, pointwise]
    exact forall₂_congr fun d _ => forgetLevels_eq

/-- A logger with both kinds of appender. -/
def sample (level : Level) : LogDefine where
  name := "root".toList
  level := .info
  appenders := [{ type := 1, file := "log.txt".toList, level }, { type := 2, formatter := "log %m%n".toList }]

example : (sample .error).node.block =
    ("name: root\nlevel: INFO\nappenders:\n  - type: FileLogAppender\n    file: log.txt\n    level: ERROR\n" ++
      "  - type: StdoutLogAppender\n    formatter: log %m%n").toList := by decide +kernel

/-- A set of that one logger. -/
def samples (level : Level) : LogDefines := LogDefines.empty.insert (sample level)

/-- What yaml-cpp does with the sample's nodes. -/
def sampleYaml (level : Level) : YamlCpp := .ofBlocks [(sample level).node, .ofItems [(sample level).node]]

theorem sample_typed (level : Level) : (sample level).Typed := by
  simp [LogDefine.Typed, sample, LogAppenderDefine.Typed]

theorem sampleYaml_undoes (level : Level) : (sampleYaml level).Undoes (sample level).node :=
  ofBlocks_undoes [] _ nofun

theorem decode_encode_sample :
    (decode (sampleYaml .unknow) (encode (sampleYaml .unknow) (sample .unknow)) = .ok (sample .unknow) ↔
      ∀ a ∈ (sample .unknow).appenders, a.level = .unknow) ∧
    ((encodeSet (sampleYaml .unknow) (samples .unknow) >>= decodeSet (sampleYaml .unknow)) = .ok (samples .unknow) ↔
      ∀ d ∈ (samples .unknow).defines, ∀ a ∈ d.appenders, a.level = .unknow) := by
  have undoes := sampleYaml_undoes .unknow
  have each : ∀ d ∈ (samples .unknow).defines, d = sample .unknow := fun d member => List.mem_singleton.mp member
  refine decode_encode (sample .unknow) (samples .unknow) (ofBlocks_readsScalars _) undoes (sample_typed _) ⟨?_, ?_⟩ ?_
  · exact ofBlocks_undoes [(sample .unknow).node] [] (by decide +kernel)
  · intro d member
    rw [each d member]
    exact undoes
  · intro d member
    rw [each d member]
    exact sample_typed _

/-- The level of a file appender is written and not read. -/
theorem not_decode_encode : (sampleYaml .error).ReadsScalars ∧ (sampleYaml .error).Undoes (sample .error).node ∧
    (sample .error).Typed ∧
    decode (sampleYaml .error) (encode (sampleYaml .error) (sample .error)) = .ok (sample .unknow) ∧
    sample .unknow ≠ sample .error :=
  ⟨ofBlocks_readsScalars _, sampleYaml_undoes _, sample_typed _,
    decode_encode_eq (ofBlocks_readsScalars _) (sampleYaml_undoes _) (sample_typed _), by decide⟩

end Atpdxy.Log
