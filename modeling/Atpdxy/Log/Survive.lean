import Atpdxy.Log.Codec
import Atpdxy.Log.Listener
import Atpdxy.Yaml.Printer

/-!
# Definitions survive the live loggers

`toYamlString` of a logger and of the appenders, next to the encoder of
definitions: what the listener builds from a definition prints the node that the
encoder writes for it (`node_configured`), with the pattern the logger has in
place of an empty one. So decoding gives the definition back.
-/

namespace Atpdxy.Log

open Yaml

/-- What is written to the node of an appender; the formatter only if it is its own. -/
def Appender.entries (a : Appender) : List (Text × Node) :=
  let kind := match a.kind with
    | .file filename => entry .type fileType true ++ entry .file filename true
    | .stdout => entry .type stdoutType true
  List.flatten [
    kind,
    entry .level a.level.toString (a.level ≠ .unknow),
    entry .formatter (a.formatter.elim [] LogFormatter.getPattern) (a.formatter.isSome && a.hasFormatter)]

/-- `StdoutLogAppender::toYamlString` and `FileLogAppender::toYamlString`. -/
def Appender.toYamlString (yaml : YamlCpp) (a : Appender) : Text := yaml.emit (.ofEntries a.entries)

/-- The loop of `Logger::toYamlString`: each appender is printed and loaded again. -/
def appenderNodes (yaml : YamlCpp) : List Appender → Except Thrown (List Node)
  | [] => pure []
  | a :: rest => do
    let node ← yaml.loadNode (a.toYamlString yaml)
    let nodes ← appenderNodes yaml rest
    pure (node :: nodes)

/-- What is written to the node of a logger. -/
def Logger.entries (l : Logger) (nodes : List Node) : List (Text × Node) :=
  List.flatten [
    entry .name l.name true,
    entry .level l.level.toString (l.level ≠ .unknow),
    entry .formatter l.formatter.getPattern true,
    if nodes.isEmpty then [] else [(Key.appenders.text, .ofItems nodes)]]

/-- `Logger::toYamlString`. -/
def Logger.toYamlString (yaml : YamlCpp) (l : Logger) : Except Thrown Text := do
  let nodes ← appenderNodes yaml l.appenders
  pure (yaml.emit (.ofEntries (l.entries nodes)))

variable {yaml : YamlCpp} {a : LogAppenderDefine} {d : LogDefine} {v : Text}

/-! ## What the decoder makes -/

/-- An appender as the decoder makes it. -/
def LogAppenderDefine.Decoded (a : LogAppenderDefine) : Prop := a.Typed ∧ a.level = .unknow

theorem decodeAppender_decoded {node : Option Node} (decoded : decodeAppender yaml node = .ok (some a)) :
    a.Decoded := by
  obtain ⟨type, -, decoded⟩ := bind_eq_ok decoded
  cases type with
  | none => cases decoded
  | some type =>
    obtain ⟨type, -, decoded⟩ := bind_eq_ok decoded
    split at decoded
    · obtain ⟨file, -, decoded⟩ := bind_eq_ok decoded
      cases file with
      | none => cases decoded
      | some file =>
        obtain ⟨file, -, decoded⟩ := bind_eq_ok decoded
        obtain ⟨formatter, -, decoded⟩ := bind_eq_ok decoded
        cases decoded
        exact ⟨.inl rfl, rfl⟩
    · split at decoded
      · obtain ⟨formatter, -, decoded⟩ := bind_eq_ok decoded
        cases decoded
        exact ⟨.inr ⟨rfl, rfl⟩, rfl⟩
      · cases decoded

theorem decodeAppenders_decoded {nodes : List (Option Node)} {appenders : List LogAppenderDefine}
    (decoded : decodeAppenders yaml nodes = .ok appenders) : ∀ a ∈ appenders, a.Decoded := by
  induction nodes generalizing appenders with
  | nil =>
    cases decoded
    nofun
  | cons node nodes ih =>
    obtain ⟨lad, first, decoded⟩ := bind_eq_ok decoded
    obtain ⟨more, rest, decoded⟩ := bind_eq_ok decoded
    cases decoded
    intro a member
    obtain member | member := List.mem_append.mp member
    · obtain rfl := Option.mem_toList.mp member
      exact decodeAppender_decoded first
    · exact ih rest a member

/-- The image of the decoder: appenders of a known type, without levels. -/
theorem decode_decoded (decoded : decode yaml v = .ok d) : ∀ a ∈ d.appenders, a.Decoded := by
  obtain ⟨n, -, decoded⟩ := bind_eq_ok decoded
  obtain ⟨name, -, decoded⟩ := bind_eq_ok decoded
  cases name with
  | none => cases decoded
  | some name =>
    obtain ⟨name, -, decoded⟩ := bind_eq_ok decoded
    obtain ⟨level, -, decoded⟩ := bind_eq_ok decoded
    obtain ⟨formatter, -, decoded⟩ := bind_eq_ok decoded
    obtain ⟨nodes, -, decoded⟩ := bind_eq_ok decoded
    cases nodes with
    | none =>
      cases decoded
      nofun
    | some nodes =>
      obtain ⟨appenders, all, decoded⟩ := bind_eq_ok decoded
      cases decoded
      exact decodeAppenders_decoded all

/-! ## The two ways to write a node -/

/-- Empty, or parsed without an error. -/
def Usable (formatter : Text) : Prop := formatter = [] ∨ (LogFormatter.init formatter).isError = false

/-- Each formatter of the definition is usable. -/
def LogDefine.Usable (d : LogDefine) : Prop := Log.Usable d.formatter ∧ ∀ a ∈ d.appenders, Log.Usable a.formatter

/-- The definition with the pattern its logger has. -/
def LogDefine.withDefault (d : LogDefine) : LogDefine :=
  { d with formatter := if d.formatter.isEmpty then defaultPattern else d.formatter }

theorem valid_eq {formatter : Text} (usable : Usable formatter) : valid formatter = !formatter.isEmpty := by
  obtain rfl | noError := usable
  · rfl
  · simp [valid, noError]

/-- The kind, the level and the formatter of the listener's appender. -/
theorem attach_build (a : LogAppenderDefine) (usable : Usable a.formatter) (formatter : LogFormatter) :
    a.build.attach formatter =
      { kind := if a.type = 1 then .file a.file else .stdout
        level := a.level
        formatter := some (if a.formatter.isEmpty then formatter else .init a.formatter)
        hasFormatter := !a.formatter.isEmpty } := by
  rw [LogAppenderDefine.build, valid_eq usable]
  cases empty : a.formatter.isEmpty with
  | true => simp [Appender.attach]
  | false => simp [Appender.attach, Appender.setFormatter]

/-- The listener's appender writes the entries of its definition. -/
theorem entries_build (decoded : a.Decoded) (usable : Usable a.formatter) (formatter : LogFormatter) :
    (a.build.attach formatter).entries = a.entries := by
  obtain ⟨typed, level⟩ := decoded
  have getPattern : (LogFormatter.init a.formatter).getPattern = a.formatter := rfl
  rw [attach_build a usable]
  obtain file | ⟨stdout, -⟩ := typed
  · by_cases inherits : a.formatter = []
    · simp [Appender.entries, LogAppenderDefine.entries, file, level, entry, inherits]
    · simp [Appender.entries, LogAppenderDefine.entries, file, level, entry, inherits, getPattern]
  · by_cases inherits : a.formatter = []
    · simp [Appender.entries, LogAppenderDefine.entries, stdout, level, entry, inherits]
    · simp [Appender.entries, LogAppenderDefine.entries, stdout, level, entry, inherits, getPattern]

theorem appenderNodes_eq (undoes : ∀ node, yaml.Undoes node) {appenders : List LogAppenderDefine}
    (decoded : ∀ a ∈ appenders, a.Decoded) (usable : ∀ a ∈ appenders, Usable a.formatter) (formatter : LogFormatter) :
    appenderNodes yaml (appenders.map fun a => a.build.attach formatter) =
      .ok (appenders.map LogAppenderDefine.node) := by
  induction appenders with
  | nil => rfl
  | cons a appenders ih =>
    have first := entries_build (decoded a List.mem_cons_self) (usable a List.mem_cons_self) formatter
    have rest := ih (fun b member => decoded b (List.mem_cons_of_mem a member))
      (fun b member => usable b (List.mem_cons_of_mem a member))
    rw [List.map_cons, appenderNodes, Appender.toYamlString, first, (undoes _).loadNode, rest]
    rfl

/-- The listener's logger prints the node of its definition. -/
theorem toYamlString_configured (undoes : ∀ node, yaml.Undoes node) (decoded : ∀ a ∈ d.appenders, a.Decoded)
    (usable : d.Usable) {l : Logger} (name : l.name = d.name) (default : l.formatter = .init defaultPattern) :
    (l.configured d).toYamlString yaml = .ok (encode yaml d.withDefault) := by
  have pattern : (l.configured d).formatter.getPattern = d.withDefault.formatter := by
    rw [Logger.configured, valid_eq usable.1, default, LogDefine.withDefault]
    cases empty : d.formatter.isEmpty with
    | true => rfl
    | false => rfl
  have filled : d.withDefault.formatter.isEmpty = false := by
    unfold LogDefine.withDefault
    cases empty : d.formatter.isEmpty with
    | true => rfl
    | false => simpa using empty
  have nodes : appenderNodes yaml (l.configured d).appenders = .ok (d.appenders.map LogAppenderDefine.node) :=
    appenderNodes_eq undoes decoded usable.2 _
  have same : (l.configured d).entries (d.appenders.map LogAppenderDefine.node) = d.withDefault.entries := by
    rw [Logger.entries, pattern, LogDefine.entries, filled, appendersEntry, List.isEmpty_map]
    simp only [Logger.configured, name]
    rfl
  rw [Logger.toYamlString, nodes]
  show Except.ok (yaml.emit (.ofEntries ((l.configured d).entries (d.appenders.map LogAppenderDefine.node)))) = _
  rw [same]
  rfl

/-- **Main result**: what the decoder reads, the listener builds on a fresh manager;
what the logger then prints, the decoder reads again. -/
theorem decode_toYamlString (reads : yaml.ReadsScalars) (undoes : ∀ node, yaml.Undoes node)
    (decoded : decode yaml v = .ok d)
    (usable : d.Usable) :
    ∃ t, System.start.setValue (LogDefines.empty.insert d) = some t ∧
      ((t.manager.get d.name).toYamlString yaml >>= decode yaml) = .ok d.withDefault := by
  have image := decode_decoded decoded
  have applied : (System.start.setValue (LogDefines.empty.insert d)) ≠ none := by
    intro crash
    have line := (System.setValue_eq_none.mp crash).2
    exact absurd line (by decide)
  obtain ⟨t, assigned⟩ := Option.ne_none_iff_exists'.mp applied
  have logger := System.get_setValue System.start_follows assigned d.name
  have found : (LogDefines.empty.insert d).find d.name = some d := by
    simp [LogDefines.find, LogDefines.insert, LogDefines.empty, insertDefine]
  rw [found] at logger
  refine ⟨t, assigned, ?_⟩
  have fresh : (System.start.manager.get d.name).name = d.name ∧
      (System.start.manager.get d.name).formatter = .init defaultPattern := by
    by_cases root : d.name = rootName
    · rw [root]
      exact ⟨rfl, rfl⟩
    · simp [System.start, LoggerManager.new, LoggerManager.get, root, Logger.new]
  have printed := toYamlString_configured undoes image usable fresh.1 fresh.2
  rw [logger, printed]
  have typed : d.withDefault.Typed := fun a member => (image a member).1
  have levels : d.withDefault.forgetLevels = d.withDefault := forgetLevels_eq.mpr fun a member => (image a member).2
  show decode yaml (encode yaml d.withDefault) = .ok d.withDefault
  rw [decode_encode_eq reads (undoes _) typed, levels]

/-- A logger with two appenders, one with a formatter of its own. -/
def worker : LogDefine where
  name := "worker".toList
  level := .warn
  formatter := "log %m%n".toList
  appenders := [{ type := 1, file := "log.txt".toList, formatter := "file %m%n".toList }, { type := 2 }]

/-- What yaml-cpp does with its nodes. -/
noncomputable def workerYaml : YamlCpp := .total (worker.node :: worker.appenders.map LogAppenderDefine.node)

theorem workerYaml_undoes (node : Node) : workerYaml.Undoes node :=
  total_undoes (by decide +kernel) (by decide +kernel) node

theorem decode_toYamlString_worker :
    ∃ t, System.start.setValue (LogDefines.empty.insert worker) = some t ∧
      ((t.manager.get "worker".toList).toYamlString workerYaml >>= decode workerYaml) = .ok worker := by
  have reads : workerYaml.ReadsScalars := total_readsScalars _
  have typed : worker.Typed := by simp [LogDefine.Typed, worker, LogAppenderDefine.Typed]
  have levels : worker.forgetLevels = worker := forgetLevels_eq.mpr (by decide)
  have decoded : decode workerYaml (encode workerYaml worker) = .ok worker := by
    rw [decode_encode_eq reads (workerYaml_undoes _) typed, levels]
  have usable : worker.Usable := by
    refine ⟨.inr (by decide +kernel), fun a member => ?_⟩
    simp only [worker, List.mem_cons, List.not_mem_nil, or_false] at member
    obtain rfl | rfl := member
    · exact .inr (by decide +kernel)
    · exact .inl rfl
  exact decode_toYamlString reads workerYaml_undoes decoded usable

end Atpdxy.Log
