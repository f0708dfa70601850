import Atpdxy.Cpp.Ordered
import Atpdxy.Log.Survive

/-!
# The loggers as a configuration

`LoggerManager::toYamlString` prints every logger of the manager in the order of
the names. What it prints is the text of a value of `logs` (`describe`), so it
can be decoded, and the value assigned to a fresh manager: the loggers come back
but for the levels of their appenders, which the decoder does not read.
-/

namespace Atpdxy.Log

open Yaml Cpp

variable {yaml : YamlCpp} {m : LoggerManager} {s t : System} {l : Logger} {a : Appender} {d : LogDefine} {name : Text}
  {ops : List Op}

/-- The keys of `m_loggers` in their order. -/
structure Keys (m : LoggerManager) where
  names : List Text
  sorted : names.Pairwise (· < ·)
  complete : ∀ name, name ∈ names ↔ name = rootName ∨ (m.loggers name).isSome

/-- The loop of `LoggerManager::toYamlString`: each logger is printed and loaded again. -/
def loggerNodes (yaml : YamlCpp) : List Logger → Except Thrown (List Node)
  | [] => pure []
  | l :: rest => do
    let text ← l.toYamlString yaml
    let node ← yaml.loadNode text
    let nodes ← loggerNodes yaml rest
    pure (node :: nodes)

/-- `LoggerManager::toYamlString`. -/
def LoggerManager.toYamlString (yaml : YamlCpp) (m : LoggerManager) (keys : Keys m) : Except Thrown Text := do
  let nodes ← loggerNodes yaml (keys.names.map m.get)
  pure (yaml.emit (.ofItems nodes))

/-! ## The keys -/

/-- The manager has a logger of the name. -/
def LoggerManager.Has (m : LoggerManager) (name : Text) : Prop := name = rootName ∨ (m.loggers name).isSome

theorem LoggerManager.has_set (m : LoggerManager) (name : Text) (l : Logger) (other : Text) :
    (m.set name l).Has other ↔ other = name ∨ m.Has other := by
  unfold LoggerManager.set LoggerManager.Has
  by_cases root : name = rootName
  · subst root
    simp
  · by_cases same : other = name <;> simp [root, same]

def Keys.new : Keys .new where
  names := [rootName]
  sorted := List.pairwise_singleton _ _
  complete name := by simp [LoggerManager.new]

def Keys.set (keys : Keys m) (name : Text) (l : Logger) : Keys (m.set name l) where
  names := insertSorted (· < ·) name keys.names
  sorted := insertSorted_sorted keys.sorted
  complete other := by
    rw [mem_insertSorted_iff fun key => (lt_trichotomy name key).imp id Or.symm, keys.complete]
    exact (m.has_set name l other).symm

/-- The keys after calls on loggers the manager is asked for. -/
def Keys.calls : ∀ {m : LoggerManager} (_ : Keys m) (calls : List (Text × LoggerCall)), Keys (calls.foldl .call m)
  | _, keys, [] => keys
  | _, keys, c :: calls => Keys.calls (keys.set c.1 _) calls

theorem System.keys_step {op : Op} (keys : Nonempty (Keys s.manager)) (step : s.step op = some t) :
    Nonempty (Keys t.manager) := by
  obtain ⟨keys⟩ := keys
  cases op with
  | assign v =>
    simp only [System.step, System.setValue] at step
    split at step
    · cases step
      exact ⟨keys⟩
    · obtain ⟨manager, called, rfl⟩ := Option.map_eq_some_iff.mp step
      obtain ⟨-, -, rfl⟩ := Option.map_eq_some_iff.mp called
      exact ⟨keys.calls _⟩
  | getLogger name =>
    cases step
    exact ⟨keys.set name _⟩

theorem System.keys_run (ran : System.start.run ops = some s) : Nonempty (Keys s.manager) :=
  (Run.Guarded.of_exec ran).invariant (I := fun s => Nonempty (Keys s.manager)) ⟨.new⟩
    fun _ _ _ _ _ keys _ step => System.keys_step keys step

/-! ## A logger and its definition -/

/-- An appender with a formatter of its own has a valid one, the others have their logger's. -/
def Appender.Coherent (formatter : LogFormatter) (a : Appender) : Prop :=
  if a.hasFormatter then ∃ own, valid own = true ∧ a.formatter = some (.init own) else a.formatter = some formatter

/-- The logger's pattern is a valid one, and its appenders go with it. -/
structure Logger.Coherent (l : Logger) : Prop where
  pattern : ∃ own, valid own = true ∧ l.formatter = .init own
  appenders : ∀ a ∈ l.appenders, a.Coherent l.formatter

/-- The definition of an appender that is printed as it is. -/
def Appender.define (a : Appender) : LogAppenderDefine where
  type := match a.kind with
    | .file _ => 1
    | .stdout => 2
  level := a.level
  formatter := if a.hasFormatter then a.formatter.elim [] LogFormatter.getPattern else []
  file := match a.kind with
    | .file filename => filename
    | .stdout => []

def Logger.define (l : Logger) : LogDefine where
  name := l.name
  level := l.level
  formatter := l.formatter.getPattern
  appenders := l.appenders.map Appender.define

theorem valid_defaultPattern : valid defaultPattern = true := by decide +kernel

theorem Logger.Coherent.new (name : Text) : (Logger.new name).Coherent where
  pattern := ⟨defaultPattern, valid_defaultPattern, rfl⟩
  appenders := nofun

theorem coherent_attach (b : LogAppenderDefine) (formatter : LogFormatter) :
    (b.build.attach formatter).Coherent formatter := by
  by_cases ok : valid b.formatter = true
  · simpa [Appender.Coherent, LogAppenderDefine.build, Appender.attach, Appender.setFormatter, ok] using
      ⟨b.formatter, ok, rfl⟩
  · simp [Appender.Coherent, LogAppenderDefine.build, Appender.attach, ok]

theorem Logger.Coherent.configured (coherent : l.Coherent) (d : LogDefine) : (l.configured d).Coherent where
  pattern := by
    by_cases ok : valid d.formatter = true
    · exact ⟨d.formatter, ok, by simp [Logger.configured, ok]⟩
    · simpa [Logger.configured, ok] using coherent.pattern
  appenders a member := by
    obtain ⟨b, -, rfl⟩ := List.mem_map.mp member
    exact coherent_attach b _

theorem Logger.Coherent.disabled (coherent : l.Coherent) :
    Logger.Coherent { l with level := .unknow, appenders := [] } where
  pattern := coherent.pattern
  appenders := nofun

theorem valid_ne_nil {formatter : Text} (ok : valid formatter = true) : formatter.isEmpty = false := by
  simp only [valid, Bool.and_eq_true, Bool.not_eq_true'] at ok
  exact ok.1

/-- A coherent appender prints the entries of its definition. -/
theorem Appender.Coherent.entries_eq {formatter : LogFormatter} (coherent : a.Coherent formatter) :
    a.entries = a.define.entries := by
  obtain ⟨kind, level, own, has⟩ := a
  cases has with
  | true =>
    obtain ⟨pattern, ok, rfl⟩ : ∃ pattern, valid pattern = true ∧ own = some (.init pattern) := by
      simpa [Appender.Coherent] using coherent
    have filled := valid_ne_nil ok
    have text : (LogFormatter.init pattern).getPattern = pattern := rfl
    cases kind <;> simp [Appender.entries, Appender.define, LogAppenderDefine.entries, entry, text, filled]
  | false => cases kind <;> simp [Appender.entries, Appender.define, LogAppenderDefine.entries, entry]

theorem Appender.define_typed (a : Appender) : a.define.Typed := by
  obtain ⟨kind, level, own, has⟩ := a
  cases kind with
  | file filename => exact .inl rfl
  | stdout => exact .inr ⟨rfl, rfl⟩

/-- A coherent logger prints the text of its definition. -/
theorem Logger.Coherent.toYamlString_eq (coherent : l.Coherent)
    (undoes : ∀ a ∈ l.appenders, yaml.Undoes a.define.node) :
    l.toYamlString yaml = .ok (encode yaml l.define) := by
  have nodes : appenderNodes yaml l.appenders = .ok (l.define.appenders.map LogAppenderDefine.node) := by
    have each := coherent.appenders
    show appenderNodes yaml l.appenders = .ok ((l.appenders.map Appender.define).map LogAppenderDefine.node)
    generalize l.appenders = appenders at each undoes
    induction appenders with
    | nil => rfl
    | cons a rest ih =>
      have first := (each a List.mem_cons_self).entries_eq
      have loaded := (undoes a List.mem_cons_self).loadNode
      have later := ih (fun b member => each b (List.mem_cons_of_mem a member))
        fun b member => undoes b (List.mem_cons_of_mem a member)
      rw [appenderNodes, Appender.toYamlString, first, show Node.ofEntries a.define.entries = a.define.node from rfl,
        loaded, later]
      rfl
  obtain ⟨own, ok, same⟩ := coherent.pattern
  have filled : l.define.formatter.isEmpty = false := by
    rw [Logger.define, same]
    exact valid_ne_nil ok
  have entries : l.entries (l.define.appenders.map LogAppenderDefine.node) = l.define.entries := by
    rw [Logger.entries, LogDefine.entries, filled, appendersEntry, List.isEmpty_map]
    rfl
  rw [Logger.toYamlString, nodes]
  show Except.ok (yaml.emit (.ofEntries (l.entries (l.define.appenders.map LogAppenderDefine.node)))) = _
  rw [entries]
  rfl

/-- A logger without the levels of its appenders. -/
def Logger.forgetLevels (l : Logger) : Logger :=
  { l with appenders := l.appenders.map fun a => { a with level := .unknow } }

/-- The definition of a coherent appender builds it again, but for its level. -/
theorem Appender.Coherent.build_define {formatter : LogFormatter} (coherent : a.Coherent formatter) :
    a.define.forgetLevel.build.attach formatter = { a with level := .unknow } := by
  obtain ⟨kind, level, own, has⟩ := a
  cases has with
  | true =>
    obtain ⟨pattern, ok, rfl⟩ : ∃ pattern, valid pattern = true ∧ own = some (.init pattern) := by
      simpa [Appender.Coherent] using coherent
    have text : (LogFormatter.init pattern).getPattern = pattern := rfl
    cases kind <;>
      simp [Appender.define, LogAppenderDefine.forgetLevel, LogAppenderDefine.build, text, ok, Appender.setFormatter,
        Appender.attach]
  | false =>
    obtain rfl : own = some formatter := by simpa [Appender.Coherent] using coherent
    have empty : valid [] = false := rfl
    cases kind <;>
      simp [Appender.define, LogAppenderDefine.forgetLevel, LogAppenderDefine.build, empty, Appender.attach]

/-- The definition of a coherent logger makes any logger of its name into it, but for the levels. -/
theorem Logger.Coherent.configured_define (coherent : l.Coherent) {fresh : Logger} (name : fresh.name = l.name) :
    fresh.configured l.define.forgetLevels = l.forgetLevels := by
  obtain ⟨own, ok, same⟩ := coherent.pattern
  have text : l.define.forgetLevels.formatter = own := by
    show l.formatter.getPattern = own
    rw [same]
    rfl
  have appenders : l.define.forgetLevels.appenders.map (fun b => b.build.attach l.formatter) =
      l.appenders.map fun a => { a with level := .unknow } := by
    show ((l.appenders.map Appender.define).map LogAppenderDefine.forgetLevel).map _ = _
    rw [List.map_map, List.map_map]
    exact List.map_congr_left fun a member => (coherent.appenders a member).build_define
  simp only [Logger.configured, text, ok, if_true, Logger.forgetLevels, ← same, appenders, name]
  rfl

/-! ## The manager -/

/-- Every logger has its name and is coherent. -/
def LoggerManager.Coherent (m : LoggerManager) : Prop := ∀ name, (m.get name).name = name ∧ (m.get name).Coherent

theorem LoggerManager.Coherent.new : LoggerManager.new.Coherent := by
  intro name
  by_cases root : name = rootName
  · subst root
    refine ⟨rfl, ⟨⟨defaultPattern, valid_defaultPattern, rfl⟩, fun a member => ?_⟩⟩
    obtain rfl := List.mem_singleton.mp member
    rfl
  · have fresh : LoggerManager.new.get name = .new name := by simp [LoggerManager.new, LoggerManager.get, root]
    rw [fresh]
    exact ⟨rfl, .new name⟩

theorem System.coherent_step {op : Op} (follows : s.Follows) (coherent : s.manager.Coherent)
    (step : s.step op = some t) :
    t.Follows ∧ t.manager.Coherent := by
  cases op with
  | assign v =>
    refine ⟨System.follows_setValue follows step, fun name => ?_⟩
    obtain ⟨named, before⟩ := coherent name
    rw [System.get_setValue follows step name]
    cases v.find name with
    | some d => exact ⟨named, before.configured d⟩
    | none =>
      dsimp only
      split
      · exact ⟨named, before.disabled⟩
      · exact ⟨named, before⟩
  | getLogger name =>
    cases step
    exact ⟨fun other d found => by simpa using follows other d found, fun other => by simpa using coherent other⟩

theorem System.coherent_run (ran : System.start.run ops = some s) : s.Follows ∧ s.manager.Coherent :=
  (Run.Guarded.of_exec ran).invariant (I := fun s => s.Follows ∧ s.manager.Coherent)
    ⟨System.start_follows, .new⟩ fun _ _ _ _ _ kept _ step => System.coherent_step kept.1 kept.2 step

/-- The value of `logs` that is printed as the manager is. -/
def LoggerManager.describe (m : LoggerManager) (coherent : m.Coherent) (keys : Keys m) : LogDefines where
  defines := keys.names.map fun name => (m.get name).define
  sorted := by
    have names : keys.names.Pairwise fun a b => (m.get a).define.name < (m.get b).define.name := by
      refine keys.sorted.imp fun {a b} less => ?_
      show (m.get a).name < (m.get b).name
      rwa [(coherent a).1, (coherent b).1]
    exact List.pairwise_map.mpr names

/-- The manager prints the text of that value. -/
theorem LoggerManager.toYamlString_eq (coherent : m.Coherent) (keys : Keys m) (undoes : ∀ node, yaml.Undoes node) :
    m.toYamlString yaml keys = encodeSet yaml (m.describe coherent keys) := by
  have nodes : ∀ names : List Text, loggerNodes yaml (names.map m.get) =
      setNodes yaml (names.map fun name => (m.get name).define) := by
    intro names
    induction names with
    | nil => rfl
    | cons name names ih =>
      rw [List.map_cons, List.map_cons, loggerNodes, setNodes,
        (coherent name).2.toYamlString_eq fun a _ => undoes a.define.node, ih]
      rfl
  rw [LoggerManager.toYamlString, nodes, encodeSet]
  rfl

/-! ## What comes back -/

/-- Who writes an event, and in which format. -/
def LoggerManager.writes (m : LoggerManager) (name : Text) (level : Level) :
    Option (List (AppenderKind × Option LogFormatter)) :=
  (m.log name level).map fun appenders => appenders.map fun a => (a.kind, a.formatter)

/-- Every appender writes events of all levels there are. -/
def LoggerManager.Open (m : LoggerManager) : Prop := ∀ name, ∀ a ∈ (m.get name).appenders, a.level ≤ Level.debug

theorem Level.debug_le {level : Level} (real : level ≠ .unknow) : Level.debug ≤ level := by
  cases level with
  | unknow => exact (real rfl).elim
  | _ => decide

theorem LogAppenderDefine.build_level (b : LogAppenderDefine) (formatter : LogFormatter) :
    (b.build.attach formatter).level = b.level := by
  have built : b.build.level = b.level := by
    unfold LogAppenderDefine.build
    dsimp only
    split <;> rfl
  unfold Appender.attach
  split <;> exact built

/-- The definitions of a value have no levels for their appenders. -/
def LogDefines.Levelless (v : LogDefines) : Prop := ∀ d ∈ v.defines, ∀ a ∈ d.appenders, a.level = .unknow

theorem decodeItems_levelless {nodes : List (Option Node)} {vec out : LogDefines} (start : vec.Levelless)
    (decoded : decodeItems yaml nodes vec = .ok out) : out.Levelless := by
  induction nodes generalizing vec with
  | nil =>
    cases decoded
    exact start
  | cons node nodes ih =>
    obtain ⟨d, first, rest⟩ := bind_eq_ok decoded
    refine ih (fun e member a there => ?_) rest
    rcases mem_insertDefine member with rfl | member
    · exact (decode_decoded first a there).2
    · exact start e member a there

theorem decodeSet_levelless {text : Text} {v : LogDefines} (decoded : decodeSet yaml text = .ok v) : v.Levelless := by
  obtain ⟨node, -, items⟩ := bind_eq_ok decoded
  exact decodeItems_levelless (fun d member => (List.not_mem_nil member).elim) items

/-- A value that the decoder has read. -/
def Op.Decoded (yaml : YamlCpp) : Op → Prop
  | .assign v => ∃ text, decodeSet yaml text = .ok v
  | .getLogger _ => True

theorem System.open_step {op : Op} (follows : s.Follows) (opened : s.manager.Open) (decoded : op.Decoded yaml)
    (step : s.step op = some t) : t.manager.Open := by
  cases op with
  | assign v =>
    obtain ⟨text, read⟩ := decoded
    have levelless := decodeSet_levelless read
    intro name a member
    rw [System.get_setValue follows step name] at member
    cases found : v.find name with
    | some d =>
      rw [found] at member
      obtain ⟨b, there, rfl⟩ := List.mem_map.mp member
      rw [LogAppenderDefine.build_level, levelless d (List.mem_of_find?_eq_some found) b there]
      decide
    | none =>
      rw [found] at member
      dsimp only at member
      split at member
      · cases member
      · exact opened name a member
  | getLogger name =>
    cases step
    exact fun other a member => opened other a (by simpa using member)

theorem LoggerManager.Open.new : LoggerManager.new.Open := by
  intro name a member
  by_cases root : name = rootName
  · subst root
    obtain rfl := List.mem_singleton.mp member
    decide
  · simp [LoggerManager.new, LoggerManager.get, root, Logger.new] at member

theorem System.open_run (ran : System.start.run ops = some s) (decoded : ∀ op ∈ ops, op.Decoded yaml) :
    s.manager.Open :=
  ((Run.Guarded.of_forall ran decoded).invariant (I := fun s => s.Follows ∧ s.manager.Coherent ∧ s.manager.Open)
    ⟨System.start_follows, .new, .new⟩ fun _ _ _ _ _ kept decoded step =>
      have next := System.coherent_step kept.1 kept.2.1 step
      ⟨next.1, next.2, System.open_step kept.1 kept.2.2 decoded step⟩).2.2

/-- A logger whose appenders are open writes the same without their levels. -/
theorem Logger.log_forgetLevels {level : Level} (opened : ∀ a ∈ l.appenders, a.level ≤ Level.debug)
    (real : level ≠ .unknow) {root root' : Option (List Appender)}
    (same : root'.map (List.map fun a => (a.kind, a.formatter)) = root.map (List.map fun a => (a.kind, a.formatter))) :
    (l.forgetLevels.log root' level).map (List.map fun a => (a.kind, a.formatter)) =
      (l.log root level).map (List.map fun a => (a.kind, a.formatter)) := by
  have all : l.appenders.filter (fun a => a.level ≤ level) = l.appenders := by
    refine List.filter_eq_self.mpr fun a member => decide_eq_true ?_
    exact Nat.le_trans (opened a member) (Level.debug_le real)
  have all' : l.forgetLevels.appenders.filter (fun a => a.level ≤ level) = l.forgetLevels.appenders := by
    refine List.filter_eq_self.mpr fun a member => decide_eq_true ?_
    obtain ⟨b, -, rfl⟩ := List.mem_map.mp member
    exact Nat.zero_le _
  have empty : l.forgetLevels.appenders.isEmpty = l.appenders.isEmpty := List.isEmpty_map
  rw [Logger.log, Logger.log, all, all', empty, show l.forgetLevels.level = l.level from rfl]
  split
  · split
    · exact same
    · simp [Logger.forgetLevels]
  · rfl

theorem LoggerManager.writes_forgetLevels {m' : LoggerManager} (opened : m.Open)
    (same : ∀ name, m'.get name = (m.get name).forgetLevels) {level : Level} (real : level ≠ .unknow) (name : Text) :
    m'.writes name level = m.writes name level := by
  have root : m'.writes rootName level = m.writes rootName level := by
    rw [writes, writes, log_root, log_root, same]
    exact Logger.log_forgetLevels (opened rootName) real rfl
  by_cases here : name = rootName
  · rw [here]
    exact root
  · rw [writes, writes, m'.log_eq, m.log_eq, if_neg here, if_neg here, same]
    exact Logger.log_forgetLevels (opened name) real root

/-- The printed value has a definition for each logger there is. -/
theorem LoggerManager.find_describe (coherent : m.Coherent) (keys : Keys m) {out : LogDefines}
    (read : out.defines = (m.describe coherent keys).defines.map LogDefine.forgetLevels) (name : Text) :
    (m.Has name → out.find name = some (m.get name).define.forgetLevels) ∧ (¬ m.Has name → out.find name = none) := by
  have found : out.find name =
      (keys.names.find? fun key => key = name).map fun key => (m.get key).define.forgetLevels := by
    have named : ∀ key, (m.get key).define.forgetLevels.name = key := fun key => (coherent key).1
    rw [LogDefines.find, read, LoggerManager.describe, List.map_map, List.find?_map]
    simp only [Function.comp_def, named]
  rw [found]
  cases there : keys.names.find? fun key => key = name with
  | some key =>
    obtain rfl : key = name := by simpa using List.find?_some there
    exact ⟨fun _ => rfl, fun none => (none ((keys.complete key).mp (List.mem_of_find?_eq_some there))).elim⟩
  | none =>
    refine ⟨fun has => ?_, fun _ => rfl⟩
    have apart := List.find?_eq_none.mp there name ((keys.complete name).mpr has)
    simp at apart

/-- What a manager prints is a value of `logs` with a definition for each logger; assigned to a fresh manager it gives
every logger back, but for the levels of appenders. -/
theorem System.dump_back (reads : yaml.ReadsScalars) (undoes : ∀ node, yaml.Undoes node)
    (ran : System.start.run ops = some s) (keys : Keys s.manager) :
    ∃ out t, (s.manager.toYamlString yaml keys >>= decodeSet yaml) = .ok out ∧
      out.defines = (keys.names.map fun name => (s.manager.get name).define.forgetLevels) ∧
      System.start.setValue out = some t ∧ ∀ name, t.manager.get name = (s.manager.get name).forgetLevels := by
  obtain ⟨-, coherent⟩ := System.coherent_run ran
  have typed : ∀ d ∈ (s.manager.describe coherent keys).defines, d.Typed := by
    intro d member a there
    obtain ⟨name, -, rfl⟩ := List.mem_map.mp member
    obtain ⟨b, -, rfl⟩ := List.mem_map.mp there
    exact b.define_typed
  obtain ⟨out, decoded, read⟩ := decodeSet_encodeSet reads ⟨undoes _, fun d _ => undoes _⟩ typed
  have applied : System.start.setValue out ≠ none := by
    intro crash
    have line := (System.setValue_eq_none.mp crash).2
    exact absurd line (by decide)
  obtain ⟨t, assigned⟩ := Option.ne_none_iff_exists'.mp applied
  refine ⟨out, t, ?_, ?_, assigned, fun name => ?_⟩
  · rw [LoggerManager.toYamlString_eq coherent keys undoes]
    exact decoded
  · rw [read, LoggerManager.describe, List.map_map]
    rfl
  · obtain ⟨present, absent⟩ := s.manager.find_describe coherent keys read name
    rw [System.get_setValue System.start_follows assigned name]
    by_cases has : s.manager.Has name
    · rw [present has]
      refine (coherent name).2.configured_define ?_
      rw [(coherent name).1]
      exact (LoggerManager.Coherent.new name).1
    · rw [absent has]
      obtain ⟨other, missing⟩ := not_or.mp has
      have none : s.manager.loggers name = none := by simpa using missing
      simp [none, System.start, LoggerManager.new, LoggerManager.get, other, LogDefines.empty, LogDefines.find,
        Logger.forgetLevels, Logger.new]

/-- **Main result**: what a manager prints gives its loggers back on a fresh manager, and they write the same when
all values came from the decoder. -/
theorem dump_reload (reads : yaml.ReadsScalars) (undoes : ∀ node, yaml.Undoes node)
    (ran : System.start.run ops = some s) (keys : Keys s.manager) :
    ∃ out t, (s.manager.toYamlString yaml keys >>= decodeSet yaml) = .ok out ∧ System.start.setValue out = some t ∧
      (∀ name, t.manager.get name = (s.manager.get name).forgetLevels) ∧
      ((∀ op ∈ ops, op.Decoded yaml) → ∀ name level, level ≠ .unknow →
        t.manager.writes name level = s.manager.writes name level) := by
  obtain ⟨out, t, decoded, -, assigned, back⟩ := System.dump_back reads undoes ran keys
  refine ⟨out, t, decoded, assigned, back, fun all name level real => ?_⟩
  exact LoggerManager.writes_forgetLevels (System.open_run ran all) back real name

/-! ## A second dump -/

/-- The names of a manager are one list. -/
theorem Keys.names_eq {m' : LoggerManager} (keys : Keys m) (keys' : Keys m')
    (same : ∀ name, m'.Has name ↔ m.Has name) : keys'.names = keys.names := by
  have members : ∀ name, name ∈ keys'.names ↔ name ∈ keys.names := by
    intro name
    rw [keys'.complete, keys.complete]
    exact same name
  have perm := (List.perm_ext_iff_of_nodup keys'.sorted.nodup keys.sorted.nodup).mpr members
  refine perm.eq_of_pairwise (fun a b _ _ less greater => ?_) keys'.sorted keys.sorted
  exact (lt_asymm less greater).elim

theorem LoggerManager.has_calls (calls : List (Text × LoggerCall)) (m : LoggerManager) (name : Text) :
    (calls.foldl .call m).Has name ↔ m.Has name ∨ ∃ c ∈ calls, c.1 = name := by
  induction calls generalizing m with
  | nil => simp
  | cons c calls ih =>
    rw [List.foldl_cons, ih, LoggerManager.call, LoggerManager.has_set, List.exists_mem_cons_iff]
    grind

/-- A fresh manager has the loggers of the first value. -/
theorem System.has_fresh {v : LogDefines} (assigned : System.start.setValue v = some t) (name : Text) :
    t.manager.Has name ↔ name = rootName ∨ ∃ d ∈ v.defines, d.name = name := by
  have start : System.start.manager.Has name ↔ name = rootName := by
    simp [LoggerManager.Has, System.start, LoggerManager.new]
  unfold System.setValue at assigned
  split at assigned
  · rename_i same
    cases assigned
    simp [start, show v.defines = [] from congrArg LogDefines.defines same]
  · obtain ⟨manager, called, rfl⟩ := Option.map_eq_some_iff.mp assigned
    obtain ⟨-, -, rfl⟩ := Option.map_eq_some_iff.mp called
    -- each definition is new, so there is a call for it
    have calls : (∃ c ∈ listenerCalls System.start.val v, c.1 = name) ↔ ∃ d ∈ v.defines, d.name = name := by
      have news : listenerCalls System.start.val v = v.defines.flatMap fun i => on i.name i.configure := by
        simp [listenerCalls, System.start, LogDefines.empty, LogDefines.find]
      rw [news]
      constructor
      · rintro ⟨c, member, rfl⟩
        obtain ⟨d, there, member⟩ := List.mem_flatMap.mp member
        obtain ⟨call, -, rfl⟩ := List.mem_map.mp member
        exact ⟨d, there, rfl⟩
      · rintro ⟨d, there, rfl⟩
        have first : LoggerCall.setLevel d.level ∈ d.configure := by simp [LogDefine.configure]
        exact ⟨_, List.mem_flatMap.mpr ⟨d, there, List.mem_map_of_mem first⟩, rfl⟩
    rw [LoggerManager.has_calls, start, calls]

/-- What is printed without levels has no levels to lose. -/
theorem Logger.define_forgetLevels (l : Logger) : l.forgetLevels.define.forgetLevels = l.define.forgetLevels := by
  have appenders : l.forgetLevels.define.forgetLevels.appenders = l.define.forgetLevels.appenders := by
    show (((l.appenders.map _).map Appender.define).map LogAppenderDefine.forgetLevel) =
      (l.appenders.map Appender.define).map LogAppenderDefine.forgetLevel
    rw [List.map_map, List.map_map, List.map_map]
    rfl
  exact congrArg (LogDefine.mk l.name l.level l.formatter.getPattern) appenders

/-- **Main result**: what comes back from a dump has the same loggers and is dumped as the same value, so one reload
makes a fixed point. -/
theorem dump_stable (reads : yaml.ReadsScalars) (undoes : ∀ node, yaml.Undoes node)
    (ran : System.start.run ops = some s) (keys : Keys s.manager) :
    ∃ out t, (s.manager.toYamlString yaml keys >>= decodeSet yaml) = .ok out ∧ System.start.setValue out = some t ∧
      Nonempty (Keys t.manager) ∧
      ∀ keys' : Keys t.manager, keys'.names = keys.names ∧
        (t.manager.toYamlString yaml keys' >>= decodeSet yaml) = .ok out := by
  obtain ⟨out, t, decoded, described, assigned, back⟩ := System.dump_back reads undoes ran keys
  have again : System.start.run [.assign out] = some t := Option.bind_eq_some_iff.mpr ⟨t, assigned, rfl⟩
  refine ⟨out, t, decoded, assigned, System.keys_run again, fun keys' => ?_⟩
  obtain ⟨out', -, decoded', described', -, -⟩ := System.dump_back reads undoes again keys'
  have coherent := (System.coherent_run ran).2
  have names : keys'.names = keys.names := by
    refine keys.names_eq keys' fun name => ?_
    have entries : (∃ d ∈ out.defines, d.name = name) ↔ s.manager.Has name := by
      rw [described]
      constructor
      · rintro ⟨d, member, rfl⟩
        obtain ⟨key, there, rfl⟩ := List.mem_map.mp member
        rw [show (s.manager.get key).define.forgetLevels.name = key from (coherent key).1]
        exact (keys.complete key).mp there
      · intro has
        exact ⟨_, List.mem_map.mpr ⟨name, (keys.complete name).mpr has, rfl⟩, (coherent name).1⟩
    rw [System.has_fresh assigned, entries]
    exact or_iff_right_of_imp .inl
  have defines : out'.defines = out.defines := by
    rw [described', described, names]
    refine List.map_congr_left fun name _ => ?_
    rw [back, Logger.define_forgetLevels]
  obtain rfl : out' = out := by
    cases out
    cases out'
    cases defines
    rfl
  exact ⟨names, decoded'⟩

/-- The root logger with a plain pattern, and the logger with two appenders. -/
def twoLoggers : LogDefines :=
  let root : LogDefine :=
    { name := rootName, level := .info, formatter := "root %m%n".toList, appenders := [{ type := 2 }] }
  (LogDefines.empty.insert root).insert worker

/-- What yaml-cpp does with the nodes of the two. -/
noncomputable def twoLoggersYaml : YamlCpp :=
  .total (.ofItems (twoLoggers.defines.map LogDefine.node) :: twoLoggers.defines.map LogDefine.node ++
    worker.appenders.map LogAppenderDefine.node)

theorem twoLoggersYaml_undoes (node : Node) : twoLoggersYaml.Undoes node :=
  total_undoes (by decide +kernel) (by decide +kernel) node

theorem twoLoggers_read :
    decodeSet twoLoggersYaml (twoLoggersYaml.emit (.ofItems (twoLoggers.defines.map LogDefine.node))) =
      .ok twoLoggers := by
  have typed : ∀ d ∈ twoLoggers.defines, d.Typed := by
    unfold LogDefine.Typed LogAppenderDefine.Typed
    decide
  have undoes : ∀ d ∈ twoLoggers.defines, twoLoggersYaml.Undoes d.node := fun d _ => twoLoggersYaml_undoes _
  have reads : twoLoggersYaml.ReadsScalars := total_readsScalars _
  obtain ⟨out, decoded, read⟩ := decodeSet_encodeSet reads ⟨twoLoggersYaml_undoes _, undoes⟩ typed
  have same : twoLoggers.defines.map LogDefine.forgetLevels = twoLoggers.defines := by decide
  obtain rfl : out = twoLoggers := by
    obtain ⟨defines, sorted⟩ := out
    obtain rfl : defines = twoLoggers.defines := read.trans same
    rfl
  rw [encodeSet, setNodes_eq undoes] at decoded
  exact decoded

theorem dump_reload_twoLoggers :
    ∃ s keys out t, System.start.run [.assign twoLoggers] = some s ∧
      (s.manager.toYamlString twoLoggersYaml keys >>= decodeSet twoLoggersYaml) = .ok out ∧
      System.start.setValue out = some t ∧
      t.manager.writes "worker".toList .error = s.manager.writes "worker".toList .error := by
  have ends : (System.start.run [.assign twoLoggers]).isSome = true := by decide +kernel
  obtain ⟨s, ran⟩ := Option.isSome_iff_exists.mp ends
  obtain ⟨keys⟩ := System.keys_run ran
  obtain ⟨out, t, decoded, assigned, -, writes⟩ :=
    dump_reload (total_readsScalars _) twoLoggersYaml_undoes ran keys
  refine ⟨s, keys, out, t, ran, decoded, assigned, writes (fun op member => ?_) _ _ (by decide)⟩
  obtain rfl := List.mem_singleton.mp member
  exact ⟨_, twoLoggers_read⟩

theorem dump_stable_twoLoggers :
    ∃ (s t : System) (keys : Keys s.manager) (keys' : Keys t.manager), System.start.run [.assign twoLoggers] = some s ∧
      keys'.names = keys.names ∧
      (t.manager.toYamlString twoLoggersYaml keys' >>= decodeSet twoLoggersYaml) =
        (s.manager.toYamlString twoLoggersYaml keys >>= decodeSet twoLoggersYaml) := by
  have ends : (System.start.run [.assign twoLoggers]).isSome = true := by decide +kernel
  obtain ⟨s, ran⟩ := Option.isSome_iff_exists.mp ends
  obtain ⟨keys⟩ := System.keys_run ran
  obtain ⟨out, t, decoded, -, ⟨keys'⟩, again⟩ := dump_stable (total_readsScalars _) twoLoggersYaml_undoes ran keys
  obtain ⟨names, dumped⟩ := again keys'
  exact ⟨s, t, keys, keys', ran, names, dumped.trans decoded.symm⟩

end Atpdxy.Log
