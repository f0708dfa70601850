import Atpdxy.Config.Load
import Atpdxy.Log.Dump
import Atpdxy.Log.Fallthrough
import Atpdxy.Log.Reload

/-!
# From a file to the loggers

`Config::LoadFromYaml` with the variable `logs` in the registry and the listener
of `LogIniter` on it: what a document says about loggers goes through the
decoder into the variable and through the listener into the manager. A program
does what the registry does with its variables and what assignments of `logs`
do with the loggers (`Synced`).
-/

namespace Atpdxy.Log

/-! ## The loggers and the values -/

section

variable {s t : System} {v : LogDefines} {vs : List LogDefines} {ops more : List Op} {name : Text}

/-- A logger without an entry at the end: forbidden if a value on the way had one. -/
theorem System.run_gone (follows : s.Follows)
    (ran : s.run (vs.map .assign) = some t) (gone : t.val.find name = none) :
    ((∃ v ∈ s.val :: vs, v.find name ≠ none) →
      (t.manager.get name).level = .unknow ∧ (t.manager.get name).appenders = []) ∧
    ((∀ v ∈ s.val :: vs, v.find name = none) → t.manager.get name = s.manager.get name) := by
  induction vs generalizing s with
  | nil =>
    cases ran
    refine ⟨?_, fun _ => rfl⟩
    rintro ⟨v, member, there⟩
    obtain rfl := List.mem_singleton.mp member
    exact (there gone).elim
  | cons v vs ih =>
    obtain ⟨u, assigned, rest⟩ := Option.bind_eq_some_iff.mp ran
    have now := System.get_setValue follows assigned name
    obtain ⟨forbidden, alone⟩ := ih (System.follows_setValue follows assigned) rest
    rw [System.val_setValue assigned] at forbidden alone
    refine ⟨?_, fun none => ?_⟩
    · intro some
      by_cases later : ∃ w ∈ v :: vs, w.find name ≠ none
      · exact forbidden later
      · have none : ∀ w ∈ v :: vs, w.find name = none := by simpa using later
        obtain ⟨w, member, there⟩ := some
        obtain rfl | member := List.mem_cons.mp member
        · rw [none v List.mem_cons_self] at now
          rw [alone none, now]
          simp [Option.isSome_iff_ne_none.mpr there]
        · exact (there (none w member)).elim
    · rw [alone fun w member => none w (List.mem_cons_of_mem _ member), now,
        none v (List.mem_cons_of_mem _ List.mem_cons_self), none s.val List.mem_cons_self]
      rfl

/-- A line through the root logger gets to an appender or ends there; without appenders the root logger goes on
through a null pointer. -/
def canLog (m : LoggerManager) (level : Level) : Bool := (m.log rootName level).isSome

theorem System.Kept.canLog (kept : s.Kept) (level : Level) : canLog s.manager level = true :=
  Option.isSome_iff_ne_none.mpr (System.safe_iff.mpr kept.appenders rootName level)

/-- A run that keeps the root logger an appender, with what is assigned later. -/
theorem System.Kept.run (kept : s.Kept) (keeps : (s.val :: (ops ++ more).filterMap Op.value?).IsChain RootKept)
    (ran : s.run ops = some t) : t.Kept ∧ (t.val :: more.filterMap Op.value?).IsChain RootKept := by
  induction ops generalizing s with
  | nil =>
    cases ran
    exact ⟨kept, keeps⟩
  | cons op ops ih =>
    obtain ⟨u, stepped, rest⟩ := Option.bind_eq_some_iff.mp ran
    cases op with
    | getLogger name =>
      cases stepped
      exact ih (kept.getLogger name) keeps rest
    | assign v =>
      obtain ⟨first, later⟩ := List.isChain_cons_cons.mp keeps
      refine ih ((kept.assign stepped).2 first) ?_ rest
      rw [System.val_setValue stepped]
      exact later

end

namespace Live

open Yaml Run
open Config (Registry Variable ConfigVar Casts Call ListenerId Addr Registered conversions textOf lower listAllMember
  named addressed spelled NonEmptyKeys)

variable {Ty : Type} {Val : Ty → Type}

/-- `std::set<LogDefine>`, and the types of other variables. -/
inductive VarType (Ty : Type)
  | logs
  | other (t : Ty)
  deriving DecidableEq

def VarType.Value (Val : Ty → Type) : VarType Ty → Type
  | .logs => LogDefines
  | .other t => Val t

instance [∀ t, BEq (Val t)] : ∀ t : VarType Ty, BEq (t.Value Val)
  | .logs => inferInstanceAs (BEq LogDefines)
  | .other t => inferInstanceAs (BEq (Val t))

def logsCasts (yaml : YamlCpp) : Casts LogDefines := ⟨encodeSet yaml, decodeSet yaml⟩

def VarType.casts (yaml : YamlCpp) (casts : ∀ t, Casts (Val t)) : ∀ t : VarType Ty, Casts (t.Value Val)
  | .logs => logsCasts yaml
  | .other t => casts t

/-- The listener of `LogIniter` in `m_cbs`. -/
def logIniter : ListenerId := 1

def logsName : Text := "logs".toList

/-- `g_log_defines`. -/
def logsVariable (var : ConfigVar LogDefines) : Variable (VarType.Value Val) where
  name := logsName
  description := "logs config".toList
  type := .logs
  var
  cbs := {logIniter}

/-- The variables and the loggers of a program. -/
structure Program (Val : Ty → Type) where
  registry : Registry (VarType.Value Val)
  manager : LoggerManager

/-- When `main` begins. -/
def Program.start : Program Val where
  registry := ({} : Registry (VarType.Value Val)).create logsName (logsVariable { val := .empty })
  manager := .new

mutual
/-- `ListAllMember` comes to a path that is not valid, and writes a line. -/
def refuses (path : Text) : Node → Bool
  | .map entries => Config.invalid path || refusesMembers path entries
  | _ => Config.invalid path

def refusesMembers (path : Text) : List (Text × Node) → Bool
  | [] => false
  | (key, node) :: rest =>
    refuses (if path.isEmpty then key else path ++ '.' :: key) node || refusesMembers path rest
end

/-- The line of `Lookup` with a default, if it writes one. -/
def lookupLine [DecidableEq Ty] (s : Registry (VarType.Value Val)) : Call (VarType.Value Val) → Option Level
  | .lookupOr type name _ _ =>
    match s.datas name with
    | some it => some (if (s.cast type it).isSome then .info else .error)
    | none => if Config.invalid name then some .error else none
  | _ => none

/-- What `fromString` does with the loggers: a text that does not convert gives a line, and a new value of `logs` goes
to the listener. -/
def fromStringLoggers (yaml : YamlCpp) (casts : ∀ t, Casts (Val t)) (text : Text) (m : LoggerManager) :
    Variable (VarType.Value Val) → Option LoggerManager
  | { type := .logs, var, cbs, .. } =>
    let old : LogDefines := var.val
    match decodeSet yaml text with
    | .ok v => if v ≠ old ∧ logIniter ∈ cbs then listener old v m else some m
    | .error _ => if canLog m .error then some m else none
  | { type := .other t, .. } =>
    match (casts t).fromStr text with
    | .ok _ => some m
    | .error _ => if canLog m .error then some m else none

section Step

variable [∀ t, BEq (Val t)]

/-- One round of the loop of `LoadFromYaml`. -/
def Program.loadEntry (yaml : YamlCpp) (casts : ∀ t, Casts (Val t)) (p : Program Val) (i : Text × Node) :
    Option (Program Val) :=
  let key := lower i.1
  if key.isEmpty then some p
  else
    match p.registry.lookupBase key with
    | none => some p
    | some ptr =>
      match p.registry.heap ptr with
      | none => some p
      | some v =>
        (fromStringLoggers yaml casts (textOf yaml i.2) p.manager v).map fun manager =>
          { registry := { p.registry with
              heap := Function.update p.registry.heap ptr
                (some (v.fromString (VarType.casts yaml casts) (textOf yaml i.2))) }
            manager }

/-- `Config::LoadFromYaml`. -/
def Program.loadFromYaml (yaml : YamlCpp) (casts : ∀ t, Casts (Val t)) (p : Program Val) (root : Node) :
    Option (Program Val) :=
  if refuses [] root && !canLog p.manager .error then none
  else (listAllMember [] root).foldlM (Program.loadEntry yaml casts) p

/-- What a program does with its configuration and its loggers. -/
inductive Act (Val : Ty → Type)
  | call (c : Call (VarType.Value Val))
  | getLogger (name : Text)

/-- A step; none is a call through a null pointer. -/
def Program.step [DecidableEq Ty] (yaml : YamlCpp) (casts : ∀ t, Casts (Val t)) (p : Program Val) :
    Act Val → Option (Program Val)
  | .call (.loadFromYaml root) => p.loadFromYaml yaml casts root
  | .call c =>
    if (lookupLine p.registry c).all (canLog p.manager) then
      some { p with registry := (p.registry.call yaml (VarType.casts yaml casts) c).1 }
    else none
  | .getLogger name => some { p with manager := p.manager.getLogger name }

end Step

/-! ## What holds of a program -/

variable {yaml : YamlCpp} {casts : ∀ t, Casts (Val t)} {p p' : Program Val} {var : ConfigVar LogDefines} {root : Node}
  {name : Text} {i : Text × Node}

/-- The variable `logs` is in the registry, and no other variable has the listener. -/
structure Program.Holds (p : Program Val) (var : ConfigVar LogDefines) : Prop where
  registered : Registered p.registry
  there : ∃ ptr, p.registry.datas logsName = some ptr ∧ p.registry.heap ptr = some (logsVariable var)
  only : ∀ ptr v, p.registry.heap ptr = some v → logIniter ∈ v.cbs → p.registry.datas logsName = some ptr

/-- The variable and the loggers as one system. -/
def Program.system (p : Program Val) (var : ConfigVar LogDefines) : System := ⟨p.manager, var.val⟩

/-- The values of `logs` that the texts assign. -/
def assigns (yaml : YamlCpp) (texts : List Text) : List Op := (conversions (logsCasts yaml) texts).map .assign

theorem fromString_logsVariable [∀ t, BEq (Val t)] (text : Text) :
    (logsVariable var : Variable (VarType.Value Val)).fromString (VarType.casts yaml casts) text =
      logsVariable (var.fromString (logsCasts yaml) {logIniter} 0 text) := rfl

theorem conversions_single (text : Text) :
    conversions (logsCasts yaml) [text] = (decodeSet yaml text).toOption.toList := by
  cases read : decodeSet yaml text <;> simp [conversions, logsCasts, read, Except.toOption]

/-- `fromString` on `logs` is an assignment of what the text converts to. -/
theorem fromString_logs {text : Text} {m m' : LoggerManager}
    (done : fromStringLoggers yaml casts text m (logsVariable var : Variable (VarType.Value Val)) = some m') :
    (⟨m, var.val⟩ : System).run (assigns yaml [text]) =
      some ⟨m', (var.fromString (logsCasts yaml) {logIniter} 0 text).val⟩ := by
  rw [assigns, conversions_single]
  cases read : decodeSet yaml text with
  | error e =>
    have same : m = m' := by
      simp only [fromStringLoggers, logsVariable, read] at done
      split at done
      · exact Option.some.inj done
      · cases done
    rw [same, Config.fromString_error (show (logsCasts yaml).fromStr text = .error e from read)]
    rfl
  | ok x =>
    rw [Config.fromString_ok (show (logsCasts yaml).fromStr text = .ok x from read)]
    by_cases same : x = var.val
    · obtain rfl : m = m' := by simpa [fromStringLoggers, logsVariable, read, same] using done
      simp [Except.toOption, System.run, Run.exec, System.step, System.setValue, ConfigVar.setValue, same]
    · have called : listener var.val x m = some m' := by
        simpa [fromStringLoggers, logsVariable, read, same] using done
      simp [Except.toOption, System.run, Run.exec, System.step, System.setValue, ConfigVar.setValue, same, called]

/-- A variable without the listener leaves the loggers alone. -/
theorem fromString_other {text : Text} {m m' : LoggerManager} {v : Variable (VarType.Value Val)}
    (other : logIniter ∉ v.cbs) (done : fromStringLoggers yaml casts text m v = some m') : m' = m := by
  obtain ⟨name, description, type, var, cbs⟩ := v
  have out : logIniter ∉ cbs := other
  cases type with
  | other t =>
    simp only [fromStringLoggers] at done
    split at done
    · exact (Option.some.inj done).symm
    · split at done <;> cases done
      rfl
  | logs =>
    simp only [fromStringLoggers, out, and_false, if_false] at done
    split at done
    · exact (Option.some.inj done).symm
    · split at done <;> cases done
      rfl

theorem assigns_append (first second : List Text) :
    assigns yaml (first ++ second) = assigns yaml first ++ assigns yaml second := by
  simp [assigns, conversions]

theorem named_cons (key : Text) (i : Text × Node) (entries : List (Text × Node)) :
    named key (i :: entries) = named key [i] ++ named key entries := by
  simp [named, ← List.map_append, ← List.filter_append]

theorem named_single (key : Text) (i : Text × Node) :
    named key [i] = if i.1 ≠ [] ∧ lower i.1 = key then [i.2] else [] := by
  by_cases here : i.1 ≠ [] ∧ lower i.1 = key
  · simp [named, here]
  · rw [if_neg here]
    simp only [named, List.map_eq_nil_iff, List.filter_eq_nil_iff, List.mem_singleton, Bool.and_eq_true,
      Bool.not_eq_true', beq_iff_eq]
    rintro _ rfl ⟨filled, same⟩
    exact here ⟨by simpa using filled, same⟩

/-- The values of `logs` in a document, in the order of the nodes. -/
def assigned (yaml : YamlCpp) (root : Node) : List LogDefines :=
  conversions (logsCasts yaml) ((named logsName (listAllMember [] root)).map (textOf yaml))

/-- They are what the nodes that spell the name convert to. -/
theorem assigned_eq (yaml : YamlCpp) (root : Node) :
    assigned yaml root = conversions (logsCasts yaml) ((spelled root logsName).map (textOf yaml)) := by
  rw [assigned, Config.named_eq_spelled (by decide) (by decide)]

/-- What a document with nothing but a sequence under `logs` assigns. -/
theorem assigned_logs {nodes : List Node} {v : LogDefines}
    (read : decodeSet yaml (yaml.emit (.ofItems nodes)) = .ok v) :
    assigned yaml (.map [(logsName, .ofItems nodes)]) = [v] := by
  have text : (named logsName (listAllMember [] (.map [(logsName, .ofItems nodes)]))).map (textOf yaml) =
      [yaml.emit (.ofItems nodes)] := by
    cases nodes <;> rfl
  rw [assigned, text, conversions_single, read]
  rfl

theorem assigned_decoded {op : Op} (member : op ∈ (assigned yaml root).map .assign) : op.Decoded yaml := by
  obtain ⟨v, there, rfl⟩ := List.mem_map.mp member
  obtain ⟨text, -, read⟩ := List.mem_filterMap.mp there
  refine ⟨text, ?_⟩
  cases converted : decodeSet yaml text with
  | error e => simp [logsCasts, converted, Except.toOption] at read
  | ok x =>
    obtain rfl : x = v := by simpa [logsCasts, converted, Except.toOption] using read
    rfl

/-- A variable that is set keeps its listeners. -/
theorem Program.Holds.only_update (holds : p.Holds var) {ptr : Addr} {v v' : Variable (VarType.Value Val)}
    (there : p.registry.heap ptr = some v) (cbs : v'.cbs = v.cbs) :
    ∀ other w, Function.update p.registry.heap ptr (some v') other = some w → logIniter ∈ w.cbs →
      p.registry.datas logsName = some other := by
  intro other w found listens
  by_cases same : other = ptr
  · subst same
    rw [Function.update_self] at found
    obtain rfl := Option.some.inj found
    exact holds.only other v there (cbs ▸ listens)
  · rw [Function.update_of_ne same] at found
    exact holds.only other w found listens

/-- A new variable has no listener. -/
theorem Program.Holds.create (holds : p.Holds var) {v : VarType Ty} {default : v.Value Val} {description : Text}
    (new : p.registry.datas name = none) (valid : ∀ c ∈ name, c ∈ Config.allowed) :
    Program.Holds { p with registry := p.registry.create name (.new v name default description) } var where
  registered := holds.registered.create valid
  there := by
    obtain ⟨ptr, behind, there⟩ := holds.there
    have apart : logsName ≠ name := by
      rintro rfl
      rw [new] at behind
      cases behind
    have old : ptr ≠ p.registry.next := by
      rintro rfl
      rw [holds.registered.unused _ (Nat.le_refl _)] at there
      cases there
    exact ⟨ptr, (Function.update_of_ne apart ..).trans behind, (Function.update_of_ne old ..).trans there⟩
  only ptr w there listens := by
    rw [Config.create_heap] at there
    by_cases fresh : ptr = p.registry.next
    · subst fresh
      rw [Function.update_self] at there
      obtain rfl := Option.some.inj there
      exact (Finset.notMem_empty _ listens).elim
    · rw [Function.update_of_ne fresh] at there
      have behind := holds.only ptr w there listens
      have apart : logsName ≠ name := by
        rintro rfl
        rw [new] at behind
        cases behind
      exact (Function.update_of_ne apart ..).trans behind

theorem fromStringLoggers_isSome {text : Text} {m : LoggerManager} (can : ∀ level, canLog m level = true)
    (v : Variable (VarType.Value Val)) : (fromStringLoggers yaml casts text m v).isSome = true := by
  obtain ⟨name, description, type, var, cbs⟩ := v
  cases type with
  | other t =>
    simp only [fromStringLoggers, can]
    split <;> rfl
  | logs =>
    simp only [fromStringLoggers, can]
    split
    · split
      · have line : (m.log rootName .info).isSome = true := can .info
        simpa [listener] using line
      · rfl
    · rfl

section Load

variable [∀ t, BEq (Val t)]

/-- What a round of the loop does: nothing, or `fromString` on a variable. -/
theorem loadEntry_cases (done : p.loadEntry yaml casts i = some p') (registered : Registered p.registry) :
    ((i.1 = [] ∨ p.registry.datas (lower i.1) = none) ∧ p' = p) ∨
      ∃ ptr v, i.1 ≠ [] ∧ p.registry.datas (lower i.1) = some ptr ∧ p.registry.heap ptr = some v ∧
        fromStringLoggers yaml casts (textOf yaml i.2) p.manager v = some p'.manager ∧
        p'.registry = { p.registry with
          heap := Function.update p.registry.heap ptr
            (some (v.fromString (VarType.casts yaml casts) (textOf yaml i.2))) } := by
  have empty : (lower i.1).isEmpty = i.1.isEmpty := by cases i.1 <;> rfl
  simp only [Program.loadEntry, empty, Registry.lookupBase] at done
  split at done
  · rename_i skipped
    exact .inl ⟨.inl (List.isEmpty_iff.mp skipped), (Option.some.inj done).symm⟩
  · rename_i filled
    split at done
    · rename_i absent
      exact .inl ⟨.inr absent, (Option.some.inj done).symm⟩
    · rename_i ptr found
      obtain ⟨v, there, -⟩ := registered.entry _ _ found
      rw [there] at done
      obtain ⟨manager, called, rfl⟩ := Option.map_eq_some_iff.mp done
      exact .inr ⟨ptr, v, by simpa using filled, found, there, called, rfl⟩

/-- A round as the registry sees it. -/
theorem loadEntry_registry (done : p.loadEntry yaml casts i = some p') (registered : Registered p.registry) :
    p'.registry = p.registry.loadEntry yaml (VarType.casts yaml casts) i := by
  unfold Registry.loadEntry
  obtain ⟨skipped, rfl⟩ | ⟨ptr, v, filled, found, there, -, next⟩ := loadEntry_cases done registered
  · obtain empty | absent := skipped
    · simp [empty, lower]
    · simp [Registry.lookupBase, absent]
  · have filled : (lower i.1).isEmpty = false := by simpa [lower] using filled
    simp [Registry.lookupBase, filled, found, there, next]

/-- **A round of the loop**: an assignment, if the entry is for `logs` and converts, and else nothing. -/
theorem Program.Holds.loadEntry (holds : p.Holds var) (done : p.loadEntry yaml casts i = some p') :
    ∃ var', p'.Holds var' ∧
      (p.system var).run (assigns yaml ((named logsName [i]).map (textOf yaml))) = some (p'.system var') := by
  obtain ⟨logs, behind, there⟩ := holds.there
  have registered : Registered p'.registry := by
    rw [loadEntry_registry done holds.registered]
    exact (Config.sets_loadEntry _ _ _ _).registered holds.registered
  rw [named_single]
  obtain ⟨skipped, rfl⟩ | ⟨ptr, v, filled, found, at_, called, next⟩ := loadEntry_cases done holds.registered
  · have apart : ¬ (i.1 ≠ [] ∧ lower i.1 = logsName) := by
      rintro ⟨filled, same⟩
      have absent := skipped.resolve_left filled
      rw [same, behind] at absent
      cases absent
    rw [if_neg apart]
    exact ⟨var, holds, rfl⟩
  · have datas : p'.registry.datas = p.registry.datas := by rw [next]
    have heap : p'.registry.heap = Function.update p.registry.heap ptr
        (some (v.fromString (VarType.casts yaml casts) (textOf yaml i.2))) := by rw [next]
    have only : ∀ other w, p'.registry.heap other = some w → logIniter ∈ w.cbs →
        p'.registry.datas logsName = some other := by
      rw [heap, datas]
      exact holds.only_update at_ rfl
    by_cases here : lower i.1 = logsName
    · rw [if_pos ⟨filled, here⟩]
      obtain rfl : logs = ptr := by
        rw [here, behind] at found
        exact Option.some.inj found
      obtain rfl : v = logsVariable var := Option.some.inj (at_.symm.trans there)
      refine ⟨_, ⟨registered, ⟨logs, datas ▸ behind, ?_⟩, only⟩, fromString_logs called⟩
      rw [heap, Function.update_self, fromString_logsVariable]
    · rw [if_neg fun both => here both.2]
      have apart : logs ≠ ptr := by
        rintro rfl
        exact here (holds.registered.key_unique found behind)
      have silent : logIniter ∉ v.cbs := by
        intro listens
        exact apart (Option.some.inj (behind.symm.trans (holds.only ptr v at_ listens)))
      refine ⟨var, ⟨registered, ⟨logs, datas ▸ behind, ?_⟩, only⟩, ?_⟩
      · rw [heap, Function.update_of_ne apart]
        exact there
      · rw [Program.system, Program.system, fromString_other silent called]
        rfl

theorem Program.Holds.loadEntries {entries : List (Text × Node)} (holds : p.Holds var)
    (done : entries.foldlM (Program.loadEntry yaml casts) p = some p') :
    ∃ var', p'.Holds var' ∧
      (p.system var).run (assigns yaml ((named logsName entries).map (textOf yaml))) = some (p'.system var') := by
  induction entries generalizing p var with
  | nil =>
    cases done
    exact ⟨var, holds, rfl⟩
  | cons i entries ih =>
    obtain ⟨q, first, rest⟩ := Option.bind_eq_some_iff.mp done
    obtain ⟨mid, holds, now⟩ := holds.loadEntry first
    obtain ⟨var', holds, later⟩ := ih holds rest
    refine ⟨var', holds, ?_⟩
    rw [named_cons, List.map_append, assigns_append, System.run, exec_append]
    exact Option.bind_eq_some_iff.mpr ⟨_, now, later⟩

/-- **A load** assigns the values of `logs` in the document. -/
theorem Program.Holds.load (holds : p.Holds var) (done : p.loadFromYaml yaml casts root = some p') :
    ∃ var', p'.Holds var' ∧ (p.system var).run ((assigned yaml root).map .assign) = some (p'.system var') := by
  unfold Program.loadFromYaml at done
  split at done
  · cases done
  · exact holds.loadEntries done

theorem loadEntry_isSome (can : ∀ level, canLog p.manager level = true) (i : Text × Node) :
    (p.loadEntry yaml casts i).isSome = true := by
  unfold Program.loadEntry
  dsimp only
  split
  · rfl
  · split
    · rfl
    · split
      · rfl
      · rw [Option.isSome_map]
        exact fromStringLoggers_isSome can _

theorem Program.Holds.loadEntries_ends {entries : List (Text × Node)} (holds : p.Holds var)
    (kept : (p.system var).Kept)
    (keeps : (var.val :: (assigns yaml ((named logsName entries).map (textOf yaml))).filterMap Op.value?).IsChain
      RootKept) :
    ∃ p', entries.foldlM (Program.loadEntry yaml casts) p = some p' := by
  induction entries generalizing p var with
  | nil => exact ⟨p, rfl⟩
  | cons i entries ih =>
    obtain ⟨q, first⟩ := Option.isSome_iff_exists.mp (loadEntry_isSome kept.canLog i)
    obtain ⟨mid, holds, now⟩ := holds.loadEntry first
    rw [named_cons, List.map_append, assigns_append] at keeps
    obtain ⟨kept, keeps⟩ := kept.run keeps now
    obtain ⟨p', rest⟩ := ih holds kept keeps
    exact ⟨p', Option.bind_eq_some_iff.mpr ⟨q, first, rest⟩⟩

/-- The assignments and the requests for loggers in what a program does. -/
def Act.ops (yaml : YamlCpp) : Act Val → List Op
  | .call (.loadFromYaml root) => (assigned yaml root).map .assign
  | .call _ => []
  | .getLogger name => [.getLogger name]

omit [∀ t, BEq (Val t)] in
theorem Act.ops_decoded {a : Act Val} {op : Op} (member : op ∈ a.ops yaml) : op.Decoded yaml := by
  cases a with
  | getLogger name =>
    obtain rfl := List.mem_singleton.mp member
    trivial
  | call c =>
    cases c with
    | loadFromYaml root => exact assigned_decoded member
    | lookupOr type name default description => cases member
    | lookup type name => cases member
    | lookupBase name => cases member

omit [∀ t, BEq (Val t)] in
theorem Program.start_holds : (Program.start : Program Val).Holds { val := .empty } where
  registered :=
    { entry := fun key ptr found => by
        have name : key = logsName := by
          by_contra other
          rw [Program.start, Config.create_datas, Function.update_of_ne other] at found
          cases found
        subst name
        obtain rfl : 0 = ptr := Option.some.inj found
        exact ⟨_, rfl, rfl, Config.invalid_eq_false.mp (by decide)⟩
      unused := fun ptr later => by
        have later : 1 ≤ ptr := later
        exact Function.update_of_ne (Nat.ne_of_gt later) .. }
  there := ⟨0, rfl, rfl⟩
  only ptr v there _ := by
    by_cases first : ptr = 0
    · rw [first]
      rfl
    · cases (Function.update_of_ne first ..).symm.trans there

/-- A fresh program loads such a document. -/
theorem start_loads (nodes : List Node) :
    ∃ p', (Program.start : Program Val).loadFromYaml yaml casts (.map [(logsName, .ofItems nodes)]) = some p' := by
  have can : ∀ level, canLog (Program.start : Program Val).manager level = true := System.start_kept.canLog
  have ends : ((Program.start : Program Val).loadEntry yaml casts (logsName, .ofItems nodes)).isSome = true :=
    loadEntry_isSome can _
  obtain ⟨p', second⟩ := Option.isSome_iff_exists.mp ends
  refine ⟨p', ?_⟩
  have listed : listAllMember [] (.map [(logsName, .ofItems nodes)]) =
      [([], .map [(logsName, .ofItems nodes)]), (logsName, .ofItems nodes)] := by
    cases nodes <;> rfl
  have first : (Program.start : Program Val).loadEntry yaml casts ([], .map [(logsName, .ofItems nodes)]) =
      some .start := rfl
  rw [Program.loadFromYaml, can .error, Bool.not_true, Bool.and_false, if_neg Bool.false_ne_true, listed,
    List.foldlM_cons, first]
  exact Option.bind_eq_some_iff.mpr ⟨_, rfl, Option.bind_eq_some_iff.mpr ⟨p', second, rfl⟩⟩

section Runs

variable [DecidableEq Ty] {a : Act Val} {acts : List (Act Val)}

/-- A step of a program is one of its loggers and the variable. -/
theorem Program.Holds.step (holds : p.Holds var) (stepped : p.step yaml casts a = some p') :
    ∃ var', p'.Holds var' ∧ (p.system var).run (a.ops yaml) = some (p'.system var') := by
  cases a with
  | getLogger name =>
    cases stepped
    exact ⟨var, ⟨holds.registered, holds.there, holds.only⟩, rfl⟩
  | call c =>
    cases c with
    | loadFromYaml root => exact holds.load stepped
    | lookup type name =>
      cases stepped
      exact ⟨var, holds, rfl⟩
    | lookupBase name =>
      cases stepped
      exact ⟨var, holds, rfl⟩
    | lookupOr type name default description =>
      simp only [Program.step] at stepped
      split at stepped
      · cases stepped
        refine ⟨var, ?_, rfl⟩
        simp only [Registry.call]
        obtain ⟨it, -, found⟩ | ⟨-, refused⟩ | ⟨new, valid, created⟩ :=
          Config.lookupOr_cases p.registry type name default description
        · rw [found]
          exact holds
        · rw [refused]
          exact holds
        · rw [created]
          exact holds.create new valid
      · cases stepped

/-- A run of a program is one of its loggers and the variable. -/
theorem Program.Holds.run (ran : exec (Program.step yaml casts) p acts = some p') (holds : p.Holds var) :
    ∃ var', p'.Holds var' ∧ (p.system var).run (acts.flatMap (Act.ops yaml)) = some (p'.system var') := by
  induction acts generalizing p var with
  | nil =>
    cases ran
    exact ⟨var, holds, rfl⟩
  | cons a acts ih =>
    obtain ⟨q, first, rest⟩ := Option.bind_eq_some_iff.mp ran
    obtain ⟨mid, holds, now⟩ := holds.step first
    obtain ⟨var', holds, later⟩ := ih rest holds
    refine ⟨var', holds, ?_⟩
    rw [List.flatMap_cons, System.run, exec_append]
    exact Option.bind_eq_some_iff.mpr ⟨_, now, later⟩

/-! ## What a load does to the loggers -/

/-- **Main result**: what a document does to the loggers of a program. The nodes whose keys spell `logs` are assigned
as far as they convert; without empty keys they are the nodes that `logs` addresses. A logger with an entry in the
last value gets its level and appenders, and the last valid pattern it was given; one whose entry has gone is
forbidden, and one that had none is as it was. -/
theorem logs_loaded (ran : exec (Program.step yaml casts) Program.start acts = some p)
    (done : p.loadFromYaml yaml casts root = some p') :
    ∃ var var' vs, p.Holds var ∧ p'.Holds var' ∧
      vs = conversions (logsCasts yaml) ((spelled root logsName).map (textOf yaml)) ∧
      (NonEmptyKeys root → vs = conversions (logsCasts yaml) ((addressed root logsName).map (textOf yaml))) ∧
      var'.val = (var.val :: vs).getLast (by simp) ∧
      ∀ name,
        (∀ d, var'.val.find name = some d →
          (p'.manager.get name).view =
            d.view (vs.foldl (patternAfter name) (p.manager.get name).formatter.getPattern)) ∧
        (var'.val.find name = none → (∃ v ∈ var.val :: vs, v.find name ≠ none) →
          (p'.manager.get name).level = .unknow ∧ (p'.manager.get name).appenders = []) ∧
        ((∀ v ∈ var.val :: vs, v.find name = none) → p'.manager.get name = p.manager.get name) := by
  obtain ⟨var, holds, before⟩ := Program.start_holds.run ran
  obtain ⟨var', holds', loads⟩ := holds.load done
  obtain ⟨follows, -⟩ := System.coherent_run before
  have addresses : NonEmptyKeys root →
      assigned yaml root = conversions (logsCasts yaml) ((addressed root logsName).map (textOf yaml)) := by
    intro full
    rw [assigned, Config.named_eq_addressed full]
  refine ⟨var, var', _, holds, holds', assigned_eq yaml root, addresses, ?_, fun name =>
    ⟨fun d found => ?_, fun gone some => ?_, fun missing => ?_⟩⟩
  · exact (System.run_follows follows loads []).2.1
  · obtain ⟨follows', -, pattern⟩ := System.run_follows follows loads name
    have now : p'.manager.get name = (p'.manager.get name).configured d := follows' name d found
    have view := Logger.view_configured (p'.manager.get name) d
    rw [← now] at view
    have same : (p'.manager.get name).formatter.getPattern = _ := congrArg View.pattern view
    rw [view]
    exact congrArg d.view (same.symm.trans pattern)
  · exact (System.run_gone follows loads gone).1 some
  · have gone : var'.val.find name = none := by
      rw [show var'.val = _ from (System.run_follows follows loads name).2.1]
      exact missing _ (List.getLast_mem _)
    exact (System.run_gone follows loads gone).2 missing

/-! ## Documents that leave the root logger an appender -/

theorem Program.Holds.step_ends (holds : p.Holds var) (kept : (p.system var).Kept)
    (keeps : (var.val :: (a.ops yaml).filterMap Op.value?).IsChain RootKept) :
    ∃ p', p.step yaml casts a = some p' := by
  have can : ∀ level, canLog p.manager level = true := kept.canLog
  have lines : ∀ c, (lookupLine p.registry c).all (canLog p.manager) = true := by
    intro c
    cases lookupLine p.registry c with
    | none => rfl
    | some level => exact can level
  cases a with
  | getLogger name => exact ⟨_, rfl⟩
  | call c =>
    cases c with
    | loadFromYaml root =>
      obtain ⟨p', done⟩ := holds.loadEntries_ends kept keeps
      refine ⟨p', ?_⟩
      rw [Program.step, Program.loadFromYaml, can .error, Bool.not_true, Bool.and_false,
        if_neg Bool.false_ne_true]
      exact done
    | lookupOr type name default description => exact ⟨_, if_pos (lines _)⟩
    | lookup type name => exact ⟨_, rfl⟩
    | lookupBase name => exact ⟨_, rfl⟩

/-- **Main result**: a program whose values of `logs` leave the root logger an appender, each after the one before,
makes no call through a null pointer, and no event does that is logged when it has come to an end. -/
theorem program_ends
    (keeps : (LogDefines.empty :: (acts.flatMap (Act.ops yaml)).filterMap Op.value?).IsChain RootKept) :
    ∃ p, exec (Program.step yaml casts) (Program.start : Program Val) acts = some p ∧
      ∀ name level, p.manager.log name level ≠ none := by
  have all : ∀ (p : Program Val) (var : ConfigVar LogDefines), p.Holds var → (p.system var).Kept →
      (var.val :: (acts.flatMap (Act.ops yaml)).filterMap Op.value?).IsChain RootKept →
      ∃ p', exec (Program.step yaml casts) p acts = some p' ∧ ∀ name level, p'.manager.log name level ≠ none := by
    clear keeps
    induction acts with
    | nil => exact fun p var _ kept _ => ⟨p, rfl, System.safe_iff.mpr kept.appenders⟩
    | cons a acts ih =>
      intro p var holds kept keeps
      rw [List.flatMap_cons] at keeps
      have here : (var.val :: (a.ops yaml).filterMap Op.value?).IsChain RootKept := by
        rw [List.filterMap_append, ← List.cons_append] at keeps
        exact keeps.left_of_append
      obtain ⟨q, first⟩ := holds.step_ends kept here
      obtain ⟨mid, holds, now⟩ := holds.step first
      obtain ⟨kept, keeps⟩ := kept.run keeps now
      obtain ⟨p', rest, safe⟩ := ih q mid holds kept keeps
      exact ⟨p', Option.bind_eq_some_iff.mpr ⟨q, first, rest⟩, safe⟩
  exact all _ _ Program.start_holds System.start_kept keeps

/-! ## What a program prints -/

/-- **Main result**: what a program prints of its loggers can be its configuration the next time: under the key `logs`
a fresh program loads it, and its loggers write as those of the program did. -/
theorem restart (reads : yaml.ReadsScalars) (undoes : ∀ node, yaml.Undoes node)
    (ran : exec (Program.step yaml casts) (Program.start : Program Val) acts = some p) (keys : Keys p.manager) :
    ∃ node p', p.manager.toYamlString yaml keys = .ok (yaml.emit node) ∧
      (Program.start : Program Val).loadFromYaml yaml casts (.map [(logsName, node)]) = some p' ∧
      ∀ name level, level ≠ .unknow → p'.manager.writes name level = p.manager.writes name level := by
  obtain ⟨var, holds, before⟩ := Program.start_holds.run ran
  have decoded : ∀ op ∈ acts.flatMap (Act.ops yaml), op.Decoded yaml := by
    intro op member
    obtain ⟨a, -, member⟩ := List.mem_flatMap.mp member
    exact Act.ops_decoded member
  have opened := System.open_run before decoded
  obtain ⟨out, t, dumped, -, fresh, back⟩ := System.dump_back reads undoes before keys
  obtain ⟨text, printed, read⟩ := bind_eq_ok dumped
  obtain ⟨nodes, -, emitted⟩ := bind_eq_ok printed
  cases emitted
  obtain ⟨p', done⟩ : ∃ p', (Program.start : Program Val).loadFromYaml yaml casts _ = some p' := start_loads nodes
  refine ⟨.ofItems nodes, p', printed, done, fun name level real => ?_⟩
  obtain ⟨var', -, loads⟩ := Program.start_holds.load done
  rw [assigned_logs read] at loads
  have same : p'.manager = t.manager := by
    have twice : System.start.setValue out = some (p'.system var') := by
      obtain ⟨u, first, rest⟩ := Option.bind_eq_some_iff.mp loads
      cases rest
      exact first
    exact congrArg System.manager (Option.some.inj (twice.symm.trans fresh))
  exact LoggerManager.writes_forgetLevels opened (fun name => by rw [same]; exact back name) real name

end Runs

end Load

/-! ## A document -/

/-- Nothing but two loggers. -/
def twoLoggersTree : Node := .map [(logsName, .ofItems (twoLoggers.defines.map LogDefine.node))]

theorem twoLoggersTree_assigned : assigned twoLoggersYaml twoLoggersTree = [twoLoggers] := assigned_logs twoLoggers_read

/-- A program with flags. -/
abbrev Flags := Program fun _ : Unit => Bool

theorem twoLoggersTree_loads :
    ∃ p : Flags, Program.start.loadFromYaml twoLoggersYaml (fun _ => Config.boolCasts) twoLoggersTree = some p :=
  start_loads _

theorem logs_loaded_twoLoggers :
    ∃ p' : Flags, Program.start.loadFromYaml twoLoggersYaml (fun _ => Config.boolCasts) twoLoggersTree = some p' ∧
      (p'.manager.get "worker".toList).view = worker.view worker.formatter := by
  obtain ⟨p', done⟩ := twoLoggersTree_loads
  have fresh : exec (Program.step twoLoggersYaml fun _ => Config.boolCasts) (Program.start : Flags) [] =
      some .start := rfl
  obtain ⟨var, var', vs, -, -, values, -, last, each⟩ := logs_loaded fresh done
  rw [← assigned_eq, twoLoggersTree_assigned] at values
  subst values
  have val : var'.val = twoLoggers := last
  have found : var'.val.find "worker".toList = some worker := by
    rw [val]
    decide
  refine ⟨p', done, ?_⟩
  have entry : twoLoggers.find "worker".toList = some worker := by decide
  rw [(each _).1 worker found]
  simp only [List.foldl_cons, List.foldl_nil, patternAfter, entry]
  rw [if_pos (by decide +kernel)]

/-- The document, and a logger that it does not name. -/
def twoLoggersActs : List (Act fun _ : Unit => Bool) :=
  [.call (.loadFromYaml twoLoggersTree), .getLogger "other".toList]

theorem program_ends_twoLoggers :
    ∃ p, exec (Program.step twoLoggersYaml fun _ => Config.boolCasts) (Program.start : Flags) twoLoggersActs = some p ∧
      ∀ name level, p.manager.log name level ≠ none := by
  refine program_ends ?_
  have values : (twoLoggersActs.flatMap (Act.ops twoLoggersYaml)).filterMap Op.value? = [twoLoggers] := by
    simp [twoLoggersActs, Act.ops, twoLoggersTree_assigned, Op.value?]
  rw [values]
  refine List.isChain_cons_cons.mpr ⟨?_, List.isChain_singleton _⟩
  have found : (twoLoggers.find rootName).any fun d => !d.appenders.isEmpty := by decide
  obtain ⟨d, there, some⟩ := (Option.any_eq_true ..).mp found
  rw [RootKept, there]
  simpa using some

theorem restart_twoLoggers :
    ∃ (p p' : Flags) (keys : Keys p.manager) (node : Node),
      Program.start.loadFromYaml twoLoggersYaml (fun _ => Config.boolCasts) twoLoggersTree = some p ∧
      p.manager.toYamlString twoLoggersYaml keys = .ok (twoLoggersYaml.emit node) ∧
      p'.manager.writes "worker".toList .error = p.manager.writes "worker".toList .error := by
  obtain ⟨p, done⟩ := twoLoggersTree_loads
  have ran : exec (Program.step twoLoggersYaml fun _ => Config.boolCasts) (Program.start : Flags)
      [.call (.loadFromYaml twoLoggersTree)] = some p := Option.bind_eq_some_iff.mpr ⟨p, done, rfl⟩
  obtain ⟨var, -, before⟩ := Program.start_holds.run ran
  obtain ⟨keys⟩ := System.keys_run before
  obtain ⟨node, p', printed, -, writes⟩ := restart (total_readsScalars _) twoLoggersYaml_undoes ran keys
  exact ⟨p, p', keys, node, done, printed, writes _ _ (by decide)⟩

end Live

end Atpdxy.Log
