import Atpdxy.Config.Registry
import Atpdxy.Cpp.Ordered
import Atpdxy.Sync.Mutex

/-!
# Threads that use the registry

`Config::Lookup`, `LookupBase` and `Visit` statement by statement, under the `RWMutex` of
the registry and from any number of threads. What they return is what they return one at a
time (`registry_shared`); in particular a name has one variable, whoever asked for
it first, and a `Visit` comes upon each variable that was registered when it began, in
the order of their names, and no other.
-/

namespace Atpdxy.Config.Shared

open Yaml Run Run.Sections Cpp

variable {Ty : Type} {Val : Ty → Type} [DecidableEq Ty] {ι : Type}

/-- `GetDatas()` as a `std::map`, with its keys in order. -/
structure Datas (Val : Ty → Type) extends Registry Val where
  keys : Ordered ((· < ·) : Text → Text → Prop) := .empty

/-- The functions that are one section under the lock of the registry. -/
inductive Section (Val : Ty → Type)
  | lookupOr (type : Ty) (name : Text) (default : Val type) (description : Text)
  | lookup (type : Ty) (name : Text)
  | lookupBase (name : Text)
  | visit

/-- What a function returns; for `Visit` the variables its callback was called with. -/
inductive Result
  | outcome (o : Outcome)
  | visited (ptrs : List Addr)
  deriving DecidableEq, Repr

/-- `new ConfigVar<T>(name, default_value, description)`. -/
def Datas.alloc (d : Datas Val) (type : Ty) (name : Text) (default : Val type) (description : Text) : Datas Val :=
  { d with
    heap := Function.update d.heap d.next (some (.new type name default description))
    next := d.next + 1 }

/-- The order of the keys. -/
theorem text_isStrictOrder : IsStrictOrder Text ((· < ·) : Text → Text → Prop) := inferInstance

def insertKey (keys : Ordered ((· < ·) : Text → Text → Prop)) (name : Text) :
    Ordered ((· < ·) : Text → Text → Prop) :=
  haveI := text_isStrictOrder
  keys.insert name

/-- `GetDatas()[name] = v`. -/
def Datas.insert (d : Datas Val) (name : Text) (v : Addr) : Datas Val :=
  { d with datas := Function.update d.datas name (some v), keys := insertKey d.keys name }

/-- `Config::Lookup` with a default, under the write lock. -/
def lookupOr (type : Ty) (name : Text) (default : Val type) (description : Text) : Op (Datas Val) Result :=
  .exclusive <|
  .get fun d =>
    match d.datas name with
    | some it => .get fun d => .done (.outcome (.returned (d.cast type it)))
    | none =>
      if invalid name then .done (.outcome (.threw name))
      else
        .get fun d =>
          .put (fun d => d.alloc type name default description) <|
          .put (fun d' => d'.insert name d.next) <|
          .done (.outcome (.returned (some d.next)))

/-- `Config::Lookup` without. -/
def lookup (type : Ty) (name : Text) : Op (Datas Val) Result where
  mode := .read
  body := .get fun d =>
    match d.datas name with
    | some it => .get fun d => .done (.outcome (.returned (d.cast type it)))
    | none => .done (.outcome (.returned none))
  readOnly _ d := by
    dsimp only
    split
    · exact fun _ => trivial
    · trivial

/-- `Config::LookupBase`. -/
def lookupBase (name : Text) : Op (Datas Val) Result where
  mode := .read
  body := .get fun d => .done (.outcome (.returned (d.datas name)))
  readOnly _ _ := trivial

/-- The key an iterator is moved to: the first one, or the one behind. -/
def Datas.after (d : Datas Val) : Option Text → Option Text
  | none => d.keys.elems.head?
  | some key => d.keys.elems.find? fun k => key < k

/-- The loop of `Visit`, for at most `n` rounds. -/
def visitLoop : Nat → Option Text → List Addr → Body (Datas Val) Result
  | 0, _, ptrs => .done (.visited ptrs)
  | n + 1, it, ptrs =>
    .get fun d =>
      match d.after it with
      | none => .done (.visited ptrs)
      | some key => visitLoop n (some key) (ptrs ++ (d.datas key).toList)

omit [DecidableEq Ty] in
theorem visitLoop_readOnly (n : Nat) (it : Option Text) (ptrs : List Addr) :
    (visitLoop n it ptrs : Body (Datas Val) Result).ReadOnly := by
  induction n generalizing it ptrs with
  | zero => trivial
  | succ n ih =>
    intro d
    dsimp only
    split
    · trivial
    · exact ih _ _

/-- `Config::Visit`; it makes a round for each variable, and one that ends it. -/
def visit : Op (Datas Val) Result where
  mode := .read
  body := .get fun d => visitLoop (d.keys.elems.length + 1) none []
  readOnly _ _ := visitLoop_readOnly _ _ _

def ops : Section Val → Op (Datas Val) Result
  | .lookupOr type name default description => lookupOr type name default description
  | .lookup type name => lookup type name
  | .lookupBase name => lookupBase name
  | .visit => visit

/-! ## One at a time -/

/-- The call of the registry a section is; `Visit` is none of them. -/
def Section.call : Section Val → Option (Call Val)
  | .lookupOr type name default description => some (.lookupOr type name default description)
  | .lookup type name => some (.lookup type name)
  | .lookupBase name => some (.lookupBase name)
  | .visit => none

/-- The name a section asks for. -/
def Section.name : Section Val → Option Text
  | .lookupOr _ name _ _ | .lookup _ name | .lookupBase name => some name
  | .visit => none

/-- The variables in the order of their names. -/
def Datas.ptrs (d : Datas Val) : List Addr := d.keys.elems.filterMap d.datas

/-- The keys are those with a variable. -/
structure Sound (d : Datas Val) : Prop where
  registered : Registered d.toRegistry
  keys : ∀ key, key ∈ d.keys.elems ↔ (d.datas key).isSome

variable {d d' : Datas Val} {c : Section Val} {log : List (Entry ι (Section Val) Result)}

omit [DecidableEq Ty] in
/-- The loop goes through the rest of the keys. -/
theorem run_visitLoop {d : Datas Val} {n : Nat} {it : Option Text} {rest : List Text} (ptrs : List Addr)
    (first : d.after it = rest.head?)
    (later : ∀ pre key post, rest = pre ++ key :: post → d.after (some key) = post.head?)
    (enough : rest.length < n) : (visitLoop n it ptrs).run d = (d, .visited (ptrs ++ rest.filterMap d.datas)) := by
  induction rest generalizing n it ptrs with
  | nil =>
    obtain ⟨n, rfl⟩ : ∃ m, n = m + 1 := ⟨n - 1, by simp at enough; omega⟩
    rw [visitLoop, Body.run_get, first]
    simp
  | cons key rest ih =>
    obtain ⟨n, rfl⟩ : ∃ m, n = m + 1 := ⟨n - 1, by simp at enough; omega⟩
    have here : d.after (some key) = rest.head? := later [] key rest rfl
    have next := ih (n := n) (ptrs ++ (d.datas key).toList) here
      (fun pre k post split => later (key :: pre) k post (by rw [split, List.cons_append]))
      (by simp at enough; omega)
    rw [visitLoop, Body.run_get, first]
    simp only [List.head?_cons]
    rw [next, List.append_assoc]
    cases found : d.datas key <;> simp [found]

omit [DecidableEq Ty] in
theorem run_visit (d : Datas Val) : (visit : Op (Datas Val) Result).body.run d = (d, .visited d.ptrs) := by
  have later : ∀ pre key post, d.keys.elems = pre ++ key :: post → d.after (some key) = post.head? := by
    intro pre key post split
    have sorted := d.keys.sorted
    rw [split] at sorted
    obtain ⟨-, behind, across⟩ := List.pairwise_append.mp sorted
    have before : pre.find? (fun k => decide (key < k)) = none := by
      rw [List.find?_eq_none]
      intro k member greater
      have less := across k member key List.mem_cons_self
      exact lt_asymm less (by simpa using greater)
    rw [Datas.after, split, List.find?_append, before, Option.none_or, List.find?_cons_of_neg (by simp)]
    cases post with
    | nil => rfl
    | cons k post =>
      have greater := (List.pairwise_cons.mp behind).1 k List.mem_cons_self
      simp [greater]
  exact run_visitLoop [] rfl later (Nat.lt_succ_self _)

/-- A section is the call of the registry. -/
theorem run_ops [∀ t, BEq (Val t)] (yaml : YamlCpp) (casts : ∀ t, Casts (Val t)) (d : Datas Val) (c : Section Val) :
    match c.call with
    | some call => ((ops c).body.run d).1.toRegistry = (d.toRegistry.call yaml casts call).1 ∧
        ((ops c).body.run d).2 = .outcome (d.toRegistry.call yaml casts call).2
    | none => (ops c).body.run d = (d, .visited d.ptrs) := by
  cases c with
  | lookupOr type name default description =>
    simp only [Section.call, ops, lookupOr, Op.exclusive, Registry.call, Registry.lookupOr, Body.run_get]
    cases found : d.datas name with
    | some it => simp
    | none =>
      by_cases bad : invalid name = true
      · simp [bad]
      · simp [bad, Datas.alloc, Datas.insert]
  | lookup type name =>
    simp only [Section.call, ops, lookup, Registry.call, Registry.lookup, Body.run_get]
    cases found : d.datas name with
    | some it => simp
    | none => simp
  | lookupBase name => simp [Section.call, ops, lookupBase, Registry.call, Registry.lookupBase]
  | visit => exact run_visit d

omit [DecidableEq Ty] in
theorem mem_insert (s : Ordered ((· < ·) : Text → Text → Prop)) (key name : Text) :
    key ∈ (insertKey s name).elems ↔ key = name ∨ key ∈ s.elems :=
  mem_insertSorted_iff fun other => (lt_trichotomy name other).imp id Or.symm

omit [DecidableEq Ty] in
theorem Sound.start : Sound ({} : Datas Val) where
  registered := .start
  keys key := by simp [Ordered.empty]

/-- The registry with a new variable. -/
def Datas.create (d : Datas Val) (type : Ty) (name : Text) (default : Val type) (description : Text) : Datas Val :=
  { d.toRegistry.create name (.new type name default description) with keys := insertKey d.keys name }

/-- A section changes nothing, and gives only what is registered under its name, or it is a `Lookup` that creates. -/
theorem run_cases (d : Datas Val) (c : Section Val) :
    (((ops c).body.run d).1 = d ∧ ∀ ptr, ((ops c).body.run d).2 = .outcome (.returned (some ptr)) →
      ∃ name, c.name = some name ∧ d.datas name = some ptr) ∨
    ∃ type name default description, c = .lookupOr type name default description ∧ d.datas name = none ∧
      (∀ ch ∈ name, ch ∈ allowed) ∧
      (ops c).body.run d = (d.create type name default description, .outcome (.returned (some d.next))) := by
  have given : ∀ {name : Text} {it ptr : Addr} {type : Ty}, d.datas name = some it → d.cast type it = some ptr →
      d.datas name = some ptr := by
    intro name it ptr type found cast
    obtain ⟨v, -, same⟩ := Option.bind_eq_some_iff.mp cast
    split at same <;> cases same
    exact found
  cases c with
  | lookupOr type name default description =>
    simp only [ops, lookupOr, Op.exclusive, Body.run_get]
    cases found : d.datas name with
    | some it =>
      refine .inl ⟨rfl, fun ptr returned => ⟨name, rfl, ?_⟩⟩
      exact given found (by simpa using returned)
    | none =>
      by_cases bad : invalid name = true
      · refine .inl ?_
        simp [bad]
      · refine .inr ⟨type, name, default, description, rfl, found, ?_, ?_⟩
        · exact invalid_eq_false.mp (by simpa using bad)
        · simp [bad, Datas.alloc, Datas.insert, Datas.create, Registry.create]
  | lookup type name =>
    refine .inl ?_
    simp only [ops, lookup, Body.run_get]
    cases found : d.datas name with
    | some it =>
      refine ⟨rfl, fun ptr returned => ⟨name, rfl, ?_⟩⟩
      exact given found (by simpa using returned)
    | none => simp
  | lookupBase name =>
    refine .inl ⟨rfl, fun ptr returned => ⟨name, rfl, ?_⟩⟩
    simpa [ops, lookupBase] using returned
  | visit =>
    refine .inl ?_
    rw [show (ops Section.visit).body.run d = _ from run_visit d]
    refine ⟨rfl, fun ptr returned => ?_⟩
    cases returned

omit [DecidableEq Ty] in
theorem Sound.create {type : Ty} {name : Text} (sound : Sound d)
    (valid : ∀ ch ∈ name, ch ∈ allowed) (default : Val type) (description : Text) :
    Sound (d.create type name default description) where
  registered := sound.registered.create valid
  keys key := by
    show key ∈ (insertKey d.keys name).elems ↔ (Function.update d.datas name (some d.next) key).isSome
    rw [mem_insert, sound.keys]
    by_cases same : key = name <;> simp [same]

/-! ## All threads together -/

/-- A log and the registry it leaves: what was given is registered, and what is registered was given. -/
structure Known (log : List (Entry ι (Section Val) Result)) (d : Datas Val) : Prop where
  sound : Sound d
  given : ∀ e ∈ log, ∀ ptr, e.result = .outcome (.returned (some ptr)) →
    ∃ name, e.call.name = some name ∧ d.datas name = some ptr
  all : ∀ name ptr, d.datas name = some ptr →
    ∃ e ∈ log, e.call.name = some name ∧ e.result = .outcome (.returned (some ptr))

theorem Known.of_replays (replays : Replays ops {} log d) : Known log d := by
  induction replays with
  | nil => exact ⟨.start, nofun, nofun⟩
  | @snoc log d d' e _ last ih =>
    obtain ⟨same, given⟩ | ⟨type, name, default, description, called, new, valid, created⟩ := run_cases d e.call
    · rw [last] at same given
      obtain rfl : d' = d := same
      refine ⟨ih.sound, fun e' member ptr returned => ?_, fun name ptr found => ?_⟩
      · obtain before | here := List.mem_append.mp member
        · exact ih.given e' before ptr returned
        · obtain rfl := List.mem_singleton.mp here
          exact given ptr returned
      · obtain ⟨e', before, both⟩ := ih.all name ptr found
        exact ⟨e', List.mem_append_left _ before, both⟩
    · rw [last] at created
      obtain ⟨rfl, result⟩ := Prod.mk.inj created
      refine ⟨ih.sound.create valid default description, fun e' member ptr returned => ?_, fun other ptr found => ?_⟩
      · obtain before | here := List.mem_append.mp member
        · obtain ⟨other, asked, found⟩ := ih.given e' before ptr returned
          have apart : other ≠ name := by
            rintro rfl
            rw [new] at found
            cases found
          exact ⟨other, asked, by simpa [Datas.create, apart] using found⟩
        · obtain rfl := List.mem_singleton.mp here
          obtain rfl : d.next = ptr := by simpa [result] using returned
          exact ⟨name, by rw [called]; rfl, by simp [Datas.create]⟩
      · by_cases here : other = name
        · subst here
          obtain rfl : d.next = ptr := by simpa [Datas.create] using found
          exact ⟨e, by simp, by rw [called]; rfl, result⟩
        · obtain ⟨e', before, both⟩ := ih.all other ptr (by simpa [Datas.create, here] using found)
          exact ⟨e', List.mem_append_left _ before, both⟩

/-- The calls of a log. -/
def calls (log : List (Entry ι (Section Val) Result)) : List (Call Val) := log.filterMap fun e => e.call.call

/-- The registry is what the calls of the log make of it one at a time. -/
theorem exec_calls [∀ t, BEq (Val t)] (yaml : YamlCpp) (casts : ∀ t, Casts (Val t)) (replays : Replays ops {} log d) :
    exec (Registry.step yaml casts) {} (calls log) = some d.toRegistry := by
  induction replays with
  | nil => rfl
  | @snoc log d d' e _ last ih =>
    have here := run_ops yaml casts d e.call
    rw [last] at here
    rw [calls, List.filterMap_append, exec_append]
    rw [calls] at ih
    rw [ih, Option.bind_some]
    cases called : e.call.call with
    | none =>
      rw [called] at here
      have same : d' = d := congrArg Prod.fst here
      simp [called, exec, same]
    | some call =>
      rw [called] at here
      have same : d'.toRegistry = (d.toRegistry.call yaml casts call).1 := here.1
      simp [called, exec, Registry.step, same]

/-- What each call of a log returned: a lookup what it returns behind those before it; who asked for one name was
given one variable; and a `Visit` was given, in the order of their names, what had been given before. -/
structure Served [∀ t, BEq (Val t)] (yaml : YamlCpp) (casts : ∀ t, Casts (Val t))
    (log : List (Entry ι (Section Val) Result)) : Prop where
  sequential : ∀ pre e post call, log = pre ++ e :: post → e.call.call = some call →
    ∃ d, exec (Registry.step yaml casts) {} (calls pre) = some d ∧ e.result = .outcome (d.call yaml casts call).2
  one : ∀ e ∈ log, ∀ e' ∈ log, ∀ ptr ptr', e.result = .outcome (.returned (some ptr)) →
    e'.result = .outcome (.returned (some ptr')) → (e.call.name = e'.call.name ↔ ptr = ptr')
  visited : ∀ pre e post, log = pre ++ e :: post → e.call.call = none →
    ∃ names ptrs, e.result = .visited ptrs ∧ names.Pairwise (· < ·) ∧
      List.Forall₂ (fun name ptr => ∃ e' ∈ pre, e'.call.name = some name ∧
        e'.result = .outcome (.returned (some ptr))) names ptrs ∧
      ∀ e' ∈ pre, ∀ ptr, e'.result = .outcome (.returned (some ptr)) → ptr ∈ ptrs

omit [DecidableEq Ty] in
theorem Known.visited {log : List (Entry ι (Section Val) Result)} (known : Known log d) :
    List.Forall₂ (fun name ptr => ∃ e ∈ log, e.call.name = some name ∧ e.result = .outcome (.returned (some ptr)))
      d.keys.elems d.ptrs ∧
      ∀ e ∈ log, ∀ ptr, e.result = .outcome (.returned (some ptr)) → ptr ∈ d.ptrs := by
  constructor
  · have each : ∀ names : List Text, (∀ name ∈ names, (d.datas name).isSome) →
        List.Forall₂ (fun name ptr => ∃ e ∈ log, e.call.name = some name ∧
          e.result = .outcome (.returned (some ptr))) names (names.filterMap d.datas) := by
      intro names there
      induction names with
      | nil => exact .nil
      | cons name names ih =>
        obtain ⟨ptr, found⟩ := Option.isSome_iff_exists.mp (there name List.mem_cons_self)
        rw [List.filterMap_cons_some found]
        exact .cons (known.all name ptr found) (ih fun other member => there other (List.mem_cons_of_mem name member))
    exact each d.keys.elems fun name member => (known.sound.keys name).mp member
  · intro e member ptr returned
    obtain ⟨name, -, found⟩ := known.given e member ptr returned
    exact List.mem_filterMap.mpr ⟨name, (known.sound.keys name).mpr (by simp [found]), found⟩

/-- **Main result**: however the calls of the threads are interleaved, they return what they return one at a time,
and once all are done the registry is what they make of it one at a time. -/
theorem registry_shared [∀ t, BEq (Val t)] [DecidableEq ι] (yaml : YamlCpp) (casts : ∀ t, Casts (Val t))
    (as : List (Sections.Act ι (Section Val)))
    (s : Sections.State (Sync.LockClass.rwMutex.lock (ι := ι)) (Section Val) (Datas Val) Result)
    (run : exec (Sections.step Sync.LockClass.rwMutex.lock ops) { data := {} } as = some s) :
    Served yaml casts s.log ∧ ((∀ t, s.phases t = .idle) →
      exec (Registry.step yaml casts) {} (calls s.log) = some s.data.toRegistry) := by
  obtain ⟨d, replays, data⟩ := linearizable run
  have known := Known.of_replays replays
  refine ⟨⟨?_, ?_, ?_⟩, fun idle => ?_⟩
  · intro pre e post call split called
    rw [split] at replays
    obtain ⟨d₁, before, result⟩ := replays.result
    have here := run_ops yaml casts d₁ e.call
    rw [called, result] at here
    exact ⟨d₁.toRegistry, exec_calls yaml casts before, here.2⟩
  · intro e member e' member' ptr ptr' returned returned'
    obtain ⟨name, asked, found⟩ := known.given e member ptr returned
    obtain ⟨name', asked', found'⟩ := known.given e' member' ptr' returned'
    rw [asked, asked', Option.some.injEq]
    constructor
    · rintro rfl
      rw [found] at found'
      exact Option.some.inj found'
    · rintro rfl
      obtain ⟨v, there, named, -⟩ := known.sound.registered.entry name ptr found
      obtain ⟨v', there', named', -⟩ := known.sound.registered.entry name' ptr found'
      rw [there] at there'
      cases there'
      exact named.symm.trans named'
  · intro pre e post split called
    rw [split] at replays
    obtain ⟨d₁, before, result⟩ := replays.result
    have here := run_ops yaml casts d₁ e.call
    rw [called] at here
    obtain ⟨each, all⟩ := (Known.of_replays before).visited
    refine ⟨d₁.keys.elems, d₁.ptrs, ?_, d₁.keys.sorted, each, all⟩
    rw [← result]
    exact congrArg Prod.snd here
  · rw [data (not_holding idle)]
    exact exec_calls yaml casts replays

/-- One thread visits two variables while another is about to register a third. -/
def visitTwo : List (Sections.Act Bool (Section fun _ : Bool => Nat)) :=
  .call true (.lookupOr true "log.b".toList 1 []) :: List.replicate 6 (.next true) ++
    .call true (.lookupOr false "log.a".toList 2 []) :: List.replicate 6 (.next true) ++
    [.call true .visit, .next true, .next true, .call false (.lookupOr true "log.aa".toList 3 []), .next true,
      .next true, .next true, .next true] ++ List.replicate 6 (.next false)

theorem registry_shared_visitTwo :
    ∃ s : Sections.State (Sync.LockClass.rwMutex.lock (ι := Bool)) (Section fun _ : Bool => Nat) _ Result,
      exec (Sections.step Sync.LockClass.rwMutex.lock ops) { data := {} } visitTwo = some s ∧
      s.log.map Entry.result = [.outcome (.returned (some 0)), .outcome (.returned (some 1)), .visited [1, 0],
        .outcome (.returned (some 2))] ∧
      Served (.ofBlocks []) (fun _ => numberCasts) s.log := by
  obtain ⟨s, run, test⟩ := exec_of_any (show
    (exec (Sections.step (Sync.LockClass.rwMutex.lock (ι := Bool)) ops) { data := {} } visitTwo).any (fun s =>
      s.log.map Entry.result = [.outcome (.returned (some 0)), .outcome (.returned (some 1)), .visited [1, 0],
        .outcome (.returned (some 2))]) = true from by decide +kernel)
  have served := (registry_shared (.ofBlocks []) (fun _ => numberCasts) visitTwo s run).1
  exact ⟨s, run, by simpa using test, served⟩

end Atpdxy.Config.Shared
