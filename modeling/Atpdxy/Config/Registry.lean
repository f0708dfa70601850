import Mathlib.Logic.Function.Basic
import Atpdxy.Config.Containers

/-!
# The registry of variables

`Config` (`config.h`, `config.cpp`): a map from names to variables of any type.
The types are the elements of `Ty`, with the values and the casts of each; a
variable is an object on a heap, which its address stands for. `Extends` says
what no call can change: the entries that are there, and the types and names of
their variables.
-/

namespace Atpdxy.Config

open Yaml Run

abbrev Addr := Nat

variable {Ty : Type} {Val : Ty → Type}

/-- `ConfigVar<T>`, an object behind a `ConfigVarBase::ptr`. -/
structure Variable (Val : Ty → Type) where
  name : Text
  description : Text
  type : Ty
  var : ConfigVar (Val type)
  /-- the keys of `m_cbs` -/
  cbs : Finset ListenerId := ∅

/-- `::tolower` on each character. -/
def lower (s : Text) : Text := s.map Char.toLower

/-- The constructor. -/
def Variable.new (type : Ty) (name : Text) (default : Val type) (description : Text) : Variable Val where
  name := lower name
  description
  type
  var := { val := default }

def Variable.getName (v : Variable Val) : Text := v.name

/-- `GetDatas()` and the variables. -/
structure Registry (Val : Ty → Type) where
  datas : Text → Option Addr := fun _ => none
  heap : Addr → Option (Variable Val) := fun _ => none
  /-- where the next variable goes -/
  next : Addr := 0

inductive Call (Val : Ty → Type)
  | lookupOr (type : Ty) (name : Text) (default : Val type) (description : Text)
  | lookup (type : Ty) (name : Text)
  | lookupBase (name : Text)
  | loadFromYaml (root : Node)

/-- How a call ends: with a pointer, with `std::invalid_argument`, or without a result. -/
inductive Outcome
  | returned (ptr : Option Addr)
  | threw (what : Text)
  | done
  deriving DecidableEq, Repr

/-- The argument of `find_first_not_of`. -/
def allowed : Text := "abcdefghijklmnopqrstuvwxyz._012345678".toList

/-- `find_first_not_of(...) != npos`. -/
def invalid (name : Text) : Bool := name.any fun c => !allowed.contains c

/-- `dynamic_pointer_cast<ConfigVar<T>>`. -/
def Registry.cast [DecidableEq Ty] (s : Registry Val) (type : Ty) (ptr : Addr) : Option Addr :=
  (s.heap ptr).bind fun v => if v.type = type then some ptr else none

/-- `Config::Lookup` with a default. -/
def Registry.lookupOr [DecidableEq Ty] (s : Registry Val) (type : Ty) (name : Text) (default : Val type)
    (description : Text) : Registry Val × Outcome :=
  match s.datas name with
  | some it => (s, .returned (s.cast type it))
  | none =>
    if invalid name then (s, .threw name)
    else
      let v := Variable.new type name default description
      ({ datas := Function.update s.datas name (some s.next)
         heap := Function.update s.heap s.next (some v)
         next := s.next + 1 }, .returned (some s.next))

/-- `Config::Lookup` without. -/
def Registry.lookup [DecidableEq Ty] (s : Registry Val) (type : Ty) (name : Text) : Option Addr :=
  (s.datas name).bind (s.cast type)

/-- `Config::LookupBase`. -/
def Registry.lookupBase (s : Registry Val) (name : Text) : Option Addr := s.datas name

mutual
/-- `ListAllMember`; what it appends to `output`. -/
def listAllMember (path : Text) : Node → List (Text × Node)
  | .map entries => if invalid path then [] else (path, .map entries) :: listMembers path entries
  | node => if invalid path then [] else [(path, node)]

/-- The loop over the members of a map. -/
def listMembers (path : Text) : List (Text × Node) → List (Text × Node)
  | [] => []
  | (key, node) :: rest =>
    listAllMember (if path.isEmpty then key else path ++ '.' :: key) node ++ listMembers path rest
end

/-- What is handed to `fromString`. -/
def textOf (yaml : YamlCpp) : Node → Text
  | .scalar s => s
  | node => yaml.emit node

section Load

variable [∀ t, BEq (Val t)]

/-- `fromString` on the variable, with listeners that only record. -/
def Variable.fromString (casts : ∀ t, Casts (Val t)) (v : Variable Val) (val : Text) : Variable Val :=
  { v with var := v.var.fromString (casts v.type) v.cbs 0 val }

/-- One round of the loop of `LoadFromYaml`. -/
def Registry.loadEntry (yaml : YamlCpp) (casts : ∀ t, Casts (Val t)) (s : Registry Val) (i : Text × Node) :
    Registry Val :=
  let key := lower i.1
  if key.isEmpty then s
  else
    match s.lookupBase key with
    | none => s
    | some ptr =>
      { s with heap := Function.update s.heap ptr ((s.heap ptr).map fun v => v.fromString casts (textOf yaml i.2)) }

/-- `Config::LoadFromYaml`. -/
def Registry.loadFromYaml (yaml : YamlCpp) (casts : ∀ t, Casts (Val t)) (s : Registry Val) (root : Node) :
    Registry Val :=
  (listAllMember [] root).foldl (Registry.loadEntry yaml casts) s

end Load

section Calls

variable [DecidableEq Ty] [∀ t, BEq (Val t)]

def Registry.call (yaml : YamlCpp) (casts : ∀ t, Casts (Val t)) (s : Registry Val) : Call Val → Registry Val × Outcome
  | .lookupOr type name default description => s.lookupOr type name default description
  | .lookup type name => (s, .returned (s.lookup type name))
  | .lookupBase name => (s, .returned (s.lookupBase name))
  | .loadFromYaml root => (s.loadFromYaml yaml casts root, .done)

/-- The registry after a call. -/
def Registry.step (yaml : YamlCpp) (casts : ∀ t, Casts (Val t)) (s : Registry Val) (c : Call Val) :
    Option (Registry Val) :=
  some (s.call yaml casts c).1

end Calls

/-! ## What no call changes -/

/-- Each key is the name of its variable, and of allowed characters; new
variables go where there is none. -/
structure Registered (s : Registry Val) : Prop where
  entry : ∀ key ptr, s.datas key = some ptr →
    ∃ v, s.heap ptr = some v ∧ v.getName = key ∧ ∀ c ∈ key, c ∈ allowed
  unused : ∀ ptr, s.next ≤ ptr → s.heap ptr = none

/-- The entries of the first are in the second, with variables of the same type and name. -/
structure Extends (s s' : Registry Val) : Prop where
  datas : ∀ key ptr, s.datas key = some ptr → s'.datas key = some ptr
  heap : ∀ ptr v, s.heap ptr = some v → ∃ v', s'.heap ptr = some v' ∧ v'.type = v.type ∧ v'.getName = v.getName

variable {yaml : YamlCpp} {casts : ∀ t, Casts (Val t)} {s s' s'' : Registry Val} {type : Ty} {name : Text}
  {default : Val type} {description : Text} {calls more : List (Call Val)}

theorem Extends.refl (s : Registry Val) : Extends s s where
  datas _ _ found := found
  heap _ v there := ⟨v, there, rfl, rfl⟩

theorem Extends.trans (first : Extends s s') (second : Extends s' s'') : Extends s s'' where
  datas key ptr found := second.datas key ptr (first.datas key ptr found)
  heap ptr v there := by
    obtain ⟨v', there', type', name'⟩ := first.heap ptr v there
    obtain ⟨v'', there'', type'', name''⟩ := second.heap ptr v' there'
    exact ⟨v'', there'', type''.trans type', name''.trans name'⟩

theorem invalid_eq_false : invalid name = false ↔ ∀ c ∈ name, c ∈ allowed := by
  simp [invalid]

/-- Allowed characters are lower case. -/
theorem lower_allowed (valid : ∀ c ∈ name, c ∈ allowed) : lower name = name := by
  have each : (allowed.all fun c => c.toLower == c) = true := by decide +kernel
  have same : name.map Char.toLower = name.map id := by
    apply List.map_congr_left
    intro c member
    exact eq_of_beq (List.all_eq_true.mp each c (valid c member))
  rw [lower, same, List.map_id]

/-- The registry with a new variable. -/
def Registry.create (s : Registry Val) (name : Text) (v : Variable Val) : Registry Val where
  datas := Function.update s.datas name (some s.next)
  heap := Function.update s.heap s.next (some v)
  next := s.next + 1

@[simp] theorem create_datas (v : Variable Val) :
    (s.create name v).datas = Function.update s.datas name (some s.next) := rfl

@[simp] theorem create_heap (v : Variable Val) : (s.create name v).heap = Function.update s.heap s.next (some v) := rfl

/-- `Lookup` finds, refuses or creates. -/
theorem lookupOr_cases [DecidableEq Ty] (s : Registry Val) (type : Ty) (name : Text) (default : Val type)
    (description : Text) :
    (∃ it, s.datas name = some it ∧ s.lookupOr type name default description = (s, .returned (s.cast type it))) ∨
      (s.datas name = none ∧ s.lookupOr type name default description = (s, .threw name)) ∨
      (s.datas name = none ∧ (∀ c ∈ name, c ∈ allowed) ∧ s.lookupOr type name default description =
        (s.create name (.new type name default description), .returned (some s.next))) := by
  unfold Registry.lookupOr
  cases found : s.datas name with
  | some it => exact .inl ⟨it, rfl, rfl⟩
  | none =>
    right
    cases bad : invalid name with
    | true => exact .inl ⟨rfl, rfl⟩
    | false => exact .inr ⟨rfl, invalid_eq_false.mp bad, rfl⟩

theorem Registered.create (registered : Registered s) (valid : ∀ c ∈ name, c ∈ allowed) :
    Registered (s.create name (.new type name default description)) where
  entry key ptr found := by
    by_cases new : key = name
    · subst new
      obtain rfl : s.next = ptr := by simpa using found
      exact ⟨.new type key default description, by simp, lower_allowed valid, valid⟩
    · rw [create_datas, Function.update_of_ne new] at found
      obtain ⟨v, there, named⟩ := registered.entry key ptr found
      have old : ptr ≠ s.next := by
        rintro rfl
        rw [registered.unused _ (Nat.le_refl _)] at there
        cases there
      exact ⟨v, by rw [create_heap, Function.update_of_ne old]; exact there, named⟩
  unused ptr later := by
    have later : s.next + 1 ≤ ptr := later
    rw [create_heap, Function.update_of_ne (Nat.ne_of_gt later)]
    exact registered.unused ptr (Nat.le_of_succ_le later)

theorem Registered.extends_create (registered : Registered s) (new : s.datas name = none) (v : Variable Val) :
    Extends s (s.create name v) where
  datas key ptr found := by
    have other : key ≠ name := by
      rintro rfl
      rw [new] at found
      cases found
    rw [create_datas, Function.update_of_ne other]
    exact found
  heap ptr v there := by
    have old : ptr ≠ s.next := by
      rintro rfl
      rw [registered.unused _ (Nat.le_refl _)] at there
      cases there
    exact ⟨v, by rw [create_heap, Function.update_of_ne old]; exact there, rfl, rfl⟩

theorem Registered.start : Registered ({} : Registry Val) where
  entry _ _ found := by cases found
  unused _ _ := rfl

/-- What `dynamic_pointer_cast` makes of a registered variable. -/
theorem cast_eq [DecidableEq Ty] {v : Variable Val} {ptr : Addr} (there : s.heap ptr = some v) (type : Ty) :
    s.cast type ptr = if v.type = type then some ptr else none := by
  rw [Registry.cast, there, Option.bind_some]

/-! ## Loading -/

/-- A call that sets values: the entries are the same, and so are the types and
names of the variables. -/
structure Sets (s s' : Registry Val) : Prop where
  datas : s'.datas = s.datas
  next : s'.next = s.next
  heap : ∀ ptr, (s'.heap ptr).map (fun v => (v.type, v.getName)) = (s.heap ptr).map fun v => (v.type, v.getName)

theorem sets_loadEntry [∀ t, BEq (Val t)] (yaml : YamlCpp) (casts : ∀ t, Casts (Val t)) (s : Registry Val)
    (i : Text × Node) : Sets s (s.loadEntry yaml casts i) := by
  have same : Sets s s := ⟨rfl, rfl, fun _ => rfl⟩
  unfold Registry.loadEntry
  simp only
  split
  · exact same
  · split
    · exact same
    · next ptr found =>
      refine ⟨rfl, rfl, fun other => ?_⟩
      by_cases here : other = ptr
      · subst here
        simp only [Function.update_self, Option.map_map]
        rfl
      · simp only [Function.update_of_ne here]

theorem sets_loadFromYaml [∀ t, BEq (Val t)] (yaml : YamlCpp) (casts : ∀ t, Casts (Val t)) (s : Registry Val)
    (root : Node) : Sets s (s.loadFromYaml yaml casts root) := by
  unfold Registry.loadFromYaml
  induction listAllMember [] root generalizing s with
  | nil => exact ⟨rfl, rfl, fun _ => rfl⟩
  | cons i rest ih =>
    have first := sets_loadEntry yaml casts s i
    have later := ih (s.loadEntry yaml casts i)
    exact ⟨later.datas.trans first.datas, later.next.trans first.next,
      fun ptr => (later.heap ptr).trans (first.heap ptr)⟩

theorem Sets.extends (sets : Sets s s') : Extends s s' where
  datas key ptr found := by rw [sets.datas]; exact found
  heap ptr v there := by
    have same := sets.heap ptr
    rw [there, Option.map_some] at same
    obtain ⟨v', there', both⟩ := Option.map_eq_some_iff.mp same
    obtain ⟨type, name⟩ := Prod.mk.inj both
    exact ⟨v', there', type, name⟩

theorem Sets.registered (sets : Sets s s') (registered : Registered s) : Registered s' where
  entry key ptr found := by
    rw [sets.datas] at found
    obtain ⟨v, there, named, valid⟩ := registered.entry key ptr found
    obtain ⟨v', there', -, name⟩ := sets.extends.heap ptr v there
    exact ⟨v', there', name.trans named, valid⟩
  unused ptr later := by
    rw [sets.next] at later
    have same := sets.heap ptr
    rw [registered.unused ptr later, Option.map_none] at same
    exact Option.map_eq_none_iff.mp same

/-! ## Calls and runs -/

section Runs

variable [DecidableEq Ty] [∀ t, BEq (Val t)]

/-- The step lemma. -/
theorem Registered.call (registered : Registered s) (yaml : YamlCpp) (casts : ∀ t, Casts (Val t)) (c : Call Val) :
    Registered (s.call yaml casts c).1 ∧ Extends s (s.call yaml casts c).1 := by
  cases c with
  | lookupOr type name default description =>
    rw [Registry.call]
    obtain ⟨it, -, found⟩ | ⟨-, refused⟩ | ⟨new, valid, created⟩ := lookupOr_cases s type name default description
    · rw [found]
      exact ⟨registered, .refl s⟩
    · rw [refused]
      exact ⟨registered, .refl s⟩
    · rw [created]
      exact ⟨registered.create valid, registered.extends_create new _⟩
  | lookup type name => exact ⟨registered, .refl s⟩
  | lookupBase name => exact ⟨registered, .refl s⟩
  | loadFromYaml root =>
    have sets := sets_loadFromYaml yaml casts s root
    exact ⟨sets.registered registered, sets.extends⟩

/-- The run lemma. -/
theorem Registered.run (registered : Registered s) (run : exec (Registry.step yaml casts) s calls = some s') :
    Registered s' ∧ Extends s s' := by
  refine (Guarded.of_exec run).invariant (I := fun s' => Registered s' ∧ Extends s s') ⟨registered, .refl s⟩ ?_
  intro _ t c u _ kept _ next
  cases next
  obtain ⟨registered, before⟩ := kept
  obtain ⟨registered', here⟩ := registered.call yaml casts c
  exact ⟨registered', before.trans here⟩

/-- A lookup that throws, and one that returns null. -/
def Outcome.Fails (o : Outcome) : Prop := o = .returned none ∨ ∃ what, o = .threw what

/-- Nothing is kept of a lookup that fails. -/
theorem call_of_fails (s : Registry Val) (c : Call Val) (fails : (s.call yaml casts c).2.Fails) :
    (s.call yaml casts c).1 = s := by
  cases c with
  | lookupOr type name default description =>
    rw [Registry.call] at fails ⊢
    obtain ⟨it, -, found⟩ | ⟨-, refused⟩ | ⟨-, -, created⟩ := lookupOr_cases s type name default description
    · rw [found]
    · rw [refused]
    · rw [created] at fails
      obtain null | ⟨what, threw⟩ := fails
      · cases null
      · cases threw
  | lookup type name => rfl
  | lookupBase name => rfl
  | loadFromYaml root =>
    obtain null | ⟨what, threw⟩ := fails
    · cases null
    · cases threw

/-- **Main result**: in each registry that calls lead to, a key is the name of its
variable and of allowed characters, a lookup that fails keeps nothing, and loading
adds and removes nothing. Whatever is called then, an entry stays, with its
variable's type, and lookups give that variable to those who ask for its type. -/
theorem stable (run : exec (Registry.step yaml casts) ({} : Registry Val) calls = some s) :
    (∀ key ptr, s.datas key = some ptr →
      ∃ v, s.heap ptr = some v ∧ v.getName = key ∧ ∀ c ∈ key, c ∈ allowed) ∧
    (∀ c, (s.call yaml casts c).2.Fails → (s.call yaml casts c).1 = s) ∧
    (∀ root, (s.call yaml casts (.loadFromYaml root)).1.datas = s.datas) ∧
    ∀ key ptr v, s.datas key = some ptr → s.heap ptr = some v →
      ∀ more s', exec (Registry.step yaml casts) s more = some s' →
        s'.datas key = some ptr ∧ (∃ v', s'.heap ptr = some v' ∧ v'.type = v.type) ∧
        ∀ type,
          (∀ default description, s'.call yaml casts (.lookupOr type key default description) =
            (s', .returned (if v.type = type then some ptr else none))) ∧
          s'.call yaml casts (.lookup type key) = (s', .returned (if v.type = type then some ptr else none)) ∧
          s'.call yaml casts (.lookupBase key) = (s', .returned (some ptr)) := by
  have registered := (Registered.start.run run).1
  refine ⟨registered.entry, call_of_fails s, fun root => (sets_loadFromYaml yaml casts s root).datas, ?_⟩
  intro key ptr v found there more s' later
  obtain ⟨registered', kept⟩ := registered.run later
  have found' := kept.datas key ptr found
  obtain ⟨v', there', type', -⟩ := kept.heap ptr v there
  refine ⟨found', ⟨v', there', type'⟩, fun type => ⟨fun default description => ?_, ?_, ?_⟩⟩
  · rw [Registry.call, Registry.lookupOr, found', ← type', ← cast_eq there']
  · rw [Registry.call, Registry.lookup, found', Option.bind_some, ← type', ← cast_eq there']
  · rw [Registry.call, Registry.lookupBase, found']

end Runs

/-! ## A run -/

/-- `boost::lexical_cast` between `unsigned` and text; signs are left out. -/
def numberCasts : Casts Nat where
  toStr n := pure (Nat.repr n).toList
  fromStr t := ((String.ofList t).toNat?).elim (throw .badCast) pure

/-- Two types with numbers for values; one variable, another type, a bad name, and a file. -/
def lookups : List (Call fun _ : Bool => Nat) :=
  [.lookupOr true "system.port".toList 8080 [], .lookupOr false "system.port".toList 1 [],
    .lookupOr true "System Port".toList 2 [],
    .loadFromYaml (.map [("system".toList, .map [("port".toList, .scalar "80".toList)])])]

theorem stable_lookups :
    ∃ s, exec (Registry.step (.ofBlocks []) fun _ => numberCasts) {} lookups = some s ∧
      ∃ v, s.heap 0 = some v ∧ v.getName = "system.port".toList ∧ ∀ c ∈ v.getName, c ∈ allowed := by
  have entries : ∀ s, exec (Registry.step (.ofBlocks []) fun _ => numberCasts) {} lookups = some s →
      ∀ key ptr, s.datas key = some ptr →
        ∃ v, s.heap ptr = some v ∧ v.getName = key ∧ ∀ c ∈ key, c ∈ allowed := fun s run => (stable run).1
  refine ⟨_, rfl, ?_⟩
  obtain ⟨v, there, name, valid⟩ := entries _ rfl "system.port".toList 0 rfl
  exact ⟨v, there, name, name ▸ valid⟩

end Atpdxy.Config
