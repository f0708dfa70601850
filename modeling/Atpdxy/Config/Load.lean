import Atpdxy.Config.Registry

/-!
# Loading a tree

`LoadFromYaml` (`config.cpp`) lists the nodes of a tree with their dotted paths and
hands the text of each to the variable of that name. Here the nodes are listed with the
keys on the way to them (`Node.nodes`), all of them and in the same order; the loader
reaches those whose path has allowed characters only (`listAllMember_eq`). A
variable sees the texts of the nodes with its name, one after the other
(`load_heap`), and keeps the last that converts (`foldl_fromString`).
-/

namespace Atpdxy.Config

open Yaml

/-! ## The nodes of a tree -/

mutual
/-- A node and all below it, in pre-order, with the keys on the way. -/
def below (path : List Text) : Node → List (List Text × Node)
  | .map entries => (path, .map entries) :: belowMembers path entries
  | node => [(path, node)]

def belowMembers (path : List Text) : List (Text × Node) → List (List Text × Node)
  | [] => []
  | (key, node) :: rest => below (path ++ [key]) node ++ belowMembers path rest
end

/-- The nodes of a tree. -/
def nodes (root : Node) : List (List Text × Node) := below [] root

/-- A key behind a prefix. -/
def join (path key : Text) : Text := if path.isEmpty then key else path ++ '.' :: key

/-- The keys with dots between them; none goes behind an empty prefix. -/
def dotted (path : List Text) : Text := path.foldl join []

theorem dotted_append (path : List Text) (key : Text) : dotted (path ++ [key]) = join (dotted path) key := by
  simp [dotted]

theorem invalid_join (path key : Text) : invalid (join path key) = (invalid path || invalid key) := by
  have dot : allowed.contains '.' = true := by decide
  cases path with
  | nil => rfl
  | cons c path =>
    simp only [join, List.isEmpty_cons, Bool.false_eq_true, if_false, invalid, List.any_append, List.any_cons, dot,
      Bool.not_true, Bool.false_or]

/-- The nodes the loader reaches, with their paths. -/
def reached (nodes : List (List Text × Node)) : List (Text × Node) :=
  (nodes.filter fun i => !invalid (dotted i.1)).map fun i => (dotted i.1, i.2)

theorem reached_append (front back : List (List Text × Node)) :
    reached (front ++ back) = reached front ++ reached back := by
  simp [reached]

theorem below_map (path : List Text) (entries : List (Text × Node)) :
    below path (.map entries) = [(path, .map entries)] ++ belowMembers path entries := by
  rw [below]
  rfl

mutual
/-- Below a path that is not valid nothing is. -/
theorem reached_below_invalid {path : List Text} (bad : invalid (dotted path) = true) :
    ∀ node : Node, reached (below path node) = []
  | .map entries => by
    have head : reached [(path, Node.map entries)] = [] := by simp [reached, bad]
    rw [below_map, reached_append, head, reached_members_invalid bad entries]
    rfl
  | .null | .scalar _ | .seq _ => by simp [below, reached, bad]

theorem reached_members_invalid {path : List Text} (bad : invalid (dotted path) = true) :
    ∀ entries : List (Text × Node), reached (belowMembers path entries) = []
  | [] => rfl
  | (key, node) :: rest => by
    have worse : invalid (dotted (path ++ [key])) = true := by
      rw [dotted_append, invalid_join, bad, Bool.true_or]
    rw [belowMembers, reached_append, reached_below_invalid worse node, reached_members_invalid bad rest]
    rfl
end

mutual
/-- What the loader lists are the nodes it reaches, in their order. -/
theorem listAllMember_eq (path : List Text) :
    ∀ node : Node, listAllMember (dotted path) node = reached (below path node)
  | .map entries => by
    rw [listAllMember]
    split
    · next bad => rw [reached_below_invalid bad]
    · next good =>
      have head : reached [(path, Node.map entries)] = [(dotted path, .map entries)] := by simp [reached, good]
      rw [below_map, reached_append, head, listMembers_eq path entries]
      rfl
  | .null | .scalar _ | .seq _ => by
    rw [listAllMember]
    · split
      · next bad => rw [reached_below_invalid bad]
      · next good => simp [below, reached, good]
    · intro entries map
      cases map

theorem listMembers_eq (path : List Text) :
    ∀ entries : List (Text × Node), listMembers (dotted path) entries = reached (belowMembers path entries)
  | [] => rfl
  | (key, node) :: rest => by
    rw [listMembers, belowMembers, reached_append, ← listMembers_eq path rest, ← listAllMember_eq (path ++ [key]) node,
      dotted_append]
    rfl
end

/-! ## The variables -/

variable {Ty : Type} {Val : Ty → Type} [∀ t, BEq (Val t)] {yaml : YamlCpp} {casts : ∀ t, Casts (Val t)}
  {s : Registry Val} {key : Text} {ptr : Addr} {v : Variable Val} {entries : List (Text × Node)} {root : Node}

omit [∀ t, BEq (Val t)] in
/-- No variable has two keys. -/
theorem Registered.key_unique (registered : Registered s) {other : Text} (first : s.datas key = some ptr)
    (second : s.datas other = some ptr) : key = other := by
  obtain ⟨v, there, named, -⟩ := registered.entry key ptr first
  obtain ⟨w, there', named', -⟩ := registered.entry other ptr second
  obtain rfl := Option.some.inj (there.symm.trans there')
  exact named.symm.trans named'

/-- The entries that the loop hands to the variable of a name. -/
def named (key : Text) (entries : List (Text × Node)) : List Node :=
  (entries.filter fun i => !i.1.isEmpty && lower i.1 == key).map Prod.snd

/-- One round of the loop, as the variable of a name sees it. -/
theorem loadEntry_heap (registered : Registered s) (found : s.datas key = some ptr) (i : Text × Node) :
    (s.loadEntry yaml casts i).heap ptr =
      (s.heap ptr).map fun v => ((named key [i]).map (textOf yaml)).foldl (Variable.fromString casts) v := by
  have empty : (lower i.1).isEmpty = i.1.isEmpty := by cases i.1 <;> rfl
  unfold Registry.loadEntry
  simp only [Registry.lookupBase, empty]
  by_cases skipped : i.1.isEmpty = true
  · simp [named, skipped]
  · rw [if_neg skipped]
    by_cases here : lower i.1 = key
    · simp [named, skipped, here, found]
    · have apart : ∀ other, s.datas (lower i.1) = some other → ptr ≠ other := by
        rintro _ there rfl
        exact here (registered.key_unique there found)
      cases there : s.datas (lower i.1) with
      | none => simp [named, here]
      | some other => simp [named, here, Function.update_of_ne (apart other there)]

/-- A variable sees the texts of the nodes with its name, one after the other. -/
theorem load_heap (registered : Registered s) (found : s.datas key = some ptr) (entries : List (Text × Node)) :
    (entries.foldl (Registry.loadEntry yaml casts) s).heap ptr =
      (s.heap ptr).map fun v => ((named key entries).map (textOf yaml)).foldl (Variable.fromString casts) v := by
  induction entries generalizing s with
  | nil => simp [named]
  | cons i entries ih =>
    have sets := sets_loadEntry yaml casts s i
    have first : named key (i :: entries) = named key [i] ++ named key entries := by
      simp [named, ← List.map_append, ← List.filter_append]
    rw [List.foldl_cons, ih (sets.registered registered) (by rw [sets.datas]; exact found),
      loadEntry_heap registered found, first, List.map_append]
    simp only [Option.map_map, Function.comp_def, List.foldl_append]

theorem loadFromYaml_heap (yaml : YamlCpp) (casts : ∀ t, Casts (Val t)) (registered : Registered s)
    (found : s.datas key = some ptr) (root : Node) :
    (s.loadFromYaml yaml casts root).heap ptr = (s.heap ptr).map fun v =>
      ((named key (listAllMember [] root)).map (textOf yaml)).foldl (Variable.fromString casts) v :=
  load_heap registered found (listAllMember [] root)

/-- An object behind no key that the loop comes to is left alone. -/
theorem load_heap_other (entries : List (Text × Node))
    (other : ∀ i ∈ entries, i.1 ≠ [] → s.datas (lower i.1) ≠ some ptr) :
    (entries.foldl (Registry.loadEntry yaml casts) s).heap ptr = s.heap ptr := by
  induction entries generalizing s with
  | nil => rfl
  | cons i entries ih =>
    have sets := sets_loadEntry yaml casts s i
    have apart := other i List.mem_cons_self
    have empty : (lower i.1).isEmpty = i.1.isEmpty := by cases i.1 <;> rfl
    rw [List.foldl_cons, ih fun j member full => by rw [sets.datas]; exact other j (List.mem_cons_of_mem i member) full]
    unfold Registry.loadEntry
    simp only [Registry.lookupBase, empty]
    by_cases skipped : i.1.isEmpty = true
    · rw [if_pos skipped]
    · have apart := apart (by simpa using skipped)
      rw [if_neg skipped]
      cases there : s.datas (lower i.1) with
      | none => rfl
      | some at_ =>
        have ne : ptr ≠ at_ := by
          rintro rfl
          exact apart there
        exact Function.update_of_ne ne _ _

/-! ## One variable -/

/-- What the texts convert to. -/
def conversions {T : Type} (casts : Casts T) (texts : List Text) : List T :=
  texts.filterMap fun text => (casts.fromStr text).toOption

/-- The value is stored, or one equal to it. -/
def ConfigVar.Stores {T : Type} [BEq T] (s : ConfigVar T) (x : T) : Prop := s.val = x ∨ (x == s.val) = true

section One

variable {T : Type} [BEq T] {cast : Casts T} {var : ConfigVar T} {cbs : Finset ListenerId} {t : Tid} {texts : List Text}
  {x : T}

theorem fromString_ok {text : Text} (converted : cast.fromStr text = .ok x) :
    var.fromString cast cbs t text = var.setValue cbs t x := by
  rw [ConfigVar.fromString, converted]

theorem fromString_error {text : Text} {e : Thrown} (failed : cast.fromStr text = .error e) :
    var.fromString cast cbs t text = var := by
  rw [ConfigVar.fromString, failed]

theorem stores_setValue (var : ConfigVar T) (cbs : Finset ListenerId) (t : Tid) (x : T) :
    (var.setValue cbs t x).Stores x := by
  unfold ConfigVar.setValue
  split
  · next same => exact .inr same
  · exact .inl rfl

/-- Texts that do not convert leave the variable alone; of those that do the last is stored. -/
theorem foldl_fromString (cast : Casts T) (cbs : Finset ListenerId) (t : Tid) (texts : List Text) (var : ConfigVar T) :
    (conversions cast texts = [] → texts.foldl (fun var text => var.fromString cast cbs t text) var = var) ∧
      ∀ x ∈ (conversions cast texts).getLast?,
        (texts.foldl (fun var text => var.fromString cast cbs t text) var).Stores x := by
  induction texts using List.reverseRecOn with
  | nil => exact ⟨fun _ => rfl, fun x last => by cases last⟩
  | append_singleton texts text ih =>
    rw [List.foldl_append, List.foldl_cons, List.foldl_nil]
    have last : conversions cast (texts ++ [text]) =
        conversions cast texts ++ (cast.fromStr text).toOption.toList := by
      cases converted : cast.fromStr text <;> simp [conversions, converted, Except.toOption]
    rw [last]
    cases converted : cast.fromStr text with
    | error e =>
      rw [fromString_error converted]
      simpa [Except.toOption] using ih
    | ok y =>
      rw [fromString_ok converted]
      refine ⟨fun none => by simp [Except.toOption] at none, fun x member => ?_⟩
      obtain rfl : y = x := by simpa [Except.toOption] using member
      exact stores_setValue _ cbs t y

end One

/-- A variable with its type, of which only the value and the records change. -/
theorem foldl_variable (texts : List Text) (v : Variable Val) :
    texts.foldl (Variable.fromString casts) v =
      { v with var := texts.foldl (fun var text => var.fromString (casts v.type) v.cbs 0 text) v.var } := by
  induction texts generalizing v with
  | nil => rfl
  | cons text texts ih =>
    rw [List.foldl_cons, ih]
    rfl

/-! ## A whole tree -/

/-- No key of the tree is empty. -/
def NonEmptyKeys (root : Node) : Prop := ∀ i ∈ nodes root, ∀ key ∈ i.1, key ≠ []

/-- The path with its dots. -/
def dots (path : List Text) : Text := ['.'].intercalate path

/-- Each prefix of the path has allowed characters only. -/
def Allowed (path : List Text) : Prop := ∀ front, front <+: path → ∀ c ∈ dots front, c ∈ allowed

/-- The node is not the root, can be reached, and has this path. -/
def Addresses (name : Text) (path : List Text) : Prop := path ≠ [] ∧ Allowed path ∧ dots path = name

open Classical in
/-- The nodes a name addresses, in pre-order. -/
noncomputable def addressed (root : Node) (name : Text) : List Node :=
  ((nodes root).filter fun i => Addresses name i.1).map Prod.snd

theorem foldl_join (path : List Text) (c : Char) (front : Text) :
    path.foldl join (c :: front) = dots ((c :: front) :: path) := by
  induction path generalizing front with
  | nil => simp [dots]
  | cons key path ih =>
    have joined : join (c :: front) key = c :: (front ++ '.' :: key) := rfl
    rw [List.foldl_cons, joined, ih]
    cases path <;> simp [dots]

theorem dotted_eq {path : List Text} (full : ∀ key ∈ path, key ≠ []) : dotted path = dots path := by
  cases path with
  | nil => rfl
  | cons key path =>
    have some := full key List.mem_cons_self
    obtain ⟨c, rest, rfl⟩ := List.exists_cons_of_ne_nil some
    exact foldl_join path c rest

theorem invalid_dotted (path : List Text) : invalid (dotted path) = path.any invalid := by
  induction path using List.reverseRecOn with
  | nil => rfl
  | append_singleton path key ih => rw [dotted_append, invalid_join, ih, List.any_append, List.any_cons, List.any_nil,
      Bool.or_false]

theorem allowed_iff {path : List Text} (full : ∀ key ∈ path, key ≠ []) :
    Allowed path ↔ invalid (dotted path) = false := by
  constructor
  · intro each
    rw [dotted_eq full, invalid_eq_false]
    exact each path List.prefix_rfl
  · intro valid front before
    have keys : ∀ key ∈ front, key ∈ path := fun key member => before.subset member
    have valid : front.any invalid = false := by
      rw [invalid_dotted] at valid
      simp only [List.any_eq_false] at valid ⊢
      exact fun key member => valid key (keys key member)
    rw [← invalid_dotted, dotted_eq fun key member => full key (keys key member), invalid_eq_false] at valid
    exact valid

theorem dotted_isEmpty {path : List Text} (full : ∀ key ∈ path, key ≠ []) : (dotted path).isEmpty = path.isEmpty := by
  rw [dotted_eq full]
  cases path with
  | nil => rfl
  | cons key path =>
    obtain ⟨c, rest, rfl⟩ := List.exists_cons_of_ne_nil (full key List.mem_cons_self)
    cases path <;> simp [dots]

/-- What the loop hands to the variable of a name: of the nodes with that path, those it reaches. -/
theorem named_listAllMember (root : Node) (key : Text) :
    named key (listAllMember [] root) =
      (((nodes root).filter fun i => lower (dotted i.1) == key).filter fun i =>
        !(dotted i.1).isEmpty && !invalid (dotted i.1)).map Prod.snd := by
  rw [show listAllMember [] root = reached (nodes root) from listAllMember_eq [] root]
  unfold named reached
  rw [List.filter_map, List.map_map, List.filter_filter, List.filter_filter]
  congr 1
  apply List.filter_congr
  intro i _
  simp only [Function.comp_def]
  rw [Bool.and_right_comm, Bool.and_assoc]

/-- Those are the nodes the name addresses. -/
theorem named_eq_addressed (full : NonEmptyKeys root) (name : Text) :
    named name (listAllMember [] root) = addressed root name := by
  rw [named_listAllMember, addressed, List.filter_filter]
  congr 1
  apply List.filter_congr
  intro i member
  have keys := full i member
  rw [Bool.eq_iff_iff]
  simp only [dotted_isEmpty keys, Bool.and_eq_true, Bool.not_eq_true', beq_iff_eq, decide_eq_true_iff, Addresses,
    allowed_iff keys]
  constructor
  · rintro ⟨⟨some, valid⟩, lowered⟩
    rw [lower_allowed (invalid_eq_false.mp valid), dotted_eq keys] at lowered
    exact ⟨by simpa using some, valid, lowered⟩
  · rintro ⟨some, valid, path⟩
    refine ⟨⟨by simpa using some, valid⟩, ?_⟩
    rw [lower_allowed (invalid_eq_false.mp valid), dotted_eq keys, path]

/-- The nodes whose keys are the name when they are joined as the loader joins them. -/
def spelled (root : Node) (name : Text) : List Node := ((nodes root).filter fun i => dotted i.1 = name).map Prod.snd

/-- The loop hands to the variable of a name what spells it, empty keys or not. -/
theorem named_eq_spelled {name : Text} (filled : name ≠ []) (valid : invalid name = false) (root : Node) :
    named name (listAllMember [] root) = spelled root name := by
  rw [named_listAllMember, spelled, List.filter_filter]
  congr 1
  apply List.filter_congr
  intro i _
  rw [Bool.eq_iff_iff]
  simp only [Bool.and_eq_true, Bool.not_eq_true', List.isEmpty_eq_false_iff, beq_iff_eq, decide_eq_true_iff]
  constructor
  · rintro ⟨⟨-, reached⟩, lowered⟩
    rwa [lower_allowed (invalid_eq_false.mp reached)] at lowered
  · rintro rfl
    exact ⟨⟨filled, valid⟩, lower_allowed (invalid_eq_false.mp valid)⟩

/-- **Main result**: loading changes a variable, and calls its listeners, only if its name addresses a
node; then it stores the conversion of the last such node that converts. -/
theorem bulk_load (yaml : YamlCpp) (casts : ∀ t, Casts (Val t)) (registered : Registered s)
    (full : NonEmptyKeys root) :
    (∀ ptr v, s.heap ptr = some v → (s.loadFromYaml yaml casts root).heap ptr ≠ some v →
      ∃ i ∈ nodes root, Addresses v.getName i.1) ∧
    ∀ name ptr v, s.datas name = some ptr → s.heap ptr = some v →
      ∃ var, (s.loadFromYaml yaml casts root).heap ptr = some { v with var } ∧
        (conversions (casts v.type) ((addressed root name).map (textOf yaml)) = [] → var = v.var) ∧
        ∀ x ∈ (conversions (casts v.type) ((addressed root name).map (textOf yaml))).getLast?, var.Stores x := by
  have each : ∀ name ptr v, s.datas name = some ptr → s.heap ptr = some v →
      ∃ var, (s.loadFromYaml yaml casts root).heap ptr = some { v with var } ∧
        (conversions (casts v.type) ((addressed root name).map (textOf yaml)) = [] → var = v.var) ∧
        ∀ x ∈ (conversions (casts v.type) ((addressed root name).map (textOf yaml))).getLast?, var.Stores x := by
    intro name ptr v found there
    refine ⟨_, ?_, foldl_fromString (casts v.type) v.cbs 0 _ v.var⟩
    rw [loadFromYaml_heap yaml casts registered found, there, Option.map_some, foldl_variable, named_eq_addressed full]
  refine ⟨fun ptr v there changed => ?_, each⟩
  by_contra none
  have unaddressed : addressed root v.getName = [] := by
    rw [addressed, List.map_eq_nil_iff, List.filter_eq_nil_iff]
    intro i member addresses
    exact none ⟨i, member, by simpa using addresses⟩
  by_cases behind : s.datas v.getName = some ptr
  · obtain ⟨var, loaded, same, -⟩ := each v.getName ptr v behind there
    rw [unaddressed] at same
    rw [loaded, same rfl] at changed
    exact changed rfl
  · refine changed ((load_heap_other _ fun i _ _ found => behind ?_).trans there)
    obtain ⟨w, there', named, -⟩ := registered.entry _ _ found
    obtain rfl := Option.some.inj (there.symm.trans there')
    rw [named]
    exact found

/-! ## A tree -/

/-- A flag that is set. -/
def flag : Registry fun _ : Unit => Bool := ({} : Registry _).create "log.on".toList (.new () "log.on".toList true [])

/-- Two nodes with its name, the second of which is no flag, and one with an upper case letter. -/
def flagTree : Node :=
  .map [("log".toList, .map [("on".toList, .scalar ['0'])]), ("log.on".toList, .scalar "off".toList),
    ("Log.on".toList, .scalar ['1'])]

theorem flag_registered : Registered flag := Registered.start.create (invalid_eq_false.mp (by decide))

theorem flagTree_keys : NonEmptyKeys flagTree := by
  have keys : ((nodes flagTree).all fun i => i.1.all fun key => !key.isEmpty) = true := by decide
  simpa [NonEmptyKeys, List.all_eq_true] using keys

theorem bulk_load_flag : ∃ v, (flag.loadFromYaml (.ofBlocks []) (fun _ => boolCasts) flagTree).heap 0 = some v ∧
    v.var.val = false := by
  obtain ⟨var, loaded, -, last⟩ := (bulk_load (.ofBlocks []) (fun _ => boolCasts) flag_registered
    flagTree_keys).2 "log.on".toList 0 _ rfl rfl
  have texts : (addressed flagTree "log.on".toList).map (textOf (.ofBlocks [])) = [['0'], "off".toList] := by
    rw [← named_eq_addressed flagTree_keys]
    decide
  rw [texts] at last
  refine ⟨_, loaded, ?_⟩
  have stores := last false rfl
  simpa [ConfigVar.Stores] using stores

end Atpdxy.Config
