import Atpdxy.Config.Load

/-!
# Loading a tree twice

A variable sees the same values again (`load_heap`). `assign` is what one of them does:
an equal value is not stored. So the last value stored in the first pass is equal to all
behind it (`settles`), and in the second pass it is not replaced by one that differs
(`foldl_assign_twice`). A variable that only one node goes to is then not assigned to, and
its listeners are not called (`reload`).
-/

namespace Atpdxy.Config

open Yaml

/-! ## Values assigned in turn -/

section Values

variable {T : Type} [BEq T] {a b x : T} {xs : List T}

/-- The stored value after `setValue`. -/
def assign (a x : T) : T := if x == a then a else x

/-- Equal by `operator==`, whichever side calls it, or identical. -/
def SameValue (a b : T) : Prop := a = b ∨ (a == b) = true ∨ (b == a) = true

theorem assign_of_eq (same : (x == a) = true) : assign a x = a := if_pos same

theorem assign_of_ne (differs : ¬ (x == a) = true) : assign a x = x := if_neg differs

theorem foldl_assign_of_all (equal : ∀ x ∈ xs, (x == a) = true) : xs.foldl assign a = a := by
  induction xs with
  | nil => rfl
  | cons x xs ih =>
    rw [List.foldl_cons, assign_of_eq (equal x List.mem_cons_self)]
    exact ih fun y member => equal y (List.mem_cons_of_mem x member)

/-- What is stored was there or was assigned. -/
theorem foldl_assign_mem (xs : List T) (a : T) : xs.foldl assign a = a ∨ xs.foldl assign a ∈ xs := by
  induction xs generalizing a with
  | nil => exact .inl rfl
  | cons x xs ih =>
    rw [List.foldl_cons]
    obtain same | member := ih (assign a x)
    · rw [same]
      unfold assign
      split
      · exact .inl rfl
      · exact .inr List.mem_cons_self
    · exact .inr (List.mem_cons_of_mem x member)

/-- Nothing was stored, or a value to which all behind it are equal. -/
theorem settles (xs : List T) (a : T) :
    (∀ x ∈ xs, (x == xs.foldl assign a) = true) ∧ xs.foldl assign a = a ∨
      ∃ front back, xs = front ++ xs.foldl assign a :: back ∧ ∀ x ∈ back, (x == xs.foldl assign a) = true := by
  induction xs using List.reverseRecOn with
  | nil => exact .inl ⟨fun x member => (List.not_mem_nil member).elim, rfl⟩
  | append_singleton xs x ih =>
    rw [List.foldl_append, List.foldl_cons, List.foldl_nil]
    by_cases same : (x == xs.foldl assign a) = true
    · rw [assign_of_eq same]
      obtain ⟨equal, stays⟩ | ⟨front, back, split, equal⟩ := ih
      · refine .inl ⟨fun y member => ?_, stays⟩
        obtain member | last := List.mem_append.mp member
        · exact equal y member
        · rwa [List.mem_singleton.mp last]
      · refine .inr ⟨front, back ++ [x], ?_, fun y member => ?_⟩
        · rw [← List.cons_append, ← List.append_assoc, ← split]
        · obtain member | last := List.mem_append.mp member
          · exact equal y member
          · rwa [List.mem_singleton.mp last]
    · rw [assign_of_ne same]
      exact .inr ⟨xs, [], rfl, fun y member => (List.not_mem_nil member).elim⟩

/-- The second pass ends with the value of the first. -/
theorem foldl_assign_twice (xs : List T) (a : T) :
    SameValue (xs.foldl assign a) (xs.foldl assign (xs.foldl assign a)) := by
  obtain ⟨equal, -⟩ | ⟨front, back, split, equal⟩ := settles xs a
  · exact .inl (foldl_assign_of_all equal).symm
  · generalize xs.foldl assign a = m at split equal ⊢
    subst split
    rw [List.foldl_append, List.foldl_cons]
    generalize front.foldl assign m = y
    by_cases same : (m == y) = true
    · rw [assign_of_eq same]
      obtain stays | later := foldl_assign_mem back y
      · exact .inr (.inl (by rwa [stays]))
      · exact .inr (.inr (equal _ later))
    · rw [assign_of_ne same, foldl_assign_of_all equal]
      exact .inl rfl

/-- From equal values the same is stored, or neither is replaced. -/
theorem foldl_assign_twins [EquivBEq T] (xs : List T) (same : (a == b) = true) :
    xs.foldl assign a = xs.foldl assign b ∨ xs.foldl assign a = a ∧ xs.foldl assign b = b := by
  induction xs with
  | nil => exact .inr ⟨rfl, rfl⟩
  | cons x xs ih =>
    rw [List.foldl_cons, List.foldl_cons]
    by_cases equal : (x == a) = true
    · rw [assign_of_eq equal, assign_of_eq (BEq.trans equal same)]
      exact ih
    · have other : ¬ (x == b) = true := fun equal' => equal (BEq.trans equal' (BEq.symm same))
      rw [assign_of_ne equal, assign_of_ne other]
      exact .inl rfl

/-- If `operator==` is an equivalence the second pass ends with the same value. -/
theorem foldl_assign_idem [EquivBEq T] (xs : List T) (a : T) :
    xs.foldl assign (xs.foldl assign a) = xs.foldl assign a := by
  cases xs with
  | nil => rfl
  | cons x xs =>
    have equal : (x == assign a x) = true := by
      unfold assign
      split
      · assumption
      · exact BEq.rfl
    rw [List.foldl_cons, List.foldl_cons]
    generalize assign a x = a' at equal
    by_cases same : (x == xs.foldl assign a') = true
    · rw [assign_of_eq same]
      obtain twins | ⟨-, stays⟩ := foldl_assign_twins xs (BEq.trans (BEq.symm equal) same)
      · exact twins.symm
      · exact stays
    · rw [assign_of_ne same]
      obtain twins | ⟨stays, -⟩ := foldl_assign_twins xs (BEq.symm equal)
      · exact twins.symm
      · rw [stays] at same
        exact (same equal).elim

end Values

/-! ## Variables -/

section One

variable {T : Type} [BEq T] {cast : Casts T} {cbs : Finset ListenerId} {t : Tid}

theorem setValue_val (var : ConfigVar T) (x : T) : (var.setValue cbs t x).val = assign var.val x := by
  unfold ConfigVar.setValue assign
  split <;> rfl

theorem foldl_fromString_val (texts : List Text) (var : ConfigVar T) :
    (texts.foldl (fun var text => var.fromString cast cbs t text) var).val =
      (conversions cast texts).foldl assign var.val := by
  induction texts generalizing var with
  | nil => rfl
  | cons text texts ih =>
    rw [List.foldl_cons, ih]
    cases converted : cast.fromStr text with
    | error e => simp [fromString_error converted, conversions, converted, Except.toOption]
    | ok x => simp [fromString_ok converted, conversions, converted, Except.toOption, setValue_val]

/-- A text that was handed over is without effect the second time. -/
theorem fromString_twice [ReflBEq T] (var : ConfigVar T) (text : Text) :
    (var.fromString cast cbs t text).fromString cast cbs t text = var.fromString cast cbs t text := by
  cases converted : cast.fromStr text with
  | error e => rw [fromString_error converted, fromString_error converted]
  | ok x =>
    rw [fromString_ok converted, fromString_ok converted]
    have equal : (x == (var.setValue cbs t x).val) = true := by
      obtain stored | equal := stores_setValue var cbs t x
      · rw [stored]
        exact BEq.rfl
      · exact equal
    generalize var.setValue cbs t x = var' at equal
    rw [ConfigVar.setValue, if_pos equal]

end One

/-! ## Registries -/

variable {Ty : Type} {Val : Ty → Type} [∀ t, BEq (Val t)] {yaml : YamlCpp} {casts : ∀ t, Casts (Val t)}
  {s : Registry Val} {root : Node}

omit [∀ t, BEq (Val t)] in
/-- The registries differ at most in their objects. -/
theorem Sets.eq_of_heap {s' : Registry Val} (sets : Sets s s') (heap : s'.heap = s.heap) : s' = s := by
  obtain ⟨datas, next, -⟩ := sets
  cases s
  cases s'
  simp_all

/-- At most one node goes to each variable if no two nodes have one path. -/
theorem named_unique (unique : ((nodes root).map fun i => dotted i.1).Nodup) (key : Text) :
    (named key (listAllMember [] root)).length ≤ 1 := by
  have counted : ((nodes root).filter fun i => dotted i.1 == key).length ≤ 1 := by
    rw [← List.countP_eq_length_filter]
    have once := List.nodup_iff_count_le_one.mp unique key
    rwa [List.count, List.countP_map] at once
  rw [named_listAllMember, List.length_map, List.filter_filter]
  refine le_trans (List.Sublist.length_le (List.monotone_filter_right _ fun i kept => ?_)) counted
  -- what the loader reaches is lower case
  simp only [Bool.and_eq_true, Bool.not_eq_true', beq_iff_eq] at kept ⊢
  obtain ⟨⟨-, valid⟩, lowered⟩ := kept
  rwa [lower_allowed (invalid_eq_false.mp valid)] at lowered

/-- The second pass finds the variable as the first has left it; an object behind no key is left alone. -/
theorem twice_heap (yaml : YamlCpp) (casts : ∀ t, Casts (Val t)) (registered : Registered s) (root : Node)
    (ptr : Addr) :
    (∃ texts : List Text,
      (s.loadFromYaml yaml casts root).heap ptr =
        (s.heap ptr).map (fun v => texts.foldl (Variable.fromString casts) v) ∧
      ((s.loadFromYaml yaml casts root).loadFromYaml yaml casts root).heap ptr =
        ((s.loadFromYaml yaml casts root).heap ptr).map (fun v => texts.foldl (Variable.fromString casts) v) ∧
      (((nodes root).map fun i => dotted i.1).Nodup → texts.length ≤ 1)) ∨
    ((s.loadFromYaml yaml casts root).loadFromYaml yaml casts root).heap ptr =
      (s.loadFromYaml yaml casts root).heap ptr := by
  have sets := sets_loadFromYaml yaml casts s root
  by_cases behind : ∃ key, s.datas key = some ptr
  · obtain ⟨key, found⟩ := behind
    have found' : (s.loadFromYaml yaml casts root).datas key = some ptr := by rw [sets.datas]; exact found
    refine .inl ⟨_, loadFromYaml_heap yaml casts registered found root,
      loadFromYaml_heap yaml casts (sets.registered registered) found' root, fun unique => ?_⟩
    rw [List.length_map]
    exact named_unique unique key
  · refine .inr (load_heap_other _ fun i _ _ found => behind ⟨lower i.1, ?_⟩)
    rwa [sets.datas] at found

/-- **Main result**: after loading a tree twice each variable has the value it has after loading it once;
and if no two nodes have one path, the second time changes nothing and calls no listener. -/
theorem reload [∀ t, ReflBEq (Val t)] (yaml : YamlCpp) (casts : ∀ t, Casts (Val t)) (registered : Registered s)
    (root : Node) :
    let once := s.loadFromYaml yaml casts root
    let twice := once.loadFromYaml yaml casts root
    (∀ ptr v, once.heap ptr = some v → ∃ var, twice.heap ptr = some { v with var } ∧ SameValue v.var.val var.val ∧
      (EquivBEq (Val v.type) → var.val = v.var.val)) ∧
    (((nodes root).map fun i => dotted i.1).Nodup → twice = once) := by
  intro once twice
  refine ⟨fun ptr v there => ?_, fun unique => ?_⟩
  · obtain ⟨texts, first, second, -⟩ | same := twice_heap yaml casts registered root ptr
    · obtain ⟨v, -, rfl⟩ := Option.map_eq_some_iff.mp (first.symm.trans there)
      refine ⟨_, second.trans (by rw [there, Option.map_some, foldl_variable texts (texts.foldl _ v)]), ?_⟩
      rw [foldl_variable texts v]
      simp only [foldl_fromString_val]
      exact ⟨foldl_assign_twice _ v.var.val, fun _ => foldl_assign_idem _ v.var.val⟩
    · exact ⟨v.var, same.trans there, .inl rfl, fun _ => rfl⟩
  · refine (sets_loadFromYaml yaml casts once root).eq_of_heap (funext fun ptr => ?_)
    obtain ⟨texts, first, second, single⟩ | same := twice_heap yaml casts registered root ptr
    · refine second.trans ?_
      rw [show once.heap ptr = _ from first, Option.map_map]
      congr 1
      funext v
      cases texts with
      | nil => rfl
      | cons text more =>
        obtain rfl : more = [] := by simpa using single unique
        simp only [Function.comp_def, List.foldl_cons, List.foldl_nil, Variable.fromString, fromString_twice]
    · exact same

/-- The same without the second spelling. -/
def flagTreeOnce : Node := .map [("log".toList, .map [("on".toList, .scalar ['0'])]), ("Log.on".toList, .scalar ['1'])]

theorem reload_flag :
    let load (tree : Node) (s : Registry fun _ : Unit => Bool) :=
      s.loadFromYaml (.ofBlocks []) (fun _ => boolCasts) tree
    (∃ v, (load flagTree flag).heap 0 = some v ∧ ∃ var,
      (load flagTree (load flagTree flag)).heap 0 = some { v with var } ∧ var.val = v.var.val) ∧
    load flagTreeOnce (load flagTreeOnce flag) = load flagTreeOnce flag := by
  constructor
  · obtain ⟨var, loaded, -, same⟩ := (reload (.ofBlocks []) (fun _ => boolCasts) flag_registered flagTree).1 0 _ rfl
    exact ⟨_, rfl, var, loaded, same inferInstance⟩
  · exact (reload (.ofBlocks []) (fun _ => boolCasts) flag_registered flagTreeOnce).2 (by decide)

end Atpdxy.Config
