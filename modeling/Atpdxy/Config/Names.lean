import Atpdxy.Config.Load

/-!
# Which names can be addressed

`Lookup` and `ListAllMember` (`config.h`, `config.cpp`) refuse what is not in one set
of characters. The set is without '9', and the loader looks at the keys before it
makes them lower case. So a name of letters, digits, dots and underscores is of use
only without that digit, and a node is seen only under its name in lower case
(`addressable`).
-/

namespace Atpdxy.Config

open Yaml

/-- The characters of well-formed names. -/
def nameChars : Text := "abcdefghijklmnopqrstuvwxyz0123456789._".toList

/-- Wherever there is no such variable, `Lookup` with the name and a default creates one. -/
def Registers (n : Text) : Prop :=
  ∀ {Ty : Type} {Val : Ty → Type} [DecidableEq Ty] (s : Registry Val) (type : Ty) (default : Val type)
    (description : Text), s.datas n = none →
      ∃ ptr, (s.lookupOr type n default description).2 = .returned (some ptr) ∧
        (s.lookupOr type n default description).1.datas n = some ptr

/-- In every registry with a variable of the name, loading hands it this node and no other. -/
def Applies (yaml : YamlCpp) (n : Text) (root node : Node) : Prop :=
  ∀ {Ty : Type} {Val : Ty → Type} [∀ t, BEq (Val t)] (casts : ∀ t, Casts (Val t)) (s : Registry Val) (ptr : Addr)
    (v : Variable Val), Registered s → s.datas n = some ptr → s.heap ptr = some v →
      (s.loadFromYaml yaml casts root).heap ptr = some (v.fromString casts (textOf yaml node))

variable {yaml : YamlCpp} {n : Text} {root node : Node} {path : List Text}

theorem allowed_of_nameChars (wellFormed : ∀ c ∈ n, c ∈ nameChars) : (∀ c ∈ n, c ∈ allowed) ↔ '9' ∉ n := by
  have nine : '9' ∉ allowed := by decide
  have others : (nameChars.all fun c => c == '9' || allowed.contains c) = true := by decide
  constructor
  · intro valid member
    exact nine (valid '9' member)
  · intro without c member
    have either := List.all_eq_true.mp others c (wellFormed c member)
    rw [Bool.or_eq_true, beq_iff_eq] at either
    obtain rfl | valid := either
    · exact (without member).elim
    · simpa using valid

theorem registers_iff (n : Text) : Registers n ↔ ∀ c ∈ n, c ∈ allowed := by
  constructor
  · intro registers
    obtain ⟨ptr, returned, -⟩ := registers ({} : Registry fun _ : Unit => Unit) () () [] rfl
    obtain ⟨it, found, -⟩ | ⟨-, threw⟩ | ⟨-, valid, -⟩ := lookupOr_cases ({} : Registry fun _ : Unit => Unit) () n () []
    · cases found
    · rw [threw] at returned
      cases returned
    · exact valid
  · intro valid Ty Val _ s type default description new
    have good : invalid n = false := invalid_eq_false.mpr valid
    refine ⟨s.next, ?_⟩
    simp [Registry.lookupOr, new, good]

/-- What goes to the variable when one node has its name, in whatever case. -/
theorem named_single (only : ((nodes root).filter fun i => lower (dotted i.1) == n) = [(path, node)]) :
    named n (listAllMember [] root) = if !(dotted path).isEmpty && !invalid (dotted path) then [node] else [] := by
  rw [named_listAllMember, only, List.filter_singleton]
  cases !(dotted path).isEmpty && !invalid (dotted path) <;> rfl

/-- The loader reaches it under the name itself, if the name is valid. -/
theorem reaches_iff (full : n ≠ []) (lowered : lower (dotted path) = n) :
    (!(dotted path).isEmpty && !invalid (dotted path)) = true ↔ (∀ c ∈ n, c ∈ allowed) ∧ dotted path = n := by
  rw [Bool.and_eq_true, Bool.not_eq_true', Bool.not_eq_true', invalid_eq_false]
  constructor
  · rintro ⟨-, valid⟩
    have same : dotted path = n := (lower_allowed valid).symm.trans lowered
    exact ⟨same ▸ valid, same⟩
  · rintro ⟨valid, same⟩
    rw [same]
    exact ⟨by simpa using full, valid⟩

/-- Loading hands the node to the variable if it has the name itself. -/
theorem load_single {Ty : Type} {Val : Ty → Type} [∀ t, BEq (Val t)] {casts : ∀ t, Casts (Val t)} {s : Registry Val}
    {ptr : Addr} {v : Variable Val} (registered : Registered s) (found : s.datas n = some ptr)
    (there : s.heap ptr = some v) (full : n ≠ [])
    (only : ((nodes root).filter fun i => lower (dotted i.1) == n) = [(path, node)]) :
    (s.loadFromYaml yaml casts root).heap ptr =
      some (if dotted path = n then v.fromString casts (textOf yaml node) else v) := by
  obtain ⟨-, -, -, valid⟩ := registered.entry n ptr found
  have lowered : lower (dotted path) = n := by
    have kept : (path, node) ∈ (nodes root).filter fun i => lower (dotted i.1) == n := by rw [only]; simp
    simpa using (List.mem_filter.mp kept).2
  have reaches := reaches_iff full lowered
  rw [loadFromYaml_heap yaml casts registered found, there, named_single only]
  by_cases same : dotted path = n
  · rw [if_pos (reaches.mpr ⟨valid, same⟩), if_pos same]
    rfl
  · rw [if_neg (fun here => same (reaches.mp here).2), if_neg same]
    rfl

theorem applies_iff (full : n ≠ []) (valid : ∀ c ∈ n, c ∈ allowed)
    (only : ((nodes root).filter fun i => lower (dotted i.1) == n) = [(path, node)]) :
    Applies yaml n root node ↔ dotted path = n := by
  constructor
  · intro applies
    by_contra apart
    -- a variable of a text that is not the node's
    let s : Registry fun _ : Unit => Text :=
      ({} : Registry _).create n (.new () n ('x' :: textOf yaml node) [])
    have registered : Registered s := Registered.start.create valid
    have found : s.datas n = some 0 := Function.update_self ..
    have both := (load_single registered found rfl full only).symm.trans
      (applies (fun _ => ⟨pure, pure⟩) s 0 _ registered found rfl)
    rw [if_neg apart] at both
    have values := congrArg (Option.map fun v => v.var.val) both
    have stored : 'x' :: textOf yaml node = _ := Option.some.inj values
    obtain same | same := stores_setValue { val := 'x' :: textOf yaml node } ∅ 0 (textOf yaml node)
    · exact List.cons_ne_self _ _ (stored.trans same)
    · exact List.cons_ne_self _ _ (stored.trans (eq_of_beq same).symm)
  · intro same Ty Val _ casts s ptr v registered found there
    rw [load_single registered found there full only, if_pos same]

/-- **Main result**: a well-formed name can be registered exactly when it has no '9'; and the one node that
has it in some case is also loaded exactly when, besides, it has it in lower case. -/
theorem addressable (yaml : YamlCpp) (full : n ≠ []) (wellFormed : ∀ c ∈ n, c ∈ nameChars) :
    (Registers n ↔ '9' ∉ n) ∧
      ∀ root path node, ((nodes root).filter fun i => lower (dotted i.1) == n) = [(path, node)] →
        (Registers n ∧ Applies yaml n root node ↔ '9' ∉ n ∧ dotted path = n) := by
  have registers : Registers n ↔ '9' ∉ n := (registers_iff n).trans (allowed_of_nameChars wellFormed)
  refine ⟨registers, fun root path node only => ?_⟩
  rw [registers]
  refine and_congr_right fun without => ?_
  exact applies_iff full ((allowed_of_nameChars wellFormed).mpr without) only

/-- One setting, with the first key in lower case or not. -/
def setting (key : Text) : Node := .map [(key, .map [("on".toList, .scalar ['0'])])]

theorem addressable_on : Registers "log.on".toList ∧ Applies (.ofBlocks []) "log.on".toList (setting "log".toList)
    (.scalar ['0']) := by
  have wellFormed : ∀ c ∈ "log.on".toList, c ∈ nameChars := by
    have each : ("log.on".toList.all fun c => nameChars.contains c) = true := by decide
    simpa [List.all_eq_true] using each
  have both := (addressable (.ofBlocks []) (by decide) wellFormed).2 (setting "log".toList) ["log".toList, "on".toList]
    _ (by rfl)
  exact both.mpr ⟨by decide, by decide⟩

/-- A name with the digit is refused, and a node with an upper case letter is not loaded. -/
theorem not_addressable :
    ¬ Registers "port9".toList ∧
      ((nodes (setting "Log".toList)).filter fun i => lower (dotted i.1) == "log.on".toList) =
        [(["Log".toList, "on".toList], .scalar ['0'])] ∧
      ¬ Applies (.ofBlocks []) "log.on".toList (setting "Log".toList) (.scalar ['0']) := by
  refine ⟨fun registers => ?_, rfl, fun applies => ?_⟩
  · obtain ⟨ptr, returned, -⟩ := registers ({} : Registry fun _ : Unit => Unit) () () [] rfl
    cases returned
  · have loaded := applies (fun _ => boolCasts) flag 0 _ flag_registered rfl rfl
    have values := congrArg (Option.map fun v => v.var.val) loaded
    cases values

end Atpdxy.Config
