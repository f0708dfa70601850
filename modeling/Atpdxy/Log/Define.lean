import Atpdxy.Log.FormatItem
import Atpdxy.Yaml.Node

/-!
# Logger definitions

`LogAppenderDefine` and `LogDefine` of `log.cpp`, the values of the configuration
variable `logs`. A `std::set<LogDefine>` is ordered by name, so it is a list with
strictly increasing names (`LogDefines`).
-/

namespace Atpdxy.Log

structure LogAppenderDefine where
  /-- 1 is a file, 2 the standard output -/
  type : Int := 0
  level : Level := .unknow
  formatter : Text := []
  file : Text := []
  deriving DecidableEq, Repr

structure LogDefine where
  name : Text
  level : Level := .unknow
  formatter : Text := []
  appenders : List LogAppenderDefine := []
  deriving DecidableEq, Repr

/-- A `std::set<LogDefine>`. -/
structure LogDefines where
  defines : List LogDefine
  sorted : defines.Pairwise fun a b => a.name < b.name
  deriving DecidableEq

/-- `std::set::insert`; an element with the same name stays. -/
def insertDefine (d : LogDefine) : List LogDefine → List LogDefine
  | [] => [d]
  | e :: rest =>
    if d.name < e.name then d :: e :: rest
    else if e.name < d.name then e :: insertDefine d rest
    else e :: rest

variable {d e : LogDefine} {defines : List LogDefine}

theorem mem_insertDefine (member : e ∈ insertDefine d defines) : e = d ∨ e ∈ defines := by
  induction defines with
  | nil => exact .inl (List.mem_singleton.mp member)
  | cons a rest ih =>
    unfold insertDefine at member
    split at member
    · exact List.mem_cons.mp member
    · split at member
      · rcases List.mem_cons.mp member with rfl | member
        · exact .inr List.mem_cons_self
        · exact (ih member).imp id (List.mem_cons_of_mem a)
      · exact .inr member

theorem insertDefine_sorted (sorted : defines.Pairwise fun a b => a.name < b.name) :
    (insertDefine d defines).Pairwise fun a b => a.name < b.name := by
  induction defines with
  | nil => exact List.pairwise_singleton _ d
  | cons e rest ih =>
    obtain ⟨first, later⟩ := List.pairwise_cons.mp sorted
    unfold insertDefine
    split
    · rename_i less
      refine List.pairwise_cons.mpr ⟨fun a member => ?_, sorted⟩
      rcases List.mem_cons.mp member with rfl | member
      · exact less
      · exact lt_trans less (first a member)
    · split
      · rename_i less
        refine List.pairwise_cons.mpr ⟨fun a member => ?_, ih later⟩
        rcases mem_insertDefine member with rfl | member
        · exact less
        · exact first a member
      · exact sorted

/-- The empty set. -/
def LogDefines.empty : LogDefines := ⟨[], List.Pairwise.nil⟩

def LogDefines.insert (s : LogDefines) (d : LogDefine) : LogDefines :=
  ⟨insertDefine d s.defines, insertDefine_sorted s.sorted⟩

/-- `std::set::find`, which compares names only. -/
def LogDefines.find (s : LogDefines) (name : Text) : Option LogDefine := s.defines.find? fun d => d.name = name

/-- An element greater than all others goes to the end. -/
theorem insertDefine_last (greatest : ∀ e ∈ defines, e.name < d.name) : insertDefine d defines = defines ++ [d] := by
  induction defines with
  | nil => rfl
  | cons e rest ih =>
    have less := greatest e List.mem_cons_self
    rw [insertDefine, if_neg (lt_asymm less), if_pos less, ih fun a member => greatest a (List.mem_cons_of_mem e member)]
    rfl

end Atpdxy.Log
