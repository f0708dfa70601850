import Atpdxy.Config.Containers

/-!
# Listeners that throw

`ConfigVar::setValue` (`config.h`) calls the listeners in the order of their ids,
before it assigns. An exception of one ends the call: it and the listeners in front
have been told of a value that is not stored (`setValue_raises`), so an update is all or
nothing only where none throws (`all_or_nothing`). `fromString` catches what is a
`std::exception`, and returns an empty text as its `bool`.
-/

namespace Atpdxy.Config.Exceptions

open Yaml Cpp

/-- What a listener throws: a `std::exception`, or anything else. -/
inductive Raised
  | exception
  | other
  deriving DecidableEq, Repr

/-- `on_change_cb`, on the old value and the new one; none when it returns. -/
abbrev OnChange (T : Type) := T → T → Option Raised

/-- The order of `std::map<uint64_t, on_change_cb>`. -/
def idLt {T : Type} (p q : ListenerId × OnChange T) : Prop := p.1 < q.1

/-- A `ConfigVar<T>`, with the calls of its listeners. -/
structure ConfigVar (T : Type) where
  m_val : T
  m_cbs : Ordered (idLt (T := T)) := ⟨[], .nil⟩
  notified : List (ListenerId × T × T) := []

/-- What a listener is told. -/
def tell {T : Type} (old new : T) (i : ListenerId × OnChange T) : ListenerId × T × T := (i.1, old, new)

/-- The loop over `m_cbs`: the calls it makes, and the exception that ends it. -/
def callEach {T : Type} (old new : T) : List (ListenerId × OnChange T) → List (ListenerId × T × T) × Option Raised
  | [] => ([], none)
  | i :: rest =>
    match i.2 old new with
    | some e => ([tell old new i], some e)
    | none =>
      let (made, raised) := callEach old new rest
      (tell old new i :: made, raised)

variable {T U : Type} [BEq T]

/-- `ConfigVar::setValue`, with the exception it ends with. -/
def ConfigVar.setValue (s : ConfigVar T) (v : T) : ConfigVar T × Option Raised :=
  if v == s.m_val then (s, none)
  else
    let (made, raised) := callEach s.m_val v s.m_cbs.elems
    let s := { s with notified := s.notified ++ made }
    match raised with
    | some e => (s, some e)
    | none => ({ s with m_val := v }, none)

/-- `ConfigVar::toString`; the text is empty after an exception. -/
def ConfigVar.toString (casts : Casts T) (s : ConfigVar T) : Text := (casts.toStr s.m_val).toOption.getD []

/-- `ConfigVar::fromString`: what it returns, or the exception that leaves it. The casts throw
nothing but a `std::exception`, and the empty text at the end is not a null pointer. -/
def ConfigVar.fromString (casts : Casts T) (s : ConfigVar T) (val : Text) : ConfigVar T × Except Raised Bool :=
  match casts.fromStr val with
  | .error _ => (s, .ok true)
  | .ok v =>
    match s.setValue v with
    | (s, some .other) => (s, .error .other)
    | (s, _) => (s, .ok true)

/-- The exception of the listeners for a new value. -/
def ConfigVar.raises (s : ConfigVar T) (v : T) : Option Raised := s.m_cbs.elems.findSome? fun i => i.2 s.m_val v

/-- The value is stored, or one equal to it. -/
def ConfigVar.Stores (s : ConfigVar T) (v : T) : Prop := s.m_val = v ∨ (v == s.m_val) = true

/-! ## One update -/

inductive Update (T : Type)
  | setValue (v : T)
  | fromString (val : Text)

/-- What is handed to `setValue`. -/
def Update.value (casts : Casts T) : Update T → Except Thrown T
  | .setValue v => .ok v
  | .fromString val => casts.fromStr val

def ConfigVar.update (casts : Casts T) (s : ConfigVar T) : Update T → ConfigVar T
  | .setValue v => (s.setValue v).1
  | .fromString val => (s.fromString casts val).1

/-- The conversion or `setValue` ends with an exception. -/
def Fails (casts : Casts T) (s : ConfigVar T) (u : Update T) : Prop :=
  match u.value casts with
  | .error _ => True
  | .ok v => (s.setValue v).2.isSome = true

/-- An update that fails changes nothing and tells no listener; one that does not stores its value
and, if that differs from the old one, has called each listener once. -/
def AllOrNothing (casts : Casts T) (s : ConfigVar T) (u : Update T) : Prop :=
  (Fails casts s u → (s.update casts u).m_val = s.m_val ∧ (s.update casts u).notified = s.notified) ∧
    (¬ Fails casts s u → ∃ v, u.value casts = .ok v ∧ (s.update casts u).Stores v ∧
      ((v == s.m_val) = false →
        (s.update casts u).notified = s.notified ++ s.m_cbs.elems.map (tell s.m_val v)))

variable {casts : Casts T} {s : ConfigVar T} {u : Update T} {v : T}

/-! ## `setValue` -/

omit [BEq T] in
/-- Listeners that return are told, and the loop goes on. -/
theorem callEach_append {front : List (ListenerId × OnChange T)} {old new : T}
    (quiet : ∀ i ∈ front, i.2 old new = none) (rest : List (ListenerId × OnChange T)) :
    callEach old new (front ++ rest) =
      (front.map (tell old new) ++ (callEach old new rest).1, (callEach old new rest).2) := by
  induction front with
  | nil => rfl
  | cons i front ih =>
    have later : ∀ j ∈ front, j.2 old new = none := fun j member => quiet j (List.mem_cons_of_mem i member)
    rw [List.cons_append, callEach, quiet i List.mem_cons_self, ih later]
    rfl

theorem setValue_same (same : (v == s.m_val) = true) : s.setValue v = (s, none) := by
  rw [ConfigVar.setValue, if_pos same]

/-- The listeners in front of the one that throws have been told, and so has that one. -/
theorem setValue_raises {e : Raised} (differs : (v == s.m_val) = false) (raises : s.raises v = some e) :
    ∃ front i back, s.m_cbs.elems = front ++ i :: back ∧ (∀ j ∈ front, j.2 s.m_val v = none) ∧ i.2 s.m_val v = some e ∧
      s.setValue v = ({ s with notified := s.notified ++ (front ++ [i]).map (tell s.m_val v) }, some e) := by
  obtain ⟨front, i, back, elems, thrown, quiet⟩ := List.findSome?_eq_some_iff.mp raises
  refine ⟨front, i, back, elems, quiet, thrown, ?_⟩
  rw [ConfigVar.setValue, if_neg (by simp [differs]), elems, callEach_append quiet, callEach, thrown, List.map_append]
  rfl

theorem setValue_quiet (differs : (v == s.m_val) = false) (quiet : s.raises v = none) :
    s.setValue v =
      ({ s with
        m_val := v
        notified := s.notified ++ s.m_cbs.elems.map (tell s.m_val v) }, none) := by
  have each : ∀ i ∈ s.m_cbs.elems, i.2 s.m_val v = none := List.findSome?_eq_none_iff.mp quiet
  have calls := callEach_append each []
  rw [List.append_nil, callEach, List.append_nil] at calls
  rw [ConfigVar.setValue, if_neg (by simp [differs]), calls]

omit [BEq T] in
/-- Each listener has one call of a loop in which none throws. -/
theorem told_once {ls : List (ListenerId × OnChange T)} (sorted : ls.Pairwise idLt) (old new : T) (l : ListenerId) :
    ((ls.map (tell old new)).filter fun c => c.1 = l).map Prod.snd =
      if l ∈ ls.map Prod.fst then [(old, new)] else [] := by
  induction ls with
  | nil => rfl
  | cons i ls ih =>
    obtain ⟨first, later⟩ := List.pairwise_cons.mp sorted
    by_cases same : i.1 = l
    · -- the ids behind are greater
      have behind : l ∉ ls.map Prod.fst := by
        intro member
        obtain ⟨j, there, named⟩ := List.mem_map.mp member
        have less : i.1 < j.1 := first j there
        exact absurd (named.trans same.symm) (Nat.ne_of_gt less)
      rw [List.map_cons, List.filter_cons_of_pos (by simp [tell, same]), List.map_cons, ih later, if_neg behind,
        if_pos (by simp [same])]
      rfl
    · rw [List.map_cons, List.filter_cons_of_neg (by simp [tell, same]), ih later]
      simp only [List.map_cons, List.mem_cons, Ne.symm same, false_or]

/-- The variable with what each listener was called with. -/
def ConfigVar.view (s : ConfigVar T) : Config.ConfigVar T where
  val := s.m_val
  received l := (s.notified.filter fun c => c.1 = l).map Prod.snd

/-- Where no listener throws, this is `setValue` with listeners that only record. -/
theorem view_setValue (quiet : s.raises v = none) (t : Tid) :
    (s.setValue v).1.view = s.view.setValue (s.m_cbs.elems.map Prod.fst).toFinset t v := by
  by_cases same : (v == s.m_val) = true
  · rw [setValue_same same, Config.ConfigVar.setValue, if_pos (show (v == s.view.val) = true from same)]
  · have differs : (v == s.m_val) = false := Bool.eq_false_iff.mpr same
    have different : ¬ (v == s.view.val) = true := same
    rw [setValue_quiet differs quiet, Config.ConfigVar.setValue, if_neg different, Config.notify, if_neg different]
    simp only [ConfigVar.view, Config.ConfigVar.mk.injEq, true_and]
    funext l
    rw [List.filter_append, List.map_append, told_once s.m_cbs.sorted]
    by_cases registered : l ∈ s.m_cbs.elems.map Prod.fst <;> simp [registered]

/-! ## Updates -/

theorem update_error {e : Thrown} (value : u.value casts = .error e) : s.update casts u = s := by
  cases u with
  | setValue v => cases value
  | fromString val =>
    change casts.fromStr val = .error e at value
    rw [ConfigVar.update, ConfigVar.fromString, value]

theorem update_ok (value : u.value casts = .ok v) : s.update casts u = (s.setValue v).1 := by
  cases u with
  | setValue w =>
    cases value
    rfl
  | fromString val =>
    change casts.fromStr val = .ok v at value
    simp only [ConfigVar.update, ConfigVar.fromString, value]
    generalize s.setValue v = result
    obtain ⟨t, raised⟩ := result
    cases raised with
    | none => rfl
    | some e => cases e <;> rfl

theorem fails_ok (value : u.value casts = .ok v) : Fails casts s u ↔ (s.setValue v).2.isSome = true := by
  rw [Fails, value]

/-- **Main result**: an update is all or nothing exactly when its conversion fails, its value is stored already, or
no listener throws for it. -/
theorem all_or_nothing (casts : Casts T) (s : ConfigVar T) (u : Update T) :
    AllOrNothing casts s u ↔ ∀ v, u.value casts = .ok v → (v == s.m_val) = false → s.raises v = none := by
  cases value : u.value casts with
  | error e =>
    have fails : Fails casts s u := by rw [Fails, value]; trivial
    rw [AllOrNothing, update_error value]
    simp [fails]
  | ok v =>
    rw [AllOrNothing, update_ok value, fails_ok value, value]
    simp only [Except.ok.injEq, exists_eq_left', forall_eq']
    by_cases same : (v == s.m_val) = true
    · rw [setValue_same same]
      simp [same, ConfigVar.Stores]
    · have differs : (v == s.m_val) = false := Bool.eq_false_iff.mpr same
      cases raises : s.raises v with
      | none =>
        rw [setValue_quiet differs raises]
        simp [ConfigVar.Stores]
      | some e =>
        obtain ⟨front, i, back, -, -, -, ended⟩ := setValue_raises differs raises
        rw [ended]
        simp [differs]

/-- Two listeners, of which the second throws. -/
def secondThrows : ConfigVar Bool where
  m_val := false
  m_cbs := ⟨[(1, fun _ _ => none), (2, fun _ _ => some .exception)], by simp [idLt]⟩

/-- Both listeners have been told of a value that is not stored. -/
theorem not_all_or_nothing :
    (secondThrows.fromString boolCasts ['1']).1.m_val = false ∧
      (secondThrows.fromString boolCasts ['1']).1.notified = [(1, false, true), (2, false, true)] ∧
      ¬ AllOrNothing boolCasts secondThrows (.fromString ['1']) := by
  refine ⟨rfl, rfl, fun atomic => ?_⟩
  have unchanged := (atomic.1 rfl).2
  cases unchanged

end Atpdxy.Config.Exceptions
