import Atpdxy.Config.Exceptions

/-!
# What a sequence variable accepts

The casts to the sequence containers (`config.h`) ask a node for its size and its
items and never for its kind: a scalar has no items, and a map has those under its
numbers. `fromString` returns the same whatever has happened, so a document of the
wrong kind is not reported, and may be stored as an empty container
(`sequence_reports`).
-/

namespace Atpdxy.Config.Exceptions

open Yaml Cpp

variable {yaml : YamlCpp} {T U V : Type} {element : Casts T} {casts : Casts U} {build : List T → U}

/-- The four containers read from a sequence, with what each makes of the elements. -/
inductive SequenceOf (yaml : YamlCpp) (element : Casts T) : {U : Type} → Casts U → (List T → U) → Prop
  | vector : SequenceOf yaml element (element.vector yaml) id
  | list : SequenceOf yaml element (element.list yaml) id
  | set (lt : T → T → Prop) [DecidableRel lt] [IsStrictOrder T lt] :
    SequenceOf yaml element (element.set yaml lt) fun xs => xs.foldl Ordered.insert .empty
  | unorderedSet [DecidableEq T] (walk : Walk T) :
    SequenceOf yaml element (element.unorderedSet yaml walk) List.toFinset

/-- The element is what the node converts to. -/
def Converts (yaml : YamlCpp) (element : Casts T) (x : T) (node : Node) : Prop :=
  element.fromStr (yaml.emit node) = .ok x

/-- The document is null, or a sequence whose elements all convert. -/
inductive Elements (yaml : YamlCpp) (element : Casts T) : Node → List T → Prop
  | null : Elements yaml element .null []
  | seq {nodes : List Node} {xs : List T} :
    List.Forall₂ (Converts yaml element) xs nodes → Elements yaml element (.seq nodes) xs

/-- The value is stored already, or no listener throws for it; or it is stored already, unequal
to itself, and what is thrown is caught. -/
def Lands [BEq U] (s : ConfigVar U) (v : U) : Prop :=
  (v == s.m_val) = true ∨ s.raises v = none ∨ (s.raises v = some .exception ∧ s.m_val = v)

/-- A document with elements is accepted and stored, and any other is refused. -/
def Reports [BEq U] (yaml : YamlCpp) (element : Casts T) (casts : Casts U) (build : List T → U) (s : ConfigVar U)
    (val : Text) (node : Node) : Prop :=
  (∀ xs, Elements yaml element node xs →
    (s.fromString casts val).2 = .ok true ∧ (s.fromString casts val).1.Stores (build xs)) ∧
  ((¬ ∃ xs, Elements yaml element node xs) →
    (s.fromString casts val).2 = .ok false ∧ (s.fromString casts val).1.m_val = s.m_val)

/-! ## The casts -/

theorem converts_unique : Relator.LeftUnique (Converts yaml element) := fun _ _ _ first second =>
  Except.ok.inj (first.symm.trans second)

theorem Elements.unique {node : Node} {xs ys : List T} (first : Elements yaml element node xs)
    (second : Elements yaml element node ys) : xs = ys := by
  cases first with
  | null => cases second; rfl
  | seq each =>
    cases second with
    | seq again => exact List.left_unique_forall₂' converts_unique each again

/-- The elements added one by one. -/
theorem castSequence_eq (add : V → T → V) (empty : V) {val : Text} {node : Node} {xs : List T}
    (loaded : yaml.load val = some node) (elements : Elements yaml element node xs) :
    castSequence yaml element add empty val = .ok (xs.foldl add empty) := by
  have loaded : yaml.loadNode val = .ok node := by rw [YamlCpp.loadNode, loaded]; rfl
  rw [castSequence, loaded]
  cases elements with
  | null => rfl
  | seq each => exact castItems_eq each empty

theorem foldl_insertElement [DecidableEq T] (xs : List T) : xs.foldl insertElement ∅ = xs.toFinset := by
  ext x
  rw [mem_foldl_insertElement]
  simp

/-- One spec for the four. -/
theorem SequenceOf.fromStr {val : Text} {node : Node} {xs : List T} (sequence : SequenceOf yaml element casts build)
    (loaded : yaml.load val = some node) (elements : Elements yaml element node xs) :
    casts.fromStr val = .ok (build xs) := by
  cases sequence with
  | vector =>
    have read := castSequence_eq pushBack [] loaded elements
    rwa [foldl_pushBack, List.nil_append] at read
  | list =>
    have read := castSequence_eq pushBack [] loaded elements
    rwa [foldl_pushBack, List.nil_append] at read
  | set lt => exact castSequence_eq _ _ loaded elements
  | unorderedSet walk =>
    have read := castSequence_eq insertElement ∅ loaded elements
    rwa [foldl_insertElement] at read

/-! ## What a call of `fromString` leaves -/

variable [BEq U] {s : ConfigVar U} {v : U} {val : Text} {node : Node}

/-- Which values a conversion leads to are stored, by a call that returns. -/
theorem lands_iff (converted : casts.fromStr val = .ok v) :
    (s.fromString casts val).2 = .ok true ∧ (s.fromString casts val).1.Stores v ↔ Lands s v := by
  simp only [ConfigVar.fromString, converted]
  by_cases same : (v == s.m_val) = true
  · rw [setValue_same same]
    simp [Lands, ConfigVar.Stores, same]
  · have differs : (v == s.m_val) = false := Bool.eq_false_iff.mpr same
    cases raises : s.raises v with
    | none =>
      rw [setValue_quiet differs raises]
      simp [Lands, ConfigVar.Stores, raises]
    | some e =>
      obtain ⟨front, i, back, -, -, -, ended⟩ := setValue_raises differs raises
      rw [ended]
      cases e <;> simp [Lands, ConfigVar.Stores, differs, raises]

/-- Nothing is ever reported. -/
theorem fromString_true (s : ConfigVar U) (casts : Casts U) (val : Text) :
    (s.fromString casts val).2 = .ok true ∨ (s.fromString casts val).2 = .error .other := by
  unfold ConfigVar.fromString
  split
  · exact .inl rfl
  · split
    · exact .inr rfl
    · exact .inl rfl

/-- **Main result**: what `fromString` says of a document is right exactly when the document is null or a
sequence whose elements all convert, and no listener throws for the new value. -/
theorem sequence_reports (sequence : SequenceOf yaml element casts build) (s : ConfigVar U)
    (loaded : yaml.load val = some node) :
    Reports yaml element casts build s val node ↔ ∃ xs, Elements yaml element node xs ∧ Lands s (build xs) := by
  constructor
  · rintro ⟨accepts, refuses⟩
    by_cases readable : ∃ xs, Elements yaml element node xs
    · obtain ⟨xs, elements⟩ := readable
      exact ⟨xs, elements, (lands_iff (sequence.fromStr loaded elements)).mp (accepts xs elements)⟩
    · have reported := (refuses readable).1
      obtain returned | threw := fromString_true s casts val
      · cases returned.symm.trans reported
      · cases threw.symm.trans reported
  · rintro ⟨xs, elements, lands⟩
    refine ⟨fun ys other => ?_, fun none => (none ⟨xs, elements⟩).elim⟩
    obtain rfl := elements.unique other
    exact (lands_iff (sequence.fromStr loaded elements)).mpr lands

/-- A variable of a vector with one element. -/
def oneElement : ConfigVar (List Bool) where
  m_val := [true]

/-- Two nodes, with the text of each. -/
def documents : YamlCpp := .ofBlocks [.scalar "80".toList, .seq [.scalar ['0'], .scalar ['1']]]

theorem sequence_reports_two :
    Reports documents boolCasts (boolCasts.vector documents) id oneElement "- 0\n- 1".toList
      (.seq [.scalar ['0'], .scalar ['1']]) :=
  (sequence_reports .vector oneElement rfl).mpr ⟨[false, true], .seq (.cons rfl (.cons rfl .nil)), .inr (.inl rfl)⟩

/-- A scalar for a vector: it is accepted, and the elements are gone. -/
theorem not_sequence_reports :
    (oneElement.fromString (boolCasts.vector documents) "80".toList).2 = .ok true ∧
      (oneElement.fromString (boolCasts.vector documents) "80".toList).1.m_val = [] ∧
      documents.load "80".toList = some (.scalar "80".toList) ∧
      ¬ Reports documents boolCasts (boolCasts.vector documents) id oneElement "80".toList
        (.scalar "80".toList) := by
  refine ⟨rfl, rfl, rfl, fun reports => ?_⟩
  have scalar : ¬ ∃ xs, Elements documents boolCasts (.scalar "80".toList) xs := by
    rintro ⟨xs, elements⟩
    cases elements
  cases (reports.2 scalar).1

end Atpdxy.Config.Exceptions
