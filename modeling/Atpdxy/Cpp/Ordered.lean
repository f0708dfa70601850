import Mathlib.Order.Defs.Unbundled
import Mathlib.Tactic.Common

/-!
# Ordered containers

A `std::set` is a list that its comparison sorts strictly, and so is a
`std::map`, by its keys. `insert` leaves a container alone that has an
equivalent element; inserting the elements of one in order builds it again
(`Ordered.foldl_insert`).
-/

namespace Atpdxy.Cpp

variable {α : Type*} {lt : α → α → Prop} {x y : α} {xs ys : List α}

/-- A `std::set` with the comparison `lt`. -/
structure Ordered (lt : α → α → Prop) where
  elems : List α
  sorted : elems.Pairwise lt

theorem Ordered.ext {s t : Ordered lt} (same : s.elems = t.elems) : s = t := by
  cases s
  cases t
  cases same
  rfl

instance [DecidableEq α] : DecidableEq (Ordered lt) := fun s t =>
  decidable_of_iff (s.elems = t.elems) ⟨Ordered.ext, fun same => same ▸ rfl⟩

section Insert

variable [DecidableRel lt]

/-- `insert`; an element that is neither less nor greater stays. -/
def insertSorted (lt : α → α → Prop) [DecidableRel lt] (x : α) : List α → List α
  | [] => [x]
  | y :: ys =>
    if lt x y then x :: y :: ys
    else if lt y x then y :: insertSorted lt x ys
    else y :: ys

theorem mem_insertSorted (member : y ∈ insertSorted lt x xs) : y = x ∨ y ∈ xs := by
  induction xs with
  | nil => exact .inl (List.mem_singleton.mp member)
  | cons z xs ih =>
    unfold insertSorted at member
    split at member
    · exact List.mem_cons.mp member
    · split at member
      · obtain rfl | member := List.mem_cons.mp member
        · exact .inr List.mem_cons_self
        · exact (ih member).imp_right (List.mem_cons_of_mem z)
      · exact .inr member

/-- Nothing is lost. -/
theorem mem_insertSorted_of_mem (member : y ∈ xs) : y ∈ insertSorted lt x xs := by
  induction xs with
  | nil => cases member
  | cons z xs ih =>
    unfold insertSorted
    split
    · exact List.mem_cons_of_mem x member
    · split
      · obtain rfl | member := List.mem_cons.mp member
        · exact List.mem_cons_self
        · exact List.mem_cons_of_mem z (ih member)
      · exact member

/-- Where any two elements compare, what is inserted is there. -/
theorem mem_insertSorted_self (total : ∀ y, lt x y ∨ lt y x ∨ x = y) : x ∈ insertSorted lt x xs := by
  induction xs with
  | nil => exact List.mem_singleton_self x
  | cons z xs ih =>
    unfold insertSorted
    split
    · exact List.mem_cons_self
    · next notLess =>
      split
      · exact List.mem_cons_of_mem z ih
      · next notGreater =>
        obtain rfl := ((total z).resolve_left notLess).resolve_left notGreater
        exact List.mem_cons_self

theorem mem_insertSorted_iff (total : ∀ y, lt x y ∨ lt y x ∨ x = y) :
    y ∈ insertSorted lt x xs ↔ y = x ∨ y ∈ xs := by
  refine ⟨mem_insertSorted, ?_⟩
  rintro (rfl | member)
  · exact mem_insertSorted_self total
  · exact mem_insertSorted_of_mem member

variable [IsStrictOrder α lt]

theorem insertSorted_sorted (sorted : xs.Pairwise lt) : (insertSorted lt x xs).Pairwise lt := by
  induction xs with
  | nil => exact List.pairwise_singleton lt x
  | cons y xs ih =>
    obtain ⟨first, later⟩ := List.pairwise_cons.mp sorted
    unfold insertSorted
    split
    · next less =>
      refine List.pairwise_cons.mpr ⟨fun z member => ?_, sorted⟩
      obtain rfl | member := List.mem_cons.mp member
      · exact less
      · exact IsTrans.trans _ _ _ less (first z member)
    · split
      · next less =>
        refine List.pairwise_cons.mpr ⟨fun z member => ?_, ih later⟩
        obtain rfl | member := mem_insertSorted member
        · exact less
        · exact first z member
      · exact sorted

/-- An element greater than all others goes to the end. -/
theorem insertSorted_last (greatest : ∀ y ∈ xs, lt y x) : insertSorted lt x xs = xs ++ [x] := by
  induction xs with
  | nil => rfl
  | cons y xs ih =>
    have less := greatest y List.mem_cons_self
    have rest := ih fun z member => greatest z (List.mem_cons_of_mem y member)
    rw [insertSorted, if_neg (asymm less), if_pos less, rest, List.cons_append]

def Ordered.empty : Ordered lt := ⟨[], .nil⟩

def Ordered.insert (s : Ordered lt) (x : α) : Ordered lt := ⟨insertSorted lt x s.elems, insertSorted_sorted s.sorted⟩

theorem Ordered.foldl_insert_elems (s : Ordered lt) (sorted : (s.elems ++ xs).Pairwise lt) :
    (xs.foldl Ordered.insert s).elems = s.elems ++ xs := by
  induction xs generalizing s with
  | nil => exact (List.append_nil _).symm
  | cons x xs ih =>
    have last : (s.insert x).elems = s.elems ++ [x] := by
      apply insertSorted_last
      intro y member
      exact (List.pairwise_append.mp sorted).2.2 y member x List.mem_cons_self
    have rest := ih (s.insert x) (by simpa [last] using sorted)
    rw [List.foldl_cons, rest, last, List.append_assoc, List.singleton_append]

/-- Nothing is in a container but what was inserted. -/
theorem Ordered.mem_foldl_insert {s : Ordered lt} (member : y ∈ (xs.foldl Ordered.insert s).elems) :
    y ∈ s.elems ∨ y ∈ xs := by
  induction xs generalizing s with
  | nil => exact .inl member
  | cons x xs ih =>
    obtain before | later := ih member
    · obtain rfl | before := mem_insertSorted before
      · exact .inr List.mem_cons_self
      · exact .inl before
    · exact .inr (List.mem_cons_of_mem x later)

/-- The elements of a container, inserted in order, are that container. -/
theorem Ordered.foldl_insert (s : Ordered lt) : s.elems.foldl Ordered.insert Ordered.empty = s :=
  Ordered.ext (Ordered.foldl_insert_elems .empty s.sorted)

end Insert

end Atpdxy.Cpp
