/-!
# Sorting by a key

Stable sorting of a list by a key of its items: items of equal keys keep their
order.  The order of what happens at one tick is audible, so the whole library
sorts with this one function.
-/

namespace Barline

/-- The items in ascending order of their keys, stably. -/
def sortOn {α κ : Type} [LE κ] [DecidableLE κ] (key : α → κ) (xs : List α) : List α :=
  xs.mergeSort fun a b => decide (key a ≤ key b)

theorem sortOn_perm {α κ : Type} [LE κ] [DecidableLE κ] (key : α → κ) (xs : List α) :
    (sortOn key xs).Perm xs :=
  List.mergeSort_perm xs _

@[simp] theorem mem_sortOn {α κ : Type} [LE κ] [DecidableLE κ] {key : α → κ} {xs : List α} {a : α} :
    a ∈ sortOn key xs ↔ a ∈ xs :=
  (sortOn_perm key xs).mem_iff

@[simp] theorem length_sortOn {α κ : Type} [LE κ] [DecidableLE κ] (key : α → κ) (xs : List α) :
    (sortOn key xs).length = xs.length :=
  (sortOn_perm key xs).length_eq

end Barline
