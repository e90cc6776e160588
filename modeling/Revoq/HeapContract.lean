import Mathlib.Data.List.Sort

/-! # Heaps, as far as their contract goes

The heap functions of a standard library work on vectors under a comparator; what
they promise is that the elements stay the same and that nothing comes before the
one in front.  Which of several equals is in front is not promised, and may differ
from one call to the next.

A `HeapImpl` is any set of functions that keeps this promise, so a statement about
every `HeapImpl` uses nothing else of them.
-/
namespace HeapContract

variable {α : Type} {comp : α → α → Bool} {xs ys : List α} {a b : α}

/-- The vector `ys` has the elements of `xs` and nothing comes before its front.
As usual `comp a b` says that `b` comes before `a`. -/
structure Heaped (comp : α → α → Bool) (xs ys : List α) : Prop where
  perm : ys.Perm xs
  front : ∀ a ∈ ys.head?, ∀ b ∈ ys, comp a b = false

/-- Functions that keep the promise. -/
structure HeapImpl (comp : α → α → Bool) where
  makeHeap : List α → List α
  /-- The constructor of a priority queue from a vector. -/
  queue : List α → List α
  pop : List α → List α
  push : List α → α → List α
  makeHeap_heaped : ∀ xs, Heaped comp xs (makeHeap xs)
  queue_heaped : ∀ xs, Heaped comp xs (queue xs)
  pop_heaped : ∀ xs, Heaped comp xs.tail (pop xs)
  push_heaped : ∀ xs a, Heaped comp (a :: xs) (push xs a)

namespace Heaped

theorem mem_iff (h : Heaped comp xs ys) : a ∈ ys ↔ a ∈ xs := h.perm.mem_iff

theorem ne_nil (h : Heaped comp xs ys) (hx : xs ≠ []) : ys ≠ [] := fun hy =>
  hx (List.nil_perm.mp (hy ▸ h.perm))

/-- A heap of something has a front. -/
theorem exists_front (h : Heaped comp xs ys) (hx : xs ≠ []) :
    ∃ a rest, ys = a :: rest ∧ a ∈ xs ∧ ∀ b ∈ xs, comp a b = false := by
  obtain ⟨a, rest, hy⟩ := List.exists_cons_of_ne_nil (h.ne_nil hx)
  refine ⟨a, rest, hy, h.mem_iff.mp (hy ▸ List.mem_cons_self), fun b hb => ?_⟩
  exact h.front a (by rw [hy]; rfl) b (h.mem_iff.mpr hb)

end Heaped

/-! ## Sorting is one way to do it -/

section
variable {κ : Type} [LinearOrder κ] (key : α → κ)

/-- Sorts by key, putting the last of several equals first. -/
def latestFirst (xs : List α) : List α := xs.reverse.insertionSort fun a b => key a ≤ key b

theorem latestFirst_heaped (hcomp : ∀ a b, comp a b = decide (key b < key a)) (xs : List α) :
    Heaped comp xs (latestFirst key xs) := by
  refine ⟨(List.perm_insertionSort _ _).trans (List.reverse_perm xs), ?_⟩
  have hsorted : (latestFirst key xs).Pairwise fun a b => key a ≤ key b := by
    have : Std.Total fun a b : α => key a ≤ key b := ⟨fun a b => le_total (key a) (key b)⟩
    have : IsTrans α fun a b : α => key a ≤ key b := ⟨fun a b c => le_trans⟩
    exact List.pairwise_insertionSort _ _
  intro a ha b hb
  rw [hcomp, decide_eq_false_iff_not, not_lt]
  cases hl : latestFirst key xs with
  | nil => rw [hl] at ha; cases ha
  | cons x rest =>
    rw [hl] at ha hb hsorted
    cases ha
    rcases List.mem_cons.mp hb with rfl | hb
    · exact le_refl _
    · exact List.rel_of_pairwise_cons hsorted hb

/-- Heap functions that sort. -/
def sorting (comp : α → α → Bool) (hcomp : ∀ a b, comp a b = decide (key b < key a)) :
    HeapImpl comp where
  makeHeap := latestFirst key
  queue := latestFirst key
  pop xs := latestFirst key xs.tail
  push xs a := latestFirst key (a :: xs)
  makeHeap_heaped := latestFirst_heaped key hcomp
  queue_heaped := latestFirst_heaped key hcomp
  pop_heaped xs := latestFirst_heaped key hcomp xs.tail
  push_heaped xs a := latestFirst_heaped key hcomp (a :: xs)

end

end HeapContract
