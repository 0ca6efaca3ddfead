import Mathlib.Data.List.Sort
import Mathlib.Data.List.FinRange

/-! The first elements of a list in its order, and how they are found in parts of the list. -/

namespace Foundations

variable {α ι : Type} [LinearOrder α] {n : ℕ} {xs xs' ys ys' : List α}

def least (n : ℕ) (xs : List α) : List α := (xs.insertionSort (· ≤ ·)).take n

lemma sort_of_perm (h : xs.Perm ys) : xs.insertionSort (· ≤ ·) = ys.insertionSort (· ≤ ·) :=
  ((xs.perm_insertionSort _).trans (h.trans (ys.perm_insertionSort _).symm)).eq_of_pairwise'
    (xs.pairwise_insertionSort _) (ys.pairwise_insertionSort _)

lemma least_of_perm (h : xs.Perm ys) : least n xs = least n ys := by
  rw [least, least, sort_of_perm h]

lemma take_orderedInsert (a : α) (n : ℕ) (xs : List α) :
    (xs.orderedInsert (· ≤ ·) a).take n = ((xs.take n).orderedInsert (· ≤ ·) a).take n := by
  induction xs generalizing n with
  | nil => simp
  | cons b xs ih =>
    cases n with
    | zero => rfl
    | succ n =>
      rw [List.take_succ_cons, List.orderedInsert_cons, List.orderedInsert_cons]
      split_ifs
      · cases n with
        | zero => rfl
        | succ n => simp [List.take_take]
      · rw [List.take_succ_cons, List.take_succ_cons, ih n]

lemma least_cons (a : α) (xs : List α) :
    least n (a :: xs) = ((least n xs).orderedInsert (· ≤ ·) a).take n := by
  rw [least, List.insertionSort_cons, take_orderedInsert, least]

lemma least_append_congr (xs : List α) (h : least n ys = least n ys') :
    least n (xs ++ ys) = least n (xs ++ ys') := by
  induction xs with
  | nil => exact h
  | cons a xs ih => rw [List.cons_append, List.cons_append, least_cons, ih, least_cons]

lemma least_append (h : least n xs = least n xs') (h' : least n ys = least n ys') :
    least n (xs ++ ys) = least n (xs' ++ ys') := by
  calc least n (xs ++ ys) = least n (xs ++ ys') := least_append_congr xs h'
    _ = least n (ys' ++ xs) := least_of_perm List.perm_append_comm
    _ = least n (ys' ++ xs') := least_append_congr ys' h
    _ = least n (xs' ++ ys') := least_of_perm List.perm_append_comm

lemma least_flatMap {f g : ι → List α} {is : List ι} (h : ∀ i ∈ is, least n (f i) = least n (g i)) :
    least n (is.flatMap f) = least n (is.flatMap g) := by
  induction is with
  | nil => rfl
  | cons i is ih =>
    rw [List.flatMap_cons, List.flatMap_cons]
    exact least_append (h i List.mem_cons_self) (ih fun j hj => h j (List.mem_cons_of_mem i hj))

lemma least_of_length_le (h : xs.length ≤ n) : least n xs = xs.insertionSort (· ≤ ·) := by
  rw [least, List.take_of_length_le (by rwa [List.length_insertionSort])]

lemma least_split (hle : ∀ x ∈ xs, ∀ y ∈ ys, x ≤ y) :
    least xs.length (xs ++ ys) = xs.insertionSort (· ≤ ·) := by
  have hsorted : (xs.insertionSort (· ≤ ·) ++ ys.insertionSort (· ≤ ·)).Pairwise (· ≤ ·) := by
    refine List.pairwise_append.mpr ⟨xs.pairwise_insertionSort _, ys.pairwise_insertionSort _,
      fun x hx y hy => ?_⟩
    exact hle x ((List.mem_insertionSort _).mp hx) y ((List.mem_insertionSort _).mp hy)
  have hperm : (xs ++ ys).Perm (xs.insertionSort (· ≤ ·) ++ ys.insertionSort (· ≤ ·)) :=
    (xs.perm_insertionSort _).symm.append (ys.perm_insertionSort _).symm
  rw [least_of_perm hperm, least, hsorted.insertionSort_eq,
    List.take_left' (List.length_insertionSort _ _)]

lemma least_sort (n : ℕ) (xs : List α) : least n (xs.insertionSort (· ≤ ·)) = least n xs :=
  least_of_perm (xs.perm_insertionSort _)

lemma least_least (n : ℕ) (xs : List α) : least n (least n xs) = least n xs := by
  have hsorted : (least n xs).Pairwise (· ≤ ·) :=
    (xs.pairwise_insertionSort _).sublist (List.take_sublist _ _)
  rw [least, hsorted.insertionSort_eq, least, List.take_take, min_self]

end Foundations
