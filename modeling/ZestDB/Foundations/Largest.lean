import ZestDB.Foundations.Least
import ZestDB.Foundations.Smallest
import Mathlib.Order.OrderDual

/-! The `n` largest elements of a set, and what is left of a list when its first elements are taken
away. -/

namespace Foundations

variable {α : Type} [LinearOrder α] {s t : Set α} {n m : ℕ} {a b : α} {l : List α}

/-- The elements of `s` that have fewer than `n` elements of `s` above them. -/
def largest (s : Set α) (n : ℕ) : Set α := smallest (α := αᵒᵈ) s n

lemma mem_largest : a ∈ largest s n ↔ a ∈ s ∧ (s ∩ Set.Ioi a).encard < n := Iff.rfl

lemma largest_mono (h : n ≤ m) : largest s n ⊆ largest s m := fun _ ha =>
  ⟨ha.1, ha.2.trans_le (by exact_mod_cast h)⟩

lemma largest_of_subset (h : s ⊆ t) (ha : a ∈ largest t n) (has : a ∈ s) : a ∈ largest s n :=
  mem_largest.mpr ⟨has,
    (Set.encard_le_encard (Set.inter_subset_inter_left _ h)).trans_lt (mem_largest.mp ha).2⟩

lemma largest_of_le (h : s.encard ≤ n) : largest s n = s := smallest_of_le (α := αᵒᵈ) h

lemma exists_behind_least (k : ℕ) (l : List α) :
    ∃ back, l.Perm (least k l ++ back) ∧ ∀ x ∈ least k l, ∀ y ∈ back, x ≤ y := by
  refine ⟨(l.insertionSort (· ≤ ·)).drop k, ?_, ?_⟩
  · rw [least, List.take_append_drop]
    exact (l.perm_insertionSort _).symm
  · have hsorted := l.pairwise_insertionSort (· ≤ ·)
    rw [← List.take_append_drop k (l.insertionSort (· ≤ ·))] at hsorted
    exact (List.pairwise_append.mp hsorted).2.2

lemma largest_append {front back : List α} (hnodup : (front ++ back).Nodup)
    (hle : ∀ x ∈ front, ∀ y ∈ back, x ≤ y) :
    largest {a | a ∈ front ++ back} back.length = {a | a ∈ back} := by
  have hset : {a | a ∈ front ++ back} = {a | a ∈ back ++ front} := by
    ext a
    rw [Set.mem_ofPred_eq, Set.mem_ofPred_eq, List.mem_append, List.mem_append, or_comm]
  rw [hset]
  apply mem_smallest_split (α := αᵒᵈ) (List.perm_append_comm.nodup_iff.mp hnodup)
  exact fun x hx y hy => hle y hy x hx

theorem largest_list (hl : l.Nodup) :
    largest {a | a ∈ l} n = {a | a ∈ l ∧ a ∉ least (l.length - n) l} := by
  have hfront : (least (l.length - n) l).length = l.length - n := by
    rw [least, List.length_take, List.length_insertionSort]
    omega
  obtain ⟨back, hperm, hle⟩ := exists_behind_least (l.length - n) l
  generalize least (l.length - n) l = front at *
  have hnodup := hperm.nodup_iff.mp hl
  have hlen : l.length = front.length + back.length := by rw [hperm.length_eq, List.length_append]
  have hall : {a | a ∈ l} = {a | a ∈ front ++ back} := by
    ext a
    exact hperm.mem_iff
  have hrest : {a | a ∈ l ∧ a ∉ front} = {a | a ∈ back} := by
    ext a
    rw [Set.mem_ofPred_eq, Set.mem_ofPred_eq, hperm.mem_iff, List.mem_append]
    refine ⟨fun h => h.1.resolve_left h.2, fun ha => ⟨.inr ha, fun hmem => ?_⟩⟩
    exact (List.nodup_append.mp hnodup).2.2 a hmem a ha rfl
  rw [hall, hrest]
  rcases le_or_gt n l.length with hn | hn
  · obtain rfl : n = back.length := by omega
    exact largest_append hnodup hle
  · have hnil : front = [] := List.eq_nil_of_length_eq_zero (by omega)
    rw [hnil, List.nil_append] at hnodup ⊢
    apply largest_of_le
    rw [encard_list back hnodup]
    exact_mod_cast (by omega : back.length ≤ n)

end Foundations
