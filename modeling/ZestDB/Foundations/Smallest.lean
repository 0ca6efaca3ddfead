import Mathlib.Data.Set.Card
import Mathlib.Data.Finset.Sort

/-! The `n` smallest elements of a set, and how they are found by splitting a list. -/

namespace Foundations

variable {α : Type} [LinearOrder α] {s t : Set α} {n : ℕ} {a : α}

/-- The elements of `s` that have fewer than `n` elements of `s` below them. -/
def smallest (s : Set α) (n : ℕ) : Set α := {a ∈ s | (s ∩ Set.Iio a).encard < n}

lemma smallest_subset : smallest s n ⊆ s := fun _ h => h.1

lemma encard_list (l : List α) (h : l.Nodup) : {a | a ∈ l}.encard = l.length := by
  rw [← List.toFinset_card_of_nodup h, ← Set.encard_coe_eq_coe_finsetCard]
  congr 1
  ext a
  simp

lemma mem_smallest_split {xs ys : List α} (hn : (xs ++ ys).Nodup)
    (hle : ∀ x ∈ xs, ∀ y ∈ ys, x ≤ y) :
    smallest {a | a ∈ xs ++ ys} xs.length = {a | a ∈ xs} := by
  obtain ⟨hx, hy, hd⟩ := List.nodup_append.mp hn
  have hlt : ∀ x ∈ xs, ∀ y ∈ ys, x < y :=
    fun x hxs y hys => lt_of_le_of_ne (hle x hxs y hys) (hd x hxs y hys)
  ext a
  constructor
  · rintro ⟨ha, hcard⟩
    rcases List.mem_append.mp ha with ha | ha
    · exact ha
    · have hsub : {b | b ∈ xs} ⊆ {b | b ∈ xs ++ ys} ∩ Set.Iio a :=
        fun b hb => ⟨List.mem_append_left _ hb, hlt b hb a ha⟩
      have := Set.encard_le_encard hsub
      rw [encard_list xs hx] at this
      exact absurd hcard (not_lt.mpr this)
  · intro ha
    refine ⟨List.mem_append_left _ ha, ?_⟩
    have hsub : {b | b ∈ xs ++ ys} ∩ Set.Iio a ⊆ {b | b ∈ xs.erase a} := by
      rintro b ⟨hb, hba⟩
      rcases List.mem_append.mp hb with hb | hb
      · exact (List.mem_erase_of_ne (ne_of_lt hba)).mpr hb
      · exact absurd hba (not_lt.mpr (hle a ha b hb))
    have hle' := Set.encard_le_encard hsub
    rw [encard_list _ (hx.erase a), List.length_erase_of_mem ha] at hle'
    refine lt_of_le_of_lt hle' ?_
    have := List.length_pos_of_mem ha
    exact_mod_cast (by omega : xs.length - 1 < xs.length)

lemma smallest_of_le (h : s.encard ≤ n) : smallest s n = s := by
  refine Set.Subset.antisymm smallest_subset fun a ha => ⟨ha, ?_⟩
  have hsub : insert a (s ∩ Set.Iio a) ⊆ s := Set.insert_subset ha Set.inter_subset_left
  have hlt : (s ∩ Set.Iio a).encard + 1 ≤ n := by
    rw [← Set.encard_insert_of_notMem (fun hm => lt_irrefl a hm.2)]
    exact (Set.encard_le_encard hsub).trans h
  have hfin : (s ∩ Set.Iio a).encard ≠ ⊤ := by
    intro ht
    simp [ht] at hlt
  exact lt_of_lt_of_le ((ENat.lt_add_one_iff hfin).mpr le_rfl) hlt

lemma le_encard_smallest (hs : s.Finite) (h : (n : ℕ∞) ≤ (s ∩ Set.Iio a).encard) :
    (n : ℕ∞) ≤ (smallest s n ∩ Set.Iio a).encard := by
  have hf : (s ∩ Set.Iio a).Finite := hs.subset Set.inter_subset_left
  obtain ⟨l, hl⟩ : ∃ l, l = hf.toFinset.sort (· ≤ ·) := ⟨_, rfl⟩
  have hset : {b | b ∈ l.take n ++ l.drop n} = s ∩ Set.Iio a := by
    ext b
    simp [hl]
  have hnodup : (l.take n ++ l.drop n).Nodup := by
    rw [List.take_append_drop, hl]
    exact Finset.sort_nodup _ _
  have hlen : (l.take n).length = n := by
    rw [List.length_take, min_eq_left]
    rw [← hset, encard_list _ hnodup, List.take_append_drop] at h
    exact_mod_cast h
  have hsorted : l.Pairwise (· ≤ ·) := by
    rw [hl]
    exact Finset.pairwise_sort _ _
  have hsplit := mem_smallest_split hnodup (by
    rw [← List.take_append_drop n l] at hsorted
    exact fun x hx y hy => (List.pairwise_append.mp hsorted).2.2 x hx y hy)
  rw [hset, hlen] at hsplit
  have hsub : {b | b ∈ l.take n} ⊆ smallest s n ∩ Set.Iio a := by
    rw [← hsplit]
    rintro b ⟨⟨hb, hba⟩, hcard⟩
    have heq : s ∩ Set.Iio a ∩ Set.Iio b = s ∩ Set.Iio b := by
      rw [Set.inter_assoc, Set.Iio_inter_Iio, min_eq_right (le_of_lt hba)]
    exact ⟨⟨hb, heq ▸ hcard⟩, hba⟩
  calc (n : ℕ∞) = {b | b ∈ l.take n}.encard := by
        rw [encard_list _ (List.nodup_append.mp hnodup).1, hlen]
    _ ≤ (smallest s n ∩ Set.Iio a).encard := Set.encard_le_encard hsub

lemma smallest_of_subset (hs : s.Finite) (hts : t ⊆ s) (hst : smallest s n ⊆ t) :
    smallest t n = smallest s n := by
  ext a
  constructor
  · rintro ⟨ha, hcard⟩
    refine ⟨hts ha, ?_⟩
    by_contra hge
    have hle := le_encard_smallest hs (not_lt.mp hge)
    have hsub : smallest s n ∩ Set.Iio a ⊆ t ∩ Set.Iio a := Set.inter_subset_inter_left _ hst
    exact absurd hcard (not_lt.mpr (hle.trans (Set.encard_le_encard hsub)))
  · intro ha
    exact ⟨hst ha, lt_of_le_of_lt (Set.encard_le_encard (Set.inter_subset_inter_left _ hts)) ha.2⟩

lemma smallest_iUnion_subset {ι : Type} (s : ι → Set α) :
    smallest (⋃ i, s i) n ⊆ ⋃ i, smallest (s i) n := by
  rintro a ⟨ha, hcard⟩
  obtain ⟨i, hi⟩ := Set.mem_iUnion.mp ha
  refine Set.mem_iUnion.mpr ⟨i, hi, lt_of_le_of_lt (Set.encard_le_encard ?_) hcard⟩
  exact Set.inter_subset_inter_left _ (Set.subset_iUnion s i)

end Foundations
