import ZestDB.Bytes
import ZestDB.Foundations.Least
import ZestDB.Foundations.Smallest

/-! What the code leaves open: the functions of the platform it calls, the order in which a hash
map is walked, and the order in which `std::nth_element` leaves the two parts of a range. -/

namespace Zest

open Foundations

structure Platform where
  hash : Bytes → ℕ
  escape : Bytes → Bytes
  accept : Bytes → Bool
  regex : Bytes → Option (Bytes → Bool)
  regexError : Bytes → Bytes

structure Choice where
  walkKeys : List Key → List Key
  walkIds : List ℕ → List ℕ
  nth_element : ℕ → List Key → List Key
  walkKeys_perm : ∀ l, (walkKeys l).Perm l
  walkIds_perm : ∀ l, (walkIds l).Perm l
  nth_element_perm : ∀ n l, (nth_element n l).Perm l
  nth_element_le : ∀ n l, n < l.length →
    ∀ x ∈ (nth_element n l).take n, ∀ y ∈ (nth_element n l).drop n, x ≤ y

namespace Choice

def plain : Choice where
  walkKeys l := l
  walkIds l := l
  nth_element _ l := l.insertionSort (· ≤ ·)
  walkKeys_perm _ := .refl _
  walkIds_perm _ := .refl _
  nth_element_perm _ l := l.perm_insertionSort (· ≤ ·)
  nth_element_le n l _ x hx y hy := by
    have h := List.pairwise_insertionSort (· ≤ ·) l
    rw [← List.take_append_drop n (l.insertionSort (· ≤ ·))] at h
    exact (List.pairwise_append.mp h).2.2 x hx y hy

instance : Inhabited Choice := ⟨plain⟩

def firstKeys (ch : Choice) (limit : ℕ) (keys : List Key) : List Key :=
  if keys.length > limit then (ch.nth_element limit keys).take limit else keys

lemma firstKeys_nodup (ch : Choice) (limit : ℕ) {keys : List Key} (h : keys.Nodup) :
    (ch.firstKeys limit keys).Nodup := by
  simp only [firstKeys]
  split_ifs
  · exact (List.take_sublist _ _).nodup ((ch.nth_element_perm limit keys).nodup_iff.mpr h)
  · exact h

lemma sort_firstKeys (ch : Choice) (limit : ℕ) (keys : List Key) :
    (ch.firstKeys limit keys).insertionSort (· ≤ ·) = least limit keys := by
  simp only [firstKeys]
  split_ifs with hl
  · have hlen : ((ch.nth_element limit keys).take limit).length = limit := by
      rw [List.length_take, (ch.nth_element_perm limit keys).length_eq, min_eq_left (le_of_lt hl)]
    have hsplit := least_split (ch.nth_element_le limit keys hl)
    rw [hlen, List.take_append_drop] at hsplit
    rw [← hsplit]
    exact least_of_perm (ch.nth_element_perm limit keys)
  · rw [least_of_length_le (not_lt.mp hl)]

lemma least_firstKeys (ch : Choice) (limit : ℕ) (keys : List Key) :
    least limit (ch.firstKeys limit keys) = least limit keys := by
  rw [← least_sort, sort_firstKeys, least_least]

lemma mem_firstKeys (ch : Choice) (limit : ℕ) {keys : List Key} (h : keys.Nodup) :
    {k | k ∈ ch.firstKeys limit keys} = smallest {k | k ∈ keys} limit := by
  simp only [firstKeys]
  split_ifs with hl
  · obtain ⟨xs, hxs⟩ : ∃ xs, xs = (ch.nth_element limit keys).take limit := ⟨_, rfl⟩
    obtain ⟨ys, hys⟩ : ∃ ys, ys = (ch.nth_element limit keys).drop limit := ⟨_, rfl⟩
    have happ : xs ++ ys = ch.nth_element limit keys := by rw [hxs, hys, List.take_append_drop]
    have hperm : (xs ++ ys).Perm keys := happ ▸ ch.nth_element_perm limit keys
    have hlen : xs.length = limit := by
      rw [hxs, List.length_take, (ch.nth_element_perm limit keys).length_eq,
        min_eq_left (le_of_lt hl)]
    have hsplit := mem_smallest_split (hperm.nodup_iff.mpr h)
      (hxs ▸ hys ▸ ch.nth_element_le limit keys hl)
    have hset : {k | k ∈ xs ++ ys} = {k | k ∈ keys} := Set.ext fun k => hperm.mem_iff
    rw [← hxs, ← hsplit, hset, hlen]
  · rw [smallest_of_le]
    rw [encard_list _ h]
    exact_mod_cast not_lt.mp hl

end Choice

end Zest
