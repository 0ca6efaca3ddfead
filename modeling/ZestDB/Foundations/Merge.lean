import Mathlib.Data.List.Sort
import Mathlib.Data.List.FinRange

/-! One numbered log that is spread over several places, and sorted together again. -/

namespace Foundations

variable {ι α : Type} [DecidableEq ι]

def part (log : List (ι × α)) (i : ι) : List α := (log.filter fun p => p.1 = i).map Prod.snd

lemma part_concat (log : List (ι × α)) (i j : ι) (a : α) :
    part (log ++ [(i, a)]) j = if j = i then part log j ++ [a] else part log j := by
  by_cases h : j = i
  · simp [part, h]
  · simp [part, h, Ne.symm h]

lemma part_cons (log : List (ι × α)) (i j : ι) (a : α) :
    part ((i, a) :: log) j = if j = i then a :: part log j else part log j := by
  by_cases h : j = i
  · simp [part, h]
  · simp [part, h, Ne.symm h]

lemma mem_part {log : List (ι × α)} {i : ι} {a : α} (h : a ∈ part log i) : (i, a) ∈ log := by
  obtain ⟨⟨j, b⟩, hp, rfl⟩ := List.mem_map.mp h
  obtain ⟨hmem, hi⟩ := List.mem_filter.mp hp
  obtain rfl : j = i := by simpa using hi
  exact hmem

lemma exists_kept (log : List (ι × α)) (m : ι → ℕ) :
    ∃ kept, kept.Sublist log ∧ ∀ i, part kept i = (part log i).take (m i) := by
  induction log generalizing m with
  | nil => exact ⟨[], .refl _, fun i => by simp [part]⟩
  | cons p log ih =>
    obtain ⟨j, a⟩ := p
    cases hm : m j with
    | zero =>
      obtain ⟨kept, hsub, hpart⟩ := ih m
      refine ⟨kept, hsub.cons _, fun i => ?_⟩
      rw [hpart, part_cons]
      split_ifs with hi
      · rw [hi, hm, List.take_zero, List.take_zero]
      · rfl
    | succ k =>
      obtain ⟨kept, hsub, hpart⟩ := ih (Function.update m j k)
      refine ⟨(j, a) :: kept, hsub.cons_cons _, fun i => ?_⟩
      rw [part_cons, part_cons, hpart]
      split_ifs with hi
      · rw [hi, Function.update_self, hm, List.take_succ_cons]
      · rw [Function.update_of_ne hi]

lemma flatMap_insert {places : List ι} (hn : places.Nodup) {i : ι} (hi : i ∈ places) (a : α)
    (f : ι → List α) :
    (places.flatMap fun j => if j = i then a :: f j else f j).Perm (a :: places.flatMap f) := by
  induction places with
  | nil => simp at hi
  | cons j places ih =>
    obtain ⟨hj, hn⟩ := List.nodup_cons.mp hn
    rw [List.flatMap_cons, List.flatMap_cons]
    by_cases hij : j = i
    · have hrest : (places.flatMap fun j => if j = i then a :: f j else f j) =
          places.flatMap f := by
        refine List.flatMap_congr fun l hl => if_neg ?_
        rintro rfl
        exact hj (hij ▸ hl)
      rw [if_pos hij, hrest, List.cons_append]
    · rw [if_neg hij]
      have hmem : i ∈ places := by simpa [Ne.symm hij] using hi
      exact ((ih hn hmem).append_left (f j)).trans List.perm_middle

lemma parts_perm {places : List ι} (hn : places.Nodup) (log : List (ι × α))
    (hl : ∀ p ∈ log, p.1 ∈ places) :
    (places.flatMap (part log)).Perm (log.map Prod.snd) := by
  induction log with
  | nil => simp [part]
  | cons p log ih =>
    obtain ⟨i, a⟩ := p
    have hf : part ((i, a) :: log) = fun j => if j = i then a :: part log j else part log j :=
      funext fun j => part_cons log i j a
    rw [hf]
    exact (flatMap_insert hn (hl (i, a) (by simp)) a _).trans
      ((ih fun p hp => hl p (by simp [hp])).cons a)

lemma sort_parts {n : ℕ} (seq : α → ℕ) (log : List (Fin n × α))
    (h : (log.map fun p => seq p.2).Pairwise (· < ·)) :
    ((List.finRange n).flatMap (part log)).insertionSort (fun a b => seq a ≤ seq b) =
      log.map Prod.snd := by
  have hperm := (List.perm_insertionSort (fun a b => seq a ≤ seq b) _).trans
    (parts_perm (List.nodup_finRange n) log fun p _ => List.mem_finRange p.1)
  have hsorted : (log.map Prod.snd).Pairwise fun a b => seq a < seq b := by
    simpa [List.pairwise_map] using h
  have : Std.Total fun a b : α => seq a ≤ seq b := ⟨fun a b => le_total (seq a) (seq b)⟩
  have : IsTrans α fun a b => seq a ≤ seq b := ⟨fun a b c => le_trans⟩
  have hle := List.pairwise_insertionSort (fun a b : α => seq a ≤ seq b)
    ((List.finRange n).flatMap (part log))
  refine hperm.eq_of_pairwise (fun a b ha hb hab hba => ?_) hle (hsorted.imp le_of_lt)
  -- two records with one number are the same record of the log
  have hinj : ∀ a ∈ log.map Prod.snd, ∀ b ∈ log.map Prod.snd, seq a = seq b → a = b := by
    have hnd : ((log.map Prod.snd).map seq).Nodup := by
      rw [List.map_map]
      exact h.imp ne_of_lt
    exact fun a ha b hb hab => List.inj_on_of_nodup_map hnd ha hb hab
  exact hinj a (hperm.mem_iff.mp ha) b hb (le_antisymm hab hba)

end Foundations
