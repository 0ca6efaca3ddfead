import ZestDB.Manager.GetByTasks

/-! The answers of the shards to a `getBy`, spliced as text. -/

namespace Zest.ShardManager

open Foundations

lemma rows_le (arrays : List (List (Key × Value))) :
    (arrays.map fun pairs => toLongLong pairs.length).sum ≤ arrays.flatten.length := by
  induction arrays with
  | nil => simp
  | cons pairs arrays ih =>
    have hle := toLongLong_le pairs.length
    rw [List.map_cons, List.sum_cons, List.flatten_cons, List.length_append]
    push_cast
    omega

lemma rows_eq_iff (arrays : List (List (Key × Value))) :
    (arrays.map fun pairs => toLongLong pairs.length).sum = arrays.flatten.length ↔
      ∀ pairs ∈ arrays, pairs.length < 2 ^ 31 := by
  induction arrays with
  | nil => simp
  | cons pairs arrays ih =>
    have hle := toLongLong_le pairs.length
    have hrest := rows_le arrays
    rw [List.map_cons, List.sum_cons, List.flatten_cons, List.length_append,
      List.forall_mem_cons, ← ih, ← toLongLong_eq_iff]
    push_cast
    omega

lemma getByShards_pairs {n : ℕ} (pf : Platform) (ch : Choices n) (sm : ShardManager n)
    (valid : ValidationRule) (is : List (Fin n)) (count : Option ℕ) :
    ∃ arrays : List (List (Key × Value)), arrays.length = is.length ∧
      sm.getByShards pf ch valid is count = arrays.map (pairsResult pf) := by
  induction is generalizing count with
  | nil => exact ⟨[], rfl, rfl⟩
  | cons i is ih =>
    obtain ⟨arrays, hlen, heq⟩ := ih ((sm.shards i).getBy pf (ch.shard i) valid count).2
    obtain ⟨pairs, hpairs⟩ : ∃ pairs, ((sm.shards i).getBy pf (ch.shard i) valid count).1 =
        pairsResult pf pairs := ⟨_, rfl⟩
    refine ⟨pairs :: arrays, by rw [List.length_cons, List.length_cons, hlen], ?_⟩
    rw [getByShards, heq, List.map_cons, hpairs]

/-- The merged text is the dump of all arrays together, whichever of them are empty; the rows are
the number of its elements as long as each shard can count its own. -/
theorem mergeResults_dump (pf : Platform) :
    (∀ arrays : List (List (Key × Value)),
      (mergeResults (arrays.map (pairsResult pf))).code = .Success ∧
      (mergeResults (arrays.map (pairsResult pf))).response = Shard.dumpArray pf arrays.flatten ∧
      ((mergeResults (arrays.map (pairsResult pf))).affectedRows = arrays.flatten.length ↔
        ∀ pairs ∈ arrays, pairs.length < 2 ^ 31)) ∧
    ∀ n : ℕ, (∀ (ch : Choices n) (sm : ShardManager n) (valid : ValidationRule),
        ∃ arrays : List (List (Key × Value)),
        arrays.length = n ∧ sm.getByShards pf ch valid (List.finRange n) (some 0) =
          arrays.map (pairsResult pf) ∧
        sm.getBy pf ch valid = mergeResults (arrays.map (pairsResult pf))) ∧
      ∀ p : Pool ℕ (Fin n × GetByTask), getByResult pf p = mergeResults
        ((p.threads.map fun t => t.2.pairs).map (pairsResult pf)) := by
  refine ⟨fun arrays => ?_, fun n => ⟨fun ch sm valid => ?_, getByResult_merge pf⟩⟩
  · rw [mergeResults_pairs]
    exact ⟨rfl, rfl, rows_eq_iff arrays⟩
  · obtain ⟨arrays, hlen, heq⟩ := getByShards_pairs pf ch sm valid (List.finRange n) (some 0)
    refine ⟨arrays, by rw [hlen, List.length_finRange], heq, ?_⟩
    rw [← heq]
    rfl

def manyPairs : List (Key × Value) := (List.range (2 ^ 31)).map fun i => (leBytes 4 i, ascii "x")

theorem manyPairs_rows_wrong :
    manyPairs.length = 2 ^ 31 ∧ (manyPairs.map Prod.fst).Nodup ∧
      (mergeResults ([[], manyPairs].map (pairsResult Op.oneHash))).affectedRows = -2 ^ 31 := by
  have hlen : manyPairs.length = 2 ^ 31 := by rw [manyPairs, List.length_map, List.length_range]
  refine ⟨hlen, ?_, ?_⟩
  · have hkeys : manyPairs.map Prod.fst = (crowdedTree (2 ^ 31) (by decide)).keys := by
      simp only [manyPairs, crowdedTree, AList.keys, List.keys, List.map_map, Function.comp_def]
    rw [hkeys]
    exact AList.keys_nodup _
  · rw [mergeResults_pairs]
    simp only [List.map_cons, List.map_nil, hlen]
    decide

end Zest.ShardManager
