import ZestDB.Manager.LimitedSetBy
import ZestDB.Manager.GetByTasks

/-! `firstMatchingKeys`: every shard gives up the keys that cannot be among the first, and the
manager chooses among the rest. -/

namespace Zest

open Foundations

namespace Shard

lemma matching_perm (s : Shard) (ch : Choice) (func : Key → Bool) :
    ((s.indexManager.findMatching ch func false).map IndexEntry.key).Perm
    (s.tree.keys.filter func) := by
  have hkeys : (s.indexManager.findMatching ch func false).map IndexEntry.key =
      (ch.walkKeys s.tree.keys).filter func := by
    rw [tree, ← IndexManager.walk_keys, List.filter_map]
    rfl
  rw [hkeys]
  exact (ch.walkKeys_perm _).filter func

lemma least_matchingKeys (s : Shard) (ch : Choice) (valid : ValidationRule) :
    least valid.limit (s.matchingKeys ch valid) =
      least valid.limit (s.tree.keys.filter valid.func) := by
  rw [matchingKeys, Choice.least_firstKeys]
  exact least_of_perm (s.matching_perm ch valid.func)

end Shard

namespace ShardManager

variable {n : ℕ} {pf : Platform} {sm : ShardManager n}

def sortedMatching (sm : ShardManager n) (func : Key → Bool) : List Key :=
  ((List.finRange n).flatMap fun i => (sm.shards i).tree.keys.filter func).insertionSort (· ≤ ·)

lemma firstMatchingKeys_eq (ch : Choices n) (sm : ShardManager n) (valid : ValidationRule) :
    sm.firstMatchingKeys ch valid = (sm.sortedMatching valid.func).take valid.limit := by
  calc sm.firstMatchingKeys ch valid
      = least valid.limit ((List.finRange n).flatMap fun i =>
        (sm.shards i).matchingKeys (ch.shard i) valid) :=
        Choice.sort_firstKeys _ _ _
    _ = least valid.limit
        ((List.finRange n).flatMap fun i => (sm.shards i).tree.keys.filter valid.func) :=
        least_flatMap fun i _ => Shard.least_matchingKeys _ _ _

section Routing

variable [NeZero n]

lemma mem_sortedMatching (h : sm.Inv pf) (func : Key → Bool) (k : Key) :
    k ∈ sm.sortedMatching func ↔ func k = true ∧ (sm.toMap pf k).isSome := by
  have hshard : ∀ i, (k ∈ (sm.shards i).tree.keys ↔ ((sm.shards i).toMap k).isSome) := fun i => by
    rw [← AList.mem_keys, ← AList.lookup_isSome, Shard.toMap, Option.isSome_map]
  simp only [sortedMatching, List.mem_insertionSort, List.mem_flatMap, List.mem_finRange, true_and,
    List.mem_filter, hshard]
  constructor
  · rintro ⟨i, hk, hf⟩
    rw [toMap, h.routed i k hk]
    exact ⟨hf, hk⟩
  · rintro ⟨hf, hk⟩
    exact ⟨getShardId pf k, hk, hf⟩

lemma sortedMatching_lt (h : sm.Inv pf) (func : Key → Bool) :
    (sm.sortedMatching func).Pairwise (· < ·) := by
  have hnodup : (sm.sortedMatching func).Nodup := by
    refine (List.perm_insertionSort _ _).nodup_iff.mpr
      (nodup_flatMap h (fun i => ?_) fun i k hk => ?_)
    · exact (sm.shards i).tree.nodupKeys.filter _
    · obtain ⟨hk, -⟩ := List.mem_filter.mp hk
      rwa [Shard.toMap, Option.isSome_map, AList.lookup_isSome]
  have hle : (sm.sortedMatching func).Pairwise (· ≤ ·) := List.pairwise_insertionSort _ _
  exact (hle.and hnodup).imp fun h => lt_of_le_of_ne h.1 h.2

/-- Whatever the order in which the shards answer, what they leave out and how their maps are
walked, the first of the matching keys are found; a key that matches is one that `get` finds. -/
theorem firstMatchingKeys_take (c : Command n) (sm : ShardManager n) :
    sm.firstMatchingKeys c.ch c.valid = (sm.sortedMatching c.valid.func).take c.valid.limit ∧
    (∀ is : List (Fin n), is.Perm (List.finRange n) →
      c.steps (is.map .collect ++ [.choose]) (Command.start sm) =
        some ⟨sm, .setting ((sm.sortedMatching c.valid.func).take c.valid.limit)⟩) ∧
    (sm.Inv c.pf → (sm.sortedMatching c.valid.func).Pairwise (· < ·) ∧
      ∀ k, k ∈ sm.sortedMatching c.valid.func ↔
        c.valid.func k = true ∧ (sm.get c.pf k).1.code = .Success) := by
  refine ⟨firstMatchingKeys_eq c.ch sm c.valid, fun is his => ?_,
    fun h => ⟨sortedMatching_lt h _, fun k => ?_⟩⟩
  · have hcollect := Command.steps_collect (c := c) sm (his.nodup_iff.mpr (List.nodup_finRange n))
      (fun _ => none) fun _ _ => rfl
    refine (Command.steps_append _ _ hcollect).trans ?_
    have hall : ∀ i, i ∈ is := fun i => his.mem_iff.mpr (List.mem_finRange i)
    simp only [hall, if_true, Command.steps, Command.step, Option.isSome_some, implies_true,
      Option.bind_some, Command.chosen, Option.getD_some, ← firstMatchingKeys_eq c.ch]
    rfl
  · rw [mem_sortedMatching h, (get_spec h k).1, Shard.getResult]
    cases sm.toMap c.pf k <;> simp

/-- `lim 1` over two shards, of which the second answers first. -/
def firstOfTwo : Command 2 := ⟨byLength, {}, ⟨fun _ => true, 1⟩, []⟩

theorem twoShards_firstMatchingKeys :
    twoShards.firstMatchingKeys {} ⟨fun _ => true, 1⟩ =
      (twoShards.sortedMatching fun _ => true).take 1 ∧
    firstOfTwo.steps [.collect 1, .collect 0, .choose] (Command.start twoShards) =
      some ⟨twoShards, .setting ((twoShards.sortedMatching fun _ => true).take 1)⟩ ∧
    (∀ k, k ∈ twoShards.sortedMatching (fun _ => true) ↔
      firstOfTwo.valid.func k = true ∧ (twoShards.get byLength k).1.code = .Success) ∧
    (twoShards.sortedMatching fun _ => true) = [ascii "a", ascii "bb"] := by
  obtain ⟨hfirst, hsteps, hkeys⟩ := firstMatchingKeys_take firstOfTwo twoShards
  exact ⟨hfirst, hsteps [1, 0] (by decide), (hkeys twoShards_inv).2, by decide +kernel⟩

end Routing

end ShardManager

end Zest
