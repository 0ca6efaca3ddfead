import ZestDB.Manager.Defs
import ZestDB.Shard.Compaction
import Mathlib.Data.Set.Finite.Lattice

/-! The map all shards stand for together, and how a task on a shard changes it. -/

namespace Zest.ShardManager

open Foundations

variable {n : ℕ} {α : Type} {pf : Platform} {sm : ShardManager n} {i : Fin n}

@[simp] lemma setShard_shards (sm : ShardManager n) (i j : Fin n) (s : Shard) :
    (sm.setShard i s).shards j = if j = i then s else sm.shards j := by
  simp [setShard, Function.update_apply]

@[simp] lemma setShard_nextSeq (sm : ShardManager n) (i : Fin n) (s : Shard) :
    (sm.setShard i s).nextSeq = sm.nextSeq := rfl

@[simp] lemma setShard_settings (sm : ShardManager n) (i : Fin n) (s : Shard) :
    (sm.setShard i s).settings = sm.settings := rfl

lemma setShard_self (sm : ShardManager n) (i : Fin n) : sm.setShard i (sm.shards i) = sm := by
  simp [setShard]

lemma onShard_tracked {x : Traced Shard α} (hx : Traced.Tracked x) (i : Fin n) :
    Traced.Tracked (onShard i x) :=
  .zoom (fun sm => setShard_self sm i) hx

def Each (P : Shard → Prop) (sm : ShardManager n) : Prop := ∀ i, P (sm.shards i)

instance {P : Shard → Prop} [DecidablePred P] (sm : ShardManager n) : Decidable (sm.Each P) :=
  inferInstanceAs (Decidable (∀ i, P (sm.shards i)))

lemma within_onShard {P : Shard → Prop} {x : Traced Shard α}
    (h : Traced.Within (Each P) (onShard i x) sm) :
    Traced.Within P x (sm.shards i) := by
  intro t ht
  rcases List.mem_cons.mp ht with rfl | ht
  · exact h.start i
  · have := h (sm.setShard i t) (List.mem_cons_of_mem _ (List.mem_map_of_mem ht)) i
    simpa using this

/-- Every shard of the list is, in `t`, one that its task went through; the others are as they
were. -/
structure Between (x : Fin n → Traced Shard α) (is : List (Fin n)) (sm t : ShardManager n) :
    Prop where
  mem : ∀ j, t.shards j ∈ sm.shards j :: (x j (sm.shards j)).visited
  frame : ∀ j ∉ is, t.shards j = sm.shards j
  nextSeq : t.nextSeq = sm.nextSeq
  settings : t.settings = sm.settings

lemma eachShard_tracked {x : Fin n → Traced Shard α} (hx : ∀ i, Traced.Tracked (x i))
    (is : List (Fin n)) :
    Traced.Tracked (eachShard x is) := by
  induction is with
  | nil => exact .pure _
  | cons i is ih => exact .bind (onShard_tracked (hx i) i) fun _ => .bind ih fun _ => .pure _

lemma eachShard_run (x : Fin n → Traced Shard α) {is : List (Fin n)} (hn : is.Nodup)
    (sm : ShardManager n) :
    (eachShard x is sm).val = is.map (fun i => (x i (sm.shards i)).val) ∧
    (∀ j, (eachShard x is sm).final.shards j = if j ∈ is then
      (x j (sm.shards j)).final else sm.shards j) ∧
    (eachShard x is sm).final.nextSeq = sm.nextSeq ∧ (eachShard x is sm).final.settings =
      sm.settings := by
  induction is generalizing sm with
  | nil => exact ⟨rfl, fun _ => by simp [eachShard], rfl, rfl⟩
  | cons i is ih =>
    obtain ⟨hi, hn⟩ := List.nodup_cons.mp hn
    obtain ⟨hv, hf, hq, hs⟩ := ih hn (sm.setShard i (x i (sm.shards i)).final)
    refine ⟨?_, fun j => ?_, hq, hs⟩
    · change (x i (sm.shards i)).val :: (eachShard x is _).val = _
      rw [show (eachShard x is (onShard i (x i) sm).final).val = _ from hv, List.map_cons]
      congr 1
      refine List.map_congr_left fun j hj => ?_
      have hji : j ≠ i := fun hji => hi (hji ▸ hj)
      rw [setShard_shards, if_neg hji]
    · refine (hf j).trans ?_
      rw [setShard_shards]
      by_cases hji : j = i
      · subst hji
        simp [hi]
      · simp [hji]

lemma eachShard_visited {x : Fin n → Traced Shard α} (hx : ∀ i, Traced.Tracked (x i))
    {is : List (Fin n)} (hn : is.Nodup) (sm : ShardManager n) :
    ∀ t ∈ (eachShard x is sm).visited, Between x is sm t := by
  induction is generalizing sm with
  | nil => simp [eachShard]
  | cons i is ih =>
    obtain ⟨hi, hn⟩ := List.nodup_cons.mp hn
    intro t ht
    rcases List.mem_append.mp ht with ht | ht
    · obtain ⟨s, hs, rfl⟩ := List.mem_map.mp ht
      refine ⟨fun j => ?_, fun j hj => ?_, rfl, rfl⟩
      · rw [setShard_shards]
        by_cases hji : j = i
        · subst hji
          simp [hs]
        · simp [hji]
      · rw [setShard_shards, if_neg (List.ne_of_not_mem_cons hj)]
    · have ht' : t ∈ (eachShard x is (sm.setShard i (x i (sm.shards i)).final)).visited := by
        change t ∈ _ ++ [] at ht
        rwa [List.append_nil] at ht
      obtain ⟨hb, hf, hq, hs⟩ := ih hn _ t ht'
      refine ⟨fun j => ?_, fun j hj => ?_, hq, hs⟩
      · by_cases hji : j = i
        · subst hji
          rw [hf j hi, setShard_shards, if_pos rfl]
          exact hx j _
        · have := hb j
          rwa [setShard_shards, if_neg hji] at this
      · rw [hf j (List.not_mem_of_not_mem_cons hj), setShard_shards,
          if_neg (List.ne_of_not_mem_cons hj)]

lemma within_eachShard {P : Shard → Prop} {x : Fin n → Traced Shard α}
    (hx : ∀ i, Traced.Tracked (x i))
    {is : List (Fin n)} (hn : is.Nodup) (h : Traced.Within (Each P) (eachShard x is) sm) :
    ∀ i ∈ is, Traced.Within P (x i) (sm.shards i) := by
  induction is generalizing sm with
  | nil => simp
  | cons i is ih =>
    obtain ⟨hi, hn⟩ := List.nodup_cons.mp hn
    intro j hj
    rcases List.mem_cons.mp hj with rfl | hj
    · exact within_onShard h.bind_left
    · have := ih hn (h.bind_right (onShard_tracked (hx i) i)).bind_left j hj
      have hji : j ≠ i := fun hji => hi (hji ▸ hj)
      rwa [show (onShard i (x i) sm).final = sm.setShard i (x i (sm.shards i)).final from rfl,
        setShard_shards, if_neg hji] at this

section All

variable {x : Fin n → Traced Shard α}

lemma allShards_val (sm : ShardManager n) :
    (allShards x sm).val = (List.finRange n).map fun i => (x i (sm.shards i)).val :=
  (eachShard_run x (List.nodup_finRange n) sm).1

lemma allShards_final (sm : ShardManager n) (j : Fin n) :
    (allShards x sm).final.shards j = (x j (sm.shards j)).final := by
  rw [allShards, (eachShard_run x (List.nodup_finRange n) sm).2.1 j, if_pos (List.mem_finRange j)]

lemma allShards_tracked (hx : ∀ i, Traced.Tracked (x i)) : Traced.Tracked (allShards x) :=
  eachShard_tracked hx _

lemma within_allShards {P : Shard → Prop} (hx : ∀ i, Traced.Tracked (x i))
    (h : Traced.Within (Each P) (allShards x) sm) (i : Fin n) : Traced.Within P (x i)
    (sm.shards i) :=
  within_eachShard hx (List.nodup_finRange n) h i (List.mem_finRange i)

end All

section Routing

variable [NeZero n]

def toMap (pf : Platform) (sm : ShardManager n) : Store :=
  fun k => (sm.shards (getShardId pf k)).toMap k

structure Inv (pf : Platform) (sm : ShardManager n) : Prop where
  shard : sm.Each Shard.Inv
  routed : ∀ i k, ((sm.shards i).toMap k).isSome → getShardId pf k = i

lemma toMap_setShard (sm : ShardManager n) (i : Fin n) (s : Shard) (k : Key) :
    (sm.setShard i s).toMap pf k = if getShardId pf k = i then s.toMap k else sm.toMap pf k := by
  simp only [toMap, setShard_shards]
  split_ifs <;> rfl

lemma Inv.setShard (h : sm.Inv pf) {s : Shard} (hs : s.Inv)
    (hr : ∀ k, (s.toMap k).isSome → getShardId pf k = i) : (sm.setShard i s).Inv pf := by
  refine ⟨fun j => ?_, fun j k hk => ?_⟩
  · rw [setShard_shards]
    split_ifs
    · exact hs
    · exact h.shard j
  · rw [setShard_shards] at hk
    split_ifs at hk with hj
    · rw [hj]
      exact hr k hk
    · exact h.routed j k hk

lemma Inv.update (h : sm.Inv pf) {s : Shard} (hs : s.Inv) {key : Key} {o : Option Value}
    (hm : s.toMap = Function.update (sm.shards (getShardId pf key)).toMap key o) :
    (sm.setShard (getShardId pf key) s).Inv pf ∧
      (sm.setShard (getShardId pf key) s).toMap pf = Function.update (sm.toMap pf) key o := by
  constructor
  · refine h.setShard hs fun k hk => ?_
    rw [hm, Function.update_apply] at hk
    split_ifs at hk with hkk
    · rw [hkk]
    · exact h.routed _ k hk
  · funext k
    rw [toMap_setShard, hm, Function.update_apply, Function.update_apply]
    by_cases hk : k = key
    · simp [hk]
    · simp only [hk, if_false]
      split_ifs with hr
      · rw [toMap, hr]
      · rfl

lemma Inv.same (h : sm.Inv pf) {s : Shard} (hs : s.Inv) (hm : s.toMap = (sm.shards i).toMap) :
    (sm.setShard i s).Inv pf ∧ (sm.setShard i s).toMap pf = sm.toMap pf := by
  refine ⟨h.setShard hs fun k hk => h.routed i k (hm ▸ hk), ?_⟩
  funext k
  rw [toMap_setShard]
  split_ifs with hr
  · rw [hm, toMap, hr]
  · rfl

lemma Inv.of_shards (h : sm.Inv pf) {t : ShardManager n} (hs : t.Each Shard.Inv)
    (hr : ∀ i k, ((t.shards i).toMap k).isSome → ((sm.shards i).toMap k).isSome) : t.Inv pf :=
  ⟨hs, fun i k hk => h.routed i k (hr i k hk)⟩

lemma matching_iUnion (h : sm.Inv pf) (func : Key → Bool) :
    Store.matching (sm.toMap pf) func = ⋃ i, Store.matching (sm.shards i).toMap func := by
  ext k
  simp only [Set.mem_iUnion]
  constructor
  · exact fun hk => ⟨getShardId pf k, hk⟩
  · rintro ⟨i, hf, hk⟩
    refine ⟨hf, ?_⟩
    rw [toMap, h.routed i k hk]
    exact hk

lemma matching_finite (h : sm.Inv pf) (func : Key → Bool) :
    (Store.matching (sm.toMap pf) func).Finite := by
  rw [matching_iUnion h]
  exact Set.finite_iUnion fun i => Shard.matching_finite _ func

end Routing

end Zest.ShardManager
