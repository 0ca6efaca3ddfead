import ZestDB.Manager.Shards
import ZestDB.Shard.Tracked
import Mathlib.Algebra.BigOperators.Ring.Finset

/-! The writes of the manager mean on the map what a client means by them. -/

namespace Zest

open Foundations
open scoped Classical

noncomputable def Write.result (segSize : ℕ) (m : Store) : Write → ResultType
  | .set _ value => if value.length ≤ segSize then
      ⟨.Success, Messages.SUCCESS_SET, 1⟩ else Shard.segmentFull
  | .del key => if (m key).isSome then
      ⟨.Success, Messages.SUCCESS_DEL, 1⟩ else ⟨.Error, Messages.KEY_NOT_FOUND, 0⟩
  | .setBy valid value =>
    Shard.modified (if value.length ≤ segSize then (m.chosen valid).ncard else 0)
  | .delBy valid => Shard.deleted (m.chosen valid).ncard

def Write.ValueOk (w : Write) : Prop := ∀ v ∈ w.value?, Shard.ValueOk v

namespace ShardManager

variable {n : ℕ} {α : Type} {pf : Platform} {sm t u : ShardManager n} {ch : Choices n}
  {valid : ValidationRule}
variable {key : Key} {value : Value} {keys : List Key}

def write [NeZero n] (pf : Platform) (ch : Choices n) : Write → Traced (ShardManager n) ResultType
  | .set key value => set pf key value
  | .del key => del pf key
  | .setBy valid value => setBy pf ch valid value
  | .delBy valid => delBy pf ch valid

structure Kept (sm t : ShardManager n) : Prop where
  settings : t.settings = sm.settings
  nextSeq : t.nextSeq = sm.nextSeq
  shard : ∀ i, (t.shards i).settings = (sm.shards i).settings ∧ (t.shards i).wal = (sm.shards i).wal

lemma Kept.refl (sm : ShardManager n) : Kept sm sm := ⟨rfl, rfl, fun _ => ⟨rfl, rfl⟩⟩

lemma Kept.trans (h : Kept sm t) (h' : Kept t u) : Kept sm u :=
  ⟨h'.settings.trans h.settings, h'.nextSeq.trans h.nextSeq,
    fun i => ⟨(h'.shard i).1.trans (h.shard i).1, (h'.shard i).2.trans (h.shard i).2⟩⟩

lemma Kept.setShard {A : Key → Value → Prop} {B : Key → Prop} {i : Fin n} {s : Shard}
    (hp : Shard.Path A B (sm.shards i) s) : Kept sm (sm.setShard i s) := by
  refine ⟨rfl, rfl, fun j => ?_⟩
  rw [setShard_shards]
  split_ifs with hj
  · rw [hj]
    exact hp.frame
  · exact ⟨rfl, rfl⟩

def Uniform (sm : ShardManager n) : Prop := ∀ i, (sm.shards i).settings = sm.settings

lemma Kept.uniform (h : Kept sm t) (hu : sm.Uniform) : t.Uniform := fun i =>
  (h.shard i).1.trans ((hu i).trans h.settings.symm)

/-- The manager keeps its invariant, its settings and its WALs, and ends with the map `m`. -/
structure Wrote [NeZero n] (pf : Platform) (sm t : ShardManager n) (m : Store) : Prop where
  inv : t.Inv pf
  kept : Kept sm t
  toMap : t.toMap pf = m

section Single

variable [NeZero n]

variable (key value) in
lemma set_spec (h : sm.Inv pf) (hu : sm.Uniform) (hv : Shard.ValueOk value)
    (hw : Traced.Within (Each Shard.WithinLimits) (set pf key value) sm) :
    (value.length ≤ sm.settings.SegSize ∧ (set pf key value sm).val =
      ⟨.Success, Messages.SUCCESS_SET, 1⟩ ∧
      Wrote pf sm (set pf key value sm).final (Function.update (sm.toMap pf) key (some value))) ∨
    (sm.settings.SegSize < value.length ∧ (set pf key value sm).val = Shard.segmentFull ∧
      Wrote pf sm (set pf key value sm).final (sm.toMap pf)) := by
  have hws : Traced.Within Shard.WithinLimits (Shard.set key value)
      (sm.shards (getShardId pf key)) := within_onShard hw
  have hcase := Shard.set_spec (h.shard (getShardId pf key)) hws.start hv key
  have hruns := Shard.set_runs (h.shard (getShardId pf key)) hv (hws.mono fun _ hs => hs.bounded)
  have hinv := hruns.final.inv (h.shard _)
  rw [hu] at hcase
  rcases hcase with ⟨hle, hval, hmap⟩ | ⟨hlt, hval, hmap⟩
  · obtain ⟨hi, hm⟩ := h.update hinv hmap
    exact Or.inl ⟨hle, hval, hi, .setShard hruns.final, hm⟩
  · obtain ⟨hi, hm⟩ := h.same hinv hmap
    exact Or.inr ⟨hlt, hval, hi, .setShard hruns.final, hm⟩

lemma del_spec (h : sm.Inv pf) (key : Key) :
    (del pf key sm).val = Write.result sm.settings.SegSize (sm.toMap pf) (.del key) ∧
      Wrote pf sm (del pf key sm).final (Function.update (sm.toMap pf) key none) := by
  obtain ⟨hcase, hmap, hruns⟩ := Shard.del_spec (h.shard (getShardId pf key)) key
  obtain ⟨hi, hm⟩ := h.update (hruns.final.inv (h.shard _)) hmap
  refine ⟨?_, hi, .setShard hruns.final, hm⟩
  rcases hcase with ⟨hs, hval⟩ | ⟨hs, hval⟩
  · exact hval.trans (if_pos hs).symm
  · exact hval.trans (if_neg (by rw [toMap, hs]; simp)).symm

lemma set_tracked : Traced.Tracked (set (n := n) pf key value) :=
  onShard_tracked Shard.set_tracked _

lemma del_tracked : Traced.Tracked (del (n := n) pf key) := onShard_tracked Shard.del_tracked _

end Single

section Limited

lemma countSuccess_tracked {x : Key → Traced (ShardManager n) ResultType}
    (hx : ∀ k, Traced.Tracked (x k)) :
    Traced.Tracked (countSuccess x keys) := by
  induction keys with
  | nil => exact .pure _
  | cons k keys ih => exact .bind (hx k) fun _ => .bind ih fun _ => .pure _

variable [NeZero n]

lemma countSuccess_set (h : sm.Inv pf) (hu : sm.Uniform) (hv : Shard.ValueOk value)
    (hw : Traced.Within (Each Shard.WithinLimits)
      (countSuccess (fun k => set pf k value) keys) sm) :
    (countSuccess (fun k => set pf k value) keys sm).val =
      (if value.length ≤ sm.settings.SegSize then (keys.length : ℤ) else 0) ∧
    Wrote pf sm (countSuccess (fun k => set pf k value) keys sm).final
      (if value.length ≤ sm.settings.SegSize then
        (sm.toMap pf).putAll {k | k ∈ keys} value else sm.toMap pf) := by
  induction keys generalizing sm with
  | nil => exact ⟨by simp [countSuccess], h, .refl sm, by simp [countSuccess, Store.putAll_empty]⟩
  | cons k keys ih =>
    have hw' := (hw.bind_right set_tracked).bind_left
    rcases set_spec _ _ h hu hv hw.bind_left with ⟨hle, hval, hwrote⟩ | ⟨hlt, hval, hwrote⟩
    · obtain ⟨hc, hr⟩ := ih hwrote.inv (hwrote.kept.uniform hu) hw'
      rw [hwrote.kept.settings] at hc hr
      simp only [hle, if_true] at hc hr ⊢
      refine ⟨?_, hr.inv, hwrote.kept.trans hr.kept, ?_⟩
      · change (if (set pf k value sm).val.code = .Success then 1 else 0) +
          (countSuccess (fun k => set pf k value) keys (set pf k value sm).final).val = _
        rw [hval, hc]
        simp only [if_true, List.length_cons]
        push_cast
        ring
      · refine hr.toMap.trans ?_
        rw [hwrote.toMap, Store.putAll_update]
        simp only [List.mem_cons, Set.insert_def, Set.mem_ofPred_eq]
    · obtain ⟨hc, hr⟩ := ih hwrote.inv (hwrote.kept.uniform hu) hw'
      rw [hwrote.kept.settings] at hc hr
      have hnot : ¬ value.length ≤ sm.settings.SegSize := by omega
      simp only [hnot, if_false] at hc hr ⊢
      refine ⟨?_, hr.inv, hwrote.kept.trans hr.kept, hr.toMap.trans hwrote.toMap⟩
      change (if (set pf k value sm).val.code = .Success then 1 else 0) +
        (countSuccess (fun k => set pf k value) keys (set pf k value sm).final).val = _
      rw [hval, hc]
      rfl

lemma countSuccess_del (h : sm.Inv pf) (hn : keys.Nodup) (hk : ∀ k ∈ keys, (sm.toMap pf k).isSome) :
    (countSuccess (fun k => del pf k) keys sm).val = (keys.length : ℤ) ∧
    Wrote pf sm (countSuccess (fun k => del pf k) keys sm).final
    ((sm.toMap pf).eraseAll {k | k ∈ keys}) := by
  induction keys generalizing sm with
  | nil => exact ⟨by simp [countSuccess], h, .refl sm, by simp [countSuccess, Store.eraseAll_empty]⟩
  | cons k keys ih =>
    obtain ⟨hval, hwrote⟩ := del_spec h k
    obtain ⟨hkn, hn⟩ := List.nodup_cons.mp hn
    have hk' : ∀ j ∈ keys, ((del pf k sm).final.toMap pf j).isSome := by
      intro j hj
      have hjk : j ≠ k := fun hjk => hkn (hjk ▸ hj)
      rw [hwrote.toMap, Function.update_of_ne hjk]
      exact hk j (by simp [hj])
    obtain ⟨hc, hr⟩ := ih hwrote.inv hn hk'
    refine ⟨?_, hr.inv, hwrote.kept.trans hr.kept, ?_⟩
    · change (if (del pf k sm).val.code = .Success then 1 else 0) +
        (countSuccess (fun k => del pf k) keys (del pf k sm).final).val = _
      rw [hval, hc, Write.result, if_pos (hk k (by simp))]
      simp only [if_true, List.length_cons]
      push_cast
      ring
    · refine hr.toMap.trans ?_
      rw [hwrote.toMap, Store.eraseAll_update]
      simp only [List.mem_cons, Set.insert_def, Set.mem_ofPred_eq]

lemma disjoint_shards (h : sm.Inv pf) {i j : Fin n} (hij : i ≠ j) {k : Key}
    (hi : ((sm.shards i).toMap k).isSome) : ¬ ((sm.shards j).toMap k).isSome := fun hj =>
  hij ((h.routed i k hi).symm.trans (h.routed j k hj))

lemma nodup_flatMap (h : sm.Inv pf) {l : Fin n → List Key} (hl : ∀ i, (l i).Nodup)
    (hm : ∀ i, ∀ k ∈ l i, ((sm.shards i).toMap k).isSome) :
    ((List.finRange n).flatMap l).Nodup := by
  refine List.nodup_flatMap.mpr ⟨fun i _ => hl i, ?_⟩
  refine (List.nodup_finRange n).imp fun {i j} hij => ?_
  exact fun k hi hj => disjoint_shards h hij (hm i k hi) (hm j k hj)

lemma firstMatchingKeys_spec (h : sm.Inv pf) (ch : Choices n) (valid : ValidationRule) :
    (sm.firstMatchingKeys ch valid).Nodup ∧ {k | k ∈ sm.firstMatchingKeys ch valid} =
        smallest (Store.matching (sm.toMap pf) valid.func) valid.limit := by
  have hmem : ∀ i, ∀ k ∈ (sm.shards i).matchingKeys (ch.shard i) valid,
      k ∈ Store.matching (sm.shards i).toMap valid.func := by
    intro i k hk
    have := (Shard.mem_matchingKeys (sm.shards i) (ch.shard i) valid).le hk
    exact smallest_subset this
  have hnodup :
      ((List.finRange n).flatMap fun i => (sm.shards i).matchingKeys (ch.shard i) valid).Nodup :=
    nodup_flatMap h (fun i => Shard.matchingKeys_nodup _ _ _) fun i k hk => (hmem i k hk).2
  have hset : {k | k ∈ (List.finRange n).flatMap fun i =>
      (sm.shards i).matchingKeys (ch.shard i) valid} =
      ⋃ i, smallest (Store.matching (sm.shards i).toMap valid.func) valid.limit := by
    ext k
    simp only [Set.mem_iUnion, Set.mem_ofPred_eq, List.mem_flatMap, List.mem_finRange, true_and]
    exact exists_congr fun i => Set.ext_iff.mp (Shard.mem_matchingKeys _ (ch.shard i) valid) k
  refine ⟨(List.perm_insertionSort _ _).nodup_iff.mpr (ch.own.firstKeys_nodup _ hnodup), ?_⟩
  have hsort : {k | k ∈ sm.firstMatchingKeys ch valid} = {k | k ∈ ch.own.firstKeys valid.limit
      ((List.finRange n).flatMap fun i => (sm.shards i).matchingKeys (ch.shard i) valid)} :=
    Set.ext fun k => (List.perm_insertionSort _ _).mem_iff
  rw [hsort, ch.own.mem_firstKeys _ hnodup, hset]
  refine smallest_of_subset (matching_finite h valid.func) ?_ ?_
  · rw [matching_iUnion h]
    exact Set.iUnion_mono fun i => smallest_subset
  · rw [matching_iUnion h]
    exact smallest_iUnion_subset _

end Limited

section Unlimited

variable [NeZero n]

lemma capped_unlimited (hv : valid.limit = UINT_MAX) (total : ℤ) : capped valid total = total := by
  simp [capped, hv]

lemma allShards_wrote {x : Fin n → Traced Shard α} (h : sm.Inv pf)
    (hruns : ∀ i, ∃ A B, Shard.Path A B (sm.shards i) (x i (sm.shards i)).final) (g : Store → Store)
    (hg : ∀ i, (x i (sm.shards i)).final.toMap = g (sm.shards i).toMap)
    (hsome : ∀ m k, (g m k).isSome → (m k).isSome)
    (hlocal : ∀ m m' : Store, ∀ k, m k = m' k → g m k = g m' k) :
    Wrote pf sm (allShards x sm).final (g (sm.toMap pf)) where
  inv := by
    refine h.of_shards (fun i => ?_) fun i k hk => ?_
    · obtain ⟨A, B, hp⟩ := hruns i
      rw [allShards_final]
      exact hp.inv (h.shard i)
    · rw [allShards_final, hg] at hk
      exact hsome _ k hk
  kept := by
    obtain ⟨-, -, hq, hs⟩ := eachShard_run x (List.nodup_finRange n) sm
    refine ⟨hs, hq, fun i => ?_⟩
    obtain ⟨A, B, hp⟩ := hruns i
    rw [allShards_final]
    exact hp.frame
  toMap := by
    funext k
    rw [toMap, allShards_final, hg]
    exact hlocal _ _ k rfl

lemma toLongLong_le (c : ℕ) : toLongLong c ≤ c := by
  unfold toLongLong
  rw [Int.bmod_def]
  omega

lemma toLongLong_eq_iff {c : ℕ} : toLongLong c = c ↔ c < 2 ^ 31 := by
  unfold toLongLong
  rw [Int.bmod_def]
  omega

lemma toLongLong_of_lt {c : ℕ} (h : c < 2 ^ 31) : toLongLong c = c := toLongLong_eq_iff.mpr h

lemma toLongLong_zero : toLongLong 0 = 0 := by
  rw [toLongLong_of_lt (Nat.two_pow_pos 31), Nat.cast_zero]

lemma matching_ncard (h : sm.Inv pf) (func : Key → Bool) :
    (Store.matching (sm.toMap pf) func).ncard =
      ((List.finRange n).map fun i => (sm.shards i).matchCount func).sum := by
  obtain ⟨l, hl⟩ : ∃ l : Fin n → List Key, l = fun i =>
      ((sm.shards i).indexManager.findMatching .plain func false).map IndexEntry.key := ⟨_, rfl⟩
  have hset : ∀ i, {k | k ∈ l i} = Store.matching (sm.shards i).toMap func := by
    rw [hl]
    exact fun i => Shard.findMatching_set _ _ _
  have hnodup : ((List.finRange n).flatMap l).Nodup := by
    refine nodup_flatMap h (fun i => ?_) fun i k hk => ?_
    · rw [hl]
      exact Shard.findMatching_nodup
    · exact ((hset i).le hk).2
  have hunion : {k | k ∈ (List.finRange n).flatMap l} = Store.matching (sm.toMap pf) func := by
    rw [matching_iUnion h]
    ext k
    simp only [← hset, Set.mem_iUnion, Set.mem_ofPred_eq, List.mem_flatMap, List.mem_finRange,
      true_and]
  rw [← hunion, Set.ncard, encard_list _ hnodup, ENat.toNat_natCast, List.length_flatMap]
  congr 1
  refine List.map_congr_left fun i _ => ?_
  rw [hl, List.length_map, Shard.findMatching_length]

/-- No shard has as many keys as an `int` counts. -/
def RowsFit (sm : ShardManager n) : Prop := ∀ i, (sm.shards i).tree.keys.length < 2 ^ 31

omit [NeZero n] in
lemma RowsFit.matchCount (h : sm.RowsFit) (i : Fin n) (func : Key → Bool) :
    (sm.shards i).matchCount func < 2 ^ 31 :=
  lt_of_le_of_lt ((sm.shards i).matchCount_le func) (h i)

omit [NeZero n] in
lemma RowsFit.fewKeys (h : sm.RowsFit) (i : Fin n) : (sm.shards i).FewKeys :=
  (h i).le.trans (by decide)

lemma sumRows_counts (h : sm.Inv pf) (hr : sm.RowsFit) (func : Key → Bool)
    {r : Fin n → ResultType × Option ℕ}
    (hres : ∀ i, (r i).1.code = .Success ∧ (r i).1.affectedRows =
      toLongLong ((sm.shards i).matchCount func)) :
    sumRows ((List.finRange n).map r) = (Store.matching (sm.toMap pf) func).ncard := by
  have hrow : ∀ i, (if (r i).1.code = .Success then (r i).1.affectedRows else 0) =
      ((sm.shards i).matchCount func : ℤ) := by
    intro i
    rw [if_pos (hres i).1, (hres i).2, toLongLong_of_lt (hr.matchCount i func)]
  rw [matching_ncard h, sumRows, List.map_map]
  simp only [Function.comp_def, hrow, Nat.cast_list_sum, List.map_map]

lemma chosen_unlimited (hv : valid.limit = UINT_MAX) (m : Store) :
    m.chosen valid = m.matching valid.func := by
  simp [Store.chosen, ValidationRule.bound, hv]

lemma chosen_limited (hv : valid.limit ≠ UINT_MAX) (m : Store) :
    m.chosen valid = smallest (m.matching valid.func) valid.limit := by
  simp [Store.chosen, ValidationRule.bound, hv]

lemma isSome_of_putAll {m : Store} {func : Key → Bool} {k : Key}
    (h : (m.putAll (m.matching func) value k).isSome) : (m k).isSome := by
  simp only [Store.putAll] at h
  split_ifs at h with hk
  · exact hk.2
  · exact h

lemma isSome_of_eraseAll {m : Store} {func : Key → Bool} {k : Key}
    (h : (m.eraseAll (m.matching func) k).isSome) : (m k).isSome := by
  simp only [Store.eraseAll] at h
  split_ifs at h with hk
  · cases h
  · exact h

lemma putAll_congr {m m' : Store} {func : Key → Bool} {k : Key} (h : m k = m' k) :
    m.putAll (m.matching func) value k = m'.putAll (m'.matching func) value k := by
  have hk : k ∈ m.matching func ↔ k ∈ m'.matching func := by simp [Store.matching, h]
  simp only [Store.putAll, hk, h]

lemma eraseAll_congr {m m' : Store} {func : Key → Bool} {k : Key} (h : m k = m' k) :
    m.eraseAll (m.matching func) k = m'.eraseAll (m'.matching func) k := by
  have hk : k ∈ m.matching func ↔ k ∈ m'.matching func := by simp [Store.matching, h]
  simp only [Store.eraseAll, hk, h]

lemma setBy_unlimited (h : sm.Inv pf) (hu : sm.Uniform) (hv : Shard.ValueOk value)
    (hlim : valid.limit = UINT_MAX)
    (hw : Traced.Within (Each Shard.WithinLimits) (setBy pf ch valid value) sm) :
    (sm.RowsFit → (setBy pf ch valid value sm).val =
      Write.result sm.settings.SegSize (sm.toMap pf) (.setBy valid value)) ∧
      Wrote pf sm (setBy pf ch valid value sm).final
        (Write.applyWithin sm.settings.SegSize (.setBy valid value) (sm.toMap pf)) := by
  obtain ⟨x, hx⟩ : ∃ x : Fin n → Traced Shard (ResultType × Option ℕ),
      ∀ i, x i = Shard.setBy (ch.shard i) valid value (some 0) := ⟨_, fun _ => rfl⟩
  have hrun : setBy pf ch valid value = (allShards x >>= fun results =>
      pure (Shard.modified (capped valid (sumRows results)))) := by
    rw [setBy, if_neg (not_not.mpr hlim), funext hx]
  rw [hrun] at hw ⊢
  have hwx : ∀ i, Traced.Within Shard.WithinLimits (Shard.setBy (ch.shard i) valid value (some 0))
      (sm.shards i) :=
    fun i => hx i ▸ within_allShards (fun i => hx i ▸ Shard.setBy_tracked) hw.bind_left i
  have hspec := fun i => Shard.setBy_spec (h.shard i) hv (hwx i) (Or.inl hlim)
  have hruns := fun i => Shard.setBy_runs (h.shard i) hv ((hwx i).mono fun _ hs => hs.bounded)
  simp only [← hx, hu _] at hspec hruns
  constructor
  · intro hr
    change Shard.modified (capped valid (sumRows (allShards x sm).val)) = _
    rw [capped_unlimited hlim, allShards_val, Write.result, chosen_unlimited hlim]
    congr 1
    split_ifs with hfit
    · refine sumRows_counts h hr valid.func fun i => ?_
      have := (hspec i).1
      rw [if_pos hfit] at this
      exact ⟨by rw [this, Shard.modified_code], by rw [this, Shard.modified_rows]⟩
    · have hzero : ∀ i, (x i (sm.shards i)).val.1 = Shard.modified 0 := fun i => by
        rw [(hspec i).1, if_neg hfit]
      simp [sumRows, hzero, Shard.modified_rows, Function.comp_def]
  · by_cases hfit : value.length ≤ sm.settings.SegSize
    · rw [Write.applyWithin_of_fits (show Write.Fits _ (.setBy valid value) from hfit), Write.apply,
        chosen_unlimited hlim]
      refine allShards_wrote h (fun i => ⟨_, _, (hruns i).final⟩)
        (fun m => m.putAll (m.matching valid.func) value)
        (fun i => ?_) (fun _ _ => isSome_of_putAll) fun _ _ _ => putAll_congr
      rw [(hspec i).2, if_pos hfit]
    · rw [Write.applyWithin, if_neg (show ¬ Write.Fits _ (.setBy valid value) from hfit)]
      refine allShards_wrote h (fun i => ⟨_, _, (hruns i).final⟩) (fun m => m) (fun i => ?_)
        (fun _ _ hk => hk)
        fun _ _ _ hk => hk
      rw [(hspec i).2, if_neg hfit]

lemma delBy_unlimited (h : sm.Inv pf) (hlim : valid.limit = UINT_MAX) :
    (sm.RowsFit → (delBy pf ch valid sm).val =
      Write.result sm.settings.SegSize (sm.toMap pf) (.delBy valid)) ∧
      Wrote pf sm (delBy pf ch valid sm).final (Write.apply (.delBy valid) (sm.toMap pf)) := by
  obtain ⟨x, hx⟩ : ∃ x : Fin n → Traced Shard (ResultType × Option ℕ),
      ∀ i, x i = Shard.delBy (ch.shard i) valid (some 0) := ⟨_, fun _ => rfl⟩
  have hrun : delBy pf ch valid = (allShards x >>= fun results =>
      pure (Shard.deleted (capped valid (sumRows results)))) := by
    rw [delBy, if_neg (not_not.mpr hlim), funext hx]
  rw [hrun]
  have hspec := fun i => Shard.delBy_spec (ch.shard i) valid (some 0) (h.shard i)
  simp only [← hx] at hspec
  have hunl : Shard.Unlimited valid (some 0) := Or.inl hlim
  constructor
  · intro hr
    change Shard.deleted (capped valid (sumRows (allShards x sm).val)) = _
    rw [capped_unlimited hlim, allShards_val, Write.result, chosen_unlimited hlim]
    congr 1
    refine sumRows_counts h hr valid.func fun i => ?_
    exact ⟨by rw [((hspec i).2 hunl).1, Shard.deleted_code], by rw [((hspec i).2 hunl).1,
      Shard.deleted_rows]⟩
  · rw [Write.apply, chosen_unlimited hlim]
    exact allShards_wrote h (fun i => ⟨_, _, (hspec i).1.final⟩)
      (fun m => m.eraseAll (m.matching valid.func))
      (fun i => ((hspec i).2 hunl).2) (fun _ _ => isSome_of_eraseAll) fun _ _ _ => eraseAll_congr

end Unlimited

section Writes

variable [NeZero n] {w : Write}

lemma length_eq_ncard {s : Set Key} (hn : keys.Nodup) (h : {k | k ∈ keys} = s) :
    (keys.length : ℤ) = s.ncard := by
  rw [← h, Set.ncard, encard_list _ hn, ENat.toNat_natCast]

lemma setBy_limited (h : sm.Inv pf) (hu : sm.Uniform) (hv : Shard.ValueOk value)
    (hlim : valid.limit ≠ UINT_MAX)
    (hw : Traced.Within (Each Shard.WithinLimits) (setBy pf ch valid value) sm) :
    (setBy pf ch valid value sm).val = Write.result sm.settings.SegSize (sm.toMap pf)
    (.setBy valid value) ∧ Wrote pf sm (setBy pf ch valid value sm).final
        (Write.applyWithin sm.settings.SegSize (.setBy valid value) (sm.toMap pf)) := by
  obtain ⟨hnodup, hset⟩ := firstMatchingKeys_spec h ch valid
  rw [← chosen_limited hlim] at hset
  have hrun : setBy pf ch valid value sm =
      (countSuccess (fun k => set pf k value) (sm.firstMatchingKeys ch valid) >>= fun updated =>
        pure (Shard.modified updated)) sm := by
    rw [setBy, if_pos hlim]
    rfl
  have hw' : Traced.Within (Each Shard.WithinLimits)
      (countSuccess (fun k => set pf k value) (sm.firstMatchingKeys ch valid) >>= fun updated =>
        pure (Shard.modified updated)) sm := by
    simp only [Traced.Within]
    rw [← hrun]
    exact hw
  obtain ⟨hval, hwrote⟩ := countSuccess_set h hu hv hw'.bind_left
  rw [hrun]
  rw [hset] at hwrote
  constructor
  · change Shard.modified (countSuccess _ _ sm).val = _
    rw [hval, length_eq_ncard hnodup hset]
    rfl
  · rw [Write.applyWithin_setBy]
    exact hwrote

lemma delBy_limited (h : sm.Inv pf) (hlim : valid.limit ≠ UINT_MAX) :
    (delBy pf ch valid sm).val = Write.result sm.settings.SegSize (sm.toMap pf) (.delBy valid) ∧
      Wrote pf sm (delBy pf ch valid sm).final (Write.apply (.delBy valid) (sm.toMap pf)) := by
  obtain ⟨hnodup, hset⟩ := firstMatchingKeys_spec h ch valid
  rw [← chosen_limited hlim] at hset
  have hrun : delBy pf ch valid sm =
      (countSuccess (fun k => del pf k) (sm.firstMatchingKeys ch valid) >>= fun deleted =>
        pure (Shard.deleted deleted)) sm := by
    rw [delBy, if_pos hlim]
    rfl
  obtain ⟨hval, hwrote⟩ :=
    countSuccess_del h hnodup fun k hk => ((Store.chosen_subset _ _) (hset.le hk)).2
  rw [hrun]
  rw [hset] at hwrote
  constructor
  · change Shard.deleted (countSuccess _ _ sm).val = _
    rw [hval, length_eq_ncard hnodup hset]
    rfl
  · exact hwrote

lemma write_tracked (w : Write) : Traced.Tracked (write (n := n) pf ch w) := by
  cases w with
  | set key value => exact set_tracked
  | del key => exact del_tracked
  | setBy valid value =>
    exact .ite (.bind .get fun _ => .bind (countSuccess_tracked fun _ => set_tracked)
      fun _ => .pure _) (.bind (allShards_tracked fun _ => Shard.setBy_tracked) fun _ => .pure _)
  | delBy valid =>
    exact .ite (.bind .get fun _ => .bind (countSuccess_tracked fun _ => del_tracked)
      fun _ => .pure _) (.bind (allShards_tracked fun _ => Shard.delBy_tracked) fun _ => .pure _)

theorem write_spec (h : sm.Inv pf) (hu : sm.Uniform) (hv : w.ValueOk)
    (hw : Traced.Within (Each Shard.WithinLimits) (write pf ch w) sm) :
    (sm.RowsFit → (write pf ch w sm).val = w.result sm.settings.SegSize (sm.toMap pf)) ∧
      Wrote pf sm (write pf ch w sm).final (w.applyWithin sm.settings.SegSize (sm.toMap pf)) := by
  cases w with
  | set key value =>
    rcases set_spec _ _ h hu (hv value rfl) hw with ⟨hle, hval, hwrote⟩ | ⟨hlt, hval, hwrote⟩
    · refine ⟨fun _ => hval.trans (if_pos hle).symm, ?_⟩
      rw [Write.applyWithin_of_fits (show Write.Fits _ (.set key value) from hle)]
      exact hwrote
    · refine ⟨fun _ => hval.trans (if_neg (by omega)).symm, ?_⟩
      rw [Write.applyWithin, if_neg (show ¬ Write.Fits _ (.set key value) from not_le.mpr hlt)]
      exact hwrote
  | del key =>
    obtain ⟨hval, hwrote⟩ := del_spec h key
    rw [Write.applyWithin_of_fits (show Write.Fits _ (.del key) from trivial)]
    exact ⟨fun _ => hval, hwrote⟩
  | setBy valid value =>
    by_cases hlim : valid.limit = UINT_MAX
    · exact setBy_unlimited h hu (hv value rfl) hlim hw
    · obtain ⟨hval, hwrote⟩ := setBy_limited h hu (hv value rfl) hlim hw
      exact ⟨fun _ => hval, hwrote⟩
  | delBy valid =>
    rw [Write.applyWithin_of_fits (show Write.Fits _ (.delBy valid) from trivial)]
    by_cases hlim : valid.limit = UINT_MAX
    · exact delBy_unlimited h hlim
    · obtain ⟨hval, hwrote⟩ := delBy_limited h hlim
      exact ⟨fun _ => hval, hwrote⟩

end Writes

end ShardManager

end Zest
