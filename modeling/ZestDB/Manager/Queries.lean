import ZestDB.Manager.Writes
import ZestDB.Shard.Dump

/-! What the manager answers without writing, and the operations that change no key. -/

namespace Zest.ShardManager

open Foundations

variable {n : ℕ} {α : Type} {pf : Platform} {sm t : ShardManager n} {ch : Choices n}
  {valid : ValidationRule} {key : Key}

def inner (pf : Platform) (pairs : List (Key × Value)) : Bytes :=
  List.intercalate (ascii ",") (pairs.map (Shard.dumpPair pf))

lemma dumpArray_eq (pf : Platform) (pairs : List (Key × Value)) :
    Shard.dumpArray pf pairs = ascii "[" ++ inner pf pairs ++ ascii "]" := rfl

lemma dumpPair_length (pf : Platform) (p : Key × Value) : 0 < (Shard.dumpPair pf p).length := by
  simp [Shard.dumpPair, ascii]

lemma inner_append {xs ys : List (Key × Value)} (hx : xs ≠ []) (hy : ys ≠ []) :
    inner pf (xs ++ ys) = inner pf xs ++ ascii "," ++ inner pf ys := by
  induction xs with
  | nil => exact absurd rfl hx
  | cons x xs ih =>
    cases xs with
    | nil =>
      obtain ⟨y, ys, rfl⟩ := List.exists_cons_of_ne_nil hy
      simp [inner, List.intercalate]
    | cons x' xs =>
      have := ih (by simp)
      simp only [inner, List.map_cons, List.cons_append, List.intercalate_cons_cons] at this ⊢
      rw [this]
      simp only [List.append_assoc]

lemma inner_pos (pf : Platform) {pairs : List (Key × Value)} (h : pairs ≠ []) :
    0 < (inner pf pairs).length := by
  obtain ⟨p, ps, rfl⟩ := List.exists_cons_of_ne_nil h
  have := dumpPair_length pf p
  cases ps with
  | nil => simpa [inner] using this
  | cons q ps =>
    simp only [inner, List.map_cons, List.intercalate_cons_cons, List.length_append]
    omega

def pairsResult (pf : Platform) (pairs : List (Key × Value)) : ResultType :=
  ⟨.Success, Shard.dumpArray pf pairs, toLongLong pairs.length⟩

lemma mergeOne_pairs (acc pairs : List (Key × Value)) (rows : ℤ) :
    mergeOne (ascii "[" ++ inner pf acc, rows) (pairsResult pf pairs) =
      (ascii "[" ++ inner pf (acc ++ pairs), rows + toLongLong pairs.length) := by
  have hb : (ascii "[").length = 1 := rfl
  have hc : (ascii "]").length = 1 := rfl
  by_cases hp : pairs = []
  · subst hp
    have hlen : ¬ (Shard.dumpArray pf []).length > 2 := by simp [dumpArray_eq, inner, hb, hc]
    simp only [mergeOne, pairsResult, hlen, and_false, if_false, List.append_nil, List.length_nil,
      toLongLong_zero, add_zero]
  · have hpos := inner_pos pf hp
    have hlen : (Shard.dumpArray pf pairs).length = (inner pf pairs).length + 2 := by
      simp [dumpArray_eq, hb, hc]
      omega
    have hcut : ((Shard.dumpArray pf pairs).drop 1).take ((Shard.dumpArray pf pairs).length - 2) =
        inner pf pairs := by
      rw [hlen, dumpArray_eq, List.append_assoc, List.drop_left' hb, List.take_left' (by omega)]
    have hgt : (Shard.dumpArray pf pairs).length > 2 := by omega
    simp only [mergeOne, pairsResult, hgt, and_self, if_true, hcut]
    congr 1
    by_cases ha : acc = []
    · subst ha
      simp [inner, hb]
    · have hapos := inner_pos pf ha
      rw [if_pos (by simp [hb]; omega), inner_append ha hp]
      simp only [List.append_assoc]

lemma foldl_mergeOne (acc : List (Key × Value)) (rows : ℤ) (arrays : List (List (Key × Value))) :
    (arrays.map (pairsResult pf)).foldl mergeOne (ascii "[" ++ inner pf acc, rows) =
      (ascii "[" ++ inner pf (acc ++ arrays.flatten),
        rows + (arrays.map fun pairs => toLongLong pairs.length).sum) := by
  induction arrays generalizing acc rows with
  | nil => simp only [List.map_nil, List.foldl_nil, List.flatten_nil, List.append_nil, List.sum_nil,
      add_zero]
  | cons pairs arrays ih =>
    rw [List.map_cons, List.foldl_cons, mergeOne_pairs, ih, List.flatten_cons, List.append_assoc,
      List.map_cons, List.sum_cons, add_assoc]

def mergeResults (results : List ResultType) : ResultType :=
  let r := results.foldl mergeOne (ascii "[", 0)
  ⟨.Success, r.1 ++ ascii "]", r.2⟩

lemma mergeResults_pairs (pf : Platform) (arrays : List (List (Key × Value))) :
    mergeResults (arrays.map (pairsResult pf)) = ⟨.Success, Shard.dumpArray pf arrays.flatten,
        (arrays.map fun pairs => toLongLong pairs.length).sum⟩ := by
  have hnil : ascii "[" = ascii "[" ++ inner pf [] := rfl
  rw [mergeResults, hnil, foldl_mergeOne, List.nil_append, zero_add]
  simp only [dumpArray_eq]

def answered (ch : Choices n) (sm : ShardManager n) (valid : ValidationRule) :
    List (Fin n) → Option ℕ → List (List (Key × Value))
  | [], _ => []
  | i :: is, count =>
    let s := sm.shards i
    let r := s.getByEntries valid
      (s.indexManager.findMatching (ch.shard i) valid.func (valid.stopEarly count)) count
    r.1 :: answered ch sm valid is r.2

lemma getByShards_answered (pf : Platform) (ch : Choices n) (sm : ShardManager n)
    (valid : ValidationRule) (is : List (Fin n)) (count : Option ℕ) :
    sm.getByShards pf ch valid is count = (answered ch sm valid is count).map (pairsResult pf) := by
  induction is generalizing count with
  | nil => rfl
  | cons i is ih =>
    rw [getByShards, ih]
    rfl

lemma getByEntries_length_le (s : Shard) (valid : ValidationRule) (entries : List IndexEntry)
    (count : Option ℕ) :
    (s.getByEntries valid entries count).1.length ≤ entries.length := by
  fun_induction Shard.getByEntries s valid entries count with
  | case1 => exact le_rfl
  | case2 => exact Nat.zero_le _
  | case3 count e entries hlive c hc value r hvalue ih => exact ih.trans (Nat.le_succ _)
  | case4 count e entries hlive c hc value r hvalue ih => exact Nat.succ_le_succ ih
  | case5 count e entries hlive ih => exact ih.trans (Nat.le_succ _)

lemma RowsFit.answered (hr : sm.RowsFit) (ch : Choices n) (valid : ValidationRule)
    (is : List (Fin n)) (count : Option ℕ) :
    ((answered ch sm valid is count).map fun pairs => toLongLong pairs.length).sum =
      ((answered ch sm valid is count).flatten.length : ℤ) := by
  induction is generalizing count with
  | nil => rfl
  | cons i is ih =>
    have hentries : ((sm.shards i).indexManager.findMatching (ch.shard i) valid.func
        (valid.stopEarly count)).length ≤ (sm.shards i).matchCount valid.func := by
      rw [← Shard.findMatching_length (sm.shards i) (ch.shard i), IndexManager.findMatching]
      split_ifs
      · exact Nat.zero_le _
      · exact le_rfl
    have hlt := ((getByEntries_length_le (sm.shards i) valid _ count).trans hentries).trans_lt
      (hr.matchCount i valid.func)
    rw [ShardManager.answered, List.map_cons, List.sum_cons, ih, toLongLong_of_lt hlt,
      List.flatten_cons, List.length_append]
    push_cast
    rfl

lemma getBy_answered (pf : Platform) (ch : Choices n) (sm : ShardManager n)
    (valid : ValidationRule) :
    (sm.getBy pf ch valid).response =
      Shard.dumpArray pf (answered ch sm valid (List.finRange n) (some 0)).flatten := by
  have hmerge : sm.getBy pf ch valid =
      mergeResults (sm.getByShards pf ch valid (List.finRange n) (some 0)) := rfl
  rw [hmerge, getByShards_answered, mergeResults_pairs]

lemma getBy_counted (hr : sm.RowsFit) (pf : Platform) (ch : Choices n) (valid : ValidationRule) :
    sm.getBy pf ch valid =
      ⟨.Success, Shard.dumpArray pf (answered ch sm valid (List.finRange n) (some 0)).flatten,
        (answered ch sm valid (List.finRange n) (some 0)).flatten.length⟩ := by
  have hmerge : sm.getBy pf ch valid =
      mergeResults (sm.getByShards pf ch valid (List.finRange n) (some 0)) := rfl
  rw [hmerge, getByShards_answered, mergeResults_pairs, hr.answered]

/-- What a `getBy` answers with: the pairs that match or, with a limit, as many of them as it
allows. -/
structure Picked (m : Store) (valid : ValidationRule) (pairs : List (Key × Value)) : Prop where
  nodup : (pairs.map Prod.fst).Nodup
  mem : ∀ k v, (k, v) ∈ pairs → valid.func k = true ∧ m k = some v
  all : valid.limit = UINT_MAX → ∀ k v, valid.func k = true → m k = some v → (k, v) ∈ pairs
  length : valid.limit ≠ UINT_MAX → pairs.length = min valid.limit (m.matching valid.func).ncard

section Answers

variable [NeZero n]

lemma pairs_flatten (h : sm.Inv pf) {matching : Key → Bool} {p : Fin n → List (Key × Value)}
    (hp : ∀ i, Shard.Pairs (sm.shards i).toMap matching (p i)) :
    Shard.Pairs (sm.toMap pf) matching ((List.finRange n).map p).flatten := by
  constructor
  · have hkeys : ((List.finRange n).map p).flatten.map Prod.fst =
        (List.finRange n).flatMap fun i => (p i).map Prod.fst := by
      rw [List.map_flatten, List.map_map, List.flatMap_def]
      rfl
    rw [hkeys]
    refine nodup_flatMap h (fun i => (hp i).nodup) fun i k hk => ?_
    obtain ⟨⟨k, v⟩, hkv, rfl⟩ := List.mem_map.mp hk
    simp [((hp i).mem k v).mp hkv]
  · intro k v
    simp only [List.mem_flatten, List.mem_map, List.mem_finRange, true_and, exists_exists_eq_and,
      (hp _).mem]
    constructor
    · rintro ⟨i, hf, hk⟩
      refine ⟨hf, ?_⟩
      rw [toMap, h.routed i k (by simp [hk]), hk]
    · rintro ⟨hf, hk⟩
      exact ⟨getShardId pf k, hf, hk⟩

def allPairs (ch : Choices n) (sm : ShardManager n) (func : Key → Bool) (is : List (Fin n)) :
    List (Key × Value) :=
  (is.map fun i => (sm.shards i).matchingPairs (ch.shard i) func).flatten

lemma allPairs_spec (h : sm.Inv pf) (ch : Choices n) (func : Key → Bool) :
    Shard.Pairs (sm.toMap pf) func (allPairs ch sm func (List.finRange n)) :=
  pairs_flatten h fun i => Shard.matchingPairs_spec (h.shard i) (ch.shard i) func

lemma answered_unlimited (h : sm.Inv pf) (ch : Choices n) (hlim : valid.limit = UINT_MAX)
    (is : List (Fin n)) :
    (answered ch sm valid is (some 0)).flatten = allPairs ch sm valid.func is := by
  have hunl : Shard.Unlimited valid (some 0) := Or.inl hlim
  induction is with
  | nil => rfl
  | cons i is ih =>
    have hentries := Shard.getByEntries_unlimited (h.shard i)
      (Shard.listed_findMatching (sm.shards i) (ch.shard i) valid.func false) hunl
    simp only [answered, hunl.stopEarly, hentries, List.flatten_cons, ih, allPairs, List.map_cons]
    rfl

lemma answered_limited (h : sm.Inv pf) (ch : Choices n) (hlim : valid.limit ≠ UINT_MAX)
    (is : List (Fin n)) {c : ℕ} (hc : c ≤ valid.limit) :
    (answered ch sm valid is (some c)).flatten =
      (allPairs ch sm valid.func is).take (valid.limit - c) := by
  induction is generalizing c with
  | nil => simp [answered, allPairs]
  | cons i is ih =>
    have hentries := Shard.getByEntries_limited (h.shard i)
      (Shard.listed_findMatching (sm.shards i) (ch.shard i) valid.func (valid.stopEarly (some c)))
        hlim hc
    simp only [answered, hentries, List.flatten_cons, ih (min_le_left _ _), allPairs, List.map_cons,
      List.take_append]
    by_cases hfull : c ≥ valid.limit
    · obtain rfl : c = valid.limit := le_antisymm hc hfull
      simp
    · have hstop : valid.stopEarly (some c) = false := by
        simp [ValidationRule.stopEarly, hlim, hfull]
      rw [hstop, Shard.matchingPairs, List.map_take, List.length_map]
      congr 2
      omega

lemma pairs_length {m : Store} {func : Key → Bool} {pairs : List (Key × Value)}
    (hp : Shard.Pairs m func pairs) :
    pairs.length = (m.matching func).ncard := by
  have hset : m.matching func = {k | k ∈ pairs.map Prod.fst} := by
    ext k
    simp only [Set.mem_ofPred_eq, List.mem_map, Prod.exists, exists_and_right,
      exists_eq_right, hp.mem, Store.matching, Option.isSome_iff_exists, exists_and_left]
  rw [hset, Set.ncard, encard_list _ hp.nodup, ENat.toNat_natCast, List.length_map]

theorem getBy_spec (ch : Choices n) (h : sm.Inv pf) (hr : sm.RowsFit) (valid : ValidationRule) :
    ∃ pairs, Picked (sm.toMap pf) valid pairs ∧
      sm.getBy pf ch valid = ⟨.Success, Shard.dumpArray pf pairs, pairs.length⟩ := by
  have hall := allPairs_spec h ch valid.func
  refine ⟨_, ?_, getBy_counted hr pf ch valid⟩
  by_cases hlim : valid.limit = UINT_MAX
  · rw [answered_unlimited h ch hlim]
    exact ⟨hall.nodup, fun k v hkv => (hall.mem k v).mp hkv,
      fun _ k v hf hk => (hall.mem k v).mpr ⟨hf, hk⟩, fun hne => absurd hlim hne⟩
  · rw [answered_limited h ch hlim _ (Nat.zero_le _), Nat.sub_zero]
    refine ⟨((List.take_sublist _ _).map _).nodup hall.nodup,
      fun k v hkv => (hall.mem k v).mp (List.mem_of_mem_take hkv),
      fun heq => absurd heq hlim, fun _ => ?_⟩
    rw [List.length_take, pairs_length hall]

theorem get_spec (h : sm.Inv pf) (key : Key) :
    (sm.get pf key).1 = Shard.getResult (sm.toMap pf) key ∧
    Wrote pf sm (sm.get pf key).2 (sm.toMap pf) := by
  obtain ⟨hval, hpath⟩ :=
    Shard.get_spec (A := fun _ _ => False) (B := fun _ => False) (h.shard (getShardId pf key)) key
  obtain ⟨hi, hm⟩ := h.same (hpath.inv (h.shard _)) (hpath.toMap_eq (h.shard _))
  exact ⟨hval, hi, .setShard hpath, hm⟩

lemma allShards_same {x : Fin n → Traced Shard α} (h : sm.Inv pf)
    (hx : ∀ i, (x i (sm.shards i)).final.Inv ∧ (x i (sm.shards i)).final.toMap =
      (sm.shards i).toMap) :
    (allShards x sm).final.Inv pf ∧ (allShards x sm).final.toMap pf = sm.toMap pf := by
  refine ⟨h.of_shards (fun i => ?_) fun i k hk => ?_, ?_⟩
  · rw [allShards_final]
    exact (hx i).1
  · rwa [allShards_final, (hx i).2] at hk
  · funext k
    rw [toMap, allShards_final, (hx _).2]
    rfl

omit [NeZero n] in
lemma allShards_frame {x : Fin n → Traced Shard α} :
    (allShards x sm).final.nextSeq = sm.nextSeq ∧ (allShards x sm).final.settings = sm.settings :=
  (eachShard_run x (List.nodup_finRange n) sm).2.2

theorem flush_spec (h : sm.Inv pf) (ch : Choices n) :
    (flush ch sm).final.Inv pf ∧ (flush ch sm).final.toMap pf = sm.toMap pf ∧
      (flush ch sm).final.settings = sm.settings ∧ (flush ch sm).final.nextSeq = sm.nextSeq ∧
      ∀ i, ((flush ch sm).final.shards i).settings = (sm.shards i).settings := by
  obtain ⟨hi, hm⟩ := allShards_same (x := fun i => Shard.flushData (ch.shard i)) h fun i =>
    ⟨(Shard.flushData_runs (A := fun _ _ => False) (B := fun _ => False) _ _).final.inv (h.shard i),
      Shard.flushData_toMap _ _⟩
  obtain ⟨hi', hm'⟩ :=
    allShards_same (x := fun _ => .step fun s => { s with wal := s.wal.clear }) hi fun i =>
    ⟨⟨(hi.shard i).storage, (hi.shard i).cache, (hi.shard i).entry, (hi.shard i).cached⟩, rfl⟩
  refine ⟨hi', hm'.trans hm, allShards_frame.2.trans allShards_frame.2,
    allShards_frame.1.trans allShards_frame.1, fun i => ?_⟩
  change ((allShards _ (allShards _ sm).final).final.shards i).settings = _
  rw [allShards_final, allShards_final]
  exact (Shard.flushData_runs (A := fun _ _ => False) (B := fun _ => False) (sm.shards i)
    (ch.shard i)).final.frame.1

theorem compactorPass_spec (h : sm.Inv pf) {i : Fin n} (hfew : (sm.shards i).FewKeys)
    (hw : Traced.Within (Each Shard.Bounded) (compactorPass ch i) sm) :
    Wrote pf sm (compactorPass ch i sm).final (sm.toMap pf) := by
  have hw' := within_onShard hw
  have hruns := Shard.compactorPass_runs (h.shard i) hfew hw'
  obtain ⟨hi, hm⟩ := h.same (hruns.final.inv (h.shard i)) (hruns.final.toMap_eq (h.shard i))
  exact ⟨hi, .setShard hruns.final, hm⟩

theorem reloadSettings_spec (h : sm.Inv pf) (settings : Settings) :
    (reloadSettings settings sm).final.Inv pf ∧ (reloadSettings settings sm).final.toMap pf =
      sm.toMap pf ∧ (reloadSettings settings sm).final.settings = settings ∧
      (reloadSettings settings sm).final.nextSeq = sm.nextSeq ∧
      (reloadSettings settings sm).final.Uniform := by
  have h' : ({ sm with settings := settings } : ShardManager n).Inv pf := ⟨h.shard, h.routed⟩
  obtain ⟨hi, hm⟩ := allShards_same (x := fun _ => .step (Shard.reloadSettings settings)) h'
    fun i =>
    Shard.reloadSettings_spec (h.shard i) settings
  refine ⟨hi, hm, allShards_frame.2, allShards_frame.1, fun i => ?_⟩
  change ((allShards _ _).final.shards i).settings = (allShards _ _).final.settings
  rw [allShards_final, allShards_frame.2]
  rfl

end Answers

end Zest.ShardManager
