import ZestDB.Manager.Queries
import ZestDB.Shard.Durable
import ZestDB.Shard.Tidy

/-! Every operation of the manager keeps what every operation of a shard keeps. -/

namespace Zest

open Foundations

def Write.KeyOk : Write → Prop
  | .set key _ => key.length ≤ MAX_KEY_SIZE
  | _ => True

namespace ShardManager

variable {n : ℕ} {α : Type} {P : Shard → Prop} {pf : Platform} {sm : ShardManager n}
  {ch : Choices n} {i : Fin n}
variable {key : Key} {value : Value} {valid : ValidationRule} {w : Write}

lemma onShard_within {x : Traced Shard α} (h : sm.Each P) (hx : Traced.Within P x (sm.shards i)) :
    Traced.Within (Each P) (onShard i x) sm := by
  refine .zoom h hx fun t ht j => ?_
  rw [setShard_shards]
  split_ifs
  · exact ht
  · exact h j

lemma allShards_within {x : Fin n → Traced Shard α} (ht : ∀ i, Traced.Tracked (x i)) (h : sm.Each P)
    (hx : ∀ i, Traced.Within P (x i) (sm.shards i)) : Traced.Within (Each P) (allShards x) sm := by
  intro t hmem
  rcases List.mem_cons.mp hmem with rfl | hmem
  · exact h
  · exact fun j => hx j _ ((eachShard_visited ht (List.nodup_finRange n) sm t hmem).mem j)

lemma countSuccess_within {x : Key → Traced (ShardManager n) ResultType} {keys : List Key}
    {Q L : ShardManager n → Prop} (ht : ∀ k, Traced.Tracked (x k))
    (hx : ∀ k ∈ keys, ∀ sm, Q sm → Traced.Within L (x k) sm → Traced.Within Q (x k) sm)
    (h : Q sm) (hw : Traced.Within L (countSuccess x keys) sm) :
    Traced.Within Q (countSuccess x keys) sm := by
  induction keys generalizing sm with
  | nil => exact .pure _ h
  | cons k keys ih =>
    have hk := hx k (by simp) sm h hw.bind_left
    have hrest := ih (fun j hj => hx j (by simp [hj])) (hk.final (ht k))
      (hw.bind_right (ht k)).bind_left
    have hlast := hrest.final (countSuccess_tracked ht)
    exact .bind hk (.bind hrest (.pure _ hlast))

variable {K : Key → Prop}

lemma key_of_firstMatching (hP : Shard.Kept K P) (h : sm.Each P) {k : Key}
    (hk : k ∈ sm.firstMatchingKeys ch valid) : K k := by
  have hk' : k ∈ (List.finRange n).flatMap fun i => (sm.shards i).matchingKeys
      (ch.shard i) valid := by
    have hmem := (List.mem_insertionSort (· ≤ ·)).mp hk
    simp only [Choice.firstKeys] at hmem
    split_ifs at hmem
    · exact (ch.own.nth_element_perm _ _).mem_iff.mp (List.mem_of_mem_take hmem)
    · exact hmem
  obtain ⟨i, -, hi⟩ := List.mem_flatMap.mp hk'
  have hset := Shard.mem_matchingKeys (sm.shards i) (ch.shard i) valid
  have hmem : k ∈ Store.matching (sm.shards i).toMap valid.func :=
    smallest_subset ((Set.ext_iff.mp hset k).mp hi)
  exact hP.key (h i) hmem.2

section Writes

variable [NeZero n]

lemma set_kept (hP : Shard.Kept K P) (h : sm.Each P) (hv : Shard.ValueOk value) (hk : K key)
    (hw : Traced.Within (Each Shard.Bounded) (set pf key value) sm) :
    Traced.Within (Each P) (set pf key value) sm :=
  onShard_within h (hP.set hv hk _ (h _) (within_onShard hw))

lemma del_kept (hP : Shard.Kept K P) (h : sm.Each P)
    (hw : Traced.Within (Each Shard.Bounded) (del pf key) sm) :
    Traced.Within (Each P) (del pf key) sm :=
  onShard_within h (hP.del key _ (h _) (within_onShard hw))

theorem write_kept (hP : Shard.Kept K P) (h : sm.Each P) (hv : w.ValueOk) (hk : w.KeyOk)
    (hw : Traced.Within (Each Shard.Bounded) (write pf ch w) sm) :
    Traced.Within (Each P) (write pf ch w) sm := by
  cases w with
  | set key value => exact set_kept hP h (hv value rfl) (hP.short hk) hw
  | del key => exact del_kept hP h hw
  | setBy valid value =>
    simp only [write, setBy] at hw ⊢
    split_ifs at hw ⊢
    · refine .bind (.get h) (.bind_pure ?_ (countSuccess_tracked fun _ => set_tracked) _)
      exact countSuccess_within (fun _ => set_tracked) (fun k hk sm' h' hw' =>
        set_kept hP h' (hv value rfl) (key_of_firstMatching hP h hk) hw') h
        (hw.bind_right .get).bind_left
    · refine .bind_pure ?_ (allShards_tracked fun _ => Shard.setBy_tracked) _
      exact allShards_within (fun _ => Shard.setBy_tracked) h fun i =>
        hP.setBy (hv value rfl) _ _ _ _ (h i)
        (within_allShards (fun _ => Shard.setBy_tracked) hw.bind_left i)
  | delBy valid =>
    simp only [write, delBy] at hw ⊢
    split_ifs at hw ⊢
    · refine .bind (.get h) (.bind_pure ?_ (countSuccess_tracked fun _ => del_tracked) _)
      exact countSuccess_within (fun _ => del_tracked) (fun k hk sm' h' hw' => del_kept hP h' hw') h
        (hw.bind_right .get).bind_left
    · refine .bind_pure ?_ (allShards_tracked fun _ => Shard.delBy_tracked) _
      exact allShards_within (fun _ => Shard.delBy_tracked) h fun i =>
        hP.delBy _ _ _ _ (h i) (within_allShards (fun _ => Shard.delBy_tracked) hw.bind_left i)

lemma get_kept (hP : Shard.Kept K P) (h : sm.Each P) (key : Key) : (sm.get pf key).2.Each P := by
  intro j
  change P ((sm.setShard _ _).shards j)
  rw [setShard_shards]
  split_ifs
  · exact hP.get (h _) key
  · exact h j

omit [NeZero n] in
lemma onWals_kept (hP : Shard.Kept K P) (h : sm.Each P) {f : WAL → WAL}
    (hf : ∀ wal, wal.Wf → (f wal).Wf) :
    Traced.Within (Each P)
    (allShards fun _ : Fin n => .step fun s => { s with wal := f s.wal }) sm :=
  allShards_within (fun _ => .step _) h fun i => .step (h i) (hP.wal (h i) (hf _))

omit [NeZero n] in
lemma flush_kept (hP : Shard.Kept K P) (h : sm.Each P) : Traced.Within (Each P) (flush ch) sm := by
  have hd : Traced.Within (Each P) (allShards fun i => Shard.flushData (ch.shard i)) sm :=
    allShards_within (fun _ => Shard.flushData_tracked) h fun i => hP.flushData (h i)
  exact .bind hd (onWals_kept hP (hd.final (allShards_tracked fun _ => Shard.flushData_tracked))
    fun _ hw => hw.clear)

omit [NeZero n] in
lemma reloadSettings_kept (hP : Shard.Kept K P) (h : sm.Each P) (settings : Settings) :
    Traced.Within (Each P) (reloadSettings settings) sm := by
  refine .bind (.step h h) (allShards_within (fun _ => .step _) h fun i => ?_)
  exact .step (h i) (hP.reloadSettings (h i) settings)

omit [NeZero n] in
lemma compactorPass_sound (h : sm.Each Shard.Sound) (hfew : (sm.shards i).FewKeys)
    (hw : Traced.Within (Each Shard.Bounded) (compactorPass ch i) sm) :
    Traced.Within (Each Shard.Sound) (compactorPass ch i) sm :=
  onShard_within h (Shard.compactorPass_sound (h i) hfew (within_onShard hw))

omit [NeZero n] in
lemma compactorPass_tidy (h : sm.Each Shard.Tidy)
    (hw : Traced.Within (Each Shard.Bounded) (compactorPass ch i) sm) :
    Traced.Within (Each Shard.Tidy) (compactorPass ch i) sm :=
  onShard_within h (Shard.compactorPass_tidy _ _ (h i) (within_onShard hw))

lemma appendToWAL_kept (hP : Shard.Kept K P) (h : sm.Each P) (command : Bytes) :
    Traced.Within (Each P) (appendToWAL pf key command) sm := by
  refine .step h fun j => ?_
  change P ((sm.setShard _ _).shards j)
  rw [setShard_shards]
  split_ifs
  · exact hP.wal (h _) fun _ => WAL.append_wf _ _ _
  · exact h j

end Writes

end ShardManager

end Zest
