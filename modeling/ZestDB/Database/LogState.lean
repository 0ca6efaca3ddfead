import ZestDB.Database.Effect

/-! The WALs, the counter of their records and the flag of the replay: the operations on the shards,
the reads and the changes of the settings leave them as they are. -/

namespace Zest

open Foundations Traced

namespace Shard

lemma onStorage_keeps {α : Type} (x : Traced StorageManager α) : Keeps Shard.wal (onStorage x) :=
  fun _ => rfl

lemma set_keeps (key : Key) (value : Value) : Keeps Shard.wal (set key value) :=
  .bind .get fun _ => .bind (onStorage_keeps _) fun _ => .ite (.pure _)
  (.bind (.step fun _ => rfl) fun _ => .pure _)

lemma del_keeps (key : Key) : Keeps Shard.wal (del key) :=
  .bind (.step fun _ => rfl) fun _ => .bind .get fun _ => .ite
  (.bind (.step fun _ => rfl) fun _ => .pure _) (.pure _)

lemma setByEntries_keeps (valid : ValidationRule) (value : Value) (entries : List IndexEntry)
    (count : Option ℕ) :
    Keeps Shard.wal (setByEntries valid value entries count) := by
  induction entries generalizing count with
  | nil => exact .pure _
  | cons entry entries ih =>
    rw [setByEntries]
    refine .ite ?_ (ih count)
    cases valid.claim count with
    | none => exact .pure _
    | some claimed =>
      exact .bind .get fun _ => .bind (onStorage_keeps _) fun _ => .ite (ih count)
        (.bind (.step fun _ => rfl) fun _ => .bind (ih claimed) fun _ => .pure _)

lemma setBy_keeps (ch : Choice) (valid : ValidationRule) (value : Value) (count : Option ℕ) :
    Keeps Shard.wal (setBy ch valid value count) :=
  .bind .get fun _ => .bind (setByEntries_keeps _ _ _ _) fun _ => .pure _

lemma delByEntries_keeps (valid : ValidationRule) (entries : List IndexEntry) (count : Option ℕ) :
    Keeps Shard.wal (delByEntries valid entries count) := by
  induction entries generalizing count with
  | nil => exact .pure _
  | cons entry entries ih =>
    rw [delByEntries]
    refine .ite ?_ (ih count)
    cases valid.claim count with
    | none => exact .pure _
    | some claimed => exact .bind (.step fun _ => rfl) fun _ => .bind (ih claimed) fun _ => .pure _

lemma delBy_keeps (ch : Choice) (valid : ValidationRule) (count : Option ℕ) :
    Keeps Shard.wal (delBy ch valid count) :=
  .bind .get fun _ => .bind (delByEntries_keeps _ _ _) fun _ => .pure _

lemma flushData_keeps (ch : Choice) : Keeps Shard.wal (flushData ch) :=
  .bind (onStorage_keeps _) fun _ => .step fun _ => rfl

lemma relocate_keeps (stay : IndexEntry → Bool) (entries : List IndexEntry) :
    Keeps Shard.wal (relocate stay entries) := by
  induction entries with
  | nil => exact .pure _
  | cons entry entries ih =>
    refine .bind .get fun _ => .ite (.bind ih fun _ => .pure _)
      (.bind (onStorage_keeps _) fun _ => .ite ?_ ?_)
    · exact .bind ih fun _ => .pure _
    · exact .bind (.step fun _ => rfl) fun _ => .bind ih fun _ => .pure _

lemma compactorPass_keeps (ch : Choice) : Keeps Shard.wal (compactorPass ch) := by
  refine .bind (.bind .get fun _ => .bind (.step fun _ => rfl) fun _ => .pure _) fun _ => .bind .get
    fun _ =>
    .bind (relocate_keeps _ _) fun _ => .bind (.ite (flushData_keeps ch) (.pure _)) fun _ =>
      onStorage_keeps _

end Shard

namespace ShardManager

variable {n : ℕ} {α : Type}

def logState (sm : ShardManager n) : (Fin n → WAL) × ℕ := (fun i => (sm.shards i).wal, sm.nextSeq)

lemma onShard_keeps {x : Traced Shard α} (hx : Keeps Shard.wal x) (i : Fin n) :
    Keeps logState (onShard i x) := by
  refine .zoom (fun t sm ht => ?_) hx
  refine Prod.ext (funext fun j => ?_) rfl
  change ((sm.setShard i t).shards j).wal = (sm.shards j).wal
  rw [setShard_shards]
  split_ifs with hj
  · rw [hj]
    exact ht
  · rfl

lemma eachShard_keeps {x : Fin n → Traced Shard α} (hx : ∀ i, Keeps Shard.wal (x i))
    (is : List (Fin n)) :
    Keeps logState (eachShard x is) := by
  induction is with
  | nil => exact .pure _
  | cons i is ih => exact .bind (onShard_keeps (hx i) i) fun _ => .bind ih fun _ => .pure _

lemma countSuccess_keeps {x : Key → Traced (ShardManager n) ResultType}
    (hx : ∀ key, Keeps logState (x key))
    (keys : List Key) : Keeps logState (countSuccess x keys) := by
  induction keys with
  | nil => exact .pure _
  | cons key keys ih => exact .bind (hx key) fun _ => .bind ih fun _ => .pure _

lemma write_keeps [NeZero n] (pf : Platform) (ch : Choices n) (w : Write) :
    Keeps logState (write pf ch w) := by
  cases w with
  | set key value => exact onShard_keeps (Shard.set_keeps key value) _
  | del key => exact onShard_keeps (Shard.del_keeps key) _
  | setBy valid value =>
    refine .ite (.bind .get fun _ => .bind (countSuccess_keeps (fun key => ?_) _) fun _ => .pure _)
      ?_
    · exact onShard_keeps (Shard.set_keeps key value) _
    · exact .bind (eachShard_keeps (fun i => Shard.setBy_keeps _ valid value _) _) fun _ => .pure _
  | delBy valid =>
    refine .ite (.bind .get fun _ => .bind (countSuccess_keeps (fun key => ?_) _) fun _ => .pure _)
      ?_
    · exact onShard_keeps (Shard.del_keeps key) _
    · exact .bind (eachShard_keeps (fun i => Shard.delBy_keeps _ valid _) _) fun _ => .pure _

lemma get_keeps [NeZero n] (pf : Platform) (key : Key) (sm : ShardManager n) :
    (sm.get pf key).2.logState = sm.logState := by
  refine onShard_keeps (x := .step fun s => (s.get key).2) (.step fun s => ?_)
    (getShardId pf key) sm
  simp only [Shard.get]
  split_ifs <;> rfl

lemma reloadSettings_keeps (settings : Settings) : Keeps (logState (n := n))
    (reloadSettings settings) :=
  .bind (.step fun _ => rfl) fun _ => eachShard_keeps
  (fun _ => .step (f := Shard.reloadSettings settings) fun _ => rfl) _

end ShardManager

namespace ZestDB

variable {n : ℕ} {α : Type}

def logState (db : ZestDB n) : ((Fin n → WAL) × ℕ) × Bool :=
  (db.shardManager.logState, db.replaying)

lemma onManager_keeps {x : Traced (ShardManager n) α} (hx : Keeps ShardManager.logState x) :
    Keeps logState (onManager x) :=
  .zoom (fun _ db ht => congrArg (·, db.replaying) ht) hx

lemma onManager_flag (x : Traced (ShardManager n) α) : Keeps ZestDB.replaying (onManager x) :=
  fun _ => rfl

lemma writeAndLog_flag [NeZero n] (pf : Platform) (c : Call n) (key : Bytes) (w : Write) :
    Keeps ZestDB.replaying (writeAndLog pf c key w) := by
  have hlog : Keeps (ZestDB.replaying (n := n)) (log pf key c.command c.syncWal) :=
    .bind (onManager_flag _) fun _ => .ite (.bind (onManager_flag _) fun _ => .pure _) (.pure _)
  refine .bind (.bind .get fun db => ?_) fun r => .bind .get fun db => .ite
    (.bind hlog fun _ => .pure _) (.pure _)
  cases refusal pf db.settings (!db.replaying) w with
  | none => exact onManager_flag _
  | some message => exact .pure _

lemma reloadShards_keeps (settings : Settings) : Keeps (logState (n := n)) (reloadShards
    settings) :=
  .bind (onManager_keeps (ShardManager.reloadSettings_keeps settings)) fun _ => .pure _

lemma reloadConfig_keeps (pf : Platform) : Keeps (logState (n := n)) (reloadConfig pf) := by
  refine .bind .get fun db => ?_
  cases reloadedSettings pf db.config db.settings with
  | error message => exact .pure _
  | ok settings =>
    exact .bind (.step fun _ => rfl) fun _ => .bind (reloadShards_keeps settings) fun _ => .pure _

lemma scfg_keeps (pf : Platform) (rewritten : TypedConfig) (param value : Bytes) :
    Keeps (logState (n := n)) (scfg pf rewritten param value) := by
  refine .bind .get fun db => ?_
  cases setParam pf db.settings param value with
  | error message => exact .pure _
  | ok settings =>
    refine .bind (.step fun _ => rfl) fun _ => .ite ?_ (.pure _)
    exact .bind (.step fun _ => rfl) fun _ => .bind (reloadShards_keeps settings) fun _ => .pure _

lemma get_keeps [NeZero n] (pf : Platform) (key : Key) : Keeps (logState (n := n))
    (get pf key) := by
  refine .bind .get fun db => .ite (.pure _) (.bind (.step fun db => ?_) fun _ => .pure _)
  exact congrArg (·, db.replaying) (ShardManager.get_keeps pf key db.shardManager)

end ZestDB

end Zest
