import ZestDB.Database.Lines
import ZestDB.Shard.CompactionCrash
import ZestDB.Shard.Crowded

/-! A flush and the start of the next process, after any history. -/

namespace Zest.ZestDB

open Foundations

variable {n : ℕ} {pf : Platform} {db : ZestDB n}

section Back

variable [NeZero n]

/-- What the shards opened from the files of the last flush have in common with those that were
flushed. -/
structure CameBack (pf : Platform) (sm : ShardManager n) (disks : Fin n → Shard.Disk)
    (t : ShardManager n) : Prop where
  shard : ∀ i, Shard.CameBack (sm.shards i) (disks i) (t.shards i)
  wal : ∀ i, (disks i).wal = []
  toMap : t.toMap pf = sm.toMap pf

/-- After any history whose compactions list every key, and a flush, the shards made from the files
alone have the same map: INDEX is decoded to its end and no entry of it is removed. -/
theorem flush_comes_back {config : ConfigFile} {settings : Settings} {ch fill : Choices n}
    (hc : config.Typed)
    (hs : settings.Accepted) (hist : History pf True (new config settings ch fill) db)
    (chf : Choices n) {disks : Fin n → Shard.Disk}
    (hd : ∀ i, ((ShardManager.flush chf db.shardManager).final.shards i).Crash (disks i))
    (settings' : Settings) (ch' fill' : Choices n) :
    CameBack pf db.shardManager disks (ShardManager.create settings' ch' fill' disks) := by
  have hg := hist.good (new_good hc hs ch fill)
  have hrest := ShardManager.flush_atRest hg.shards chf
  have hback : ∀ i, Shard.CameBack (db.shardManager.shards i) (disks i)
      ((ShardManager.create settings' ch' fill' disks).shards i) := by
    intro i
    have h := (hrest i).flushed.cameBack (hrest i).sound.inv (hd i) settings' (ch'.shard i)
      (fill'.shard i)
    exact ⟨h.decoded, h.kept, h.toMap.trans (hrest i).toMap⟩
  refine ⟨hback, fun i => (hd i).wal_nil (hrest i).wal, ?_⟩
  funext k
  exact congrFun (hback (ShardManager.getShardId pf k)).toMap k

end Back

def firstValue : ZestDB 1 :=
  let db : ZestDB 1 := new .defaults {} {} {}
  let set : Event 1 := .exec { command := ascii "set a x" }
  ((Event.compact {} 0).run Op.oneHash (set.run Op.oneHash db).final).final

lemma firstValue_history : History Op.oneHash True (new .defaults {} {} {}) firstValue :=
  .tail (.compact {} 0)
  (.tail (.exec { command := ascii "set a x" }) (.refl _) trivial (fun _ => trivial)
    (by decide +kernel)) trivial (fun _ => by decide +kernel) (by decide +kernel)

theorem firstValue_comes_back :
    firstValue.shardManager.toMap Op.oneHash (ascii "a") = some (ascii "x") ∧
      CameBack Op.oneHash firstValue.shardManager
        (fun i => ((ShardManager.flush {} firstValue.shardManager).final.shards i).saved)
        (ShardManager.create { SegSize := 200000 } {} {}
          fun i => ((ShardManager.flush {} firstValue.shardManager).final.shards i).saved) := by
  exact ⟨by decide +kernel,
    flush_comes_back ConfigFile.defaults_typed default_accepted firstValue_history {}
    (fun _ => Shard.saved_crash _) _ _ _⟩


section ManyKeys

open Shard (oneByte Filling)

variable {keys : List Key} {key : Key} {db start : ZestDB 1}

def roomyStart : ZestDB 1 := new ⟨true, some Shard.roomy, ∅, true⟩ Shard.roomy {} {}

def setOne (key : Key) : Event 1 :=
  .exec { command := ascii "set " ++ (key ++ ascii " x"), syncWal := false }

def stored (keys : List Key) : ZestDB 1 :=
  keys.foldl (fun db key => ((setOne key).run Op.oneHash db).final) roomyStart

lemma stored_snoc (keys : List Key) (key : Key) :
    stored (keys ++ [key]) = ((setOne key).run Op.oneHash (stored keys)).final := by
  rw [stored, List.foldl_append]
  rfl

/-- A database with the settings of `roomyStart` whose shard has a byte for each of the keys. -/
structure Stored (db : ZestDB 1) (keys : List Key) : Prop where
  settings : db.settings = Shard.roomy
  shard : (db.shardManager.shards 0).settings = Shard.roomy
  filling : Filling (db.shardManager.shards 0) keys

lemma setOne_asked (hkey : Solid key) :
    asked Op.oneHash
    ({ command := ascii "set " ++ (key ++ ascii " x"), syncWal := false } : Call 1) =
      some (key, .write (.set key oneByte)) := by
  refine asked_set ?_ hkey ⟨⟨120, [], rfl, by decide⟩, fun b hb => ?_⟩ nofun
  · refine ⟨[], ascii "set", ascii " ", ascii " ", [], ?_, by decide +kernel,
      .inl (by decide +kernel), by decide +kernel, by decide +kernel, by decide +kernel⟩
    have hset : ascii "set " = ascii "set" ++ ascii " " := by decide +kernel
    have hx : ascii " x" = ascii " " ++ oneByte := by decide +kernel
    rw [hset, hx]
    simp
  · obtain rfl : (120 : Byte) = b := Option.some.inj hb
    decide

lemma onlyShard_within {α : Type} {x : Traced Shard α}
    (hw : Traced.Within Shard.Bounded x (start.shardManager.shards 0)) (i : Fin 1) :
    Traced.Within (Each Shard.Bounded) (onManager (ShardManager.onShard i x)) start := by
  obtain rfl := Subsingleton.elim 0 i
  have hstart : start.Each Shard.Bounded := fun i => Subsingleton.elim 0 i ▸ hw.start
  refine .zoom (Q := ShardManager.Each Shard.Bounded) hstart ?_ fun _ ht => ht
  refine .zoom (Q := Shard.Bounded) hstart hw fun t ht i => ?_
  rw [ShardManager.setShard_shards, if_pos (Subsingleton.elim _ _)]
  exact ht

lemma onlyShard_final {α : Type} (x : Traced Shard α) (i : Fin 1) :
    (onManager (ShardManager.onShard i x) start).final.shardManager.shards 0 =
      (x (start.shardManager.shards 0)).final := by
  obtain rfl := Subsingleton.elim 0 i
  change (ShardManager.setShard _ _ _).shards 0 = _
  rw [ShardManager.setShard_shards, if_pos rfl]

lemma log_within (h : start.Each Shard.Bounded) (key command : Bytes) :
    Traced.Within (Each Shard.Bounded) (log Op.oneHash key command false) start := by
  intro u hu
  rcases List.mem_cons.mp hu with rfl | hu
  · exact h
  · have hfinal : u = (log Op.oneHash key command false start).final := List.mem_singleton.mp hu
    intro i
    obtain ⟨wal, hwal⟩ := log_shard Op.oneHash key command false start i
    rw [hfinal, hwal]
    exact ⟨(h i).storage, (h i).segSize⟩

lemma Stored.log (h : Stored start keys) (key command : Bytes) (syncWal : Bool) :
    Stored (log Op.oneHash key command syncWal start).final keys := by
  obtain ⟨wal, hwal⟩ := log_shard Op.oneHash key command syncWal start 0
  refine ⟨?_, ?_, ?_⟩
  · rw [log_settings]
    exact h.settings
  · rw [hwal]
    exact h.shard
  · rw [hwal]
    exact ⟨h.filling.latest, h.filling.segment, h.filling.only, h.filling.tree, h.filling.all⟩

/-- The write of the command, before it is logged. -/
lemma Stored.write (h : Stored start keys) (hg : start.Good) (hsize : key.length ≤ 64)
    (hlen : keys.length < 2 ^ 33) (ch : Choices 1) :
    Traced.Within (Each Shard.Bounded) (write Op.oneHash ch (.set key oneByte)) start ∧
      (write Op.oneHash ch (.set key oneByte) start).val = ⟨.Success, Messages.SUCCESS_SET, 1⟩ ∧
      (write Op.oneHash ch (.set key oneByte) start).final.replaying = false ∧
      Stored (write Op.oneHash ch (.set key oneByte) start).final (keys ++ [key]) := by
  have hroom : (start.shardManager.shards 0).settings.SegSize = 2 ^ 33 := by
    rw [h.shard]
    rfl
  obtain ⟨hw, hval, hsame, hnext⟩ :=
    h.filling.set (hg.shards 0).inv.storage (by rw [hroom]; exact hlen) (by rw [hroom]; decide) key
  have hr : refusal Op.oneHash start.settings (!start.replaying) (.set key oneByte) = none := by
    have hle : validateKey Shard.roomy key = true := decide_eq_true hsize
    simp only [refusal, hg.replaying, h.settings, hle]
    rfl
  have hwrite : ZestDB.write Op.oneHash ch (.set key oneByte) start =
      onManager (ShardManager.set Op.oneHash key oneByte) start := write_accepted hr
  have hid : ShardManager.getShardId Op.oneHash key = (0 : Fin 1) := Subsingleton.elim _ _
  have hshard :
      (onManager (ShardManager.set Op.oneHash key oneByte) start).final.shardManager.shards 0 =
        (Shard.set key oneByte (start.shardManager.shards 0)).final :=
    onlyShard_final (Shard.set key oneByte) (ShardManager.getShardId Op.oneHash key)
  refine ⟨?_, ?_, ?_, ?_⟩
  · rw [Traced.Within, hwrite]
    exact onlyShard_within hw _
  · rw [hwrite]
    change (Shard.set key oneByte
      (start.shardManager.shards (ShardManager.getShardId Op.oneHash key))).val = _
    rw [hid, hval]
  · rw [hwrite]
    exact hg.replaying
  · rw [hwrite]
    refine ⟨h.settings, ?_, ?_⟩
    · exact (congrArg Shard.settings hshard).trans (hsame.trans h.shard)
    · exact hshard ▸ hnext

lemma setOne_run (h : Stored start keys) (hg : start.Good) (hkey : Solid key)
    (hsize : key.length ≤ 64) (hlen : keys.length < 2 ^ 33) :
    Traced.Within (Each Shard.Bounded) ((setOne key).run Op.oneHash) start ∧
      Stored ((setOne key).run Op.oneHash start).final (keys ++ [key]) := by
  obtain ⟨c, hc⟩ : ∃ c : Call 1, c =
      { command := ascii "set " ++ (key ++ ascii " x"), syncWal := false } := ⟨_, rfl⟩
  obtain ⟨hwithin, hval, hquiet, hnext⟩ := h.write hg hsize hlen c.choices
  have hrun : (setOne key).run Op.oneHash = (do
      let _ ← (some <$> writeAndLog Op.oneHash c key
          (.set key oneByte) : Traced (ZestDB 1) (Option ResultType))
      pure ()) := by
    rw [setOne, Event.run, ← hc, execCmd_some (hc ▸ setOne_asked hkey)]
    rfl
  obtain ⟨u, hu⟩ : ∃ u, u = (write Op.oneHash c.choices (.set key oneByte) start).final := ⟨_, rfl⟩
  rw [← hu] at hquiet hnext
  refine ⟨?_, ?_⟩
  · have hbounded : u.Each Shard.Bounded := hu ▸ hwithin.final write_tracked
    have hl : Traced.Within (Each Shard.Bounded) (log Op.oneHash key c.command c.syncWal) u := by
      rw [hc]
      exact log_within hbounded key _
    have hlog : Traced.Within (Each Shard.Bounded)
        (writeAndLog Op.oneHash c key (.set key oneByte)) start := by
      refine .bind hwithin ?_
      rw [hval, ← hu, Traced.Within.get_bind_iff, if_pos (by rw [hquiet]; rfl)]
      exact .bind hl (.pure _ (hl.final log_tracked))
    rw [hrun]
    exact .bind_pure (.bind_pure hlog writeAndLog_tracked _)
      (.bind writeAndLog_tracked fun _ => .pure _) _
  · have hfinal : ((setOne key).run Op.oneHash start).final =
        (log Op.oneHash key c.command c.syncWal u).final := by
      rw [hrun]
      change (writeAndLog Op.oneHash c key (.set key oneByte) start).final = _
      rw [writeAndLog_final, hval, ← hu, if_pos (by rw [hquiet]; rfl)]
    rw [hfinal]
    exact hnext.log _ _ _

lemma roomy_accepted : Settings.Accepted
    Shard.roomy := ⟨⟨by decide, by decide, by decide⟩, by decide, by decide⟩

lemma roomyStart_good : roomyStart.Good :=
  new_good (fun s hs => by
    obtain rfl := Option.mem_some_iff.mp hs; exact roomy_accepted.typed) roomy_accepted {} {}

lemma stored_spec (hsolid : ∀ k ∈ keys, Solid k) (hsize : ∀ k ∈ keys, k.length ≤ 64)
    (hlen : keys.length ≤ 2 ^ 33) :
    (∀ few, History Op.oneHash few roomyStart (stored keys)) ∧ Stored (stored keys) keys := by
  induction keys using List.reverseRecOn with
  | nil => exact ⟨fun few => .refl _, rfl, rfl, Shard.filling_nil⟩
  | append_singleton keys key ih =>
    rw [List.length_append, List.length_singleton] at hlen
    obtain ⟨hist, hstored⟩ := ih (fun k hk => hsolid k (List.mem_append_left _ hk))
      (fun k hk => hsize k (List.mem_append_left _ hk)) (by omega)
    have hlast : key ∈ keys ++ [key] := List.mem_append_right _ List.mem_cons_self
    obtain ⟨hwithin, hnext⟩ :=
      setOne_run hstored ((hist True).good roomyStart_good) (hsolid key hlast)
      (hsize key hlast) hlen
    rw [stored_snoc]
    exact ⟨fun few => .tail (setOne key) (hist few) trivial (fun _ => trivial) hwithin, hnext⟩

def forgotten (keys : List Key) : ZestDB 1 :=
  ((Event.compact {} 0).run Op.oneHash (stored keys)).final

lemma forgotten_spec (hsolid : ∀ k ∈ keys, Solid k) (hsize : ∀ k ∈ keys, k.length ≤ 64)
    (hn : keys.Nodup) (hmany : UINT_MAX < keys.length) (hlen : keys.length ≤ 2 ^ 33) :
    History Op.oneHash False roomyStart (forgotten keys) ∧
      ((forgotten keys).shardManager.shards 0).indexManager.index.pending = [] ∧
      ∃ k, (forgotten keys).shardManager.toMap Op.oneHash k ≠ none ∧
        ∀ disk, ((ShardManager.flush {} (forgotten keys).shardManager).final.shards 0).Crash disk →
          ∀ settings ch fill, (Shard.reopen settings ch fill disk).toMap k = none := by
  obtain ⟨hist, hstored⟩ := stored_spec hsolid hsize hlen
  have hsound := ((hist True).good roomyStart_good).shards 0
  have hfew : ¬ ((stored keys).shardManager.shards 0).FewKeys := by
    intro hle
    exact absurd ((IndexManager.keys_le hn hstored.filling.all).trans hle) (not_le.mpr hmany)
  have hbounded : ((stored keys).shardManager.shards 0).Bounded := by
    refine ⟨hstored.filling.storage_limits (hlen.trans_lt (by decide)), ?_⟩
    rw [hstored.shard]
    decide
  obtain ⟨hwithin, hindex, k, hk, hlost⟩ :=
    hstored.filling.forgets hbounded hsound.logged hfew .plain .plain
  obtain ⟨db, hdb⟩ : ∃ db, db = stored keys := ⟨_, rfl⟩
  rw [← hdb] at hwithin hk hlost hist hstored hbounded
  have hshard : (forgotten keys).shardManager.shards 0 =
      (Shard.compactorPass .plain (db.shardManager.shards 0)).final := by
    rw [forgotten, ← hdb]
    exact onlyShard_final _ 0
  have hid : ∀ key, ShardManager.getShardId Op.oneHash key = (0 : Fin 1) :=
    fun _ => Subsingleton.elim _ _
  refine ⟨?_, by rw [hshard, hdb, hindex]; rfl, k, ?_,
    fun disk hdisk settings ch fill => hlost disk ?_ settings ch fill⟩
  · rw [forgotten, ← hdb]
    exact .tail (.compact {} 0) (hist False) trivial nofun (onlyShard_within hwithin 0)
  · rw [ShardManager.toMap, hid, hshard]
    exact hk
  · have hindex := hdisk.index
    rw [ShardManager.flush_shards, hshard] at hindex
    exact hindex

lemma forgotten_manyKeys :
    History Op.oneHash False roomyStart (forgotten IndexManager.manyKeys) ∧
      ((forgotten IndexManager.manyKeys).shardManager.shards 0).indexManager.index.pending = [] ∧
      ∃ k, (forgotten IndexManager.manyKeys).shardManager.toMap Op.oneHash k ≠ none ∧ ∀ disk,
          ((ShardManager.flush {} (forgotten IndexManager.manyKeys).shardManager).final.shards
            0).Crash disk →
          ∀ settings ch fill, (Shard.reopen settings ch fill disk).toMap k = none := by
  have hlen := IndexManager.manyKeys_length
  refine forgotten_spec (fun k hk => ⟨?_, fun b hb => ?_⟩)
    (fun k hk => ?_) IndexManager.manyKeys_nodup
    (by rw [hlen]; norm_num [UINT_MAX]) (by rw [hlen]; omega)
  · exact List.ne_nil_of_length_pos (by rw [IndexManager.length_of_mem_manyKeys hk]; decide)
  · have hblank : ∀ b : Byte, 128 ≤ b → isBlank b = false := by decide +kernel
    exact hblank b (IndexManager.le_of_mem_manyKeys hk hb)
  · rw [IndexManager.length_of_mem_manyKeys hk]
    decide

lemma not_cameBack {disks : Fin 1 → Shard.Disk} {settings : Settings} {ch fill : Choices 1}
    (hk : db.shardManager.toMap Op.oneHash key ≠ none)
    (hlost : (Shard.reopen settings (ch.shard 0) (fill.shard 0) (disks 0)).toMap key = none) :
    ¬ CameBack Op.oneHash db.shardManager disks (ShardManager.create settings ch fill disks) := by
  intro hback
  have hmap := congrFun (hback.shard 0).toMap key
  have hid : ShardManager.getShardId Op.oneHash key = (0 : Fin 1) := Subsingleton.elim _ _
  rw [ShardManager.toMap, hid, ← hmap] at hk
  exact hk hlost

/-- A pass over 2^32 keys leaves one out of INDEX, and the next process does not have it. -/
theorem forgotten_not_comes_back :
    History Op.oneHash False roomyStart (forgotten IndexManager.manyKeys) ∧
      ¬ CameBack Op.oneHash (forgotten IndexManager.manyKeys).shardManager
        (fun i =>
          ((ShardManager.flush {} (forgotten IndexManager.manyKeys).shardManager).final.shards
            i).saved)
        (ShardManager.create Shard.roomy {} {}
          fun i =>
            ((ShardManager.flush {} (forgotten IndexManager.manyKeys).shardManager).final.shards
              i).saved) := by
  obtain ⟨hist, -, k, hk, hlost⟩ := forgotten_manyKeys
  exact ⟨hist, not_cameBack hk (hlost _ (Shard.saved_crash _) _ _ _)⟩

end ManyKeys

end Zest.ZestDB
