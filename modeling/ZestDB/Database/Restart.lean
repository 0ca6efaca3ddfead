import ZestDB.Database.Sound
import ZestDB.Manager.Refinement

/-! A flush and a restart: the shards come back from INDEX and their segments with the map they
had. -/

namespace Zest

open Foundations

namespace ShardManager

variable {n : ℕ} {sm : ShardManager n} {ch : Choices n} {i : Fin n}

lemma flush_shards (sm : ShardManager n) (ch : Choices n) (i : Fin n) :
    (flush ch sm).final.shards i =
      { (Shard.flushData (ch.shard i) (sm.shards i)).final with
        wal := (Shard.flushData (ch.shard i) (sm.shards i)).final.wal.clear } := by
  change (allShards _ (allShards _ sm).final).final.shards i = _
  rw [allShards_final, allShards_final]
  rfl

structure AtRest (s t : Shard) : Prop where
  sound : t.Sound
  flushed : t.Flushed
  wal : t.wal.file.content = []
  toMap : t.toMap = s.toMap

lemma flush_atRest (h : sm.Each Shard.Sound) (ch : Choices n) (i : Fin n) :
    AtRest (sm.shards i) ((flush ch sm).final.shards i) := by
  have hd : (Shard.flushData (ch.shard i) (sm.shards i)).final.Sound :=
    (Shard.flushData_sound (h i)).final Shard.flushData_tracked
  have hf := Shard.flushData_flushed (h i).inv (h i).logged (ch.shard i)
  rw [flush_shards]
  exact ⟨hd.of_wal hd.wal.clear, ⟨hf.index, hf.segment⟩, hd.wal.clear_content,
    Shard.flushData_toMap _ _⟩

lemma AtRest.few {s t : Shard} (h : AtRest s t) (hfew : s.FewKeys) : t.FewKeys :=
  hfew.of_toMap h.toMap

lemma AtRest.disk_ok {s t : Shard} {disk : Shard.Disk} (h : AtRest s t) (hfew : s.FewKeys)
    (hc : t.Crash disk) : disk.Ok :=
  (h.flushed.settled h.sound.inv).disk_ok (h.few hfew) hc

lemma walEntries_nil (h : ∀ i, (sm.shards i).wal.file.content = []) : sm.walEntries = [] := by
  have hnil : ((List.finRange n).flatMap fun i => (sm.shards i).wal.getCmds) = [] :=
    List.flatMap_eq_nil_iff.mpr fun i _ => WAL.getCmds_nil (h i)
  rw [walEntries, hnil]
  rfl

end ShardManager

namespace Shard

variable {s t : Shard} {disk : Disk}

lemma Crash.wal_nil (hc : s.Crash disk) (h : s.wal.file.content = []) : disk.wal = [] := by
  have hle := hc.wal.le_content
  rw [h] at hle
  exact List.prefix_nil.mp hle

end Shard

namespace ZestDB

variable {n : ℕ} {pf : Platform} {db : ZestDB n}

def restart [NeZero n] (pf : Platform) (ch fill : Choices n) : Traced (ZestDB n) Unit := do
  flush ch
  let db ← .get
  match loadConfig pf db.config with
  | none => pure ()
  | some settings => do
    .step fun db => construct db.config settings ch fill fun i => (db.shardManager.shards i).saved
    replayWAL pf fun _ => ch

/-- What happens to a database between its first start and its last flush. -/
inductive Event (n : ℕ) where
  | exec (c : Call n)
  | compact (ch : Choices n) (i : Fin n)
  | edit (file : ConfigFile)
  | restart (ch fill : Choices n)

namespace Event

def run [NeZero n] (pf : Platform) : Event n → Traced (ZestDB n) Unit
  | .exec c => do
    let _ ← execCmd pf c
    pure ()
  | .compact ch i => onManager (ShardManager.compactorPass ch i)
  | .edit file => .step fun db => { db with config := file }
  | .restart ch fill => ZestDB.restart pf ch fill

/-- The values of an edited file are values of their types. -/
def Typed : Event n → Prop
  | .edit file => file.Typed
  | _ => True

end Event

section Run

variable [NeZero n]

lemma replayWAL_empty (h : db.shardManager.walEntries = []) (ch : ℕ → Choices n) :
    (replayWAL pf ch db).final = { db with replaying := false, shardManager := (ShardManager.flush
        (ch 0) db.shardManager).final } := by
  have hadvance : ShardManager.advanceAll [] db.shardManager = db.shardManager := rfl
  simp only [replayWAL, replayAllWAL, flush, onManager, Traced.bind_final, Traced.get_run,
    Traced.step_run, Traced.zoom_final, h, replayEntries, Traced.pure_run, hadvance,
    List.length_nil]

variable {P : Shard → Prop} {K : Key → Prop}

lemma restart_steady (hP : Shard.Kept K P) (hwf : ∀ s, P s → s.wal.Wf) (h : db.Steady P)
    (ch fill : Choices n)
    (hopen : ∀ settings i, P (Shard.reopen settings (ch.shard i) (fill.shard i)
      ((flush ch db).final.shardManager.shards i).saved)) :
      (restart pf ch fill db).final.Steady P := by
  have hg : (flush ch db).final.Steady P := (flush_steady hP h).final flush_tracked
  change (((match loadConfig pf (flush ch db).final.config with | none => _ | some settings => _) :
    Traced (ZestDB n) Unit) (flush ch db).final).final.Steady P
  cases hl : loadConfig pf (flush ch db).final.config with
  | none => exact hg
  | some settings =>
    obtain ⟨disks, hdisks⟩ : ∃ disks : Fin n → Shard.Disk, disks = fun i =>
        ((flush ch db).final.shardManager.shards i).saved := ⟨_, rfl⟩
    have hnew : (ShardManager.create settings ch fill disks).Each P := by
      rw [hdisks]
      exact hopen settings
    change (replayWAL pf (fun _ => ch)
      (construct (flush ch db).final.config settings ch fill _)).final.Steady P
    rw [← hdisks, replayWAL_empty]
    · refine ⟨?_, loadConfig_accepted hg.config hl, hg.config, rfl⟩
      exact (ShardManager.flush_kept hP hnew).final (.bind (ShardManager.allShards_tracked fun _ =>
        Shard.flushData_tracked)
        fun _ => ShardManager.allShards_tracked fun _ => .step _)
    · refine ShardManager.walEntries_nil fun i => ?_
      have hempty : ((flush ch db).final.shardManager.shards i).wal.file.content = [] := by
        change ((ShardManager.flush ch db.shardManager).final.shards i).wal.file.content = []
        rw [ShardManager.flush_shards]
        exact (hwf _ ((hP.flushData (h.shards i)).final Shard.flushData_tracked)).clear_content
      change (Shard.reopen settings (ch.shard i) (fill.shard i) (disks i)).wal.file.content = []
      rw [(Shard.reopen_opened _ _ _ _).2.2, hdisks]
      change (WAL.openWal ((flush ch db).final.shardManager.shards i).saved.wal).file.content = []
      rw [(Shard.saved_crash _).wal_nil hempty]
      rfl

def Event.Few (db : ZestDB n) : Event n → Prop
  | .compact _ i => (db.shardManager.shards i).FewKeys
  | .restart _ _ => db.Each Shard.FewKeys
  | _ => True

instance (db : ZestDB n) (e : Event n) : Decidable (e.Few db) := by
  cases e <;> simp only [Event.Few] <;> infer_instance

lemma Event.run_steady {e : Event n} (hP : Shard.Kept K P) (h : db.Steady P) (ht : e.Typed)
    (hw : Traced.Within (Each Shard.Bounded) (e.run pf) db)
    (hcompact : ∀ ch i, e = .compact ch i →
      Traced.Within (ShardManager.Each P) (ShardManager.compactorPass ch i) db.shardManager)
    (hrestart : ∀ ch fill, e = .restart ch fill → (ZestDB.restart pf ch fill db).final.Steady P) :
    (e.run pf db).final.Steady P := by
  cases e with
  | exec c => exact (execCmd_steady hP h hw.bind_left).final execCmd_tracked
  | compact ch i =>
    exact (onManager_steady h (hcompact ch i rfl)).final
      (onManager_tracked (ShardManager.onShard_tracked Shard.compactorPass_tracked i))
  | edit file => exact ⟨h.shards, h.accepted, ht, h.replaying⟩
  | restart ch fill => exact hrestart ch fill rfl

/-- The events one after the other, and the limits on the way; with `few`, each compaction lists
every key. -/
inductive History (pf : Platform) (few : Prop) : ZestDB n → ZestDB n → Prop
  | refl (db : ZestDB n) : History pf few db db
  | tail {db db' : ZestDB n} (e : Event n) : History pf few db db' → e.Typed → (few → e.Few db') →
      Traced.Within (Each Shard.Bounded) (e.run pf) db' → History pf few db (e.run pf db').final

lemma History.good {db' : ZestDB n} (h : db.Good) (hist : History pf True db db') : db'.Good := by
  induction hist with
  | refl => exact h
  | @tail db' e _ ht hfew hw ih =>
    refine Event.run_steady Shard.sound_kept ih ht hw (fun ch i he => ?_) fun ch fill he => ?_
    · subst he
      exact ShardManager.compactorPass_sound ih.shards (hfew trivial) (within_onManager hw)
    · subst he
      refine restart_steady Shard.sound_kept (fun s hs => hs.wal) ih ch fill fun settings i => ?_
      have hrest := ShardManager.flush_atRest ih.shards ch i
      have hcrash := Shard.saved_crash ((flush ch db').final.shardManager.shards i)
      exact Shard.reopen_sound _ _ _ (hrest.disk_ok (hfew trivial i) hcrash)

lemma History.tidy {few : Prop} {db' : ZestDB n} (h : db.Steady Shard.Tidy)
    (hist : History pf few db db') :
    db'.Steady Shard.Tidy := by
  induction hist with
  | refl => exact h
  | tail e _ ht _ hw ih =>
    refine Event.run_steady Shard.tidy_kept ih ht hw (fun ch i he => ?_) fun ch fill he => ?_
    · subst he
      exact ShardManager.compactorPass_tidy ih.shards (within_onManager hw)
    · exact restart_steady Shard.tidy_kept (fun s hs => hs.wal) ih ch fill fun settings i =>
        Shard.reopen_tidy _ _ _ _

def new (config : ConfigFile) (settings : Settings) (ch fill : Choices n) : ZestDB n :=
  construct config settings ch fill fun _ => .empty

omit [NeZero n] in
lemma new_good {config : ConfigFile} {settings : Settings} (hc : config.Typed)
    (hs : settings.Accepted) (ch fill : Choices n) : (new config settings ch fill).Good :=
  ⟨fun _ => Shard.reopen_sound _ _ _ Shard.empty_ok, hs, hc, rfl⟩

omit [NeZero n] in
lemma new_tidy {config : ConfigFile} {settings : Settings} (hc : config.Typed)
    (hs : settings.Accepted)
    (ch fill : Choices n) : (new config settings ch fill).Steady Shard.Tidy :=
  ⟨fun _ => Shard.reopen_tidy _ _ _ _, hs, hc, rfl⟩

end Run

lemma default_accepted : Settings.Accepted {} :=
  ⟨⟨by decide, by decide, by decide⟩, by decide, by decide⟩

end ZestDB

end Zest
