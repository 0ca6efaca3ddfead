import ZestDB.Database.Defs
import ZestDB.Manager.Sound

/-! Every command keeps what every operation of a shard keeps, and the settings accepted. -/

namespace Zest.ZestDB

open Foundations

variable {n : ℕ} {α : Type} {P : Shard → Prop} {K : Key → Prop} {pf : Platform} {db : ZestDB n}
  {w : Write} {c : Call n}
variable {ch : Choices n}

def Each (P : Shard → Prop) (db : ZestDB n) : Prop := db.shardManager.Each P

instance {P : Shard → Prop} [DecidablePred P] (db : ZestDB n) : Decidable (db.Each P) :=
  inferInstanceAs (Decidable (db.shardManager.Each P))

structure Steady (P : Shard → Prop) (db : ZestDB n) : Prop where
  shards : db.Each P
  accepted : db.settings.Accepted
  config : db.config.Typed
  replaying : db.replaying = false

abbrev Good (db : ZestDB n) : Prop := db.Steady Shard.Sound

lemma Steady.manager (h : db.Steady P) {sm : ShardManager n} (hs : sm.Each P) :
    ({ db with shardManager := sm } : ZestDB n).Steady P :=
  ⟨hs, h.accepted, h.config, h.replaying⟩

lemma onManager_tracked {x : Traced (ShardManager n) α} (hx : Traced.Tracked x) :
    Traced.Tracked (onManager x) :=
  .zoom (fun _ => rfl) hx

lemma onManager_steady {x : Traced (ShardManager n) α} (h : db.Steady P)
    (hx : Traced.Within (ShardManager.Each P) x db.shardManager) : Traced.Within (Steady P)
    (onManager x) db :=
  .zoom h hx fun _ ht => h.manager ht

lemma within_onManager {P : Shard → Prop} {x : Traced (ShardManager n) α}
    (hw : Traced.Within (Each P) (onManager x) db) :
    Traced.Within (ShardManager.Each P) x db.shardManager := by
  intro sm hsm
  rcases List.mem_cons.mp hsm with rfl | hsm
  · exact hw.start
  · exact hw { db with shardManager := sm } (List.mem_cons_of_mem _ (List.mem_map_of_mem hsm))

lemma refusal_none {settings : Settings} (hs : settings.Accepted)
    (h : refusal pf settings true w = none) : w.ValueOk ∧ w.KeyOk := by
  have hmax := hs.typed.MaxValueSize
  cases w with
  | set key value =>
    simp only [refusal, Bool.true_and, validateKey, validateValue] at h
    split_ifs at h with _ hk hv hl _
    have hlen : value.length ≤ settings.MaxValueSize := by simpa using hl
    have hkey : key.length ≤ settings.MaxKeySize := by simpa using hk
    refine ⟨fun v hv' => ?_, hkey.trans hs.key⟩
    obtain rfl : value = v := by simpa [Write.value?] using hv'
    exact ⟨hv, by omega⟩
  | del key => exact ⟨fun v hv => (by cases hv), trivial⟩
  | setBy valid value =>
    simp only [refusal, Bool.true_and, validateValue] at h
    split_ifs at h with _ hv hl _
    have hlen : value.length ≤ settings.MaxValueSize := by simpa using hl
    refine ⟨fun v hv' => ?_, trivial⟩
    obtain rfl : value = v := by simpa [Write.value?] using hv'
    exact ⟨hv, by omega⟩
  | delBy valid => exact ⟨fun v hv => (by cases hv), trivial⟩

lemma flush_tracked : Traced.Tracked (flush (n := n) ch) :=
  .bind (onManager_tracked (.bind (ShardManager.allShards_tracked fun _ => Shard.flushData_tracked)
    fun _ =>
    ShardManager.allShards_tracked fun _ => .step _)) fun _ => .pure _

lemma reloadShards_tracked (settings : Settings) :
    Traced.Tracked (reloadShards (n := n) settings) :=
  .bind (onManager_tracked (.bind (.step _) fun _ => ShardManager.allShards_tracked fun _ =>
    .step _)) fun _ => .pure _

lemma flush_steady (hP : Shard.Kept K P) (h : db.Steady P) : Traced.Within (Steady P)
    (flush ch) db :=
  .bind_pure (onManager_steady h (ShardManager.flush_kept hP h.shards))
    (onManager_tracked (.bind (ShardManager.allShards_tracked fun _ => Shard.flushData_tracked)
      fun _ =>
      ShardManager.allShards_tracked fun _ => .step _)) _

lemma reloadShards_steady (hP : Shard.Kept K P) (h : db.Steady P) (settings : Settings) :
    Traced.Within (Steady P) (reloadShards settings) db :=
  .bind_pure (onManager_steady h (ShardManager.reloadSettings_kept hP h.shards settings))
    (onManager_tracked (.bind (.step _) fun _ => ShardManager.allShards_tracked fun _ => .step _)) _

lemma reloadConfig_steady (hP : Shard.Kept K P) (h : db.Steady P) : Traced.Within (Steady P)
    (reloadConfig pf) db := by
  refine (Traced.Within.get_bind_iff _).mpr ?_
  cases hr : reloadedSettings pf db.config db.settings with
  | error message => exact .pure _ h
  | ok settings =>
    have h' : ({ db with settings := settings, users := db.config.users } : ZestDB n).Steady P :=
      ⟨h.shards, reloadedSettings_accepted h.config hr, h.config, h.replaying⟩
    exact .bind (.step h h')
      (.bind_pure (reloadShards_steady hP h' settings) (reloadShards_tracked settings) _)

lemma scfg_steady (hP : Shard.Kept K P) (h : db.Steady P) (rewritten : TypedConfig)
    (param value : Bytes) :
    Traced.Within (Steady P) (scfg pf rewritten param value) db := by
  refine (Traced.Within.get_bind_iff _).mpr ?_
  cases hr : setParam pf db.settings param value with
  | error message => exact .pure _ h
  | ok settings =>
    have ha := setParam_accepted h.accepted hr
    have h' : ({ db with settings := settings } : ZestDB n).Steady P :=
      ⟨h.shards, ha, h.config, h.replaying⟩
    refine .bind (.step h h') ?_
    change Traced.Within (Steady P) (if db.config.mapping then _ else _)
      { db with settings := settings }
    split_ifs
    · have h'' : ({ db with settings := settings, config := rewritten } : ZestDB n).Steady P :=
        ⟨h.shards, ha, rewritten.2, h.replaying⟩
      exact .bind (.step h' h'') (.bind_pure (reloadShards_steady hP h'' settings)
        (reloadShards_tracked settings) _)
    · exact .pure _ h'

lemma syncWAL_tracked : Traced.Tracked (ShardManager.syncWAL (n := n)) :=
  ShardManager.allShards_tracked fun _ => .step _

lemma reloadConfig_tracked : Traced.Tracked (reloadConfig (n := n) pf) := by
  refine .bind .get fun db => ?_
  cases reloadedSettings pf db.config db.settings with
  | error message => exact .pure _
  | ok settings =>
    exact .bind (.step _) fun _ => .bind (reloadShards_tracked settings) fun _ => .pure _

lemma scfg_tracked {rewritten : TypedConfig} {param value : Bytes} :
    Traced.Tracked (scfg (n := n) pf rewritten param value) := by
  refine .bind .get fun db => ?_
  cases setParam pf db.settings param value with
  | error message => exact .pure _
  | ok settings =>
    exact .bind (.step _) fun _ => .ite
      (.bind (.step _) fun _ => .bind (reloadShards_tracked settings) fun _ => .pure _) (.pure _)

section Commands

variable [NeZero n]

lemma write_tracked : Traced.Tracked (write pf ch w) := by
  refine .bind .get fun db => ?_
  cases refusal pf db.settings (!db.replaying) w with
  | some message => exact .pure _
  | none => exact onManager_tracked (ShardManager.write_tracked w)

lemma log_tracked {key command : Bytes} {syncWal : Bool} :
    Traced.Tracked (log (n := n) pf key command syncWal) :=
  .bind (onManager_tracked (.step _)) fun _ => .ite
  (.bind (onManager_tracked syncWAL_tracked) fun _ => .pure _) (.pure _)

lemma writeAndLog_tracked {key : Bytes} : Traced.Tracked (writeAndLog pf c key w) :=
  .bind write_tracked fun _ => .bind .get fun _ => .ite (.bind log_tracked fun _ => .pure _)
  (.pure _)

lemma get_tracked {key : Key} : Traced.Tracked (get (n := n) pf key) :=
  .bind .get fun _ => .ite (.pure _) (.bind (.step _) fun _ => .pure _)

lemma serve_tracked {key : Bytes} (req : Request) : Traced.Tracked (serve pf c key req) := by
  cases req with
  | get k => exact .bind get_tracked fun _ => .pure _
  | getBy valid => exact .bind .get fun _ => .pure _
  | write w => exact .bind writeAndLog_tracked fun _ => .pure _
  | help => exact .pure _
  | flush => exact .bind flush_tracked fun _ => .pure _
  | reload => exact .bind reloadConfig_tracked fun _ => .pure _
  | scfg param value => exact scfg_tracked
  | gcfg => exact .bind .get fun _ => .pure _
  | save => exact .bind flush_tracked fun _ => .pure _

lemma execCmd_tracked : Traced.Tracked (execCmd pf c) := by
  simp only [execCmd]
  cases words c.command with
  | nil => exact .pure _
  | cons name args =>
    refine .ite (.pure _) ?_
    cases request pf (verbOf name.text) args with
    | error message => exact .pure _
    | ok req => exact serve_tracked req

lemma write_steady (hP : Shard.Kept K P) (h : db.Steady P)
    (hw : Traced.Within (Each Shard.Bounded) (write pf ch w) db) :
    Traced.Within (Steady P) (write pf ch w) db := by
  have hw' := (Traced.Within.get_bind_iff _).mp hw
  refine (Traced.Within.get_bind_iff _).mpr ?_
  beta_reduce at hw' ⊢
  cases hr : refusal pf db.settings (!db.replaying) w with
  | some message => exact .pure _ h
  | none =>
    simp only [hr] at hw'
    rw [h.replaying] at hr
    obtain ⟨hv, hk⟩ := refusal_none h.accepted hr
    exact onManager_steady h (ShardManager.write_kept hP h.shards hv hk (within_onManager hw'))

lemma log_steady (hP : Shard.Kept K P) (h : db.Steady P) (key command : Bytes) (syncWal : Bool) :
    Traced.Within (Steady P) (log pf key command syncWal) db := by
  have ha : Traced.Within (Steady P) (onManager (ShardManager.appendToWAL pf key command)) db :=
    onManager_steady h (ShardManager.appendToWAL_kept hP h.shards command)
  have hfinal := ha.final (onManager_tracked (.step _))
  refine .bind ha ?_
  cases syncWal with
  | true =>
    exact .bind_pure
      (onManager_steady hfinal (ShardManager.onWals_kept hP hfinal.shards fun _ hw => hw.sync))
      (onManager_tracked syncWAL_tracked) _
  | false => exact .pure _ hfinal

lemma writeAndLog_steady (hP : Shard.Kept K P) (h : db.Steady P) (key : Bytes)
    (hw : Traced.Within (Each Shard.Bounded) (writeAndLog pf c key w) db) :
    Traced.Within (Steady P) (writeAndLog pf c key w) db := by
  have hwrite := write_steady hP h hw.bind_left
  have hfinal := hwrite.final write_tracked
  refine .bind hwrite (.bind (.get hfinal) ?_)
  change Traced.Within (Steady P) (if _ then _ else _) _
  split_ifs
  · exact .bind_pure (log_steady hP hfinal _ _ _) log_tracked _
  · exact .pure _ hfinal

lemma serve_steady (hP : Shard.Kept K P) (h : db.Steady P) (key : Bytes) (req : Request)
    (hw : Traced.Within (Each Shard.Bounded) (serve pf c key req) db) : Traced.Within (Steady P)
    (serve pf c key req) db := by
  cases req with
  | get k =>
    refine .bind_pure (.bind (.get h) ?_) get_tracked _
    change Traced.Within (Steady P) (if _ then _ else _) db
    split_ifs
    · exact .pure _ h
    · exact .bind_pure (.step h (h.manager (ShardManager.get_kept hP h.shards k))) (.step _) _
  | getBy valid => exact .bind_pure (.get h) .get _
  | write w => exact .bind_pure (writeAndLog_steady hP h key hw.bind_left) writeAndLog_tracked _
  | help => exact .pure _ h
  | flush => exact .bind_pure (flush_steady hP h) flush_tracked _
  | reload => exact .bind_pure (reloadConfig_steady hP h) reloadConfig_tracked _
  | scfg param value => exact scfg_steady hP h _ param value
  | gcfg => exact .bind_pure (.get h) .get _
  | save => exact .bind_pure (flush_steady hP h) flush_tracked _

theorem execCmd_steady (hP : Shard.Kept K P) (h : db.Steady P)
    (hw : Traced.Within (Each Shard.Bounded) (execCmd pf c) db) :
    Traced.Within (Steady P) (execCmd pf c) db := by
  simp only [execCmd] at hw ⊢
  cases hwords : words c.command with
  | nil => exact .pure _ h
  | cons name args =>
    simp only [hwords] at hw
    dsimp only
    split_ifs at hw ⊢
    · exact .pure _ h
    · cases hr : request pf (verbOf name.text) args with
      | error message => exact .pure _ h
      | ok req =>
        simp only [hr] at hw
        exact serve_steady hP h _ req hw

end Commands

end Zest.ZestDB
