import ZestDB.Database.Restart

/-! What a command does to the map and to the WALs. -/

namespace Zest

open Foundations

namespace Write

variable {segSize : ℕ} {m : Store} {w : Write}

def Succeeds (segSize : ℕ) (m : Store) : Write → Prop
  | .set _ value => value.length ≤ segSize
  | .del key => (m key).isSome
  | _ => True

lemma applyWithin_of_fails (h : ¬ w.Succeeds segSize m) : w.applyWithin segSize m = m := by
  cases w with
  | set key value => exact if_neg h
  | del key =>
    have hnone : m key = none := by simpa [Succeeds] using h
    rw [applyWithin_of_fits (show Fits segSize (.del key) from trivial), apply, ← hnone,
      Function.update_eq_self]
  | setBy valid value => exact absurd trivial h
  | delBy valid => exact absurd trivial h

end Write

namespace ShardManager

variable {n : ℕ} [NeZero n] {pf : Platform} {sm t : ShardManager n} {ch : Choices n} {w : Write}

lemma write_succeeds (h : sm.Inv pf) (hu : sm.Uniform) (hv : w.ValueOk)
    (hw : Traced.Within (Each Shard.WithinLimits) (write pf ch w) sm) :
    (write pf ch w sm).val.code = .Success ↔ w.Succeeds sm.settings.SegSize (sm.toMap pf) := by
  cases w with
  | set key value =>
    change (set pf key value sm).val.code = .Success ↔ value.length ≤ sm.settings.SegSize
    rcases set_spec _ _ h hu (hv value rfl) hw with ⟨hle, hval, -⟩ | ⟨hlt, hval, -⟩
    · simp [hval, hle]
    · simp [hval, Shard.segmentFull, hlt]
  | del key =>
    change (del pf key sm).val.code = .Success ↔ (sm.toMap pf key).isSome
    rw [(del_spec h key).1, Write.result]
    split_ifs with hk <;> simp [hk]
  | setBy valid value =>
    refine iff_of_true ?_ trivial
    simp only [write, setBy]
    split_ifs <;> rfl
  | delBy valid =>
    refine iff_of_true ?_ trivial
    simp only [write, delBy]
    split_ifs <;> rfl

def logs (sm : ShardManager n) (i : Fin n) : Bytes := (sm.shards i).wal.file.content

omit [NeZero n] in
lemma Kept.logs (h : Kept sm t) : t.logs = sm.logs := by
  funext i
  rw [ShardManager.logs, (h.shard i).2]
  rfl

lemma appendToWAL_logs (sm : ShardManager n) (key command : Bytes) (i : Fin n) :
    (appendToWAL pf key command sm).final.logs i =
      if i = getShardId pf key then
        sm.logs i ++ walCodec.encode ⟨command.take (command.length % 2 ^ 32), sm.nextSeq⟩
      else sm.logs i := by
  change ((sm.setShard _ _).shards i).wal.file.content = _
  rw [setShard_shards]
  split_ifs with hi
  · rw [WAL.append_file, BufferedFile.content_append, hi]
    rfl
  · rfl

omit [NeZero n] in
lemma syncWAL_logs (sm : ShardManager n) : (syncWAL sm).final.logs = sm.logs := by
  funext i
  rw [logs, syncWAL, allShards_final]
  exact WAL.sync_content _

lemma onWals_same (h : sm.Inv pf) (f : WAL → WAL) :
    (allShards (fun _ : Fin n => .step fun s => { s with wal := f s.wal }) sm).final.Inv pf ∧
      (allShards (fun _ : Fin n => .step fun s => { s with wal := f s.wal }) sm).final.toMap pf =
        sm.toMap pf :=
  allShards_same h fun i =>
    ⟨⟨(h.shard i).storage, (h.shard i).cache, (h.shard i).entry, (h.shard i).cached⟩, rfl⟩

omit [NeZero n] in
lemma onWals_frame {f : WAL → WAL} (hu : sm.Uniform) :
    (allShards (fun _ : Fin n => .step fun s => { s with wal := f s.wal }) sm).final.Uniform := by
  intro i
  rw [allShards_final, allShards_frame.2]
  exact hu i

def record (sm : ShardManager n) (command : Bytes) : WalEntry :=
  ⟨command.take (command.length % 2 ^ 32), sm.nextSeq⟩

/-- The command is logged in the WAL of the shard of `key`, and the data stays. -/
structure Recorded (pf : Platform) (key command : Bytes) (sm t : ShardManager n) : Prop where
  inv : t.Inv pf
  uniform : t.Uniform
  settings : t.settings = sm.settings
  toMap : t.toMap pf = sm.toMap pf
  logs : ∀ i, t.logs i = if i = getShardId pf key then
    sm.logs i ++ walCodec.encode (sm.record command) else sm.logs i
  nextSeq : t.nextSeq = (sm.nextSeq + 1) % 2 ^ 64

lemma appendToWAL_recorded (h : sm.Inv pf) (hu : sm.Uniform) (key command : Bytes) :
    Recorded pf key command sm (appendToWAL pf key command sm).final := by
  obtain ⟨s, hs⟩ : ∃ s : Shard, s = { sm.shards (getShardId pf key) with
      wal := (sm.shards (getShardId pf key)).wal.append command sm.nextSeq } := ⟨_, rfl⟩
  have hfinal : (appendToWAL pf key command sm).final =
      (sm.setShard (getShardId pf key) s).takeSequence := by
    rw [hs]
    rfl
  have hi := h.shard (getShardId pf key)
  have hsame := h.same (s := s) (by rw [hs]; exact ⟨hi.storage, hi.cache, hi.entry, hi.cached⟩)
    (by rw [hs]; rfl)
  refine ⟨?_, fun i => ?_, ?_, ?_, appendToWAL_logs sm key command, by rw [hfinal]; rfl⟩
  · rw [hfinal]
    exact ⟨hsame.1.shard, hsame.1.routed⟩
  · rw [hfinal]
    change ((sm.setShard _ s).shards i).settings = sm.settings
    rw [setShard_shards, hs]
    split_ifs with hij
    · exact hu _
    · exact hu i
  · rw [hfinal]
    rfl
  · rw [hfinal]
    exact hsame.2

lemma Recorded.sync {key command : Bytes} (h : Recorded pf key command sm t) :
    Recorded pf key command sm (syncWAL t).final := by
  obtain ⟨hi, hm⟩ := onWals_same h.inv WAL.sync
  refine ⟨hi, onWals_frame h.uniform, allShards_frame.2.trans h.settings, hm.trans h.toMap,
    fun i => ?_, allShards_frame.1.trans h.nextSeq⟩
  rw [syncWAL_logs]
  exact h.logs i

end ShardManager

namespace ZestDB

variable {n : ℕ}

/-- What a call asks for, with the word its log is routed by; `none` for a command that is refused
unread. -/
def asked (pf : Platform) (c : Call n) : Option (Bytes × Request) :=
  match words c.command with
  | [] => none
  | name :: args =>
    if (verbOf name.text).denied c.role then none
    else
      match request pf (verbOf name.text) args with
      | .error _ => none
      | .ok req => some ((args.head?.map Word.text).getD [], req)

def flushes (pf : Platform) (c : Call n) : Bool :=
  match asked pf c with
  | some (_, .flush) => true
  | some (_, .save) => true
  | _ => false

def logs (db : ZestDB n) : Fin n → Bytes := db.shardManager.logs

variable [NeZero n] {pf : Platform} {db db' : ZestDB n} {c : Call n} {w : Write} {key : Bytes}

def toMap (pf : Platform) (db : ZestDB n) : Store := db.shardManager.toMap pf

omit [NeZero n] in
lemma writeOf_of_asked (h : asked pf c = some (key, .write w)) : writeOf pf c.command = some w := by
  simp only [asked] at h
  simp only [writeOf]
  cases hwords : words c.command with
  | nil => simp [hwords] at h
  | cons name args =>
    simp only [hwords] at h ⊢
    split_ifs at h
    cases hr : request pf (verbOf name.text) args with
    | error message => simp [hr] at h
    | ok req =>
      simp only [hr, Option.some.injEq, Prod.mk.injEq] at h
      rw [h.2]

lemma execCmd_none (h : asked pf c = none) :
    ∃ message, execCmd pf c = pure (some (failure message)) := by
  simp only [asked] at h
  simp only [execCmd]
  cases hwords : words c.command with
  | nil => exact ⟨_, rfl⟩
  | cons name args =>
    simp only [hwords] at h ⊢
    split_ifs at h ⊢ with hd
    · exact ⟨_, rfl⟩
    · cases hr : request pf (verbOf name.text) args with
      | error message => exact ⟨message, rfl⟩
      | ok req => simp [hr] at h

lemma execCmd_some {req : Request} (h : asked pf c = some (key, req)) :
    execCmd pf c = serve pf c key req := by
  simp only [asked] at h
  simp only [execCmd]
  cases hwords : words c.command with
  | nil => simp [hwords] at h
  | cons name args =>
    simp only [hwords] at h ⊢
    split_ifs at h ⊢
    cases hr : request pf (verbOf name.text) args with
    | error message => simp [hr] at h
    | ok r =>
      simp only [hr, Option.some.injEq, Prod.mk.injEq] at h
      obtain ⟨rfl, rfl⟩ := h
      rfl

structure Ready (pf : Platform) (db : ZestDB n) : Prop where
  inv : db.shardManager.Inv pf
  uniform : db.shardManager.Uniform
  settings : db.shardManager.settings = db.settings

variable (db key) in
lemma log_recorded (command : Bytes) (syncWal : Bool) (h : db.shardManager.Inv pf)
    (hu : db.shardManager.Uniform) :
    ∃ t, (log pf key command syncWal db).final = { db with shardManager := t } ∧
      ShardManager.Recorded pf key command db.shardManager t := by
  have ha := ShardManager.appendToWAL_recorded h hu key command
  cases syncWal with
  | true => exact ⟨_, rfl, ha.sync⟩
  | false => exact ⟨_, rfl, ha⟩

lemma write_refused {ch : Choices n} {message : Bytes}
    (h : refusal pf db.settings (!db.replaying) w = some message) :
    write pf ch w db = ⟨failure message, db, []⟩ := by
  simp only [write, Traced.get_bind, h, Traced.pure_run]

lemma write_accepted {ch : Choices n} (h : refusal pf db.settings (!db.replaying) w = none) :
    write pf ch w db = onManager (ShardManager.write pf ch w) db := by
  simp only [write, Traced.get_bind, h]

lemma write_wrote (ch : Choices n) (h : Ready pf db)
    (hr : refusal pf db.settings (!db.replaying) w = none)
    (hv : w.ValueOk) (hw : Traced.Within (Each Shard.WithinLimits) (write pf ch w) db) :
    ∃ t, (write pf ch w db).final = { db with shardManager := t } ∧
      ShardManager.Wrote pf db.shardManager t (w.applyWithin db.settings.SegSize (db.toMap pf)) ∧
      ((write pf ch w db).val.code = .Success ↔ w.Succeeds db.settings.SegSize (db.toMap pf)) := by
  have hw' : Traced.Within (Each Shard.WithinLimits)
      (onManager (ShardManager.write pf ch w)) db := by
    simp only [Traced.Within] at hw
    rwa [write_accepted hr] at hw
  have hlim := within_onManager hw'
  obtain ⟨-, hwrote⟩ := ShardManager.write_spec h.inv h.uniform hv hlim
  have hsucc := ShardManager.write_succeeds h.inv h.uniform hv hlim
  rw [h.settings] at hwrote hsucc
  rw [write_accepted hr]
  exact ⟨_, rfl, hwrote, hsucc⟩

inductive Effect (pf : Platform) (c : Call n) (db db' : ZestDB n) : Prop where
  | quiet (hf : flushes pf c = false) (hm : db'.toMap pf = db.toMap pf) (hl : db'.logs = db.logs)
      (hs : db'.shardManager.nextSeq = db.shardManager.nextSeq)
  | flushed (hf : flushes pf c = true) (hm : db'.toMap pf = db.toMap pf) (hl : ∀ i, db'.logs i = [])
      (hs : db'.shardManager.nextSeq = db.shardManager.nextSeq)
  | wrote (key : Bytes) (w : Write) (hf : flushes pf c = false)
      (ha : asked pf c = some (key, .write w)) (hr : refusal pf db.settings true w = none)
      (hm : db'.toMap pf = w.applyWithin db.settings.SegSize (db.toMap pf))
      (hl : ∀ i, db'.logs i = if i = ShardManager.getShardId pf key then
        db.logs i ++ walCodec.encode (db.shardManager.record c.command) else db.logs i)
      (hs : db'.shardManager.nextSeq = (db.shardManager.nextSeq + 1) % 2 ^ 64)

structure Continues (pf : Platform) (db' : ZestDB n) : Prop where
  ready : db'.Ready pf
  replaying : db'.replaying = false
  mapping : db'.config.mapping = true

lemma writeAndLog_final (pf : Platform) (c : Call n) (key : Bytes) (w : Write) (db : ZestDB n) :
    (writeAndLog pf c key w db).final =
      if !(write pf c.choices w db).final.replaying && (write pf c.choices w db).val.code =
        .Success then
        (log pf key c.command c.syncWal (write pf c.choices w db).final).final
      else (write pf c.choices w db).final := by
  change ((if !(write pf c.choices w db).final.replaying && (write pf c.choices w db).val.code =
    .Success then _ else _ :
    Traced (ZestDB n) ResultType) (write pf c.choices w db).final).final = _
  split_ifs <;> rfl

lemma writeAndLog_val (pf : Platform) (c : Call n) (key : Bytes) (w : Write) (db : ZestDB n) :
    (writeAndLog pf c key w db).val = (write pf c.choices w db).val := by
  change ((if !(write pf c.choices w db).final.replaying && (write pf c.choices w db).val.code =
    .Success then _ else _ :
    Traced (ZestDB n) ResultType) (write pf c.choices w db).final).val = _
  split_ifs <;> rfl

lemma writeAndLog_effect (h : db.Continues pf) (ha : db.settings.Accepted)
    (hask : asked pf c = some (key, .write w))
    (hw : Traced.Within (Each Shard.WithinLimits) (writeAndLog pf c key w) db) :
    (writeAndLog pf c key w db).final.Continues pf ∧
    Effect pf c db (writeAndLog pf c key w db).final := by
  have hf : flushes pf c = false := by simp [flushes, hask]
  rw [writeAndLog_final]
  cases hr : refusal pf db.settings (!db.replaying) w with
  | some message =>
    rw [write_refused hr, if_neg (by simp [failure])]
    exact ⟨h, .quiet hf rfl rfl rfl⟩
  | none =>
    have hr' := hr
    rw [h.replaying] at hr'
    obtain ⟨hv, -⟩ := refusal_none ha hr'
    obtain ⟨t, ht, hwrote, hsucc⟩ := write_wrote _ h.ready hr hv hw.bind_left
    have hkept := hwrote.kept
    rw [ht]
    split_ifs with hlog
    · obtain ⟨u, hu, hrec⟩ :=
        log_recorded { db with shardManager := t } key c.command c.syncWal hwrote.inv
        (hkept.uniform h.ready.uniform)
      have hrecord : t.record c.command = db.shardManager.record c.command := by
        rw [ShardManager.record, hkept.nextSeq]
        rfl
      rw [hu]
      refine ⟨⟨⟨hrec.inv, hrec.uniform,
        hrec.settings.trans (hkept.settings.trans h.ready.settings)⟩, h.replaying, h.mapping⟩,
        .wrote key w hf hask hr' (hrec.toMap.trans hwrote.toMap) (fun i => ?_) ?_⟩
      · have hl := hrec.logs i
        change u.logs i = if _ then
          t.logs i ++ walCodec.encode (t.record c.command) else t.logs i at hl
        rw [hkept.logs, hrecord] at hl
        exact hl
      · exact hrec.nextSeq.trans (by rw [hkept.nextSeq])
    · have hfail : ¬ w.Succeeds db.settings.SegSize (db.toMap pf) := by
        rw [← hsucc]
        simpa [h.replaying] using hlog
      refine ⟨⟨⟨hwrote.inv, hkept.uniform h.ready.uniform, hkept.settings.trans h.ready.settings⟩,
        h.replaying, h.mapping⟩, .quiet hf ?_ hkept.logs hkept.nextSeq⟩
      exact hwrote.toMap.trans (Write.applyWithin_of_fails hfail)

variable (db) in
lemma reloadShards_spec (settings : Settings) (h : db.shardManager.Inv pf) :
    ∃ t, (reloadShards settings db).final = { db with shardManager := t } ∧ t.Inv pf ∧ t.Uniform ∧
      t.settings = settings ∧
      t.toMap pf = db.toMap pf ∧ t.logs = db.logs ∧ t.nextSeq = db.shardManager.nextSeq := by
  obtain ⟨hi, hm, hs, hq, hu⟩ := ShardManager.reloadSettings_spec h settings
  refine ⟨_, rfl, hi, hu, hs, hm, ?_, hq⟩
  funext i
  change ((ShardManager.allShards _ _).final.shards i).wal.file.content = _
  rw [ShardManager.allShards_final]
  rfl

lemma resettle (h : db.Continues pf)
    (hf : flushes pf c = false) {settings : Settings} {users : Users}
    {config : ConfigFile} (hp : config.mapping = true) :
    (reloadShards settings
      { db with settings := settings, users := users, config := config }).final.Continues pf ∧
      Effect pf c db (reloadShards settings
        { db with settings := settings, users := users, config := config }).final := by
  obtain ⟨t, ht, hi, hu, hs, hm, hl, hq⟩ := reloadShards_spec
    { db with settings := settings, users := users, config := config } settings h.ready.inv
  rw [ht]
  exact ⟨⟨⟨hi, hu, hs⟩, h.replaying, hp⟩, .quiet hf hm hl hq⟩

lemma reloadConfig_effect (h : db.Continues pf) (hf : flushes pf c = false) :
    (reloadConfig pf db).final.Continues pf ∧ Effect pf c db (reloadConfig pf db).final := by
  cases hre : reloadedSettings pf db.config db.settings with
  | error message =>
    have hfinal : (reloadConfig pf db).final = db := by simp only [reloadConfig, Traced.get_bind,
      hre, Traced.pure_run]
    rw [hfinal]
    exact ⟨h, .quiet hf rfl rfl rfl⟩
  | ok settings =>
    have hfinal : (reloadConfig pf db).final =
        (reloadShards settings { db with settings := settings, users := db.config.users
          }).final := by
      simp only [reloadConfig, Traced.get_bind, hre]
      rfl
    rw [hfinal]
    exact resettle h hf h.mapping

lemma scfg_effect (h : db.Continues pf) (hf : flushes pf c = false) {rewritten : TypedConfig}
    (hr : rewritten.1.mapping = true) (param value : Bytes) :
    (scfg pf rewritten param value db).final.Continues pf ∧
    Effect pf c db (scfg pf rewritten param value db).final := by
  cases hset : setParam pf db.settings param value with
  | error message =>
    have hfinal : (scfg pf rewritten param value
        db).final = db := by simp only [scfg, Traced.get_bind, hset, Traced.pure_run]
    rw [hfinal]
    exact ⟨h, .quiet hf rfl rfl rfl⟩
  | ok settings =>
    have hfinal : (scfg pf rewritten param value db).final =
        (reloadShards settings { db with settings := settings, config := rewritten }).final := by
      simp only [scfg, Traced.get_bind, hset]
      rw [if_pos h.mapping]
      rfl
    rw [hfinal]
    exact resettle h hf hr

lemma get_effect (h : db.Continues pf) (hf : flushes pf c = false) (k : Key) :
    (get pf k db).final.Continues pf ∧ Effect pf c db (get pf k db).final := by
  by_cases hk : (!validateKey db.settings k) = true
  · have hfinal : (get pf k db).final = db := by
      simp only [get, Traced.get_bind, hk, if_true, Traced.pure_run]
    rw [hfinal]
    exact ⟨h, .quiet hf rfl rfl rfl⟩
  · have hfinal : (get pf k db).final =
        { db with shardManager := (db.shardManager.get pf k).2 } := by
      simp only [get, Traced.get_bind, if_neg hk]
      rfl
    obtain ⟨-, hwrote⟩ := ShardManager.get_spec h.ready.inv k
    have hkept := hwrote.kept
    rw [hfinal]
    exact ⟨⟨⟨hwrote.inv, hkept.uniform h.ready.uniform, hkept.settings.trans h.ready.settings⟩,
      h.replaying, h.mapping⟩, .quiet hf hwrote.toMap hkept.logs hkept.nextSeq⟩

lemma flush_effect (h : db.Continues pf) (hg : db.Each Shard.Sound) (hf : flushes pf c = true)
    (ch : Choices n) :
    (flush ch db).final.Continues pf ∧ Effect pf c db (flush ch db).final := by
  obtain ⟨hi, hm, hs, hq, hu⟩ := ShardManager.flush_spec h.ready.inv ch
  refine ⟨⟨⟨hi, fun i => ?_, hs.trans h.ready.settings⟩, h.replaying, h.mapping⟩,
    .flushed hf hm (fun i => ?_) hq⟩
  · exact (hu i).trans ((h.ready.uniform i).trans hs.symm)
  · exact (ShardManager.flush_atRest hg ch i).wal

theorem execCmd_effect (h : db.Continues pf) (hg : db.Good) (hr : c.rewritten.1.mapping = true)
    (hw : Traced.Within (Each Shard.WithinLimits) (execCmd pf c) db) :
    (execCmd pf c db).final.Continues pf ∧ Effect pf c db (execCmd pf c db).final := by
  cases hask : asked pf c with
  | none =>
    obtain ⟨message, he⟩ := execCmd_none hask
    rw [he]
    exact ⟨h, .quiet (by simp [flushes, hask]) rfl rfl rfl⟩
  | some kr =>
    obtain ⟨key, req⟩ := kr
    rw [execCmd_some hask] at hw ⊢
    cases req with
    | get k => exact get_effect h (by simp [flushes, hask]) k
    | getBy valid => exact ⟨h, .quiet (by simp [flushes, hask]) rfl rfl rfl⟩
    | write w => exact writeAndLog_effect h hg.accepted hask hw.bind_left
    | help => exact ⟨h, .quiet (by simp [flushes, hask]) rfl rfl rfl⟩
    | flush => exact flush_effect h hg.shards (by simp [flushes, hask]) _
    | reload => exact reloadConfig_effect h (by simp [flushes, hask])
    | scfg param value => exact scfg_effect h (by simp [flushes, hask]) hr param value
    | gcfg => exact ⟨h, .quiet (by simp [flushes, hask]) rfl rfl rfl⟩
    | save => exact flush_effect h hg.shards (by simp [flushes, hask]) _

end ZestDB

end Zest
