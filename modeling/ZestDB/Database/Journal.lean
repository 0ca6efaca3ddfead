import ZestDB.Database.Effect
import ZestDB.Foundations.Merge

/-! The WALs of all shards as one log, and what its replay does to the map. -/

namespace Zest

open Foundations

def writesOf (pf : Platform) (entries : List WalEntry) : List Write :=
  entries.filterMap fun e => writeOf pf e.cmd

noncomputable def Write.replay (segSize : ℕ) (ws : List Write) (m : Store) : Store :=
  ws.foldl (fun m w => w.applyWithin segSize m) m

lemma Write.replay_of_fits {segSize : ℕ} {ws : List Write} (h : ∀ w ∈ ws, w.Fits segSize)
    (m : Store) :
    Write.replay segSize ws m = Write.applyAll ws m := by
  induction ws generalizing m with
  | nil => rfl
  | cons w ws ih =>
    simp only [replay, applyAll, List.foldl_cons, applyWithin_of_fits (h w (by simp))]
    exact ih (fun v hv => h v (by simp [hv])) _

namespace ShardManager

variable {n : ℕ} {sm t : ShardManager n} {log : List (Fin n × WalEntry)}

/-- The WALs together are the log, whose records are in the order of their numbers. -/
structure Journal (sm : ShardManager n) (log : List (Fin n × WalEntry)) : Prop where
  parts : ∀ i, sm.logs i = walCodec.encodeAll (part log i)
  fits : ∀ p ∈ log, p.2.Fits
  ordered : (log.map fun p => p.2.seq).Pairwise (· < ·)
  below : ∀ p ∈ log, p.2.seq < sm.nextSeq

lemma Journal.nil (h : ∀ i, sm.logs i = []) : Journal sm [] :=
  ⟨fun i => h i, by simp, by simp, by simp⟩

lemma Journal.same (h : Journal sm log) (hl : t.logs = sm.logs) (hs : t.nextSeq = sm.nextSeq) :
    Journal t log :=
  ⟨fun i => by rw [hl]; exact h.parts i, h.fits, h.ordered, fun p hp => by
    rw [hs]; exact h.below p hp⟩

lemma Journal.getCmds (h : Journal sm log) (i : Fin n) :
    (sm.shards i).wal.getCmds = part log i := by
  change (walCodec.decodeAll (sm.logs i)).1 = _
  rw [h.parts i, walCodec.decodeAll_encodeAll _ fun e he => h.fits _ (mem_part he)]

lemma Journal.walEntries (h : Journal sm log) : sm.walEntries = log.map Prod.snd := by
  have hcmds : (fun i => (sm.shards i).wal.getCmds) = part log := funext h.getCmds
  rw [ShardManager.walEntries, hcmds]
  exact sort_parts WalEntry.seq log h.ordered

lemma Journal.concat (h : Journal sm log) {i : Fin n} {e : WalEntry}
    (hl : ∀ j, t.logs j = if j = i then sm.logs j ++ walCodec.encode e else sm.logs j) (he : e.Fits)
    (hseq : e.seq = sm.nextSeq) (hs : sm.nextSeq < t.nextSeq) : Journal t (log ++ [(i, e)]) := by
  refine ⟨fun j => ?_, fun p hp => ?_, ?_, fun p hp => ?_⟩
  · rw [hl, part_concat, h.parts j]
    split_ifs
    · simp
    · rfl
  · rcases List.mem_append.mp hp with hp | hp
    · exact h.fits p hp
    · rw [List.mem_singleton.mp hp]
      exact he
  · rw [List.map_append, List.pairwise_append]
    refine ⟨h.ordered, by simp, fun a ha b hb => ?_⟩
    obtain ⟨p, hp, rfl⟩ := List.mem_map.mp ha
    obtain rfl : b = e.seq := by simpa using hb
    rw [hseq]
    exact h.below p hp
  · rcases List.mem_append.mp hp with hp | hp
    · exact (h.below p hp).trans hs
    · rw [List.mem_singleton.mp hp, hseq]
      exact hs

end ShardManager

namespace ZestDB

variable {n : ℕ} [NeZero n] {pf : Platform} {db db' : ZestDB n} {c : Call n} {w : Write}

omit [NeZero n] in
lemma asked_of_writeOf {command : Bytes} (ch : Choices n) (h : writeOf pf command = some w) :
    ∃ key, asked pf { command := command, choices := ch } = some (key, .write w) := by
  simp only [writeOf] at h
  simp only [asked]
  cases hwords : words command with
  | nil => simp [hwords] at h
  | cons name args =>
    simp only [hwords] at h ⊢
    have hd : (verbOf name.text).denied .Admin = false := by simp [Verb.denied]
    cases hr : request pf (verbOf name.text) args with
    | error message => simp [hr] at h
    | ok req =>
      rw [hr] at h
      cases req with
      | write v =>
        obtain rfl : v = w := by simpa using h
        exact ⟨(args.head?.map Word.text).getD [], by simp [hd]⟩
      | _ => simp at h

lemma refusal_replaying {settings : Settings} (h : w.ValueOk) :
    refusal pf settings false w = none := by
  cases w with
  | set key value => simp [refusal, (h value rfl).ne_nil]
  | del key => simp [refusal]
  | setBy valid value => simp [refusal, (h value rfl).ne_nil]
  | delBy valid => simp [refusal]

structure Replaying (pf : Platform) (db db' : ZestDB n) : Prop where
  ready : db'.Ready pf
  replaying : db'.replaying = true
  settings : db'.settings = db.settings
  logs : db'.logs = db.logs
  nextSeq : db'.shardManager.nextSeq = db.shardManager.nextSeq

lemma execCmd_replaying {command : Bytes} (ch : Choices n) (h : db.Ready pf)
    (hr : db.replaying = true) (hw : writeOf pf command = some w) (hv : w.ValueOk)
    (hwithin : Traced.Within (Each Shard.WithinLimits)
      (execCmd pf { command := command, choices := ch }) db) :
    Replaying pf db (execCmd pf { command := command, choices := ch } db).final ∧
      (execCmd pf { command := command, choices := ch } db).final.toMap pf =
        w.applyWithin db.settings.SegSize (db.toMap pf) ∧
      ∃ r, (execCmd pf { command := command, choices := ch } db).val = some r ∧
        (r.code = .Success ↔ w.Succeeds db.settings.SegSize (db.toMap pf)) := by
  obtain ⟨key, hask⟩ := asked_of_writeOf ch hw
  rw [execCmd_some hask] at hwithin ⊢
  have href : refusal pf db.settings (!db.replaying) w = none := by
    rw [hr]
    exact refusal_replaying hv
  obtain ⟨t, ht, hwrote, hsucc⟩ := write_wrote ch h href hv hwithin.bind_left.bind_left
  have hkept := hwrote.kept
  have hfinal : (serve pf { command := command, choices := ch } key (.write w) db).final =
      { db with shardManager := t } := by
    change (writeAndLog pf { command := command, choices := ch } key w db).final = _
    rw [writeAndLog_final, ht, if_neg (by simp [hr])]
  have hval : (serve pf { command := command, choices := ch } key (.write w) db).val =
      some (write pf ch w db).val := by
    change some (writeAndLog pf { command := command, choices := ch } key w db).val = _
    rw [writeAndLog_val]
  rw [hfinal]
  exact ⟨⟨⟨hwrote.inv, hkept.uniform h.uniform, hkept.settings.trans h.settings⟩, hr, rfl,
    hkept.logs, hkept.nextSeq⟩, hwrote.toMap, _, hval, hsucc⟩

def Writes (pf : Platform) (entries : List WalEntry) : Prop :=
  ∀ e ∈ entries, ∃ w, writeOf pf e.cmd = some w ∧ w.ValueOk

theorem replayEntries_spec {entries : List WalEntry} {ch : ℕ → Choices n} {i : ℕ} (h : db.Ready pf)
    (hr : db.replaying = true) (hwrites : Writes pf entries)
    (hwithin : Traced.Within (Each Shard.WithinLimits) (replayEntries pf ch entries i) db) :
    Replaying pf db (replayEntries pf ch entries i db).final ∧
      (replayEntries pf ch entries i db).final.toMap pf =
        Write.replay db.settings.SegSize (writesOf pf entries) (db.toMap pf) := by
  induction entries generalizing db i with
  | nil => exact ⟨⟨h, hr, rfl, rfl, rfl⟩, rfl⟩
  | cons e entries ih =>
    obtain ⟨w, hw, hv⟩ := hwrites e (by simp)
    obtain ⟨hstep, hmap, -⟩ := execCmd_replaying (ch i) h hr hw hv hwithin.bind_left
    obtain ⟨hrest, hmap'⟩ :=
      ih hstep.ready hstep.replaying (fun e' he' => hwrites e' (by simp [he']))
      (hwithin.bind_right execCmd_tracked)
    refine ⟨⟨hrest.ready, hrest.replaying, hrest.settings.trans hstep.settings,
      hrest.logs.trans hstep.logs, hrest.nextSeq.trans hstep.nextSeq⟩, hmap'.trans ?_⟩
    rw [hmap, hstep.settings]
    simp only [writesOf, List.filterMap_cons, hw, Write.replay, List.foldl_cons]

lemma Ready.advance (h : db.Ready pf) (entries : List WalEntry) (b : Bool) :
    Ready pf
    { db with replaying := b, shardManager := ShardManager.advanceAll entries db.shardManager } ∧
      (ShardManager.advanceAll entries db.shardManager).toMap pf = db.toMap pf ∧
      (ShardManager.advanceAll entries db.shardManager).logs = db.logs := by
  have hcases : ∃ q, ShardManager.advanceAll entries db.shardManager =
      { db.shardManager with nextSeq := q } := by
    simp only [ShardManager.advanceAll, ShardManager.advanceSequence]
    split
    · split_ifs
      · exact ⟨_, rfl⟩
      · exact ⟨db.shardManager.nextSeq, rfl⟩
    · exact ⟨db.shardManager.nextSeq, rfl⟩
  obtain ⟨q, hq⟩ := hcases
  rw [hq]
  exact ⟨⟨⟨h.inv.shard, h.inv.routed⟩, h.uniform, h.settings⟩, rfl, rfl⟩

def replayed (pf : Platform) (ch : ℕ → Choices n) (db : ZestDB n) : ZestDB n :=
  (replayEntries pf ch db.shardManager.walEntries 0 { db with
    replaying := true
    shardManager := ShardManager.advanceAll db.shardManager.walEntries db.shardManager }).final

lemma replayWAL_final (pf : Platform) (ch : ℕ → Choices n) (db : ZestDB n) :
    (replayWAL pf ch db).final = { (flush (ch db.shardManager.walEntries.length)
        (replayed pf ch db)).final with replaying := false } := rfl

lemma within_replay {P : ZestDB n → Prop} {ch : ℕ → Choices n}
    (hw : Traced.Within P (replayWAL pf ch) db) :
    Traced.Within P (replayEntries pf ch db.shardManager.walEntries 0) { db with
      replaying := true
      shardManager := ShardManager.advanceAll db.shardManager.walEntries db.shardManager } :=
  ((((hw.bind_right (.step _)).bind_left).bind_right .get).bind_right (onManager_tracked
    (.step _))).bind_left

lemma replayed_spec {ch : ℕ →
    Choices n} (h : db.Ready pf) (hwrites : Writes pf db.shardManager.walEntries)
    (hw : Traced.Within (Each Shard.WithinLimits) (replayWAL pf ch) db) :
    (replayed pf ch db).Ready pf ∧ (replayed pf ch db).logs = db.logs ∧
      (replayed pf ch db).toMap pf = Write.replay db.settings.SegSize
        (writesOf pf db.shardManager.walEntries) (db.toMap pf) := by
  obtain ⟨hready, hmap, hlogs⟩ := h.advance db.shardManager.walEntries true
  obtain ⟨hrep, hfinal⟩ := replayEntries_spec hready rfl hwrites (within_replay hw)
  refine ⟨hrep.ready, hrep.logs.trans hlogs, hfinal.trans ?_⟩
  rw [← hmap]
  rfl

theorem replayWAL_spec {ch : ℕ → Choices n} (h : db.Ready pf)
    (hwrites : Writes pf db.shardManager.walEntries)
    (hw : Traced.Within (Each Shard.WithinLimits) (replayWAL pf ch) db) :
    (replayWAL pf ch db).final.toMap pf =
      Write.replay db.settings.SegSize (writesOf pf db.shardManager.walEntries) (db.toMap pf) := by
  obtain ⟨hready, -, hmap⟩ := replayed_spec h hwrites hw
  obtain ⟨-, hflush, -⟩ := ShardManager.flush_spec hready.inv (ch db.shardManager.walEntries.length)
  rw [replayWAL_final]
  exact hflush.trans hmap

end ZestDB

end Zest
