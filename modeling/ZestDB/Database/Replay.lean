import ZestDB.Database.Journal

/-! Commands one after the other, and the replay of their log over the map of the last flush. -/

namespace Zest.ZestDB

open Foundations

variable {n : ℕ} [NeZero n] {pf : Platform} {db db₀ : ZestDB n} {c : Call n} {w : Write} {m : Store}
variable {log : List (Fin n × WalEntry)}

def execAll (pf : Platform) : List (Call n) → Traced (ZestDB n) Unit
  | [] => pure ()
  | c :: cs => do
    let _ ← execCmd pf c
    execAll pf cs

/-- The map at the last flush of the calls, which is `m` when none of them flushes. -/
def lastFlushed (pf : Platform) : List (Call n) → ZestDB n → Store → Store
  | [], _, m => m
  | c :: cs, db, m =>
    lastFlushed pf cs (execCmd pf c db).final
    (if flushes pf c then (execCmd pf c db).final.toMap pf else m)

lemma refusal_fits {settings : Settings} (hs : settings.Accepted)
    (h : refusal pf settings true w = none) :
    w.Fits settings.SegSize := by
  have hv := hs.value
  cases w with
  | set key value =>
    simp only [refusal, Bool.true_and, validateKey, validateValue] at h
    split_ifs at h with _ _ _ hl _
    have hlen : value.length ≤ settings.MaxValueSize := by simpa using hl
    exact hlen.trans hv.le
  | del key => trivial
  | setBy valid value =>
    simp only [refusal, Bool.true_and, validateValue] at h
    split_ifs at h with _ _ hl _
    have hlen : value.length ≤ settings.MaxValueSize := by simpa using hl
    exact hlen.trans hv.le
  | delBy valid => trivial

/-- The database stands where its log, applied to `m`, leads. -/
structure Follows (pf : Platform) (m : Store) (db : ZestDB n) (log : List (Fin n × WalEntry)) :
    Prop where
  good : db.Good
  continues : db.Continues pf
  journal : db.shardManager.Journal log
  writes : Writes pf (log.map Prod.snd)
  toMap : db.toMap pf = Write.applyAll (writesOf pf (log.map Prod.snd)) m

structure Fresh (pf : Platform) (db : ZestDB n) : Prop where
  good : db.Good
  ready : db.Ready pf
  logs : ∀ i, db.logs i = []

lemma Fresh.follows (h : db.Fresh pf) (hm : db.config.mapping = true) :
    Follows pf (db.toMap pf) db [] :=
  ⟨h.good, ⟨h.ready, h.good.replaying, hm⟩, .nil h.logs, by simp [Writes], rfl⟩

omit [NeZero n] in
variable (db) in
lemma Journal.record_fits (hl : c.command.length < 2 ^ 32)
    (hs : db.shardManager.nextSeq + 1 < 2 ^ 64) :
    (db.shardManager.record c.command).Fits ∧ (db.shardManager.record c.command).cmd =
      c.command := by
  have hcmd : (db.shardManager.record c.command).cmd = c.command := by
    change c.command.take (c.command.length % 2 ^ 32) = _
    rw [Nat.mod_eq_of_lt hl, List.take_length]
  refine ⟨⟨by rw [hcmd]; exact hl, ?_⟩, hcmd⟩
  change db.shardManager.nextSeq < 2 ^ 64
  omega

lemma Follows.call (h : Follows pf m db log) (hl : c.command.length < 2 ^ 32)
    (hr : c.rewritten.1.mapping = true) (hs : db.shardManager.nextSeq + 1 < 2 ^ 64)
    (hw : Traced.Within (Each Shard.WithinLimits) (execCmd pf c) db) :
    ∃ log', Follows pf (if flushes pf c then (execCmd pf c db).final.toMap pf else m)
      (execCmd pf c db).final log' ∧
      (execCmd pf c db).final.shardManager.nextSeq ≤ db.shardManager.nextSeq + 1 := by
  have hgood :=
    (execCmd_steady Shard.sound_kept h.good (hw.mono fun _ hs i => (hs i).bounded)).final
      execCmd_tracked
  obtain ⟨hcont, heffect⟩ := execCmd_effect h.continues h.good hr hw
  cases heffect with
  | quiet hf hm hlogs hseq =>
    rw [if_neg (by simp [hf])]
    exact ⟨log, ⟨hgood, hcont, h.journal.same hlogs hseq, h.writes, hm.trans h.toMap⟩, by omega⟩
  | flushed hf hm hlogs hseq =>
    rw [if_pos hf]
    exact ⟨[], ⟨hgood, hcont, .nil hlogs, by simp [Writes], rfl⟩, by omega⟩
  | wrote key w hf ha hr hm hlogs hseq =>
    obtain ⟨hfits, hcmd⟩ := Journal.record_fits db hl hs
    have hwrite : writeOf pf (db.shardManager.record c.command).cmd = some w := by
      rw [hcmd]
      exact writeOf_of_asked ha
    rw [Nat.mod_eq_of_lt hs] at hseq
    rw [if_neg (by simp [hf])]
    refine ⟨log ++ [(ShardManager.getShardId pf key, db.shardManager.record c.command)],
      ⟨hgood, hcont, h.journal.concat hlogs hfits rfl (by omega), fun e he => ?_, ?_⟩, by omega⟩
    · rw [List.map_append] at he
      rcases List.mem_append.mp he with he | he
      · exact h.writes e he
      · obtain rfl : e = db.shardManager.record c.command := by simpa using he
        exact ⟨w, hwrite, (refusal_none h.good.accepted hr).1⟩
    · rw [hm, Write.applyWithin_of_fits (refusal_fits h.good.accepted hr), h.toMap]
      simp only [writesOf, List.map_append, List.map_cons, List.map_nil, List.filterMap_append,
        List.filterMap_cons, hwrite,
        List.filterMap_nil, Write.applyAll, List.foldl_append, List.foldl_cons, List.foldl_nil]

lemma Follows.calls {cs : List (Call n)} (h : Follows pf m db log)
    (hl : ∀ c ∈ cs, c.command.length < 2 ^ 32) (hr : ∀ c ∈ cs, c.rewritten.1.mapping = true)
    (hs : db.shardManager.nextSeq + cs.length < 2 ^ 64)
    (hw : Traced.Within (Each Shard.WithinLimits) (execAll pf cs) db) :
    ∃ log', Follows pf (lastFlushed pf cs db m) (execAll pf cs db).final log' := by
  induction cs generalizing db m log with
  | nil => exact ⟨log, h⟩
  | cons c cs ih =>
    simp only [List.length_cons] at hs
    obtain ⟨log', hstep, hseq⟩ := h.call (hl c (by simp)) (hr c (by simp)) (by omega) hw.bind_left
    exact ih hstep (fun c' hc' => hl c' (by simp [hc'])) (fun c' hc' => hr c' (by simp [hc']))
      (by omega) (hw.bind_right execCmd_tracked)

/-- The log of any calls since the last flush, replayed over the map of that flush, gives the map
the calls ended in, if `config.yaml` is a mapping at every `scfg`. -/
theorem replayWAL_recovers {cs : List (Call n)} {ch : ℕ → Choices n} (h : db.Fresh pf)
    (hm : db.config.mapping = true)
    (hr : ∀ c ∈ cs, c.rewritten.1.mapping = true) (hl : ∀ c ∈ cs, c.command.length < 2 ^ 32)
    (hs : db.shardManager.nextSeq + cs.length < 2 ^ 64)
    (hw : Traced.Within (Each Shard.WithinLimits) (execAll pf cs) db) (h₀ : db₀.Ready pf)
    (hmap : db₀.toMap pf = lastFlushed pf cs db (db.toMap pf))
    (hlogs : db₀.logs = (execAll pf cs db).final.logs)
    (hseg : ∀ w ∈ writesOf pf db₀.shardManager.walEntries, w.Fits db₀.settings.SegSize)
    (hw₀ : Traced.Within (Each Shard.WithinLimits) (replayWAL pf ch) db₀) :
    (replayWAL pf ch db₀).final.toMap pf = (execAll pf cs db).final.toMap pf := by
  obtain ⟨log, hfollows⟩ := (h.follows hm).calls hl hr hs hw
  have hentries : db₀.shardManager.walEntries = log.map Prod.snd := by
    rw [← hfollows.journal.walEntries]
    have hcmds : ∀ i, (db₀.shardManager.shards i).wal.getCmds =
        ((execAll pf cs db).final.shardManager.shards i).wal.getCmds :=
      fun i => congrArg (fun xs => (walCodec.decodeAll xs).1) (congrFun hlogs i)
    simp only [ShardManager.walEntries, hcmds]
  rw [replayWAL_spec h₀ (hentries ▸ hfollows.writes) hw₀, Write.replay_of_fits hseg, hmap, hentries,
    hfollows.toMap]

/-- The database of files without data, whose WALs hold `wals`. -/
def logOnly (settings : Settings) (wals : Fin n → Bytes) : ZestDB n :=
  construct { mapping := true, values := some settings } settings {} {} fun i => ⟨[], ∅, wals i⟩

omit [NeZero n] in
lemma logOnly_shard (settings : Settings) (wals : Fin n → Bytes) (i : Fin n) :
    Shard.Reopened settings ⟨[], ∅, wals i⟩ ((logOnly settings wals).shardManager.shards i) :=
  have hok : Shard.Disk.Ok ⟨[], ∅, wals i⟩ := ⟨Shard.empty_ok.log, Shard.empty_ok.few⟩
  (Shard.boot_spec settings hok .plain .plain).1

variable (pf) in
lemma logOnly_ready (settings : Settings) (wals : Fin n → Bytes) :
    (logOnly settings wals).Ready pf ∧ (logOnly settings wals).toMap pf = (fun _ => none) ∧
      (logOnly settings wals).logs = wals := by
  have hs := logOnly_shard settings wals
  have hnone : ∀ i, ((logOnly settings wals).shardManager.shards i).toMap = fun _ => none :=
    fun i => (hs i).toMap
  refine ⟨⟨⟨fun i => (hs i).inv, fun i k hk => ?_⟩, fun i => (hs i).settings, rfl⟩, ?_, ?_⟩
  · rw [hnone i] at hk
    cases hk
  · funext k
    exact congrFun (hnone (ShardManager.getShardId pf k)) k
  · funext i
    change ((logOnly settings wals).shardManager.shards i).wal.file.content = _
    rw [(hs i).wal]
    exact BufferedFile.content_ofContent _

lemma logOnly_fresh {settings : Settings} (hs : settings.Accepted) :
    (logOnly settings (fun _ => []) : ZestDB n).Fresh pf := by
  obtain ⟨hready, -, hlogs⟩ := logOnly_ready (n := n) pf settings fun _ => []
  refine ⟨new_good (fun s hss => ?_) hs {} {}, hready, fun i => by rw [hlogs]⟩
  obtain rfl : settings = s := by simpa using hss
  exact hs.typed

section OneShard

def emptyOne : ZestDB 1 := logOnly {} fun _ => []

lemma emptyOne_ready : emptyOne.Ready Op.oneHash ∧ emptyOne.toMap Op.oneHash = (fun _ => none) ∧
    emptyOne.logs = fun _ => [] :=
  logOnly_ready _ {} _

lemma emptyOne_fresh : emptyOne.Fresh Op.oneHash := logOnly_fresh default_accepted

def twoWrites : List (Call 1) :=
  [{ command := ascii " SET a x" }, { command := ascii "sb sw a yy lim 1" }]

def afterTwoWrites : ZestDB 1 := (execAll Op.oneHash twoWrites emptyOne).final

theorem twoWrites_recovered :
    afterTwoWrites.toMap Op.oneHash (ascii "a") = some (ascii "yy") ∧
      (replayWAL Op.oneHash (fun _ => {}) (logOnly {} afterTwoWrites.logs)).final.toMap Op.oneHash =
        afterTwoWrites.toMap Op.oneHash := by
  obtain ⟨hready, hmap, hlogs⟩ := logOnly_ready Op.oneHash {} afterTwoWrites.logs
  refine ⟨by decide +kernel,
    replayWAL_recovers emptyOne_fresh rfl (by decide) (by decide) (by decide +kernel)
    (by decide +kernel) hready (hmap.trans ?_) hlogs (fun w hw => Write.fits_iff.mpr ?_)
    (by decide +kernel)⟩
  · exact emptyOne_ready.2.1.symm
  · revert w
    decide +kernel

end OneShard

section Padded

def padded (k : ℕ) : Bytes := List.replicate k 32 ++ ascii "set a x"

lemma padded_words (k : ℕ) :
    words (padded k) = [⟨ascii "set", ascii "set a x"⟩, ⟨ascii "a", ascii "a x"⟩,
      ⟨ascii "x", ascii "x"⟩] := by
  have htrim : trimmed (padded k) = ascii "set a x" := by
    have hdrop : (padded k).dropWhile isBlank = ascii "set a x" := by
      induction k with
      | zero => decide
      | succ k ih => simpa [padded, List.replicate_succ, isBlank] using ih
    rw [trimmed, hdrop]
    decide
  have hlen : (padded k).length = k + 7 := by simp [padded, ascii]
  rw [words, htrim, hlen]
  rfl

lemma padded_asked (k : ℕ) :
    asked Op.oneHash ({ command := padded k } : Call 1) =
      some (ascii "a", .write (.set (ascii "a") (ascii "x"))) := by
  simp only [asked, padded_words]
  rfl

lemma padded_record {k : ℕ} (h7 : 7 ≤ k) (hk : (k + 7) % 2 ^ 32 = 7) (sm : ShardManager 1) :
    sm.record (padded k) = ⟨ascii "       ", sm.nextSeq⟩ := by
  have hlen : (padded k).length = k + 7 := by simp [padded, ascii]
  rw [ShardManager.record, hlen, hk, padded, List.take_append_of_le_length (by simpa using h7),
    List.take_replicate, min_eq_left h7]
  rfl

def afterPadded (k : ℕ) : ZestDB 1 := (execAll Op.oneHash [{ command := padded k }] emptyOne).final

def cutLog : ZestDB 1 := logOnly {} fun _ => walCodec.encode ⟨ascii "       ", 0⟩

lemma afterPadded_spec {k : ℕ} (h7 : 7 ≤ k) (hk : (k + 7) % 2 ^ 32 = 7) :
    (afterPadded k).toMap Op.oneHash (ascii "a") = some (ascii "x") ∧
      (afterPadded k).logs = fun _ => walCodec.encode ⟨ascii "       ", 0⟩ := by
  obtain ⟨hready, -, hlogs⟩ := emptyOne_ready
  obtain ⟨w, hw⟩ : ∃ w : Write, w = .set (ascii "a") (ascii "x") := ⟨_, rfl⟩
  have hrefusal : refusal Op.oneHash {} true w = none := by
    rw [hw]
    decide
  obtain ⟨hv, -⟩ := refusal_none default_accepted hrefusal
  obtain ⟨t, ht, hwrote, hsucc⟩ := write_wrote {} hready hrefusal hv (by rw [hw]; decide +kernel)
  have hcode : (write Op.oneHash {} w emptyOne).val.code = .Success := by
    rw [hsucc, hw]
    exact show (ascii "x").length ≤ 128000 by decide
  obtain ⟨u, hu, hrec⟩ :=
    log_recorded { emptyOne with shardManager := t } (ascii "a") (padded k) true hwrote.inv
    (hwrote.kept.uniform hready.uniform)
  have hfinal : afterPadded k = { emptyOne with shardManager := u } := by
    change (execCmd Op.oneHash { command := padded k } emptyOne).final = _
    rw [execCmd_some (padded_asked k), ← hw]
    change (writeAndLog Op.oneHash _ _ w _).final = _
    rw [writeAndLog_final, ht, if_pos, hu]
    simp only [hcode]
    rfl
  have hmap : u.toMap Op.oneHash = w.applyWithin 128000 (emptyOne.toMap Op.oneHash) :=
    hrec.toMap.trans hwrote.toMap
  rw [hfinal]
  constructor
  · change u.toMap Op.oneHash _ = _
    have hfits : Write.Fits 128000 (.set (ascii "a") (ascii "x")) :=
      show (ascii "x").length ≤ 128000 by decide
    rw [hmap, hw, Write.applyWithin_of_fits hfits]
    simp only [Write.apply, Function.update_self]
  · funext i
    have hl := hrec.logs i
    change u.logs i = if _ then t.logs i ++ walCodec.encode (t.record _) else _ at hl
    have hseq : t.nextSeq = 0 := hwrote.kept.nextSeq
    have ht' : t.logs i = [] := (congrFun hwrote.kept.logs i).trans (congrFun hlogs i)
    rw [if_pos (Subsingleton.elim _ _), padded_record h7 hk, ht', hseq] at hl
    exact hl

lemma padded_not_recovered {k : ℕ} (h7 : 7 ≤ k) (hk : (k + 7) % 2 ^ 32 = 7) :
    cutLog.toMap Op.oneHash = lastFlushed Op.oneHash [{ command := padded k }] emptyOne
        (emptyOne.toMap Op.oneHash) ∧
      cutLog.logs = (afterPadded k).logs ∧
      (replayWAL Op.oneHash (fun _ => {}) cutLog).final.toMap Op.oneHash ≠
        (afterPadded k).toMap Op.oneHash := by
  obtain ⟨-, hmap, hlogs⟩ :=
    logOnly_ready (n := 1) Op.oneHash {} fun _ => walCodec.encode ⟨ascii "       ", 0⟩
  obtain ⟨hvalue, hafter⟩ := afterPadded_spec h7 hk
  refine ⟨hmap.trans ?_, hlogs.trans hafter.symm, fun h => ?_⟩
  · have hflush : flushes Op.oneHash ({ command := padded k } : Call 1) = false := by
      simp only [flushes, padded_asked]
    simp only [lastFlushed, hflush]
    exact emptyOne_ready.2.1.symm
  · have hnone : (replayWAL Op.oneHash (fun _ => {}) cutLog).final.toMap Op.oneHash (ascii "a") =
        none := by decide +kernel
    rw [h, hvalue] at hnone
    cases hnone

/-- The WAL of a text of `2 ^ 32` blanks and a write does not bring the write back. -/
theorem cutLog_not_recovered :
    emptyOne.Fresh Op.oneHash ∧ cutLog.Ready Op.oneHash ∧
      (∀ w ∈ writesOf Op.oneHash cutLog.shardManager.walEntries, w.Fits 128000) ∧
      cutLog.toMap Op.oneHash = lastFlushed Op.oneHash [{ command := padded (2 ^ 32) }] emptyOne
        (emptyOne.toMap Op.oneHash) ∧
      cutLog.logs = (afterPadded (2 ^ 32)).logs ∧
      (replayWAL Op.oneHash (fun _ => {}) cutLog).final.toMap Op.oneHash ≠
        (afterPadded (2 ^ 32)).toMap Op.oneHash := by
  refine ⟨emptyOne_fresh, (logOnly_ready _ {} _).1, fun w hw => Write.fits_iff.mpr ?_,
    padded_not_recovered (by decide) (by decide)⟩
  revert w
  decide +kernel

end Padded

end Zest.ZestDB
