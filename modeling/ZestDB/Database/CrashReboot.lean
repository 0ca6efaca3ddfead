import ZestDB.Database.Atomic
import ZestDB.Manager.Sequence

/-! The reboot after a crash: a key is what its last record in the WAL says, or else what INDEX
says, and it is lost when that points to bytes that are not there. -/

namespace Zest

open Foundations

variable {pf : Platform}

namespace ShardManager

variable {n : ℕ} [NeZero n] {sm : ShardManager n} {segSize : ℕ} {allowed : Key → Set (Option Value)}
  {k : Key}
variable {log : List (Fin n × WalEntry)} {disks : Fin n → Shard.Disk}

lemma OneKey.outcomes_elsewhere {p : Fin n × WalEntry} (h : OneKey pf segSize p)
    (hk : getShardId pf k ≠ p.1) :
    outcomes pf k [p.2] = [] := by
  obtain ⟨w, key, hw, hkey, hp, -⟩ := h
  have hne : ¬ some key = some k := fun he => hk (by rw [hp, Option.some.inj he])
  simp only [outcomes, writesOf, List.filterMap_cons, hw, List.filterMap_nil, Write.outcome, hkey,
    if_neg hne]

lemma outcomes_part (h : ∀ p ∈ log, OneKey pf segSize p) (k : Key) :
    outcomes pf k (log.map Prod.snd) = outcomes pf k (part log (getShardId pf k)) := by
  induction log with
  | nil => rfl
  | cons p log ih =>
    obtain ⟨i, e⟩ := p
    have hrest := ih fun q hq => h q (by simp [hq])
    have hcons : ∀ rs, outcomes pf k (e :: rs) = outcomes pf k [e] ++ outcomes pf k rs :=
      outcomes_append [e]
    rw [List.map_cons, part_cons, hcons (log.map Prod.snd), hrest]
    split_ifs with hk
    · rw [hcons (part log (getShardId pf k))]
    · rw [(h (i, e) (by simp)).outcomes_elsewhere hk, List.nil_append]

lemma outcomes_part_elsewhere (h : ∀ p ∈ log, OneKey pf segSize p) {i : Fin n}
    (hk : getShardId pf k ≠ i) :
    outcomes pf k (part log i) = [] := by
  induction log with
  | nil => rfl
  | cons p log ih =>
    obtain ⟨j, e⟩ := p
    have hrest := ih fun q hq => h q (by simp [hq])
    rw [part_cons]
    split_ifs with hj
    · subst hj
      have hcons : outcomes pf k (e :: part log i) =
          outcomes pf k [e] ++ outcomes pf k (part log i) :=
        outcomes_append [e] _
      rw [hcons, hrest, (h (i, e) (by simp)).outcomes_elsewhere hk]
      rfl
    · exact hrest

omit [NeZero n] in
lemma Journal.left (h : Journal sm log) (hc : ∀ i, (sm.shards i).wal.file.Survives (disks i).wal) :
    ∃ kept, kept.Sublist log ∧ ∀ i, (walCodec.decodeAll (disks i).wal).1 = part kept i := by
  have hread : ∀ i, (walCodec.decodeAll (disks i).wal).1 <+: part log i := by
    intro i
    have hle : (disks i).wal <+: walCodec.encodeAll (part log i) := by
      rw [← h.parts i]
      exact (hc i).le_content
    have hfits : ∀ e ∈ part log i, walCodec.Valid e := fun e he => h.fits _ (mem_part he)
    have hprefix := walCodec.decodeAll_prefix hfits hle List.prefix_rfl
    rwa [walCodec.decodeAll_encodeAll _ hfits] at hprefix
  obtain ⟨kept, hsub, hpart⟩ := exists_kept log fun i => (walCodec.decodeAll (disks i).wal).1.length
  refine ⟨kept, hsub, fun i => ?_⟩
  rw [hpart]
  exact List.prefix_iff_eq_take.mp (hread i)

end ShardManager

/-- What a crash leaves of a shard, with few enough keys for the compaction of the next boot. -/
structure Shard.Remnant (s : Shard) (disk : Disk) : Prop extends s.Crash disk where
  few : disk.FewKeys

lemma Shard.Remnant.disk_ok {s : Shard} {disk : Disk} (h : s.Remnant disk) (hl : s.Logged) :
    disk.Ok :=
  h.toCrash.disk_ok hl h.few

namespace ZestDB

variable {n : ℕ} [NeZero n] {u : ZestDB n} {k : Key} {allowed : Key → Set (Option Value)}
  {disks : Fin n → Shard.Disk}
variable {ch fill : Choices n} {chs : ℕ → Choices n}

/-- The shards opened from the files that a crash of `u` left. -/
def opened (u : ZestDB n) (ch fill : Choices n) (disks : Fin n → Shard.Disk) : ZestDB n :=
  construct u.config u.settings ch fill disks

/-- INDEX points for the key to bytes that are not there, and the WAL says nothing of it. -/
def Unbacked (pf : Platform) (k : Key) (disk : Shard.Disk) : Prop :=
  Shard.Dangling disk.files disk.view k ∧ outcomes pf k (walCodec.decodeAll disk.wal).1 = []

lemma opened_ready (hg : u.Good) (h : u.Holds pf allowed)
    (hc : ∀ i, (u.shardManager.shards i).Remnant (disks i))
    (ch fill : Choices n) : (u.opened ch fill disks).Ready pf ∧
    (u.opened ch fill disks).Each Shard.Sound := by
  obtain ⟨log, hlog, hone⟩ := h.journal
  obtain ⟨kept, hsub, hkept⟩ := hlog.left fun i => (hc i).wal
  have hok : ∀ i, (disks i).Ok := fun i => (hc i).disk_ok (hg.shards i).logged
  have hre : ∀ i, Shard.Reopened u.settings (disks i)
      ((u.opened ch fill disks).shardManager.shards i) := fun i =>
    (Shard.boot_spec u.settings (hok i) (ch.shard i) (fill.shard i)).1
  refine ⟨⟨⟨fun i => (hre i).inv, fun i k hk => ?_⟩, fun i => (hre i).settings, rfl⟩, fun i =>
    Shard.reopen_sound u.settings (ch.shard i) (fill.shard i) (hok i)⟩
  by_contra hne
  have hnone : outcomes pf k (walCodec.decodeAll (disks i).wal).1 = [] := by
    rw [hkept]
    exact ShardManager.outcomes_part_elsewhere (fun p hp => hone p (hsub.subset hp)) hne
  have hoff := (h.covered i k).offered _ (hc i).wal hnone
  have hlost : ((u.opened ch fill disks).shardManager.shards i).toMap k = none := by
    by_cases hd : Shard.Dangling (disks i).files (disks i).view k
    · exact Shard.reopen_dangling (hok i) hd u.settings (ch.shard i) (fill.shard i)
    · have hat := hoff.reopen (hg.shards i).logged (hc i).few (hc i).toCrash hd u.settings
        (ch.shard i) (fill.shard i)
      rwa [ShardManager.allowedAt, if_neg hne] at hat
  rw [hlost] at hk
  cases hk

lemma opened_entries (hg : u.Good) (h : u.Holds pf allowed)
    (hc : ∀ i, (u.shardManager.shards i).Remnant (disks i)) (ch fill : Choices n) :
    ∃ kept : List (Fin n × WalEntry), (u.opened ch fill disks).shardManager.walEntries =
      kept.map Prod.snd ∧ (∀ p ∈ kept, ShardManager.OneKey pf u.settings.SegSize p) ∧
      ∀ i, (walCodec.decodeAll (disks i).wal).1 = part kept i := by
  obtain ⟨log, hlog, hone⟩ := h.journal
  obtain ⟨kept, hsub, hkept⟩ := hlog.left fun i => (hc i).wal
  refine ⟨kept, ?_, fun p hp => hone p (hsub.subset hp), hkept⟩
  have hcmds : (fun i => ((u.opened ch fill disks).shardManager.shards i).wal.getCmds) =
      part kept := by
    funext i
    have hwal : ((u.opened ch fill disks).shardManager.shards i).wal = .openWal (disks i).wal :=
      (Shard.boot_spec u.settings ((hc i).disk_ok (hg.shards i).logged) (ch.shard i)
        (fill.shard i)).1.wal
    rw [hwal, ← hkept]
    simp [WAL.getCmds, WAL.openWal]
  rw [ShardManager.walEntries, hcmds]
  exact sort_parts WalEntry.seq kept (hlog.ordered.sublist (hsub.map _))

omit [NeZero n] in
lemma entry_writes [NeZero n] {kept : List (Fin n × WalEntry)} {segSize : ℕ}
    (h : ∀ p ∈ kept, ShardManager.OneKey pf segSize p) {e : WalEntry} (he : e ∈ kept.map Prod.snd) :
    ∃ w, writeOf pf e.cmd = some w ∧ (∃ key, w.key? = some key) ∧ w.ValueOk ∧ w.KeyOk ∧
      w.Fits segSize := by
  obtain ⟨p, hp, rfl⟩ := List.mem_map.mp he
  obtain ⟨w, key, hw, hkey, -, hv, hk, hf⟩ := h p hp
  exact ⟨w, hw, ⟨key, hkey⟩, hv, hk, hf⟩

lemma replayWAL_outcome (hg : u.Good) (h : u.Holds pf allowed)
    (hc : ∀ i, (u.shardManager.shards i).Remnant (disks i))
    (hw : Traced.Within (Each Shard.WithinLimits) (replayWAL pf chs) (u.opened ch fill disks))
    (k : Key) :
    (replayWAL pf chs (u.opened ch fill disks)).final.toMap pf k =
      ((outcomes pf k (walCodec.decodeAll
        (disks (ShardManager.getShardId pf k)).wal).1).getLast?).getD
        ((u.opened ch fill disks).toMap pf k) := by
  obtain ⟨hready, -⟩ := opened_ready hg h hc ch fill
  obtain ⟨kept, hentries, hone, hkept⟩ := opened_entries hg h hc ch fill
  have hwrites : ∀ w ∈ writesOf pf (kept.map Prod.snd), (∃ key, w.key? = some key) ∧
      w.Fits u.settings.SegSize := by
    intro w hmem
    obtain ⟨e, he, hwe⟩ := List.mem_filterMap.mp hmem
    obtain ⟨w', hw', hkey, -, -, hf⟩ := entry_writes hone he
    obtain rfl : w' = w := Option.some.inj (hw'.symm.trans hwe)
    exact ⟨hkey, hf⟩
  have hvalues : Writes pf (u.opened ch fill disks).shardManager.walEntries := by
    intro e he
    rw [hentries] at he
    obtain ⟨w, hw, -, hv, -⟩ := entry_writes hone he
    exact ⟨w, hw, hv⟩
  have hsize : (u.opened ch fill disks).settings.SegSize = u.settings.SegSize := rfl
  rw [replayWAL_spec hready hvalues hw, hentries, hsize,
    Write.replay_of_fits fun w hw => (hwrites w hw).2,
    Write.applyAll_outcome fun w hw => (hwrites w hw).1]
  change ((outcomes pf k (kept.map Prod.snd)).getLast?).getD _ = _
  rw [ShardManager.outcomes_part hone, ← hkept]

theorem replayWAL_allowed_iff (hg : u.Good) (h : u.Holds pf allowed)
    (hc : ∀ i, (u.shardManager.shards i).Remnant (disks i))
    (hw : Traced.Within (Each Shard.WithinLimits) (replayWAL pf chs) (u.opened ch fill disks)) :
    (∀ k, (replayWAL pf chs (u.opened ch fill disks)).final.toMap pf k ∈ allowed k) ↔
      ∀ k, Unbacked pf k (disks (ShardManager.getShardId pf k)) → none ∈ allowed k := by
  have hok : ∀ i, (disks i).Ok := fun i => (hc i).disk_ok (hg.shards i).logged
  constructor
  · rintro hall k ⟨hd, hnone⟩
    have hk := hall k
    rw [replayWAL_outcome hg h hc hw, hnone, List.getLast?_nil, Option.getD_none] at hk
    have hlost := Shard.reopen_dangling (hok _) hd u.settings
      (ch.shard (ShardManager.getShardId pf k)) (fill.shard (ShardManager.getShardId pf k))
    rwa [← hlost]
  · intro hbacked k
    obtain ⟨i, hi⟩ : ∃ i : Fin n, i = ShardManager.getShardId pf k := ⟨_, rfl⟩
    have hcov := h.covered i k
    have hat : ∀ o, ShardManager.allowedAt pf allowed i k o → o ∈ allowed k := fun o ho => by
      rwa [ShardManager.allowedAt, if_pos hi.symm] at ho
    rw [replayWAL_outcome hg h hc hw, ← hi]
    cases hlast : (outcomes pf k (walCodec.decodeAll (disks i).wal).1).getLast? with
    | some o => exact hat o (hcov.logged _ (hc i).wal o hlast)
    | none =>
      have hnil : outcomes pf k (walCodec.decodeAll (disks i).wal).1 = [] :=
        List.getLast?_eq_none_iff.mp hlast
      have hmap : (u.opened ch fill disks).toMap pf k =
          (Shard.reopen u.settings (ch.shard i) (fill.shard i) (disks i)).toMap k := by
        rw [hi]
        rfl
      rw [Option.getD_none, hmap]
      by_cases hd : Shard.Dangling (disks i).files (disks i).view k
      · rw [Shard.reopen_dangling (hok i) hd]
        exact hbacked k (hi ▸ ⟨hd, hnil⟩)
      · exact hat _ ((hcov.offered _ (hc i).wal hnil).reopen (hg.shards i).logged (hc i).few
          (hc i).toCrash hd _ _ _)

lemma execCmd_replaying_sound {db : ZestDB n} {w : Write} {command : Bytes}
    (hs : db.Each Shard.Sound)
    (hr : db.replaying = true) (hw : writeOf pf command = some w) (hv : w.ValueOk) (hk : w.KeyOk)
    (hwithin : Traced.Within (Each Shard.WithinLimits)
      (execCmd pf { command := command, choices := ch }) db) :
    (execCmd pf { command := command, choices := ch } db).final.Each Shard.Sound ∧
      (execCmd pf { command := command, choices := ch } db).final.config = db.config := by
  obtain ⟨key, hask⟩ := asked_of_writeOf ch hw
  have href : refusal pf db.settings (!db.replaying) w = none := by
    rw [hr]
    exact refusal_replaying hv
  have hlimits := hwithin
  rw [execCmd_some hask] at hlimits
  have hwrite := hlimits.bind_left.bind_left
  simp only [Traced.Within] at hwrite
  rw [write_accepted href] at hwrite
  have hsound :=
    (ShardManager.write_kept Shard.sound_kept hs hv hk
      ((within_onManager hwrite).mono fun _ h i => (h i).bounded)).final
    (ShardManager.write_tracked w)
  rw [(execCmd_write hask db).1, writeAndLog_final, write_accepted href, if_neg]
  · exact ⟨hsound, rfl⟩
  · change ¬ (!db.replaying && _) = true
    simp [hr]

lemma replayEntries_sound {db : ZestDB n} {entries : List WalEntry} {i : ℕ} (h : db.Ready pf)
    (hs : db.Each Shard.Sound) (hr : db.replaying = true)
    (hwrites : ∀ e ∈ entries, ∃ w, writeOf pf e.cmd = some w ∧ w.ValueOk ∧ w.KeyOk)
    (hw : Traced.Within (Each Shard.WithinLimits) (replayEntries pf chs entries i) db) :
    (replayEntries pf chs entries i db).final.Each Shard.Sound ∧
      (replayEntries pf chs entries i db).final.config = db.config := by
  induction entries generalizing db i with
  | nil => exact ⟨hs, rfl⟩
  | cons e entries ih =>
    obtain ⟨w, hwe, hv, hk⟩ := hwrites e (by simp)
    obtain ⟨hsound, hconfig⟩ := execCmd_replaying_sound hs hr hwe hv hk hw.bind_left
    obtain ⟨hstep, -, -⟩ := execCmd_replaying (chs i) h hr hwe hv hw.bind_left
    obtain ⟨hrest, hconfig'⟩ :=
      ih hstep.ready hsound hstep.replaying (fun e' he' => hwrites e' (by simp [he']))
      (hw.bind_right execCmd_tracked)
    exact ⟨hrest, hconfig'.trans hconfig⟩

namespace Site

variable {s t : Site n} {a : Action n}

lemma Kept.of_rest {db : ZestDB n} (hg : db.Good) (hr : db.Ready pf) (hw : ∀ i, db.logs i = [])
    (hoff : ∀ i k, (db.shardManager.shards i).Offers (· = (db.shardManager.shards i).toMap k) k) :
    Kept pf ⟨db, fun k => {db.toMap pf k}⟩ := by
  refine ⟨hg, hr, ⟨hg.shards, ⟨[], .nil hw, by simp⟩, fun i k => ?_⟩, fun k => rfl⟩
  refine .of_offers ((hoff i k).mono fun o ho => ?_) fun file hf => ?_
  · have hat : ShardManager.allowedAt pf (fun k => {db.toMap pf k}) i k
        ((db.shardManager.shards i).toMap k) :=
      ShardManager.allowedAt_toMap hr.inv (fun _ => Set.mem_singleton _) i k
    rw [ho]
    exact hat
  · have hle := hf.le_content
    rw [show (db.shardManager.shards i).wal.file.content = [] from hw i] at hle
    exact List.prefix_nil.mp hle

lemma new_kept {config : ConfigFile} {settings : Settings} (hc : config.Typed)
    (hs : settings.Accepted) (ch fill : Choices n) :
    Kept pf ⟨new config settings ch fill, fun k => {(new config settings ch fill).toMap pf k}⟩ := by
  have hre : ∀ i, Shard.Reopened settings .empty
      ((new config settings ch fill).shardManager.shards i) := fun i =>
    (Shard.boot_spec settings Shard.empty_ok (ch.shard i) (fill.shard i)).1
  have hnone : ∀ i k, ((new config settings ch fill).shardManager.shards i).toMap k = none :=
    fun i k =>
    congrFun (Shard.reopen_empty settings (ch.shard i) (fill.shard i)).2.1 k
  refine .of_rest (new_good hc hs ch fill)
    ⟨⟨fun i => (hre i).inv, fun i k hk => ?_⟩, fun i => (hre i).settings, rfl⟩
    (fun i => ?_) fun i k f hf => ?_
  · rw [hnone] at hk
    cases hk
  · change ((new config settings ch fill).shardManager.shards i).wal.file.content = []
    rw [(hre i).wal]
    rfl
  · have hview : f k = none := by
      rcases (hre i).views f hf k with he | ⟨hn, -⟩
      · exact he
      · exact hn
    refine ⟨fun _ => (hnone i k).symm, fun loc hloc => ?_⟩
    rw [hview] at hloc
    cases hloc

def rebooted (pf : Platform) (u : ZestDB n) (ch fill : Choices n) (chs : ℕ → Choices n)
    (disks : Fin n → Shard.Disk) :
    Site n where
  db := (replayWAL pf chs (u.opened ch fill disks)).final
  allowed k := {(replayWAL pf chs (u.opened ch fill disks)).final.toMap pf k}

lemma rebooted_kept (hg : u.Good) (h : u.Holds pf allowed)
    (hc : ∀ i, (u.shardManager.shards i).Remnant (disks i))
    (hw : Traced.Within (Each Shard.WithinLimits) (replayWAL pf chs) (u.opened ch fill disks)) :
    (rebooted pf u ch fill chs disks).Kept pf := by
  obtain ⟨hready, hsound⟩ := opened_ready hg h hc ch fill
  obtain ⟨kept, hentries, hone, -⟩ := opened_entries hg h hc ch fill
  obtain ⟨hadvanced, -, -⟩ := hready.advance (u.opened ch fill disks).shardManager.walEntries true
  have hwrites : ∀ e ∈ (u.opened ch fill disks).shardManager.walEntries,
      ∃ w, writeOf pf e.cmd = some w ∧ w.ValueOk ∧ w.KeyOk := by
    intro e he
    rw [hentries] at he
    obtain ⟨w, hw, -, hv, hk, -⟩ := entry_writes hone he
    exact ⟨w, hw, hv, hk⟩
  have hstart : Each Shard.Sound { u.opened ch fill disks with
      replaying := true
      shardManager := ShardManager.advanceAll (u.opened ch fill disks).shardManager.walEntries
        (u.opened ch fill disks).shardManager } := by
    intro i
    change ((ShardManager.advanceAll _ _).shards i).Sound
    rw [ShardManager.advanceAll_shards]
    exact hsound i
  obtain ⟨hlast, hconfig⟩ := replayEntries_sound hadvanced hstart rfl hwrites (within_replay hw)
  obtain ⟨hrep, -⟩ := replayEntries_spec hadvanced rfl (fun e he => by
    obtain ⟨w, hw, hv, -⟩ := hwrites e he
    exact ⟨w, hw, hv⟩) (within_replay hw)
  have hfinal : (rebooted pf u ch fill chs disks).db =
      { replayed pf chs (u.opened ch fill disks) with
      replaying := false
      shardManager :=
        (ShardManager.flush (chs (u.opened ch fill disks).shardManager.walEntries.length)
        (replayed pf chs (u.opened ch fill disks)).shardManager).final } := rfl
  have hrest := ShardManager.flush_atRest hlast
    (chs (u.opened ch fill disks).shardManager.walEntries.length)
  obtain ⟨hi, -, hs, -, hu⟩ := ShardManager.flush_spec hrep.ready.inv
    (chs (u.opened ch fill disks).shardManager.walEntries.length)
  have hset : (replayed pf chs (u.opened ch fill disks)).settings = u.settings := hrep.settings
  have hcfg : (replayed pf chs (u.opened ch fill disks)).config = u.config := hconfig
  change Kept pf ⟨(rebooted pf u ch fill chs disks).db,
    fun k => {(rebooted pf u ch fill chs disks).db.toMap pf k}⟩
  refine .of_rest ?_ ?_ (fun i => (hrest i).wal) fun i k => .of_flushed (hrest i).sound.inv
    (hrest i).flushed.index rfl
  · refine ⟨fun i => (hrest i).sound, ?_, ?_, rfl⟩
    · rw [hfinal]
      change (replayed pf chs (u.opened ch fill disks)).settings.Accepted
      rw [hset]
      exact hg.accepted
    · rw [hfinal]
      change (replayed pf chs (u.opened ch fill disks)).config.Typed
      rw [hcfg]
      exact hg.config
  · exact ⟨hi, fun i => (hu i).trans ((hrep.ready.uniform i).trans hs.symm),
      hs.trans hrep.ready.settings⟩

/-- A crash at some moment of an action; before a flush is between two actions. -/
structure Crash (pf : Platform) (s : Site n) (a : Action n) (u : ZestDB n)
    (disks : Fin n → Shard.Disk) : Prop where
  checked : a.Checked pf
  roomy : s.Roomy pf a
  moment : u ∈ s.db :: (a.run pf s.db).visited
  disks : ∀ i, (u.shardManager.shards i).Remnant (disks i)

inductive Step (pf : Platform) : Site n → Site n → Prop
  | act (s : Site n) (a : Action n) : a.Checked pf → s.Roomy pf a → Step pf s (s.after pf a)
  | reboot (s : Site n) (a : Action n) (u : ZestDB n) (ch fill : Choices n) (chs : ℕ → Choices n)
      (disks : Fin n → Shard.Disk) : s.Crash pf a u disks →
      Traced.Within (Each Shard.WithinLimits) (replayWAL pf chs) (u.opened ch fill disks) →
      Step pf s (rebooted pf u ch fill chs disks)

def first (pf : Platform) (config : ConfigFile) (settings : Settings) (ch fill : Choices n) :
    Site n where
  db := new config settings ch fill
  allowed k := {(new config settings ch fill).toMap pf k}

lemma Kept.crash (h : s.Kept pf) (hc : s.Crash pf a u disks) :
    u.Good ∧ u.Holds pf (s.during pf a) := by
  refine ⟨?_, (h.act hc.checked hc.roomy).1 u hc.moment⟩
  have hlimits : Traced.Within (Each Shard.Bounded) (a.run pf) s.db :=
    hc.roomy.within.mono fun _ hs i => (hs i).bounded
  cases a with
  | exec c =>
    have hgood : Traced.Within Good ((Action.exec c).run pf) s.db :=
      .bind_pure (execCmd_steady Shard.sound_kept h.good hlimits.bind_left) execCmd_tracked _
    exact hgood u hc.moment
  | flush ch => exact flush_steady Shard.sound_kept h.good u hc.moment
  | compact ch i =>
    exact onManager_steady h.good
      (ShardManager.compactorPass_sound h.good.shards hc.roomy.few (within_onManager hlimits)) u
      hc.moment

lemma Kept.step (h : s.Kept pf) (hs : Step pf s t) : t.Kept pf := by
  cases hs with
  | act a ha hroom => exact (h.act ha hroom).2
  | reboot a u ch fill chs disks hc hw =>
    obtain ⟨hg, hholds⟩ := h.crash hc
    exact rebooted_kept hg hholds hc.disks hw

/-- After a crash of any run, and the reboot, every key has the outcome of its last acknowledged
command or of a later one, exactly when INDEX points for no other key to bytes that are not there
while the WAL has no record of the key; each compaction of the run lists every key. -/
theorem crash_allowed_iff {config : ConfigFile} {settings : Settings} (hc : config.Typed)
    (hs : settings.Accepted) {ch₀ fill₀ : Choices n}
    (hrun : Relation.ReflTransGen (Step pf) (first pf config settings ch₀ fill₀) s)
    (hcrash : s.Crash pf a u disks)
    (hw : Traced.Within (Each Shard.WithinLimits) (replayWAL pf chs) (u.opened ch fill disks)) :
    (∀ k, (replayWAL pf chs (u.opened ch fill disks)).final.toMap pf k ∈ s.during pf a k) ↔
      ∀ k, Unbacked pf k (disks (ShardManager.getShardId pf k)) → none ∈ s.during pf a k := by
  have hkept : s.Kept pf := by
    clear hcrash
    induction hrun with
    | refl => exact new_kept hc hs ch₀ fill₀
    | tail _ hs ih => exact ih.step hs
  obtain ⟨hg, hholds⟩ := hkept.crash hcrash
  exact replayWAL_allowed_iff hg hholds hcrash.disks hw

section OneShard

def oneStart : Site 1 := first Op.oneHash .defaults {} {} {}

def setA (value : String) : Action 1 := .exec { command := ascii ("set a " ++ value) }

def oneKey : Site 1 := oneStart.after Op.oneHash (setA "x")

def oneFlushed : Site 1 := oneKey.after Op.oneHash (.flush {})

lemma setX_checked : (setA "x").Checked Op.oneHash :=
  ⟨⟨ascii "a", .set (ascii "a") (ascii "x"), ascii "a", rfl, rfl⟩, by decide⟩

lemma setY_checked : (setA "y").Checked Op.oneHash :=
  ⟨⟨ascii "a", .set (ascii "a") (ascii "y"), ascii "a", rfl, rfl⟩, by decide⟩

lemma oneKey_step : Step Op.oneHash oneStart oneKey :=
  .act _ _ setX_checked ⟨by decide +kernel, trivial, by decide +kernel⟩

lemma oneFlushed_step : Step Op.oneHash oneKey oneFlushed :=
  .act _ _ trivial ⟨by decide +kernel, trivial, by decide +kernel⟩

lemma none_not_allowed : none ∉ oneKey.allowed (ascii "a") := by
  have ha : asked (n := 1) Op.oneHash { command := ascii "set a x" } =
      some (ascii "a", .write (.set (ascii "a") (ascii "x"))) := rfl
  have hgives : (setA "x").gives Op.oneHash oneStart.db (ascii "a") = {some (ascii "x")} := by
    have h := gives_eq ha rfl oneStart.db (ascii "a")
    rw [if_pos ⟨rfl, by decide +kernel⟩] at h
    exact h
  rintro (hnone | ⟨-, hnone⟩)
  · rw [hgives] at hnone
    cases hnone
  · have hempty := hnone rfl
    rw [hgives] at hempty
    exact Set.singleton_ne_empty _ hempty

def savedDisk (i : Fin 1) : Shard.Disk := (oneKey.db.shardManager.shards i).saved

theorem savedDisk_allowed :
    (∀ k, (replayWAL Op.oneHash (fun _ => {}) (oneKey.db.opened {} {} savedDisk)).final.toMap
      Op.oneHash k ∈ oneKey.during Op.oneHash (.flush {}) k) ∧
      (replayWAL Op.oneHash (fun _ => {}) (oneKey.db.opened {} {} savedDisk)).final.toMap Op.oneHash
      (ascii "a") = some (ascii "x") := by
  have hfew : ∀ i, (savedDisk i).FewKeys := by decide +kernel
  have hcrash : oneKey.Crash Op.oneHash (.flush {}) oneKey.db savedDisk :=
    ⟨trivial, ⟨by decide +kernel, trivial, by decide +kernel⟩, List.mem_cons_self,
      fun i => ⟨Shard.saved_crash _, hfew i⟩⟩
  have hentries : ∀ i, (IndexManager.loadIndexIntoMemory (savedDisk i).index).memoryTree.entries =
      [] := by decide +kernel
  refine ⟨(crash_allowed_iff ConfigFile.defaults_typed default_accepted (.single oneKey_step) hcrash
    (by decide +kernel)).mpr ?_, by decide +kernel⟩
  rintro k ⟨⟨loc, hview, -⟩, -⟩
  have hmem := AList.mem_lookup_iff.mp hview
  rw [hentries] at hmem
  cases hmem

/-- The moment when the second value is in the segment and in the index, and not yet in the WAL. -/
def overwritten : ZestDB 1 :=
  ((setA "y").run Op.oneHash oneFlushed.db).visited.get ⟨1, by decide +kernel⟩

def spilledDisk (i : Fin 1) : Shard.Disk :=
  (overwritten.shardManager.shards i).barest
  (overwritten.shardManager.shards i).indexManager.index.content

theorem spilledDisk_not_allowed :
    ¬ ∀ (s : Site 1) (a : Action 1) (u : ZestDB 1) (disks : Fin 1 → Shard.Disk)
      (ch fill : Choices 1) (chs : ℕ → Choices 1),
      Relation.ReflTransGen (Step Op.oneHash) oneStart s → s.Crash Op.oneHash a u disks →
      Traced.Within (Each Shard.WithinLimits) (replayWAL Op.oneHash chs) (u.opened ch fill disks) →
      ∀ k, (replayWAL Op.oneHash chs (u.opened ch fill disks)).final.toMap Op.oneHash k ∈
        s.during Op.oneHash a k := by
  intro h
  have hfew : ∀ i, (spilledDisk i).FewKeys := by decide +kernel
  have hcrash : oneFlushed.Crash Op.oneHash (setA "y") overwritten spilledDisk :=
    ⟨setY_checked, ⟨by decide +kernel, trivial, by decide +kernel⟩,
      List.mem_cons_of_mem _ (List.get_mem _ _), fun i =>
      ⟨Shard.barest_crash (BufferedFile.survives_content _), hfew i⟩⟩
  have hallowed := h oneFlushed (setA "y") overwritten spilledDisk {} {} (fun _ => {})
    (.tail (.single oneKey_step) oneFlushed_step) hcrash (by decide +kernel) (ascii "a")
  have hlost :
      (replayWAL Op.oneHash (fun _ => {}) (overwritten.opened {} {} spilledDisk)).final.toMap
        Op.oneHash
      (ascii "a") = none := by decide +kernel
  have ha : asked (n := 1) Op.oneHash { command := ascii "set a y" } =
      some (ascii "a", .write (.set (ascii "a") (ascii "y"))) := rfl
  rw [hlost] at hallowed
  rcases hallowed with (hnone | ⟨hnone, -⟩) | hnone
  · cases hnone
  · exact none_not_allowed hnone
  · obtain ⟨hout, -⟩ := (Action.gives_exec ha oneFlushed.db (ascii "a") none).mp hnone
    cases hout

end OneShard

end Site

end ZestDB

end Zest
