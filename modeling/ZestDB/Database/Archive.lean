import ZestDB.Database.CleanRestart
import ZestDB.Shard.Appends
import Mathlib.Logic.Relation

/-! `createArchive`: the files are listed with their sizes under the exclusive lock, right after a
flush, and copied up to these sizes while clients go on writing. The compactor is paused. -/

namespace Zest

open Foundations

inductive FileName (n : ℕ) where
  | index (i : Fin n)
  | seg (i : Fin n) (id : ℕ)
deriving DecidableEq

/-- A file of `toCopy`: its recorded size and what was copied of it. -/
structure Copy (n : ℕ) where
  name : FileName n
  size : ℕ
  copied : Bytes

def COPY_BUFFER : ℕ := 2 ^ 20

/-- One turn of the loop of `copyPrefix`, over the bytes on disk; `none` when the file is too
short. -/
def Copy.next {n : ℕ} (c : Copy n) (disk : Bytes) : Option (Copy n) :=
  let chunk := min (c.size - c.copied.length) COPY_BUFFER
  let buffer := (disk.drop c.copied.length).take chunk
  if buffer.length < chunk then none else some { c with copied := c.copied ++ buffer }

inductive Working where
  | exclusive (op : Shard.Exclusive)
  | get (key : Key)
  | log (f : WAL → WAL)

namespace Working

def run : Working → Traced Shard Unit
  | .exclusive op => op.run
  | .get key => .step fun s => (s.get key).2
  | .log f => .step fun s => { s with wal := f s.wal }

def Client : Working → Prop
  | .exclusive op => ∀ ch, op ≠ .compact ch
  | _ => True

lemma run_appends {w : Working} (h : w.Client) (s : Shard) : Traced.Within s.Appends w.run s := by
  cases w with
  | exclusive op => exact Shard.Exclusive.run_appends h s
  | get key =>
    refine .step (.refl s) ?_
    obtain ⟨cache, hc⟩ := s.get_cache key
    rw [hc]
    exact ⟨List.prefix_rfl, .refl _⟩
  | log f => exact .step (.refl s) ⟨List.prefix_rfl, .refl _⟩

end Working

namespace ShardManager

variable {n : ℕ} {sm t : ShardManager n}

def file? (sm : ShardManager n) : FileName n → Option (BufferedFile Byte)
  | .index i => some (sm.shards i).indexManager.index
  | .seg i id => ((sm.shards i).storageManager.segments.lookup id).map DataSegment.file

def fileNames (sm : ShardManager n) : List (FileName n) :=
  (List.finRange n).flatMap fun i => .index i :: (sm.shards i).storageManager.segments.keys.map
  (.seg i)

def fileSize (sm : ShardManager n) (name : FileName n) : ℕ :=
  ((sm.file? name).map fun f => f.content.length).getD 0

def toCopy (sm : ShardManager n) : List (Copy n) :=
  sm.fileNames.map fun name => ⟨name, sm.fileSize name, []⟩

lemma mem_fileNames {name : FileName n} : name ∈ sm.fileNames ↔ (sm.file? name).isSome := by
  cases name with
  | index i => simp [fileNames, file?]
  | seg i id => simp [fileNames, file?, AList.lookup_isSome, ← AList.mem_keys]

lemma file_appends (happ : ∀ i, (sm.shards i).Appends (t.shards i)) {name : FileName n}
    {f : BufferedFile Byte}
    (hf : sm.file? name = some f) : ∃ g, t.file? name = some g ∧ f.synced <+: g.synced := by
  cases name with
  | index i =>
    obtain rfl := Option.some.inj hf
    exact ⟨_, rfl, (happ i).index⟩
  | seg i id =>
    obtain ⟨seg, hl, rfl⟩ := Option.map_eq_some_iff.mp hf
    obtain ⟨c, hc, hle⟩ := (happ i).segments id _ (StorageManager.synced_of_lookup hl)
    obtain ⟨seg', hl', rfl⟩ := StorageManager.lookup_of_synced hc
    exact ⟨_, Option.map_eq_some_iff.mpr ⟨seg', hl', rfl⟩, hle⟩

end ShardManager

/-- The database and the archive that is made of it: for each shard the states its running operation
has yet to go through, and the copies. -/
structure Archiving (n : ℕ) where
  manager : ShardManager n
  running : Fin n → List Shard
  copies : List (Copy n)

namespace Archiving

variable {n : ℕ} {base : ShardManager n} {a b : Archiving n}

inductive Step : Archiving n → Archiving n → Prop
  | start {a : Archiving n} (i : Fin n) (w : Working) : w.Client → a.running i = [] →
      Step a { a with running := Function.update a.running i (w.run (a.manager.shards i)).visited }
  | work {a : Archiving n} (i : Fin n) {s rest} : a.running i = s :: rest →
      Step a
      { a with manager := a.manager.setShard i s, running := Function.update a.running i rest }
  | copy {a : Archiving n} {before c c' after f disk} : a.copies = before ++ c :: after →
      c.copied.length < c.size →
      a.manager.file? c.name = some f → f.Survives disk → c.next disk = some c' →
      Step a { a with copies := before ++ c' :: after }

/-- The copy of `name` is the beginning of a file that was on disk as a whole. -/
structure Partial (base : ShardManager n) (c : Copy n) : Prop where
  file : ∃ f, base.file? c.name = some f ∧ f.pending = [] ∧ c.size = f.content.length ∧
    c.copied <+: f.content

structure Snapshot (base : ShardManager n) (a : Archiving n) : Prop where
  appends : ∀ i, (base.shards i).Appends (a.manager.shards i)
  running : ∀ i, ∀ s ∈ a.running i, (base.shards i).Appends s
  names : (a.copies.map Copy.name).Perm base.fileNames
  copies : ∀ c ∈ a.copies, Partial base c

lemma Snapshot.on_disk (h : Snapshot base a) {name : FileName n}
    {f : BufferedFile Byte} (hf : base.file? name = some f) (hp : f.pending = []) :
    ∃ g, a.manager.file? name = some g ∧ ∀ disk, g.Survives disk → f.content <+: disk := by
  obtain ⟨g, hg, hfg⟩ := ShardManager.file_appends h.appends hf
  refine ⟨g, hg, fun disk hs => ?_⟩
  rw [BufferedFile.content, hp, List.append_nil]
  exact hfg.trans hs.synced_le

lemma next_of_prefix {c : Copy n} {whole disk : Bytes}
    (hsize : c.size = whole.length) (hle : c.copied <+: whole) (hdisk : whole <+: disk) :
    ∃ c', c.next disk = some c' ∧ c'.name = c.name ∧ c'.size = c.size ∧ c'.copied <+: whole := by
  obtain ⟨rest, rfl⟩ := hle
  obtain ⟨more, rfl⟩ := hdisk
  have hread :
      ((c.copied ++ rest ++ more).drop c.copied.length).take
      (min (c.size - c.copied.length) COPY_BUFFER) =
      rest.take (min (c.size - c.copied.length) COPY_BUFFER) := by
    rw [List.append_assoc, List.drop_left' rfl, List.take_append_of_le_length]
    rw [List.length_append] at hsize
    omega
  have hlen :
      (rest.take (min (c.size - c.copied.length) COPY_BUFFER)).length =
        min (c.size - c.copied.length) COPY_BUFFER := by
    rw [List.length_append] at hsize
    rw [List.length_take]
    omega
  refine ⟨{ c with copied := c.copied ++ rest.take (min (c.size - c.copied.length) COPY_BUFFER)
    }, ?_, rfl, rfl, ?_⟩
  · simp only [Copy.next, hread]
    rw [if_neg (by omega)]
  · exact (List.prefix_append_right_inj _).mpr (List.take_prefix _ _)

lemma Snapshot.step (h : Snapshot base a) (hs : Step a b) : Snapshot base b := by
  cases hs with
  | start i w hw hidle =>
    refine ⟨h.appends, fun j s hs => ?_, h.names, h.copies⟩
    change s ∈ Function.update a.running i _ j at hs
    rw [Function.update_apply] at hs
    split_ifs at hs with hj
    · subst hj
      exact (h.appends j).trans (Working.run_appends hw _ s (List.mem_cons_of_mem _ hs))
    · exact h.running j s hs
  | work i hrun =>
    rename_i s rest
    refine ⟨fun j => ?_, fun j u hu => ?_, h.names, h.copies⟩
    · rw [ShardManager.setShard_shards]
      split_ifs with hj
      · rw [hj]
        exact h.running i s (by rw [hrun]; exact List.mem_cons_self)
      · exact h.appends j
    · change u ∈ Function.update a.running i rest j at hu
      rw [Function.update_apply] at hu
      split_ifs at hu with hj
      · subst hj
        exact h.running j u (by rw [hrun]; exact List.mem_cons_of_mem _ hu)
      · exact h.running j u hu
  | copy hl hlt hf hdisk hnext =>
    rename_i before c c' after f disk
    have hmem : c ∈ a.copies := by
      rw [hl]
      simp
    obtain ⟨whole, hwhole, hp, hsize, hle⟩ := (h.copies c hmem).file
    obtain ⟨g, hg, hbegins⟩ := h.on_disk hwhole hp
    obtain rfl := Option.some.inj (hg.symm.trans hf)
    obtain ⟨c'', hnext', hname, hsize', hle'⟩ := next_of_prefix hsize hle (hbegins disk hdisk)
    obtain rfl := Option.some.inj (hnext'.symm.trans hnext)
    refine ⟨h.appends, h.running, ?_, fun d hd => ?_⟩
    · have hnames := h.names
      rw [hl] at hnames
      simpa [hname] using hnames
    · have hcase : d = c'' ∨ d ∈ a.copies := by
        rw [hl]
        simp only [List.mem_append, List.mem_cons] at hd ⊢
        tauto
      rcases hcase with rfl | hd
      · exact ⟨whole, hname ▸ hwhole, hp, hsize'.trans hsize, hle'⟩
      · exact h.copies d hd

structure Written (s : Shard) : Prop where
  index : s.indexManager.index.pending = []
  segment : ∀ id seg, s.storageManager.segments.lookup id = some seg → seg.file.pending = []

lemma written_of_flushed {s : Shard} (h : s.Flushed) : Written s := by
  obtain ⟨rs, hlog⟩ := h.index
  refine ⟨?_, h.segment⟩
  rw [hlog.log.pending]
  rfl

lemma flush_written {sm : ShardManager n} {i : Fin n} (hw : (sm.shards i).storageManager.Wf)
    (hi : (sm.shards i).indexManager.flush.index.pending = []) (chf : Choices n) :
    Written ((ShardManager.flush chf sm).final.shards i) := by
  obtain ⟨st, hf, he⟩ := Shard.flushData_final (sm.shards i) (chf.shard i)
  rw [ShardManager.flush_shards, he]
  exact ⟨hi, fun id seg hs => hf.pending hw hs⟩

lemma file_pending (h : base.Each Written) {name : FileName n} {f : BufferedFile Byte}
    (hf : base.file? name = some f) : f.pending = [] := by
  cases name with
  | index i =>
    obtain rfl := Option.some.inj hf
    exact (h i).index
  | seg i id =>
    obtain ⟨seg, hl, rfl⟩ := Option.map_eq_some_iff.mp hf
    exact (h i).segment id seg hl

lemma snapshot_start (h : base.Each Written) {copies : List (Copy n)}
    (hc : copies.Perm base.toCopy) :
    Snapshot base ⟨base, fun _ => [], copies⟩ := by
  refine ⟨fun i => .refl _, by simp, ?_, fun c hmem => ?_⟩
  · have hnames := hc.map Copy.name
    rwa [ShardManager.toCopy, List.map_map, show Copy.name ∘ _ = id from rfl, List.map_id] at hnames
  · obtain ⟨name, hname, rfl⟩ := List.mem_map.mp (hc.mem_iff.mp hmem)
    obtain ⟨f, hf⟩ := Option.isSome_iff_exists.mp (ShardManager.mem_fileNames.mp hname)
    refine ⟨f, hf, file_pending h hf, ?_, List.nil_prefix⟩
    simp [ShardManager.fileSize, hf]

lemma Snapshot.steps (h : Snapshot base a) (hs : Relation.ReflTransGen Step a b) :
    Snapshot base b := by
  induction hs with
  | refl => exact h
  | tail _ hstep ih => exact ih.step hstep

lemma next_longer {c c' : Copy n} {disk : Bytes} (hlt : c.copied.length < c.size)
    (h : c.next disk = some c') :
    c.copied.length < c'.copied.length ∧ c'.size = c.size := by
  simp only [Copy.next] at h
  split_ifs at h with hshort
  obtain rfl := Option.some.inj h
  refine ⟨?_, rfl⟩
  have hbuf : 0 < COPY_BUFFER := by decide
  simp only [List.length_append]
  omega

def left (copies : List (Copy n)) : ℕ := (copies.map fun c => c.size - c.copied.length).sum

lemma Snapshot.finishes (h : Snapshot base a) :
    ∃ b, Relation.ReflTransGen Step a b ∧ b.manager = a.manager ∧ ∀ c ∈ b.copies, c.copied.length =
      c.size := by
  induction hleft : left a.copies using Nat.strong_induction_on generalizing a with
  | _ m ih =>
    by_cases hdone : ∀ c ∈ a.copies, c.copied.length = c.size
    · exact ⟨a, .refl, rfl, hdone⟩
    · simp only [not_forall] at hdone
      obtain ⟨c, hc, hne⟩ := hdone
      obtain ⟨before, after, hl⟩ := List.append_of_mem hc
      obtain ⟨whole, hwhole, hp, hsize, hle⟩ := (h.copies c hc).file
      obtain ⟨g, hg, hbegins⟩ := h.on_disk hwhole hp
      obtain ⟨c', hnext, -⟩ := next_of_prefix hsize hle (hbegins _ g.survives_content)
      have hlt : c.copied.length < c.size := lt_of_le_of_ne (hsize ▸ hle.length_le) hne
      obtain ⟨hlonger, hsize'⟩ := next_longer hlt hnext
      have hstep : Step a { a with copies := before ++ c' :: after } := .copy hl hlt
        hg g.survives_content hnext
      have hless : left (before ++ c' :: after) < m := by
        rw [← hleft, hl]
        simp only [left, List.map_append, List.map_cons, List.sum_append, List.sum_cons]
        omega
      obtain ⟨b, hrun, hb, hend⟩ := ih _ hless (h.step hstep) rfl
      exact ⟨b, .head hstep hrun, hb, hend⟩

lemma Step.works (i : Fin n) {last : Shard} :
    ∀ (visited : List Shard) {a : Archiving n}, a.running i = visited →
    visited.getLast? = some last →
    ∃ b, Relation.ReflTransGen Step a b ∧ b.copies = a.copies ∧ b.manager =
      a.manager.setShard i last
  | [], a, _, hlast => by cases hlast
  | [s], a, hrun, hlast => by
    obtain rfl : s = last := by simpa using hlast
    exact ⟨_, .single (.work i hrun), rfl, rfl⟩
  | s :: t :: rest, a, hrun, hlast => by
    rw [List.getLast?_cons_cons] at hlast
    obtain ⟨b, hsteps, hcopies, hb⟩ := Step.works i (t :: rest)
      (a := { a with manager := a.manager.setShard i s, running := Function.update a.running i (t ::
        rest) }) (Function.update_self ..) hlast
    refine ⟨b, .head (.work i hrun) hsteps, hcopies, hb.trans ?_⟩
    simp [ShardManager.setShard]

def copyOf (copies : List (Copy n)) (name : FileName n) : Option Bytes :=
  (copies.find? fun c => c.name = name).map Copy.copied

def segmentId (i : Fin n) (c : Copy n) : Option ℕ :=
  match c.name with
  | .seg j id => if j = i then some id else none
  | .index _ => none

def archived (copies : List (Copy n)) (wal : Bytes) (i : Fin n) : Shard.Disk where
  index := (copyOf copies (.index i)).getD []
  segs := ((copies.filterMap (segmentId i)).map fun id =>
    ⟨id, (copyOf copies (.seg i id)).getD []⟩).toAList
  wal := wal

lemma dlookup_map_ids (ids : List ℕ) (f : ℕ → Bytes) (id : ℕ) :
    (ids.map fun id => (⟨id, f id⟩ : (_ : ℕ) × Bytes)).dlookup id = if id ∈ ids then
      some (f id) else none := by
  induction ids with
  | nil => rfl
  | cons j ids ih =>
    by_cases hj : id = j
    · subst hj
      simp
    · have hne : ((⟨j, f j⟩ : (_ : ℕ) × Bytes) :: ids.map fun id =>
          (⟨id, f id⟩ : (_ : ℕ) × Bytes)).dlookup id =
          (ids.map fun id => (⟨id, f id⟩ : (_ : ℕ) × Bytes)).dlookup id :=
            List.dlookup_cons_ne _ _ hj
      rw [List.map_cons, hne, ih]
      simp [hj]

lemma mem_segmentIds {copies : List (Copy n)} {i : Fin n} {id : ℕ} :
    id ∈ copies.filterMap (segmentId i) ↔ .seg i id ∈ copies.map Copy.name := by
  simp only [List.mem_filterMap, List.mem_map]
  refine exists_congr fun c => and_congr_right fun _ => ?_
  simp only [segmentId]
  cases c.name with
  | index j => simp
  | seg j id' =>
    by_cases hj : j = i
    · simp [hj]
    · simp [hj]

lemma Snapshot.copyOf_eq (h : Snapshot base a) (hdone : ∀ c ∈ a.copies, c.copied.length = c.size)
    {name : FileName n} {f : BufferedFile Byte} (hf : base.file? name = some f) :
    copyOf a.copies name = some f.content := by
  have hmem : name ∈ a.copies.map Copy.name :=
    h.names.mem_iff.mpr (ShardManager.mem_fileNames.mpr (by rw [hf]; rfl))
  obtain ⟨c, hc, hname⟩ := List.mem_map.mp hmem
  obtain ⟨d, hd⟩ : ∃ d, a.copies.find? (fun c => c.name = name) = some d :=
    Option.isSome_iff_exists.mp (List.find?_isSome.mpr ⟨c, hc, by simpa using hname⟩)
  have hdname : d.name = name := by simpa using List.find?_some hd
  have hdmem := List.mem_of_find?_eq_some hd
  obtain ⟨g, hg, -, hsize, hle⟩ := (h.copies d hdmem).file
  rw [hdname, hf] at hg
  obtain rfl := Option.some.inj hg
  rw [copyOf, hd, Option.map_some, hle.eq_of_length ((hdone d hdmem).trans hsize)]

lemma Snapshot.crash (h : Snapshot base a) (hdone : ∀ c ∈ a.copies, c.copied.length = c.size)
    {i : Fin n} {wal : Bytes} (hw : (base.shards i).wal.file.Survives wal) :
    (base.shards i).Crash (archived a.copies wal i) := by
  have hlookup : ∀ id, (archived a.copies wal i).segs.lookup id =
      if id ∈ a.copies.filterMap (segmentId i) then
        some ((copyOf a.copies (.seg i id)).getD []) else none := by
    intro id
    rw [archived, AList.lookup_to_alist, dlookup_map_ids]
  have hids : ∀ id, id ∈ a.copies.filterMap (segmentId i) ↔
      ((base.shards i).storageManager.segments.lookup id).isSome := by
    intro id
    rw [mem_segmentIds, h.names.mem_iff, ShardManager.mem_fileNames]
    simp [ShardManager.file?]
  refine ⟨?_, fun id seg hs => ⟨seg.file.content, ?_, seg.file.survives_content⟩,
    fun id hs => ?_, hw⟩
  · have hcopy := h.copyOf_eq hdone (show base.file? (.index i) = some _ from rfl)
    simp only [archived, hcopy, Option.getD_some]
    exact BufferedFile.survives_content _
  · have hcopy := h.copyOf_eq hdone
      (show base.file? (.seg i id) = some seg.file from Option.map_eq_some_iff.mpr ⟨seg, hs, rfl⟩)
    rw [hlookup, if_pos ((hids id).mpr (by rw [hs]; rfl)), hcopy]
    rfl
  · rw [hlookup, if_neg]
    rw [hids, hs]
    simp

variable [NeZero n] {pf : Platform} {sm : ShardManager n}

lemma boot_shard {disks : Fin n → Shard.Disk} (hd : ∀ i, (disks i).wal = []) (config : ConfigFile)
    (settings : Settings) (ch fill : Choices n) (chr : ℕ → Choices n) (k : Key) :
    (ZestDB.replayWAL pf chr
      (ZestDB.construct config settings ch fill disks)).final.shardManager.toMap pf k =
      ((ShardManager.create settings ch fill disks).shards (ShardManager.getShardId pf k)).toMap
        k := by
  have hnil : (ZestDB.construct config settings ch fill disks).shardManager.walEntries = [] := by
    refine ShardManager.walEntries_nil fun i => ?_
    change (Shard.reopen settings (ch.shard i) (fill.shard i) (disks i)).wal.file.content = []
    rw [(Shard.reopen_opened _ _ _ _).2.2, hd i]
    rfl
  rw [ZestDB.replayWAL_empty hnil]
  have hflush : ∀ sm : ShardManager n,
      ((ShardManager.flush (chr 0) sm).final.shards (ShardManager.getShardId pf k)).toMap =
      (sm.shards (ShardManager.getShardId pf k)).toMap := by
    intro sm
    rw [ShardManager.flush_shards]
    exact Shard.flushData_toMap _ _
  exact congrFun (hflush _) k

lemma boot_toMap (h : sm.Each Shard.Sound) {chf : Choices n} {disks : Fin n → Shard.Disk}
    (hd : ∀ i, ((ShardManager.flush chf sm).final.shards i).Crash (disks i)) (config : ConfigFile)
    (settings : Settings) (ch fill : Choices n) (chr : ℕ → Choices n) :
    (ZestDB.replayWAL pf chr
      (ZestDB.construct config settings ch fill disks)).final.shardManager.toMap pf =
      sm.toMap pf := by
  have hrest := ShardManager.flush_atRest h chf
  funext k
  rw [boot_shard fun i => (hd i).wal_nil (hrest i).wal]
  obtain ⟨i, hi⟩ : ∃ i : Fin n, ShardManager.getShardId pf k = i := ⟨_, rfl⟩
  have hback := (hrest i).flushed.cameBack (hrest i).sound.inv (hd i) settings (ch.shard i)
    (fill.shard i)
  rw [ShardManager.toMap, hi]
  exact congrFun (hback.toMap.trans (hrest i).toMap) k

/-- After any history whose compactions list every key: whatever clients do while the files are
copied, no copy runs short, and the archive boots with the map of the moment the lock was held. -/
theorem archive_snapshot {start db : ZestDB n} (h : start.Good)
    (hist : ZestDB.History pf True start db) (chf : Choices n) {copies : List (Copy n)}
    (hcopies : copies.Perm (ShardManager.flush chf db.shardManager).final.toCopy)
    {wals : Fin n → Bytes}
    (hw : ∀ i, ((ShardManager.flush chf db.shardManager).final.shards i).wal.file.Survives (wals i))
    (hs : Relation.ReflTransGen Step ⟨(ShardManager.flush chf db.shardManager).final, fun _ => [],
      copies⟩ a) :
    (∀ c ∈ a.copies, ∃ f, a.manager.file? c.name = some f ∧ ∀ disk, f.Survives disk →
      (c.next disk).isSome) ∧
    ((∀ c ∈ a.copies, c.copied.length = c.size) → ∀ config settings ch fill chr,
      (ZestDB.replayWAL pf chr (ZestDB.construct config settings ch fill fun i =>
        archived a.copies (wals i) i)).final.shardManager.toMap pf = db.shardManager.toMap pf) := by
  have hsound := (hist.good h).shards
  have hsnap : Snapshot (ShardManager.flush chf db.shardManager).final a :=
    (snapshot_start (fun i => written_of_flushed (ShardManager.flush_atRest hsound chf i).flushed)
      hcopies).steps hs
  refine ⟨fun c hc => ?_, fun hdone config settings ch fill chr => ?_⟩
  · obtain ⟨whole, hwhole, hp, hsize, hle⟩ := (hsnap.copies c hc).file
    obtain ⟨f, hf, hbegins⟩ := hsnap.on_disk hwhole hp
    refine ⟨f, hf, fun disk hdisk => ?_⟩
    obtain ⟨c', hnext, -⟩ := next_of_prefix hsize hle (hbegins disk hdisk)
    rw [hnext]
    rfl
  · exact boot_toMap hsound (fun i => hsnap.crash hdone (hw i)) config settings ch fill chr

theorem overwritten_meanwhile : ∃ a : Archiving 1,
    Relation.ReflTransGen Step
      ⟨(ShardManager.flush {} ZestDB.firstValue.shardManager).final, fun _ => [],
        (ShardManager.flush {} ZestDB.firstValue.shardManager).final.toCopy⟩ a ∧
    a.manager.toMap Op.oneHash (ascii "a") = some (ascii "y") ∧
    (ZestDB.replayWAL Op.oneHash (fun _ => {}) (ZestDB.construct .defaults {} {} {}
      fun i => archived a.copies [] i)).final.shardManager.toMap Op.oneHash (ascii "a") =
        some (ascii "x") := by
  have hnew : (ZestDB.new .defaults {} {} {} : ZestDB 1).Good :=
    ZestDB.new_good ConfigFile.defaults_typed ZestDB.default_accepted {} {}
  have hsound := (ZestDB.firstValue_history.good hnew).shards
  obtain ⟨base, hbase⟩ :
      ∃ base, base = (ShardManager.flush {} ZestDB.firstValue.shardManager).final := ⟨_, rfl⟩
  obtain ⟨last, hlast, hy⟩ : ∃ last,
      ((Working.exclusive (.set (ascii "a") (ascii "y"))).run (base.shards 0)).visited.getLast? =
      some last ∧ last.toMap (ascii "a") = some (ascii "y") := by
    have hmap :
        (((Working.exclusive (.set (ascii "a") (ascii "y"))).run
          (base.shards 0)).visited.getLast?.map
        fun s => s.toMap (ascii "a")) = some (some (ascii "y")) := by
      rw [hbase]
      decide +kernel
    exact Option.map_eq_some_iff.mp hmap
  obtain ⟨a₁, hstart, hvisits, hmanager⟩ :
      ∃ a₁, Step (⟨base, fun _ => [], base.toCopy⟩ : Archiving 1) a₁ ∧ a₁.running 0 =
        ((Working.exclusive (.set (ascii "a") (ascii "y"))).run (base.shards 0)).visited ∧
      a₁.manager = base :=
    ⟨_, .start 0 (.exclusive (.set (ascii "a") (ascii "y"))) (fun _ => nofun) rfl, rfl, rfl⟩
  obtain ⟨b, hwork, -, hb⟩ := Step.works 0 _ hvisits hlast
  have hsnap := snapshot_start
    (fun i => written_of_flushed (ShardManager.flush_atRest hsound {} i).flushed) (List.Perm.refl _)
  rw [← hbase] at hsnap
  obtain ⟨a, hcopy, ha, hdone⟩ := (hsnap.steps (.head hstart hwork)).finishes
  have hrun := (Relation.ReflTransGen.head hstart hwork).trans hcopy
  rw [hbase] at hrun
  refine ⟨a, hrun, ?_, ?_⟩
  · rw [ha, hb, hmanager]
    exact hy
  · have hwals :
        ∀ i,
          ((ShardManager.flush {} ZestDB.firstValue.shardManager).final.shards i).wal.file.Survives
          [] := by
      intro i
      have hwal := (ShardManager.flush_atRest hsound {} i).wal
      rw [← hwal]
      exact BufferedFile.survives_content _
    rw [(archive_snapshot hnew ZestDB.firstValue_history {} (List.Perm.refl _) hwals hrun).2 hdone]
    decide +kernel

lemma copied_alone {sm : ShardManager 1} (ht : (sm.shards 0).Tidy)
    (hi : (sm.shards 0).indexManager.flush.index.pending = [])
    {k : Key} (hk : sm.toMap Op.oneHash k ≠ none)
    (hlost : ∀ disk, ((ShardManager.flush {} sm).final.shards 0).Crash disk →
      ∀ settings ch fill, (Shard.reopen settings ch fill disk).toMap k = none) :
    ∃ a : Archiving 1,
      Relation.ReflTransGen Step
        ⟨(ShardManager.flush {} sm).final, fun _ => [], (ShardManager.flush {} sm).final.toCopy⟩ a ∧
      (∀ c ∈ a.copies, c.copied.length = c.size) ∧
      (∀ i, ((ShardManager.flush {} sm).final.shards i).wal.file.Survives []) ∧
      (ZestDB.replayWAL Op.oneHash (fun _ => {}) (ZestDB.construct .defaults {} {} {}
        fun i => archived a.copies [] i)).final.shardManager.toMap Op.oneHash ≠
          sm.toMap Op.oneHash := by
  have hwritten : (ShardManager.flush {} sm).final.Each Written := by
    intro i
    rw [Subsingleton.elim i 0]
    exact flush_written ht.storage hi {}
  obtain ⟨st, -, he⟩ := Shard.flushData_final (sm.shards 0) .plain
  have hwal : ((ShardManager.flush {} sm).final.shards 0).wal.file.content = [] := by
    rw [ShardManager.flush_shards]
    change (Shard.flushData .plain (sm.shards 0)).final.wal.clear.file.content = []
    rw [he]
    exact ht.wal.clear_content
  have hsurvives : ∀ i, ((ShardManager.flush {} sm).final.shards i).wal.file.Survives [] := by
    intro i
    rw [Subsingleton.elim i 0, ← hwal]
    exact BufferedFile.survives_content _
  have hsnap := snapshot_start hwritten (List.Perm.refl _)
  obtain ⟨a, hrun, -, hdone⟩ := hsnap.finishes
  refine ⟨a, hrun, hdone, hsurvives, fun hsame => hk ?_⟩
  have hid : ShardManager.getShardId Op.oneHash k = (0 : Fin 1) := Subsingleton.elim _ _
  rw [← congrFun hsame k, boot_shard (fun _ => rfl), hid]
  exact hlost _ ((hsnap.steps hrun).crash hdone (hsurvives 0)) _ _ _

/-- The archive of a database whose INDEX lacks one of its 2^32 keys boots without the key. -/
theorem forgotten_not_archived :
    ZestDB.roomyStart.Good ∧
    ZestDB.History Op.oneHash False ZestDB.roomyStart (ZestDB.forgotten IndexManager.manyKeys) ∧
    ∃ a : Archiving 1,
      Relation.ReflTransGen Step
        ⟨(ShardManager.flush {} (ZestDB.forgotten IndexManager.manyKeys).shardManager).final,
          fun _ => [], (ShardManager.flush {}
            (ZestDB.forgotten IndexManager.manyKeys).shardManager).final.toCopy⟩ a ∧
      (∀ c ∈ a.copies, c.copied.length = c.size) ∧ (∀ i,
        ((ShardManager.flush {} (ZestDB.forgotten IndexManager.manyKeys).shardManager).final.shards
          i).wal.file.Survives []) ∧
      (ZestDB.replayWAL Op.oneHash (fun _ => {}) (ZestDB.construct .defaults {} {} {}
        fun i => archived a.copies [] i)).final.shardManager.toMap Op.oneHash ≠
          (ZestDB.forgotten IndexManager.manyKeys).shardManager.toMap Op.oneHash := by
  obtain ⟨hist, hindex, k, hk, hlost⟩ := ZestDB.forgotten_manyKeys
  have htidy :=
    (hist.tidy (ZestDB.new_tidy ZestDB.roomyStart_good.config ZestDB.roomy_accepted {} {})).shards 0
  refine ⟨ZestDB.roomyStart_good, hist, copied_alone htidy ?_ hk hlost⟩
  rw [IndexManager.flush]
  split_ifs
  · rfl
  · exact hindex

end Archiving

end Zest
