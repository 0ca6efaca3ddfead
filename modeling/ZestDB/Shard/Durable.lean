import ZestDB.Shard.Verification
import ZestDB.Storage.Synced

/-! What a crash cannot take from a shard. -/

namespace Zest.Shard

open Foundations

variable {s u : Shard} {disk : Disk} {ch : Choice}

def synced (s : Shard) : Files := s.storageManager.synced

lemma Crash.synced (hc : s.Crash disk) : s.synced.Grows disk.files := by
  intro id c hl
  obtain ⟨seg, hs, rfl⟩ := StorageManager.lookup_of_synced hl
  obtain ⟨file, hf, hsurv⟩ := hc.segment id seg hs
  exact ⟨file, hf, hsurv.synced_le⟩

def barest (s : Shard) (index : Bytes) : Disk where
  index := index
  segs := ⟨s.storageManager.segments.entries.map fun seg => ⟨seg.1, seg.2.file.synced⟩, by
    simpa [List.NodupKeys, List.keys, Function.comp_def] using s.storageManager.segments.nodupKeys⟩
  wal := s.wal.file.synced

lemma barest_lookup (s : Shard) (index : Bytes) (id : ℕ) :
    (s.barest index).segs.lookup id = (s.storageManager.segments.lookup id).map fun seg =>
      seg.file.synced :=
  @List.dlookup_map₂ ℕ _ (fun _ => DataSegment) (fun _ => Bytes) s.storageManager.segments.entries
    (fun _ seg => seg.file.synced) id

lemma barest_files (s : Shard) (index : Bytes) : (s.barest index).files = s.synced := by
  funext id
  exact barest_lookup s index id

lemma barest_crash {index : Bytes} (h : s.indexManager.index.Survives index) :
    s.Crash (s.barest index) where
  index := h
  segment id seg hs := ⟨seg.file.synced, by rw [barest_lookup, hs]; rfl, seg.file.survives_synced⟩
  absent id hs := by rw [barest_lookup, hs]; rfl
  wal := s.wal.file.survives_synced

def saved (s : Shard) : Disk := s.barest s.indexManager.index.synced

lemma saved_crash (s : Shard) : s.Crash s.saved := barest_crash (BufferedFile.survives_synced _)

/-- Every crash of `u` brings back the map of `s`. -/
def Recovers (s u : Shard) : Prop :=
  ∀ disk, u.Crash disk → ∀ settings ch fill, (reopen settings ch fill disk).toMap = s.toMap

/-- INDEX is durable and has the entries of `s`, whose bytes are durable too. -/
structure Settled (s u : Shard) : Prop where
  index : ∃ rs, LogOk u.indexManager rs []
  tree : u.tree = s.tree
  bytes : ∀ k loc, s.tree.lookup k = some loc → u.synced.InBounds loc ∧ u.synced.slice loc =
    s.files.slice loc

lemma Settled.view (h : Settled s u) (hc : u.Crash disk) :
    disk.view = fun k => s.tree.lookup k := by
  obtain ⟨rs, hlog⟩ := h.index
  rw [hlog.flushed_views hc.view, h.tree]

lemma Settled.disk_ok (h : Settled s u) (hfew : s.FewKeys) (hc : u.Crash disk) : disk.Ok := by
  obtain ⟨rs, hlog⟩ := h.index
  refine hc.disk_ok ⟨rs, [], hlog⟩ (hfew.of_view fun k loc hk => ⟨loc, ?_⟩)
  rwa [h.view hc] at hk

lemma Settled.booted (h : Settled s u) (hc : u.Crash disk) {k : Key} {loc : Location}
    (hk : s.tree.lookup k = some loc) :
    (StorageManager.booted disk.segs).files.InBounds loc ∧
      (StorageManager.booted disk.segs).files.slice loc = s.files.slice loc := by
  obtain ⟨hin, hs⟩ := h.bytes k loc hk
  have hdisk : disk.files.InBounds loc := hin.mono hc.synced
  exact ⟨hdisk.mono StorageManager.booted_grows,
    (hdisk.slice_eq StorageManager.booted_grows).trans ((hin.slice_eq hc.synced).trans hs)⟩

lemma Settled.lookup (h : Settled s u) (hc : u.Crash disk) (settings : Settings) (ch fill : Choice)
    (k : Key) :
    (reopen settings ch fill disk).tree.lookup k = s.tree.lookup k := by
  have hview : disk.view k = s.tree.lookup k := congrFun (h.view hc) k
  cases hk : s.tree.lookup k with
  | some loc =>
    rw [hk] at hview
    exact (reopen_lookup settings ch fill disk k loc).mpr
      ⟨hview, .inr ((dropped_iff hview).mpr (.inl (h.booted hc hk).1))⟩
  | none =>
    cases ht : (reopen settings ch fill disk).tree.lookup k with
    | none => rfl
    | some loc =>
      have hfound := ((reopen_lookup settings ch fill disk k loc).mp ht).1
      rw [hview, hk] at hfound
      cases hfound

lemma Settled.recovers (h : Settled s u) : Recovers s u := by
  intro disk hc settings ch fill
  funext k
  simp only [toMap, h.lookup hc, files, reopen_storage]
  exact Option.map_congr fun loc hk => (h.booted hc hk).2

structure Flushed (s : Shard) : Prop where
  index : ∃ rs, LogOk s.indexManager rs []
  segment : ∀ id seg, s.storageManager.segments.lookup id = some seg → seg.file.pending = []

lemma Flushed.settled (h : s.Flushed) (hi : s.Inv) : Settled s s := by
  refine ⟨h.index, rfl, fun k loc hk => ?_⟩
  have hs : s.synced = s.files := StorageManager.synced_of_flushed h.segment
  rw [hs]
  exact ⟨(hi.entry k loc hk).inBounds, rfl⟩

lemma flushData_flushed (h : s.Inv) (hl : s.Logged) (ch : Choice) :
    (flushData ch s).final.Flushed := by
  obtain ⟨rs, ts, hlog⟩ := hl
  obtain ⟨sm, hf, he⟩ := flushData_final s ch
  rw [he]
  exact ⟨⟨_, hlog.flush⟩, fun id seg hs => hf.pending h.storage hs⟩

/-- What a boot finds after a flush: INDEX decodes to its end, no entry is removed, and the map is
the same. -/
structure CameBack (s : Shard) (disk : Disk) (t : Shard) : Prop where
  decoded : (indexCodec.decodeAll disk.index).2 = []
  kept : ∀ k, t.tree.lookup k = disk.view k
  toMap : t.toMap = s.toMap

lemma Flushed.cameBack (hf : s.Flushed) (hi : s.Inv) (hc : s.Crash disk) (settings : Settings)
    (ch fill : Choice) : CameBack s disk (reopen settings ch fill disk) := by
  have hset := hf.settled hi
  obtain ⟨rs, hlog⟩ := hf.index
  refine ⟨?_, fun k => ?_, hset.recovers disk hc settings ch fill⟩
  · have hindex : disk.index = indexCodec.encodeAll rs := by
      rw [hc.index.eq_of_flushed (by rw [hlog.log.pending]; rfl), BufferedFile.content,
        hlog.log.synced, hlog.log.pending]
      simp
    rw [hindex, indexCodec.decodeAll_encodeAll rs fun e he => hlog.log.fits e (by simpa using he)]
  · rw [hset.lookup hc, hset.view hc]

end Zest.Shard
