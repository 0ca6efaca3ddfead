import ZestDB.Shard.Views
import ZestDB.Shard.Compaction

/-! Crashes and the boot that follows: the shard comes back with the entries of the index found in
INDEX whose bytes are in the segment files. -/

namespace Zest

open Foundations
open scoped Classical

namespace StorageManager

variable {segs : AList (fun _ : ℕ => Bytes)} {loc : Location}

lemma openAll_lookup (segs : AList (fun _ : ℕ => Bytes)) (id : ℕ) :
    (openAll segs).lookup id = (segs.lookup id).map fun file => .openSegment id
    (.ofContent file) := by
  have h := @List.dlookup_map₂ ℕ _ (fun _ => Bytes) (fun _ => DataSegment) segs.entries
    (fun i file => .openSegment i (.ofContent file)) id
  exact h

def booted (segs : AList (fun _ : ℕ => Bytes)) : StorageManager := boot ⟨openAll segs, 0⟩

lemma le_foldl_max (l : List ℕ) (a : ℕ) : a ≤ l.foldl max a ∧ ∀ x ∈ l, x ≤ l.foldl max a := by
  induction l generalizing a with
  | nil => simp
  | cons b l ih =>
    obtain ⟨ha, hl⟩ := ih (max a b)
    refine ⟨(le_max_left a b).trans ha, fun x hx => ?_⟩
    rcases List.mem_cons.mp hx with rfl | hx
    · exact (le_max_right a x).trans ha
    · exact hl x hx

lemma booted_wf (segs : AList (fun _ : ℕ => Bytes)) : (booted segs).Wf := by
  intro id seg hs
  simp only [booted, boot] at hs ⊢
  split_ifs at hs ⊢ with he
  · rw [AList.lookup_insert_ite] at hs
    split_ifs at hs with hid
    · obtain rfl : DataSegment.openSegment 1 (.ofContent []) = seg := by simpa using hs
      exact ⟨hid.symm, hid.le, rfl, fun _ => rfl⟩
    · have hnil : (openAll segs).entries = [] := by simpa using he
      simp [AList.lookup, hnil] at hs
  · have hkey : id ∈ (openAll segs).keys := AList.mem_iff_lookup.mpr ⟨seg, hs⟩
    rw [show (⟨openAll segs, 0⟩ : StorageManager).segments = openAll segs from rfl, openAll_lookup,
      Option.map_eq_some_iff] at hs
    obtain ⟨file, -, rfl⟩ := hs
    exact ⟨rfl, (le_foldl_max _ _).2 _ hkey, rfl, fun _ => rfl⟩

lemma booted_files (segs : AList (fun _ : ℕ => Bytes)) :
    (booted segs).files = (fun id => segs.lookup id) ∨
      ((∀ id, segs.lookup id = none) ∧ (booted segs).files = fun id => if id = 1 then
        some [] else none) := by
  by_cases he : (openAll segs).entries.isEmpty = true
  · right
    have hnil : (openAll segs).entries = [] := by simpa using he
    have hnone : ∀ id, (openAll segs).lookup id = none := fun id => by simp [AList.lookup, hnil]
    refine ⟨fun id => by simpa [openAll_lookup] using hnone id, ?_⟩
    funext id
    simp only [files, booted, boot, if_pos he, AList.lookup_insert_ite, hnone]
    split_ifs <;> simp [DataSegment.openSegment]
  · left
    funext id
    simp only [files, booted, boot, if_neg he, openAll_lookup, Option.map_map]
    cases segs.lookup id <;> simp [DataSegment.openSegment]

lemma booted_inBounds (hpos : 0 < loc.size) :
    (booted segs).files.InBounds loc ↔ Files.InBounds (fun id => segs.lookup id) loc := by
  rcases booted_files segs with h | ⟨hn, h⟩
  · rw [h]
  · simp only [Files.InBounds, h, hn]
    constructor
    · rintro ⟨c, hc, hl⟩
      split_ifs at hc
      obtain rfl : [] = c := by simpa using hc
      simp at hl
      omega
    · rintro ⟨c, hc, -⟩
      cases hc

lemma booted_grows : Files.Grows (fun id => segs.lookup id) (booted segs).files := by
  rcases booted_files segs with h | ⟨hn, -⟩
  · rw [h]
    exact .refl _
  · intro id c hc
    cases (hn id).symm.trans hc

end StorageManager

namespace Shard

variable {s t u : Shard} {disk : Disk} {settings : Settings} {f : Key → Option Location}
  {ch fill : Choice} {e : IndexEntry}

def Disk.files (disk : Disk) : Files := fun id => disk.segs.lookup id

/-- `disk` is what a crash may leave of the files of `s`. -/
structure Crash (s : Shard) (disk : Disk) : Prop where
  index : s.indexManager.index.Survives disk.index
  segment : ∀ id seg, s.storageManager.segments.lookup id = some seg →
    ∃ file, disk.segs.lookup id = some file ∧ seg.file.Survives file
  absent : ∀ id, s.storageManager.segments.lookup id = none → disk.segs.lookup id = none
  wal : s.wal.file.Survives disk.wal

lemma Crash.grows (hc : s.Crash disk) : disk.files.Grows s.files := by
  intro id file hf
  cases hs : s.storageManager.segments.lookup id with
  | none =>
    rw [Disk.files, hc.absent id hs] at hf
    cases hf
  | some seg =>
    obtain ⟨file', hf', hsurv⟩ := hc.segment id seg hs
    obtain rfl : file' = file := by simpa [Disk.files, hf'] using hf
    exact ⟨_, StorageManager.files_of_lookup hs, hsurv.le_content⟩

noncomputable def recovered (fs : Files) (f : Key → Option Location) : Store :=
  fun k => (f k).bind fun loc => if fs.InBounds loc then some (fs.slice loc) else none

def Disk.view (disk : Disk) : Key → Option Location :=
  fun k => (IndexManager.loadIndexIntoMemory disk.index).memoryTree.lookup k

/-- The index entry of `k` points outside the files. -/
def Dangling (fs : Files) (f : Key → Option Location) (k : Key) : Prop :=
  ∃ loc, f k = some loc ∧ ¬ fs.InBounds loc

def Disk.FewKeys (disk : Disk) : Prop := (IndexManager.loadIndexIntoMemory disk.index).FewKeys

instance (disk : Disk) : Decidable disk.FewKeys :=
  inferInstanceAs (Decidable (IndexManager.loadIndexIntoMemory disk.index).FewKeys)

lemma FewKeys.of_tree (h : s.FewKeys)
    (hsub : ∀ k loc, t.tree.lookup k = some loc → ∃ loc', s.tree.lookup k = some loc') :
    t.FewKeys := IndexManager.FewKeys.of_lookup h hsub

lemma FewKeys.of_toMap (h : s.FewKeys) (hmap : t.toMap = s.toMap) : t.FewKeys := by
  refine h.of_tree fun k loc hk => ?_
  have hm := congrFun hmap k
  rw [toMap, toMap, hk] at hm
  obtain ⟨loc', hl, -⟩ := Option.map_eq_some_iff.mp hm.symm
  exact ⟨loc', hl⟩

lemma FewKeys.of_view (h : s.FewKeys)
    (hsub : ∀ k loc, disk.view k = some loc → ∃ loc', s.tree.lookup k = some loc') :
    disk.FewKeys := IndexManager.FewKeys.of_lookup h hsub

structure Disk.Ok (disk : Disk) : Prop where
  log : ∃ rs, LogOk (IndexManager.loadIndexIntoMemory disk.index) rs []
  few : disk.FewKeys

lemma Crash.view (hc : s.Crash disk) : s.Views disk.view := ⟨disk.index, hc.index, rfl⟩

lemma Crash.disk_ok (hc : s.Crash disk) (hl : s.Logged) (hfew : disk.FewKeys) : disk.Ok := by
  obtain ⟨rs, ts, h⟩ := hl
  obtain ⟨m, -, hlog⟩ := h.log.load hc.index
  refine ⟨⟨_, hlog, fun e he => h.location e ?_⟩, hfew⟩
  rw [List.append_nil] at he
  rcases List.mem_append.mp he with he | he
  · exact List.mem_append_left _ he
  · exact List.mem_append_right _ (List.mem_of_mem_take he)

structure Booting (settings : Settings) (disk : Disk) (u : Shard) : Prop where
  settings : u.settings = settings
  wal : u.wal = .openWal disk.wal
  cache : u.cache = .empty u.settings.CacheSize
  logged : u.Logged
  views : ∀ g, u.Views g → ∀ k, g k = disk.view k ∨ (g k = none ∧ Dangling disk.files disk.view k)
  grows : disk.files.Grows u.files
  inBounds : ∀ loc, LocationOk loc → (u.files.InBounds loc ↔ disk.files.InBounds loc)

lemma Booting.tree (h : Booting settings disk u) (k : Key) :
    u.tree.lookup k = disk.view k ∨ (u.tree.lookup k = none ∧ Dangling disk.files disk.view k) :=
  h.views _ h.logged.view_tree k

lemma openDisk_files (settings : Settings) (disk : Disk) :
    (openDisk settings disk).files = disk.files := by
  funext id
  simp only [files, StorageManager.files, openDisk, StorageManager.openAll_lookup, Disk.files,
    Option.map_map]
  cases disk.segs.lookup id <;> simp [DataSegment.openSegment]

lemma openDisk_booting (hd : disk.Ok) : Booting settings disk (openDisk settings disk) := by
  obtain ⟨⟨rs, h⟩, -⟩ := hd
  have h' : LogOk (openDisk settings disk).indexManager rs [] := h
  refine ⟨rfl, rfl, rfl, ⟨rs, [], h'⟩, fun g hg k => Or.inl ?_, ?_, fun loc _ => ?_⟩
  · rw [h'.flushed_views hg]
    rfl
  · rw [openDisk_files]
    exact .refl _
  · rw [openDisk_files]

lemma Booting.compactIndex (h : Booting settings disk u) (hfew : u.FewKeys) (ch : Choice) :
    Booting settings disk { u with indexManager := u.indexManager.compact ch } := by
  have hm : Move (fun _ _ => False) (fun _ => False) u
      { u with indexManager := u.indexManager.compact ch } :=
    .compactIndex ch hfew
  obtain ⟨hl, hv⟩ := hm.views (fun _ _ hf => hf.elim) h.logged
  refine ⟨h.settings, h.wal, h.cache, hl, fun g hg k => ?_, h.grows, h.inBounds⟩
  rcases hv g hg with hg | rfl
  · exact h.views g hg k
  · exact h.tree k

lemma Booting.bootStorage (h : Booting settings disk u)
    (hs : u.storageManager = ⟨StorageManager.openAll disk.segs, 0⟩) :
    Booting settings disk { u with storageManager := u.storageManager.boot } := by
  have hb : u.storageManager.boot = StorageManager.booted disk.segs := by rw [hs]; rfl
  rw [hb]
  exact ⟨h.settings, h.wal, h.cache, h.logged, h.views, StorageManager.booted_grows,
    fun loc hl => StorageManager.booted_inBounds hl.pos⟩

/-- The loop of the verification: the entries still to come are as INDEX has them, the others are
in bounds. -/
structure Verifying (settings : Settings) (disk : Disk) (rest : List IndexEntry) (u : Shard) :
    Prop where
  booting : Booting settings disk u
  storage : u.storageManager = StorageManager.booted disk.segs
  listed : u.Listed rest
  view : ∀ e ∈ rest, disk.view e.key = some e.location
  done : ∀ k loc, k ∉ rest.map IndexEntry.key → u.tree.lookup k = some loc → disk.files.InBounds loc
  kept : ∀ k, ¬ Dangling disk.files disk.view k → u.tree.lookup k = disk.view k

lemma Booting.location (h : Booting settings disk u) {k : Key} {loc : Location}
    (hk : u.tree.lookup k = some loc) :
    LocationOk loc := by
  obtain ⟨rs, ts, hl⟩ := h.logged
  exact hl.location_of_lookup hk

lemma Booting.bury (h : Booting settings disk u) {k : Key} {loc : Location}
    (hk : u.tree.lookup k = some loc)
    (hd : Dangling disk.files disk.view k) : Booting settings disk (bury k (toEntry k loc) u) := by
  obtain ⟨hl, hv⟩ :=
    (Move.bury (A := fun _ _ => False) (B := Dangling disk.files disk.view) hd hk).views
    (fun _ _ hf => hf.elim) h.logged
  refine ⟨h.settings, h.wal, ?_, hl, fun g hg j => ?_, h.grows, h.inBounds⟩
  · change u.cache.remove k = _
    rw [h.cache]
    rfl
  · rcases hv g hg with hg | rfl
    · exact h.views g hg j
    · rw [bury_tree hk]
      beta_reduce
      rw [AList.lookup_erase_ite]
      split_ifs with hj
      · exact Or.inr ⟨rfl, hj ▸ hd⟩
      · exact h.tree j

lemma verifyEntry_eq (hc : u.cache.remove e.key = u.cache) :
    verifyEntry e u =
      if live e && !u.storageManager.contains e then
        ⟨(), bury e.key e u, [bury e.key e u]⟩ else ⟨(), u, []⟩ := by
  have hb : bury e.key e u =
      { u with indexManager := u.indexManager.update e.key { e with isTombstone := true } } := by
    rw [Shard.bury, hc]
  rw [verifyEntry, Traced.get_bind, Traced.ite_run, hb]
  rfl

lemma verifyEntry_triple (e : IndexEntry) (rest : List IndexEntry) :
    Traced.Triple (Verifying settings disk (e :: rest)) (verifyEntry e)
    (fun _ => Verifying settings disk rest) (Booting settings disk) := by
  intro u h
  obtain ⟨loc, hk, he⟩ := h.listed.lookup e (by simp)
  have hview := h.view e (by simp)
  have hel : e.location = loc := by rw [he]; rfl
  have hloc := h.booting.location hk
  have hn := (List.nodup_cons.mp h.listed.nodup).1
  have hrest : ∀ e' ∈ rest, disk.view e'.key = some e'.location :=
    fun e' he' => h.view e' (by simp [he'])
  have hlive : live e = true := by
    rw [he]
    simp [live, toEntry, hloc.segmentId.ne]
  have hcontains : u.storageManager.contains e = true ↔ disk.files.InBounds loc := by
    have hfin : e.offset + e.size < 2 ^ 64 := by
      rw [he]
      exact hloc.finish
    rw [StorageManager.contains_iff (h.storage ▸ StorageManager.booted_wf _) hfin, hel]
    exact h.booting.inBounds loc hloc
  rw [verifyEntry_eq (by rw [h.booting.cache]; rfl), hlive, Bool.true_and]
  by_cases hin : disk.files.InBounds loc
  · rw [if_neg (by simp [hcontains.mpr hin])]
    refine ⟨⟨h.booting, h.storage, h.listed.tail, hrest, fun k l hk' hl => ?_, h.kept⟩, by simp⟩
    by_cases hke : k = e.key
    · subst hke
      obtain rfl : loc = l := by simpa [hk] using hl
      exact hin
    · exact h.done k l (by simp [hke, hk']) hl
  · have hdang : Dangling disk.files disk.view e.key := ⟨loc, hel ▸ hview, hin⟩
    rw [if_pos (by simpa using fun hc => hin (hcontains.mp hc)), he]
    have hb := h.booting.bury hk hdang
    have htree : ∀ k, (bury e.key (toEntry e.key loc) u).tree.lookup k = if k = e.key then
        none else u.tree.lookup k := by
      intro k
      rw [bury_tree hk, AList.lookup_erase_ite]
    refine ⟨⟨hb, h.storage, h.listed.of_bury hk, hrest, fun k l hk' hl => ?_,
      fun k hnd => ?_⟩, by simpa using hb⟩
    · change (bury e.key (toEntry e.key loc) u).tree.lookup k = some l at hl
      rw [htree] at hl
      split_ifs at hl with hke
      exact h.done k l (by simp [hke, hk']) hl
    · change (bury e.key (toEntry e.key loc) u).tree.lookup k = _
      have hke : k ≠ e.key := fun hke => hnd (hke ▸ hdang)
      rw [htree, if_neg hke, h.kept k hnd]

lemma fillCacheEntries_spec (h : s.Inv) {entries : List IndexEntry}
    (hl : ∀ e ∈ entries, ∃ loc, s.tree.lookup e.key = some loc ∧ e = toEntry e.key loc)
    (seenKeys : List Key)
    {c : LRUCache} (hw : c.Wf) (hc : ∀ k ce, c.find k = some ce → s.CachedOk k ce) :
    (fillCacheEntries s.storageManager entries seenKeys c).Wf ∧
      ∀ k ce, (fillCacheEntries s.storageManager entries seenKeys c).find k = some ce →
        s.CachedOk k ce := by
  induction entries generalizing seenKeys c with
  | nil => exact ⟨hw, hc⟩
  | cons e entries ih =>
    have hl' := fun e' he' => hl e' (List.mem_cons_of_mem e he')
    obtain ⟨loc, hk, he⟩ := hl e (by simp)
    have hread : s.storageManager.read e = s.files.slice loc := by
      rw [he]
      exact h.read_eq hk
    rw [fillCacheEntries]
    split_ifs with hskip
    · exact ih hl' _ hw hc
    · have hne : s.storageManager.read e ≠ [] := by
        rw [hread]
        exact h.slice_ne_nil hk
      simp only [hne, if_false]
      refine ih hl' _ (LRUCache.put_wf hw e _) fun k ce hf => ?_
      rcases LRUCache.put_find hw hf with ⟨rfl, rfl⟩ | ⟨-, hf⟩
      · refine ⟨?_, loc, hk, hread.symm⟩
        rw [he]
        exact h.live_entry hk
      · exact hc k ce hf

lemma fillCache_move {A : Key → Value → Prop} {B : Key → Prop} (h : s.Inv) (fill : Choice) :
    Move A B s (fillCache fill s) := by
  have hl : ∀ e ∈ (s.indexManager.getAll fill).take s.settings.CacheSize,
      ∃ loc, s.tree.lookup e.key = some loc ∧ e = toEntry e.key loc :=
    fun e he => (listed_getAll s fill).lookup e (List.mem_of_mem_take he)
  obtain ⟨hw, hc⟩ := fillCacheEntries_spec h hl [] h.cache h.cached
  exact .recache hw fun k ce hf => Or.inr (hc k ce hf)

structure Reopened (settings : Settings) (disk : Disk) (t : Shard) : Prop where
  settings : t.settings = settings
  wal : t.wal = .openWal disk.wal
  inv : t.Inv
  logged : t.Logged
  views : ∀ g, t.Views g → ∀ k, g k = disk.view k ∨ (g k = none ∧ Dangling disk.files disk.view k)
  grows : disk.files.Grows t.files
  tree : ∀ k loc, t.tree.lookup k = some loc ↔ disk.view k = some loc ∧ disk.files.InBounds loc
  storage : t.storageManager = StorageManager.booted disk.segs

lemma Verifying.tree (h : Verifying settings disk [] u) (k : Key) (loc : Location) :
    u.tree.lookup k = some loc ↔ disk.view k = some loc ∧ disk.files.InBounds loc := by
  constructor
  · intro hk
    rcases h.booting.tree k with hv | ⟨hn, -⟩
    · exact ⟨hv.symm.trans hk, h.done k loc (by simp) hk⟩
    · rw [hn] at hk
      cases hk
  · rintro ⟨hv, hin⟩
    rw [h.kept k, hv]
    rintro ⟨loc', hv', hin'⟩
    rw [hv] at hv'
    cases hv'
    exact hin' hin

lemma Verifying.inv (h : Verifying settings disk [] u) : u.Inv where
  storage := by
    rw [h.storage]
    exact StorageManager.booted_wf _
  cache := by
    rw [h.booting.cache]
    exact LRUCache.empty_wf _
  entry k loc hk := by
    have hl := h.booting.location hk
    exact ⟨(h.booting.inBounds loc hl).mpr ((h.tree k loc).mp hk).2, hl⟩
  cached k ce hf := by
    rw [h.booting.cache] at hf
    cases hf

lemma Verifying.reopened (h : Verifying settings disk [] u) (fill : Choice) :
    Reopened settings disk (fillCache fill u) := by
  have hm : Move (fun _ _ => False) (fun _ => False) u (fillCache fill u) :=
    fillCache_move h.inv fill
  obtain ⟨hl, -⟩ := hm.views (fun _ _ hf => hf.elim) h.booting.logged
  exact ⟨h.booting.settings, h.booting.wal, (hm.inv h.inv).1, hl,
    h.booting.views, h.booting.grows, h.tree, h.storage⟩

/-- The boot ends in a shard that has the index entries of INDEX that are in bounds, and on its way
INDEX keeps all entries but some that are not. -/
theorem boot_spec (settings : Settings) (hd : disk.Ok) (ch fill : Choice) :
    Reopened settings disk (reopen settings ch fill disk) ∧
      ∀ u ∈ (boot ch fill (openDisk settings disk)).visited,
        Booting settings disk u ∨ Reopened settings disk u := by
  have h0 : Booting settings disk (openDisk settings disk) := openDisk_booting hd
  have hfew : (openDisk settings disk).FewKeys := hd.few
  have h1 := h0.compactIndex hfew ch
  have h2 := h1.bootStorage rfl
  obtain ⟨s2, hs2⟩ : ∃ s2, s2 = ({ { openDisk settings disk with
      indexManager := (openDisk settings disk).indexManager.compact ch } with
      storageManager := StorageManager.booted disk.segs } : Shard) := ⟨_, rfl⟩
  have hv : Verifying settings disk (s2.indexManager.getAll ch) s2 := by
    rw [hs2]
    refine ⟨h2, rfl, listed_getAll _ ch, fun e he => ?_, fun k loc hk hl => ?_, fun k _ => rfl⟩
    · obtain ⟨loc, hl, hee⟩ := IndexManager.mem_of_mem_getAll he
      rw [hee]
      exact hl
    · have hfew' : Shard.FewKeys s2 := hs2 ▸ hfew
      exact absurd (hs2 ▸ mem_getAll_keys hfew' ch (hs2 ▸ hl)) hk
  obtain ⟨hfinal, hvisited⟩ := Traced.Triple.forEach _
    verifyEntry_triple (s2.indexManager.getAll ch) s2 hv
  have hboot : boot ch fill (openDisk settings disk) =
      ⟨(), fillCache fill (verifyIndexEntries ch s2).final, [{ openDisk settings
          disk with indexManager := (openDisk settings disk).indexManager.compact ch }] ++ ([s2] ++
          ((verifyIndexEntries ch s2).visited ++
            [fillCache fill (verifyIndexEntries ch s2).final]))⟩ := by
    rw [hs2]
    rfl
  have hre : Reopened settings disk (fillCache fill (verifyIndexEntries ch s2).final) :=
    hfinal.reopened fill
  rw [reopen, hboot]
  refine ⟨hre, fun u hu => ?_⟩
  simp only [List.mem_append, List.mem_singleton] at hu
  rcases hu with rfl | rfl | hu | rfl
  · exact Or.inl h1
  · exact Or.inl hv.booting
  · exact Or.inl (hvisited u hu)
  · exact Or.inr hre

lemma Reopened.toMap (h : Reopened settings disk t) : t.toMap = recovered disk.files disk.view := by
  funext k
  simp only [Shard.toMap, recovered]
  cases hk : t.tree.lookup k with
  | some loc =>
    obtain ⟨hv, hin⟩ := (h.tree k loc).mp hk
    rw [hv, Option.bind_some, if_pos hin, Option.map_some, hin.slice_eq h.grows]
  | none =>
    cases hv : disk.view k with
    | none => rfl
    | some loc =>
      rw [Option.bind_some, if_neg, Option.map_none]
      intro hin
      rw [(h.tree k loc).mpr ⟨hv, hin⟩] at hk
      cases hk

lemma empty_ok : Disk.empty.Ok :=
  ⟨⟨[], ⟨rfl, rfl, by simp, fun _ => rfl, fun _ => rfl⟩, by simp⟩, by decide⟩

lemma reopen_empty (settings : Settings) (ch fill : Choice) :
    (reopen settings ch fill .empty).Inv ∧ (reopen settings ch fill .empty).toMap =
      (fun _ => none) ∧ (reopen settings ch fill .empty).settings = settings := by
  obtain ⟨h, -⟩ := boot_spec settings empty_ok ch fill
  exact ⟨h.inv, h.toMap, h.settings⟩

end Shard

end Zest
