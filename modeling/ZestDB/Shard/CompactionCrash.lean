import ZestDB.Shard.Durable
import ZestDB.Shard.Sound

/-! A crash in a pass of the compactor over flushed files. -/

namespace Zest.Shard

open Foundations

variable {s t u : Shard} {disk : Disk} {ch : Choice} {entry e : IndexEntry}
  {entries : List IndexEntry}
variable {stay : IndexEntry → Bool}

lemma Settled.of_synced (h : Settled s u) {sm : StorageManager} (hg : u.synced.Grows sm.synced) :
    Settled s { u with storageManager := sm } := by
  refine ⟨h.index, h.tree, fun k loc hk => ?_⟩
  obtain ⟨hin, hs⟩ := h.bytes k loc hk
  exact ⟨hin.mono hg, (hin.slice_eq hg).trans hs⟩

lemma Settled.remove (h : Settled s u) {used : List ℕ} {sm : StorageManager}
    (hr : StorageManager.Removing used u.storageManager sm)
    (hu : ∀ k loc, s.tree.lookup k = some loc → loc.segmentId ∈ used) :
    Settled s { u with storageManager := sm } := by
  refine ⟨h.index, h.tree, fun k loc hk => ?_⟩
  obtain ⟨hin, hs⟩ := h.bytes k loc hk
  obtain ⟨hin', hs'⟩ := hr.synced (hu k loc hk) hin
  exact ⟨hin', hs'.trans hs⟩

lemma Settled.compactIndex (h : Settled s u) (hfew : u.FewKeys) (ch : Choice) :
    Settled s { u with indexManager := u.indexManager.compact ch } := by
  obtain ⟨rs, hlog⟩ := h.index
  exact ⟨⟨_, hlog.compact hfew ch⟩, h.tree, h.bytes⟩

lemma compactIndex_crash (hl : s.Logged)
    (hc : (s.indexManager.compact ch).index.Survives disk.index) :
    disk.Ok ∧ ∀ k, disk.view k = (Tree.applyAll ∅ (s.indexManager.getAll ch)).lookup k := by
  obtain ⟨rs, ts, hlog⟩ := hl
  have hentry : ∀ e ∈ s.indexManager.getAll ch, e.Fits ∧ LocationOk e.location := by
    intro e he
    obtain ⟨loc, hk, hee⟩ := IndexManager.mem_of_mem_getAll he
    rw [hee]
    exact ⟨hlog.log.entry_fits hk, hlog.location_of_lookup hk⟩
  have hindex : disk.index = indexCodec.encodeAll (s.indexManager.getAll ch) := by
    rw [hc.eq_of_flushed rfl, indexCodec_encodeAll]
    exact BufferedFile.content_ofContent _
  have hload := IndexManager.Log.of_records fun e he => (hentry e he).1
  rw [← hindex] at hload
  have htree : ∀ k, disk.view k = (Tree.applyAll ∅ (s.indexManager.getAll ch)).lookup k := by
    intro k
    have hk := hload.tree k
    rwa [List.append_nil] at hk
  refine ⟨⟨⟨_, hload, fun e he _ => (hentry e (by simpa using he)).2⟩, ?_⟩, htree⟩
  have hle : (Tree.applyAll ∅ (s.indexManager.getAll ch)).keys.length ≤ UINT_MAX :=
    (Tree.applyAll_keys_le _).trans (List.length_take_le _ _)
  have hfew : IndexManager.FewKeys ⟨Tree.applyAll ∅ _, .ofContent [], false⟩ := hle
  exact hfew.of_lookup fun k loc hk => ⟨loc, (htree k).symm.trans hk⟩

variable (ch) in
lemma fewKeys_of_recovers (h : s.Logged)
    (hr : Recovers s { s with indexManager := s.indexManager.compact ch }) : s.FewKeys := by
  by_contra hmany
  obtain ⟨k, hk, hleft⟩ := IndexManager.exists_left_out hmany ch
  obtain ⟨loc, hl⟩ := AList.mem_iff_lookup.mp hk
  have hc := saved_crash { s with indexManager := s.indexManager.compact ch }
  obtain ⟨hok, hview⟩ := compactIndex_crash h hc.index
  obtain ⟨hre, -⟩ := boot_spec s.settings hok .plain .plain
  have hmap := congrFun (hr _ hc s.settings .plain .plain) k
  rw [hre.toMap, recovered, hview, Tree.lookup_applyAll_absent _ _ _ hleft,
    AList.lookup_empty, toMap,
    show s.tree.lookup k = some loc from hl] at hmap
  cases hmap

def Moved (stay : IndexEntry → Bool) (segSize : ℕ) (e : IndexEntry) : Prop :=
  stay e = false ∧ e.size ≤ segSize

lemma relocate_unmoved (h : s.Inv) (hl : s.WithinLimits) {loc : Location}
    (hk : s.tree.lookup entry.key = some loc)
    (he : entry = toEntry entry.key loc) (hm : ¬ Moved stay s.settings.SegSize entry)
    (entries : List IndexEntry) :
    ∃ t ts, t ∈ s :: ts ∧ (∀ u ∈ ts, Grown s (s.files.slice loc) u) ∧
      relocate stay (entry :: entries) s =
        ⟨(entry :: (relocate stay entries t).val.1, (relocate stay entries t).val.2),
          (relocate stay entries t).final, ts ++ (relocate stay entries t).visited⟩ := by
  have hread : s.storageManager.read entry = s.files.slice loc := by
    rw [he]
    exact h.read_eq hk
  have hlen : (s.files.slice loc).length = entry.size := by
    rw [(h.entry _ _ hk).inBounds.slice_length, he]
    rfl
  have hv : ValueOk (s.files.slice loc) := by
    refine ⟨h.slice_ne_nil hk, ?_⟩
    rw [(h.entry _ _ hk).inBounds.slice_length]
    exact (h.entry _ _ hk).location.size
  by_cases hs : (stay entry || s.storageManager.read entry = []) = true
  · exact ⟨s, [], by simp, by simp, relocate_stay hs rfl⟩
  · obtain ⟨e, t, ts, ha, hmem, hts, hcase⟩ := append_cases h.storage hl hv
    rw [← hread] at ha
    have hstay : stay entry = false := by simpa [hread, hv.ne_nil] using hs
    have hlt : s.settings.SegSize < entry.size := by
      by_contra hle
      exact hm ⟨hstay, not_lt.mp hle⟩
    rcases hcase with ⟨hle, -⟩ | ⟨-, hinvalid⟩
    · omega
    · exact ⟨t, ts, by simp [hmem], hts, relocate_refused hs ha hinvalid rfl⟩

def Widened (s u : Shard) : Prop := ∃ sm, s.synced.Grows sm.synced ∧
  u = { s with storageManager := sm }

lemma Widened.refl (s : Shard) : Widened s s := ⟨s.storageManager, .refl _, rfl⟩

lemma Widened.trans (h : Widened s t) (h' : Widened t u) : Widened s u := by
  obtain ⟨sm, hg, rfl⟩ := h
  obtain ⟨sm', hg', rfl⟩ := h'
  exact ⟨sm', hg.trans hg', rfl⟩

lemma Grown.widened {v : Value} (h : Grown s v u) : Widened s u := by
  obtain ⟨sm, hg, rfl⟩ := h
  exact ⟨sm, hg.synced, rfl⟩

lemma Widened.settled {x : Shard} (h : Widened t u) (hs : Settled x t) : Settled x u := by
  obtain ⟨sm, hg, rfl⟩ := h
  exact hs.of_synced hg

lemma relocate_next (h : s.Inv) (hl : s.Listed (entry :: entries)) {v : Value} {ts : List Shard}
    (ht : t ∈ s :: ts) (hts : ∀ u ∈ ts, Grown s v u) {o : Outcome Shard (List IndexEntry × Bool)}
    (hrun : relocate stay (entry :: entries) s =
      ⟨o.val, (relocate stay entries t).final, ts ++ (relocate stay entries t).visited⟩)
    (hw : Traced.Within WithinLimits (relocate stay (entry :: entries)) s) :
    t.Inv ∧ t.Listed entries ∧ t.settings = s.settings ∧ t.tree = s.tree ∧ Widened s t ∧
      Traced.Within WithinLimits (relocate stay entries) t := by
  have hw' : Traced.Within WithinLimits (relocate stay entries) t := by
    intro x hx
    refine hw x ?_
    rw [hrun]
    rcases List.mem_cons.mp hx with rfl | hx
    · rcases List.mem_cons.mp ht with rfl | ht
      · simp
      · simp [ht]
    · simp [hx]
  rcases List.mem_cons.mp ht with rfl | ht
  · exact ⟨h, hl.tail, rfl, rfl, .refl _, hw'⟩
  · obtain ⟨hi, -, htree⟩ := (hts t ht).inv h
    exact ⟨hi, hl.tail.of_tree fun k _ => by rw [htree], (hts t ht).settings_eq, htree,
      (hts t ht).widened, hw'⟩

lemma relocate_quiet (h : s.Inv) (hl : s.Listed entries)
    (hw : Traced.Within WithinLimits (relocate stay entries) s)
    (hm : ∀ e ∈ entries, ¬ Moved stay s.settings.SegSize e) :
    (relocate stay entries s).val.2 = false ∧ ∀ u ∈ s :: (relocate stay entries s).visited,
    Widened s u := by
  induction entries generalizing s with
  | nil =>
    refine ⟨rfl, fun u hu => ?_⟩
    obtain rfl : u = s := by simpa [relocate] using hu
    exact .refl u
  | cons entry entries ih =>
    obtain ⟨loc, hk, he⟩ := hl.lookup entry (by simp)
    obtain ⟨t, ts, ht, hts, hrun⟩ := relocate_unmoved h hw.start hk he (hm entry (by simp)) entries
    obtain ⟨hi, hlt, hset, -, hwide, hw'⟩ := relocate_next h hl ht hts
      (o := relocate stay (entry :: entries) s) (by rw [hrun]) hw
    obtain ⟨hfalse, hvis⟩ := ih hi hlt hw' fun e he => hset ▸ hm e (by simp [he])
    rw [hrun]
    refine ⟨hfalse, fun u hu => ?_⟩
    rcases List.mem_cons.mp hu with rfl | hu
    · exact .refl u
    · rcases List.mem_append.mp hu with hu | hu
      · exact (hts u hu).widened
      · exact hwide.trans (hvis u (by simp [hu]))

lemma relocate_exposes (h : s.Inv) (hl : s.Listed entries)
    (hw : Traced.Within WithinLimits (relocate stay entries) s)
    (hm : ∃ e ∈ entries, Moved stay s.settings.SegSize e) :
    ∃ u ∈ (relocate stay entries s).visited, ∃ k old loc, s.tree.lookup k = some old ∧
      u.tree.lookup k = some loc ∧ ¬ u.synced.InBounds loc := by
  induction entries generalizing s with
  | nil => simp at hm
  | cons entry entries ih =>
    obtain ⟨loc, hk, he⟩ := hl.lookup entry (by simp)
    by_cases hmoved : Moved stay s.settings.SegSize entry
    · have hread : s.storageManager.read entry = s.files.slice loc := by
        rw [he]
        exact h.read_eq hk
      have hlen : (s.files.slice loc).length = entry.size := by
        rw [(h.entry _ _ hk).inBounds.slice_length, he]
        rfl
      have hne := h.slice_ne_nil hk
      have hsize : (s.files.slice loc).length < 2 ^ 32 := by
        rw [(h.entry _ _ hk).inBounds.slice_length]
        exact (h.entry _ _ hk).location.size
      obtain ⟨ha, hmem, -⟩ := StorageManager.append_fits h.storage hw.start.storage hw.start.segSize
        (hlen ▸ hmoved.2) (hsize.trans (by decide))
      have hs : ¬ (stay entry || s.storageManager.read entry = []) = true := by
        simp [hmoved.1, hread, hne]
      have happ : onStorage
          (StorageManager.append s.settings.SegSize (s.storageManager.read entry)) s =
          onStorage (StorageManager.append s.settings.SegSize (s.files.slice loc)) s := by
            rw [hread]
      rw [relocate_moved hs happ ha.valid.ne (Eq.refl _) (Eq.refl _)]
      refine ⟨_, List.mem_append_right _ List.mem_cons_self, entry.key, loc, _, hk, ?_,
        ha.not_synced hsize hne⟩
      exact (insert_lookup _ _ _).trans (if_pos rfl)
    · obtain ⟨t, ts, ht, hts, hrun⟩ := relocate_unmoved h hw.start hk he hmoved entries
      obtain ⟨hi, hlt, hset, htree, -, hw'⟩ := relocate_next h hl ht hts
        (o := relocate stay (entry :: entries) s) (by rw [hrun]) hw
      obtain ⟨e, hmem, hme⟩ := hm
      have hrest : e ∈ entries := by
        rcases List.mem_cons.mp hmem with rfl | hmem
        · exact absurd hme hmoved
        · exact hmem
      obtain ⟨u, hu, hex⟩ := ih hi hlt hw' ⟨e, hrest, hset ▸ hme⟩
      rw [hrun]
      exact ⟨u, List.mem_append_right _ hu, htree ▸ hex⟩

lemma compactSegments_settled {x : Shard} (hs : Settled x s) (h : s.Inv) (hl : s.Listed entries)
    (hall : ∀ k loc, s.tree.lookup k = some loc → k ∈ entries.map IndexEntry.key)
    (hw : Traced.Within WithinLimits (compactSegments ch entries) s) (hm : ∀ e ∈ entries,
      ¬ Moved (stays s.settings.SegSize s.storageManager.latestSegmentId entries)
        s.settings.SegSize e) :
    ∀ u ∈ (compactSegments ch entries s).visited, Settled x u := by
  have hwr : Traced.Within WithinLimits
      (relocate (stays s.settings.SegSize s.storageManager.latestSegmentId entries) entries) s :=
    (hw.bind_right .get).bind_left
  obtain ⟨hquiet, hvis⟩ := relocate_quiet h hl hwr hm
  have hrel := relocate_spec h hl (hwr.mono fun _ hs => hs.bounded)
  obtain ⟨o, ho⟩ : ∃ o, o = relocate
      (stays s.settings.SegSize s.storageManager.latestSegmentId entries) entries s := ⟨_, rfl⟩
  rw [← ho] at hquiet hvis hrel
  have hrun : compactSegments ch entries s =
      ⟨(), (onStorage (StorageManager.removeUnusedSegments ch (o.val.1.map IndexEntry.segmentId))
          o.final).final, o.visited ++ ([] ++
          (onStorage (StorageManager.removeUnusedSegments ch (o.val.1.map IndexEntry.segmentId))
            o.final).visited)⟩ := by
    rw [compactSegments, Traced.get_bind]
    have hflush : flushMoved ch o.val.2 o.final = ⟨(), o.final, []⟩ := by
      rw [hquiet]
      rfl
    exact Traced.bind_eq ho.symm (Traced.bind_eq hflush rfl)
  have hfinal : Settled x o.final := by
    refine (hvis o.final ?_).settled hs
    rw [ho]
    exact relocate_tracked s
  have hused : ∀ k loc, x.tree.lookup k = some loc →
      loc.segmentId ∈ o.val.1.map IndexEntry.segmentId := by
    intro k loc hk
    have hfk : (flushMoved ch o.val.2 o.final).final.tree.lookup k = some loc := by
      rw [flushMoved_tree, hfinal.tree]
      exact hk
    exact hrel.used hall hfk
  rw [hrun]
  intro u hu
  rcases List.mem_append.mp hu with hu | hu
  · exact (hvis u (by simp [hu])).settled hs
  · obtain ⟨sm, hsm, rfl⟩ := List.mem_map.mp hu
    obtain ⟨-, -, hv⟩ :=
      StorageManager.removeUnusedSegments_removing ch (o.val.1.map IndexEntry.segmentId)
      o.final.storageManager
    exact hfinal.remove (hv sm hsm) hused

lemma compactSegments_exposes (h : s.Inv) (hl : s.Listed entries)
    (hw : Traced.Within WithinLimits (compactSegments ch entries) s) (hm : ∃ e ∈ entries,
      Moved (stays s.settings.SegSize s.storageManager.latestSegmentId entries)
        s.settings.SegSize e) :
    ∃ u ∈ (compactSegments ch entries s).visited, ∃ k old loc, s.tree.lookup k = some old ∧
      u.tree.lookup k = some loc ∧ ¬ u.synced.InBounds loc := by
  obtain ⟨u, hu, hex⟩ := relocate_exposes h hl (hw.bind_right .get).bind_left hm
  refine ⟨u, ?_, hex⟩
  rw [compactSegments, Traced.get_bind]
  exact List.mem_append_left _ hu

lemma Recovers.inBounds (hr : Recovers s u) (hl : u.Logged) (hfew : u.FewKeys) {k : Key}
    {old loc : Location} (hs : s.tree.lookup k = some old) (hk : u.tree.lookup k = some loc) :
    u.synced.InBounds loc := by
  obtain ⟨file, hsurv, hview⟩ := hl.view_tree
  have hc := barest_crash (s := u) hsurv
  have hok : (u.barest file).Ok :=
    hc.disk_ok hl (hfew.of_view fun k loc hk => ⟨loc, (congrFun hview k).trans hk⟩)
  obtain ⟨hre, -⟩ := boot_spec s.settings hok .plain .plain
  have hmap := congrFun (hr _ hc s.settings .plain .plain) k
  have hdv : (u.barest file).view k = some loc := (congrFun hview k).symm.trans hk
  by_contra hout
  rw [hre.toMap, recovered, hdv, barest_files, Option.bind_some, if_neg hout, Shard.toMap,
    hs] at hmap
  cases hmap

structure Durable (s : Shard) : Prop extends Flushed s where
  wal : s.wal.file.content = []

def Relocates (ch : Choice) (s : Shard) (e : IndexEntry) : Prop :=
  e ∈ s.indexManager.getAll ch ∧
    Moved (stays s.settings.SegSize s.storageManager.latestSegmentId (s.indexManager.getAll ch))
      s.settings.SegSize e

/-- A pass over flushed files is safe against a crash exactly when it writes every key to INDEX and
copies no value. -/
theorem compactorPass_recovers_iff (h : s.Inv) (hd : s.Durable)
    (hw : Traced.Within WithinLimits (compactorPass ch) s) :
    (∀ u ∈ s :: (compactorPass ch s).visited, Recovers s u) ↔
      s.FewKeys ∧ ∀ e, ¬ Relocates ch s e := by
  obtain ⟨c, hc⟩ : ∃ c, c = ({ s with indexManager := s.indexManager.compact ch } : Shard) :=
    ⟨_, rfl⟩
  have hvisited : (compactorPass ch s).visited =
      c :: (compactSegments ch (s.indexManager.getAll ch) c).visited := by
    rw [hc]
    rfl
  have htree : c.tree = s.tree := by rw [hc]; rfl
  have ht : (s.indexManager.compact ch).memoryTree = s.indexManager.memoryTree := rfl
  have hi : c.Inv := hc ▸ (h.of_tree ht).1
  have hl : c.Listed (s.indexManager.getAll ch) := (listed_getAll s ch).of_tree fun _ _ => by
    rw [htree]
  have hwc : Traced.Within WithinLimits (compactSegments ch (s.indexManager.getAll ch)) c := by
    intro x hx
    refine hw x ?_
    rw [hvisited]
    exact List.mem_cons_of_mem _ hx
  have hset : c.settings = s.settings ∧ c.storageManager = s.storageManager := by
    rw [hc]; exact ⟨rfl, rfl⟩
  constructor
  · intro hr
    obtain ⟨rs, hlog⟩ := hd.index
    have hfew : s.FewKeys := by
      refine fewKeys_of_recovers ch ⟨rs, [], hlog⟩ (hc ▸ hr c ?_)
      rw [hvisited]
      exact List.mem_cons_of_mem _ List.mem_cons_self
    refine ⟨hfew, fun e he => ?_⟩
    obtain ⟨hmem, hmoved⟩ := he
    obtain ⟨u, hu, k, old, loc, hold, hk, hout⟩ := compactSegments_exposes hi hl hwc
      ⟨e, hmem, by rw [hset.1, hset.2]; exact hmoved⟩
    have hpath : Path (fun _ _ => False) (fun _ => False) s u := by
      refine (compactorPass_runs h hfew (hw.mono fun _ hs => hs.bounded)).visited u ?_
      rw [hvisited]
      exact List.mem_cons_of_mem _ hu
    have hlogged : u.Logged := hpath.logged (by simp) ⟨rs, [], hlog⟩
    refine hout ((hr u ?_).inBounds hlogged (hfew.of_toMap (hpath.toMap_eq h)) (htree ▸ hold) hk)
    rw [hvisited]
    exact List.mem_cons_of_mem _ (List.mem_cons_of_mem _ hu)
  · rintro ⟨hfew, hm⟩ u hu
    have hs := hd.toFlushed.settled h
    have hsc : Settled s c := hc ▸ hs.compactIndex hfew ch
    rw [hvisited] at hu
    refine Settled.recovers ?_
    rcases List.mem_cons.mp hu with rfl | hu
    · exact hs
    · rcases List.mem_cons.mp hu with rfl | hu
      · exact hsc
      · refine compactSegments_settled hsc hi hl
          (fun k loc hk => mem_getAll_keys hfew ch (htree ▸ hk)) hwc ?_ u hu
        intro e he hmoved
        rw [hset.1, hset.2] at hmoved
        exact hm e ⟨he, hmoved⟩

def smallSettings : Settings := { SegSize := 10, MaxValueSize := 8 }

def sparseWrites : Shard :=
  (del (ascii "b") (set (ascii "c") (ascii "zzzz") (set (ascii "b") (ascii "yyyy")
    (set (ascii "a") (ascii "xxxx")
      (reopen smallSettings .plain .plain .empty)).final).final).final).final

def sparseShard : Shard := (flushData .plain sparseWrites).final

lemma set_final_sound (key : Key) (value : Value) (hw : Traced.Within Bounded (set key value) s)
    (hv : ValueOk value)
    (hk : key.length ≤ MAX_KEY_SIZE) (h : s.Sound) : (set key value s).final.Sound :=
  (set_sound h hv hk hw).final set_tracked

lemma sparseWrites_sound : sparseWrites.Sound := by
  have h0 := reopen_sound smallSettings .plain .plain empty_ok
  have h1 := set_final_sound (ascii "a") (ascii "xxxx") (by decide +kernel)
    ⟨by decide, by decide⟩ (by decide) h0
  have h2 := set_final_sound (ascii "b") (ascii "yyyy") (by decide +kernel)
    ⟨by decide, by decide⟩ (by decide) h1
  have h3 := set_final_sound (ascii "c") (ascii "zzzz") (by decide +kernel)
    ⟨by decide, by decide⟩ (by decide) h2
  exact (del_sound h3 (ascii "b")).final del_tracked

lemma sparseShard_ok : sparseShard.Inv ∧ sparseShard.Durable := by
  have h := sparseWrites_sound
  exact ⟨((flushData_sound h).final flushData_tracked).inv,
    flushData_flushed h.inv h.logged .plain, by decide +kernel⟩

lemma sparseShard_within : Traced.Within WithinLimits (compactorPass .plain) sparseShard := by
  decide +kernel

theorem sparseShard_recovers_iff :
    sparseShard.Inv ∧ sparseShard.Durable ∧
    Traced.Within WithinLimits (compactorPass .plain) sparseShard ∧
      ((∀ u ∈ sparseShard :: (compactorPass .plain sparseShard).visited, Recovers sparseShard u) ↔
        sparseShard.FewKeys ∧ ∀ e, ¬ Relocates .plain sparseShard e) :=
  ⟨sparseShard_ok.1, sparseShard_ok.2, sparseShard_within,
    compactorPass_recovers_iff sparseShard_ok.1 sparseShard_ok.2 sparseShard_within⟩

/-- The crash after the first value is copied, with the whole of INDEX on disk and no byte of the
copy. -/
theorem sparseShard_not_recovers :
    sparseShard.Inv ∧ sparseShard.Durable ∧
    Traced.Within WithinLimits (compactorPass .plain) sparseShard ∧
      ¬ ∀ u ∈ sparseShard :: (compactorPass .plain sparseShard).visited,
      Recovers sparseShard u := by
  refine ⟨sparseShard_ok.1, sparseShard_ok.2, sparseShard_within, fun hr => ?_⟩
  obtain ⟨u, hu⟩ : ∃ u, (compactorPass .plain sparseShard).visited[2]? = some u := by
    refine Option.isSome_iff_exists.mp ?_
    decide +kernel
  have hlost : (compactorPass .plain sparseShard).visited[2]?.map (fun u =>
      (reopen smallSettings .plain .plain (u.barest u.indexManager.index.content)).toMap
      (ascii "a")) = some none := by
    decide +kernel
  have hhad : sparseShard.toMap (ascii "a") = some (ascii "xxxx") := by decide +kernel
  have hsame := congrFun (hr u (List.mem_cons_of_mem _ (List.mem_of_getElem? hu)) _
    (barest_crash u.indexManager.index.survives_content) smallSettings .plain .plain) (ascii "a")
  rw [hu, Option.map_some, hsame, hhad] at hlost
  cases hlost

end Zest.Shard
