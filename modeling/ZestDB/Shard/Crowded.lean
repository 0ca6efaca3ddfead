import ZestDB.Cache.Recency
import ZestDB.Shard.CompactionCrash

/-! A shard that takes one value of a byte after the other, and a pass of the compactor over it. -/

namespace Zest.Shard

open Foundations

variable {s : Shard} {keys : List Key} {ch : Choice}

def oneByte : Value := ascii "x"

structure Filling (s : Shard) (keys : List Key) : Prop where
  latest : s.storageManager.latestSegmentId = 1
  segment : ∃ seg, s.storageManager.segments.lookup 1 = some seg ∧ seg.file.content.length =
    keys.length
  only : ∀ id seg, s.storageManager.segments.lookup id = some seg → id = 1
  tree : ∀ k loc, s.tree.lookup k = some loc → loc.segmentId = 1 ∧ loc.size = 1
  all : ∀ k ∈ keys, ∃ loc, s.tree.lookup k = some loc

def roomy : Settings := { SegSize := 2 ^ 33 }

lemma filling_nil : Filling (reopen roomy .plain .plain .empty) [] := by
  have htree : (reopen roomy .plain .plain .empty).tree.keys = [] := by decide +kernel
  have hkeys : (reopen roomy .plain .plain .empty).storageManager.segments.keys = [1] := by
    decide +kernel
  refine ⟨by decide +kernel, ⟨.openSegment 1 (.ofContent []), by decide +kernel, rfl⟩,
    fun id seg hs => ?_, fun k loc hk => ?_, fun k hk => ?_⟩
  · have hmem : id ∈ (reopen roomy .plain .plain .empty).storageManager.segments.keys :=
      AList.mem_iff_lookup.mpr ⟨seg, hs⟩
    rw [hkeys] at hmem
    exact List.mem_singleton.mp hmem
  · have hmem : k ∈ (reopen roomy .plain .plain .empty).tree.keys :=
      AList.mem_iff_lookup.mpr ⟨loc, hk⟩
    rw [htree] at hmem
    cases hmem
  · cases hk

lemma Filling.storage_limits (h : Filling s keys) (hlen : keys.length < 2 ^ 63) :
    s.storageManager.WithinLimits := by
  refine ⟨by rw [h.latest]; decide, fun id seg hs => ?_⟩
  obtain rfl := h.only id seg hs
  obtain ⟨seg', hs', hlen'⟩ := h.segment
  obtain rfl := Option.some.inj (hs.symm.trans hs')
  rwa [hlen']

lemma Filling.append (h : Filling s keys) (hw : s.storageManager.Wf)
    (hlen : keys.length < s.settings.SegSize) (hz : s.settings.SegSize < 2 ^ 63) :
    ∃ sm, onStorage (StorageManager.append s.settings.SegSize oneByte) s =
        ⟨⟨[], keys.length, 1, 1, false⟩, { s with storageManager := sm },
          [{ s with storageManager := sm }]⟩ ∧
      sm.latestSegmentId = 1 ∧
      (∃ seg, sm.segments.lookup 1 = some seg ∧ seg.file.content.length = keys.length + 1) ∧
      ∀ id seg, sm.segments.lookup id = some seg → id = 1 := by
  obtain ⟨seg, hs, hcontent⟩ := h.segment
  have hlatest := h.latest
  have hroom : seg.file.content.length + oneByte.length ≤ s.settings.SegSize := by
    rw [hcontent]
    exact hlen
  obtain ⟨sm, hrun, happended, hsame⟩ :=
    StorageManager.append_room hw (hlatest ▸ hs) (by decide : oneByte ≠ []) hroom
    (by omega) (by rw [hlatest]; decide)
  rw [hlatest, hcontent] at hrun happended
  obtain ⟨seg', hseg', -, -, -, hlookup⟩ := happended.segment
  have hsame' : seg' = seg := by
    rcases hseg' with hseg' | ⟨hnone, -⟩
    · exact Option.some.inj (hseg'.symm.trans hs)
    · cases hnone.symm.trans hs
  refine ⟨sm, ?_, hsame.trans hlatest, ⟨seg.wrote oneByte, ?_, ?_⟩, fun id seg'' hid => ?_⟩
  · rw [onStorage, Traced.zoom, hrun]
    rfl
  · rw [hlookup, if_pos rfl, hsame']
  · rw [DataSegment.wrote, BufferedFile.content_append, List.length_append, hcontent]
    rfl
  · rw [hlookup] at hid
    split_ifs at hid with hone
    · exact hone
    · exact h.only id seg'' hid

lemma Filling.set (h : Filling s keys) (hw : s.storageManager.Wf)
    (hlen : keys.length < s.settings.SegSize) (hz : s.settings.SegSize < 2 ^ 63) (key : Key) :
    Traced.Within Bounded (Shard.set key oneByte) s ∧
      (Shard.set key oneByte s).val = ⟨.Success, Messages.SUCCESS_SET, 1⟩ ∧
      (Shard.set key oneByte s).final.settings = s.settings ∧
      Filling (Shard.set key oneByte s).final (keys ++ [key]) := by
  obtain ⟨sm, ha, hlatest, hsegment, honly⟩ := h.append hw hlen hz
  obtain ⟨t, ht⟩ : ∃ t : Shard, t = { s with storageManager := sm } := ⟨_, rfl⟩
  rw [← ht] at ha
  have hput : Shard.set key oneByte s = _ :=
    set_put ha (show (1 : ℕ) ≠ INVALID_SEGMENT_ID by decide)
  have hbounded : Bounded s := ⟨h.storage_limits (by omega), by omega⟩
  have htree : ∀ k, (putIndex ⟨key, keys.length, 1, 1, false⟩ oneByte t).tree.lookup k =
      if k = key then some ⟨keys.length, 1, 1⟩ else s.tree.lookup k := by
    intro k
    rw [ht]
    exact insert_lookup s _ k
  have hfilling : Filling (putIndex ⟨key, keys.length, 1, 1, false⟩ oneByte t) (keys ++ [key]) := by
    refine ⟨by rw [ht]; exact hlatest, ?_, by rw [ht]; exact honly, fun k loc hk => ?_,
      fun k hk => ?_⟩
    · rw [ht, List.length_append]
      exact hsegment
    · rw [htree] at hk
      split_ifs at hk
      · obtain rfl := Option.some.inj hk
        exact ⟨rfl, rfl⟩
      · exact h.tree k loc hk
    · rw [htree]
      split_ifs with heq
      · exact ⟨_, rfl⟩
      · refine h.all k ((List.mem_append.mp hk).resolve_right fun hlast =>
          heq (List.mem_singleton.mp hlast))
  have hafter : ∀ c : LRUCache, ∀ im : IndexManager,
      Bounded { s with storageManager := sm, cache := c, indexManager := im } := by
    intro c im
    have hlim := hfilling.storage_limits (by rw [List.length_append, List.length_singleton]; omega)
    rw [ht] at hlim
    exact ⟨hlim, hbounded.segSize⟩
  rw [hput]
  refine ⟨fun u hu => ?_, rfl, by rw [ht]; rfl, hfilling⟩
  rw [hput, ht] at hu
  rcases List.mem_cons.mp hu with rfl | hu
  · exact hbounded
  · rcases List.mem_cons.mp hu with rfl | hu
    · exact hafter _ _
    · obtain rfl := List.mem_singleton.mp hu
      exact hafter _ _

lemma compactorPass_stays {entries : List IndexEntry} (he : s.indexManager.getAll ch = entries)
    (h : ∀ e ∈ entries, stays s.settings.SegSize s.storageManager.latestSegmentId entries e =
      true) :
    compactorPass ch s =
      ⟨(), { s with
          indexManager := s.indexManager.compact ch
          storageManager :=
            (StorageManager.removeUnusedSegments ch
              (entries.map IndexEntry.segmentId) s.storageManager).final },
        { s with indexManager := s.indexManager.compact ch } ::
          (StorageManager.removeUnusedSegments ch
            (entries.map IndexEntry.segmentId) s.storageManager).visited.map
            fun sm =>
              { s with indexManager := s.indexManager.compact ch, storageManager := sm }⟩ := by
  have hrelocate : ∀ (es : List IndexEntry) (t : Shard) (stay : IndexEntry → Bool),
      (∀ e ∈ es, stay e = true) → relocate stay es t = ⟨(es, false), t, []⟩ := by
    intro es t stay hstay
    induction es with
    | nil => rfl
    | cons e es ih =>
      have hs : (stay e || t.storageManager.read e = []) = true := by
        rw [hstay e List.mem_cons_self, Bool.true_or]
      rw [relocate_stay hs (ih fun e he => hstay e (List.mem_cons_of_mem _ he))]
  obtain ⟨c, hc⟩ : ∃ c : Shard, c = { s with indexManager := s.indexManager.compact ch } := ⟨_, rfl⟩
  have hindex : compactIndex ch s = ⟨entries, c, [c]⟩ := by
    rw [hc, ← he]
    rfl
  have hstays := hrelocate entries c
    (stays c.settings.SegSize c.storageManager.latestSegmentId entries) (by rw [hc]; exact h)
  have hsegments : compactSegments ch entries c =
      onStorage (StorageManager.removeUnusedSegments ch (entries.map IndexEntry.segmentId)) c := by
    rw [compactSegments, Traced.get_bind]
    have hbind := Traced.bind_eq (f := fun r => do
      flushMoved ch r.2
      onStorage (StorageManager.removeUnusedSegments ch (r.1.map IndexEntry.segmentId))) hstays rfl
    rw [hbind]
    rfl
  have hpass := Traced.bind_eq (f := compactSegments ch) hindex hsegments
  change compactorPass ch s = _ at hpass
  rw [hpass, hc]
  rfl

lemma compactorPass_stays_bounded {entries : List IndexEntry}
    (hb : Bounded s) (he : s.indexManager.getAll ch = entries)
    (h : ∀ e ∈ entries, stays s.settings.SegSize s.storageManager.latestSegmentId entries
      e = true) :
    Traced.Within Bounded (compactorPass ch) s := by
  obtain ⟨-, -, hvisited⟩ := StorageManager.removeUnusedSegments_removing ch (entries.map
    IndexEntry.segmentId) s.storageManager
  intro u hu
  rw [compactorPass_stays he h] at hu
  rcases List.mem_cons.mp hu with rfl | hu
  · exact hb
  · rcases List.mem_cons.mp hu with rfl | hu
    · exact ⟨hb.storage, hb.segSize⟩
    · obtain ⟨sm, hsm, rfl⟩ := List.mem_map.mp hu
      refine ⟨⟨by rw [(hvisited sm hsm).latest]; exact hb.storage.latest, fun id seg hid =>
        ?_⟩, hb.segSize⟩
      rcases (hvisited sm hsm).lookup id with hsame | ⟨-, hgone⟩
      · exact hb.storage.length id seg (hsame ▸ hid)
      · cases hgone.symm.trans hid

/-- A pass over more keys than `getAll` lists: one of them is still found, and a boot after the next
flush does not know it. -/
lemma Filling.forgets (h : Filling s keys) (hb : Bounded s) (hl : s.Logged) (hmany : ¬ s.FewKeys)
    (ch chf : Choice) :
    Traced.Within Bounded (compactorPass ch) s ∧ (compactorPass ch s).final.indexManager =
      s.indexManager.compact ch ∧ ∃ k, (compactorPass ch s).final.toMap k ≠ none ∧
      ∀ disk, (flushData chf (compactorPass ch s).final).final.indexManager.index.Survives
        disk.index → ∀ settings ch' fill, (reopen settings ch' fill disk).toMap k = none := by
  have hstays : ∀ e ∈ s.indexManager.getAll ch,
      stays s.settings.SegSize s.storageManager.latestSegmentId (s.indexManager.getAll ch) e =
        true := by
    intro e he
    obtain ⟨loc, hk, hee⟩ := IndexManager.mem_of_mem_getAll he
    have hone : e.segmentId = 1 := by
      rw [hee]
      exact (h.tree e.key loc hk).1
    rw [stays, hone, h.latest]
    rfl
  refine ⟨compactorPass_stays_bounded hb (Eq.refl _) hstays, ?_⟩
  obtain ⟨k, hk, hleft⟩ := IndexManager.exists_left_out hmany ch
  obtain ⟨loc, hloc⟩ := AList.mem_iff_lookup.mp hk
  rw [compactorPass_stays rfl hstays]
  refine ⟨rfl, k, ?_, fun disk hdisk settings ch' fill => ?_⟩
  · have hfound : ∀ t : Shard, t.tree = s.tree → t.toMap k ≠ none := by
      intro t ht
      rw [toMap, ht, show s.tree.lookup k = some loc from hloc, Option.map_some]
      exact Option.some_ne_none _
    exact hfound _ rfl
  · have hview : disk.view k = none := by
      rw [(compactIndex_crash hl hdisk).2, Tree.lookup_applyAll_absent _ _ _ hleft,
        AList.lookup_empty]
    have hnone : (reopen settings ch' fill disk).tree.lookup k = none := by
      by_contra hsome
      obtain ⟨loc', hloc'⟩ := Option.ne_none_iff_exists'.mp hsome
      cases hview.symm.trans ((reopen_lookup settings ch' fill disk k loc').mp hloc').1
    rw [toMap, hnone]
    rfl

/-- The keys of `Filling`, and `last`, whose value is alone in segment 2 and in the cache. -/
structure Apart (s : Shard) (keys : List Key) (last : Key) : Prop where
  latest : s.storageManager.latestSegmentId = 2
  limits : s.storageManager.WithinLimits
  tree : ∀ k loc, s.tree.lookup k = some loc → k = last ∨ (loc.segmentId = 1 ∧ loc.size = 1)
  all : ∀ k ∈ keys, ∃ loc, s.tree.lookup k = some loc
  alone : s.tree.lookup last = some ⟨0, 2, 1⟩
  cached : ∃ ce, s.cache.find last = some ce ∧ ce.value = oneByte

lemma Filling.append_next (h : Filling s keys) (hw : s.storageManager.Wf)
    (hz : s.settings.SegSize = 2) (hne : 2 ≤ keys.length) (hlen : keys.length < 2 ^ 63) :
    ∃ sm u, onStorage (StorageManager.append s.settings.SegSize oneByte) s =
        ⟨⟨[], 0, 2, 1, false⟩, { s with storageManager := u },
          [{ s with storageManager := sm }, { s with storageManager := u }]⟩ ∧
      sm.WithinLimits ∧ u.WithinLimits ∧ u.latestSegmentId = 2 := by
  obtain ⟨seg, hs, hcontent⟩ := h.segment
  have hlatest := h.latest
  have hlim := h.storage_limits hlen
  have hfull : s.settings.SegSize ≤ seg.file.content.length := by
    rw [hz, hcontent]
    exact hne
  obtain ⟨sm, u, hrun, hopened, happended, hsame⟩ :=
    StorageManager.append_next hw (hlatest ▸ hs) hfull
    (by rw [hlatest]; decide) (by rw [hz]; decide)
    (show oneByte.length ≤ s.settings.SegSize by rw [hz]; decide)
  have htwo : s.storageManager.segments.lookup 2 = none := by
    by_contra hsome
    obtain ⟨seg', hs'⟩ := Option.ne_none_iff_exists'.mp hsome
    exact absurd (h.only 2 seg' hs') (by decide)
  obtain ⟨seg', hseg', -, -, -, hlookup⟩ := happended.segment
  have hfresh : seg' = .fresh 2 := by
    rw [hlatest] at hseg'
    rcases hseg' with hseg' | ⟨-, rfl⟩
    · cases htwo.symm.trans hseg'
    · rfl
  rw [hlatest] at hrun hlookup hsame
  refine ⟨sm, u, ?_, ⟨?_, fun id seg'' hid => ?_⟩, ⟨?_, fun id seg'' hid => ?_⟩, hsame⟩
  · rw [onStorage, Traced.zoom, hrun]
    rfl
  · rw [hopened.latest, hlatest]
    decide
  · rw [hopened.lookup] at hid
    split_ifs at hid
    · obtain rfl := Option.some.inj hid
      exact Nat.two_pow_pos 63
    · exact hlim.length id seg'' hid
  · rw [hsame]
    decide
  · rw [hlookup, hfresh] at hid
    split_ifs at hid
    · obtain rfl := Option.some.inj hid
      change 1 < 2 ^ 63
      decide
    · exact hlim.length id seg'' hid

lemma Filling.next (h : Filling s keys) (hw : s.storageManager.Wf) (hz : s.settings.SegSize = 2)
    (hne : 2 ≤ keys.length)
    (hlen : keys.length < 2 ^ 63) (hcap : s.cache.capacity ≠ 0) (last : Key) :
    Traced.Within Bounded (Shard.set last oneByte) s ∧
      (Shard.set last oneByte s).final.settings = s.settings ∧
      Apart (Shard.set last oneByte s).final keys last := by
  obtain ⟨sm, u, ha, hlim, hlim', hlatest⟩ := h.append_next hw hz hne hlen
  have hput : Shard.set last oneByte s = _ :=
    set_put ha (show (2 : ℕ) ≠ INVALID_SEGMENT_ID by decide)
  have hsize : s.settings.SegSize < 2 ^ 64 := by
    rw [hz]
    decide
  have htree :
      ∀ k, (putIndex ⟨last, 0, 2, 1, false⟩ oneByte { s with storageManager := u }).tree.lookup k =
      if k = last then some ⟨0, 2, 1⟩ else s.tree.lookup k := fun k => insert_lookup s _ k
  rw [hput]
  refine ⟨fun v hv => ?_, rfl, hlatest, hlim', fun k loc hk => ?_, fun k hk => ?_, ?_,
    ⟨_, LRUCache.put_find_self hcap _ _, rfl⟩⟩
  · rw [hput] at hv
    simp only [List.cons_append, List.nil_append, List.mem_cons, List.not_mem_nil, or_false] at hv
    rcases hv with rfl | rfl | rfl | rfl
    · exact ⟨h.storage_limits hlen, hsize⟩
    · exact ⟨hlim, hsize⟩
    · exact ⟨hlim', hsize⟩
    · exact ⟨hlim', hsize⟩
  · rw [htree] at hk
    split_ifs at hk with hlast
    · exact Or.inl hlast
    · exact Or.inr (h.tree k loc hk)
  · rw [htree]
    split_ifs
    · exact ⟨_, rfl⟩
    · exact h.all k hk
  · exact (htree last).trans (if_pos rfl)

def lastly (last : Key) : Choice :=
  { Choice.plain with
    walkKeys := fun l => l.filter (fun k => k ≠ last) ++ l.filter (fun k => ¬ k ≠ last)
    walkKeys_perm := fun l => by
      simpa using List.filter_append_perm (fun k => decide (k ≠ last)) l }

lemma last_left_out {last : Key} (hn : keys.Nodup) (hlen : UINT_MAX ≤ keys.length)
    (hnot : last ∉ keys) (hall : ∀ k ∈ keys, ∃ loc, s.tree.lookup k = some loc) :
    ∀ e ∈ s.indexManager.getAll (lastly last), e.key ≠ last := by
  intro e he
  have hfront : UINT_MAX ≤ (s.indexManager.memoryTree.keys.filter fun k => k ≠ last).length := by
    refine hlen.trans (hn.subperm fun k hk => ?_).length_le
    refine List.mem_filter.mpr ⟨AList.mem_iff_lookup.mpr (hall k hk), ?_⟩
    simpa using fun heq : k = last => hnot (heq ▸ hk)
  have hmem : e.key ∈ (s.indexManager.getAll (lastly last)).map IndexEntry.key :=
    List.mem_map_of_mem he
  rw [IndexManager.getAll, List.map_take, IndexManager.walk_keys] at hmem
  change e.key ∈ (_ ++ _ : List Key).take UINT_MAX at hmem
  rw [List.take_append_of_le_length hfront] at hmem
  simpa using (List.mem_filter.mp (List.mem_of_mem_take hmem)).2

lemma liveBytes_ones {entries : List IndexEntry} (h : ∀ e ∈ entries, e.segmentId = 1 ∧ e.size = 1) :
    liveBytes entries 1 = entries.length % 2 ^ 64 := by
  have hall : (entries.filter fun entry => entry.segmentId = 1) = entries :=
    List.filter_eq_self.mpr fun e he => by simpa using (h e he).1
  have hsizes : entries.map IndexEntry.size = List.replicate entries.length 1 :=
    List.eq_replicate_iff.mpr ⟨List.length_map _, fun b hb => by
      obtain ⟨e, he, rfl⟩ := List.mem_map.mp hb
      exact (h e he).2⟩
  rw [liveBytes, hall, hsizes, List.sum_replicate_nat, mul_one]

lemma Apart.pass {last : Key} (h : Apart s keys last) (hz : s.settings.SegSize = 2)
    (hn : keys.Nodup) (hlen : UINT_MAX ≤ keys.length) (hnot : last ∉ keys) :
    Traced.Within Bounded (compactorPass (lastly last)) s ∧
      (compactorPass (lastly last) s).final.cache = s.cache ∧
      (compactorPass (lastly last) s).final.tree.lookup last = some ⟨0, 2, 1⟩ ∧
      (compactorPass (lastly last) s).final.storageManager.segments.lookup 2 = none := by
  obtain ⟨entries, hentries⟩ : ∃ entries, s.indexManager.getAll (lastly last) = entries := ⟨_, rfl⟩
  have hone : ∀ e ∈ entries, e.segmentId = 1 ∧ e.size = 1 := by
    intro e he
    rw [← hentries] at he
    obtain ⟨loc, hl, hee⟩ := IndexManager.mem_of_mem_getAll he
    have hloc := (h.tree e.key loc hl).resolve_left (last_left_out hn hlen hnot h.all e he)
    rw [hee]
    exact hloc
  have hcount : entries.length = UINT_MAX := by
    have hkeys := IndexManager.keys_le hn h.all
    rw [← hentries, IndexManager.getAll, List.length_take, IndexManager.walk_length]
    exact min_eq_left (hlen.trans hkeys)
  have hstays : ∀ e ∈ entries, stays s.settings.SegSize s.storageManager.latestSegmentId entries e =
      true := by
    intro e he
    rw [stays, (hone e he).1, liveBytes_ones hone, hcount, hz]
    exact (Bool.or_eq_true _ _).mpr (.inr (by decide))
  have hunused : ∀ id ∈ entries.map IndexEntry.segmentId, id ≠ 2 := by
    intro id hid
    obtain ⟨e, he, rfl⟩ := List.mem_map.mp hid
    rw [(hone e he).1]
    decide
  obtain ⟨hlookup, -, -⟩ := StorageManager.removeUnusedSegments_removing (lastly last)
    (entries.map IndexEntry.segmentId) s.storageManager
  have hbounded : Bounded s := ⟨h.limits, by rw [hz]; decide⟩
  refine ⟨compactorPass_stays_bounded hbounded hentries hstays, ?_⟩
  rw [compactorPass_stays hentries hstays]
  refine ⟨rfl, h.alone, ?_⟩
  rw [hlookup, if_neg fun hid => hunused 2 hid rfl]

end Zest.Shard
