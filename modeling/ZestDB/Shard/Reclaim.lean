import Mathlib.Algebra.Order.BigOperators.Group.List
import ZestDB.Shard.CompactionCrash

/-! What a pass of the compactor leaves on the disk: a segment that was there before stays only for
live values that fill half of it. -/

namespace Zest

open Foundations

namespace StorageManager

variable {sm : StorageManager} {segSize id : ℕ} {value : Value}

variable (segSize value) in
lemma appendToSegment_id (hs : ∀ seg, sm.segments.lookup id = some seg → seg.segmentId = id) :
    (appendToSegment segSize id value sm).val.segmentId = id ∨
      (appendToSegment segSize id value sm).val.segmentId = INVALID_SEGMENT_ID := by
  rw [appendToSegment, Traced.get_bind]
  cases hl : sm.segments.lookup id with
  | none => exact Or.inr rfl
  | some seg =>
    simp only [Traced.bind_val, Traced.step_run, Traced.pure_run]
    split_ifs
    · exact Or.inr rfl
    · exact Or.inl (hs seg hl)

lemma appendToSegment_latest :
    (appendToSegment segSize id value sm).final.latestSegmentId = sm.latestSegmentId := by
  rw [appendToSegment, Traced.get_bind]
  cases sm.segments.lookup id <;> rfl

variable (sm id) in
lemma newSegment_id : ∀ seg, (newSegment id sm).final.segments.lookup id = some seg →
    seg.segmentId = id := by
  intro seg hs
  simp only [newSegment, Traced.step_run, AList.lookup_insert, Option.some.injEq] at hs
  rw [← hs]
  rfl

variable (segSize) in
lemma currentSegment_id (hw : sm.Wf) (hl : sm.latestSegmentId < 2 ^ 32 - 2) :
    sm.latestSegmentId ≤ (currentSegment segSize sm).val ∧
      (currentSegment segSize sm).val ≤ sm.latestSegmentId + 1 ∧
      (currentSegment segSize sm).final.latestSegmentId = (currentSegment segSize sm).val ∧
      ∀ seg, (currentSegment segSize sm).final.segments.lookup (currentSegment segSize sm).val =
        some seg → seg.segmentId = (currentSegment segSize sm).val := by
  have hn : nextId sm.latestSegmentId = sm.latestSegmentId + 1 := Nat.mod_eq_of_lt (by omega)
  by_cases hu : sm.usable segSize sm.latestSegmentId = true
  · have hrun : currentSegment segSize sm = ⟨sm.latestSegmentId, sm, []⟩ :=
      Traced.bind_eq (Traced.get_run sm) (by rw [if_pos hu]; rfl)
    rw [hrun]
    exact ⟨le_rfl, by simp, rfl, fun seg hs => (hw _ seg hs).id_eq⟩
  · have hrun : currentSegment segSize sm =
        ⟨sm.latestSegmentId + 1, (newSegment (sm.latestSegmentId + 1) sm).final, _⟩ :=
      Traced.bind_eq (Traced.get_run sm) (by rw [if_neg hu, hn]; rfl)
    rw [hrun]
    exact ⟨by simp, le_rfl, rfl, newSegment_id _ _⟩

lemma append_latest (hw : sm.Wf) (hl : sm.latestSegmentId < 2 ^ 32 - 2) :
    sm.latestSegmentId ≤ (append segSize value sm).val.segmentId := by
  obtain ⟨hge, hle, hlat, hid⟩ := currentSegment_id segSize hw hl
  have hinv : sm.latestSegmentId ≤ INVALID_SEGMENT_ID := by
    unfold INVALID_SEGMENT_ID
    omega
  obtain ⟨t, ht⟩ : ∃ t, t = (appendToSegment segSize (currentSegment segSize sm).val value
      (currentSegment segSize sm).final).final := ⟨_, rfl⟩
  have htl : t.latestSegmentId = (currentSegment segSize sm).val := by
    rw [ht, appendToSegment_latest, hlat]
  have hn : nextId t.latestSegmentId = t.latestSegmentId + 1 := Nat.mod_eq_of_lt (by omega)
  simp only [append, Traced.bind_val, Traced.ite_run]
  split_ifs with hfull
  · rw [Traced.get_bind, ← ht, Traced.bind_val]
    rcases appendToSegment_id segSize value (newSegment_id t (nextId t.latestSegmentId)) with h | h
    · rw [h]
      omega
    · rw [h]
      exact hinv
  · rcases appendToSegment_id segSize value hid with h | h
    · rw [Traced.pure_run, h]
      exact hge
    · exact absurd h hfull

lemma Appending.latest {t : StorageManager} (h : Appending sm value t) :
    sm.latestSegmentId ≤ t.latestSegmentId :=
  h.elim (fun h => Opened.latest h) (fun ⟨_, h⟩ => Appended.latest h)

lemma Growing.latest {t : StorageManager} (h : Growing value sm t) :
    sm.latestSegmentId ≤ t.latestSegmentId := by
  induction h with
  | refl => exact le_rfl
  | tail _ ha ih => exact ih.trans ha.latest

end StorageManager

namespace Shard

variable {s t : Shard} {ch : Choice} {entry e : IndexEntry} {entries : List IndexEntry}
  {stay : IndexEntry → Bool}

lemma Grown.latest {v : Value} (h : Grown s v t) :
    s.storageManager.latestSegmentId ≤ t.storageManager.latestSegmentId := by
  obtain ⟨sm, hg, rfl⟩ := h.storage
  exact StorageManager.Growing.latest hg

/-- The relocation loop leaves alone what stays, and moves the rest to the latest segment or past
it. -/
structure Spread (stay : IndexEntry → Bool) (s : Shard) (entries : List IndexEntry) (t : Shard) :
    Prop where
  stayed : ∀ e ∈ entries, stay e = true → t.tree.lookup e.key = s.tree.lookup e.key
  moved : ∀ e ∈ entries, stay e = false →
    ∃ loc, t.tree.lookup e.key = some loc ∧ s.storageManager.latestSegmentId ≤ loc.segmentId

theorem relocate_spread (h : s.Inv) (hl : s.Listed entries)
    (hw : Traced.Within WithinLimits (relocate stay entries) s)
    (hsize : ∀ e ∈ entries, e.size ≤ s.settings.SegSize) :
    Spread stay s entries (relocate stay entries s).final := by
  induction entries generalizing s with
  | nil => exact ⟨by simp, by simp⟩
  | cons entry entries ih =>
    have hn := (List.nodup_cons.mp hl.nodup).1
    obtain ⟨loc, hk, hentry⟩ := hl.lookup entry (by simp)
    have hread : s.storageManager.read entry = s.files.slice loc := by
      rw [hentry]
      exact h.read_eq hk
    have hv : ValueOk (s.storageManager.read entry) := by
      rw [hread]
      refine ⟨h.slice_ne_nil hk, ?_⟩
      rw [(h.entry _ _ hk).inBounds.slice_length]
      exact (h.entry _ _ hk).location.size
    by_cases hs : stay entry = true
    · have hstay : (stay entry || s.storageManager.read entry = []) = true := by simp [hs]
      have hrun := relocate_stay hstay (Eq.refl (relocate stay entries s))
      have hw' : Traced.Within WithinLimits (relocate stay entries) s :=
        relocate_stay_within hstay hw
      have hrel := relocate_spec h hl.tail (hw'.mono fun _ hx => hx.bounded)
      have hih := ih h hl.tail hw' fun e he => hsize e (by simp [he])
      rw [hrun]
      refine ⟨fun e he hst => ?_, fun e he hst => ?_⟩
      · rcases List.mem_cons.mp he with rfl | he
        · exact hrel.frame _ hn
        · exact hih.stayed e he hst
      · rcases List.mem_cons.mp he with rfl | he
        · rw [hs] at hst
          cases hst
        · exact hih.moved e he hst
    · have hcond : ¬ (stay entry || s.storageManager.read entry = []) = true := by
        simp [hs, hv.ne_nil]
      obtain ⟨e, t, ts, ha, hmem, hts, hcase⟩ := append_cases h.storage hw.start hv
      have hfits : (s.storageManager.read entry).length ≤ s.settings.SegSize := by
        rw [hread, (h.entry _ _ hk).inBounds.slice_length]
        have := hsize entry (by simp)
        rwa [hentry] at this
      have hdes : e.segmentId ≠ INVALID_SEGMENT_ID ∧
          ∀ k, t.Designates { e with key := k } (s.storageManager.read entry) := by
        rcases hcase with ⟨-, hne, hd⟩ | ⟨hlt, -⟩
        · exact ⟨hne, hd⟩
        · exact absurd hfits (not_le.mpr hlt)
      obtain ⟨u, hu⟩ : ∃ u, u =
          { t with indexManager := t.indexManager.insert { e with key := entry.key } } := ⟨_, rfl⟩
      have hrun := relocate_moved hcond ha hdes.1 hu (Eq.refl (relocate stay entries u))
      obtain ⟨-, hui, hlook⟩ := (hts t hmem).relocate h hk (hread ▸ hdes.2 entry.key) hu
      have hset : u.settings = s.settings := by
        rw [hu]
        exact (hts t hmem).settings_eq
      have hidle : s.storageManager.latestSegmentId ≤ e.segmentId := by
        have hval :
            e = (StorageManager.append s.settings.SegSize
              (s.storageManager.read entry) s.storageManager).val :=
          (congrArg Outcome.val ha).symm
        rw [hval]
        exact StorageManager.append_latest h.storage hw.start.storage.latest
      have hlatest : s.storageManager.latestSegmentId ≤ u.storageManager.latestSegmentId := by
        rw [hu]
        exact (hts t hmem).latest
      have hlu : u.Listed entries := hl.tail.of_tree fun k hk' => by
        have hke : k ≠ entry.key := fun hke => hn (hke ▸ hk')
        rw [hlook, if_neg hke]
      have hw' : Traced.Within WithinLimits (relocate stay entries) u :=
        relocate_moved_within hcond ha hdes.1 hu hw
      have hrel := relocate_spec hui hlu (hw'.mono fun _ hx => hx.bounded)
      have hih := ih hui hlu hw' fun e he => hset ▸ hsize e (by simp [he])
      rw [hrun]
      refine ⟨fun f hf hst => ?_, fun f hf hst => ?_⟩
      · rcases List.mem_cons.mp hf with rfl | hf
        · exact absurd hst hs
        · have hne : f.key ≠ entry.key := fun hke => hn (hke ▸ List.mem_map_of_mem hf)
          rw [hih.stayed f hf hst, hlook, if_neg hne]
      · rcases List.mem_cons.mp hf with rfl | hf
        · refine ⟨e.location, ?_, hidle⟩
          rw [hrel.frame _ hn, hlook, if_pos rfl]
        · obtain ⟨loc', hloc, hle⟩ := hih.moved f hf hst
          exact ⟨loc', hloc, hlatest.trans hle⟩

/-- The bytes of the live values of segment `id`. -/
def liveSize (s : Shard) (id : ℕ) : ℕ :=
  (((s.indexManager.walk .plain).filter fun e => e.segmentId = id).map IndexEntry.size).sum

lemma liveBytes_le {id : ℕ} (hn : (entries.map IndexEntry.key).Nodup)
    (hsub : ∀ e ∈ entries, e.segmentId = id → ∃ loc, s.tree.lookup e.key = some loc ∧
      e = toEntry e.key loc) :
    liveBytes entries id ≤ s.liveSize id := by
  have hnodup : (entries.filter fun e => e.segmentId = id).Nodup := hn.of_map.filter _
  have hmem : (entries.filter fun e => e.segmentId = id) ⊆
      (s.indexManager.walk .plain).filter fun e => e.segmentId = id := by
    intro e he
    obtain ⟨he, hid⟩ := List.mem_filter.mp he
    exact List.mem_filter.mpr ⟨IndexManager.mem_walk.mpr (hsub e he (of_decide_eq_true hid)), hid⟩
  obtain ⟨l, hperm, hl⟩ := hnodup.subperm hmem
  calc liveBytes entries id
    _ ≤ ((entries.filter fun e => e.segmentId = id).map IndexEntry.size).sum := Nat.mod_le _ _
    _ = (l.map IndexEntry.size).sum := (hperm.map _).sum_eq.symm
    _ ≤ s.liveSize id := (hl.map _).sum_le_sum fun _ _ => Nat.zero_le _

lemma compactSegments_left {id : ℕ} {seg : DataSegment}
    (hs : (compactSegments ch entries s).final.storageManager.segments.lookup id = some seg) :
    id ∈ (relocate (stays s.settings.SegSize s.storageManager.latestSegmentId entries) entries
      s).val.1.map
      IndexEntry.segmentId := by
  rw [compactSegments, Traced.get_bind, Traced.bind_final, Traced.bind_final] at hs
  generalize relocate _ entries s = o at hs ⊢
  have hl := (StorageManager.removeUnusedSegments_removing ch (o.val.1.map IndexEntry.segmentId)
    (flushMoved ch o.val.2 o.final).final.storageManager).1 id
  by_contra hn
  rw [if_neg hn] at hl
  cases hl.symm.trans hs

lemma compactSegments_tree (ch : Choice) (entries : List IndexEntry) (s : Shard) :
    (compactSegments ch entries s).final.tree =
      (relocate (stays s.settings.SegSize s.storageManager.latestSegmentId entries) entries
        s).final.tree := by
  rw [compactSegments, Traced.get_bind]
  exact flushMoved_tree _

lemma stays_congr {segSize current : ℕ} (he : e.segmentId = entry.segmentId) :
    stays segSize current entries e = stays segSize current entries entry := by
  simp only [stays, he]

/-- A segment that is left holds a live value. One before the latest was half full of the values
that were listed, and these are where they were. -/
theorem compactSegments_reclaims (h : s.Inv) (hl : s.Listed entries)
    (hw : Traced.Within WithinLimits (compactSegments ch entries) s)
    (hsize : ∀ e ∈ entries, e.size ≤ s.settings.SegSize) {id : ℕ}
    (hid : id ∈ (compactSegments ch entries s).final.storageManager.segments) :
    (∃ k loc, (compactSegments ch entries s).final.tree.lookup k = some loc ∧ loc.segmentId = id) ∧
      (id < s.storageManager.latestSegmentId →
        s.settings.SegSize ≤ liveBytes entries id * 2 ∧
          ∀ e ∈ entries, e.segmentId = id →
            (compactSegments ch entries s).final.tree.lookup e.key = s.tree.lookup e.key) := by
  have hwr : Traced.Within WithinLimits
      (relocate (stays s.settings.SegSize s.storageManager.latestSegmentId entries) entries) s :=
    (hw.bind_right .get).bind_left
  have hrel := relocate_spec h hl (hwr.mono fun _ hx => hx.bounded)
  have hspread := relocate_spread h hl hwr hsize
  obtain ⟨seg, hseg⟩ := AList.mem_iff_lookup.mp hid
  have hused := compactSegments_left hseg
  rw [compactSegments_tree]
  generalize hstay : stays s.settings.SegSize s.storageManager.latestSegmentId entries = stay at *
  generalize relocate stay entries s = o at *
  obtain ⟨e, he, rfl⟩ := List.mem_map.mp hused
  obtain ⟨loc, hk, hee⟩ := hrel.listed.lookup e he
  have hid' : loc.segmentId = e.segmentId := by rw [hee, toEntry]
  refine ⟨⟨e.key, loc, hk, hid'⟩, fun hlt => ?_⟩
  obtain ⟨f, hf, hkey⟩ := List.mem_map.mp (hrel.keys ▸ List.mem_map_of_mem he)
  rw [← hkey] at hk
  -- the entry before the loop: one that is moved would be past the latest segment
  have hstays : stay f = true := by
    cases hst : stay f with
    | true => rfl
    | false =>
      obtain ⟨loc', hk', hle⟩ := hspread.moved f hf hst
      obtain rfl := Option.some.inj (hk.symm.trans hk')
      omega
  obtain ⟨loc', hk', hff⟩ := hl.lookup f hf
  obtain rfl := Option.some.inj (hk'.symm.trans ((hspread.stayed f hf hstays).symm.trans hk))
  have hfe : f.segmentId = e.segmentId := by
    rw [hff]
    exact hid'
  refine ⟨?_, fun g hg hge => hspread.stayed g hg ?_⟩
  · simp only [← hstay, stays, hfe, hlt.ne, Bool.or_eq_true, decide_eq_true_eq, false_or] at hstays
    exact hstays.trans (Nat.mod_le _ _)
  · rw [← hstay, stays_congr (hge.trans hfe.symm), hstay]
    exact hstays

/-- After a pass of the compactor every segment holds a live value, and one that was there before
and was not the latest is at least half full of them. -/
theorem compactorPass_reclaims (h : s.Inv) (hw : Traced.Within WithinLimits (compactorPass ch) s)
    (hsize : ∀ k loc, s.tree.lookup k = some loc → loc.size ≤ s.settings.SegSize) :
    ∀ id ∈ (compactorPass ch s).final.storageManager.segments,
      (∃ k loc, (compactorPass ch s).final.tree.lookup k = some loc ∧ loc.segmentId = id) ∧
        (id ∈ s.storageManager.segments → id ≠ s.storageManager.latestSegmentId →
          s.settings.SegSize ≤ 2 * (compactorPass ch s).final.liveSize id) := by
  obtain ⟨c, hc⟩ : ∃ c, c = ({ s with indexManager := s.indexManager.compact ch } : Shard) :=
    ⟨_, rfl⟩
  have hfinal : (compactorPass ch s).final =
      (compactSegments ch (s.indexManager.getAll ch) c).final := by
    rw [hc]
    rfl
  have ht : (s.indexManager.compact ch).memoryTree = s.indexManager.memoryTree := rfl
  have hi : c.Inv := hc ▸ (h.of_tree ht).1
  have htree : c.tree = s.tree := by rw [hc]; rfl
  have hset : c.settings = s.settings ∧ c.storageManager = s.storageManager := by
    rw [hc]; exact ⟨rfl, rfl⟩
  have hwc : Traced.Within WithinLimits (compactSegments ch (s.indexManager.getAll ch)) c := by
    have hx : Traced.Tracked (compactIndex ch) :=
      .bind .get fun _ => .bind (.step _) fun _ => .pure _
    rw [hc]
    exact hw.bind_right hx
  intro id hid
  rw [hfinal] at hid ⊢
  have hlisted : c.Listed (s.indexManager.getAll ch) := (listed_getAll s ch).of_tree fun _ _ => by
    rw [htree]
  obtain ⟨hlive, hhalf⟩ := compactSegments_reclaims hi hlisted hwc
    (fun e he => by
      obtain ⟨loc, hk, hee⟩ := IndexManager.mem_of_mem_getAll he
      rw [hee, hset.1]
      exact hsize _ loc hk) hid
  refine ⟨hlive, fun hbefore hne => ?_⟩
  obtain ⟨seg, hseg⟩ := AList.mem_iff_lookup.mp hbefore
  have hlt : id < s.storageManager.latestSegmentId :=
    lt_of_le_of_ne (h.storage id seg hseg).id_le hne
  rw [hset.1, hset.2] at hhalf
  obtain ⟨hle, hsame⟩ := hhalf hlt
  have hbytes : liveBytes (s.indexManager.getAll ch) id ≤
      (compactSegments ch (s.indexManager.getAll ch) c).final.liveSize id := by
    refine liveBytes_le hlisted.nodup fun e he hid => ?_
    obtain ⟨loc, hk, hee⟩ := hlisted.lookup e he
    exact ⟨loc, (hsame e he hid).trans hk, hee⟩
  omega

lemma sparseShard_sizes : ∀ k loc, sparseShard.tree.lookup k = some loc →
    loc.size ≤ sparseShard.settings.SegSize := by
  have hall : ∀ e ∈ sparseShard.indexManager.walk .plain, e.size ≤
      sparseShard.settings.SegSize := by decide +kernel
  intro k loc hk
  exact hall (toEntry k loc) (IndexManager.mem_walk.mpr ⟨loc, hk, rfl⟩)

theorem sparseShard_reclaims :
    sparseShard.Inv ∧ Traced.Within WithinLimits (compactorPass .plain) sparseShard ∧
      (∀ k loc, sparseShard.tree.lookup k = some loc → loc.size ≤ sparseShard.settings.SegSize) ∧
      ∀ id ∈ (compactorPass .plain sparseShard).final.storageManager.segments,
        (∃ k loc, (compactorPass .plain sparseShard).final.tree.lookup k = some loc ∧
          loc.segmentId = id) ∧ (id ∈ sparseShard.storageManager.segments →
            id ≠ sparseShard.storageManager.latestSegmentId → sparseShard.settings.SegSize ≤
              2 * (compactorPass .plain sparseShard).final.liveSize id) :=
  ⟨sparseShard_ok.1, sparseShard_within, sparseShard_sizes,
    compactorPass_reclaims sparseShard_ok.1 sparseShard_within sparseShard_sizes⟩

end Shard

end Zest
