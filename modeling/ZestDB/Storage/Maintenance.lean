import ZestDB.Storage.Append

/-! Flushing the segments and removing the unused ones, with every state in between. -/

namespace Zest

open Foundations

namespace DataSegment

variable {seg : DataSegment}

@[simp] lemma flush_content (seg : DataSegment) : seg.flush.file.content = seg.file.content := by
  simp only [flush]
  split_ifs <;> simp

@[simp] lemma flush_flush (seg : DataSegment) : seg.flush.flush = seg.flush := by
  cases hc : seg.canFlush <;> simp [flush, hc]

@[simp] lemma flush_segmentId (seg : DataSegment) : seg.flush.segmentId = seg.segmentId := by
  simp only [flush]
  split_ifs <;> rfl

@[simp] lemma flush_currentOffset (seg : DataSegment) :
    seg.flush.currentOffset = seg.currentOffset := by
  simp only [flush]
  split_ifs <;> rfl

lemma flush_pending (h : seg.canFlush = false → seg.file.pending = []) :
    seg.flush.file.pending = [] := by
  simp only [flush]
  split_ifs with hc
  · rfl
  · exact h (by simpa using hc)

end DataSegment

namespace StorageManager

variable {sm t : StorageManager} {ch : Choice}

structure Flushing (sm t : StorageManager) : Prop where
  latest : t.latestSegmentId = sm.latestSegmentId
  lookup : ∀ id, t.segments.lookup id = sm.segments.lookup id ∨
    t.segments.lookup id = (sm.segments.lookup id).map DataSegment.flush

structure Flushed (sm t : StorageManager) : Prop where
  latest : t.latestSegmentId = sm.latestSegmentId
  lookup : ∀ id, t.segments.lookup id = (sm.segments.lookup id).map DataSegment.flush

/-- `t` is `sm` without some segments that `used` does not name. -/
structure Removing (used : List ℕ) (sm t : StorageManager) : Prop where
  latest : t.latestSegmentId = sm.latestSegmentId
  lookup : ∀ id, t.segments.lookup id = sm.segments.lookup id ∨
    (id ∉ used ∧ t.segments.lookup id = none)

lemma Flushed.flushing (h : Flushed sm t) : Flushing sm t :=
  ⟨h.latest, fun id => Or.inr (h.lookup id)⟩

lemma Flushing.files_eq (h : Flushing sm t) : t.files = sm.files := by
  funext id
  simp only [files]
  rcases h.lookup id with hl | hl <;> rw [hl]
  cases sm.segments.lookup id <;> simp

lemma Flushing.wf (h : Flushing sm t) (hw : sm.Wf) : t.Wf := by
  intro id seg hs
  rcases h.lookup id with hl | hl
  · rw [h.latest]
    exact hw id seg (hl ▸ hs)
  · rw [hl, Option.map_eq_some_iff] at hs
    obtain ⟨seg', hs', rfl⟩ := hs
    have hok := hw id seg' hs'
    exact ⟨by simp [hok.id_eq], by rw [h.latest]; exact hok.id_le, by simp [hok.offset],
      fun _ => DataSegment.flush_pending hok.clean⟩

lemma Flushed.pending (h : Flushed sm t) (hw : sm.Wf) {id : ℕ} {seg : DataSegment}
    (hs : t.segments.lookup id = some seg) : seg.file.pending = [] := by
  rw [h.lookup, Option.map_eq_some_iff] at hs
  obtain ⟨seg', hs', rfl⟩ := hs
  exact DataSegment.flush_pending (hw id seg' hs').clean

lemma flushSegment_lookup (sm : StorageManager) (i id : ℕ) :
    (flushSegment i sm).segments.lookup id =
      if id = i then (sm.segments.lookup id).map DataSegment.flush else sm.segments.lookup id := by
  simp only [flushSegment]
  cases h : sm.segments.lookup i with
  | some seg =>
    simp only [AList.lookup_insert_ite]
    split_ifs with hid
    · rw [hid, h]
      rfl
    · rfl
  | none =>
    split_ifs with hid
    · subst hid
      simp [h]
    · rfl

lemma flushSegment_latest (sm : StorageManager) (i : ℕ) :
    (flushSegment i sm).latestSegmentId = sm.latestSegmentId := by
  simp only [flushSegment]
  cases sm.segments.lookup i <;> rfl

lemma foldl_flushSegment (ids : List ℕ) (sm : StorageManager) :
    (ids.foldl (fun s i => flushSegment i s) sm).latestSegmentId = sm.latestSegmentId ∧
      ∀ id, (ids.foldl (fun s i => flushSegment i s) sm).segments.lookup id =
        if id ∈ ids then (sm.segments.lookup id).map DataSegment.flush else sm.segments.lookup
          id := by
  induction ids generalizing sm with
  | nil => simp
  | cons i ids ih =>
    obtain ⟨hl, hk⟩ := ih (flushSegment i sm)
    refine ⟨hl.trans (flushSegment_latest sm i), fun id => ?_⟩
    rw [List.foldl_cons, hk, flushSegment_lookup]
    by_cases hi : id = i
    · subst hi
      cases sm.segments.lookup id <;> simp
    · simp [hi]

theorem flush_flushed (ch : Choice) (sm : StorageManager) :
    Flushed sm (flush ch sm).final ∧ ∀ t ∈ (flush ch sm).visited, Flushing sm t := by
  rw [flush, Traced.get_bind]
  constructor
  · obtain ⟨hl, hk⟩ := foldl_flushSegment (ch.walkIds sm.segments.keys) sm
    rw [Traced.forEach_step_final]
    refine ⟨hl, fun id => ?_⟩
    rw [hk]
    split_ifs with h
    · rfl
    · rw [(ch.walkIds_perm _).mem_iff, AList.mem_iff_lookup] at h
      have hn : sm.segments.lookup id = none := by
        cases hs : sm.segments.lookup id with
        | none => rfl
        | some seg => exact absurd ⟨seg, hs⟩ h
      simp [hn]
  · intro t ht
    obtain ⟨m, rfl⟩ := Traced.forEach_step_visited _ _ _ t ht
    obtain ⟨hl, hk⟩ := foldl_flushSegment ((ch.walkIds sm.segments.keys).take m) sm
    refine ⟨hl, fun id => ?_⟩
    rw [hk]
    split_ifs
    · exact Or.inr rfl
    · exact Or.inl rfl

lemma foldl_erase (ids : List ℕ) (sm : StorageManager) :
    (ids.foldl (fun s i => { s with segments := s.segments.erase i }) sm).latestSegmentId =
      sm.latestSegmentId ∧
      ∀ id, (ids.foldl (fun s i => { s with segments := s.segments.erase i }) sm).segments.lookup
        id =
        if id ∈ ids then none else sm.segments.lookup id := by
  induction ids generalizing sm with
  | nil => simp
  | cons i ids ih =>
    obtain ⟨hl, hk⟩ := ih { sm with segments := sm.segments.erase i }
    refine ⟨hl, fun id => ?_⟩
    rw [List.foldl_cons, hk]
    simp only [AList.lookup_erase_ite, List.mem_cons]
    by_cases hi : id = i
    · simp [hi]
    · simp [hi]

theorem removeUnusedSegments_removing (ch : Choice) (used : List ℕ) (sm : StorageManager) :
    (∀ id, (removeUnusedSegments ch used sm).final.segments.lookup id =
      if id ∈ used then sm.segments.lookup id else none) ∧
    Removing used sm (removeUnusedSegments ch used sm).final ∧
      ∀ t ∈ (removeUnusedSegments ch used sm).visited, Removing used sm t := by
  rw [removeUnusedSegments, Traced.get_bind]
  have hids : ∀ id, id ∈ (ch.walkIds sm.segments.keys).filter (fun id => id ∉ used) ↔
      id ∈ sm.segments.keys ∧ id ∉ used := fun id => by simp [(ch.walkIds_perm _).mem_iff]
  generalize (ch.walkIds sm.segments.keys).filter (fun id => id ∉ used) = ids at hids ⊢
  obtain ⟨hl, hk⟩ := foldl_erase ids sm
  rw [Traced.forEach_step_final]
  refine ⟨fun id => ?_, ⟨hl, fun id => ?_⟩, fun t ht => ?_⟩
  · rw [hk]
    cases hs : sm.segments.lookup id with
    | none => simp
    | some seg =>
      have hm : id ∈ sm.segments.keys := AList.mem_iff_lookup.mpr ⟨seg, hs⟩
      by_cases hu : id ∈ used <;> simp [hids, hm, hu]
  · rw [hk]
    split_ifs with hi
    · exact Or.inr ⟨((hids id).mp hi).2, rfl⟩
    · exact Or.inl rfl
  · obtain ⟨m, rfl⟩ := Traced.forEach_step_visited _ _ _ t ht
    obtain ⟨hl, hk⟩ := foldl_erase (ids.take m) sm
    refine ⟨hl, fun id => ?_⟩
    rw [hk]
    split_ifs with hi
    · exact Or.inr ⟨((hids id).mp (List.mem_of_mem_take hi)).2, rfl⟩
    · exact Or.inl rfl

lemma Removing.wf {used : List ℕ} (h : Removing used sm t) (hw : sm.Wf) : t.Wf := by
  intro id seg hs
  rcases h.lookup id with hl | ⟨_, hl⟩
  · rw [h.latest]
    exact hw id seg (hl ▸ hs)
  · rw [hl] at hs
    cases hs

lemma Removing.files_used {used : List ℕ} (h : Removing used sm t) {id : ℕ} (hu : id ∈ used) :
    t.files id = sm.files id := by
  simp only [files]
  rcases h.lookup id with hl | ⟨hn, _⟩
  · rw [hl]
  · exact absurd hu hn

end StorageManager

end Zest
