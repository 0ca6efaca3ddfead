import ZestDB.Storage.Files
import Mathlib.Logic.Relation

/-! What `StorageManager::append` does: a value that fits a segment is added to the end of exactly
one file, the latest or a new one; a longer value leaves at most empty new segments. -/

namespace Zest

open Foundations

namespace DataSegment

def wrote (value : Value) (seg : DataSegment) : DataSegment :=
  { seg with
    file := seg.file.append value
    canFlush := true
    currentOffset := (seg.currentOffset + value.length) % 2 ^ 64 }

def fresh (id : ℕ) : DataSegment := .openSegment id (.ofContent [])

lemma write_room {segSize : ℕ} {seg : DataSegment} {value : Value}
    (ho : seg.currentOffset = seg.file.content.length)
    (hs : seg.file.content.length + value.length ≤ segSize) (hz : segSize < 2 ^ 64 - 1) :
    seg.write segSize value = (seg.file.content.length, seg.wrote value) := by
  simp only [write]
  rw [ho, Nat.mod_eq_of_lt (by omega), if_neg (by omega), wrote, ho, Nat.mod_eq_of_lt (by omega)]

lemma write_full {segSize : ℕ} {seg : DataSegment} {value : Value}
    (ho : seg.currentOffset = seg.file.content.length)
    (hs : segSize < seg.file.content.length + value.length) (hc : seg.file.content.length < 2 ^ 63)
    (hv : value.length < 2 ^ 63) : seg.write segSize value = ((segSize + 1) % 2 ^ 64, seg) := by
  simp only [write]
  rw [ho, Nat.mod_eq_of_lt (by omega), if_pos (by omega)]

end DataSegment

namespace StorageManager

variable {sm t : StorageManager} {segSize id : ℕ} {value : Value} {seg : DataSegment}
  {e : IndexEntry}

structure Opened (sm t : StorageManager) : Prop where
  latest : sm.latestSegmentId ≤ t.latestSegmentId
  lookup : ∀ id, t.segments.lookup id = sm.segments.lookup id ∨
    (sm.segments.lookup id = none ∧ t.segments.lookup id = some (.fresh id) ∧
      id ≤ t.latestSegmentId)

/-- `t` is `sm` with `value` added to the end of the segment of `e`. -/
structure Appended (sm t : StorageManager) (value : Value) (e : IndexEntry) : Prop where
  latest : sm.latestSegmentId ≤ t.latestSegmentId
  segment : ∃ seg : DataSegment,
    (sm.segments.lookup e.segmentId = some seg ∨
      (sm.segments.lookup e.segmentId = none ∧ seg = .fresh e.segmentId)) ∧
    e = ⟨[], seg.file.content.length, e.segmentId, value.length % 2 ^ 32, false⟩ ∧
    seg.file.content.length + value.length < 2 ^ 64 ∧ e.segmentId ≤ t.latestSegmentId ∧
    ∀ id, t.segments.lookup id = if id = e.segmentId then
      some (seg.wrote value) else sm.segments.lookup id
  valid : e.segmentId < INVALID_SEGMENT_ID

lemma Opened.trans {u : StorageManager} (h : Opened sm t) (h' : Opened t u) : Opened sm u := by
  refine ⟨h.latest.trans h'.latest, fun id => ?_⟩
  rcases h'.lookup id with hu | ⟨ht, hu, hl⟩
  · rcases h.lookup id with hs | ⟨hs, ht, hl⟩
    · exact Or.inl (hu.trans hs)
    · exact Or.inr ⟨hs, hu.trans ht, hl.trans h'.latest⟩
  · rcases h.lookup id with hs | ⟨_, ht', _⟩
    · exact Or.inr ⟨hs ▸ ht, hu, hl⟩
    · rw [ht'] at ht
      cases ht

lemma fresh_ok {latest : ℕ} (h : id ≤ latest) : SegmentOk latest id (.fresh id) :=
  ⟨rfl, h, rfl, fun _ => rfl⟩

lemma Opened.wf (h : Opened sm t) (hw : sm.Wf) : t.Wf := by
  intro id seg hs
  rcases h.lookup id with he | ⟨_, he, hl⟩
  · have := hw id seg (he ▸ hs)
    exact ⟨this.id_eq, this.id_le.trans h.latest, this.offset, this.clean⟩
  · rw [he] at hs
    cases hs
    exact fresh_ok hl

lemma Opened.grows (h : Opened sm t) : sm.files.Grows t.files := by
  intro id c hc
  obtain ⟨seg, hs, rfl⟩ := lookup_of_files hc
  rcases h.lookup id with he | ⟨hn, _⟩
  · exact ⟨_, files_of_lookup (he.trans hs), List.prefix_rfl⟩
  · rw [hn] at hs
    cases hs

lemma Appended.wf (h : Appended sm t value e) (hw : sm.Wf) : t.Wf := by
  obtain ⟨seg, hseg, -, hlt, hle, hl⟩ := h.segment
  intro id seg' hs
  rw [hl] at hs
  split_ifs at hs with hid
  · subst hid
    obtain rfl : seg.wrote value = seg' := by simpa using hs
    have hok : seg.segmentId = e.segmentId ∧ seg.currentOffset = seg.file.content.length := by
      rcases hseg with hseg | ⟨_, rfl⟩
      · exact ⟨(hw _ _ hseg).id_eq, (hw _ _ hseg).offset⟩
      · exact ⟨rfl, rfl⟩
    refine ⟨hok.1, hle, ?_, by simp [DataSegment.wrote]⟩
    simp only [DataSegment.wrote, hok.2, BufferedFile.content_append, List.length_append]
    exact Nat.mod_eq_of_lt hlt
  · have := hw id seg' hs
    exact ⟨this.id_eq, this.id_le.trans h.latest, this.offset, this.clean⟩

lemma Appended.files_eq (h : Appended sm t value e) :
    ∃ c, c.length = e.offset ∧
      (sm.files e.segmentId = some c ∨ sm.files e.segmentId = none ∧ c = []) ∧
      ∀ id, t.files id = if id = e.segmentId then some (c ++ value) else sm.files id := by
  obtain ⟨seg, hseg, he, -, -, hl⟩ := h.segment
  refine ⟨seg.file.content, ?_, ?_, fun id => ?_⟩
  · rw [he]
  · rcases hseg with hseg | ⟨hseg, rfl⟩
    · exact Or.inl (files_of_lookup hseg)
    · exact Or.inr ⟨by simp [files, hseg], rfl⟩
  · simp only [files, hl]
    split_ifs <;> simp [DataSegment.wrote]

lemma Appended.grows (h : Appended sm t value e) : sm.files.Grows t.files := by
  obtain ⟨c, -, hc, hf⟩ := h.files_eq
  intro id d hd
  by_cases hid : id = e.segmentId
  · subst hid
    rcases hc with hc | ⟨hc, -⟩
    · obtain rfl : c = d := by simpa [hc] using hd
      exact ⟨c ++ value, by simp [hf], List.prefix_append _ _⟩
    · simp [hc] at hd
  · exact ⟨d, by rw [hf, if_neg hid, hd], List.prefix_rfl⟩

lemma Appended.slice (h : Appended sm t value e) (hv : value.length < 2 ^ 32) :
    t.files.InBounds e.location ∧ t.files.slice e.location = value ∧ e.size = value.length ∧
    e.isTombstone = false := by
  obtain ⟨c, hc, -, hf⟩ := h.files_eq
  obtain ⟨seg, -, he, -, -, -⟩ := h.segment
  have hs : e.size = value.length := by rw [he]; exact Nat.mod_eq_of_lt hv
  have hl : e.location = ⟨c.length, e.segmentId, value.length⟩ := by
    simp [IndexEntry.location, hc, hs]
  have hfe : t.files e.segmentId = some (c ++ value) := by simp [hf]
  rw [hl]
  exact ⟨Files.inBounds_of_append hfe, Files.slice_of_append hfe, hs, by rw [he]⟩

lemma appendToSegment_room (ho : sm.Wf) (hs : sm.segments.lookup id = some seg)
    (hr : seg.file.content.length + value.length ≤ segSize) (hz : segSize < 2 ^ 64 - 1)
    (hid : id < INVALID_SEGMENT_ID) :
    ∃ t, appendToSegment segSize id value sm =
      ⟨⟨[], seg.file.content.length, id, value.length % 2 ^ 32, false⟩, t, [t]⟩ ∧
      Appended sm t value ⟨[], seg.file.content.length, id, value.length % 2 ^ 32, false⟩ ∧
      t.latestSegmentId = sm.latestSegmentId := by
  have hok := ho id seg hs
  refine ⟨{ sm with segments := sm.segments.insert id (seg.wrote value) }, ?_, ?_, rfl⟩
  · have hw := DataSegment.write_room hok.offset hr hz
    have hne : seg.file.content.length ≠ (segSize + 1) % 2 ^ 64 := by
      rw [Nat.mod_eq_of_lt (by omega)]
      omega
    simp only [appendToSegment, bind, Traced.get, hs, hw, Traced.step, hne, if_false, pure,
      hok.id_eq, List.nil_append, List.append_nil]
  · exact ⟨le_rfl, ⟨seg, Or.inl hs, rfl, by omega, hok.id_le,
      fun i => AList.lookup_insert_ite _ _ _ _⟩, hid⟩

lemma append_room (hw : sm.Wf) (hs : sm.segments.lookup sm.latestSegmentId = some seg)
    (hne : value ≠ [])
    (hr : seg.file.content.length + value.length ≤ segSize) (hz : segSize < 2 ^ 64 - 1)
    (hid : sm.latestSegmentId < INVALID_SEGMENT_ID) :
    ∃ t, append segSize value sm =
      ⟨⟨[], seg.file.content.length, sm.latestSegmentId, value.length % 2 ^ 32, false⟩, t, [t]⟩ ∧
      Appended sm t value ⟨[], seg.file.content.length, sm.latestSegmentId, value.length % 2 ^ 32,
        false⟩ ∧ t.latestSegmentId = sm.latestSegmentId := by
  have hpos := List.length_pos_of_ne_nil hne
  have hu : sm.usable segSize sm.latestSegmentId = true := by
    have hlt : ¬ segSize ≤ seg.file.content.length := by omega
    simp [usable, hs, DataSegment.isFull, (hw _ _ hs).offset, hlt]
  have hcurrent : currentSegment segSize sm = ⟨sm.latestSegmentId, sm, []⟩ :=
    Traced.bind_eq (Traced.get_run sm) (by rw [if_pos hu]; rfl)
  obtain ⟨t, ht, ha, hlatest⟩ := appendToSegment_room hw hs hr hz hid
  exact ⟨t, Traced.bind_eq hcurrent (Traced.bind_eq ht (by rw [if_neg hid.ne]; rfl)), ha, hlatest⟩

lemma appendToSegment_full (ho : sm.Wf) (hs : sm.segments.lookup id = some seg)
    (hr : segSize < seg.file.content.length + value.length) (hc : seg.file.content.length < 2 ^ 63)
    (hv : value.length < 2 ^ 63) :
    ∃ t, appendToSegment segSize id value sm = ⟨.invalid, t, [t]⟩ ∧
      t.latestSegmentId = sm.latestSegmentId ∧ ∀ i, t.segments.lookup i = sm.segments.lookup i := by
  have hw := DataSegment.write_full (ho id seg hs).offset hr hc hv
  refine ⟨{ sm with segments := sm.segments.insert id seg }, ?_, rfl, fun i => ?_⟩
  · simp only [appendToSegment, bind, Traced.get, hs, hw, Traced.step, if_true, pure,
      List.nil_append, List.append_nil]
  · rw [AList.lookup_insert_ite]
    split_ifs with hi
    · rw [hi, hs]
    · rfl

structure OpenedNext (sm t : StorageManager) : Prop where
  absent : sm.segments.lookup (sm.latestSegmentId + 1) = none
  latest : t.latestSegmentId = sm.latestSegmentId + 1
  lookup : ∀ id, t.segments.lookup id =
    if id = sm.latestSegmentId + 1 then some (.fresh id) else sm.segments.lookup id

lemma OpenedNext.opened (h : OpenedNext sm t) : Opened sm t where
  latest := by rw [h.latest]; omega
  lookup id := by
    rw [h.lookup]
    split_ifs with hid
    · subst hid
      exact Or.inr ⟨h.absent, rfl, h.latest.ge⟩
    · exact Or.inl rfl

lemma OpenedNext.appended {u : StorageManager} (h : OpenedNext sm t) (ha : Appended t u value e)
    (he : e.segmentId = sm.latestSegmentId + 1) : Appended sm u value e := by
  obtain ⟨seg, hseg, hee, hlt, hle, hl⟩ := ha.segment
  refine ⟨?_, ⟨seg, Or.inr ⟨he ▸ h.absent, ?_⟩, hee, hlt, hle, fun id => ?_⟩, ha.valid⟩
  · have := h.opened.latest
    exact this.trans ha.latest
  · have hf := h.lookup e.segmentId
    rw [if_pos he] at hf
    rcases hseg with hseg | ⟨hseg, rfl⟩
    · simpa [hf, eq_comm] using hseg
    · rfl
  · rw [hl, h.lookup, ← he]
    split_ifs <;> rfl

lemma newSegment_opened (hw : sm.Wf) (hl : sm.latestSegmentId < 2 ^ 32 - 1) :
    ∃ t, newSegment (nextId sm.latestSegmentId) sm = ⟨(), t, [t]⟩ ∧ OpenedNext sm t ∧
      nextId sm.latestSegmentId = sm.latestSegmentId + 1 := by
  have hn : nextId sm.latestSegmentId = sm.latestSegmentId + 1 := Nat.mod_eq_of_lt (by omega)
  have hnone : sm.segments.lookup (sm.latestSegmentId + 1) = none := by
    by_contra hne
    obtain ⟨seg, hs⟩ := Option.ne_none_iff_exists'.mp hne
    have := (hw _ _ hs).id_le
    omega
  refine ⟨⟨sm.segments.insert (sm.latestSegmentId + 1) (.fresh (sm.latestSegmentId + 1)),
    sm.latestSegmentId + 1⟩, ?_, ⟨hnone, rfl, fun id => ?_⟩, hn⟩
  · rw [hn]
    simp only [newSegment, Traced.step, hnone, Option.map_none, Option.getD_none, DataSegment.fresh]
  · rw [AList.lookup_insert_ite]
    split_ifs with hid
    · rw [hid]
    · rfl

def Appending (sm : StorageManager) (value : Value) (t : StorageManager) : Prop :=
  Opened sm t ∨ ∃ e, Appended sm t value e

lemma Appending.wf (h : Appending sm value t) (hw : sm.Wf) : t.Wf :=
  h.elim (fun h => h.wf hw) (fun ⟨_, h⟩ => h.wf hw)

lemma Appending.grows (h : Appending sm value t) : sm.files.Grows t.files :=
  h.elim (fun h => h.grows) (fun ⟨_, h⟩ => h.grows)

lemma Opened.of_lookup_eq (hl : t.latestSegmentId = sm.latestSegmentId)
    (h : ∀ i, t.segments.lookup i = sm.segments.lookup i) : Opened sm t :=
  ⟨hl.ge, fun i => Or.inl (h i)⟩

lemma Appended.of_lookup_eq {u : StorageManager} (hl : t.latestSegmentId = sm.latestSegmentId)
    (h : ∀ i, t.segments.lookup i = sm.segments.lookup i) (ha : Appended t u value e) :
    Appended sm u value e := by
  obtain ⟨seg, hseg, he⟩ := ha.segment
  exact ⟨hl ▸ ha.latest, ⟨seg, by simpa only [h] using hseg, by simpa only [h] using he⟩, ha.valid⟩

lemma currentSegment_cases (hw : sm.Wf) (hl : sm.latestSegmentId < 2 ^ 32 - 1) (segSize : ℕ) :
    (∃ seg, sm.segments.lookup sm.latestSegmentId = some seg ∧
      currentSegment segSize sm = ⟨sm.latestSegmentId, sm, []⟩) ∨
    (∃ t, OpenedNext sm t ∧ currentSegment segSize sm = ⟨sm.latestSegmentId + 1, t, [t]⟩) := by
  cases hu : sm.usable segSize sm.latestSegmentId with
  | true =>
    left
    simp only [usable] at hu
    cases hs : sm.segments.lookup sm.latestSegmentId with
    | none => simp [hs] at hu
    | some seg =>
      refine ⟨seg, rfl, ?_⟩
      have hu : sm.usable segSize sm.latestSegmentId = true := by simpa [usable, hs] using hu
      exact Traced.bind_eq (Traced.get_run sm) (by rw [if_pos hu]; rfl)
  | false =>
    right
    obtain ⟨t, ht, ho, hn⟩ := newSegment_opened hw hl
    refine ⟨t, ho, ?_⟩
    refine Traced.bind_eq (Traced.get_run sm) ?_
    rw [if_neg (by simp [hu])]
    exact Traced.bind_eq ht (by rw [hn]; rfl)

lemma appendNext (hw : sm.Wf) (hl : sm.latestSegmentId < 2 ^ 32 - 2) (hz : segSize < 2 ^ 64 - 1)
    (hv : value.length ≤ segSize) :
    ∃ t u, OpenedNext sm t ∧ newSegment (nextId sm.latestSegmentId) sm = ⟨(), t, [t]⟩ ∧
      appendToSegment segSize (nextId sm.latestSegmentId) value t =
        ⟨⟨[], 0, sm.latestSegmentId + 1, value.length % 2 ^ 32, false⟩, u, [u]⟩ ∧
      Appended sm u value ⟨[], 0, sm.latestSegmentId + 1, value.length % 2 ^ 32, false⟩ := by
  obtain ⟨t, ht, ho, hn⟩ := newSegment_opened hw (by omega)
  have hs : t.segments.lookup (sm.latestSegmentId + 1) =
      some (.fresh (sm.latestSegmentId + 1)) := by
    rw [ho.lookup, if_pos rfl]
  have hi : sm.latestSegmentId + 1 < INVALID_SEGMENT_ID := by
    simp only [INVALID_SEGMENT_ID]
    omega
  obtain ⟨u, hu, ha, -⟩ := appendToSegment_room (ho.opened.wf hw) hs
    (show (DataSegment.fresh _).file.content.length + value.length ≤ segSize by
      simpa [DataSegment.fresh, DataSegment.openSegment] using hv) hz hi
  refine ⟨t, u, ho, ht, ?_, ?_⟩
  · rw [hn]
    exact hu
  · exact ho.appended ha rfl

lemma append_next (hw : sm.Wf) (hs : sm.segments.lookup sm.latestSegmentId = some seg)
    (hfull : segSize ≤ seg.file.content.length) (hl : sm.latestSegmentId < 2 ^ 32 - 2)
    (hz : segSize < 2 ^ 64 - 1) (hv : value.length ≤ segSize) :
    ∃ t u, append segSize value sm =
      ⟨⟨[], 0, sm.latestSegmentId + 1, value.length % 2 ^ 32, false⟩, u, [t, u]⟩ ∧
      OpenedNext sm t ∧ Appended sm u value ⟨[], 0, sm.latestSegmentId + 1, value.length % 2 ^ 32,
        false⟩ ∧ u.latestSegmentId = sm.latestSegmentId + 1 := by
  have hu : ¬ sm.usable segSize sm.latestSegmentId = true := by
    simp [usable, hs, DataSegment.isFull, (hw _ _ hs).offset, hfull]
  obtain ⟨t, ht, ho, hn⟩ := newSegment_opened hw (by omega)
  have hcurrent : currentSegment segSize sm = ⟨sm.latestSegmentId + 1, t, [t]⟩ :=
    Traced.bind_eq (Traced.get_run sm)
      (by rw [if_neg hu]; exact Traced.bind_eq ht (by rw [hn]; rfl))
  have hfresh : t.segments.lookup
      (sm.latestSegmentId + 1) = some (.fresh (sm.latestSegmentId + 1)) := by
    rw [ho.lookup, if_pos rfl]
  have hid : sm.latestSegmentId + 1 < INVALID_SEGMENT_ID := by
    simp only [INVALID_SEGMENT_ID]
    omega
  obtain ⟨u, hrun, ha, hlatest⟩ := appendToSegment_room (ho.opened.wf hw) hfresh
    (show (DataSegment.fresh _).file.content.length + value.length ≤ segSize by
      simpa [DataSegment.fresh, DataSegment.openSegment] using hv) hz hid
  exact ⟨t, u, Traced.bind_eq hcurrent
    (Traced.bind_eq hrun (by rw [if_neg hid.ne]; rfl)), ho, ho.appended ha rfl,
    hlatest.trans ho.latest⟩

theorem append_fits (hw : sm.Wf) (hlim : sm.WithinLimits) (hz : segSize < 2 ^ 64 - 1)
    (hv : value.length ≤ segSize) (hv' : value.length < 2 ^ 63) :
    Appended sm (append segSize value sm).final value (append segSize value sm).val ∧
      (append segSize value sm).final ∈ (append segSize value sm).visited ∧
      ∀ t ∈ (append segSize value sm).visited, Appending sm value t := by
  have hl := hlim.latest
  rcases currentSegment_cases hw (by omega) segSize with ⟨seg, hs, hc⟩ | ⟨t, ho, hc⟩
  · have hok := hw _ _ hs
    by_cases hr : seg.file.content.length + value.length ≤ segSize
    · obtain ⟨u, hu, ha, -⟩ := appendToSegment_room hw hs hr hz
        (by unfold INVALID_SEGMENT_ID; omega)
      have hne : ¬ sm.latestSegmentId = INVALID_SEGMENT_ID := by unfold INVALID_SEGMENT_ID; omega
      have he : append segSize value sm = ⟨⟨[], _, sm.latestSegmentId, _, _⟩, u, [u]⟩ :=
        Traced.bind_eq hc (Traced.bind_eq hu (by rw [if_neg hne]; rfl))
      rw [he]
      refine ⟨ha, by simp, ?_⟩
      simp only [List.mem_singleton, forall_eq]
      exact Or.inr ⟨_, ha⟩
    · have hfull : segSize < seg.file.content.length + value.length := by omega
      obtain ⟨t, ht, hlt, hlk⟩ := appendToSegment_full hw hs hfull (hlim.length _ _ hs) hv'
      have ho := Opened.of_lookup_eq hlt hlk
      obtain ⟨u, w, hou, hu, hw', ha⟩ := appendNext (ho.wf hw) (by omega) hz hv
      have ha' := Appended.of_lookup_eq hlt hlk ha
      have hi : IndexEntry.invalid.segmentId = INVALID_SEGMENT_ID := rfl
      have he : append segSize value sm = ⟨⟨[], 0, _, _, _⟩, w, [t, u, w]⟩ :=
        Traced.bind_eq hc (Traced.bind_eq ht
          (by rw [if_pos hi]; exact Traced.bind_eq (Traced.get_run t) (Traced.bind_eq hu hw')))
      rw [he]
      refine ⟨ha', by simp, ?_⟩
      simp only [List.mem_cons, List.not_mem_nil, or_false, forall_eq_or_imp, forall_eq]
      exact ⟨Or.inl ho, Or.inl (ho.trans hou.opened), Or.inr ⟨_, ha'⟩⟩
  · have hs : t.segments.lookup (sm.latestSegmentId + 1) =
        some (.fresh (sm.latestSegmentId + 1)) := by
      rw [ho.lookup, if_pos rfl]
    have hne : sm.latestSegmentId + 1 < INVALID_SEGMENT_ID := by unfold INVALID_SEGMENT_ID; omega
    obtain ⟨u, hu, ha, -⟩ := appendToSegment_room (ho.opened.wf hw) hs
      (show (DataSegment.fresh _).file.content.length + value.length ≤ segSize by
        simpa [DataSegment.fresh, DataSegment.openSegment] using hv) hz hne
    have ha' := ho.appended ha rfl
    have he : append segSize value sm = ⟨⟨[], _, sm.latestSegmentId + 1, _, _⟩, u, [t, u]⟩ :=
      Traced.bind_eq hc (Traced.bind_eq hu (by rw [if_neg hne.ne]; rfl))
    rw [he]
    refine ⟨ha', by simp, ?_⟩
    simp only [List.mem_cons, List.not_mem_nil, or_false, forall_eq_or_imp, forall_eq]
    exact ⟨Or.inl ho.opened, Or.inr ⟨_, ha'⟩⟩

theorem append_refuses (hw : sm.Wf) (hlim : sm.WithinLimits) (hv : segSize < value.length)
    (hv' : value.length < 2 ^ 63) :
    (append segSize value sm).val = .invalid ∧ Opened sm (append segSize value sm).final ∧
      (append segSize value sm).final ∈ (append segSize value sm).visited ∧
      ∀ t ∈ (append segSize value sm).visited, Opened sm t := by
  have hl := hlim.latest
  have hi : IndexEntry.invalid.segmentId = INVALID_SEGMENT_ID := rfl
  have hfresh : ∀ i, segSize < (DataSegment.fresh i).file.content.length + value.length := by
    intro i
    simpa [DataSegment.fresh, DataSegment.openSegment] using hv
  rcases currentSegment_cases hw (by omega) segSize with ⟨seg, hs, hc⟩ | ⟨t, ho, hc⟩
  · have hfull : segSize < seg.file.content.length + value.length := by omega
    obtain ⟨t, ht, hlt, hlk⟩ := appendToSegment_full hw hs hfull (hlim.length _ _ hs) hv'
    have ho := Opened.of_lookup_eq hlt hlk
    obtain ⟨u, hu, hou, hn⟩ := newSegment_opened (ho.wf hw) (by omega)
    have hs' : u.segments.lookup (t.latestSegmentId + 1) =
        some (.fresh (t.latestSegmentId + 1)) := by
      rw [hou.lookup, if_pos rfl]
    obtain ⟨w, hw', hlw, hlkw⟩ := appendToSegment_full (hou.opened.wf (ho.wf hw)) hs' (hfresh _)
      (by simp [DataSegment.fresh, DataSegment.openSegment]) hv'
    have how := (ho.trans hou.opened).trans (Opened.of_lookup_eq hlw hlkw)
    have he : append segSize value sm = ⟨.invalid, w, [t, u, w]⟩ :=
      Traced.bind_eq hc (Traced.bind_eq ht
        (by rw [if_pos hi]; exact Traced.bind_eq (Traced.get_run t) (Traced.bind_eq hu
          (by rw [hn]; exact hw'))))
    rw [he]
    refine ⟨rfl, how, by simp, ?_⟩
    simp only [List.mem_cons, List.not_mem_nil, or_false, forall_eq_or_imp, forall_eq]
    exact ⟨ho, ho.trans hou.opened, how⟩
  · have hs : t.segments.lookup (sm.latestSegmentId + 1) =
        some (.fresh (sm.latestSegmentId + 1)) := by
      rw [ho.lookup, if_pos rfl]
    obtain ⟨u, hu, hlu, hlku⟩ := appendToSegment_full (ho.opened.wf hw) hs (hfresh _)
      (by simp [DataSegment.fresh, DataSegment.openSegment]) hv'
    have hou := ho.opened.trans (Opened.of_lookup_eq hlu hlku)
    obtain ⟨w, hw', how, hn⟩ := newSegment_opened (hou.wf hw) (by rw [hlu, ho.latest]; omega)
    have hs' : w.segments.lookup (u.latestSegmentId + 1) =
        some (.fresh (u.latestSegmentId + 1)) := by
      rw [how.lookup, if_pos rfl]
    obtain ⟨x, hx, hlx, hlkx⟩ := appendToSegment_full (how.opened.wf (hou.wf hw)) hs' (hfresh _)
      (by simp [DataSegment.fresh, DataSegment.openSegment]) hv'
    have hox := (hou.trans how.opened).trans (Opened.of_lookup_eq hlx hlkx)
    have he : append segSize value sm = ⟨.invalid, x, [t, u, w, x]⟩ :=
      Traced.bind_eq hc (Traced.bind_eq hu
        (by
          rw [if_pos hi]
          exact Traced.bind_eq (Traced.get_run u)
            (Traced.bind_eq hw' (by rw [hn]; exact hx))))
    rw [he]
    refine ⟨rfl, hox, by simp, ?_⟩
    simp only [List.mem_cons, List.not_mem_nil, or_false, forall_eq_or_imp, forall_eq]
    exact ⟨ho.opened, hou, hou.trans how.opened, hox⟩

lemma appendToSegment_largest (ho : sm.Wf) (hs : sm.segments.lookup id = some seg)
    (hc : seg.file.content.length < 2 ^ 63) (hv : value.length < 2 ^ 63)
    (hid : id < INVALID_SEGMENT_ID) :
    ∃ t, appendToSegment (2 ^ 64 - 1) id value sm =
      ⟨if seg.file.content.length = 0 then .invalid
        else ⟨[], seg.file.content.length, id, value.length % 2 ^ 32, false⟩, t, [t]⟩ ∧
      Appended sm t value ⟨[], seg.file.content.length, id, value.length % 2 ^ 32, false⟩ := by
  have hok := ho id seg hs
  have hw : seg.write (2 ^ 64 - 1) value = (seg.file.content.length, seg.wrote value) := by
    simp only [DataSegment.write]
    rw [hok.offset, Nat.mod_eq_of_lt (by omega), if_neg (by omega), DataSegment.wrote, hok.offset,
      Nat.mod_eq_of_lt (by omega)]
  have hz : (2 ^ 64 - 1 + 1) % 2 ^ 64 = 0 := by norm_num
  refine ⟨{ sm with segments := sm.segments.insert id (seg.wrote value) }, ?_, ?_⟩
  · simp only [appendToSegment, bind, Traced.get, hs, hw, Traced.step, pure, hok.id_eq, hz,
      List.nil_append, List.append_nil]
  · exact ⟨le_rfl, ⟨seg, Or.inl hs, rfl, by omega, hok.id_le,
      fun i => AList.lookup_insert_ite _ _ _ _⟩, hid⟩

abbrev Growing (value : Value) : StorageManager → StorageManager → Prop :=
  Relation.ReflTransGen fun sm t => Appending sm value t

lemma appendNext_largest (hw : sm.Wf) (hl : sm.latestSegmentId < 2 ^ 32 - 2)
    (hv : value.length < 2 ^ 63) :
    ∃ t u, OpenedNext sm t ∧ newSegment (nextId sm.latestSegmentId) sm = ⟨(), t, [t]⟩ ∧
      appendToSegment (2 ^ 64 - 1) (nextId sm.latestSegmentId) value t = ⟨.invalid, u, [u]⟩ ∧
      Appending t value u := by
  obtain ⟨t, ht, ho, hn⟩ := newSegment_opened hw (by omega)
  have hs : t.segments.lookup (sm.latestSegmentId + 1) =
      some (.fresh (sm.latestSegmentId + 1)) := by
    rw [ho.lookup, if_pos rfl]
  have hi : sm.latestSegmentId + 1 < INVALID_SEGMENT_ID := by
    simp only [INVALID_SEGMENT_ID]
    omega
  obtain ⟨u, hu, ha⟩ := appendToSegment_largest (ho.opened.wf hw) hs
    (by simp [DataSegment.fresh, DataSegment.openSegment]) hv hi
  refine ⟨t, u, ho, ht, ?_, Or.inr ⟨_, ha⟩⟩
  rw [hn, hu]
  rfl

lemma mem_append_visited {t u : StorageManager} {ts : List StorageManager} {r : IndexEntry}
    (hc : currentSegment segSize sm = ⟨id, t, ts⟩)
    (hu : appendToSegment segSize id value t = ⟨r, u, [u]⟩) :
    u ∈ (append segSize value sm).visited := by
  simp only [append, Traced.bind_visited, hc, hu, List.mem_append, List.mem_singleton, true_or,
    or_true]

lemma append_largest (hw : sm.Wf) (hlim : Traced.Within WithinLimits (append (2 ^ 64 - 1) value) sm)
    (hv : value.length < 2 ^ 63) :
    (append (2 ^ 64 - 1) value sm).final ∈ (append (2 ^ 64 - 1) value sm).visited ∧
    (∀ t ∈ (append (2 ^ 64 - 1) value sm).visited, Growing value sm t) ∧
    ((append (2 ^ 64 - 1) value sm).val.segmentId ≠ INVALID_SEGMENT_ID →
      Appended sm (append (2 ^ 64 - 1) value sm).final value
      (append (2 ^ 64 - 1) value sm).val) := by
  have hl := hlim.start.latest
  have hi : IndexEntry.invalid.segmentId = INVALID_SEGMENT_ID := rfl
  rcases currentSegment_cases hw (by omega) (2 ^ 64 - 1) with ⟨seg, hs, hc⟩ | ⟨t, ho, hc⟩
  · have hid : sm.latestSegmentId < INVALID_SEGMENT_ID := by
      simp only [INVALID_SEGMENT_ID]
      omega
    obtain ⟨u, hu, ha⟩ := appendToSegment_largest hw hs (hlim.start.length _ _ hs) hv hid
    have hgu : Growing value sm u := .single (Or.inr ⟨_, ha⟩)
    have hlu := (hlim u (List.mem_cons_of_mem _ (mem_append_visited hc hu))).latest
    by_cases h0 : seg.file.content.length = 0
    · rw [if_pos h0] at hu
      obtain ⟨w, x, hw', hrw, hrx, hx⟩ := appendNext_largest (ha.wf hw) hlu hv
      have he : append (2 ^ 64 - 1) value sm = ⟨.invalid, x, [u, w, x]⟩ :=
        Traced.bind_eq hc (Traced.bind_eq hu
          (by rw [if_pos hi]; exact Traced.bind_eq (Traced.get_run u) (Traced.bind_eq hrw hrx)))
      have hgw : Growing value sm w := hgu.tail (Or.inl hw'.opened)
      rw [he]
      refine ⟨by simp, ?_, fun hne => absurd rfl hne⟩
      simp only [List.mem_cons, List.not_mem_nil, or_false, forall_eq_or_imp, forall_eq]
      exact ⟨hgu, hgw, hgw.tail hx⟩
    · rw [if_neg h0] at hu
      have he : append (2 ^ 64 - 1) value sm = ⟨⟨[], _, sm.latestSegmentId, _, _⟩, u, [u]⟩ :=
        Traced.bind_eq hc (Traced.bind_eq hu (by rw [if_neg hid.ne]; rfl))
      rw [he]
      refine ⟨by simp, ?_, fun _ => ha⟩
      simpa using hgu
  · have hs : t.segments.lookup (sm.latestSegmentId + 1) =
        some (.fresh (sm.latestSegmentId + 1)) := by
      rw [ho.lookup, if_pos rfl]
    have hid : sm.latestSegmentId + 1 < INVALID_SEGMENT_ID := by
      simp only [INVALID_SEGMENT_ID]
      omega
    obtain ⟨u, hu, ha⟩ := appendToSegment_largest (ho.opened.wf hw) hs
      (by simp [DataSegment.fresh, DataSegment.openSegment]) hv hid
    have hempty : (DataSegment.fresh (sm.latestSegmentId + 1)).file.content.length = 0 := rfl
    rw [if_pos hempty] at hu
    have hlu := (hlim u (List.mem_cons_of_mem _ (mem_append_visited hc hu))).latest
    obtain ⟨w, x, hw', hrw, hrx, hx⟩ := appendNext_largest (ha.wf (ho.opened.wf hw)) hlu hv
    have he : append (2 ^ 64 - 1) value sm = ⟨.invalid, x, [t, u, w, x]⟩ :=
      Traced.bind_eq hc (Traced.bind_eq hu
        (by rw [if_pos hi]; exact Traced.bind_eq (Traced.get_run u) (Traced.bind_eq hrw hrx)))
    have hgt : Growing value sm t := .single (Or.inl ho.opened)
    have hgu : Growing value sm u := hgt.tail (Or.inr ⟨_, ha⟩)
    have hgw : Growing value sm w := hgu.tail (Or.inl hw'.opened)
    rw [he]
    refine ⟨by simp, ?_, fun hne => absurd rfl hne⟩
    simp only [List.mem_cons, List.not_mem_nil, or_false, forall_eq_or_imp, forall_eq]
    exact ⟨hgt, hgu, hgw, hgw.tail hx⟩

/-- Whatever the segment size, `append` only opens segments and adds the value to their ends, and an
entry it returns is that of the value. -/
theorem append_grows (hw : sm.Wf) (hlim : Traced.Within WithinLimits (append segSize value) sm)
    (hz : segSize < 2 ^ 64) (hv : value.length < 2 ^ 63) :
    (append segSize value sm).final ∈ (append segSize value sm).visited ∧
    (∀ t ∈ (append segSize value sm).visited, Growing value sm t) ∧
    ((append segSize value sm).val.segmentId ≠ INVALID_SEGMENT_ID →
      Appended sm (append segSize value sm).final value (append segSize value sm).val) := by
  by_cases hlast : segSize = 2 ^ 64 - 1
  · subst hlast
    exact append_largest hw hlim hv
  · rcases Nat.lt_or_ge segSize value.length with hlt | hle
    · obtain ⟨hval, -, hmem, hvis⟩ := append_refuses hw hlim.start hlt hv
      exact ⟨hmem, fun t ht => .single (Or.inl (hvis t ht)),
        fun hne => absurd (by rw [hval]; rfl) hne⟩
    · obtain ⟨ha, hmem, hvis⟩ := append_fits hw hlim.start (by omega) hle hv
      exact ⟨hmem, fun t ht => .single (hvis t ht), fun _ => ha⟩

end StorageManager

end Zest
