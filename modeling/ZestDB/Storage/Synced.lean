import ZestDB.Storage.Maintenance

/-! The part of the segment files that a crash cannot take. -/

namespace Zest.StorageManager

open Foundations

variable {sm t : StorageManager} {value : Value} {e : IndexEntry} {loc : Location} {used : List ℕ}

def synced (sm : StorageManager) : Files :=
  fun id => (sm.segments.lookup id).map fun seg => seg.file.synced

lemma synced_of_lookup {id : ℕ} {seg : DataSegment} (h : sm.segments.lookup id = some seg) :
    sm.synced id = some seg.file.synced := by
  simp [synced, h]

lemma lookup_of_synced {id : ℕ} {c : Bytes} (h : sm.synced id = some c) :
    ∃ seg, sm.segments.lookup id = some seg ∧ seg.file.synced = c := by
  simpa [synced] using h

lemma synced_grows (sm : StorageManager) : sm.synced.Grows sm.files := by
  intro id c hc
  obtain ⟨seg, hs, rfl⟩ := lookup_of_synced hc
  exact ⟨_, files_of_lookup hs, List.prefix_append _ _⟩

lemma Opened.synced (h : Opened sm t) : sm.synced.Grows t.synced := by
  intro id c hc
  obtain ⟨seg, hs, rfl⟩ := lookup_of_synced hc
  rcases h.lookup id with he | ⟨hn, -⟩
  · exact ⟨_, synced_of_lookup (he.trans hs), List.prefix_rfl⟩
  · rw [hn] at hs
    cases hs

lemma Appended.synced (h : Appended sm t value e) : sm.synced.Grows t.synced := by
  obtain ⟨seg, hseg, -, -, -, hl⟩ := h.segment
  have ht : t.synced e.segmentId = some (seg.wrote value).file.synced :=
    synced_of_lookup (by rw [hl, if_pos rfl])
  intro id c hc
  obtain ⟨seg', hs, rfl⟩ := lookup_of_synced hc
  by_cases hid : id = e.segmentId
  · subst hid
    refine ⟨_, ht, ?_⟩
    rcases hseg with hseg | ⟨hn, -⟩
    · obtain rfl : seg = seg' := by simpa [hseg] using hs
      exact List.prefix_rfl
    · rw [hn] at hs
      cases hs
  · exact ⟨_, synced_of_lookup (by rw [hl, if_neg hid, hs]), List.prefix_rfl⟩

lemma Appending.synced (h : Appending sm value t) : sm.synced.Grows t.synced :=
  h.elim Opened.synced fun ⟨_, ha⟩ => ha.synced

lemma Growing.synced (h : Growing value sm t) : sm.synced.Grows t.synced := by
  induction h with
  | refl => exact .refl _
  | tail _ ha ih => exact ih.trans ha.synced

lemma Appended.not_synced (h : Appended sm t value e) (hv : value.length < 2 ^ 32)
    (hne : value ≠ []) :
    ¬ t.synced.InBounds e.location := by
  obtain ⟨seg, -, he, -, -, hl⟩ := h.segment
  have ht : t.synced e.segmentId = some (seg.wrote value).file.synced :=
    synced_of_lookup (by rw [hl, if_pos rfl])
  have hpos := List.length_pos_of_ne_nil hne
  have hoff : e.offset = seg.file.content.length := congrArg IndexEntry.offset he
  have hsize : e.size = value.length := (congrArg IndexEntry.size he).trans (Nat.mod_eq_of_lt hv)
  rintro ⟨c, hc, hle⟩
  obtain rfl : seg.file.synced = c := by simpa [IndexEntry.location, ht, DataSegment.wrote] using hc
  simp only [IndexEntry.location, hoff, hsize, BufferedFile.content, List.length_append] at hle
  omega

lemma Removing.synced (h : Removing used sm t) (hu : loc.segmentId ∈ used)
    (hin : sm.synced.InBounds loc) :
    t.synced.InBounds loc ∧ t.synced.slice loc = sm.synced.slice loc := by
  have ht : t.synced loc.segmentId = sm.synced loc.segmentId := by
    rcases h.lookup loc.segmentId with he | ⟨hn, -⟩
    · simp [StorageManager.synced, he]
    · exact absurd hu hn
  exact ⟨by simpa only [Files.InBounds, ht] using hin, by simp only [Files.slice, ht]⟩

lemma synced_of_flushed (h : ∀ id seg, sm.segments.lookup id = some seg → seg.file.pending = []) :
    sm.synced = sm.files := by
  funext id
  cases hs : sm.segments.lookup id with
  | none => simp [synced, files, hs]
  | some seg => simp [synced_of_lookup hs, files_of_lookup hs, BufferedFile.content, h id seg hs]

end Zest.StorageManager
