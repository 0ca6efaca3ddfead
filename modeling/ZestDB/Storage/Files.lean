import ZestDB.Storage.StorageManager
import ZestDB.Foundations.AssocMap

/-! The contents of the segment files as the index sees them, and the invariant of the storage. -/

namespace Zest

open Foundations

abbrev Files := ℕ → Option Bytes

namespace Files

variable {fs gs hs : Files} {loc : Location}

def InBounds (fs : Files) (loc : Location) : Prop :=
  ∃ c, fs loc.segmentId = some c ∧ loc.offset + loc.size ≤ c.length

def slice (fs : Files) (loc : Location) : Bytes :=
  (((fs loc.segmentId).getD []).drop loc.offset).take loc.size

def Grows (fs gs : Files) : Prop := ∀ id c, fs id = some c → ∃ d, gs id = some d ∧ c <+: d

lemma Grows.refl (fs : Files) : fs.Grows fs := fun _ c h => ⟨c, h, List.prefix_rfl⟩

lemma Grows.trans (h : fs.Grows gs) (h' : gs.Grows hs) : fs.Grows hs := by
  intro id c hc
  obtain ⟨d, hd, hp⟩ := h id c hc
  obtain ⟨e, he, hq⟩ := h' id d hd
  exact ⟨e, he, hp.trans hq⟩

lemma InBounds.mono (h : fs.InBounds loc) (hg : fs.Grows gs) : gs.InBounds loc := by
  obtain ⟨c, hc, hl⟩ := h
  obtain ⟨d, hd, hp⟩ := hg _ c hc
  exact ⟨d, hd, hl.trans hp.length_le⟩

lemma InBounds.slice_eq (h : fs.InBounds loc) (hg : fs.Grows gs) : gs.slice loc = fs.slice loc := by
  obtain ⟨c, hc, hl⟩ := h
  obtain ⟨d, hd, t, rfl⟩ := hg _ c hc
  simp only [slice, hc, hd, Option.getD_some]
  rw [List.drop_append_of_le_length (by omega), List.take_append_of_le_length (by simp; omega)]

lemma InBounds.slice_length (h : fs.InBounds loc) : (fs.slice loc).length = loc.size := by
  obtain ⟨c, hc, hl⟩ := h
  simp [slice, hc]
  omega

lemma slice_of_append {id : ℕ} {c v : Bytes} (h : fs id = some (c ++ v)) :
    fs.slice ⟨c.length, id, v.length⟩ = v := by
  simp [slice, h]

lemma inBounds_of_append {id : ℕ} {c v : Bytes} (h : fs id = some (c ++ v)) :
    fs.InBounds ⟨c.length, id, v.length⟩ := ⟨_, h, by simp⟩

end Files

namespace StorageManager

variable {sm : StorageManager} {id : ℕ} {seg : DataSegment}

def files (sm : StorageManager) : Files :=
  fun id => (sm.segments.lookup id).map fun seg => seg.file.content

structure SegmentOk (latest id : ℕ) (seg : DataSegment) : Prop where
  id_eq : seg.segmentId = id
  id_le : id ≤ latest
  offset : seg.currentOffset = seg.file.content.length
  clean : seg.canFlush = false → seg.file.pending = []

def Wf (sm : StorageManager) : Prop :=
  ∀ id seg, sm.segments.lookup id = some seg → SegmentOk sm.latestSegmentId id seg

/-- No counter of the storage is at its last value: segment ids are 32 bits wide, and a stream
cannot go past `2 ^ 63` bytes. -/
structure WithinLimits (sm : StorageManager) : Prop where
  latest : sm.latestSegmentId < 2 ^ 32 - 2
  length : ∀ id seg, sm.segments.lookup id = some seg → seg.file.content.length < 2 ^ 63

instance (sm : StorageManager) : Decidable sm.WithinLimits :=
  decidable_of_iff (sm.latestSegmentId < 2 ^ 32 - 2 ∧
      ∀ id ∈ sm.segments.keys, ∀ seg ∈ sm.segments.lookup id, seg.file.content.length <
        2 ^ 63) <| by
    constructor
    · rintro ⟨hl, hs⟩
      exact ⟨hl, fun id seg h => hs id (AList.mem_iff_lookup.mpr ⟨seg, h⟩) seg h⟩
    · rintro ⟨hl, hs⟩
      exact ⟨hl, fun id _ seg h => hs id seg h⟩

lemma files_of_lookup (h : sm.segments.lookup id = some seg) :
    sm.files id = some seg.file.content := by
  simp [files, h]

lemma lookup_of_files {c : Bytes} (h : sm.files id = some c) :
    ∃ seg, sm.segments.lookup id = some seg ∧ seg.file.content = c := by
  simpa [files] using h

lemma read_eq (sm : StorageManager) (entry : IndexEntry) :
    sm.read entry =
      if (sm.files.slice entry.location).length ≠ entry.size then
        [] else sm.files.slice entry.location := by
  simp only [read]
  cases h : sm.segments.lookup entry.segmentId with
  | some seg =>
    have hf := files_of_lookup h
    simp [DataSegment.read, Files.slice, IndexEntry.location, hf]
  | none =>
    have hf : sm.files entry.segmentId = none := by simp [files, h]
    simp [Files.slice, IndexEntry.location, hf]

lemma read_of_inBounds {entry : IndexEntry} (h : sm.files.InBounds entry.location) :
    sm.read entry = sm.files.slice entry.location := by
  rw [read_eq, if_neg]
  exact not_not.mpr h.slice_length

lemma contains_iff (hw : sm.Wf) {entry : IndexEntry} (hb : entry.offset + entry.size < 2 ^ 64) :
    sm.contains entry = true ↔ sm.files.InBounds entry.location := by
  simp only [contains]
  cases h : sm.segments.lookup entry.segmentId with
  | some seg =>
    dsimp only
    rw [Nat.mod_eq_of_lt hb, (hw _ _ h).offset]
    simp [Files.InBounds, IndexEntry.location, files, h]
  | none => simp [Files.InBounds, IndexEntry.location, files, h]

end StorageManager

end Zest
