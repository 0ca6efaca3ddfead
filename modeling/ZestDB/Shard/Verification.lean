import ZestDB.Index.Faulty
import ZestDB.Shard.Recovery

/-! The verification at the boot, for any INDEX and any segment files. -/

namespace Zest

open Foundations

/-- An entry that the verification does not see through: it is skipped, or its end wraps. -/
def Files.Disguised (fs : Files) (loc : Location) : Prop :=
  loc.segmentId = INVALID_SEGMENT_ID ∨
    ∃ c, fs loc.segmentId = some c ∧ 2 ^ 64 ≤ loc.offset + loc.size ∧
      loc.offset + loc.size - 2 ^ 64 ≤ c.length

namespace StorageManager

variable {sm : StorageManager} {entry : IndexEntry}

variable (entry) in
lemma contains_wraps (hw : sm.Wf) (hoffset : entry.offset < 2 ^ 64) (hsize : entry.size < 2 ^ 32) :
    sm.contains entry = true ↔ sm.files.InBounds entry.location ∨
      ∃ c, sm.files entry.segmentId = some c ∧ 2 ^ 64 ≤ entry.offset + entry.size ∧
        entry.offset + entry.size - 2 ^ 64 ≤ c.length := by
  simp only [contains]
  cases h : sm.segments.lookup entry.segmentId with
  | none => simp [Files.InBounds, IndexEntry.location, files, h]
  | some seg =>
    simp only [(hw _ _ h).offset, decide_eq_true_eq, Files.InBounds, IndexEntry.location,
      files_of_lookup h, Option.some.injEq, exists_eq_left']
    omega

lemma read_length (entry : IndexEntry) (h : sm.files.InBounds entry.location) :
    (sm.read entry).length = entry.size := by
  rw [read_of_inBounds h]
  exact h.slice_length

end StorageManager

namespace Shard

variable {s : Shard} {disk : Disk} {settings : Settings} {ch fill : Choice} {k : Key}
  {loc : Location} {e : IndexEntry}

def Dropped (sm : StorageManager) (e : IndexEntry) : Prop := live e = true ∧ sm.contains e = false

instance (sm : StorageManager) (e : IndexEntry) : Decidable (Dropped sm e) :=
  inferInstanceAs (Decidable (_ ∧ _))

lemma update_tombstone_lookup (im : IndexManager) (e : IndexEntry) (k : Key) :
    (im.update e.key { e with isTombstone := true }).memoryTree.lookup k =
      if k = e.key then none else im.memoryTree.lookup k := by
  cases hk : im.memoryTree.lookup e.key with
  | none =>
    simp only [IndexManager.update, hk]
    by_cases heq : k = e.key
    · rw [if_pos heq, heq, hk]
    · rw [if_neg heq]
  | some loc => simp only [IndexManager.update, hk, if_true, AList.lookup_erase_ite]

lemma verifyEntry_final (s : Shard) (e : IndexEntry) :
    (verifyEntry e s).final.storageManager = s.storageManager ∧
      ∀ k, (verifyEntry e s).final.tree.lookup k =
        if k = e.key ∧ Dropped s.storageManager e then none else s.tree.lookup k := by
  simp only [verifyEntry, Traced.get_bind, Traced.ite_run]
  by_cases hd : Dropped s.storageManager e
  · have hcond : (live e && !s.storageManager.contains e) = true := by simp [hd.1, hd.2]
    rw [if_pos hcond]
    refine ⟨rfl, fun k => ?_⟩
    simp only [hd, and_true]
    exact update_tombstone_lookup s.indexManager e k
  · have hcond : ¬ (live e && !s.storageManager.contains e) = true := by
      simpa [Dropped] using hd
    rw [if_neg hcond]
    refine ⟨rfl, fun k => ?_⟩
    rw [if_neg fun h => hd h.2]
    rfl

lemma verifyEntries_final (entries : List IndexEntry) (s : Shard) :
    (Traced.forEach verifyEntry entries s).final.storageManager = s.storageManager ∧
      ∀ k, (Traced.forEach verifyEntry entries s).final.tree.lookup k =
        if ∃ e ∈ entries, k = e.key ∧ Dropped s.storageManager e then
          none else s.tree.lookup k := by
  classical
  induction entries generalizing s with
  | nil => exact ⟨rfl, fun k => by simp [Traced.forEach]⟩
  | cons e entries ih =>
    obtain ⟨hsm, htree⟩ := verifyEntry_final s e
    obtain ⟨hsm', htree'⟩ := ih (verifyEntry e s).final
    refine ⟨hsm'.trans hsm, fun k => ?_⟩
    change (Traced.forEach verifyEntry entries (verifyEntry e s).final).final.tree.lookup k = _
    rw [htree', htree, hsm]
    simp only [List.exists_mem_cons_iff]
    by_cases hrest : ∃ e ∈ entries, k = e.key ∧ Dropped s.storageManager e
    · rw [if_pos hrest, if_pos (.inr hrest)]
    · by_cases hhere : k = e.key ∧ Dropped s.storageManager e
      · rw [if_neg hrest, if_pos hhere, if_pos (.inl hhere)]
      · rw [if_neg hrest, if_neg hhere, if_neg (not_or.mpr ⟨hhere, hrest⟩)]

lemma reopen_storage (settings : Settings) (ch fill : Choice) (disk : Disk) :
    (reopen settings ch fill disk).storageManager = StorageManager.booted disk.segs :=
  (verifyEntries_final _ _).1

/-- An entry that the verification does not look at: the list of entries ends before it. -/
def Overlooked (ch : Choice) (disk : Disk) (e : IndexEntry) : Prop :=
  e ∉ (IndexManager.loadIndexIntoMemory disk.index).getAll ch

lemma reopen_lookup (settings : Settings) (ch fill : Choice) (disk : Disk) (k : Key)
    (loc : Location) :
    (reopen settings ch fill disk).tree.lookup k = some loc ↔
      disk.view k = some loc ∧ (Overlooked ch disk (toEntry k loc) ∨
          ¬ Dropped (StorageManager.booted disk.segs) (toEntry k loc)) := by
  obtain ⟨s, hs⟩ : ∃ s : Shard, s = { openDisk settings disk with
      indexManager := (openDisk settings disk).indexManager.compact ch
      storageManager := StorageManager.booted disk.segs } := ⟨_, rfl⟩
  have hfinal : (reopen settings ch fill disk).tree.lookup k =
      (Traced.forEach verifyEntry (s.indexManager.getAll ch) s).final.tree.lookup k := by
    rw [hs]
    rfl
  have hsm : s.storageManager = StorageManager.booted disk.segs := by rw [hs]
  have hview : ∀ k, s.indexManager.memoryTree.lookup k = disk.view k := fun k => by
    rw [hs]
    rfl
  have hall : s.indexManager.getAll ch =
      (IndexManager.loadIndexIntoMemory disk.index).getAll ch := by
    rw [hs]
    rfl
  rw [hfinal, (verifyEntries_final _ _).2, hsm, ← hview, Overlooked, ← hall]
  change (if _ then none else s.indexManager.memoryTree.lookup k) = some loc ↔ _
  constructor
  · intro h
    split_ifs at h with hex
    refine ⟨h, or_iff_not_imp_left.mpr fun hmem hd => hex ⟨toEntry k loc, not_not.mp hmem, rfl, hd⟩⟩
  · rintro ⟨hk, hd⟩
    rw [if_neg, hk]
    rintro ⟨e, he, rfl, hde⟩
    obtain ⟨loc', hk', heq⟩ := IndexManager.mem_of_mem_getAll he
    obtain rfl := Option.some.inj (hk.symm.trans hk')
    exact hd.elim (fun hout => hout (heq ▸ he)) fun hd => hd (heq ▸ hde)

lemma view_fits (h : disk.view k = some loc) : loc.offset < 2 ^ 64 ∧ loc.size < 2 ^ 32 := by
  have hintact : (IndexStream.create disk.index .plain false).Intact :=
    IndexStream.create_intact .plain (by simp)
  have hfits := hintact.fits k loc h
  exact ⟨hfits.offset, hfits.size⟩

lemma dropped_iff (h : disk.view k = some loc) :
    ¬ Dropped (StorageManager.booted disk.segs) (toEntry k loc) ↔
      (StorageManager.booted disk.segs).files.InBounds loc ∨
      (StorageManager.booted disk.segs).files.Disguised loc := by
  obtain ⟨hoffset, hsize⟩ := view_fits h
  have hcontains := StorageManager.contains_wraps (toEntry k loc)
    (StorageManager.booted_wf disk.segs) hoffset hsize
  have hlive : live (toEntry k loc) = true ↔ loc.segmentId ≠ INVALID_SEGMENT_ID := by
    rw [live, Bool.and_eq_true, decide_eq_true_eq]
    simp [toEntry]
  rw [Dropped, not_and_or, hlive, Bool.not_eq_false, hcontains, not_not, Files.Disguised]
  exact or_left_comm

structure Verified (disk : Disk) (s : Shard) : Prop where
  sound : ∀ k loc, s.tree.lookup k = some loc →
    s.files.InBounds loc ∧ (s.storageManager.read (toEntry k loc)).length = loc.size
  complete : ∀ k loc, disk.view k = some loc → s.files.InBounds loc → s.tree.lookup k = some loc

/-- The boot leaves just the entries that are in bounds, unless INDEX has one that is disguised, or
one that is overlooked, and is not in bounds. -/
theorem verification_sound_iff (settings : Settings) (ch fill : Choice) (disk : Disk) :
    Verified disk (reopen settings ch fill disk) ↔
      ∀ k loc, disk.view k = some loc →
        (StorageManager.booted disk.segs).files.Disguised loc ∨ Overlooked ch disk (toEntry k loc) →
        (StorageManager.booted disk.segs).files.InBounds loc := by
  have hsm := reopen_storage settings ch fill disk
  have hfiles : (reopen settings ch fill disk).files = (StorageManager.booted disk.segs).files := by
    rw [files, hsm]
  constructor
  · intro h k loc hk hbad
    rw [← hfiles]
    refine (h.sound k loc ((reopen_lookup settings ch fill disk k loc).mpr ⟨hk, ?_⟩)).1
    exact hbad.elim (fun hdis => .inr ((dropped_iff hk).mpr (.inr hdis))) .inl
  · intro h
    refine ⟨fun k loc hleft => ?_, fun k loc hk hin => ?_⟩
    · obtain ⟨hk, hkept⟩ := (reopen_lookup settings ch fill disk k loc).mp hleft
      have hin : (StorageManager.booted disk.segs).files.InBounds loc :=
        hkept.elim (fun hout => h k loc hk (.inr hout)) fun hd => ((dropped_iff hk).mp hd).elim id
          fun hdis =>
          h k loc hk (.inl hdis)
      rw [hfiles, hsm]
      exact ⟨hin, StorageManager.read_length (toEntry k loc) hin⟩
    · rw [hfiles] at hin
      exact (reopen_lookup settings ch fill disk k loc).mpr
        ⟨hk, .inr ((dropped_iff hk).mpr (.inl hin))⟩

def oneEntry (loc : Location) : Disk := ⟨(toEntry (ascii "a") loc).serialize, ∅, []⟩

/-- An entry whose end is 2^64, and one of the segment id that is skipped, stay in the index. -/
theorem oneEntry_not_verified :
    ¬ Verified (oneEntry ⟨2 ^ 64 - 1, 1, 1⟩)
    (reopen {} .plain .plain (oneEntry ⟨2 ^ 64 - 1, 1, 1⟩)) ∧
      ¬ Verified (oneEntry ⟨0, 2 ^ 32 - 1, 1⟩)
      (reopen {} .plain .plain (oneEntry ⟨0, 2 ^ 32 - 1, 1⟩)) := by
  constructor
  · intro h
    have hleft : (reopen {} .plain .plain (oneEntry ⟨2 ^ 64 - 1, 1, 1⟩)).tree.lookup (ascii "a") =
        some ⟨2 ^ 64 - 1, 1, 1⟩ := by
      decide +kernel
    obtain ⟨-, hlen⟩ := h.sound _ _ hleft
    revert hlen
    decide +kernel
  · intro h
    have hleft : (reopen {} .plain .plain (oneEntry ⟨0, 2 ^ 32 - 1, 1⟩)).tree.lookup (ascii "a") =
        some ⟨0, 2 ^ 32 - 1, 1⟩ := by
      decide +kernel
    obtain ⟨-, hlen⟩ := h.sound _ _ hleft
    revert hlen
    decide +kernel

end Shard

end Zest
