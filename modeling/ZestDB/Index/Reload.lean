import ZestDB.Index.Log

/-! INDEX with a torn tail: what loading it gives, and what the records that come later add to
it. -/

namespace Zest

open Foundations

inductive IndexUpdate where
  | insert (entry : IndexEntry)
  | update (key : Key) (entry : IndexEntry)

namespace IndexUpdate

variable {im : IndexManager} {u : IndexUpdate} {us : List IndexUpdate}

def Fits : IndexUpdate → Prop
  | .insert entry => entry.Fits
  | .update key entry => ({ entry with key := key } : IndexEntry).Fits

def run (im : IndexManager) : IndexUpdate → IndexManager
  | .insert entry => im.insert entry
  | .update key entry => im.update key entry

def records (im : IndexManager) : IndexUpdate → List IndexEntry
  | .insert entry => [entry]
  | .update key entry => if (im.memoryTree.lookup key).isSome then
      [{ entry with key := key }] else []

def runAll (us : List IndexUpdate) (im : IndexManager) : IndexManager := us.foldl run im

def recordsAll : List IndexUpdate → IndexManager → List IndexEntry
  | [], _ => []
  | u :: us, im => u.records im ++ recordsAll us (u.run im)

lemma run_content (im : IndexManager) (u : IndexUpdate) :
    (u.run im).index.content = im.index.content ++ indexCodec.encodeAll (u.records im) := by
  rw [indexCodec_encodeAll]
  cases u with
  | insert entry => simp [run, records, IndexManager.insert, IndexManager.append]
  | update key entry =>
    simp only [run, records, IndexManager.update]
    cases im.memoryTree.lookup key with
    | none => simp
    | some loc => cases entry.isTombstone <;> simp [IndexManager.append]

lemma runAll_content (us : List IndexUpdate) (im : IndexManager) :
    (runAll us im).index.content = im.index.content ++ indexCodec.encodeAll (recordsAll us im) := by
  induction us generalizing im with
  | nil => simp [runAll, recordsAll]
  | cons u us ih =>
    change (runAll us (u.run im)).index.content = _
    rw [ih, run_content, recordsAll, RecordCodec.encodeAll_append, List.append_assoc]

lemma records_fit (h : u.Fits) : ∀ e ∈ u.records im, e.Fits := by
  intro e he
  cases u with
  | insert entry =>
    obtain rfl : e = entry := by simpa [records] using he
    exact h
  | update key entry =>
    simp only [records] at he
    split_ifs at he
    · obtain rfl := List.mem_singleton.mp he
      exact h
    · cases he

lemma recordsAll_fit (h : ∀ u ∈ us, u.Fits) : ∀ e ∈ recordsAll us im, e.Fits := by
  induction us generalizing im with
  | nil => simp [recordsAll]
  | cons u us ih =>
    intro e he
    rcases List.mem_append.mp he with he | he
    · exact records_fit (h u (by simp)) e he
    · exact ih (fun v hv => h v (by simp [hv])) e he

end IndexUpdate

namespace IndexManager

variable {im : IndexManager} {rs : List IndexEntry} {t : Bytes}

lemma load_encodeAll (hr : ∀ e ∈ rs, e.Fits) :
    (loadIndexIntoMemory (indexCodec.encodeAll rs)).memoryTree = Tree.applyAll ∅ rs := by
  rw [loadIndexIntoMemory, indexCodec.decodeAll_encodeAll rs hr]

lemma load_append (hr : ∀ e ∈ rs, e.Fits) (ht : IndexEntry.deserialize t = none) :
    loadIndexIntoMemory (indexCodec.encodeAll rs ++ t) =
      ⟨Tree.applyAll ∅ rs, .ofContent (indexCodec.encodeAll rs), false⟩ := by
  simp only [loadIndexIntoMemory, indexCodec.decodeAll_append rs hr t ht, List.length_append,
    Nat.add_sub_cancel, List.take_left' rfl]

lemma getAll_fit (hr : ∀ e ∈ rs, e.Fits) (htree : im.memoryTree = Tree.applyAll ∅ rs)
    (ch : Choice) :
    ∀ e ∈ im.getAll ch, e.Fits := by
  intro e he
  obtain ⟨loc, hl, heq⟩ := mem_of_mem_getAll he
  rw [htree] at hl
  rw [heq]
  exact hr _ (Tree.lookup_applyAll_some hl)

lemma lookup_applyAll_congr {t u : Tree} (h : ∀ k, t.lookup k = u.lookup k) (es : List IndexEntry)
    (k : Key) :
    (t.applyAll es).lookup k = (u.applyAll es).lookup k := by
  induction es generalizing t u with
  | nil => exact h k
  | cons e es ih =>
    refine ih fun j => ?_
    rw [Tree.lookup_apply, Tree.lookup_apply, h]

/-- INDEX with a tail that does not begin with a record: loading gives the map of the records and
cuts the tail off, and whatever is inserted or updated then, at once or after the compaction of the
constructor, the next load gives the map of all records in their order. -/
structure Reloads (rs : List IndexEntry) (t : Bytes) : Prop where
  tree : (loadIndexIntoMemory (rs.flatMap IndexEntry.serialize ++ t)).memoryTree =
    Tree.applyAll ∅ rs
  cut : (loadIndexIntoMemory (rs.flatMap IndexEntry.serialize ++ t)).index =
    .ofContent (rs.flatMap IndexEntry.serialize)
  again : ∀ im, im = loadIndexIntoMemory (rs.flatMap IndexEntry.serialize ++ t) ∨
      (∃ ch, im = (loadIndexIntoMemory (rs.flatMap IndexEntry.serialize ++ t)).compact ch) →
    ∀ us : List IndexUpdate, (∀ u ∈ us, u.Fits) → ∀ k,
      (loadIndexIntoMemory (IndexUpdate.runAll us im).index.content).memoryTree.lookup k =
        (Tree.applyAll ∅ (rs ++ IndexUpdate.recordsAll us im)).lookup k

lemma load_runAll (hr : ∀ e ∈ rs, e.Fits) (hc : im.index.content = indexCodec.encodeAll rs)
    {us : List IndexUpdate} (hus : ∀ u ∈ us, u.Fits) :
    (loadIndexIntoMemory (IndexUpdate.runAll us im).index.content).memoryTree =
      Tree.applyAll ∅ (rs ++ IndexUpdate.recordsAll us im) := by
  rw [IndexUpdate.runAll_content, hc, ← RecordCodec.encodeAll_append]
  refine load_encodeAll fun e he => ?_
  rcases List.mem_append.mp he with he | he
  · exact hr e he
  · exact IndexUpdate.recordsAll_fit hus e he

lemma compact_content (im : IndexManager) (ch : Choice) :
    (im.compact ch).index.content = indexCodec.encodeAll (im.getAll ch) := by
  rw [compact, BufferedFile.content_ofContent, indexCodec_encodeAll]

/-- The next load gives every record back exactly when the constructor has no more keys to write
than `getAll` hands over. -/
theorem load_torn_iff (hr : ∀ e ∈ rs, e.Fits) (ht : IndexEntry.deserialize t = none) :
    Reloads rs t ↔ (Tree.applyAll ∅ rs).keys.length ≤ UINT_MAX := by
  obtain ⟨loaded, hloaded⟩ :
      ∃ loaded, loaded = loadIndexIntoMemory (rs.flatMap IndexEntry.serialize ++ t) := ⟨_, rfl⟩
  have hload : loaded =
      ⟨Tree.applyAll ∅ rs, .ofContent (rs.flatMap IndexEntry.serialize), false⟩ := by
    rw [hloaded, ← indexCodec_encodeAll]
    exact load_append hr ht
  have htree : loaded.memoryTree = Tree.applyAll ∅ rs := by rw [hload]
  constructor
  · intro h
    by_contra hmany
    -- a key that the constructor does not write, and no update
    have hover : ¬ loaded.FewKeys := by rwa [FewKeys, htree]
    obtain ⟨k, hk, hleft⟩ := exists_left_out hover .plain
    have hnext := h.again (loaded.compact .plain) (.inr ⟨.plain, by rw [hloaded]⟩) [] (by simp) k
    rw [load_runAll (getAll_fit hr htree .plain) (compact_content loaded .plain) (by simp)] at hnext
    simp only [IndexUpdate.recordsAll, List.append_nil, ← htree] at hnext
    obtain ⟨loc, hl⟩ := AList.mem_iff_lookup.mp hk
    rw [Tree.lookup_applyAll_absent _ _ _ hleft, AList.lookup_empty, hl] at hnext
    cases hnext
  · intro hfew
    refine ⟨by rw [← hloaded, htree], by rw [← hloaded, hload], fun im him us hus k => ?_⟩
    rw [← hloaded] at him
    rcases him with rfl | ⟨ch, rfl⟩
    · rw [load_runAll hr ?_ hus]
      rw [hload, BufferedFile.content_ofContent, indexCodec_encodeAll]
    · rw [load_runAll (getAll_fit hr htree ch) (compact_content loaded ch) hus,
        Tree.applyAll_append, Tree.applyAll_append]
      refine lookup_applyAll_congr (fun k => ?_) _ k
      rw [applyAll_getAll (by rwa [FewKeys, htree]), htree]

theorem load_torn_deleted :
    Reloads [⟨ascii "a", 0, 1, 1, false⟩, ⟨ascii "a", 0, 1, 1, true⟩] [1, 0, 0] := by
  have hr : ∀ e ∈ [(⟨ascii "a", 0, 1, 1, false⟩ : IndexEntry), ⟨ascii "a", 0, 1, 1, true⟩],
      e.Fits := by
    intro e he
    rcases List.mem_pair.mp he with rfl | rfl
    · exact ⟨by decide, by decide, by decide, by decide⟩
    · exact ⟨by decide, by decide, by decide, by decide⟩
  exact (load_torn_iff hr (by decide)).mpr (by decide)

def manyRecords : List IndexEntry := manyKeys.map fun k => ⟨k, 0, 1, 1, false⟩

lemma manyRecords_fit : ∀ e ∈ manyRecords, e.Fits := by
  intro e he
  obtain ⟨k, hk, rfl⟩ := List.mem_map.mp he
  exact ⟨(length_of_mem_manyKeys hk).trans_le (by decide),
    Nat.two_pow_pos 64, by norm_num, by norm_num⟩

lemma manyRecords_lookup {k : Key} (hk : k ∈ manyKeys) :
    ∃ loc, (Tree.applyAll ∅ manyRecords).lookup k = some loc := by
  have hkeys : manyRecords.map IndexEntry.key = manyKeys := by
    rw [manyRecords, List.map_map]
    exact List.map_id _
  refine ⟨⟨0, 1, 1⟩, ?_⟩
  exact Tree.lookup_applyAll_mem ∅ manyRecords (hkeys ▸ manyKeys_nodup) ⟨k, 0, 1, 1, false⟩
    (List.mem_map.mpr ⟨k, hk, rfl⟩)

theorem manyRecords_not_reload :
    {e | e ∈ manyRecords} ⊆ {e | e.Fits} ∧ IndexEntry.deserialize [] = none ∧
    ¬ Reloads manyRecords [] := by
  refine ⟨manyRecords_fit, by decide, fun h => ?_⟩
  exact too_many (fun k hk => manyRecords_lookup hk)
    ((load_torn_iff manyRecords_fit (by decide)).mp h)

end IndexManager

end Zest
