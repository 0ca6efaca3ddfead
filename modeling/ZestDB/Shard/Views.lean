import ZestDB.Shard.Moves

/-! The indexes that a crash can leave: each one is the index of some moment since INDEX was last
flushed. A step adds at most the index it ends with. -/

namespace Zest.Shard

open Foundations

variable {A : Key → Value → Prop} {B : Key → Prop} {s t : Shard} {rs ts : List IndexEntry}

def Views (s : Shard) (f : Key → Option Location) : Prop :=
  ∃ file, s.indexManager.index.Survives file ∧
    f = fun k => (IndexManager.loadIndexIntoMemory file).memoryTree.lookup k

structure LogOk (im : IndexManager) (rs ts : List IndexEntry) : Prop where
  log : im.Log rs ts
  location : ∀ e ∈ rs ++ ts, e.isTombstone = false → LocationOk e.location

def Logged (s : Shard) : Prop := ∃ rs ts, LogOk s.indexManager rs ts

lemma LogOk.view (h : LogOk s.indexManager rs ts) {m : ℕ} :
    s.Views fun k => (Tree.applyAll ∅ (rs ++ ts.take m)).lookup k := by
  have hpre : indexCodec.encodeAll (ts.take m) <+: indexCodec.encodeAll ts := by
    refine ⟨indexCodec.encodeAll (ts.drop m), ?_⟩
    rw [← RecordCodec.encodeAll_append, List.take_append_drop]
  rw [← h.log.pending] at hpre
  refine ⟨_, ⟨indexCodec.encodeAll (ts.take m), hpre, rfl⟩, ?_⟩
  have hd : indexCodec.decodeAll (s.indexManager.index.synced ++ indexCodec.encodeAll (ts.take m)) =
      (rs ++ ts.take m, []) := by
    rw [h.log.synced, ← RecordCodec.encodeAll_append]
    refine indexCodec.decodeAll_encodeAll _ fun e he => h.log.fits e ?_
    rcases List.mem_append.mp he with he | he
    · simp [he]
    · simp [List.mem_of_mem_take he]
  simp only [IndexManager.loadIndexIntoMemory, hd]

lemma LogOk.views_iff (h : LogOk s.indexManager rs ts) (f : Key → Option Location) :
    s.Views f ↔ ∃ m ≤ ts.length, f = fun k => (Tree.applyAll ∅ (rs ++ ts.take m)).lookup k := by
  constructor
  · rintro ⟨file, hs, rfl⟩
    obtain ⟨m, hm, hl⟩ := h.log.load hs
    refine ⟨m, hm, ?_⟩
    funext k
    rw [hl.tree, List.append_nil]
  · rintro ⟨m, -, rfl⟩
    exact h.view

lemma LogOk.flushed_views (h : LogOk s.indexManager rs []) {f : Key → Option Location}
    (hf : s.Views f) :
    f = fun k => s.tree.lookup k := by
  obtain ⟨m, -, rfl⟩ := (h.views_iff f).mp hf
  funext k
  rw [tree, h.log.tree k, List.take_nil]

lemma LogOk.append (h : LogOk s.indexManager rs ts) {e : IndexEntry}
    (ht : LogOk t.indexManager rs (ts ++ [e]))
    {f : Key → Option Location} (hf : t.Views f) : s.Views f ∨ f = fun k => t.tree.lookup k := by
  obtain ⟨m, hm, rfl⟩ := (ht.views_iff f).mp hf
  rcases Nat.lt_or_ge ts.length m with hlt | hle
  · right
    funext k
    rw [tree, ht.log.tree k, List.take_of_length_le (by simpa using hlt)]
  · left
    rw [List.take_append_of_le_length hle]
    exact h.view

lemma LogOk.snoc (h : LogOk s.indexManager rs ts) {im : IndexManager} {e : IndexEntry}
    (hi : im.Log rs (ts ++ [e]))
    (he : e.isTombstone = false → LocationOk e.location) : LogOk im rs (ts ++ [e]) := by
  refine ⟨hi, fun r hr hr' => ?_⟩
  rw [← List.append_assoc] at hr
  rcases List.mem_append.mp hr with hr | hr
  · exact h.location r hr hr'
  · rw [List.mem_singleton.mp hr] at hr' ⊢
    exact he hr'

lemma LogOk.location_of_lookup (h : LogOk s.indexManager rs ts) {k : Key} {loc : Location}
    (hk : s.tree.lookup k = some loc) : LocationOk loc := by
  rw [tree, h.log.tree] at hk
  exact h.location _ (Tree.lookup_applyAll_some hk) rfl

lemma LocationOk.fits {e : IndexEntry} (h : LocationOk e.location)
    (hk : e.key.length ≤ MAX_KEY_SIZE) : e.Fits where
  key := hk
  offset := by
    have := h.finish
    simp only [IndexEntry.location] at this
    omega
  segmentId := by
    have := h.segmentId
    simp only [IndexEntry.location, INVALID_SEGMENT_ID] at this
    omega
  size := h.size

lemma LogOk.insert (h : LogOk s.indexManager rs ts) {e : IndexEntry}
    (hk : e.key.length ≤ MAX_KEY_SIZE) (he : LocationOk e.location) (hl : e.isTombstone = false) :
    LogOk (s.indexManager.insert e) rs (ts ++ [e]) :=
  h.snoc (h.log.insert (he.fits hk) hl) fun _ => he

lemma LogOk.bury (h : LogOk s.indexManager rs ts) {k : Key} {loc : Location}
    (hk : s.tree.lookup k = some loc) :
    LogOk (bury k (toEntry k loc) s).indexManager rs
    (ts ++ [{ toEntry k loc with isTombstone := true }]) := by
  have hf := h.log.entry_fits hk
  exact h.snoc (h.log.update_tombstone hk ⟨hf.key, hf.offset, hf.segmentId, hf.size⟩) (by simp)

lemma LogOk.flush (h : LogOk s.indexManager rs ts) : LogOk s.indexManager.flush (rs ++ ts) [] :=
  ⟨h.log.flush, by simpa using h.location⟩

lemma LogOk.compact (h : LogOk s.indexManager rs ts) (hfew : s.FewKeys) (ch : Choice) :
    LogOk (s.indexManager.compact ch) (s.indexManager.getAll ch) [] := by
  refine ⟨h.log.compact hfew ch, fun e he _ => ?_⟩
  obtain ⟨loc, hl, hee⟩ := IndexManager.mem_of_mem_getAll (by simpa using he)
  rw [hee]
  exact h.location_of_lookup hl

theorem Move.views (hm : Move A B s t) (hk : ∀ k v, A k v → k.length ≤ MAX_KEY_SIZE)
    (hl : s.Logged) :
    t.Logged ∧ ∀ f, t.Views f → s.Views f ∨ f = fun k => t.tree.lookup k := by
  obtain ⟨rs, ts, h⟩ := hl
  cases hm with
  | grow | recache | flushing | remove => exact ⟨⟨rs, ts, h⟩, fun f hf => Or.inl hf⟩
  | @put e v hA hd =>
    have ht := h.insert (hk _ _ hA) hd.ok.location hd.live
    exact ⟨⟨rs, _, ht⟩, fun f hf => h.append (t := putIndex e v s) ht hf⟩
  | @relocate e loc hlook hd =>
    have hkey : e.key.length ≤ MAX_KEY_SIZE := (h.log.entry_fits hlook).key
    have ht := h.insert hkey hd.ok.location hd.live
    exact ⟨⟨rs, _, ht⟩, fun f hf =>
      h.append (t := { s with indexManager := s.indexManager.insert e }) ht hf⟩
  | @bury k loc hB hlook =>
    have ht := h.bury hlook
    exact ⟨⟨rs, _, ht⟩, fun f hf => h.append ht hf⟩
  | flushIndex =>
    have ht : LogOk ({ s with indexManager := s.indexManager.flush } : Shard).indexManager _ [] :=
      h.flush
    exact ⟨⟨_, [], ht⟩, fun f hf => Or.inr (ht.flushed_views hf)⟩
  | compactIndex ch hfew =>
    have ht : LogOk ({ s with indexManager := s.indexManager.compact ch } : Shard).indexManager _
        [] := h.compact hfew ch
    exact ⟨⟨_, [], ht⟩, fun f hf => Or.inr (ht.flushed_views hf)⟩

lemma Logged.view_tree (hl : s.Logged) : s.Views fun k => s.tree.lookup k := by
  obtain ⟨rs, ts, h⟩ := hl
  refine (h.views_iff _).mpr ⟨ts.length, le_rfl, ?_⟩
  funext k
  rw [tree, h.log.tree k, List.take_length]

lemma Move.grows_or (hm : Move A B s t) (hl : s.Logged) :
    s.files.Grows t.files ∨ ∀ f, t.Views f → f = fun k => t.tree.lookup k := by
  cases hm with
  | grow v ha => exact Or.inl ha.grows
  | flushing hf =>
    refine Or.inl ?_
    change s.storageManager.files.Grows _
    rw [← hf.files_eq]
    exact .refl _
  | put | relocate | bury | recache | flushIndex | compactIndex => exact Or.inl (.refl _)
  | remove hr hp hu =>
    refine Or.inr fun f hf => ?_
    obtain ⟨file, hs, rfl⟩ := hf
    obtain ⟨file', hs', hview⟩ := hl.view_tree
    obtain rfl : file = file' := (hs.eq_of_flushed hp).trans (hs'.eq_of_flushed hp).symm
    exact hview.symm

lemma Path.logged (hp : Path A B s t) (hk : ∀ k v, A k v → k.length ≤ MAX_KEY_SIZE)
    (hl : s.Logged) : t.Logged := by
  induction hp with
  | refl => exact hl
  | tail _ hm ih => exact (hm.views hk ih).1

end Zest.Shard
