import ZestDB.Shard.Defs
import ZestDB.Index.Log
import ZestDB.Cache.WellFormed
import ZestDB.Storage.Maintenance
import Mathlib.Logic.Relation

/-! What one step of a shard can do to its files, its index and its cache, said once for every
operation, and the invariant that each step keeps. -/

namespace Zest.Shard

open Foundations

def tree (s : Shard) : Tree := s.indexManager.memoryTree

def files (s : Shard) : Files := s.storageManager.files

def FewKeys (s : Shard) : Prop := s.indexManager.FewKeys

instance (s : Shard) : Decidable s.FewKeys := inferInstanceAs (Decidable s.indexManager.FewKeys)

def toMap (s : Shard) : Key → Option Value := fun k => (s.tree.lookup k).map s.files.slice

structure LocationOk (loc : Location) : Prop where
  pos : 0 < loc.size
  size : loc.size < 2 ^ 32
  segmentId : loc.segmentId < INVALID_SEGMENT_ID
  finish : loc.offset + loc.size < 2 ^ 64

structure EntryOk (fs : Files) (loc : Location) : Prop where
  inBounds : fs.InBounds loc
  location : LocationOk loc

def CachedOk (s : Shard) (k : Key) (ce : CacheEntry) : Prop :=
  live ce.index = true ∧ ∃ loc, s.tree.lookup k = some loc ∧ s.files.slice loc = ce.value

structure Inv (s : Shard) : Prop where
  storage : s.storageManager.Wf
  cache : s.cache.Wf
  entry : ∀ k loc, s.tree.lookup k = some loc → EntryOk s.files loc
  cached : ∀ k ce, s.cache.find k = some ce → s.CachedOk k ce

structure Designates (s : Shard) (e : IndexEntry) (v : Value) : Prop where
  ok : EntryOk s.files e.location
  slice : s.files.slice e.location = v
  live : e.isTombstone = false

/-- One step: values are only put for keys and values in `A`, and keys are only buried in `B`. -/
inductive Move (A : Key → Value → Prop) (B : Key → Prop) : Shard → Shard → Prop
  | grow {s sm} (v : Value) : StorageManager.Appending s.storageManager v sm →
      Move A B s { s with storageManager := sm }
  | put {s e v} : A e.key v → s.Designates e v → Move A B s (putIndex e v s)
  | relocate {s e loc} : s.tree.lookup e.key = some loc → s.Designates e (s.files.slice loc) →
      Move A B s { s with indexManager := s.indexManager.insert e }
  | bury {s k loc} : B k → s.tree.lookup k = some loc → Move A B s (bury k (toEntry k loc) s)
  | recache {s c} : c.Wf →
      (∀ k ce, c.find k = some ce → s.cache.find k = some ce ∨ s.CachedOk k ce) →
      Move A B s { s with cache := c }
  | flushing {s sm} : StorageManager.Flushing s.storageManager sm →
      Move A B s { s with storageManager := sm }
  | flushIndex {s} : Move A B s { s with indexManager := s.indexManager.flush }
  | compactIndex {s} (ch : Choice) : s.FewKeys →
      Move A B s { s with indexManager := s.indexManager.compact ch }
  | remove {s used sm} : StorageManager.Removing used s.storageManager sm →
      s.indexManager.index.pending = [] →
      (∀ k loc, s.tree.lookup k = some loc → loc.segmentId ∈ used) →
        Move A B s { s with storageManager := sm }

abbrev Path (A : Key → Value → Prop) (B : Key → Prop) : Shard → Shard → Prop :=
  Relation.ReflTransGen (Move A B)

variable {A A' : Key → Value → Prop} {B B' : Key → Prop} {s t : Shard}

lemma EntryOk.mono {fs gs : Files} {loc : Location} (h : EntryOk fs loc) (hg : fs.Grows gs) :
    EntryOk gs loc :=
  ⟨h.inBounds.mono hg, h.location⟩

lemma insert_lookup (s : Shard) (e : IndexEntry) (k : Key) :
    (s.indexManager.insert e).memoryTree.lookup k = if k = e.key then
      some e.location else s.tree.lookup k :=
  AList.lookup_insert_ite _ _ _ _

lemma bury_tree {k : Key} {loc : Location} (h : s.tree.lookup k = some loc) :
    (bury k (toEntry k loc) s).tree = s.tree.erase k := by
  simp only [tree] at h
  simp only [tree, Shard.bury, IndexManager.update, h, if_true]

lemma Inv.of_files (h : s.Inv) {sm : StorageManager} (hw : sm.Wf)
    (hf : ∀ loc, EntryOk s.files loc → (∃ k, s.tree.lookup k = some loc) →
      EntryOk sm.files loc ∧ sm.files.slice loc = s.files.slice loc) :
    ({ s with storageManager := sm } : Shard).Inv ∧
    ({ s with storageManager := sm } : Shard).toMap = s.toMap := by
  refine ⟨⟨hw, h.cache, fun k loc hk => (hf loc (h.entry k loc hk) ⟨k, hk⟩).1, fun k ce hc => ?_⟩,
    ?_⟩
  · obtain ⟨hl, loc, hk, hs⟩ := h.cached k ce hc
    exact ⟨hl, loc, hk, (hf loc (h.entry k loc hk) ⟨k, hk⟩).2.trans hs⟩
  · funext k
    change (s.tree.lookup k).map sm.files.slice = (s.tree.lookup k).map s.files.slice
    cases hk : s.tree.lookup k with
    | none => rfl
    | some loc => simp [(hf loc (h.entry k loc hk) ⟨k, hk⟩).2]

lemma Inv.grow (h : s.Inv) {sm : StorageManager} (hw : sm.Wf) (hg : s.files.Grows sm.files) :
    ({ s with storageManager := sm } : Shard).Inv ∧
    ({ s with storageManager := sm } : Shard).toMap = s.toMap :=
  h.of_files hw fun _ hok _ => ⟨hok.mono hg, hok.inBounds.slice_eq hg⟩

lemma Inv.insert (h : s.Inv) {e : IndexEntry} {v : Value} (hd : s.Designates e v) {c : LRUCache}
    (hc : c.Wf)
    (hf : ∀ k ce, c.find k = some ce → (k = e.key ∧ live ce.index = true ∧ ce.value = v) ∨
      (k ≠ e.key ∧ s.cache.find k = some ce)) :
    ({ s with indexManager := s.indexManager.insert e, cache := c } : Shard).Inv ∧
    ({ s with indexManager := s.indexManager.insert e, cache := c } : Shard).toMap =
      Function.update s.toMap e.key (some v) := by
  refine ⟨⟨h.storage, hc, fun k loc hk => ?_, fun k ce hk => ?_⟩, ?_⟩
  · change (s.indexManager.insert e).memoryTree.lookup k = some loc at hk
    rw [insert_lookup] at hk
    split_ifs at hk
    · obtain rfl : e.location = loc := by simpa using hk
      exact hd.ok
    · exact h.entry k loc hk
  · rcases hf k ce hk with ⟨rfl, hl, hv⟩ | ⟨hne, hk⟩
    · refine ⟨hl, e.location, ?_, hd.slice.trans hv.symm⟩
      exact (insert_lookup s e e.key).trans (if_pos rfl)
    · obtain ⟨hl, loc, hk, hs⟩ := h.cached k ce hk
      exact ⟨hl, loc, ((insert_lookup s e k).trans (if_neg hne)).trans hk, hs⟩
  · funext k
    change ((s.indexManager.insert e).memoryTree.lookup k).map s.files.slice = _
    rw [insert_lookup, Function.update_apply]
    split_ifs
    · rw [Option.map_some, hd.slice]
    · rfl

lemma Designates.live_entry {e : IndexEntry} {v : Value} (hd : s.Designates e v) :
    Shard.live e = true := by
  have hne : e.segmentId ≠ INVALID_SEGMENT_ID := hd.ok.location.segmentId.ne
  simp [Shard.live, hd.live, hne]

lemma Inv.putIndex (h : s.Inv) {e : IndexEntry} {v : Value} (hd : s.Designates e v) :
    (putIndex e v s).Inv ∧ (putIndex e v s).toMap = Function.update s.toMap e.key (some v) := by
  refine h.insert hd (LRUCache.put_wf h.cache e v) fun k ce hc => ?_
  rcases LRUCache.put_find h.cache hc with ⟨hk, rfl⟩ | hk
  · exact Or.inl ⟨hk, hd.live_entry, rfl⟩
  · exact Or.inr hk

lemma Inv.relocate (h : s.Inv) {e : IndexEntry} {loc : Location}
    (hk : s.tree.lookup e.key = some loc) (hd : s.Designates e (s.files.slice loc)) :
    ({ s with indexManager := s.indexManager.insert e } : Shard).Inv ∧
    ({ s with indexManager := s.indexManager.insert e } : Shard).toMap = s.toMap := by
  have hm : s.toMap e.key = some (s.files.slice loc) := by simp [toMap, hk]
  have := h.insert hd h.cache fun k ce hc => by
    by_cases hke : k = e.key
    · subst hke
      obtain ⟨hl, loc', hk', hs⟩ := h.cached _ ce hc
      obtain rfl : loc = loc' := by simpa [hk] using hk'
      exact Or.inl ⟨rfl, hl, hs.symm⟩
    · exact Or.inr ⟨hke, hc⟩
  rwa [← hm, Function.update_eq_self] at this

lemma Inv.bury (h : s.Inv) {k : Key} {loc : Location} (hk : s.tree.lookup k = some loc) :
    (bury k (toEntry k loc) s).Inv ∧ (bury k (toEntry k loc) s).toMap =
      Function.update s.toMap k none := by
  have ht := bury_tree hk
  refine ⟨⟨h.storage, LRUCache.remove_wf h.cache k, fun j l hj => ?_, fun j ce hj => ?_⟩, ?_⟩
  · rw [ht, AList.lookup_erase_ite] at hj
    split_ifs at hj
    exact h.entry j l hj
  · obtain ⟨hne, hj⟩ := LRUCache.remove_find hj
    obtain ⟨hl, l, hj, hs⟩ := h.cached j ce hj
    exact ⟨hl, l, by rw [ht, AList.lookup_erase_ite, if_neg hne, hj], hs⟩
  · funext j
    simp only [toMap, ht, AList.lookup_erase_ite, Function.update_apply]
    split_ifs
    · rfl
    · rfl

lemma Inv.recache (h : s.Inv) {c : LRUCache} (hw : c.Wf)
    (hc : ∀ k ce, c.find k = some ce → s.cache.find k = some ce ∨ s.CachedOk k ce) :
    ({ s with cache := c } : Shard).Inv := by
  refine ⟨h.storage, hw, h.entry, fun k ce hk => ?_⟩
  rcases hc k ce hk with hk | hk
  · exact h.cached k ce hk
  · exact hk

lemma flush_tree (im : IndexManager) : im.flush.memoryTree = im.memoryTree := by
  simp only [IndexManager.flush]
  split_ifs <;> rfl

lemma Inv.of_tree (h : s.Inv) {im : IndexManager} (ht : im.memoryTree = s.indexManager.memoryTree) :
    ({ s with indexManager := im } : Shard).Inv ∧ ({ s with indexManager := im } : Shard).toMap =
      s.toMap := by
  have he : ({ s with indexManager := im } : Shard).tree = s.tree := ht
  refine ⟨⟨h.storage, h.cache, ?_, ?_⟩, ?_⟩
  · rw [he]
    exact h.entry
  · simp only [CachedOk]
    rw [he]
    exact h.cached
  · unfold toMap
    rw [he]
    rfl

lemma Inv.remove (h : s.Inv) {used : List ℕ} {sm : StorageManager}
    (hr : StorageManager.Removing used s.storageManager sm)
    (hu : ∀ k loc, s.tree.lookup k = some loc → loc.segmentId ∈ used) :
    ({ s with storageManager := sm } : Shard).Inv ∧
    ({ s with storageManager := sm } : Shard).toMap = s.toMap := by
  refine h.of_files (hr.wf h.storage) fun loc hok ⟨k, hk⟩ => ?_
  have hf : sm.files loc.segmentId = s.files loc.segmentId := hr.files_used (hu k loc hk)
  refine ⟨⟨?_, hok.location⟩, by simp only [Files.slice, hf]⟩
  simp only [Files.InBounds]
  rw [hf]
  exact hok.inBounds

theorem Move.inv (hm : Move A B s t) (h : s.Inv) :
    t.Inv ∧ (t.toMap = s.toMap ∨ (∃ k v, A k v ∧ t.toMap = Function.update s.toMap k (some v)) ∨
      ∃ k, B k ∧ t.toMap = Function.update s.toMap k none) := by
  cases hm with
  | grow v ha =>
    obtain ⟨hi, he⟩ := h.grow (ha.wf h.storage) ha.grows
    exact ⟨hi, Or.inl he⟩
  | @put e v hA hd =>
    obtain ⟨hi, he⟩ := h.putIndex hd
    exact ⟨hi, Or.inr (Or.inl ⟨e.key, v, hA, he⟩)⟩
  | relocate hk hd =>
    obtain ⟨hi, he⟩ := h.relocate hk hd
    exact ⟨hi, Or.inl he⟩
  | @bury k loc hB hk =>
    obtain ⟨hi, he⟩ := h.bury hk
    exact ⟨hi, Or.inr (Or.inr ⟨k, hB, he⟩)⟩
  | recache hw hc => exact ⟨h.recache hw hc, Or.inl rfl⟩
  | flushing hf =>
    obtain ⟨hi, he⟩ := h.grow (hf.wf h.storage) (by rw [hf.files_eq]; exact Files.Grows.refl _)
    exact ⟨hi, Or.inl he⟩
  | flushIndex =>
    obtain ⟨hi, he⟩ := h.of_tree (flush_tree s.indexManager)
    exact ⟨hi, Or.inl he⟩
  | compactIndex ch =>
    obtain ⟨hi, he⟩ := h.of_tree (show (s.indexManager.compact ch).memoryTree = _ from rfl)
    exact ⟨hi, Or.inl he⟩
  | remove hr _ hu =>
    obtain ⟨hi, he⟩ := h.remove hr hu
    exact ⟨hi, Or.inl he⟩

theorem Path.inv (hp : Path A B s t) (h : s.Inv) : t.Inv := by
  induction hp with
  | refl => exact h
  | tail _ hm ih => exact (hm.inv ih).1

lemma Path.toMap_cases (hp : Path A B s t) (h : s.Inv) (k : Key) :
    t.toMap k = s.toMap k ∨ (∃ v, A k v ∧ t.toMap k = some v) ∨ (B k ∧ t.toMap k = none) := by
  induction hp with
  | refl => exact Or.inl rfl
  | tail hp hm ih =>
    rcases (hm.inv (Path.inv hp h)).2 with he | ⟨j, v, hA, he⟩ | ⟨j, hB, he⟩
    · rwa [he]
    · by_cases hk : k = j
      · subst hk
        exact Or.inr (Or.inl ⟨v, hA, by simp [he]⟩)
      · rwa [he, Function.update_of_ne hk]
    · by_cases hk : k = j
      · subst hk
        exact Or.inr (Or.inr ⟨hB, by simp [he]⟩)
      · rwa [he, Function.update_of_ne hk]

lemma Path.toMap_eq (hp : Path (fun _ _ => False) (fun _ => False) s t) (h : s.Inv) :
    t.toMap = s.toMap := by
  funext k
  simpa using hp.toMap_cases h k

lemma Move.frame (hm : Move A B s t) : t.settings = s.settings ∧ t.wal = s.wal := by
  cases hm <;> exact ⟨rfl, rfl⟩

lemma Path.frame (hp : Path A B s t) : t.settings = s.settings ∧ t.wal = s.wal := by
  induction hp with
  | refl => exact ⟨rfl, rfl⟩
  | tail _ hm ih => exact ⟨hm.frame.1.trans ih.1, hm.frame.2.trans ih.2⟩

lemma Move.mono (hA : ∀ k v, A k v → A' k v) (hB : ∀ k, B k → B' k) (hm : Move A B s t) :
    Move A' B' s t := by
  cases hm with
  | grow v ha => exact .grow v ha
  | put h hd => exact .put (hA _ _ h) hd
  | relocate hk hd => exact .relocate hk hd
  | bury h hk => exact .bury (hB _ h) hk
  | recache hw hc => exact .recache hw hc
  | flushing hf => exact .flushing hf
  | flushIndex => exact .flushIndex
  | compactIndex ch hfew => exact .compactIndex ch hfew
  | remove hr hp hu => exact .remove hr hp hu

lemma Path.mono (hA : ∀ k v, A k v → A' k v) (hB : ∀ k, B k → B' k) (hp : Path A B s t) :
    Path A' B' s t :=
  Relation.ReflTransGen.mono (fun _ _ hm => hm.mono hA hB) _ _ hp

end Zest.Shard
