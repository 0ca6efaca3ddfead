import ZestDB.Shard.Moves

/-! What each write of a shard returns, what it does to the map, and the steps it goes through. -/

namespace Zest.Shard

open Foundations

variable {A : Key → Value → Prop} {B : Key → Prop} {s t : Shard} {key : Key} {value : Value}
  {ch : Choice}

structure WithinLimits (s : Shard) : Prop where
  storage : s.storageManager.WithinLimits
  segSize : s.settings.SegSize < 2 ^ 64 - 1

instance (s : Shard) : Decidable s.WithinLimits :=
  decidable_of_iff (s.storageManager.WithinLimits ∧ s.settings.SegSize < 2 ^ 64 - 1)
    ⟨fun h => ⟨h.1, h.2⟩, fun h => ⟨h.storage, h.segSize⟩⟩

/-- The weaker limits under which a shard keeps its invariant, at the largest segment size too. -/
structure Bounded (s : Shard) : Prop where
  storage : s.storageManager.WithinLimits
  segSize : s.settings.SegSize < 2 ^ 64

instance (s : Shard) : Decidable s.Bounded :=
  decidable_of_iff (s.storageManager.WithinLimits ∧ s.settings.SegSize < 2 ^ 64)
    ⟨fun h => ⟨h.1, h.2⟩, fun h => ⟨h.storage, h.segSize⟩⟩

lemma WithinLimits.bounded {s : Shard} (h : s.WithinLimits) : s.Bounded :=
  ⟨h.storage, h.segSize.trans (by decide)⟩

/-- The values a shard is given: not empty, and of a length that fits the 32 bits of an index
entry. -/
structure ValueOk (v : Value) : Prop where
  ne_nil : v ≠ []
  length : v.length < 2 ^ 32

instance (v : Value) : Decidable (ValueOk v) :=
  decidable_of_iff (v ≠ [] ∧ v.length < 2 ^ 32) ⟨fun h => ⟨h.1, h.2⟩, fun h => ⟨h.ne_nil, h.length⟩⟩

/-- Every state of the run `o` is reached from `s` by steps. -/
structure Runs {α : Type} (A : Key → Value → Prop) (B : Key → Prop) (s : Shard)
    (o : Outcome Shard α) : Prop where
  final : Path A B s o.final
  visited : ∀ t ∈ o.visited, Path A B s t

lemma Runs.mono {α : Type} {C : Key → Value → Prop} {D : Key → Prop} {o : Outcome Shard α}
    (hA : ∀ k v, A k v → C k v) (hB : ∀ k, B k → D k) (h : Runs A B s o) : Runs C D s o :=
  ⟨h.final.mono hA hB, fun t ht => (h.visited t ht).mono hA hB⟩

lemma Runs.bind {α β : Type} {x : Traced Shard α} {f : α → Traced Shard β} (hx : Runs A B s (x s))
    (hf : Runs A B (x s).final (f (x s).val (x s).final)) : Runs A B s ((x >>= f) s) := by
  refine ⟨hx.final.trans hf.final, fun t ht => ?_⟩
  rcases List.mem_append.mp ht with ht | ht
  · exact hx.visited t ht
  · exact hx.final.trans (hf.visited t ht)

lemma Runs.after {α β : Type} {o : Outcome Shard α} {ts : List Shard} (ht : Path A B s t)
    (hts : ∀ u ∈ ts, Path A B s u) (ho : Runs A B t o) (b : β) :
    Runs A B s ⟨b, o.final, ts ++ o.visited⟩ := by
  refine ⟨ht.trans ho.final, fun u hu => ?_⟩
  rcases List.mem_append.mp hu with hu | hu
  · exact hts u hu
  · exact ht.trans (ho.visited u hu)

lemma Runs.pure {α : Type} (a : α) : Runs A B s ((Pure.pure a : Traced Shard α) s) :=
  ⟨.refl, by simp⟩

lemma Runs.step {f : Shard → Shard} (h : Move A B s (f s)) : Runs A B s (Traced.step f s) :=
  ⟨.single h, by simpa using Relation.ReflTransGen.single h⟩

lemma search_eq (s : Shard) (key : Key) :
    s.indexManager.search key = ((s.tree.lookup key).map (toEntry key)).getD .invalid := by
  simp only [IndexManager.search, tree]
  cases s.indexManager.memoryTree.lookup key <;> rfl

lemma Inv.live_entry (h : s.Inv) {loc : Location} (hk : s.tree.lookup key = some loc) :
    live (toEntry key loc) = true := by
  have := (h.entry key loc hk).location.segmentId.ne
  simp [live, toEntry, this]

/-- The shard after `append`, at its end or in the middle. -/
structure Grown (s : Shard) (value : Value) (t : Shard) : Prop where
  storage : ∃ sm, StorageManager.Growing value s.storageManager sm ∧
    t = { s with storageManager := sm }

lemma Grown.path (h : Grown s value t) : Path A B s t := by
  obtain ⟨sm, hg, rfl⟩ := h
  induction hg with
  | refl => exact .refl
  | tail _ ha ih => exact ih.tail (.grow value ha)

lemma Grown.settings_eq (h : Grown s value t) : t.settings = s.settings := by
  obtain ⟨sm, -, rfl⟩ := h.storage
  rfl

lemma Grown.tree_eq (h : Grown s value t) : t.tree = s.tree := by
  obtain ⟨sm, -, rfl⟩ := h.storage
  rfl

lemma Grown.inv (hg : Grown s value t) (h : s.Inv) : t.Inv ∧ t.toMap = s.toMap ∧ t.tree = s.tree :=
  ⟨Path.inv (A := fun _ _ => False) (B := fun _ => False) hg.path h, Path.toMap_eq hg.path h,
    hg.tree_eq⟩

lemma designates_of_appended {sm : StorageManager} {e : IndexEntry} (hv : ValueOk value)
    (ha : StorageManager.Appended s.storageManager sm value e) (k : Key) :
    ({ s with storageManager := sm } : Shard).Designates { e with key := k } value := by
  obtain ⟨hb, hs, hz, ht⟩ := ha.slice hv.length
  obtain ⟨seg, -, he, hlt, -, -⟩ := ha.segment
  have hoff := congrArg IndexEntry.offset he
  refine ⟨⟨hb, ⟨?_, ?_, ha.valid, ?_⟩⟩, hs, ht⟩
  · change 0 < e.size
    rw [hz]
    exact List.length_pos_of_ne_nil hv.ne_nil
  · change e.size < _
    rw [hz]
    exact hv.length
  · change e.offset + e.size < _
    rw [hz, hoff]
    exact hlt

lemma append_grown (h : s.Inv) (hz : s.settings.SegSize < 2 ^ 64) (hv : ValueOk value)
    (hw : Traced.Within Bounded (onStorage (StorageManager.append s.settings.SegSize value)) s) :
    ∃ e t ts, onStorage (StorageManager.append s.settings.SegSize value) s = ⟨e, t, ts⟩ ∧
      t ∈ ts ∧ (∀ u ∈ ts, Grown s value u) ∧
      (e.segmentId ≠ INVALID_SEGMENT_ID → ∀ k, t.Designates { e with key := k } value) := by
  have hlim : Traced.Within StorageManager.WithinLimits
      (StorageManager.append s.settings.SegSize value)
      s.storageManager := by
    intro sm hsm
    rcases List.mem_cons.mp hsm with rfl | hsm
    · exact hw.start.storage
    · exact (hw { s with storageManager := sm }
        (List.mem_cons_of_mem _ (List.mem_map_of_mem hsm))).storage
  obtain ⟨hmem, hvis, hvalid⟩ :=
    StorageManager.append_grows h.storage hlim hz (hv.length.trans (by decide))
  refine ⟨_, _, _, rfl, List.mem_map_of_mem hmem, fun u hu => ?_,
    fun hne k => designates_of_appended hv (hvalid hne) k⟩
  obtain ⟨sm, hsm, rfl⟩ := List.mem_map.mp hu
  exact ⟨sm, hvis sm hsm, rfl⟩

lemma append_cases (h : s.storageManager.Wf) (hl : s.WithinLimits) (hv : ValueOk value) :
    ∃ e t ts, onStorage (StorageManager.append s.settings.SegSize value) s = ⟨e, t, ts⟩ ∧
      t ∈ ts ∧ (∀ u ∈ ts, Grown s value u) ∧
      ((value.length ≤ s.settings.SegSize ∧ e.segmentId ≠ INVALID_SEGMENT_ID ∧
          ∀ k, t.Designates { e with key := k } value) ∨
        (s.settings.SegSize < value.length ∧ e.segmentId = INVALID_SEGMENT_ID)) := by
  have hlen : value.length < 2 ^ 63 := hv.length.trans (by decide)
  refine ⟨_, _, _, rfl, ?_⟩
  rcases Nat.lt_or_ge s.settings.SegSize value.length with hlt | hle
  · obtain ⟨hval, ho, hmem, hvis⟩ := StorageManager.append_refuses h hl.storage hlt hlen
    refine ⟨List.mem_map_of_mem hmem, ?_, Or.inr ⟨hlt, by rw [hval]; rfl⟩⟩
    rintro t ht
    obtain ⟨sm, hsm, rfl⟩ := List.mem_map.mp ht
    exact ⟨sm, .single (Or.inl (hvis sm hsm)), rfl⟩
  · obtain ⟨ha, hmem, hvis⟩ := StorageManager.append_fits h hl.storage hl.segSize hle hlen
    refine ⟨List.mem_map_of_mem hmem, ?_, Or.inl ⟨hle, ha.valid.ne, designates_of_appended hv ha⟩⟩
    rintro t ht
    obtain ⟨sm, hsm, rfl⟩ := List.mem_map.mp ht
    exact ⟨sm, .single (hvis sm hsm), rfl⟩

lemma Inv.slice_ne_nil (h : s.Inv) {loc : Location} (hk : s.tree.lookup key = some loc) :
    s.files.slice loc ≠ [] := by
  have hok := h.entry key loc hk
  have hz := hok.location.pos
  rw [← hok.inBounds.slice_length] at hz
  exact List.ne_nil_of_length_pos hz

lemma Inv.read_eq (h : s.Inv) {loc : Location} (hk : s.tree.lookup key = some loc) :
    s.storageManager.read (toEntry key loc) = s.files.slice loc :=
  StorageManager.read_of_inBounds (h.entry key loc hk).inBounds

def getResult (m : Key → Option Value) (key : Key) : ResultType :=
  match m key with
  | some v => ⟨.Success, v, 1⟩
  | none => ⟨.Error, Messages.KEY_NOT_FOUND, 0⟩

lemma recache_get (h : s.Inv) (key : Key) : Move A B s { s with cache := (s.cache.get key).2 } :=
  .recache (LRUCache.get_wf h.cache key) fun k _ hc => Or.inl (by rwa [LRUCache.get_find] at hc)

theorem get_spec (h : s.Inv) (key : Key) :
    (s.get key).1 = getResult s.toMap key ∧ Path A B s (s.get key).2 := by
  have hmove : Move A B s { s with cache := (s.cache.get key).2 } := recache_get h key
  have hinv := (hmove.inv h).1
  have hval := LRUCache.get_val s.cache key
  simp only [Shard.get]
  cases hc : s.cache.find key with
  | some ce =>
    obtain ⟨hl, loc, hk, hs⟩ := h.cached key ce hc
    rw [hc, Option.getD_some] at hval
    simp only [hval, hl, if_true]
    exact ⟨by simp [getResult, toMap, hk, hs], .single hmove⟩
  | none =>
    rw [hc, Option.getD_none] at hval
    have hn : live (⟨.invalid, []⟩ : CacheEntry).index = false := rfl
    simp only [hval, hn, Bool.false_eq_true, if_false, search_eq]
    cases hk : s.tree.lookup key with
    | none =>
      have hni : live .invalid = false := rfl
      simp only [Option.map_none, Option.getD_none, hni, Bool.false_eq_true, if_false]
      exact ⟨by simp [getResult, toMap, hk], .single hmove⟩
    | some loc =>
      have hr := h.read_eq hk
      simp only [Option.map_some, Option.getD_some, h.live_entry hk, if_true, hr, h.slice_ne_nil hk,
        if_false]
      refine ⟨by simp [getResult, toMap, hk], Relation.ReflTransGen.tail (.single hmove) ?_⟩
      refine .recache (LRUCache.put_wf hinv.cache _ _) fun k ce hf => ?_
      rcases LRUCache.put_find hinv.cache hf with ⟨rfl, rfl⟩ | ⟨-, hf⟩
      · exact Or.inr ⟨h.live_entry hk, loc, hk, rfl⟩
      · exact Or.inl hf

lemma get_cache (s : Shard) (key : Key) : ∃ cache, (s.get key).2 = { s with cache := cache } := by
  simp only [Shard.get]
  split_ifs
  all_goals exact ⟨_, rfl⟩

lemma set_put {e : IndexEntry} {ts : List Shard}
    (ha : onStorage (StorageManager.append s.settings.SegSize value) s = ⟨e, t, ts⟩)
    (hne : e.segmentId ≠ INVALID_SEGMENT_ID) :
    set key value s = ⟨⟨.Success, Messages.SUCCESS_SET, 1⟩, putIndex { e with key := key } value t,
      ts ++ [putIndex { e with key := key } value t]⟩ := by
  rw [set, Traced.get_bind]
  refine Traced.bind_eq ha ?_
  rw [if_neg hne]
  rfl

lemma set_refused {e : IndexEntry} {ts : List Shard}
    (ha : onStorage (StorageManager.append s.settings.SegSize value) s = ⟨e, t, ts⟩)
    (he : e.segmentId = INVALID_SEGMENT_ID) : set key value s = ⟨segmentFull, t, ts⟩ := by
  rw [set, Traced.get_bind, ← List.append_nil ts]
  refine Traced.bind_eq ha ?_
  rw [if_pos he]
  rfl

theorem set_runs (h : s.Inv) (hv : ValueOk value) (hw : Traced.Within Bounded (set key value) s) :
    Runs (fun k v => k = key ∧ v = value) (fun _ => False) s (set key value s) := by
  have hwa : Traced.Within Bounded (onStorage (StorageManager.append s.settings.SegSize value)) s :=
    (hw.bind_right .get).bind_left
  obtain ⟨e, t, ts, ha, hmem, hts, hd⟩ := append_grown h hw.start.segSize hv hwa
  by_cases he : e.segmentId = INVALID_SEGMENT_ID
  · rw [set_refused ha he]
    exact ⟨(hts t hmem).path, fun u hu => (hts u hu).path⟩
  · rw [set_put ha he]
    have hlast : Path (fun k v => k = key ∧ v = value) (fun _ => False) s
        (putIndex { e with key := key } value t) :=
      (hts t hmem).path.tail (.put ⟨rfl, rfl⟩ (hd he key))
    refine ⟨hlast, fun u hu => ?_⟩
    rcases List.mem_append.mp hu with hu | hu
    · exact (hts u hu).path
    · rw [List.mem_singleton.mp hu]
      exact hlast

theorem set_spec (h : s.Inv) (hl : s.WithinLimits) (hv : ValueOk value) (key : Key) :
    (value.length ≤ s.settings.SegSize ∧ (set key value s).val =
      ⟨.Success, Messages.SUCCESS_SET, 1⟩ ∧
      (set key value s).final.toMap = Function.update s.toMap key (some value)) ∨
    (s.settings.SegSize < value.length ∧ (set key value s).val = segmentFull ∧
      (set key value s).final.toMap = s.toMap) := by
  obtain ⟨e, t, ts, ha, hmem, hts, hcase⟩ := append_cases h.storage hl hv
  obtain ⟨hinv, hmap, -⟩ := (hts t hmem).inv h
  rcases hcase with ⟨hle, hne, hd⟩ | ⟨hlt, hinvalid⟩
  · rw [set_put ha hne]
    exact Or.inl ⟨hle, rfl, by rw [(hinv.putIndex (hd key)).2, hmap]⟩
  · rw [set_refused ha hinvalid]
    exact Or.inr ⟨hlt, rfl, hmap⟩

lemma recache_remove (h : s.Inv) (key : Key) : Move A B s { s with cache := s.cache.remove key } :=
  .recache (LRUCache.remove_wf h.cache key) fun _ _ hc => Or.inl (LRUCache.remove_find hc).2

theorem del_spec (h : s.Inv) (key : Key) :
    (((s.toMap key).isSome ∧ (del key s).val = ⟨.Success, Messages.SUCCESS_DEL, 1⟩) ∨
      (s.toMap key = none ∧ (del key s).val = ⟨.Error, Messages.KEY_NOT_FOUND, 0⟩)) ∧
    (del key s).final.toMap = Function.update s.toMap key none ∧
    Runs (fun _ _ => False) (fun k => k = key) s (del key s) := by
  have hmove : Move (fun _ _ => False) (fun k => k = key) s
      { s with cache := s.cache.remove key } :=
    recache_remove h key
  have hinv := (hmove.inv h).1
  cases hk : s.tree.lookup key with
  | none =>
    have hs : ({ s with cache := s.cache.remove key } : Shard).indexManager.search key =
        .invalid := by
      rw [search_eq]
      change ((s.tree.lookup key).map (toEntry key)).getD .invalid = _
      rw [hk]
      rfl
    have hrun : del key s =
        ⟨⟨.Error, Messages.KEY_NOT_FOUND, 0⟩, { s with cache := s.cache.remove key },
        [{ s with cache := s.cache.remove key }]⟩ := by
      refine Traced.bind_eq (Traced.step_run _ s) ?_
      rw [Traced.get_bind, hs]
      rfl
    have hnone : s.toMap key = none := by simp [toMap, hk]
    rw [hrun]
    refine ⟨Or.inr ⟨hnone, rfl⟩, ?_,
      .single hmove, by simpa using Relation.ReflTransGen.single hmove⟩
    rw [← hnone, Function.update_eq_self]
    rfl
  | some loc =>
    have hs : ({ s with cache := s.cache.remove key } : Shard).indexManager.search key =
        toEntry key loc := by
      rw [search_eq]
      change ((s.tree.lookup key).map (toEntry key)).getD .invalid = _
      rw [hk]
      rfl
    have hrun : del key s = ⟨⟨.Success, Messages.SUCCESS_DEL, 1⟩,
        bury key (toEntry key loc) { s with cache := s.cache.remove key },
        [{ s with cache := s.cache.remove key },
          bury key (toEntry key loc) { s with cache := s.cache.remove key }]⟩ := by
      refine Traced.bind_eq (Traced.step_run _ s) ?_
      rw [Traced.get_bind, hs, if_pos (h.live_entry hk)]
      rfl
    rw [hrun]
    have hlast := Relation.ReflTransGen.tail (.single hmove) (Move.bury rfl hk)
    refine ⟨Or.inl ⟨by simp [toMap, hk], rfl⟩, (hinv.bury hk).2, hlast, ?_⟩
    simp only [List.mem_cons, List.not_mem_nil, or_false, forall_eq_or_imp, forall_eq]
    exact ⟨.single hmove, hlast⟩

end Zest.Shard
