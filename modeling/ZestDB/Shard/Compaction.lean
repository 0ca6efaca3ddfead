import ZestDB.Shard.Bulk

/-! Flushing and compacting a shard, and changing its settings: the map does not change. -/

namespace Zest.Shard

open Foundations

variable {A : Key → Value → Prop} {B : Key → Prop} {s t : Shard} {ch : Choice}
variable {entry e : IndexEntry} {entries : List IndexEntry} {stay : IndexEntry → Bool}

lemma Runs.onStorage {α : Type} {x : Traced StorageManager α}
    (hf : Move A B s { s with storageManager := (x s.storageManager).final })
    (hv : ∀ sm ∈ (x s.storageManager).visited, Move A B s { s with storageManager := sm }) :
    Runs A B s (onStorage x s) := by
  refine ⟨.single hf, fun t ht => ?_⟩
  obtain ⟨sm, hsm, rfl⟩ := List.mem_map.mp ht
  exact .single (hv sm hsm)

lemma flushStorage_runs (s : Shard) (ch : Choice) :
    Runs A B s (onStorage (StorageManager.flush ch) s) := by
  obtain ⟨hf, hv⟩ := StorageManager.flush_flushed ch s.storageManager
  exact .onStorage (.flushing hf.flushing) fun sm hsm => .flushing (hv sm hsm)

theorem flushData_runs (s : Shard) (ch : Choice) : Runs A B s (flushData ch s) :=
  (flushStorage_runs s ch).bind (.step .flushIndex)

lemma flushData_final (s : Shard) (ch : Choice) :
    ∃ sm, StorageManager.Flushed s.storageManager sm ∧ (flushData ch s).final =
        { s with storageManager := sm, indexManager := s.indexManager.flush } :=
  ⟨_, (StorageManager.flush_flushed ch s.storageManager).1, rfl⟩

lemma relocate_stay (hs : (stay entry || s.storageManager.read entry = []) = true)
    {r : Outcome Shard (List IndexEntry × Bool)} (hr : relocate stay entries s = r) :
    relocate stay (entry :: entries) s = ⟨(entry :: r.val.1, r.val.2), r.final, r.visited⟩ := by
  rw [relocate, Traced.get_bind, if_pos hs, ← List.append_nil r.visited]
  exact Traced.bind_eq hr rfl

lemma relocate_refused (hs : ¬ (stay entry || s.storageManager.read entry = []) = true)
    {ts : List Shard}
    (ha : onStorage (StorageManager.append s.settings.SegSize (s.storageManager.read entry)) s =
      ⟨e, t, ts⟩)
    (he : e.segmentId = INVALID_SEGMENT_ID) {r : Outcome Shard (List IndexEntry × Bool)}
    (hr : relocate stay entries t = r) :
    relocate stay (entry :: entries) s =
      ⟨(entry :: r.val.1, r.val.2), r.final, ts ++ r.visited⟩ := by
  rw [relocate, Traced.get_bind, if_neg hs]
  refine Traced.bind_eq ha ?_
  rw [if_pos he, ← List.append_nil r.visited]
  exact Traced.bind_eq hr rfl

lemma relocate_moved (hs : ¬ (stay entry || s.storageManager.read entry = []) = true)
    {ts : List Shard}
    (ha : onStorage (StorageManager.append s.settings.SegSize (s.storageManager.read entry)) s =
      ⟨e, t, ts⟩)
    (he : e.segmentId ≠ INVALID_SEGMENT_ID) {r : Outcome Shard (List IndexEntry × Bool)} {u : Shard}
    (hu : u = { t with indexManager := t.indexManager.insert { e with key := entry.key } })
    (hr : relocate stay entries u = r) :
    relocate stay (entry :: entries) s =
      ⟨({ e with key := entry.key } :: r.val.1, true), r.final, ts ++ (u :: r.visited)⟩ := by
  rw [relocate, Traced.get_bind, if_neg hs]
  refine Traced.bind_eq ha ?_
  rw [if_neg he]
  subst hu
  refine Traced.bind_eq (Traced.step_run _ t) ?_
  rw [← List.append_nil r.visited]
  exact Traced.bind_eq hr rfl

variable {P : Shard → Prop}

lemma relocate_stay_within (hs : (stay entry || s.storageManager.read entry = []) = true)
    (hw : Traced.Within P (relocate stay (entry :: entries)) s) :
    Traced.Within P (relocate stay entries) s := by
  intro x hx
  refine hw x ?_
  rw [relocate_stay hs (Eq.refl (relocate stay entries s))]
  exact hx

lemma relocate_refused_within (hs : ¬ (stay entry || s.storageManager.read entry = []) = true)
    {ts : List Shard}
    (ha : onStorage (StorageManager.append s.settings.SegSize (s.storageManager.read entry)) s =
      ⟨e, t, ts⟩) (he : e.segmentId = INVALID_SEGMENT_ID) (ht : t ∈ ts)
    (hw : Traced.Within P (relocate stay (entry :: entries)) s) :
    Traced.Within P (relocate stay entries) t := by
  intro x hx
  refine hw x (List.mem_cons_of_mem _ ?_)
  rw [relocate_refused hs ha he (Eq.refl (relocate stay entries t))]
  rcases List.mem_cons.mp hx with rfl | hx
  · exact List.mem_append_left _ ht
  · exact List.mem_append_right _ hx

lemma relocate_moved_within (hs : ¬ (stay entry || s.storageManager.read entry = []) = true)
    {ts : List Shard}
    (ha : onStorage (StorageManager.append s.settings.SegSize (s.storageManager.read entry)) s =
      ⟨e, t, ts⟩) (he : e.segmentId ≠ INVALID_SEGMENT_ID) {u : Shard}
    (hu : u = { t with indexManager := t.indexManager.insert { e with key := entry.key } })
    (hw : Traced.Within P (relocate stay (entry :: entries)) s) :
    Traced.Within P (relocate stay entries) u := by
  intro x hx
  refine hw x (List.mem_cons_of_mem _ ?_)
  rw [relocate_moved hs ha he hu (Eq.refl (relocate stay entries u))]
  exact List.mem_append_right _ hx

structure Relocated (s : Shard) (entries : List IndexEntry)
    (o : Outcome Shard (List IndexEntry × Bool)) : Prop where
  runs : Runs (fun _ _ => False) (fun _ => False) s o
  listed : o.final.Listed o.val.1
  keys : o.val.1.map IndexEntry.key = entries.map IndexEntry.key
  frame : ∀ k ∉ entries.map IndexEntry.key, o.final.tree.lookup k = s.tree.lookup k
  unmoved : o.val.2 = false → o.final.indexManager = s.indexManager
  moved : o.val.2 = true → o.final.indexManager.canFlush = true

lemma Listed.of_tree (hl : s.Listed entries)
    (ht : ∀ k ∈ entries.map IndexEntry.key, t.tree.lookup k = s.tree.lookup k) :
    t.Listed entries := by
  refine ⟨hl.nodup, fun e he => ?_⟩
  obtain ⟨loc, hk, hee⟩ := hl.lookup e he
  exact ⟨loc, (ht e.key (List.mem_map_of_mem he)).trans hk, hee⟩

lemma Relocated.cons {u : Shard} {o : Outcome Shard (List IndexEntry × Bool)}
    (ho : Relocated u entries o) {ts : List Shard} {b : Bool} (hkey : e.key = entry.key)
    (hn : entry.key ∉ entries.map IndexEntry.key)
    (hu : Path (fun _ _ => False) (fun _ => False) s u)
    (hts : ∀ x ∈ ts, Path (fun _ _ => False) (fun _ => False) s x)
    (hlook : ∃ loc, u.tree.lookup e.key = some loc ∧ e = toEntry e.key loc)
    (hframe : ∀ k, k ≠ entry.key → u.tree.lookup k = s.tree.lookup k)
    (hfalse : b = false → o.val.2 = false ∧ u.indexManager = s.indexManager)
    (htrue : b = true → o.val.2 = true ∨ u.indexManager.canFlush = true) :
    Relocated s (entry :: entries) ⟨(e :: o.val.1, b), o.final, ts ++ o.visited⟩ where
  runs := Runs.after hu hts ho.runs _
  listed := by
    refine ⟨?_, fun f hf => ?_⟩
    · simp only [List.map_cons, List.nodup_cons, hkey, ho.keys]
      exact ⟨hn, ho.keys ▸ ho.listed.nodup⟩
    · rcases List.mem_cons.mp hf with rfl | hf
      · obtain ⟨loc, hk, hee⟩ := hlook
        exact ⟨loc, by rw [ho.frame _ (hkey ▸ hn), hk], hee⟩
      · exact ho.listed.lookup f hf
  keys := by simp [hkey, ho.keys]
  frame k hk := by
    simp only [List.map_cons, List.mem_cons, not_or] at hk
    rw [ho.frame k hk.2, hframe k hk.1]
  unmoved hb := by
    obtain ⟨ho2, hui⟩ := hfalse hb
    rw [ho.unmoved ho2, hui]
  moved hb := by
    rcases htrue hb with ho2 | hui
    · exact ho.moved ho2
    · cases hm : o.val.2 with
      | true => exact ho.moved hm
      | false => rwa [ho.unmoved hm]

lemma Grown.relocate {v : Value} (hg : Grown s v t) (h : s.Inv) {loc : Location}
    (hk : s.tree.lookup entry.key = some loc)
    (hd : t.Designates { e with key := entry.key } (s.files.slice loc)) {u : Shard} (hu : u =
      { t with indexManager := t.indexManager.insert { e with key := entry.key } }) :
    Move (fun _ _ => False) (fun _ => False) t u ∧ u.Inv ∧
      ∀ k, u.tree.lookup k = if k = entry.key then some e.location else s.tree.lookup k := by
  obtain ⟨hinv, hmap, htree⟩ := hg.inv h
  have htk : t.tree.lookup entry.key = some loc := by rw [htree, hk]
  have hslice : t.files.slice loc = s.files.slice loc := by
    have := congrFun hmap entry.key
    simpa [toMap, htk, hk] using this
  have hmove : Move (fun _ _ => False) (fun _ => False) t u := by
    rw [← hslice] at hd
    rw [hu]
    exact .relocate htk hd
  refine ⟨hmove, (hmove.inv hinv).1, fun k => ?_⟩
  rw [← htree, hu]
  exact insert_lookup t { e with key := entry.key } k

theorem relocate_spec (h : s.Inv) (hl : s.Listed entries)
    (hw : Traced.Within Bounded (relocate stay entries) s) :
    Relocated s entries (relocate stay entries s) := by
  induction entries generalizing s with
  | nil => exact ⟨.pure _, ⟨by simp [relocate], by simp [relocate]⟩, rfl, fun _ _ => rfl,
      fun _ => rfl, by simp [relocate]⟩
  | cons entry entries ih =>
    have hn := (List.nodup_cons.mp hl.nodup).1
    obtain ⟨loc, hk, hentry⟩ := hl.lookup entry (by simp)
    have hread : s.storageManager.read entry = s.files.slice loc := by
      rw [hentry]
      exact h.read_eq hk
    by_cases hs : (stay entry || s.storageManager.read entry = []) = true
    · have hrun := relocate_stay hs (Eq.refl (relocate stay entries s))
      have hw' : Traced.Within Bounded (relocate stay entries) s := relocate_stay_within hs hw
      rw [hrun]
      rw [← List.nil_append (relocate stay entries s).visited]
      exact (ih h hl.tail hw').cons rfl hn .refl (by simp) ⟨loc, hk, hentry⟩ (fun _ _ => rfl)
        (fun hb => ⟨hb, rfl⟩) (fun hb => Or.inl hb)
    · have hv : ValueOk (s.storageManager.read entry) := by
        rw [hread]
        refine ⟨h.slice_ne_nil hk, ?_⟩
        rw [(h.entry _ _ hk).inBounds.slice_length]
        exact (h.entry _ _ hk).location.size
      have hwa : Traced.Within Bounded
          (onStorage (StorageManager.append s.settings.SegSize (s.storageManager.read entry)))
            s := by
        have hw' : Traced.Within Bounded
            (if (stay entry || s.storageManager.read entry = []) = true then _ else _) s :=
          hw.bind_right .get
        rw [if_neg hs] at hw'
        exact hw'.bind_left
      obtain ⟨e, t, ts, ha, hmem, hts, hd⟩ := append_grown h hw.start.segSize hv hwa
      have hgrown := hts t hmem
      obtain ⟨hinv, hmap, htree⟩ := hgrown.inv h
      have hlt : t.Listed entries := hl.tail.of_tree fun k _ => by rw [htree]
      by_cases hne : e.segmentId ≠ INVALID_SEGMENT_ID
      · obtain ⟨u, hu⟩ : ∃ u, u =
            { t with indexManager := t.indexManager.insert { e with key := entry.key } } := ⟨_, rfl⟩
        have hrun := relocate_moved hs ha hne hu (Eq.refl (relocate stay entries u))
        have hd' : t.Designates { e with key := entry.key } (s.files.slice loc) :=
          hread ▸ hd hne entry.key
        obtain ⟨hmove, hui, hlook⟩ := hgrown.relocate h hk hd' hu
        have huw : Traced.Within Bounded (relocate stay entries) u :=
          relocate_moved_within hs ha hne hu hw
        have hlu : u.Listed entries := hl.tail.of_tree fun k hk' => by
          have hke : k ≠ entry.key := fun hke => hn (hke ▸ hk')
          rw [hlook, if_neg hke]
        have hpath : Path (fun _ _ => False) (fun _ => False) s u := hgrown.path.tail hmove
        have hvis : ∀ x ∈ ts ++ [u], Path (fun _ _ => False) (fun _ => False) s x := by
          intro x hx
          rcases List.mem_append.mp hx with hx | hx
          · exact (hts x hx).path
          · rw [List.mem_singleton.mp hx]
            exact hpath
        rw [hrun, List.append_cons ts u]
        refine (ih hui hlu huw).cons rfl hn hpath hvis ⟨e.location, ?_, ?_⟩ ?_ (by simp) fun _ =>
          Or.inr ?_
        · rw [hlook, if_pos rfl]
        · have htomb : e.isTombstone = false := hd'.live
          simp [toEntry, IndexEntry.location, htomb]
        · intro k hk'
          rw [hlook, if_neg hk']
        · rw [hu]
          rfl
      · have hinvalid := not_not.mp hne
        have hrun := relocate_refused hs ha hinvalid (Eq.refl (relocate stay entries t))
        have htw : Traced.Within Bounded (relocate stay entries) t :=
          relocate_refused_within hs ha hinvalid hmem hw
        have him : t.indexManager = s.indexManager := by
          obtain ⟨sm, -, rfl⟩ := hgrown.storage
          rfl
        rw [hrun]
        refine (ih hinv hlt htw).cons rfl hn hgrown.path (fun x hx => (hts x hx).path)
          ⟨loc, ?_, hentry⟩ ?_
          (fun hb => ⟨hb, him⟩) (fun hb => Or.inl hb)
        · rw [htree, hk]
        · intro k _
          rw [htree]

lemma listed_getAll (s : Shard) (ch : Choice) : s.Listed (s.indexManager.getAll ch) :=
  ⟨IndexManager.getAll_nodup _ ch, fun _ he => IndexManager.mem_of_mem_getAll he⟩

lemma mem_getAll_keys (hfew : s.FewKeys) (ch : Choice) {k : Key} {loc : Location}
    (hk : s.tree.lookup k = some loc) :
    k ∈ (s.indexManager.getAll ch).map IndexEntry.key := by
  rw [IndexManager.getAll_eq_walk hfew]
  exact List.mem_map.mpr ⟨toEntry k loc, IndexManager.mem_walk.mpr ⟨loc, hk, rfl⟩, rfl⟩

lemma flushIndex_pending {im : IndexManager} (h : im.canFlush = true) :
    im.flush.index.pending = [] := by
  simp [IndexManager.flush, h]

lemma removeUnused_runs {used : List ℕ} (hp : s.indexManager.index.pending = [])
    (hu : ∀ k loc, s.tree.lookup k = some loc → loc.segmentId ∈ used) :
    Runs A B s (onStorage (StorageManager.removeUnusedSegments ch used) s) := by
  obtain ⟨-, hf, hv⟩ := StorageManager.removeUnusedSegments_removing ch used s.storageManager
  exact .onStorage (.remove hf hp hu) fun sm hsm => .remove (hv sm hsm) hp hu

lemma flushMoved_tree (b : Bool) : (flushMoved ch b s).final.tree = s.tree := by
  cases b with
  | true => exact flush_tree s.indexManager
  | false => rfl

lemma flushMoved_runs (b : Bool) : Runs A B s (flushMoved ch b s) := by
  cases b with
  | true => exact flushData_runs s ch
  | false => exact .pure ()

lemma Relocated.pending {o : Outcome Shard (List IndexEntry × Bool)} (ho : Relocated s entries o)
    (hp : s.indexManager.index.pending = []) :
    (flushMoved ch o.val.2 o.final).final.indexManager.index.pending = [] := by
  cases hm : o.val.2 with
  | true => exact flushIndex_pending (ho.moved hm)
  | false =>
    change o.final.indexManager.index.pending = []
    rw [ho.unmoved hm, hp]

lemma Relocated.mem_keys {o : Outcome Shard (List IndexEntry × Bool)} (ho : Relocated s entries o)
    (hall : ∀ k loc, s.tree.lookup k = some loc → k ∈ entries.map IndexEntry.key) {k : Key}
    {loc : Location} (hk : o.final.tree.lookup k = some loc) : k ∈ entries.map IndexEntry.key := by
  by_contra hn
  rw [ho.frame k hn] at hk
  exact hn (hall k loc hk)

lemma Relocated.used {o : Outcome Shard (List IndexEntry × Bool)} (ho : Relocated s entries o)
    (hall : ∀ k loc, s.tree.lookup k = some loc → k ∈ entries.map IndexEntry.key) {k : Key}
    {loc : Location} (hk : (flushMoved ch o.val.2 o.final).final.tree.lookup k = some loc) :
    loc.segmentId ∈ o.val.1.map IndexEntry.segmentId := by
  rw [flushMoved_tree] at hk
  have hkeys := ho.mem_keys hall hk
  rw [← ho.keys] at hkeys
  obtain ⟨e, he, rfl⟩ := List.mem_map.mp hkeys
  obtain ⟨loc', hk', hee⟩ := ho.listed.lookup e he
  obtain rfl : loc = loc' := by simpa [hk] using hk'
  refine List.mem_map.mpr ⟨e, he, ?_⟩
  rw [hee]
  rfl

theorem compactSegments_runs (h : s.Inv) (hl : s.Listed entries)
    (hp : s.indexManager.index.pending = [])
    (hall : ∀ k loc, s.tree.lookup k = some loc → k ∈ entries.map IndexEntry.key)
    (hw : Traced.Within Bounded (compactSegments ch entries) s) :
    Runs (fun _ _ => False) (fun _ => False) s (compactSegments ch entries s) := by
  have hrel := relocate_spec h hl (hw.bind_right .get).bind_left
  simp only [compactSegments]
  rw [Traced.get_bind]
  refine hrel.runs.bind (.bind (flushMoved_runs _) (removeUnused_runs ?_ ?_))
  · exact hrel.pending hp
  · exact fun _ _ hk => hrel.used hall hk

theorem compactorPass_runs (h : s.Inv) (hfew : s.FewKeys)
    (hw : Traced.Within Bounded (compactorPass ch) s) :
    Runs (fun _ _ => False) (fun _ => False) s (compactorPass ch s) := by
  have hmove : Move (fun _ _ => False) (fun _ => False) s
      { s with indexManager := s.indexManager.compact ch } :=
    .compactIndex ch hfew
  have hx : Traced.Tracked (compactIndex ch) := .bind .get fun _ => .bind (.step _) fun _ => .pure _
  refine Runs.bind (x := compactIndex ch) ?_
    (compactSegments_runs (hmove.inv h).1 ?_ rfl ?_ (hw.bind_right hx))
  · exact ⟨.single hmove, by simpa [compactIndex] using Relation.ReflTransGen.single hmove⟩
  · exact (listed_getAll s ch).of_tree fun _ _ => rfl
  · exact fun k loc hk => mem_getAll_keys hfew ch hk

theorem flushData_toMap (s : Shard) (ch : Choice) : (flushData ch s).final.toMap = s.toMap := by
  obtain ⟨sm, hf, he⟩ := flushData_final s ch
  have hfiles : (flushData ch s).final.files = s.files := by
    rw [he]
    exact hf.flushing.files_eq
  funext k
  rw [toMap, hfiles, he]
  exact congrArg (fun tree : Tree => (tree.lookup k).map s.files.slice) (flush_tree s.indexManager)

theorem reloadSettings_spec (h : s.Inv) (settings : Settings) :
    (reloadSettings settings s).Inv ∧ (reloadSettings settings s).toMap = s.toMap := by
  have := h.recache (LRUCache.resize_wf h.cache settings.CacheSize) fun k ce hc => Or.inl
    (LRUCache.resize_find hc)
  exact ⟨⟨this.storage, this.cache, this.entry, this.cached⟩, rfl⟩

end Zest.Shard
