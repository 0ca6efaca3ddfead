import ZestDB.Shard.Sound

/-! What every operation of a shard keeps, also when INDEX has lost keys: the segments and the cache
are well formed. `Kept` is what the manager and the database need of such a property. -/

namespace Zest.Shard

open Foundations
open Foundations.Traced (Preserves Within)

variable {s : Shard} {key : Key} {value : Value} {ch : Choice} {valid : ValidationRule}
  {count : Option ℕ}

/-- Every operation of a shard keeps `P`; `K` is asked of the keys that are set. -/
structure Kept (K : Key → Prop) (P : Shard → Prop) : Prop where
  set : ∀ {key value}, ValueOk value → K key → Preserves Bounded P (Shard.set key value)
  del : ∀ key, Preserves Bounded P (Shard.del key)
  setBy : ∀ {value}, ValueOk value →
    ∀ ch valid count, Preserves Bounded P (Shard.setBy ch valid value count)
  delBy : ∀ ch valid count, Preserves Bounded P (Shard.delBy ch valid count)
  get : ∀ {s}, P s → ∀ key, P (s.get key).2
  flushData : ∀ {s}, P s → ∀ {ch}, Within P (Shard.flushData ch) s
  wal : ∀ {s} {wal : WAL}, P s → (s.wal.Wf → wal.Wf) → P { s with wal := wal }
  reloadSettings : ∀ {s}, P s → ∀ settings, P (Shard.reloadSettings settings s)
  key : ∀ {s k}, P s → (s.toMap k).isSome → K k
  short : ∀ {key : Key}, key.length ≤ MAX_KEY_SIZE → K key

lemma sound_kept : Kept (fun key => key.length ≤ MAX_KEY_SIZE) Sound where
  set hv hk _ h hw := set_sound h hv hk hw
  del key _ h _ := del_sound h key
  setBy hv _ _ _ _ h hw := setBy_sound h hv hw
  delBy _ _ _ _ h _ := delBy_sound h
  get h key := h.get key
  flushData h := flushData_sound h
  wal h hw := h.of_wal (hw h.wal)
  reloadSettings h settings := h.reloadSettings settings
  key h hk := h.key_le hk
  short hk := hk

structure Tidy (s : Shard) : Prop where
  storage : s.storageManager.Wf
  cache : s.cache.Wf
  wal : s.wal.Wf

lemma Sound.tidy (h : s.Sound) : s.Tidy := ⟨h.inv.storage, h.inv.cache, h.wal⟩

lemma onStorage_tidy {α : Type} {x : Traced StorageManager α} (h : s.Tidy)
    (hx : ∀ sm ∈ (x s.storageManager).visited, sm.Wf) : Within Tidy (onStorage x) s := by
  intro t ht
  rcases List.mem_cons.mp ht with rfl | ht
  · exact h
  · obtain ⟨sm, hsm, rfl⟩ := List.mem_map.mp ht
    exact ⟨hx sm hsm, h.cache, h.wal⟩

lemma growing_wf {sm t : StorageManager} (hg : StorageManager.Growing value sm t) (hw : sm.Wf) :
    t.Wf := by
  induction hg with
  | refl => exact hw
  | tail _ ha ih => exact ha.wf ih

lemma append_tidy (h : s.Tidy) (hv : value.length < 2 ^ 63)
    (hw : Within Bounded (onStorage (StorageManager.append s.settings.SegSize value)) s) :
    Within Tidy (onStorage (StorageManager.append s.settings.SegSize value)) s := by
  have hlim : Within StorageManager.WithinLimits
      (StorageManager.append s.settings.SegSize value) s.storageManager := by
    intro sm hsm
    rcases List.mem_cons.mp hsm with rfl | hsm
    · exact hw.start.storage
    · exact (hw { s with storageManager := sm }
        (List.mem_cons_of_mem _ (List.mem_map_of_mem hsm))).storage
  obtain ⟨-, hvis, -⟩ := StorageManager.append_grows h.storage hlim hw.start.segSize hv
  exact onStorage_tidy h fun sm hsm => growing_wf (hvis sm hsm) h.storage

lemma putIndex_tidy (h : s.Tidy) (entry : IndexEntry) (value : Value) :
    (putIndex entry value s).Tidy :=
  ⟨h.storage, LRUCache.put_wf h.cache entry value, h.wal⟩

lemma bury_tidy (h : s.Tidy) (key : Key) (entry : IndexEntry) : (bury key entry s).Tidy :=
  ⟨h.storage, LRUCache.remove_wf h.cache key, h.wal⟩

lemma append_tracked :
    Traced.Tracked (onStorage (StorageManager.append s.settings.SegSize value)) :=
  onStorage_tracked StorageManager.append_tracked

lemma set_tidy (hv : ValueOk value) : Preserves Bounded Tidy (set key value) := by
  refine .get_bind fun s h hw => Preserves.bind_at append_tracked ?_ (fun entry => ?_) hw
  · exact append_tidy h (hv.length.trans (by decide)) hw.bind_left
  · exact .ite (.pure _) (.bind (.step _) (.step fun t ht => putIndex_tidy ht _ _) fun _ => .pure _)

lemma del_tidy (key : Key) : Preserves Bounded Tidy (del key) := by
  have hbury : ∀ entry, Preserves Bounded Tidy
      (do .step (bury key entry); pure (⟨.Success, Messages.SUCCESS_DEL, 1⟩ : ResultType)) :=
        fun entry =>
    .bind (.step _) (.step fun t ht => bury_tidy ht key entry) fun _ => .pure _
  refine .bind (.step _) (.step fun t ht => ⟨ht.storage, LRUCache.remove_wf ht.cache key, ht.wal⟩)
    fun _ => .get_bind ?_
  intro s h hw
  revert hw
  dsimp only
  split_ifs
  · exact hbury _ s h
  · exact fun _ => .pure _ h

lemma setByEntries_tidy (hv : ValueOk value) (valid : ValidationRule) (entries : List IndexEntry)
    (count : Option ℕ) :
    Preserves Bounded Tidy (setByEntries valid value entries count) := by
  induction entries generalizing count with
  | nil => exact .pure _
  | cons entry entries ih =>
    refine .ite ?_ (ih count)
    cases valid.claim count with
    | none => exact .pure _
    | some claimed =>
      refine .get_bind fun s h hw => Preserves.bind_at append_tracked ?_ (fun newEntry => ?_) hw
      · exact append_tidy h (hv.length.trans (by decide)) hw.bind_left
      · exact .ite (ih count) (.bind (.step _) (.step fun t ht => putIndex_tidy ht _ _) fun _ =>
          .bind setByEntries_tracked (ih claimed) fun _ => .pure _)

lemma delByEntries_tidy (valid : ValidationRule) (entries : List IndexEntry) (count : Option ℕ) :
    Preserves Bounded Tidy (delByEntries valid entries count) := by
  induction entries generalizing count with
  | nil => exact .pure _
  | cons entry entries ih =>
    refine .ite ?_ (ih count)
    cases valid.claim count with
    | none => exact .pure _
    | some claimed =>
      exact .bind (.step _) (.step fun t ht => bury_tidy ht _ _) fun _ =>
        .bind delByEntries_tracked (ih claimed) fun _ => .pure _

lemma get_tidy (h : s.Tidy) (key : Key) : (s.get key).2.Tidy := by
  have hget : ({ s with cache := (s.cache.get key).2 } : Shard).Tidy :=
    ⟨h.storage, LRUCache.get_wf h.cache key, h.wal⟩
  simp only [Shard.get]
  split_ifs
  · exact hget
  · exact hget
  · exact ⟨h.storage, LRUCache.put_wf hget.cache _ _, h.wal⟩
  · exact hget

lemma flushStorage_tidy (h : s.Tidy) (ch : Choice) :
    Within Tidy (onStorage (StorageManager.flush ch)) s :=
  onStorage_tidy h fun sm hsm =>
    ((StorageManager.flush_flushed ch s.storageManager).2 sm hsm).wf h.storage

lemma flushData_tidy (h : s.Tidy) : Within Tidy (flushData ch) s := by
  have ht := flushStorage_tidy h ch
  have hfinal := ht.final (onStorage_tracked StorageManager.flush_tracked)
  exact .bind ht (.step hfinal ⟨hfinal.storage, hfinal.cache, hfinal.wal⟩)

lemma tidy_kept : Kept (fun _ => True) Tidy where
  set hv _ := set_tidy hv
  del := del_tidy
  setBy hv _ valid _ := .get_bind fun s h hw =>
    Preserves.bind setByEntries_tracked (setByEntries_tidy hv valid _ _) (fun _ => .pure _) s h hw
  delBy _ valid _ := .get_bind fun s h hw =>
    Preserves.bind delByEntries_tracked (delByEntries_tidy valid _ _) (fun _ => .pure _) s h hw
  get := get_tidy
  flushData h _ := flushData_tidy h
  wal h hw := ⟨h.storage, h.cache, hw h.wal⟩
  reloadSettings h settings := ⟨h.storage, LRUCache.resize_wf h.cache settings.CacheSize, h.wal⟩
  key _ _ := trivial
  short _ := trivial

lemma read_length (hw : s.storageManager.WithinLimits) (entry : IndexEntry) :
    (s.storageManager.read entry).length < 2 ^ 63 := by
  simp only [StorageManager.read]
  cases hs : s.storageManager.segments.lookup entry.segmentId with
  | none => exact Nat.two_pow_pos 63
  | some seg =>
    have hlen := hw.length _ seg hs
    simp only [DataSegment.read]
    split_ifs
    · exact Nat.two_pow_pos 63
    · rw [List.length_take, List.length_drop]
      omega

lemma relocate_tidy (stay : IndexEntry → Bool) (entries : List IndexEntry) :
    Preserves Bounded Tidy (relocate stay entries) := by
  induction entries with
  | nil => exact .pure _
  | cons entry entries ih =>
    refine .get_bind fun s h hw => ?_
    have hlen := read_length hw.start.storage entry
    revert hw
    split_ifs
    · exact fun hw => Preserves.bind relocate_tracked ih (fun _ => .pure _) s h hw
    · intro hw
      refine Preserves.bind_at append_tracked (append_tidy h hlen hw.bind_left)
        (fun relocated => ?_) hw
      exact .ite (.bind relocate_tracked ih fun _ => .pure _)
        (.bind (.step _) (.step fun t ht => ⟨ht.storage, ht.cache, ht.wal⟩) fun _ =>
          .bind relocate_tracked ih fun _ => .pure _)

lemma removeUnused_tidy (used : List ℕ) :
    Preserves Bounded Tidy (onStorage (StorageManager.removeUnusedSegments ch used)) := by
  intro s h _
  obtain ⟨-, -, hv⟩ := StorageManager.removeUnusedSegments_removing ch used s.storageManager
  exact onStorage_tidy h fun sm hsm => (hv sm hsm).wf h.storage

lemma compactorPass_tidy (ch : Choice) : Preserves Bounded Tidy (compactorPass ch) := by
  refine .bind (.bind .get fun _ => .bind (.step _) fun _ => .pure _) (.get_bind fun s h hw => ?_)
    fun entries =>
    .get_bind fun s h hw => ?_
  · exact Preserves.bind (.step _) (.step fun t ht => ⟨ht.storage, ht.cache, ht.wal⟩)
      (fun _ => .pure _) s h hw
  · refine Preserves.bind relocate_tracked (relocate_tidy _ entries) (fun r => ?_) s h hw
    exact .bind (.ite flushData_tracked (.pure _))
      (.ite (fun _ ht _ => flushData_tidy ht) (.pure _)) fun _ => removeUnused_tidy _

lemma fillCacheEntries_wf (sm : StorageManager) (entries : List IndexEntry) (seenKeys : List Key)
    {c : LRUCache} (h : c.Wf) :
    (fillCacheEntries sm entries seenKeys c).Wf := by
  induction entries generalizing seenKeys c with
  | nil => exact h
  | cons e entries ih =>
    simp only [fillCacheEntries]
    split_ifs
    · exact ih _ h
    · exact ih _ h
    · exact ih _ (LRUCache.put_wf h e _)

lemma verifyEntry_keeps (entry : IndexEntry) :
    Traced.Keeps (fun s => (s.storageManager, s.cache, s.wal)) (verifyEntry entry) :=
  .bind .get fun _ => .ite (.step fun _ => rfl) (.pure _)

lemma verifyEntries_keeps (entries : List IndexEntry) :
    Traced.Keeps (fun s => (s.storageManager, s.cache, s.wal)) (.forEach verifyEntry entries) := by
  induction entries with
  | nil => exact .pure ()
  | cons entry entries ih => exact .bind (verifyEntry_keeps entry) fun _ => ih

lemma reopen_opened (settings : Settings) (ch fill : Choice) (disk : Disk) :
    (reopen settings ch fill disk).storageManager = .booted disk.segs ∧
      (reopen settings ch fill disk).cache.Wf ∧ (reopen settings ch fill disk).wal =
        .openWal disk.wal := by
  obtain ⟨s, hs⟩ : ∃ s : Shard, s = { openDisk settings disk with
      indexManager := (openDisk settings disk).indexManager.compact ch
      storageManager := StorageManager.booted disk.segs } := ⟨_, rfl⟩
  have hrun : reopen settings ch fill disk = fillCache fill (verifyIndexEntries ch s).final := by
    rw [hs]
    rfl
  have hkeeps : ((verifyIndexEntries ch s).final.storageManager,
      (verifyIndexEntries ch s).final.cache,
      (verifyIndexEntries ch s).final.wal) = (s.storageManager, s.cache, s.wal) :=
    verifyEntries_keeps (s.indexManager.getAll ch) s
  obtain ⟨hstorage, hrest⟩ := Prod.mk.inj hkeeps
  obtain ⟨hcache, hwal⟩ := Prod.mk.inj hrest
  rw [hrun]
  refine ⟨?_, fillCacheEntries_wf _ _ _ ?_, ?_⟩
  · change (verifyIndexEntries ch s).final.storageManager = _
    rw [hstorage, hs]
  · rw [hcache, hs]
    exact LRUCache.empty_wf _
  · change (verifyIndexEntries ch s).final.wal = _
    rw [hwal, hs]
    rfl

lemma reopen_tidy (settings : Settings) (ch fill : Choice) (disk : Disk) :
    (reopen settings ch fill disk).Tidy := by
  obtain ⟨hstorage, hcache, hwal⟩ := reopen_opened settings ch fill disk
  refine ⟨?_, hcache, ?_⟩
  · rw [hstorage]
    exact StorageManager.booted_wf _
  · rw [hwal]
    exact WAL.openWal_wf _

end Zest.Shard
