import ZestDB.Index.IndexManager
import ZestDB.Foundations.AssocMap

/-! INDEX is a log of records whose replay is the in-memory tree, and what a crash leaves of it
is the log of its first records. -/

namespace Zest

open Foundations

lemma indexCodec_encodeAll (rs : List IndexEntry) :
    indexCodec.encodeAll rs = rs.flatMap IndexEntry.serialize := by
  have h : indexCodec.encode = IndexEntry.serialize := by
    funext e
    simp [RecordCodec.encode, indexCodec]
  rw [RecordCodec.encodeAll, h]

@[simp] lemma toEntry_location (key : Key) (loc : Location) : (toEntry key loc).location = loc :=
  rfl

@[simp] lemma toEntry_key (key : Key) (loc : Location) : (toEntry key loc).key = key := rfl

lemma toEntry_self {e : IndexEntry} (h : e.isTombstone = false) : toEntry e.key e.location = e := by
  cases e
  simp_all [toEntry, IndexEntry.location]

namespace Tree

lemma lookup_apply (t : Tree) (e : IndexEntry) (k : Key) :
    (t.apply e).lookup k = if k = e.key then
    (if e.isTombstone then none else some e.location) else t.lookup k := by
  simp only [apply]
  split_ifs with ht <;> simp_all [AList.lookup_insert_ite, AList.lookup_erase_ite]

lemma applyAll_append (t : Tree) (es fs : List IndexEntry) :
    t.applyAll (es ++ fs) = (t.applyAll es).applyAll fs :=
  List.foldl_append

lemma applyAll_snoc (t : Tree) (es : List IndexEntry) (e : IndexEntry) :
    t.applyAll (es ++ [e]) = (t.applyAll es).apply e := by
  simp [applyAll]

lemma lookup_applyAll_absent (t : Tree) (es : List IndexEntry) (k : Key)
    (h : k ∉ es.map IndexEntry.key) :
    (t.applyAll es).lookup k = t.lookup k := by
  induction es generalizing t with
  | nil => rfl
  | cons e es ih =>
    simp only [List.map_cons, List.mem_cons, not_or] at h
    change ((t.apply e).applyAll es).lookup k = _
    rw [ih _ h.2, lookup_apply, if_neg h.1]

lemma lookup_applyAll_mem (t : Tree) (es : List IndexEntry) (hn : (es.map IndexEntry.key).Nodup)
    (e : IndexEntry) (he : e ∈ es) :
    (t.applyAll es).lookup e.key = if e.isTombstone then none else some e.location := by
  induction es generalizing t with
  | nil => simp at he
  | cons f es ih =>
    simp only [List.map_cons, List.nodup_cons] at hn
    change ((t.apply f).applyAll es).lookup e.key = _
    rcases List.mem_cons.mp he with rfl | he
    · rw [lookup_applyAll_absent _ _ _ hn.1, lookup_apply, if_pos rfl]
    · exact ih _ hn.2 he

lemma lookup_applyAll_some {es : List IndexEntry} {k : Key} {loc : Location}
    (h : (Tree.applyAll ∅ es).lookup k = some loc) : toEntry k loc ∈ es := by
  induction es using List.reverseRecOn with
  | nil => simp [applyAll] at h
  | append_singleton es e ih =>
    rw [applyAll_snoc, lookup_apply] at h
    split_ifs at h with hk ht
    · obtain rfl : e.location = loc := by simpa using h
      have he : toEntry k e.location = e := by
        rw [hk]
        exact toEntry_self (by simpa using ht)
      simp [he]
    · simp [ih h]

lemma applyAll_keys_le (es : List IndexEntry) : (Tree.applyAll ∅ es).keys.length ≤ es.length := by
  have hlen : es.length = (es.map IndexEntry.key).length := (List.length_map _).symm
  rw [hlen]
  refine ((Tree.applyAll ∅ es).keys_nodup.subperm fun k hk => ?_).length_le
  obtain ⟨loc, hl⟩ := AList.mem_iff_lookup.mp hk
  exact List.mem_map.mpr ⟨toEntry k loc, lookup_applyAll_some hl, rfl⟩

end Tree

namespace IndexManager

variable {im : IndexManager} {ch : Choice} {rs ts : List IndexEntry}

lemma mem_walk {e : IndexEntry} :
    e ∈ im.walk ch ↔ ∃ loc, im.memoryTree.lookup e.key = some loc ∧ e = toEntry e.key loc := by
  simp only [walk, List.mem_filterMap, Option.map_eq_some_iff]
  constructor
  · rintro ⟨k, _, loc, hl, rfl⟩
    exact ⟨loc, hl, rfl⟩
  · rintro ⟨loc, hl, he⟩
    exact ⟨e.key, (ch.walkKeys_perm _).mem_iff.mpr (AList.mem_iff_lookup.mpr ⟨loc, hl⟩), loc, hl,
      he.symm⟩

lemma walk_keys (im : IndexManager) (ch : Choice) :
    (im.walk ch).map IndexEntry.key = ch.walkKeys im.memoryTree.keys := by
  have h : ∀ l : List Key, (∀ k ∈ l, k ∈ im.memoryTree.keys) →
      (l.filterMap fun key => (im.memoryTree.lookup key).map (toEntry key)).map IndexEntry.key =
        l := by
    intro l hl
    induction l with
    | nil => rfl
    | cons k l ih =>
      obtain ⟨loc, hk⟩ := AList.mem_iff_lookup.mp (hl k (by simp))
      simp [hk, ih (fun j hj => hl j (by simp [hj]))]
  exact h _ (fun k hk => (ch.walkKeys_perm _).mem_iff.mp hk)

lemma walk_nodup (im : IndexManager) (ch : Choice) : ((im.walk ch).map IndexEntry.key).Nodup := by
  rw [walk_keys]
  exact (ch.walkKeys_perm _).nodup_iff.mpr im.memoryTree.keys_nodup

lemma walk_length (im : IndexManager) (ch : Choice) :
    (im.walk ch).length = im.memoryTree.keys.length := by
  have hlen : (im.walk ch).length = ((im.walk ch).map IndexEntry.key).length :=
    (List.length_map _).symm
  rw [hlen, walk_keys, (ch.walkKeys_perm _).length_eq]

lemma mem_of_mem_getAll {e : IndexEntry} (he : e ∈ im.getAll ch) :
    ∃ loc, im.memoryTree.lookup e.key = some loc ∧ e = toEntry e.key loc :=
  mem_walk.mp (List.mem_of_mem_take he)

lemma getAll_nodup (im : IndexManager) (ch : Choice) : ((im.getAll ch).map IndexEntry.key).Nodup :=
  ((List.take_sublist _ _).map _).nodup (walk_nodup im ch)

lemma keys_le {t : Tree} {ks : List Key} (hn : ks.Nodup)
    (h : ∀ k ∈ ks, ∃ loc, t.lookup k = some loc) :
    ks.length ≤ t.keys.length :=
  (hn.subperm fun k hk => AList.mem_iff_lookup.mpr (h k hk)).length_le

/-- The index has no more keys than `getAll` hands over. -/
def FewKeys (im : IndexManager) : Prop := im.memoryTree.keys.length ≤ UINT_MAX

instance (im : IndexManager) : Decidable im.FewKeys := inferInstanceAs (Decidable (_ ≤ _))

lemma FewKeys.of_lookup {im' : IndexManager} (h : im.FewKeys)
    (hsub : ∀ k loc, im'.memoryTree.lookup k = some loc → ∃ loc', im.memoryTree.lookup k =
      some loc') : im'.FewKeys := by
  refine (keys_le im'.memoryTree.keys_nodup fun k hk => ?_).trans h
  obtain ⟨loc, hl⟩ := AList.mem_iff_lookup.mp hk
  exact hsub k loc hl

lemma getAll_eq_walk (h : im.FewKeys) (ch : Choice) : im.getAll ch = im.walk ch :=
  List.take_of_length_le ((im.walk_length ch).le.trans h)

lemma exists_left_out (h : ¬ im.FewKeys) (ch : Choice) :
    ∃ k ∈ im.memoryTree.keys, k ∉ (im.getAll ch).map IndexEntry.key := by
  by_contra hall
  simp only [not_exists, not_and, not_not] at hall
  have hle := (im.memoryTree.keys_nodup.subperm hall).length_le
  rw [List.length_map, getAll, List.length_take] at hle
  exact h (hle.trans (min_le_left _ _))

/-- `w` bytes from 128 on, none of which is a blank or a letter. -/
def highBytes : ℕ → ℕ → Bytes
  | 0, _ => []
  | w + 1, x => Fin.ofNat 256 (128 + x % 128) :: highBytes w (x / 128)

lemma highBytes_injOn (w : ℕ) : ∀ x < 128 ^ w, ∀ y < 128 ^ w, highBytes w x = highBytes w y →
    x = y := by
  induction w with
  | zero =>
    intro x hx y hy _
    omega
  | succ w ih =>
    intro x hx y hy h
    rw [pow_succ] at hx hy
    simp only [highBytes, List.cons.injEq] at h
    have hrest := ih (x / 128) (Nat.div_lt_of_lt_mul (by omega)) (y / 128)
      (Nat.div_lt_of_lt_mul (by omega)) h.2
    have hdigit := congrArg Fin.val h.1
    simp only [Fin.ofNat] at hdigit
    omega

def manyKeys : List Key := (List.range (2 ^ 32)).map (highBytes 5)

lemma manyKeys_length : manyKeys.length = 2 ^ 32 := by
  rw [manyKeys, List.length_map, List.length_range]

lemma manyKeys_nodup : manyKeys.Nodup := by
  refine List.Nodup.map_on (fun i hi j hj hij => ?_) List.nodup_range
  have hlt : ∀ i ∈ List.range (2 ^ 32), i < 128 ^ 5 :=
    fun i hi => (List.mem_range.mp hi).trans (by decide)
  exact highBytes_injOn 5 i (hlt i hi) j (hlt j hj) hij

lemma highBytes_length (w x : ℕ) : (highBytes w x).length = w := by
  induction w generalizing x with
  | zero => rfl
  | succ w ih => rw [highBytes, List.length_cons, ih]

lemma length_of_mem_manyKeys {k : Key} (hk : k ∈ manyKeys) : k.length = 5 := by
  obtain ⟨i, -, rfl⟩ := List.mem_map.mp hk
  exact highBytes_length 5 i

lemma le_of_mem_highBytes {w x : ℕ} {b : Byte} (hb : b ∈ highBytes w x) : 128 ≤ b := by
  induction w generalizing x with
  | zero => cases hb
  | succ w ih =>
    rcases List.mem_cons.mp hb with rfl | hb
    · rw [Fin.le_def]
      simp only [Fin.ofNat]
      omega
    · exact ih hb

lemma le_of_mem_manyKeys {k : Key} (hk : k ∈ manyKeys) {b : Byte} (hb : b ∈ k) : 128 ≤ b := by
  obtain ⟨i, -, rfl⟩ := List.mem_map.mp hk
  exact le_of_mem_highBytes hb

lemma too_many {t : Tree} (h : ∀ k ∈ manyKeys, ∃ loc, t.lookup k = some loc) :
    ¬ t.keys.length ≤ UINT_MAX := by
  have hle := keys_le manyKeys_nodup h
  rw [manyKeys_length] at hle
  exact fun hfew => absurd (hle.trans hfew) (by decide)

lemma applyAll_getAll (h : im.FewKeys) (ch : Choice) (k : Key) :
    (Tree.applyAll ∅ (im.getAll ch)).lookup k = im.memoryTree.lookup k := by
  cases hk : im.memoryTree.lookup k with
  | some loc =>
    refine Tree.lookup_applyAll_mem ∅ _ (getAll_nodup im ch) (toEntry k loc) ?_
    rw [getAll_eq_walk h]
    exact mem_walk.mpr ⟨loc, hk, rfl⟩
  | none =>
    rw [Tree.lookup_applyAll_absent, AList.lookup_empty]
    intro hmem
    obtain ⟨e, he, rfl⟩ := List.mem_map.mp hmem
    obtain ⟨loc, hl, -⟩ := mem_of_mem_getAll he
    rw [hl] at hk
    cases hk

/-- INDEX holds the records `rs`, flushed, and `ts`, written since; their replay is the tree. -/
structure Log (im : IndexManager) (rs ts : List IndexEntry) : Prop where
  synced : im.index.synced = indexCodec.encodeAll rs
  pending : im.index.pending = indexCodec.encodeAll ts
  fits : ∀ e ∈ rs ++ ts, e.Fits
  tree : ∀ k, im.memoryTree.lookup k = (Tree.applyAll ∅ (rs ++ ts)).lookup k
  clean : im.canFlush = false → ts = []

namespace Log

lemma append_record (h : im.Log rs ts) {e : IndexEntry} (he : e.Fits) {t : Tree}
    (ht : ∀ k, t.lookup k = (im.memoryTree.apply e).lookup k) :
    Log { im.append e with memoryTree := t } rs (ts ++ [e]) where
  synced := h.synced
  pending := by
    change im.index.pending ++ e.serialize = _
    rw [h.pending, indexCodec_encodeAll, indexCodec_encodeAll]
    simp
  fits f hf := by
    simp only [List.mem_append, List.mem_singleton] at hf
    rcases hf with hf | hf | rfl
    · exact h.fits f (by simp [hf])
    · exact h.fits f (by simp [hf])
    · exact he
  tree k := by
    rw [← List.append_assoc, Tree.applyAll_snoc, ht, Tree.lookup_apply, Tree.lookup_apply, h.tree]
  clean hc := by simp [append] at hc

lemma insert (h : im.Log rs ts) {e : IndexEntry} (he : e.Fits) (hl : e.isTombstone = false) :
    (im.insert e).Log rs (ts ++ [e]) := by
  refine h.append_record he fun k => ?_
  simp [Tree.lookup_apply, AList.lookup_insert_ite, hl]

lemma update_tombstone (h : im.Log rs ts) {key : Key} {e : IndexEntry} {loc : Location}
    (hk : im.memoryTree.lookup key = some loc)
    (he : ({ e with key := key, isTombstone := true } : IndexEntry).Fits) :
    (im.update key { e with isTombstone := true }).Log rs
    (ts ++ [{ e with key := key, isTombstone := true }]) := by
  simp only [IndexManager.update, hk, if_true]
  refine h.append_record he fun k => ?_
  simp [Tree.lookup_apply, AList.lookup_erase_ite]

lemma entry_fits (h : im.Log rs ts) {k : Key} {loc : Location}
    (hk : im.memoryTree.lookup k = some loc) :
    (toEntry k loc).Fits := by
  rw [h.tree] at hk
  exact h.fits _ (Tree.lookup_applyAll_some hk)

lemma compact (h : im.Log rs ts) (hf : im.FewKeys) (ch : Choice) :
    (im.compact ch).Log (im.getAll ch) [] where
  synced := by simp [IndexManager.compact, BufferedFile.ofContent, indexCodec_encodeAll]
  pending := by simp [IndexManager.compact, BufferedFile.ofContent]
  fits e he := by
    obtain ⟨loc, hl, he⟩ := mem_of_mem_getAll (by simpa using he)
    rw [he]
    exact h.entry_fits hl
  tree k := by
    rw [List.append_nil, applyAll_getAll hf]
    rfl
  clean _ := rfl

lemma flush (h : im.Log rs ts) : (im.flush).Log (rs ++ ts) [] := by
  simp only [IndexManager.flush]
  cases hc : im.canFlush with
  | true =>
    refine ⟨?_, rfl, by simpa using h.fits, by simpa using h.tree, fun _ => rfl⟩
    simp [BufferedFile.flush, BufferedFile.content, h.synced, h.pending]
  | false =>
    obtain rfl := h.clean hc
    simpa [hc] using h

lemma of_records (hr : ∀ e ∈ rs, e.Fits) :
    (loadIndexIntoMemory (indexCodec.encodeAll rs)).Log rs [] := by
  have hd := indexCodec.decodeAll_encodeAll rs hr
  refine ⟨?_, rfl, by simpa using hr, fun k => ?_, fun _ => rfl⟩
  · simp only [loadIndexIntoMemory, hd, List.length_nil, Nat.sub_zero, List.take_length]
    rfl
  · simp only [loadIndexIntoMemory, hd, List.append_nil]

lemma load (h : im.Log rs ts) {file : Bytes} (hs : im.index.Survives file) :
    ∃ m ≤ ts.length, (loadIndexIntoMemory file).Log (rs ++ ts.take m) [] := by
  obtain ⟨kept, hk, rfl⟩ := hs
  rw [h.synced]
  rw [h.pending] at hk
  obtain ⟨m, hm, t, rfl, ht⟩ :=
    indexCodec.cut_unpadded rfl ts (fun a ha => h.fits a (by simp [ha])) kept hk
  have hv : ∀ e ∈ rs ++ ts.take m, e.Fits := by
    intro e he
    rcases List.mem_append.mp he with he | he
    · exact h.fits e (by simp [he])
    · exact h.fits e (by simp [List.mem_of_mem_take he])
  have hd : indexCodec.decodeAll (indexCodec.encodeAll (rs ++ ts.take m) ++ t) =
      (rs ++ ts.take m, t) := by
    rcases ht with ht | rfl
    · exact indexCodec.decodeAll_append _ hv _ ht
    · rw [List.append_nil]
      exact indexCodec.decodeAll_encodeAll _ hv
  refine ⟨m, hm, ?_⟩
  rw [← List.append_assoc, ← RecordCodec.encodeAll_append]
  refine ⟨?_, rfl, by simpa using hv, fun k => ?_, fun _ => rfl⟩
  · simp only [loadIndexIntoMemory, hd, BufferedFile.ofContent, List.length_append,
      Nat.add_sub_cancel, List.take_left' rfl]
  · simp only [loadIndexIntoMemory, hd, List.append_nil]

end Log

end IndexManager

end Zest
