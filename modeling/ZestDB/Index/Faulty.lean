import ZestDB.Index.Log

/-! INDEX behind a stream whose writes can fail: a record may go to the file in part, the error
state is only looked at by `flush`, and the next record clears it. -/

namespace Zest

open Foundations

lemma IndexEntry.deserialize_used (xs : Bytes) (e : IndexEntry) (rest : Bytes)
    (h : deserialize xs = some (e, rest)) :
    ∃ used, used ≠ [] ∧ xs = used ++ rest ∧ ∀ ys, deserialize (used ++ ys) = some (e, ys) := by
  simp only [deserialize] at h
  split_ifs at h with hhead hkey
  simp only [Option.some.injEq, Prod.mk.injEq] at h
  obtain ⟨he, hrest⟩ := h
  have hlen : HEADER_SIZE ≤ xs.length := by
    have := not_or.mp hhead
    simp only [List.length_take, not_lt] at this
    omega
  have hklen := Nat.le_of_not_lt hkey
  simp only [List.length_drop] at hklen
  refine ⟨xs.take (HEADER_SIZE + leValue ((xs.take HEADER_SIZE).take 4)), ?_, ?_, fun ys => ?_⟩
  · refine List.ne_nil_of_length_pos ?_
    rw [List.length_take]
    simp only [HEADER_SIZE] at hlen ⊢
    omega
  · rw [← hrest, List.drop_drop, List.take_append_drop]
  · have hhd : (xs.take (HEADER_SIZE + leValue ((xs.take HEADER_SIZE).take 4)) ++ ys).take
        HEADER_SIZE =
        xs.take HEADER_SIZE := by
      rw [List.take_append_of_le_length (by rw [List.length_take]; omega), List.take_take,
        min_eq_left (by omega)]
    have htl : (xs.take (HEADER_SIZE + leValue ((xs.take HEADER_SIZE).take 4)) ++ ys).drop
        HEADER_SIZE =
        (xs.drop HEADER_SIZE).take (leValue ((xs.take HEADER_SIZE).take 4)) ++ ys := by
      rw [List.drop_append_of_le_length (by rw [List.length_take]; omega), List.drop_take,
        Nat.add_sub_cancel_left]
    have hkl : ((xs.drop HEADER_SIZE).take (leValue ((xs.take HEADER_SIZE).take 4))).length =
        leValue ((xs.take HEADER_SIZE).take 4) := by
      rw [List.length_take, List.length_drop]
      omega
    simp only [deserialize, hhd, htl]
    rw [if_neg hhead, if_neg (by rw [List.length_append, hkl]; omega), List.take_left' hkl,
      List.drop_left' hkl, he]

lemma IndexEntry.deserialize_fits {xs rest : Bytes} {e : IndexEntry}
    (h : deserialize xs = some (e, rest)) : e.Fits := by
  simp only [deserialize] at h
  split_ifs at h with hhead hkey
  simp only [Option.some.injEq, Prod.mk.injEq] at h
  obtain ⟨rfl, -⟩ := h
  have hklen := Nat.le_of_not_lt (not_or.mp hhead).2
  have hfield : ∀ (ys : Bytes) (w : ℕ), leValue (ys.take w) < 256 ^ w := fun ys w =>
    (leValue_lt _).trans_le (Nat.pow_le_pow_right (by norm_num) (List.length_take_le _ _))
  refine ⟨?_, (hfield _ 8).trans_eq (by norm_num), (hfield _ 4).trans_eq (by norm_num),
    (hfield _ 4).trans_eq (by norm_num)⟩
  exact (List.length_take_le _ _).trans hklen

structure IndexStream where
  manager : IndexManager
  good : Bool
deriving DecidableEq

/-- A call, with the bytes of its record that the stream accepts, or whether its other writes
succeed. -/
inductive IndexCall where
  | insert (entry : IndexEntry) (accepted : ℕ)
  | update (key : Key) (entry : IndexEntry) (accepted : ℕ)
  | compact (ch : Choice) (written : Bool)
  | flush (written : Bool)

/-- What every caller hands over: entries that fit their record, and no tombstone to `insert`. -/
def IndexCall.Valid : IndexCall → Prop
  | .insert entry _ => entry.Fits ∧ entry.isTombstone = false
  | .update key entry _ => ({ entry with key := key } : IndexEntry).Fits
  | _ => True

namespace IndexStream

def append (is : IndexStream) (entry : IndexEntry) (accepted : ℕ) : IndexStream where
  manager := { is.manager with
    index := is.manager.index.append (entry.serialize.take accepted)
    canFlush := true }
  good := entry.serialize.length ≤ accepted

def setTree (is : IndexStream) (tree : Tree) : IndexStream :=
  { is with manager := { is.manager with memoryTree := tree } }

def insert (is : IndexStream) (entry : IndexEntry) (accepted : ℕ) : IndexStream :=
  (is.append entry accepted).setTree (is.manager.memoryTree.insert entry.key entry.location)

def update (is : IndexStream) (key : Key) (entry : IndexEntry) (accepted : ℕ) : IndexStream :=
  match is.manager.memoryTree.lookup key with
  | none => is
  | some _ =>
    let appended := is.append { entry with key := key } accepted
    if entry.isTombstone then appended.setTree (is.manager.memoryTree.erase key)
    else appended.setTree (is.manager.memoryTree.insert key entry.location)

/-- The new INDEX comes with a new stream; a failure leaves the old ones. -/
def compact (is : IndexStream) (ch : Choice) (written : Bool) : IndexStream :=
  if written then ⟨is.manager.compact ch, true⟩ else is

def flush (is : IndexStream) (written : Bool) : Bool × IndexStream :=
  if is.manager.canFlush then
    if is.good && written then
      (true, ⟨is.manager.flush, true⟩) else (false, { is with good := is.good && written })
  else (true, is)

def call (is : IndexStream) : IndexCall → IndexStream
  | .insert entry accepted => is.insert entry accepted
  | .update key entry accepted => is.update key entry accepted
  | .compact ch written => is.compact ch written
  | .flush written => (is.flush written).2

def create (file : Bytes) (ch : Choice) (written : Bool) : IndexStream :=
  compact ⟨.loadIndexIntoMemory file, true⟩ ch written

variable {is : IndexStream} {entry : IndexEntry} {accepted : ℕ}
  {key : Key} {ch : Choice} {written : Bool}

lemma insert_complete (h : entry.serialize.length ≤ accepted) : is.insert entry accepted =
      ⟨is.manager.insert entry, true⟩ := by
  simp only [insert,
    append, setTree, List.take_of_length_le h, h, decide_true, IndexManager.insert,
    IndexManager.append]

lemma update_complete (h : ({
    entry with key := key } : IndexEntry).serialize.length ≤ accepted) (hgood : is.good = true) :
    is.update key entry accepted = ⟨is.manager.update key entry, true⟩ := by
  simp only [update, IndexManager.update]
  cases is.manager.memoryTree.lookup key with
  | none => rw [← hgood]
  | some loc =>
    simp only [append, setTree, List.take_of_length_le h, h, decide_true, IndexManager.append]
    split_ifs <;> rfl

/-- INDEX is good to read as long as the stream is, and what is not flushed is known. -/
structure Intact (is : IndexStream) : Prop where
  fits : ∀ k loc, is.manager.memoryTree.lookup k = some loc → (toEntry k loc).Fits
  clean : is.manager.canFlush = false → is.good = true ∧ is.manager.index.pending = []
  log : is.good = true → ∃ rs, Spells IndexEntry.deserialize rs is.manager.index.content ∧
    ∀ k, is.manager.memoryTree.lookup k = (Tree.applyAll ∅ rs).lookup k

lemma Intact.append (h : is.Intact) (hgood : is.good = true) (he : entry.Fits) {tree : Tree}
    (ht : ∀ k, tree.lookup k = (is.manager.memoryTree.apply entry).lookup k) :
    ((is.append entry accepted).setTree tree).Intact := by
  refine ⟨fun k loc hk => ?_, (fun hc => by cases hc), fun hdone => ?_⟩
  · change tree.lookup k = some loc at hk
    rw [ht, Tree.lookup_apply] at hk
    split_ifs at hk with hkey htomb
    · obtain rfl := Option.some.inj hk
      rw [hkey]
      exact ⟨he.key, he.offset, he.segmentId, he.size⟩
    · exact h.fits k loc hk
  · obtain ⟨rs, hspells, htree⟩ := h.log hgood
    have hwhole : entry.serialize.length ≤ accepted := of_decide_eq_true hdone
    have hone : Spells IndexEntry.deserialize [entry] entry.serialize := by
      have := indexCodec.spells_encode (a := entry) he
      rwa [show indexCodec.encode entry = entry.serialize from List.append_nil _] at this
    refine ⟨rs ++ [entry], ?_, fun k => ?_⟩
    · change Spells _ _ (is.manager.index.append (entry.serialize.take accepted)).content
      rw [BufferedFile.content_append, List.take_of_length_le hwhole]
      exact hspells.append hone
    · change tree.lookup k = _
      rw [ht, Tree.applyAll_snoc, Tree.lookup_apply, Tree.lookup_apply, htree]

variable (accepted) in
lemma insert_intact (h : is.Intact) (hgood : is.good = true) (he : entry.Fits)
    (hlive : entry.isTombstone = false) :
    (is.insert entry accepted).Intact :=
  h.append hgood he fun k => by simp [Tree.lookup_apply, AList.lookup_insert_ite, hlive]

variable (accepted) in
lemma update_intact (h : is.Intact) (hgood : key ∈ is.manager.memoryTree → is.good = true)
    (he : ({ entry with key := key } : IndexEntry).Fits) :
    (is.update key entry accepted).Intact := by
  simp only [update]
  cases hk : is.manager.memoryTree.lookup key with
  | none => exact h
  | some loc =>
    have hmem : key ∈ is.manager.memoryTree := AList.mem_iff_lookup.mpr ⟨loc, hk⟩
    have hwrote : ∀ tree : Tree,
        (∀ k, tree.lookup k = (is.manager.memoryTree.apply { entry with key := key }).lookup k) →
        ((is.append { entry with key := key } accepted).setTree tree).Intact :=
          fun tree ht => h.append (hgood hmem) he ht
    dsimp only
    split_ifs with htomb
    · exact hwrote _ fun k => by simp [Tree.lookup_apply, AList.lookup_erase_ite, htomb]
    · exact hwrote _ fun k => by
        simp [Tree.lookup_apply, AList.lookup_insert_ite, htomb, IndexEntry.location]

variable (ch) in
lemma compact_intact (h : is.Intact) (hfew : written = true → is.manager.FewKeys) :
    (is.compact ch written).Intact := by
  simp only [compact]
  split_ifs with hw
  · refine ⟨h.fits, fun _ => ⟨rfl, rfl⟩, fun _ => ⟨is.manager.getAll ch, ?_, fun k => ?_⟩⟩
    · change Spells _ _ (BufferedFile.ofContent _).content
      rw [BufferedFile.content_ofContent, ← indexCodec_encodeAll]
      refine indexCodec.spells_encodeAll fun e he => ?_
      obtain ⟨loc, hl, hee⟩ := IndexManager.mem_of_mem_getAll he
      rw [hee]
      exact h.fits _ loc hl
    · exact (IndexManager.applyAll_getAll (hfew hw) ch k).symm
  · exact h

variable (written) in
lemma flush_intact (h : is.Intact) : (is.flush written).2.Intact := by
  simp only [flush]
  split_ifs with hc hgood
  · simp only [Bool.and_eq_true] at hgood
    have hflush : is.manager.flush =
        { is.manager with index := is.manager.index.flush, canFlush := false } := if_pos hc
    refine ⟨?_, fun _ => ⟨rfl, ?_⟩, fun _ => ?_⟩
    · rw [hflush]
      exact h.fits
    · rw [hflush]
      rfl
    · obtain ⟨rs, hspells, htree⟩ := h.log hgood.1
      rw [hflush]
      exact ⟨rs, by rw [BufferedFile.content_flush]; exact hspells, htree⟩
  · refine ⟨h.fits, fun hc' => ?_, fun hgood' => ?_⟩
    · exact absurd (hc.symm.trans hc') (by decide)
    · exact absurd hgood' hgood
  · exact h

lemma create_intact {file : Bytes} (ch : Choice)
    (hfew : written = true → (IndexManager.loadIndexIntoMemory file).FewKeys) :
    (create file ch written).Intact := by
  refine compact_intact ch ?_ hfew
  obtain ⟨front, hfile, hspells⟩ := decodeLog_spells IndexEntry.deserialize_used file.length file
  have hfits : ∀ e ∈ (indexCodec.decodeAll file).1, e.Fits := by
    have hall : ∀ rs xs, Spells IndexEntry.deserialize rs xs → ∀ e ∈ rs, e.Fits := by
      intro rs xs hs
      induction hs with
      | nil => simp
      | cons _ hd _ ih =>
        intro e he
        rcases List.mem_cons.mp he with rfl | he
        · exact IndexEntry.deserialize_fits (hd [])
        · exact ih e he
    exact hall _ _ hspells
  refine ⟨fun k loc hk => hfits _ (Tree.lookup_applyAll_some hk), fun _ => ⟨rfl, rfl⟩,
    fun _ => ⟨_, ?_, fun k => rfl⟩⟩
  change Spells _ _ (BufferedFile.ofContent _).content
  have hcut : file.take (file.length - (indexCodec.decodeAll file).2.length) = front := by
    have hlen := congrArg List.length hfile
    rw [List.length_append] at hlen
    change _ = _ + (indexCodec.decodeAll file).2.length at hlen
    rw [hlen, Nat.add_sub_cancel]
    conv_lhs => rw [hfile]
    exact List.take_left' rfl
  rw [BufferedFile.content_ofContent, hcut]
  exact hspells

/-- The call writes a record to a stream in an error state, which it clears, or it rewrites INDEX
without the keys that `getAll` leaves out. -/
def Breaks (is : IndexStream) : IndexCall → Prop
  | .insert _ _ => is.good = false
  | .update key _ _ => key ∈ is.manager.memoryTree ∧ is.good = false
  | .compact _ written => written = true ∧ ¬ is.manager.FewKeys
  | .flush _ => False

/-- The states after the constructor and any calls, none of which breaks INDEX. -/
inductive Reached (file : Bytes) : IndexStream → Prop
  | create (ch : Choice) (written : Bool) :
      (written = true → (IndexManager.loadIndexIntoMemory file).FewKeys) →
      Reached file (create file ch written)
  | call {before : IndexStream} (c : IndexCall) :
      Reached file before → c.Valid → ¬ before.Breaks c → Reached file (before.call c)

lemma Reached.intact {file : Bytes} (h : Reached file is) : is.Intact := by
  induction h with
  | create ch written hfew => exact create_intact ch hfew
  | call c _ hvalid hbreaks ih =>
    cases c with
    | insert entry accepted =>
      exact insert_intact _ ih (Bool.of_not_eq_false hbreaks) hvalid.1 hvalid.2
    | update key entry accepted =>
      exact update_intact _ ih (fun hmem => Bool.of_not_eq_false fun hbad =>
        hbreaks ⟨hmem, hbad⟩) hvalid
    | compact ch written =>
      exact compact_intact ch ih fun hw => not_not.mp fun hmany => hbreaks ⟨hw, hmany⟩
    | flush written => exact flush_intact _ ih

def Truthful (im : IndexManager) : Prop :=
  im.index.pending = [] ∧
    ∀ k, (IndexManager.loadIndexIntoMemory im.index.synced).memoryTree.lookup k =
      im.memoryTree.lookup k

lemma Intact.truthful (h : is.Intact) (hgood : is.good = true)
    (hp : is.manager.index.pending = []) :
    Truthful is.manager := by
  refine ⟨hp, fun k => ?_⟩
  obtain ⟨rs, hspells, htree⟩ := h.log hgood
  rw [BufferedFile.content, hp, List.append_nil] at hspells
  have hdecode := indexCodec.decodeAll_spells hspells rfl
  rw [htree, IndexManager.loadIndexIntoMemory, hdecode]

/-- As long as no record is written to a stream in an error state and no index of more keys than
`getAll` hands over is compacted, a flush that succeeds has put the whole index on disk. -/
theorem flush_truthful {file : Bytes} (h : Reached file is) (hok : (is.flush written).1 = true) :
    Truthful (is.flush written).2.manager := by
  have hintact : (is.flush written).2.Intact := flush_intact _ h.intact
  have hclean : (is.flush written).2.manager.canFlush = false := by
    simp only [flush] at hok ⊢
    split_ifs at hok ⊢ with hc hgood
    · rw [IndexManager.flush, if_pos hc]
    · exact Bool.eq_false_of_not_eq_true hc
  obtain ⟨hgood, hp⟩ := hintact.clean hclean
  exact hintact.truthful hgood hp

def entryA : IndexEntry := ⟨ascii "a", 0, 1, 1, false⟩

def entryB : IndexEntry := ⟨ascii "b", 1, 1, 1, false⟩

theorem insert_flush_truthful :
    Truthful ((((create [] .plain true).call (.insert entryA 22)).flush true).2).manager := by
  have hgood : ¬ (create [] .plain true).good = false := by decide
  refine flush_truthful
    (.call (.insert entryA 22) (.create .plain true fun _ => ?_) ⟨⟨?_, ?_, ?_, ?_⟩, rfl⟩ hgood) ?_
  all_goals decide

/-- The record of `a` is written in part, that of `b` behind it. -/
def brokenRecord : IndexStream :=
  ((create [] .plain true).call (.insert entryA 5)).call (.insert entryB 22)

theorem brokenRecord_not_truthful :
    (IndexCall.insert entryA 5).Valid ∧ (IndexCall.insert entryB 22).Valid ∧
    (brokenRecord.flush true).1 = true ∧ ¬ Truthful (brokenRecord.flush true).2.manager := by
  refine ⟨⟨⟨?_, ?_, ?_, ?_⟩, rfl⟩, ⟨⟨?_, ?_, ?_, ?_⟩, rfl⟩, ?_, fun h => ?_⟩
  all_goals first
    | decide
    | skip
  have hload : (IndexManager.loadIndexIntoMemory (brokenRecord.flush
      true).2.manager.index.synced).memoryTree.lookup
      (ascii "a") = none := by decide +kernel
  have htree : (brokenRecord.flush true).2.manager.memoryTree.lookup (ascii "a") =
      some ⟨0, 1, 1⟩ := by decide +kernel
  have hlook := h.2 (ascii "a")
  rw [hload, htree] at hlook
  cases hlook

end IndexStream

end Zest
