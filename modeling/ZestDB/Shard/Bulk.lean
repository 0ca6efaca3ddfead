import ZestDB.Shard.Operations
import ZestDB.Store

/-! What the operations on every matching key of a shard return and do. -/

namespace Zest.Shard

open Foundations

variable {A : Key → Value → Prop} {B : Key → Prop} {s t : Shard} {value : Value} {ch : Choice}
variable {valid : ValidationRule} {count claimed : Option ℕ} {entry e : IndexEntry}
  {entries : List IndexEntry}

/-- The rule has no limit, or the caller does not count. -/
def Unlimited (valid : ValidationRule) (count : Option ℕ) : Prop :=
  valid.limit = UINT_MAX ∨ count = none

lemma Unlimited.claim (h : Unlimited valid count) : valid.claim count = some count := by
  rcases h with h | rfl
  · cases count with
    | none => rfl
    | some c => simp [ValidationRule.claim, h]
  · rfl

lemma Unlimited.stopEarly (h : Unlimited valid count) : valid.stopEarly count = false := by
  rcases h with h | rfl
  · cases count with
    | none => rfl
    | some c => simp [ValidationRule.stopEarly, h]
  · rfl

lemma mem_findMatching {matching : Key → Bool} {stop : Bool} {im : IndexManager}
    (he : e ∈ im.findMatching ch matching stop) :
    matching e.key = true ∧ ∃ loc, im.memoryTree.lookup e.key = some loc ∧
    e = toEntry e.key loc := by
  simp only [IndexManager.findMatching] at he
  split_ifs at he
  · simp at he
  · obtain ⟨hm, hp⟩ := List.mem_filter.mp he
    exact ⟨hp, IndexManager.mem_walk.mp hm⟩

lemma findMatching_nodup {matching : Key → Bool} {stop : Bool} {im : IndexManager} :
    ((im.findMatching ch matching stop).map IndexEntry.key).Nodup := by
  simp only [IndexManager.findMatching]
  split_ifs
  · simp
  · exact (List.filter_sublist.map _).nodup (IndexManager.walk_nodup im ch)

/-- `entries` are entries of the index of `s`, one for each key. -/
structure Listed (s : Shard) (entries : List IndexEntry) : Prop where
  nodup : (entries.map IndexEntry.key).Nodup
  lookup : ∀ e ∈ entries, ∃ loc, s.tree.lookup e.key = some loc ∧ e = toEntry e.key loc

lemma listed_findMatching (s : Shard) (ch : Choice) (matching : Key → Bool) (stop : Bool) :
    s.Listed (s.indexManager.findMatching ch matching stop) :=
  ⟨findMatching_nodup, fun _ he => (mem_findMatching he).2⟩

lemma Listed.live (hl : s.Listed entries) (h : s.Inv) (he : e ∈ entries) : live e = true := by
  obtain ⟨loc, hk, hee⟩ := hl.lookup e he
  rw [hee]
  exact h.live_entry hk

lemma mem_findMatching_keys (s : Shard) (ch : Choice) (matching : Key → Bool) (k : Key) :
    k ∈ (s.indexManager.findMatching ch matching false).map IndexEntry.key ↔
      matching k = true ∧ (s.toMap k).isSome := by
  have hm : (s.toMap k).isSome ↔ ∃ loc, s.tree.lookup k = some loc := by
    simp [toMap, Option.isSome_iff_exists]
  rw [hm, List.mem_map]
  constructor
  · rintro ⟨e, he, rfl⟩
    obtain ⟨hp, loc, hk, -⟩ := mem_findMatching he
    exact ⟨hp, loc, hk⟩
  · rintro ⟨hp, loc, hk⟩
    refine ⟨toEntry k loc, ?_, rfl⟩
    simp only [IndexManager.findMatching, Bool.false_eq_true, if_false, List.mem_filter]
    exact ⟨IndexManager.mem_walk.mpr ⟨loc, hk, rfl⟩, hp⟩

lemma setByEntries_stop (hl : live entry = true) (hc : valid.claim count = none) :
    setByEntries valid value (entry :: entries) count s = ⟨(0, count), s, []⟩ := by
  rw [setByEntries, if_pos hl]
  simp only [hc]
  rfl

lemma setByEntries_refused (hl : live entry = true) (hc : valid.claim count = some claimed)
    {ts : List Shard}
    (ha : onStorage (StorageManager.append s.settings.SegSize value) s = ⟨e, t, ts⟩)
    (he : e.segmentId = INVALID_SEGMENT_ID) {r : Outcome Shard (ℕ × Option ℕ)}
    (hr : setByEntries valid value entries count t = r) :
    setByEntries valid value (entry :: entries) count s = ⟨r.val, r.final, ts ++ r.visited⟩ := by
  rw [setByEntries, if_pos hl]
  simp only [hc]
  rw [Traced.get_bind]
  refine Traced.bind_eq ha ?_
  rw [if_pos he, hr]

lemma setByEntries_put (hl : live entry = true) (hc : valid.claim count = some claimed)
    {ts : List Shard}
    (ha : onStorage (StorageManager.append s.settings.SegSize value) s = ⟨e, t, ts⟩)
    (he : e.segmentId ≠ INVALID_SEGMENT_ID) {r : Outcome Shard (ℕ × Option ℕ)} {u : Shard}
    (hu : u = putIndex { e with key := entry.key } value t)
    (hr : setByEntries valid value entries claimed u = r) :
    setByEntries valid value (entry :: entries) count s =
      ⟨(r.val.1 + 1, r.val.2), r.final, ts ++ (u :: r.visited)⟩ := by
  rw [setByEntries, if_pos hl]
  simp only [hc]
  rw [Traced.get_bind]
  refine Traced.bind_eq ha ?_
  rw [if_neg he]
  subst hu
  refine Traced.bind_eq (Traced.step_run _ t) ?_
  rw [← List.append_nil r.visited]
  refine Traced.bind_eq hr ?_
  rfl

def Puts (entries : List IndexEntry) (value : Value) (k : Key) (v : Value) : Prop :=
  k ∈ entries.map IndexEntry.key ∧ v = value

lemma Puts.cons (k : Key) (v : Value) (h : Puts entries value k v) :
    Puts (entry :: entries) value k v :=
  ⟨by simp [h.1], h.2⟩

lemma within_rest {P : Shard → Prop} {α : Type} {x y : Traced Shard α} {ts : List Shard}
    (hw : Traced.Within P x s)
    (hsub : ∀ u ∈ t :: (y t).visited, u ∈ ts) (hx : (x s).visited = ts) : Traced.Within P y t := by
  intro u hu
  refine hw u (List.mem_cons_of_mem _ ?_)
  rw [hx]
  exact hsub u hu

theorem setByEntries_runs (h : s.Inv) (hv : ValueOk value) (hl : ∀ e ∈ entries, live e = true)
    (hw : Traced.Within Bounded (setByEntries valid value entries count) s) :
    Runs (Puts entries value) (fun _ => False) s (setByEntries valid value entries count s) := by
  induction entries generalizing s count with
  | nil => exact ⟨.refl, by simp [setByEntries]⟩
  | cons entry entries ih =>
    have hle := hl entry (by simp)
    have hls : ∀ e ∈ entries, live e = true := fun e he => hl e (by simp [he])
    cases hc : valid.claim count with
    | none =>
      rw [setByEntries_stop hle hc]
      exact ⟨.refl, by simp⟩
    | some claimed =>
      have hwa : Traced.Within Bounded
          (onStorage (StorageManager.append s.settings.SegSize value)) s := by
        simp only [setByEntries, if_pos hle, hc] at hw
        exact (hw.bind_right .get).bind_left
      obtain ⟨e, t, ts, ha, hmem, hts, hd⟩ := append_grown h hw.start.segSize hv hwa
      have hgrown := hts t hmem
      have hinv := (hgrown.inv h).1
      by_cases he : e.segmentId = INVALID_SEGMENT_ID
      · -- the value was refused: the loop goes on with the key left as it was
        have hrun := setByEntries_refused hle hc ha he
          (Eq.refl (setByEntries valid value entries count t))
        have htw := within_rest (y := setByEntries valid value entries count) (t := t) hw
          (fun u hu => ?_) (congrArg Outcome.visited hrun)
        · rw [hrun]
          exact Runs.after hgrown.path (fun x hx => (hts x hx).path)
            ((ih hinv hls htw).mono Puts.cons fun _ hf => hf) _
        · rcases List.mem_cons.mp hu with rfl | hu
          · exact List.mem_append_left _ hmem
          · exact List.mem_append_right _ hu
      · -- the value was appended: the loop goes on from the state with the new index entry
        obtain ⟨u, hu⟩ : ∃ u, u = putIndex { e with key := entry.key } value t := ⟨_, rfl⟩
        have hrun := setByEntries_put hle hc ha he hu
          (Eq.refl (setByEntries valid value entries claimed u))
        have huw := within_rest (y := setByEntries valid value entries claimed) (t := u) hw
          (fun x hx => List.mem_append_right _ hx) (congrArg Outcome.visited hrun)
        have hui : u.Inv := by
          rw [hu]
          exact (hinv.putIndex (hd he entry.key)).1
        have hput : Path (Puts (entry :: entries) value) (fun _ => False) s u := by
          rw [hu]
          exact hgrown.path.tail (.put ⟨by simp, rfl⟩ (hd he entry.key))
        have hpath : ∀ x ∈ ts ++ [u], Path (Puts (entry :: entries) value)
            (fun _ => False) s x := by
          intro x hx
          rcases List.mem_append.mp hx with hx | hx
          · exact (hts x hx).path
          · rw [List.mem_singleton.mp hx]
            exact hput
        rw [hrun, List.append_cons ts u]
        exact Runs.after hput hpath ((ih hui hls huw).mono Puts.cons fun _ hf => hf) _

/-- When nothing counts the matches, the loop of `setBy` puts a value that fits a segment under
every key of the list, and does nothing with a longer one. -/
theorem setByEntries_spec (h : s.Inv) (hv : ValueOk value) (hl : ∀ e ∈ entries, live e = true)
    (hw : Traced.Within WithinLimits (setByEntries valid value entries count) s)
    (hun : Unlimited valid count) :
    (setByEntries valid value entries count s).val.1 =
      (if value.length ≤ s.settings.SegSize then entries.length else 0) ∧
    (setByEntries valid value entries count s).final.toMap =
      if value.length ≤ s.settings.SegSize then
        Store.putAll s.toMap {k | k ∈ entries.map IndexEntry.key} value
      else s.toMap := by
  induction entries generalizing s with
  | nil => exact ⟨by simp [setByEntries], by simp [setByEntries, Store.putAll_empty]⟩
  | cons entry entries ih =>
    have hle := hl entry (by simp)
    have hls : ∀ e ∈ entries, live e = true := fun e he => hl e (by simp [he])
    obtain ⟨e, t, ts, ha, hmem, hts, hcase⟩ := append_cases h.storage hw.start hv
    have hgrown := hts t hmem
    obtain ⟨hinv, hmap, -⟩ := hgrown.inv h
    rcases hcase with ⟨hfit, hne, hd⟩ | ⟨hlong, hinvalid⟩
    · obtain ⟨u, hu⟩ : ∃ u, u = putIndex { e with key := entry.key } value t := ⟨_, rfl⟩
      have hrun := setByEntries_put hle hun.claim ha hne hu
        (Eq.refl (setByEntries valid value entries count u))
      have hus : u.settings = s.settings := by rw [hu]; exact hgrown.settings_eq
      obtain ⟨hui, hum⟩ : u.Inv ∧ u.toMap = Function.update t.toMap entry.key (some value) := by
        rw [hu]
        exact hinv.putIndex (hd entry.key)
      have huw := within_rest (y := setByEntries valid value entries count) (t := u) hw
        (fun x hx => List.mem_append_right _ hx) (congrArg Outcome.visited hrun)
      obtain ⟨hv1, hv2⟩ := ih hui hls huw
      rw [hus] at hv1 hv2
      rw [hrun]
      simp only [hfit, if_true, List.length_cons] at hv1 hv2 ⊢
      refine ⟨congrArg (· + 1) hv1, ?_⟩
      rw [hv2, hum, hmap, Store.putAll_update]
      simp only [List.map_cons, List.mem_cons, Set.insert_def, Set.mem_ofPred_eq]
    · have hrun := setByEntries_refused hle hun.claim ha hinvalid
        (Eq.refl (setByEntries valid value entries count t))
      have htw := within_rest (y := setByEntries valid value entries count) (t := t) hw
        (fun u hu => ?_) (congrArg Outcome.visited hrun)
      · obtain ⟨hv1, hv2⟩ := ih hinv hls htw
        rw [hgrown.settings_eq] at hv1 hv2
        have hnot : ¬ value.length ≤ s.settings.SegSize := by omega
        rw [hrun]
        simp only [hnot, if_false] at hv1 hv2 ⊢
        exact ⟨hv1, hv2.trans hmap⟩
      · rcases List.mem_cons.mp hu with rfl | hu
        · exact List.mem_append_left _ hmem
        · exact List.mem_append_right _ hu

lemma delByEntries_stop (hl : live entry = true) (hc : valid.claim count = none) :
    delByEntries valid (entry :: entries) count s = ⟨(0, count), s, []⟩ := by
  rw [delByEntries, if_pos hl]
  simp only [hc]
  rfl

lemma delByEntries_bury (hl : live entry = true) (hc : valid.claim count = some claimed)
    {r : Outcome Shard (ℕ × Option ℕ)} {u : Shard} (hu : u = bury entry.key entry s)
    (hr : delByEntries valid entries claimed u = r) :
    delByEntries valid (entry :: entries) count s =
      ⟨(r.val.1 + 1, r.val.2), r.final, [u] ++ r.visited⟩ := by
  rw [delByEntries, if_pos hl]
  simp only [hc]
  subst hu
  refine Traced.bind_eq (Traced.step_run _ s) ?_
  rw [← List.append_nil r.visited]
  refine Traced.bind_eq hr ?_
  rfl

lemma Listed.of_bury (hl : s.Listed (entry :: entries)) {loc : Location}
    (hk : s.tree.lookup entry.key = some loc) :
    (bury entry.key (toEntry entry.key loc) s).Listed entries := by
  have hn := hl.nodup
  simp only [List.map_cons, List.nodup_cons] at hn
  refine ⟨hn.2, fun e he => ?_⟩
  have hne : e.key ≠ entry.key := fun hee => hn.1 (hee ▸ List.mem_map_of_mem he)
  obtain ⟨l, hl, hee⟩ := hl.lookup e (by simp [he])
  exact ⟨l, by rw [bury_tree hk, AList.lookup_erase_ite, if_neg hne, hl], hee⟩

theorem delByEntries_spec (valid : ValidationRule) (count : Option ℕ) (h : s.Inv)
    (hl : s.Listed entries) :
    Runs (fun _ _ => False) (fun k => k ∈ entries.map IndexEntry.key) s
    (delByEntries valid entries count s) ∧ (Unlimited valid count →
      (delByEntries valid entries count s).val.1 = entries.length ∧
      (delByEntries valid entries count s).final.toMap =
        Store.eraseAll s.toMap {k | k ∈ entries.map IndexEntry.key}) := by
  induction entries generalizing s count with
  | nil =>
    refine ⟨⟨.refl, by simp [delByEntries]⟩, fun _ => ⟨by simp [delByEntries], ?_⟩⟩
    simp [delByEntries, Store.eraseAll_empty]
  | cons entry entries ih =>
    have hlive := hl.live h (List.mem_cons_self (a := entry))
    obtain ⟨loc, hk, hentry⟩ := hl.lookup entry (by simp)
    cases hc : valid.claim count with
    | none =>
      rw [delByEntries_stop hlive hc]
      refine ⟨⟨.refl, by simp⟩, fun hu => ?_⟩
      rw [hu.claim] at hc
      cases hc
    | some claimed =>
      obtain ⟨u, hu⟩ : ∃ u, u = bury entry.key (toEntry entry.key loc) s := ⟨_, rfl⟩
      have hrun := delByEntries_bury hlive hc (hu.trans (by rw [← hentry]))
        (Eq.refl (delByEntries valid entries claimed u))
      obtain ⟨hui, hum⟩ : u.Inv ∧ u.toMap = Function.update s.toMap entry.key none := by
        rw [hu]
        exact h.bury hk
      have hul : u.Listed entries := by
        rw [hu]
        exact hl.of_bury hk
      obtain ⟨hruns, hval⟩ := @ih u claimed hui hul
      have hbury : Path (fun _ _ => False)
          (fun k => k ∈ (entry :: entries).map IndexEntry.key) s u := by
        rw [hu]
        exact .single (.bury (by simp) hk)
      rw [hrun]
      constructor
      · refine Runs.after hbury ?_ (hruns.mono (fun _ _ hf => hf) fun k hk => by simp [hk]) _
        simpa using hbury
      · intro hun
        obtain rfl : count = claimed := by simpa [hun.claim] using hc
        obtain ⟨hv1, hv2⟩ := hval hun
        refine ⟨congrArg (· + 1) hv1, ?_⟩
        rw [hv2, hum, Store.eraseAll_update]
        simp only [List.map_cons, List.mem_cons, Set.insert_def, Set.mem_ofPred_eq]

lemma Listed.tail (hl : s.Listed (entry :: entries)) : s.Listed entries :=
  ⟨(List.nodup_cons.mp hl.nodup).2, fun e he => hl.lookup e (by simp [he])⟩

lemma Listed.read_ne_nil (hl : s.Listed entries) (h : s.Inv) (he : entry ∈ entries) :
    s.storageManager.read entry ≠ [] := by
  obtain ⟨loc, hk, hentry⟩ := hl.lookup entry he
  rw [hentry, h.read_eq hk]
  exact h.slice_ne_nil hk

lemma getByEntries_unlimited (h : s.Inv) (hl : s.Listed entries) (hu : Unlimited valid count) :
    s.getByEntries valid entries count =
      (entries.map fun e => (e.key, s.storageManager.read e), count) := by
  induction entries with
  | nil => rfl
  | cons entry entries ih =>
    simp only [getByEntries, if_pos (hl.live h List.mem_cons_self), hu.claim, ih hl.tail,
      if_neg (hl.read_ne_nil h List.mem_cons_self), List.map_cons]

lemma getByEntries_limited (h : s.Inv) (hl : s.Listed entries) (hlim : valid.limit ≠ UINT_MAX)
    {c : ℕ} (hc : c ≤ valid.limit) :
    s.getByEntries valid entries (some c) =
      ((entries.take (valid.limit - c)).map fun e => (e.key, s.storageManager.read e),
        some (min valid.limit (c + entries.length))) := by
  induction entries generalizing c with
  | nil => simp [getByEntries, hc]
  | cons entry entries ih =>
    simp only [getByEntries, if_pos (hl.live h List.mem_cons_self), ValidationRule.claim, hlim,
      if_false]
    by_cases hfull : c ≥ valid.limit
    · obtain rfl : c = valid.limit := le_antisymm hc hfull
      simp
    · obtain ⟨k, hk⟩ : ∃ k, valid.limit - c = k + 1 := ⟨valid.limit - c - 1, by omega⟩
      have hk' : valid.limit - (c + 1) = k := by omega
      simp only [if_neg hfull, ih hl.tail (by omega : c + 1 ≤ valid.limit),
        if_neg (hl.read_ne_nil h List.mem_cons_self),
        hk, hk', List.take_succ_cons, List.map_cons, List.length_cons]
      rw [Nat.add_right_comm, Nat.add_assoc]

structure Pairs (m : Key → Option Value) (matching : Key → Bool) (pairs : List (Key × Value)) :
    Prop where
  nodup : (pairs.map Prod.fst).Nodup
  mem : ∀ k v, (k, v) ∈ pairs ↔ matching k = true ∧ m k = some v

def matchingPairs (s : Shard) (ch : Choice) (matching : Key → Bool) : List (Key × Value) :=
  (s.indexManager.findMatching ch matching false).map fun e => (e.key, s.storageManager.read e)

lemma matchingPairs_spec (h : s.Inv) (ch : Choice) (matching : Key → Bool) :
    Pairs s.toMap matching (s.matchingPairs ch matching) := by
  constructor
  · rw [matchingPairs, List.map_map]
    exact (listed_findMatching s ch matching false).nodup
  · intro k v
    simp only [matchingPairs, List.mem_map, Prod.mk.injEq]
    constructor
    · rintro ⟨e, he, rfl, rfl⟩
      obtain ⟨hp, loc, hk, hee⟩ := mem_findMatching he
      refine ⟨hp, ?_⟩
      rw [hee, h.read_eq hk]
      exact congrArg (Option.map s.files.slice) hk
    · rintro ⟨hp, hm⟩
      obtain ⟨loc, hk, rfl⟩ := Option.map_eq_some_iff.mp hm
      refine ⟨toEntry k loc, ?_, rfl, h.read_eq hk⟩
      simp only [IndexManager.findMatching, Bool.false_eq_true, if_false, List.mem_filter]
      exact ⟨IndexManager.mem_walk.mpr ⟨loc, hk, rfl⟩, hp⟩

lemma findMatching_set (s : Shard) (ch : Choice) (func : Key → Bool) :
    {k | k ∈ (s.indexManager.findMatching ch func false).map IndexEntry.key} =
      Store.matching s.toMap func :=
  Set.ext fun k => mem_findMatching_keys s ch func k

noncomputable def matchCount (s : Shard) (func : Key → Bool) : ℕ :=
  (Store.matching s.toMap func).ncard

lemma findMatching_length (s : Shard) (ch : Choice) (func : Key → Bool) :
    (s.indexManager.findMatching ch func false).length = s.matchCount func := by
  have h := encard_list _ (listed_findMatching s ch func false).nodup
  rw [matchCount, ← findMatching_set s ch, Set.ncard, h]
  simp

lemma matchCount_le (s : Shard) (func : Key → Bool) : s.matchCount func ≤ s.tree.keys.length := by
  rw [← findMatching_length s .plain func, ← List.length_map (f := IndexEntry.key)]
  refine (findMatching_nodup.subperm fun k hk => ?_).length_le
  obtain ⟨loc, hl⟩ := Option.isSome_iff_exists.mp ((mem_findMatching_keys s .plain func k).mp hk).2
  obtain ⟨l, hl, -⟩ := Option.map_eq_some_iff.mp hl
  exact AList.mem_iff_lookup.mpr ⟨l, hl⟩

lemma matching_finite (s : Shard) (func : Key → Bool) : (Store.matching s.toMap func).Finite := by
  rw [← findMatching_set s default]
  exact List.finite_toSet _

lemma mem_matching_of_found {stop : Bool} {k : Key} {func : Key → Bool}
    (hk : k ∈ (s.indexManager.findMatching ch func stop).map IndexEntry.key) :
    k ∈ Store.matching s.toMap func := by
  obtain ⟨e, he, rfl⟩ := List.mem_map.mp hk
  obtain ⟨hp, loc, hl, -⟩ := mem_findMatching he
  have hl' : s.tree.lookup e.key = some loc := hl
  exact ⟨hp, by simp [toMap, hl']⟩

@[simp] lemma modified_code (c : ℤ) : (modified c).code = .Success := rfl

@[simp] lemma modified_rows (c : ℤ) : (modified c).affectedRows = c := rfl

@[simp] lemma deleted_code (c : ℤ) : (deleted c).code = .Success := rfl

@[simp] lemma deleted_rows (c : ℤ) : (deleted c).affectedRows = c := rfl

lemma setBy_run {r : Outcome Shard (ℕ × Option ℕ)}
    (hr : setByEntries valid value
      (s.indexManager.findMatching ch valid.func (valid.stopEarly count)) count s = r) :
    setBy ch valid value count s =
      ⟨(modified (toLongLong r.val.1), r.val.2), r.final, r.visited⟩ := by
  rw [setBy, Traced.get_bind, ← List.append_nil r.visited]
  exact Traced.bind_eq hr rfl

lemma delBy_run {r : Outcome Shard (ℕ × Option ℕ)}
    (hr : delByEntries valid
      (s.indexManager.findMatching ch valid.func (valid.stopEarly count)) count s = r) :
    delBy ch valid count s = ⟨(deleted (toLongLong r.val.1), r.val.2), r.final, r.visited⟩ := by
  rw [delBy, Traced.get_bind, ← List.append_nil r.visited]
  exact Traced.bind_eq hr rfl

theorem setBy_runs (h : s.Inv) (hv : ValueOk value)
    (hw : Traced.Within Bounded (setBy ch valid value count) s) :
    Runs (fun k v => k ∈ Store.matching s.toMap valid.func ∧ v = value) (fun _ => False) s
      (setBy ch valid value count s) := by
  have hruns := setByEntries_runs h hv
    (fun e he => (listed_findMatching s ch valid.func (valid.stopEarly count)).live h he)
    (hw.bind_right .get).bind_left
  have hruns' : Runs _ _ s _ :=
    hruns.mono (C := fun k v => k ∈ Store.matching s.toMap valid.func ∧ v = value)
    (fun k v hk => ⟨mem_matching_of_found hk.1, hk.2⟩) fun _ hf => hf
  rw [setBy_run rfl]
  exact ⟨hruns'.final, hruns'.visited⟩

theorem setBy_spec (h : s.Inv) (hv : ValueOk value)
    (hw : Traced.Within WithinLimits (setBy ch valid value count) s) (hu : Unlimited valid count) :
    (setBy ch valid value count s).val.1 = modified (if value.length ≤ s.settings.SegSize then
        toLongLong (s.matchCount valid.func) else 0) ∧
    (setBy ch valid value count s).final.toMap =
      if value.length ≤ s.settings.SegSize then
        Store.putAll s.toMap (Store.matching s.toMap valid.func) value
      else s.toMap := by
  obtain ⟨hv1, hv2⟩ := setByEntries_spec h hv
    (fun e he => (listed_findMatching s ch valid.func (valid.stopEarly count)).live h he)
    (hw.bind_right .get).bind_left hu
  rw [setBy_run rfl]
  simp only [hu.stopEarly, findMatching_length, findMatching_set] at hv1 hv2 ⊢
  refine ⟨?_, hv2⟩
  rw [hv1]
  split_ifs <;> rfl

theorem delBy_spec (ch : Choice) (valid : ValidationRule) (count : Option ℕ) (h : s.Inv) :
    Runs (fun _ _ => False) (fun k => k ∈ Store.matching s.toMap valid.func) s
    (delBy ch valid count s) ∧ (Unlimited valid count →
      (delBy ch valid count s).val.1 = deleted (toLongLong (s.matchCount valid.func)) ∧
      (delBy ch valid count s).final.toMap =
        Store.eraseAll s.toMap (Store.matching s.toMap valid.func)) := by
  obtain ⟨hruns, hval⟩ := delByEntries_spec valid count h
    (listed_findMatching s ch valid.func (valid.stopEarly count))
  rw [delBy_run rfl]
  refine ⟨?_, fun hu => ?_⟩
  · have := hruns.mono (fun _ _ hf => hf) fun k hk => mem_matching_of_found hk
    exact ⟨this.final, this.visited⟩
  · obtain ⟨hv1, hv2⟩ := hval hu
    simp only [hu.stopEarly, findMatching_length, findMatching_set] at hv1 hv2 ⊢
    exact ⟨by rw [hv1], hv2⟩

lemma matchingKeys_nodup (s : Shard) (ch : Choice) (valid : ValidationRule) :
    (s.matchingKeys ch valid).Nodup :=
  ch.firstKeys_nodup _ findMatching_nodup

theorem mem_matchingKeys (s : Shard) (ch : Choice) (valid : ValidationRule) :
    {k | k ∈ s.matchingKeys ch valid} =
      smallest (Store.matching s.toMap valid.func) valid.limit := by
  rw [← findMatching_set s ch]
  exact ch.mem_firstKeys _ findMatching_nodup

end Zest.Shard
