import ZestDB.Database.Effect
import ZestDB.Manager.GetByTasks

/-! The words behind the pattern of `getby` and `delby`, and how many keys a call affects. -/

namespace Zest

open Foundations

section Tail

variable {w next lim num : Word} {rest : List Word} {limit : Option ℕ} {k : ℕ}

def LimitTail (rest : List Word) (k : ℕ) : Prop :=
  ∃ lim num : Word, rest = [lim, num] ∧ toLowerStr lim.text = ascii "lim" ∧
    parseUInt (2 ^ 32) num.text = some k

def NoLimit (rest : List Word) : Prop :=
  ∀ before lim num after, rest = before ++ lim :: num :: after → toLowerStr lim.text ≠ ascii "lim"

/-- The last `lim` with a word behind it has no number there. -/
def BadLimit (rest : List Word) : Prop :=
  ∃ before lim num after, rest = before ++ lim :: num :: after ∧ toLowerStr lim.text = ascii "lim" ∧
    parseUInt (2 ^ 32) num.text = none ∧ NoLimit (num :: after)

lemma noLimit_short (h : rest.length < 2) : NoLimit rest := by
  rintro before lim num after rfl
  simp at h
  omega

lemma not_badLimit_short (h : rest.length < 2) : ¬ BadLimit rest := by
  rintro ⟨before, lim, num, after, rfl, -⟩
  simp at h
  omega

lemma noLimit_cons : NoLimit (w :: next :: rest) ↔ toLowerStr w.text ≠ ascii "lim" ∧
    NoLimit (next :: rest) := by
  constructor
  · intro h
    refine ⟨h [] w next rest rfl,
      fun before lim num after hrest => h (w :: before) lim num after ?_⟩
    rw [hrest]
    rfl
  · rintro ⟨hw, h⟩ before lim num after hrest
    rcases before with _ | ⟨b, before⟩
    · obtain ⟨rfl, -⟩ := List.cons.inj hrest
      exact hw
    · exact h before lim num after (List.cons.inj hrest).2

lemma badLimit_cons : BadLimit (w :: next :: rest) ↔
    (toLowerStr w.text = ascii "lim" ∧ parseUInt (2 ^ 32) next.text = none ∧
      NoLimit (next :: rest)) ∨ BadLimit (next :: rest) := by
  constructor
  · rintro ⟨before, lim, num, after, hrest, hlim, hnum, hno⟩
    rcases before with _ | ⟨b, before⟩
    · obtain ⟨rfl, htail⟩ := List.cons.inj hrest
      obtain ⟨rfl, rfl⟩ := List.cons.inj htail
      exact .inl ⟨hlim, hnum, hno⟩
    · exact .inr ⟨before, lim, num, after, (List.cons.inj hrest).2, hlim, hnum, hno⟩
  · rintro (⟨hlim, hnum, hno⟩ | ⟨before, lim, num, after, hrest, hlim, hnum, hno⟩)
    · exact ⟨[], w, next, rest, rfl, hlim, hnum, hno⟩
    · refine ⟨w :: before, lim, num, after, ?_, hlim, hnum, hno⟩
      rw [hrest]
      rfl

lemma scanLimit_none_iff : scanLimit rest limit = none ↔ BadLimit rest ∨
    (limit = none ∧ NoLimit rest) := by
  induction rest generalizing limit with
  | nil => simp [scanLimit, not_badLimit_short, noLimit_short]
  | cons w rest ih =>
    cases rest with
    | nil => simp [scanLimit, not_badLimit_short, noLimit_short]
    | cons next rest =>
      rw [scanLimit, ih, badLimit_cons, noLimit_cons]
      by_cases hw : toLowerStr w.text = ascii "lim"
      · simp only [hw, if_true, true_and, ne_eq, not_true, false_and, and_false, or_false]
        exact or_comm
      · simp only [hw, if_false, false_and, false_or, ne_eq, not_false_eq_true, true_and]

variable (limit) in
lemma scanLimit_tail (h : LimitTail rest k) : scanLimit rest limit = some k := by
  obtain ⟨lim, num, rfl, hlim, hnum⟩ := h
  simp only [scanLimit, hlim, if_true, hnum]

end Tail

namespace ShardManager

variable {n : ℕ} {pf : Platform} {sm : ShardManager n} {ch : Choices n} {valid : ValidationRule}

def answeredKeys (ch : Choices n) (sm : ShardManager n) (valid : ValidationRule) : List Key :=
  (answered ch sm valid (List.finRange n) (some 0)).flatten.map Prod.fst

lemma getByEntries_claimed (s : Shard) (hlim : valid.limit ≠ UINT_MAX) (entries : List IndexEntry)
    {count : ℕ} (hc : count ≤ valid.limit) :
    ∃ claimed, (s.getByEntries valid entries (some count)).2 = some claimed ∧
      claimed ≤ valid.limit ∧
      (s.getByEntries valid entries (some count)).1.length + count ≤ claimed := by
  induction entries generalizing count with
  | nil => exact ⟨count, rfl, hc, by simp [Shard.getByEntries]⟩
  | cons entry entries ih =>
    by_cases hlive : Shard.live entry = true
    · by_cases hfull : count ≥ valid.limit
      · refine ⟨count, ?_⟩
        simp [Shard.getByEntries, hlive, ValidationRule.claim, hlim, hfull, hc]
      · obtain ⟨claimed, hcount, hle, hlen⟩ := @ih (count + 1) (by omega)
        refine ⟨claimed, ?_⟩
        by_cases hempty : s.storageManager.read entry = []
        · simp only [Shard.getByEntries, hlive, if_true, ValidationRule.claim, hlim, if_false,
            hfull, hempty]
          exact ⟨hcount, hle, by omega⟩
        · simp only [Shard.getByEntries, hlive, if_true, ValidationRule.claim, hlim, if_false,
            hfull, hempty, List.length_cons]
          exact ⟨hcount, hle, by omega⟩
    · obtain ⟨claimed, hcount, hle, hlen⟩ := ih hc
      simp only [Shard.getByEntries, hlive, if_false, Bool.false_eq_true]
      exact ⟨claimed, hcount, hle, hlen⟩

variable (ch sm) in
lemma answered_length (hlim : valid.limit ≠ UINT_MAX) (is : List (Fin n)) {count : ℕ}
    (hc : count ≤ valid.limit) :
    (answered ch sm valid is (some count)).flatten.length + count ≤ valid.limit := by
  induction is generalizing count with
  | nil => simpa [answered] using hc
  | cons i is ih =>
    obtain ⟨claimed, hcount, hle, hlen⟩ := getByEntries_claimed (sm.shards i) hlim
      ((sm.shards i).indexManager.findMatching (ch.shard i) valid.func
        (valid.stopEarly (some count))) hc
    have hrest := ih hle
    simp only [answered, hcount, List.flatten_cons, List.length_append]
    omega

lemma encard_list_le (l : List Key) : {k | k ∈ l}.encard ≤ l.length := by
  rw [← List.coe_toFinset, Set.encard_coe_eq_coe_finsetCard]
  exact_mod_cast l.toFinset_card_le

lemma answeredKeys_limited (hlim : valid.limit ≠ UINT_MAX) :
    {k | k ∈ answeredKeys ch sm valid}.encard ≤ valid.limit := by
  refine (encard_list_le _).trans ?_
  have hlen := answered_length sm ch hlim (List.finRange n) (Nat.zero_le valid.limit)
  rw [answeredKeys, List.length_map]
  exact_mod_cast hlen

lemma answeredKeys_unlimited [NeZero n] (h : sm.Inv pf) (hlim : valid.limit = UINT_MAX) :
    {k | k ∈ answeredKeys ch sm valid} = (sm.toMap pf).matching valid.func := by
  have hpairs := allPairs_spec h ch valid.func
  rw [answeredKeys, answered_unlimited h ch hlim]
  ext k
  simp only [Set.mem_ofPred_eq, List.mem_map, Prod.exists, exists_and_right, exists_eq_right,
    Store.matching, Option.isSome_iff_exists]
  rw [← exists_and_left]
  exact exists_congr fun v => hpairs.mem k v

lemma chosen_encard [NeZero n] (ch : Choices n) (h : sm.Inv pf) (hlim : valid.limit ≠ UINT_MAX) :
    ((sm.toMap pf).chosen valid).encard ≤ valid.limit := by
  obtain ⟨-, hset⟩ := firstMatchingKeys_spec h ch valid
  rw [chosen_limited hlim, ← hset]
  refine (encard_list_le _).trans ?_
  have hlen : (sm.firstMatchingKeys ch valid).length ≤ valid.limit := by
    rw [firstMatchingKeys, List.length_insertionSort, Choice.firstKeys]
    split_ifs with hmore
    · exact List.length_take_le _ _
    · exact not_lt.mp hmore
  exact_mod_cast hlen

end ShardManager

namespace ZestDB

variable {n : ℕ} {pf : Platform} {db : ZestDB n} {c : Call n} {name mode pattern : Word}
  {rest : List Word}
variable {valid : ValidationRule} {key : Bytes}

def bulkRequest (v : Verb) (valid : ValidationRule) : Request :=
  if v = .gb then .getBy valid else .write (.delBy valid)

/-- The role, the mode and the pattern, and the read-only mode are checked whatever the tail is. -/
def RefusedAnyway (pf : Platform) (c : Call n) (v : Verb) (mode pattern : Word) (db : ZestDB n) :
    Prop :=
  v.denied c.role = true ∨ createValidationRule pf (toLowerStr mode.text) pattern.text = none ∨
    (v = .db ∧ (!db.replaying && db.settings.readOnly) = true)

inductive Asks (pf : Platform) (c : Call n) (v : Verb) (mode pattern : Word) (rest : List Word) :
    Prop
  | denied (hd : v.denied c.role = true) (ha : asked pf c = none)
  | badRule (hr : createValidationRule pf (toLowerStr mode.text) pattern.text = none)
      (ha : asked pf c = none)
  | badLimit (hb : BadLimit rest) (ha : asked pf c = none)
  | asks (func : Key → Bool) (limit : ℕ)
      (hr : createValidationRule pf (toLowerStr mode.text) pattern.text = some func)
      (hl : scanLimit rest (some UINT_MAX) = some limit)
      (ha : asked pf c = some (mode.text, bulkRequest v ⟨func, limit⟩))

variable (pf) in
lemma asked_bulk (hw : words c.command = name :: mode :: pattern :: rest)
    (hv : verbOf name.text = .gb ∨ verbOf name.text = .db)
    (hd : (verbOf name.text).denied c.role = false) :
    ∃ badRule, asked pf c =
      (makeRule pf mode pattern (scanLimit rest (some UINT_MAX)) badRule).toOption.map
      fun valid => (mode.text, bulkRequest (verbOf name.text) valid) := by
  rcases hv with hv | hv
  · rw [hv] at hd
    refine ⟨Messages.INVALID_REGEX, ?_⟩
    simp only [asked, hw, hv, hd, Bool.false_eq_true, if_false, request]
    cases makeRule pf mode pattern (scanLimit rest (some UINT_MAX)) Messages.INVALID_REGEX <;> rfl
  · rw [hv] at hd
    refine ⟨Messages.INVALID_MODE, ?_⟩
    simp only [asked, hw, hv, hd, Bool.false_eq_true, if_false, request]
    cases makeRule pf mode pattern (scanLimit rest (some UINT_MAX)) Messages.INVALID_MODE <;> rfl

lemma asked_denied {kr : Bytes × Request} {args : List Word} (hw : words c.command = name :: args)
    (ha : asked pf c = some kr) : (verbOf name.text).denied c.role = false := by
  cases hd : (verbOf name.text).denied c.role with
  | false => rfl
  | true => simp [asked, hw, hd] at ha

variable (pf) in
lemma asks_bulk (hw : words c.command = name :: mode :: pattern :: rest)
    (hv : verbOf name.text = .gb ∨ verbOf name.text = .db) :
    Asks pf c (verbOf name.text) mode pattern rest := by
  cases hd : (verbOf name.text).denied c.role with
  | true => exact .denied hd (by simp only [asked, hw, hd, if_true])
  | false =>
    obtain ⟨badRule, ha⟩ := asked_bulk pf hw hv hd
    cases hl : scanLimit rest (some UINT_MAX) with
    | none =>
      rw [hl] at ha
      exact .badLimit ((scanLimit_none_iff.mp hl).resolve_right (by simp)) ha
    | some limit =>
      cases hr : createValidationRule pf (toLowerStr mode.text) pattern.text with
      | none =>
        simp only [hl, makeRule, hr] at ha
        exact .badRule hr ha
      | some func =>
        simp only [hl, makeRule, hr] at ha
        exact .asks func limit hr hl ha

variable [NeZero n]

def affected (pf : Platform) (c : Call n) (db : ZestDB n) : Set Key :=
  {k | (execCmd pf c db).final.toMap pf k ≠ db.toMap pf k} ∪
    {k | ∃ key valid, asked pf c = some (key, .getBy valid) ∧
      k ∈ ShardManager.answeredKeys c.choices db.shardManager valid}

structure Refused (pf : Platform) (c : Call n) (db : ZestDB n) : Prop where
  error : ∃ r, (execCmd pf c db).val = some r ∧ r.code = .Error
  toMap : (execCmd pf c db).final.toMap pf = db.toMap pf

structure Documented (pf : Platform) (c : Call n) (rest : List Word) (db : ZestDB n) : Prop where
  refused : rest ≠ [] → (∀ k, ¬ LimitTail rest k) → Refused pf c db
  atMost : ∀ k, LimitTail rest k → (affected pf c db).encard ≤ k

lemma refused_none (h : asked pf c = none) : Refused pf c db ∧ affected pf c db = ∅ := by
  obtain ⟨message, he⟩ := execCmd_none h
  refine ⟨⟨⟨failure message, by rw [he]; rfl, rfl⟩, by rw [he]; rfl⟩, ?_⟩
  simp [affected, he, h]

variable (db) in
lemma getBy_affected (h : asked pf c = some (key, .getBy valid)) :
    (execCmd pf c db).val = some (db.shardManager.getBy pf c.choices valid) ∧
      affected pf c db = {k | k ∈ ShardManager.answeredKeys c.choices db.shardManager valid} := by
  have he : execCmd pf c = serve pf c key (.getBy valid) := execCmd_some h
  refine ⟨by rw [he]; rfl, ?_⟩
  have hsame : (execCmd pf c db).final = db := by
    rw [he]
    rfl
  ext k
  simp [affected, hsame, h]

lemma delBy_code (ch : Choices n) (valid : ValidationRule) (sm : ShardManager n) :
    (ShardManager.delBy pf ch valid sm).val.code = .Success := by
  rw [ShardManager.delBy]
  split_ifs <;> rfl

lemma delBy_readOnly (ha : asked pf c = some (key, .write (.delBy valid)))
    (hro : (!db.replaying && db.settings.readOnly) = true) :
    Refused pf c db ∧ affected pf c db = ∅ := by
  have hr : refusal pf db.settings (!db.replaying) (.delBy valid) =
      some Messages.READ_ONLY_ERROR := by
    simp only [refusal, hro, if_true]
  have hwrite : write pf c.choices (.delBy valid) db = _ := write_refused hr
  have he : execCmd pf c = serve pf c key (.write (.delBy valid)) := execCmd_some ha
  have hval : (execCmd pf c db).val = some (failure Messages.READ_ONLY_ERROR) := by
    rw [he]
    refine (congrArg some (writeAndLog_val pf c key (.delBy valid) db)).trans ?_
    rw [hwrite]
  have hfinal : (execCmd pf c db).final = db := by
    have hend : (execCmd pf c db).final = (writeAndLog pf c key (.delBy valid) db).final := by
      rw [he]
      rfl
    rw [hend, writeAndLog_final, hwrite, if_neg (by simp [failure])]
  exact ⟨⟨⟨_, hval, rfl⟩, by rw [hfinal]⟩, by simp [affected, hfinal, ha]⟩

lemma delBy_affected (h : Op.Ready pf db.shardManager)
    (ha : asked pf c = some (key, .write (.delBy valid)))
    (hro : (!db.replaying && db.settings.readOnly) = false) :
    (∃ r, (execCmd pf c db).val = some r ∧ r.code = .Success) ∧
      affected pf c db = (db.toMap pf).chosen valid := by
  have hr : refusal pf db.settings (!db.replaying) (.delBy valid) = none := by simp [refusal, hro]
  have hwrite : write pf c.choices (.delBy valid) db = _ := write_accepted hr
  have hcode : (write pf c.choices (.delBy valid) db).val.code = .Success := by
    rw [hwrite]
    exact delBy_code c.choices valid db.shardManager
  have hwrote : ShardManager.Wrote pf db.shardManager
      (ShardManager.delBy pf c.choices valid db.shardManager).final
      ((db.toMap pf).eraseAll ((db.toMap pf).chosen valid)) := by
    by_cases hlim : valid.limit = UINT_MAX
    · exact (ShardManager.delBy_unlimited h.inv hlim).2
    · exact (ShardManager.delBy_limited h.inv hlim).2
  have hfinal : (write pf c.choices (.delBy valid) db).final =
      { db with shardManager := (ShardManager.delBy pf c.choices valid db.shardManager).final
        } := by
    rw [hwrite]
    rfl
  have he : execCmd pf c = serve pf c key (.write (.delBy valid)) := execCmd_some ha
  have hval : (execCmd pf c db).val = some (write pf c.choices (.delBy valid) db).val := by
    rw [he]
    exact congrArg some (writeAndLog_val pf c key (.delBy valid) db)
  have hmap : (execCmd pf c db).final.toMap pf =
      (db.toMap pf).eraseAll ((db.toMap pf).chosen valid) := by
    have hend : (execCmd pf c db).final = (writeAndLog pf c key (.delBy valid) db).final := by
      rw [he]
      rfl
    rw [hend, writeAndLog_final, hfinal]
    split_ifs
    · obtain ⟨t, ht, hrec⟩ :=
        log_recorded
        { db with shardManager := (ShardManager.delBy pf c.choices valid db.shardManager).final }
        key c.command c.syncWal hwrote.inv (hwrote.kept.uniform h.uniform)
      rw [ht]
      exact hrec.toMap.trans hwrote.toMap
    · exact hwrote.toMap
  refine ⟨⟨_, hval, hcode⟩, ?_⟩
  ext k
  simp only [affected, hmap, ha, Option.some.injEq, Prod.mk.injEq, reduceCtorEq, and_false,
    false_and, exists_false, Set.ofPred_false, Set.union_empty, Set.mem_ofPred_eq, Store.eraseAll]
  split_ifs with hk
  · obtain ⟨-, hsome⟩ := Store.chosen_subset _ _ hk
    simpa [hk] using (Option.ne_none_iff_isSome.mpr hsome).symm
  · simp [hk]

lemma asks_affected {v : Verb} {func : Key → Bool} {limit : ℕ} (h : Op.Ready pf db.shardManager)
    (hv : v = .gb ∨ v = .db) (hr : ¬ (v = .db ∧ (!db.replaying && db.settings.readOnly) = true))
    (ha : asked pf c = some (key, bulkRequest v ⟨func, limit⟩)) :
    (∃ r, (execCmd pf c db).val = some r ∧ r.code = .Success) ∧
      (limit = UINT_MAX → affected pf c db = (db.toMap pf).matching func) ∧
      (limit ≠ UINT_MAX → (affected pf c db).encard ≤ limit) := by
  rcases hv with rfl | rfl
  · obtain ⟨hval, haffected⟩ := getBy_affected db ha
    rw [haffected]
    exact ⟨⟨_, hval, rfl⟩, fun hlim => ShardManager.answeredKeys_unlimited h.inv hlim,
      fun hlim => ShardManager.answeredKeys_limited hlim⟩
  · have hro : (!db.replaying && db.settings.readOnly) = false := by simpa using hr
    obtain ⟨hval, haffected⟩ := delBy_affected h ha hro
    rw [haffected]
    exact ⟨hval, fun hlim => ShardManager.chosen_unlimited hlim _,
      fun hlim => ShardManager.chosen_encard c.choices h.inv hlim⟩

/-- A `getby` or `delby` is accepted in its documented forms alone, and keeps to its limit, exactly
when it is refused anyway, or when a tail of another form ends in a bad limit and no more than
`UINT_MAX` keys match if that is its limit. -/
theorem bulk_documented_iff (h : Op.Ready pf db.shardManager)
    (hw : words c.command = name :: mode :: pattern :: rest)
    (hv : verbOf name.text = .gb ∨ verbOf name.text = .db) :
    Documented pf c rest db ↔ RefusedAnyway pf c (verbOf name.text) mode pattern db ∨
      ((rest ≠ [] → (∀ k, ¬ LimitTail rest k) → BadLimit rest) ∧ (LimitTail rest UINT_MAX →
          ∀ func, createValidationRule pf (toLowerStr mode.text) pattern.text = some func →
          ((db.toMap pf).matching func).encard ≤ UINT_MAX)) := by
  have hdocumented : Refused pf c db ∧ affected pf c db = ∅ → Documented pf c rest db := by
    rintro ⟨hrefused, haffected⟩
    exact ⟨fun _ _ => hrefused, fun k _ => by simp [haffected]⟩
  have hbadLimit : BadLimit rest → ∀ k, ¬ LimitTail rest k := by
    intro hb k hk
    have hl := scanLimit_tail none hk
    rw [scanLimit_none_iff.mpr (.inl hb)] at hl
    cases hl
  rcases asks_bulk pf hw hv with ⟨hd, ha⟩ | ⟨hr, ha⟩ | ⟨hb, ha⟩ | ⟨func, limit, hr, hl, ha⟩
  · exact iff_of_true (hdocumented (refused_none ha)) (.inl (.inl hd))
  · exact iff_of_true (hdocumented (refused_none ha)) (.inl (.inr (.inl hr)))
  · exact iff_of_true (hdocumented (refused_none ha))
      (.inr ⟨fun _ _ => hb, fun htail => absurd htail (hbadLimit hb _)⟩)
  · by_cases hro : verbOf name.text = .db ∧ (!db.replaying && db.settings.readOnly) = true
    · refine iff_of_true (hdocumented ?_) (.inl (.inr (.inr hro)))
      rw [hro.1] at ha
      exact delBy_readOnly ha hro.2
    · obtain ⟨⟨r, hval, hcode⟩, hall, hmost⟩ := asks_affected h hv hro ha
      have hd : (verbOf name.text).denied c.role = false := asked_denied hw ha
      have hnot : ¬ RefusedAnyway pf c (verbOf name.text) mode pattern db := by
        rintro (hd' | hr' | hro')
        · rw [hd] at hd'
          cases hd'
        · rw [hr] at hr'
          cases hr'
        · exact hro hro'
      have hlimit : ∀ k, LimitTail rest k → limit = k := by
        intro k hk
        rw [scanLimit_tail _ hk] at hl
        exact (Option.some.inj hl).symm
      rw [or_iff_right hnot]
      constructor
      · rintro ⟨hrefused, hatMost⟩
        refine ⟨fun hne htail => ?_, fun htail func' hr' => ?_⟩
        · obtain ⟨r', hval', hcode'⟩ := (hrefused hne htail).error
          rw [hval] at hval'
          obtain rfl := Option.some.inj hval'
          rw [hcode] at hcode'
          cases hcode'
        · have hcard := hatMost UINT_MAX htail
          obtain rfl : func = func' := Option.some.inj (hr.symm.trans hr')
          rwa [hall (hlimit _ htail)] at hcard
      · rintro ⟨hbad, hmax⟩
        refine ⟨fun hne htail => ?_, fun k htail => ?_⟩
        · rw [scanLimit_none_iff.mpr (.inl (hbad hne htail))] at hl
          cases hl
        · obtain rfl := hlimit k htail
          by_cases hlim : limit = UINT_MAX
          · rw [hall hlim]
            have hcard := hmax (hlim ▸ htail) func hr
            rwa [← hlim] at hcard
          · exact hmost hlim

section Tails

def keysApart : ZestDB 2 where
  settings := {}
  users := ∅
  replaying := false
  config := { mapping := true, values := some {} }
  shardManager := ShardManager.twoShards

def tailOf (command : Bytes) : List Word := (words command).drop 3

lemma keysApart_ready : Op.Ready ShardManager.byLength keysApart.shardManager := by
  have huniform : ∀ i : Fin 2, (keysApart.shardManager.shards i).settings =
      keysApart.shardManager.settings := by
    decide +kernel
  exact ⟨ShardManager.twoShards_inv, huniform⟩

theorem limitFive_documented :
    Documented ShardManager.byLength { command := ascii "DelBy ct b LIM 5" }
    (tailOf (ascii "DelBy ct b LIM 5")) keysApart := by
  obtain ⟨name, mode, pattern, hw, hv⟩ : ∃ name mode pattern,
      words (ascii "DelBy ct b LIM 5") =
        name :: mode :: pattern :: tailOf (ascii "DelBy ct b LIM 5") ∧
        verbOf name.text = .db := ⟨_, _, _, rfl, by decide +kernel⟩
  have htail : LimitTail (tailOf (ascii "DelBy ct b LIM 5")) 5 :=
    ⟨_, _, rfl, by decide +kernel, by decide +kernel⟩
  refine (bulk_documented_iff keysApart_ready hw (.inr hv)).mpr
    (.inr ⟨fun _ hno => absurd htail (hno 5), fun hmax => ?_⟩)
  have hl := (scanLimit_tail none htail).symm.trans (scanLimit_tail none hmax)
  exact absurd (Option.some.inj hl) (by decide)

/-- `delby ct b lim`, without a number, deletes the keys instead of being refused. -/
theorem bareLimit_not_documented :
    (words (ascii "delby ct b lim")).map Word.text =
      [ascii "delby", ascii "ct", ascii "b", ascii "lim"] ∧
    ((execCmd ShardManager.byLength { command := ascii "delby ct b lim" } keysApart).val.map
      ResultType.response) = some (ascii "Successfully deleted 1 entries") ∧
    ¬ Documented ShardManager.byLength { command := ascii "delby ct b lim" }
    (tailOf (ascii "delby ct b lim")) keysApart := by
  refine ⟨by decide +kernel, by decide +kernel, fun h => ?_⟩
  have hsingle : ∃ w, tailOf (ascii "delby ct b lim") = [w] := ⟨_, rfl⟩
  obtain ⟨w, hw⟩ := hsingle
  have hrefused := h.refused (by simp [hw]) fun k htail => by
    obtain ⟨lim, num, htwo, -⟩ := htail
    rw [hw] at htwo
    cases htwo
  obtain ⟨r, hval, hcode⟩ := hrefused.error
  have hsuccess :
      (execCmd ShardManager.byLength { command := ascii "delby ct b lim" } keysApart).val.map
        ResultType.code =
      some .Success := by decide +kernel
  rw [hval] at hsuccess
  rw [Option.map_some, hcode] at hsuccess
  cases hsuccess

end Tails

end ZestDB

end Zest
