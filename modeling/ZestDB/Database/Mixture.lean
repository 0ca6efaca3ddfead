import ZestDB.Database.Replay
import ZestDB.Foundations.Change

/-! The replay over data of which each shard has kept the effect of some of the logged writes. -/

namespace Zest

open Foundations
open scoped Classical

namespace Write

variable {m d : Store} {w : Write} {ws ws' : List Write} {k : Key}

/-- What the write does to the key `k` of `m`: a limited one to the keys it chooses in `m`. -/
noncomputable def change (m : Store) (k : Key) : Write → Change Value
  | .set key value => if k = key then .put (some value) else .keep
  | .del key => if k = key then .put none else .keep
  | .setBy valid value =>
    if valid.bound = none then if valid.func k then .replace value else .keep
    else if k ∈ m.chosen valid then .replace value else .keep
  | .delBy valid =>
    if valid.bound = none then if valid.func k then .put none else .keep
    else if k ∈ m.chosen valid then .put none else .keep

noncomputable def changes : List Write → Store → Key → Change Value
  | [], _, _ => .keep
  | w :: ws, m, k => (changes ws (w.apply m) k).after (w.change m k)

/-- Of the keys of `d`, a limited write chooses those that it chooses in `m`. -/
def SameChoice (w : Write) (m d : Store) : Prop :=
  ∀ valid ∈ w.rule?, valid.bound ≠ none → d.chosen valid = m.chosen valid ∩ {k | (d k).isSome}

/-- Each key is as the writes, one after the other from `m`, left it, if one of them set or deleted
it whatever was there; the other keys are as in `d`. -/
noncomputable def overlay (ws : List Write) (m d : Store) : Store :=
  fun k => if (changes ws m k).decides then applyAll ws m k else d k

/-- Each limited write has chosen its keys as it would if the keys that no write before it set or
deleted were as in `d`. -/
def SameChoices (ws : List Write) (m d : Store) : Prop :=
  ∀ prior w rest, ws = prior ++ w :: rest → w.SameChoice (applyAll prior m) (overlay prior m d)

def HasRoom (segSize : ℕ) (w : Write) (d : Store) : Prop :=
  w.Fits segSize ∨ ∃ valid value, w = .setBy valid value ∧ d.chosen valid = ∅

/-- Each write has room, over the keys that `overlay` has when its turn comes. -/
def HaveRoom (segSize : ℕ) (ws : List Write) (m d : Store) : Prop :=
  ∀ prior w rest, ws = prior ++ w :: rest → w.HasRoom segSize (overlay prior m d)

lemma applyAll_append (ws ws' : List Write) (m : Store) :
    applyAll (ws ++ ws') m = applyAll ws' (applyAll ws m) :=
  List.foldl_append

lemma chosen_unlimited {valid : ValidationRule} (h : valid.bound = none) :
    m.chosen valid = m.matching valid.func := by
  rw [Store.chosen, h]

lemma sameChoice_self (w : Write) (m : Store) : w.SameChoice m m := by
  intro valid _ _
  exact (Set.inter_eq_left.mpr fun k hk => (Store.chosen_subset m valid hk).2).symm

lemma apply_eq_change (h : w.SameChoice m d) (k : Key) :
    w.apply d k = (w.change m k).apply (d k) := by
  cases w with
  | set key value =>
    simp only [apply, change, Function.update_apply]
    split_ifs <;> rfl
  | del key =>
    simp only [apply, change, Function.update_apply]
    split_ifs <;> rfl
  | setBy valid value =>
    simp only [apply, change, Store.putAll]
    by_cases hb : valid.bound = none
    · rw [if_pos hb, chosen_unlimited hb]
      cases hf : valid.func k <;> cases hd : d k <;> simp [Store.matching, hf, hd, Change.apply]
    · rw [if_neg hb, h valid rfl hb]
      by_cases hk : k ∈ m.chosen valid <;> cases hd : d k <;> simp [hk, hd, Change.apply]
  | delBy valid =>
    simp only [apply, change, Store.eraseAll]
    by_cases hb : valid.bound = none
    · rw [if_pos hb, chosen_unlimited hb]
      cases hf : valid.func k <;> cases hd : d k <;> simp [Store.matching, hf, hd, Change.apply]
    · rw [if_neg hb, h valid rfl hb]
      by_cases hk : k ∈ m.chosen valid <;> cases hd : d k <;> simp [hk, hd, Change.apply]

lemma applyAll_eq_changes (ws : List Write) (m : Store) (k : Key) :
    applyAll ws m k = (changes ws m k).apply (m k) := by
  induction ws generalizing m with
  | nil => rfl
  | cons w ws ih =>
    rw [changes, Change.apply_after, ← apply_eq_change (sameChoice_self w m), ← ih]
    rfl

lemma changes_append_apply (ws ws' : List Write) (m : Store) (k : Key) (x : Option Value) :
    (changes (ws ++ ws') m k).apply x = (changes ws' (applyAll ws m) k).apply
    ((changes ws m k).apply x) := by
  induction ws generalizing m x with
  | nil => rfl
  | cons w ws ih =>
    simp only [List.cons_append, changes, Change.apply_after]
    rw [ih]
    rfl

lemma isSome_overlay (ws : List Write) (m d : Store) (k : Key) :
    (overlay ws m d k).isSome = ((changes ws m k).apply (d k)).isSome := by
  rw [overlay]
  cases hc : (changes ws m k).decides with
  | true => rw [if_pos rfl, applyAll_eq_changes, Change.apply_of_decides hc (d k) (m k)]
  | false => rw [if_neg (by simp), Change.isSome_of_not_decides hc]

lemma chosen_congr {d' : Store} (hd : ∀ k, (d' k).isSome = (d k).isSome) (valid : ValidationRule) :
    d'.chosen valid = d.chosen valid := by
  simp only [Store.chosen, Store.matching, hd]

lemma SameChoice.congr {d' : Store} (h : w.SameChoice m d)
    (hd : ∀ k, (d' k).isSome = (d k).isSome) : w.SameChoice m d' := by
  intro valid hr hb
  simp only [chosen_congr hd, hd]
  exact h valid hr hb

lemma HasRoom.applyWithin {segSize : ℕ} (h : w.HasRoom segSize d) :
    w.applyWithin segSize d = w.apply d := by
  rcases h with hfits | ⟨valid, value, rfl, hnone⟩
  · exact applyWithin_of_fits hfits d
  · have hsame : apply (.setBy valid value) d = d := by
      funext k
      rw [apply, hnone, Store.putAll, if_neg (Set.notMem_empty k)]
    rw [Write.applyWithin]
    split_ifs
    · rfl
    · exact hsame.symm

lemma HasRoom.congr {segSize : ℕ} {d' : Store} (h : w.HasRoom segSize d)
    (hd : ∀ k, (d' k).isSome = (d k).isSome) :
    w.HasRoom segSize d' := by
  refine h.imp_right ?_
  rintro ⟨valid, value, rfl, hnone⟩
  exact ⟨valid, value, rfl, (chosen_congr hd valid).trans hnone⟩

lemma SameChoices.front (h : SameChoices (ws ++ ws') m d) : SameChoices ws m d := by
  intro prior v rest hv
  refine h prior v (rest ++ ws') ?_
  rw [hv, List.append_assoc, List.cons_append]

lemma HaveRoom.front {segSize : ℕ} (h : HaveRoom segSize (ws ++ ws') m d) :
    HaveRoom segSize ws m d := by
  intro prior v rest hv
  refine h prior v (rest ++ ws') ?_
  rw [hv, List.append_assoc, List.cons_append]

lemma applyAll_of_sameChoices (h : SameChoices ws m d) :
    applyAll ws d = fun k => (changes ws m k).apply (d k) := by
  induction ws using List.reverseRecOn with
  | nil => rfl
  | append_singleton ws w ih =>
    have hlast : w.SameChoice (applyAll ws m) (fun k => (changes ws m k).apply (d k)) :=
      (h ws w [] rfl).congr fun k => (isSome_overlay ws m d k).symm
    funext k
    rw [applyAll_append, ih h.front]
    change w.apply _ k = _
    rw [apply_eq_change hlast, changes_append_apply]
    rfl

lemma replay_of_room {segSize : ℕ} (h : SameChoices ws m d) (hroom : HaveRoom segSize ws m d) :
    replay segSize ws d = applyAll ws d := by
  induction ws using List.reverseRecOn with
  | nil => rfl
  | append_singleton ws w ih =>
    have hlast : w.HasRoom segSize (applyAll ws d) := by
      refine (hroom ws w [] rfl).congr fun k => ?_
      rw [applyAll_of_sameChoices h.front, isSome_overlay]
    have hstep : replay segSize (ws ++ [w]) d = w.applyWithin segSize (replay segSize ws d) := by
      rw [replay, replay, List.foldl_append, List.foldl_cons, List.foldl_nil]
    rw [hstep, ih h.front hroom.front, hlast.applyWithin, applyAll_append]
    rfl

lemma applyAll_again {p : Key → ℕ} (hd : ∀ k, d k = applyAll (ws.take (p k)) m k)
    (h : SameChoices ws m d) :
    applyAll ws d = applyAll ws m := by
  funext k
  obtain ⟨c, hc⟩ : ∃ c, c = changes (ws.take (p k)) m k := ⟨_, rfl⟩
  have hsplit := changes_append_apply (ws.take (p k)) (ws.drop (p k)) m k
  rw [List.take_append_drop, ← hc] at hsplit
  rw [applyAll_of_sameChoices h]
  change (changes ws m k).apply (d k) = _
  rw [hd k, applyAll_eq_changes, applyAll_eq_changes, ← hc, hsplit, hsplit, Change.apply_apply]

end Write

namespace ZestDB

variable {n : ℕ} [NeZero n] {pf : Platform} {db : ZestDB n} {m : Store} {ch : ℕ → Choices n}

/-- Each shard has the effect of some of the logged writes, in the order of the log from `m`. -/
def Mixture (pf : Platform) (m : Store) (db : ZestDB n) : Prop :=
  ∃ p : Fin n → ℕ, ∀ k, db.toMap pf k =
    Write.applyAll ((writesOf pf db.shardManager.walEntries).take
      (p (ShardManager.getShardId pf k))) m k

/-- The replay brings every mixture to the map after all logged writes, if it finds room for the
values they store and the limited ones choose their keys again. -/
theorem replayWAL_mixture (h : db.Ready pf) (hwrites : Writes pf db.shardManager.walEntries)
    (hm : Mixture pf m db)
    (hroom : Write.HaveRoom db.settings.SegSize (writesOf pf db.shardManager.walEntries) m
      (db.toMap pf))
    (hchoices : Write.SameChoices (writesOf pf db.shardManager.walEntries) m (db.toMap pf))
    (hw : Traced.Within (Each Shard.WithinLimits) (replayWAL pf ch) db) :
    (replayWAL pf ch db).final.toMap pf =
      Write.applyAll (writesOf pf db.shardManager.walEntries) m := by
  obtain ⟨p, hp⟩ := hm
  rw [replayWAL_spec h hwrites hw, Write.replay_of_room hchoices hroom]
  exact Write.applyAll_again hp hchoices

section Rebooted

def firstStart : ZestDB 1 := new .defaults {} {} {}

def afterEvents (es : List (Event 1)) : ZestDB 1 :=
  es.foldl (fun db e => (e.run Op.oneHash db).final) firstStart

def rebooted (db : ZestDB 1) : ZestDB 1 :=
  construct .defaults {} {} {} fun i => (db.shardManager.shards i).saved

lemma rebooted_ready {db : ZestDB 1} (h : db.Good)
    (hfew : ∀ i, (db.shardManager.shards i).saved.FewKeys) :
    (rebooted db).Ready Op.oneHash := by
  have hs : ∀ i, Shard.Reopened {} (db.shardManager.shards i).saved
      ((rebooted db).shardManager.shards i) := fun i =>
    (Shard.boot_spec {} ((Shard.saved_crash _).disk_ok (h.shards i).logged (hfew i)) .plain
      .plain).1
  exact ⟨⟨fun i => (hs i).inv, fun i k _ => Subsingleton.elim _ _⟩, fun i => (hs i).settings, rfl⟩

lemma firstStart_good : firstStart.Good := new_good ConfigFile.defaults_typed default_accepted {} {}

lemma toMap_of_not_mem {db : ZestDB 1} {k : Key} (hk : k ∉ (db.shardManager.shards 0).tree.keys) :
    db.toMap Op.oneHash k = none := by
  have hnone : (db.shardManager.shards 0).tree.lookup k = none := AList.lookup_eq_none.mpr hk
  change Option.map _ ((db.shardManager.shards 0).tree.lookup k) = none
  rw [hnone]
  rfl

def twoKeys : List (Event 1) :=
  [.exec { command := ascii "set aa x" }, .exec { command := ascii "set ab x" },
    .exec { command := ascii "flush" }]

def oneDeleted : List (Event 1) :=
  twoKeys ++ [.exec { command := ascii "delby sw a lim 1" }, .compact {} 0]

lemma oneDeleted_good : (afterEvents oneDeleted).Good := by
  have hist : History Op.oneHash True firstStart (afterEvents oneDeleted) :=
    .tail (.compact {} 0) (.tail (.exec { command := ascii "delby sw a lim 1" })
      (.tail (.exec { command := ascii "flush" }) (.tail (.exec { command := ascii "set ab x" })
        (.tail (.exec { command := ascii "set aa x" }) (.refl _) trivial (fun _ => trivial)
          (by decide +kernel)) trivial
        (fun _ => trivial) (by decide +kernel)) trivial (fun _ => trivial) (by decide +kernel))
          trivial
      (fun _ => trivial) (by decide +kernel)) trivial (fun _ => by decide +kernel)
      (by decide +kernel)
  exact hist.good firstStart_good

def startsWithA : ValidationRule := ⟨fun k => k.take (ascii "a").length = ascii "a", 1⟩

lemma twoKeys_toMap (k : Key) :
    (afterEvents twoKeys).toMap Op.oneHash k = if k = ascii "aa" ∨ k = ascii "ab" then
      some (ascii "x") else none := by
  have hkeys : ((afterEvents twoKeys).shardManager.shards 0).tree.keys =
      [ascii "ab", ascii "aa"] := by decide +kernel
  by_cases ha : k = ascii "aa"
  · rw [if_pos (Or.inl ha), ha]
    decide +kernel
  · by_cases hb : k = ascii "ab"
    · rw [if_pos (Or.inr hb), hb]
      decide +kernel
    · rw [if_neg (by simp [ha, hb])]
      exact toMap_of_not_mem (by simp [hkeys, ha, hb])

lemma twoKeys_chosen : ((afterEvents twoKeys).toMap Op.oneHash).chosen startsWithA =
    {ascii "aa"} := by
  have hset : ((afterEvents twoKeys).toMap Op.oneHash).matching startsWithA.func =
      {k | k ∈ [ascii "aa"] ++ [ascii "ab"]} := by
    ext k
    simp only [Store.matching, Set.mem_ofPred_eq, twoKeys_toMap]
    constructor
    · rintro ⟨-, hk⟩
      split_ifs at hk with h
      · simpa using h
      · cases hk
    · intro h
      have h' : k = ascii "aa" ∨ k = ascii "ab" := by simpa using h
      rw [if_pos h']
      rcases h' with rfl | rfl
      · exact ⟨by decide, rfl⟩
      · exact ⟨by decide, rfl⟩
  have hsplit : smallest {k | k ∈ [ascii "aa"] ++ [ascii "ab"]} 1 = {k | k ∈ [ascii "aa"]} :=
    mem_smallest_split (by decide) (by decide)
  change smallest (((afterEvents twoKeys).toMap Op.oneHash).matching startsWithA.func) 1 = _
  rw [hset]
  simpa using hsplit

lemma oneDeleted_writes :
    writesOf Op.oneHash (rebooted (afterEvents oneDeleted)).shardManager.walEntries =
      [.delBy startsWithA] := by
  have hentries : (rebooted (afterEvents oneDeleted)).shardManager.walEntries =
      [⟨ascii "delby sw a lim 1", 2⟩] := by
    decide +kernel
  rw [hentries]
  rfl

lemma oneDeleted_applied (k : Key) :
    Write.applyAll [.delBy startsWithA] ((afterEvents twoKeys).toMap Op.oneHash) k =
      if k = ascii "ab" then some (ascii "x") else none := by
  change Store.eraseAll _ (Store.chosen _ startsWithA) k = _
  rw [twoKeys_chosen, Store.eraseAll, twoKeys_toMap]
  by_cases ha : k = ascii "aa"
  · subst ha
    rw [if_pos (Set.mem_singleton _), if_neg (by decide)]
  · rw [if_neg (by simpa using ha)]
    simp [ha]

/-- The delete of one key is saved; the replay deletes the other. -/
theorem oneDeleted_not_recovered :
    (rebooted (afterEvents oneDeleted)).Ready Op.oneHash ∧
      Writes Op.oneHash (rebooted (afterEvents oneDeleted)).shardManager.walEntries ∧
      Mixture Op.oneHash ((afterEvents twoKeys).toMap Op.oneHash)
      (rebooted (afterEvents oneDeleted)) ∧
      (∀ w ∈ writesOf Op.oneHash (rebooted (afterEvents oneDeleted)).shardManager.walEntries,
        w.Fits 128000) ∧ Traced.Within (Each Shard.WithinLimits) (replayWAL Op.oneHash fun _ => {})
      (rebooted (afterEvents oneDeleted)) ∧
      (replayWAL Op.oneHash (fun _ => {}) (rebooted (afterEvents oneDeleted))).final.toMap
        Op.oneHash ≠
        Write.applyAll
        (writesOf Op.oneHash (rebooted (afterEvents oneDeleted)).shardManager.walEntries)
          ((afterEvents twoKeys).toMap Op.oneHash) := by
  refine ⟨rebooted_ready oneDeleted_good (by decide +kernel), ?_, ⟨fun _ => 1, fun k => ?_⟩,
    ?_, by decide +kernel, fun h => ?_⟩
  · have hentries : (rebooted (afterEvents oneDeleted)).shardManager.walEntries =
        [⟨ascii "delby sw a lim 1", 2⟩] := by
      decide +kernel
    rw [hentries]
    intro e he
    obtain rfl : e = ⟨ascii "delby sw a lim 1", 2⟩ := by simpa using he
    exact ⟨.delBy startsWithA, rfl, fun v hv => by cases hv⟩
  · rw [oneDeleted_writes]
    change _ = Write.applyAll [.delBy startsWithA] _ k
    rw [oneDeleted_applied]
    have hkeys : ((rebooted (afterEvents oneDeleted)).shardManager.shards 0).tree.keys =
        [ascii "ab"] := by decide +kernel
    by_cases hb : k = ascii "ab"
    · rw [if_pos hb, hb]
      decide +kernel
    · rw [if_neg hb]
      exact toMap_of_not_mem (by simp [hkeys, hb])
  · rw [oneDeleted_writes]
    simp [Write.Fits]
  · have hnone :
        (replayWAL Op.oneHash (fun _ => {}) (rebooted (afterEvents oneDeleted))).final.toMap
          Op.oneHash
        (ascii "ab") = none := by decide +kernel
    rw [h, oneDeleted_writes, oneDeleted_applied] at hnone
    cases hnone

def allDeleted : List (Event 1) :=
  [.exec { command := ascii "set aa x" }, .exec { command := ascii "flush" },
    .exec { command := ascii "delby sw a lim 1" }, .compact {} 0]

lemma allDeleted_good : (afterEvents allDeleted).Good := by
  have hist : History Op.oneHash True firstStart (afterEvents allDeleted) :=
    .tail (.compact {} 0) (.tail (.exec { command := ascii "delby sw a lim 1" })
      (.tail (.exec { command := ascii "flush" })
        (.tail (.exec { command := ascii "set aa x" }) (.refl _) trivial (fun _ => trivial)
          (by decide +kernel)) trivial
        (fun _ => trivial) (by decide +kernel)) trivial (fun _ => trivial) (by decide +kernel))
          trivial
      (fun _ => by decide +kernel) (by decide +kernel)
  exact hist.good firstStart_good

lemma allDeleted_entries :
    (rebooted (afterEvents allDeleted)).shardManager.walEntries =
      [⟨ascii "delby sw a lim 1", 1⟩] := by
  decide +kernel

lemma allDeleted_writes :
    writesOf Op.oneHash (rebooted (afterEvents allDeleted)).shardManager.walEntries =
      [.delBy startsWithA] := by
  rw [allDeleted_entries]
  rfl

lemma allDeleted_toMap (k : Key) : (rebooted (afterEvents allDeleted)).toMap Op.oneHash k = none :=
  toMap_of_not_mem (by
    have hkeys : ((rebooted (afterEvents allDeleted)).shardManager.shards 0).tree.keys = [] := by
      decide +kernel
    simp [hkeys])

def onlyKey : Store := fun k => if k = ascii "aa" then some (ascii "x") else none

lemma onlyKey_deleted (k : Key) : Write.applyAll [.delBy startsWithA] onlyKey k = none := by
  have hset : onlyKey.matching startsWithA.func = {ascii "aa"} := by
    ext k
    simp only [Store.matching, onlyKey, Set.mem_ofPred_eq, Set.mem_singleton_iff]
    constructor
    · rintro ⟨-, hk⟩
      by_contra ha
      simp [ha] at hk
    · rintro rfl
      exact ⟨by decide, rfl⟩
  have hchosen : onlyKey.chosen startsWithA = {ascii "aa"} := by
    change smallest (onlyKey.matching startsWithA.func) 1 = _
    rw [hset]
    exact smallest_of_le (by simp)
  change Store.eraseAll _ (Store.chosen _ startsWithA) k = none
  rw [hchosen, Store.eraseAll, onlyKey]
  by_cases ha : k = ascii "aa" <;> simp [ha]

theorem allDeleted_recovered :
    (replayWAL Op.oneHash (fun _ => {}) (rebooted (afterEvents allDeleted))).final.toMap
      Op.oneHash = Write.applyAll (writesOf Op.oneHash
        (rebooted (afterEvents allDeleted)).shardManager.walEntries) onlyKey := by
  refine replayWAL_mixture (rebooted_ready allDeleted_good (by decide +kernel)) ?_
    ⟨fun _ => 1, fun k => ?_⟩ ?_ ?_
    (by decide +kernel)
  · rw [allDeleted_entries]
    intro e he
    obtain rfl : e = ⟨ascii "delby sw a lim 1", 1⟩ := by simpa using he
    exact ⟨.delBy startsWithA, rfl, fun v hv => by cases hv⟩
  · rw [allDeleted_writes, allDeleted_toMap]
    exact (onlyKey_deleted k).symm
  · rw [allDeleted_writes]
    intro prior w rest hsplit
    have hw : w ∈ [Write.delBy startsWithA] := hsplit ▸ by simp
    obtain rfl := List.mem_singleton.mp hw
    exact .inl trivial
  · rw [allDeleted_writes]
    intro prior w rest hsplit valid hr hb
    rcases prior with - | ⟨v, prior⟩
    · have hnone : ∀ k, Write.overlay [] onlyKey
          ((rebooted (afterEvents allDeleted)).toMap Op.oneHash) k = none :=
        allDeleted_toMap
      ext k
      constructor
      · intro hk
        have hsome := (Store.chosen_subset _ valid hk).2
        rw [hnone] at hsome
        cases hsome
      · rintro ⟨-, hsome⟩
        rw [Set.mem_ofPred_eq, hnone] at hsome
        cases hsome
    · have hlen := congrArg List.length hsplit
      simp at hlen

end Rebooted

end ZestDB

end Zest
