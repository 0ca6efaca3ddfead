import ZestDB.Database.Replay

/-! Which sets of the log the replay applies under the settings of the restart. -/

namespace Zest

open Foundations

namespace Write

variable {segSize : ℕ} {m : Store} {w : Write} {ws : List Write} {k : Key} {v : Value}

def names (k : Key) : Write → Bool
  | .set key _ => key = k
  | .del key => key = k
  | .setBy valid _ => valid.func k
  | .delBy valid => valid.func k

lemma apply_of_not_names (h : w.names k = false) : w.apply m k = m k := by
  cases w with
  | set key value =>
    have hne : k ≠ key := fun hk => by simp [names, hk] at h
    exact Function.update_of_ne hne _ _
  | del key =>
    have hne : k ≠ key := fun hk => by simp [names, hk] at h
    exact Function.update_of_ne hne _ _
  | setBy valid value =>
    exact if_neg fun hk => by simp [names, (Store.chosen_subset m valid hk).1] at h
  | delBy valid => exact if_neg fun hk => by simp [names, (Store.chosen_subset m valid hk).1] at h

lemma applyWithin_of_not_names (h : w.names k = false) : w.applyWithin segSize m k = m k := by
  simp only [applyWithin]
  split_ifs
  · exact apply_of_not_names h
  · rfl

lemma replay_of_not_names (h : ∀ w ∈ ws, w.names k = false) : replay segSize ws m k = m k := by
  induction ws generalizing m with
  | nil => rfl
  | cons w ws ih =>
    change replay segSize ws (w.applyWithin segSize m) k = m k
    rw [ih fun u hu => h u (by simp [hu]), applyWithin_of_not_names (h w (by simp))]

lemma replay_append (ws ws' : List Write) :
    replay segSize (ws ++ ws') m = replay segSize ws' (replay segSize ws m) :=
  List.foldl_append

/-- The last write that names `k` sets it to `v`. -/
def LastSet (ws : List Write) (k : Key) (v : Value) : Prop :=
  ∃ prior rest, ws = prior ++ .set k v :: rest ∧ ∀ w ∈ rest, w.names k = false

lemma LastSet.replay (h : LastSet ws k v) (hv : v.length ≤ segSize) :
    replay segSize ws m k = some v := by
  obtain ⟨prior, rest, rfl, hrest⟩ := h
  have hfits : Fits segSize (.set k v) := hv
  rw [replay_append]
  change Write.replay segSize rest (applyWithin segSize (.set k v) _) k = some v
  rw [replay_of_not_names hrest, applyWithin_of_fits hfits]
  simp only [apply, Function.update_self]

end Write

namespace ZestDB

variable {n : ℕ} [NeZero n] {pf : Platform} {db : ZestDB n} {ch : ℕ → Choices n}

def replayedUpTo (pf : Platform) (ch : ℕ → Choices n) (prior : List WalEntry) (db : ZestDB n) :
    ZestDB n :=
  (replayEntries pf ch prior 0 { db with
    replaying := true
    shardManager := ShardManager.advanceAll db.shardManager.walEntries db.shardManager }).final

/-- The replay applies every set of the log: it answers with a success, and a key whose last command
is a set has its value when the last record is applied. -/
structure KeepsSets (pf : Platform) (ch : ℕ → Choices n) (db : ZestDB n) : Prop where
  answered : ∀ prior e rest, db.shardManager.walEntries = prior ++ e :: rest →
    ∀ k v, writeOf pf e.cmd = some (.set k v) →
    ∃ r, (execCmd pf { command := e.cmd, choices := ch prior.length }
      (replayedUpTo pf ch prior db)).val = some r ∧ r.code = .Success
  held : ∀ k v, Write.LastSet (writesOf pf db.shardManager.walEntries) k v →
    (replayed pf ch db).toMap pf k = some v

/-- The commands of the records were acknowledged, each under settings of its time. -/
def Acknowledged (pf : Platform) (entries : List WalEntry) : Prop :=
  ∀ e ∈ entries, ∃ w, writeOf pf e.cmd = some w ∧ ∃ settings : Settings, settings.Accepted ∧
    refusal pf settings true w = none

lemma Acknowledged.writes {entries : List WalEntry} (h : Acknowledged pf entries) :
    Writes pf entries := by
  intro e he
  obtain ⟨w, hw, settings, hs, hr⟩ := h e he
  exact ⟨w, hw, (refusal_none hs hr).1⟩

lemma within_replayEntries {P : ZestDB n → Prop} {prior rest : List WalEntry} {i : ℕ}
    (hw : Traced.Within P (replayEntries pf ch (prior ++ rest) i) db) :
    Traced.Within P (replayEntries pf ch prior i) db ∧
      Traced.Within P (replayEntries pf ch rest (i + prior.length))
      (replayEntries pf ch prior i db).final := by
  induction prior generalizing db i with
  | nil => exact ⟨.pure _ hw.start, hw⟩
  | cons e prior ih =>
    obtain ⟨hl, hr⟩ := ih (hw.bind_right execCmd_tracked)
    refine ⟨.bind hw.bind_left hl, ?_⟩
    rwa [List.length_cons, Nat.add_comm prior.length 1, ← Nat.add_assoc]

lemma replay_answers {prior rest : List WalEntry} {e : WalEntry} {w : Write} (h : db.Ready pf)
    (hentries : db.shardManager.walEntries = prior ++ e :: rest)
    (hwrites : Writes pf db.shardManager.walEntries)
    (hw : Traced.Within (Each Shard.WithinLimits) (replayWAL pf ch) db)
    (he : writeOf pf e.cmd = some w) :
    ∃ m r, (execCmd pf { command := e.cmd, choices := ch prior.length }
      (replayedUpTo pf ch prior db)).val = some r ∧
      (r.code = .Success ↔ w.Succeeds db.settings.SegSize m) := by
  have hwithin := within_replay hw
  rw [hentries] at hwithin
  obtain ⟨hprior, hrest⟩ := within_replayEntries hwithin
  obtain ⟨hready, -, -⟩ := h.advance (prior ++ e :: rest) true
  have hprior' : Writes pf prior := fun e' he' => hwrites e' (by rw [hentries]; simp [he'])
  obtain ⟨hrep, -⟩ := replayEntries_spec hready rfl hprior' hprior
  obtain ⟨w', hw', hv⟩ := hwrites e (by rw [hentries]; simp)
  obtain rfl : w' = w := by simpa [hw'] using he
  rw [Nat.zero_add] at hrest
  obtain ⟨-, -, r, hr, hcode⟩ :=
    execCmd_replaying (ch prior.length) hrep.ready hrep.replaying he hv hrest.bind_left
  rw [hrep.settings] at hcode
  refine ⟨_, r, ?_, hcode⟩
  rw [← hr, replayedUpTo, hentries]

/-- Below the largest segment size, the replay applies every set of the log exactly when the
segments have room for their values. -/
theorem keepsSets_iff (h : db.Ready pf) (hack : Acknowledged pf db.shardManager.walEntries)
    (hw : Traced.Within (Each Shard.WithinLimits) (replayWAL pf ch) db) :
    KeepsSets pf ch db ↔
      ∀ e ∈ db.shardManager.walEntries, ∀ k v, writeOf pf e.cmd = some (.set k v) →
        v.length ≤ db.settings.SegSize := by
  constructor
  · intro hkeeps e he k v hset
    obtain ⟨prior, rest, hentries⟩ := List.append_of_mem he
    obtain ⟨m, r, hr, hcode⟩ := replay_answers h hentries hack.writes hw hset
    obtain ⟨r', hr', hsucc⟩ := hkeeps.answered prior e rest hentries k v hset
    obtain rfl : r = r' := by simpa [hr] using hr'
    exact hcode.mp hsucc
  · intro hfits
    refine ⟨fun prior e rest hentries k v hset => ?_, fun k v hlast => ?_⟩
    · obtain ⟨m, r, hr, hcode⟩ := replay_answers h hentries hack.writes hw hset
      exact ⟨r, hr, hcode.mpr (hfits e (by rw [hentries]; simp) k v hset)⟩
    · obtain ⟨-, -, hmap⟩ := replayed_spec h hack.writes hw
      rw [hmap]
      refine hlast.replay ?_
      obtain ⟨prior, rest, hws, -⟩ := hlast
      have hmem : Write.set k v ∈ writesOf pf db.shardManager.walEntries := by
        rw [hws]
        simp
      obtain ⟨e, he, hset⟩ := List.mem_filterMap.mp hmem
      exact hfits e he k v hset

def matchAll : Platform := ⟨fun _ => 0, id, fun _ => true, fun _ => some fun _ => true, id⟩

def oneSet (settings : Settings) : ZestDB 1 :=
  logOnly settings fun _ => walCodec.encode ⟨ascii "set a xxxx", 0⟩

def smallSegments : Settings := { SegSize := 3, MaxValueSize := 2 }

def setRecord : WalEntry := ⟨ascii "set a xxxx", 0⟩

lemma setRecord_write : writeOf matchAll setRecord.cmd = some (.set (ascii "a") (ascii "xxxx")) :=
  rfl

lemma setRecord_acknowledged : Acknowledged matchAll [setRecord] := by
  intro e he
  obtain rfl : e = setRecord := by simpa using he
  exact ⟨_, setRecord_write, {}, default_accepted, by decide⟩

theorem oneSet_keepsSets_iff :
    KeepsSets matchAll (fun _ => {}) (oneSet {}) ↔ ∀ e ∈ (oneSet {}).shardManager.walEntries, ∀ k v,
      writeOf matchAll e.cmd = some (.set k v) → v.length ≤ 128000 := by
  have hentries : (oneSet {}).shardManager.walEntries = [setRecord] := by decide +kernel
  refine keepsSets_iff (logOnly_ready _ {} _).1 ?_ (by decide +kernel)
  rw [hentries]
  exact setRecord_acknowledged

/-- After a restart with smaller segments, a set that was acknowledged is refused and its key is
missing. -/
theorem smallSegments_not_keepsSets :
    loadConfig matchAll { mapping := true, values := some smallSegments } = some smallSegments ∧
    (oneSet smallSegments).Ready matchAll ∧
      Acknowledged matchAll (oneSet smallSegments).shardManager.walEntries ∧
      Traced.Within (Each Shard.WithinLimits) (replayWAL matchAll fun _ => {})
      (oneSet smallSegments) ∧ ¬ KeepsSets matchAll (fun _ => {}) (oneSet smallSegments) := by
  have hentries : (oneSet smallSegments).shardManager.walEntries = [setRecord] := by decide +kernel
  refine ⟨by decide +kernel, (logOnly_ready _ _ _).1, ?_, by decide +kernel, fun hkeeps => ?_⟩
  · rw [hentries]
    exact setRecord_acknowledged
  · have hlast : Write.LastSet (writesOf matchAll (oneSet smallSegments).shardManager.walEntries)
        (ascii "a") (ascii "xxxx") := by
      rw [hentries]
      exact ⟨[], [], rfl, by simp⟩
    have hheld := hkeeps.held _ _ hlast
    have hnone : (replayed matchAll (fun _ => {}) (oneSet smallSegments)).toMap matchAll
        (ascii "a") = none := by
      decide +kernel
    rw [hnone] at hheld
    cases hheld

end ZestDB

end Zest
