import ZestDB.Manager.Queries
import ZestDB.Shard.Recovery

/-! Every sequence of operations on the manager answers as one map from keys to values would. -/

namespace Zest

open Foundations

inductive Op (n : ℕ) where
  | get (key : Key)
  | getBy (valid : ValidationRule)
  | write (w : Write)
  | flush
  | compact (shard : Fin n)
  | reloadSettings (settings : Settings)

namespace Op

variable {n : ℕ}

def run [NeZero n] (pf : Platform) (ch : Choices n) : Op n → Traced (ShardManager n)
    (Option ResultType)
  | .get key => do
    let sm ← .get
    .step fun sm => (sm.get pf key).2
    pure (some (sm.get pf key).1)
  | .getBy valid => do
    let sm ← .get
    pure (some (sm.getBy pf ch valid))
  | .write w => do
    let r ← ShardManager.write pf ch w
    pure (some r)
  | .flush => do
    let _ ← ShardManager.flush ch
    pure none
  | .compact shard => do
    ShardManager.compactorPass ch shard
    pure none
  | .reloadSettings settings => do
    let _ ← ShardManager.reloadSettings settings
    pure none

def runAll [NeZero n] (pf : Platform) : List (Op n × Choices n) → Traced (ShardManager n)
    (List (Option ResultType))
  | [] => pure []
  | op :: ops => do
    let r ← run pf op.2 op.1
    let rest ← runAll pf ops
    pure (r :: rest)

def nextSegSize (segSize : ℕ) : Op n → ℕ
  | .reloadSettings settings => settings.SegSize
  | _ => segSize

noncomputable def next (segSize : ℕ) : Op n → Store → Store
  | .write w, m => w.applyWithin segSize m
  | _, m => m

/-- `r` is an answer to the operation on the map `m`; which pairs a `getBy` with a limit picks is
left open. -/
def Answers (pf : Platform) (segSize : ℕ) (m : Store) : Op n → Option ResultType → Prop
  | .get key, r => r = some (Shard.getResult m key)
  | .getBy valid, r => ∃ text pairs, ShardManager.Picked m valid pairs ∧ Shard.Shows pf text pairs ∧
      r = some ⟨.Success, text, pairs.length⟩
  | .write w, r => r = some (w.result segSize m)
  | _, r => r = none

/-- The answers `rs` to the operations are those of the map `m`, which becomes `m'`. -/
inductive Serves (pf : Platform) : ℕ → Store → List (Op n) → List (Option ResultType) → Store → Prop
  | nil {segSize m} : Serves pf segSize m [] [] m
  | cons {segSize m m' op ops r rs} : op.Answers pf segSize m r →
      Serves pf (op.nextSegSize segSize) (op.next segSize m) ops rs m' → Serves pf segSize m
      (op :: ops) (r :: rs) m'

/-- The value of the operation, if it has one, is not empty and shorter than `2 ^ 32` bytes. -/
def ValueOk : Op n → Prop
  | .write w => w.ValueOk
  | _ => True

instance (op : Op n) : Decidable op.ValueOk :=
  match op with
  | .write w => inferInstanceAs (Decidable (∀ v ∈ w.value?, Shard.ValueOk v))
  | .get _ | .getBy _ | .flush | .compact _ | .reloadSettings _ => .isTrue trivial

def Limits (sm : ShardManager n) : Prop := sm.Each Shard.WithinLimits ∧ sm.RowsFit

instance (sm : ShardManager n) : Decidable (Limits sm) :=
  inferInstanceAs (Decidable ((∀ i, (sm.shards i).WithinLimits) ∧ ∀ i,
    (sm.shards i).tree.keys.length < 2 ^ 31))

variable [NeZero n] {pf : Platform} {sm : ShardManager n} {ch : Choices n} {op : Op n}

lemma run_tracked (op : Op n) : Traced.Tracked (op.run pf ch) := by
  cases op with
  | get key => exact .bind .get fun _ => .bind (.step _) fun _ => .pure _
  | getBy valid => exact .bind .get fun _ => .pure _
  | write w => exact .bind (ShardManager.write_tracked w) fun _ => .pure _
  | flush =>
    exact .bind (.bind (ShardManager.allShards_tracked fun _ => Shard.flushData_tracked) fun _ =>
      ShardManager.allShards_tracked fun _ => .step _) fun _ => .pure _
  | compact shard =>
    exact .bind (ShardManager.onShard_tracked Shard.compactorPass_tracked _) fun _ => .pure _
  | reloadSettings settings =>
    exact .bind (.bind (.step _) fun _ => ShardManager.allShards_tracked fun _ => .step _)
      fun _ => .pure _

structure Ready (pf : Platform) (sm : ShardManager n) : Prop where
  inv : sm.Inv pf
  uniform : sm.Uniform

lemma run_spec (hq : pf.Quotes) (h : Ready pf sm) (hv : op.ValueOk)
    (hw : Traced.Within Limits (op.run pf ch) sm) :
    op.Answers pf sm.settings.SegSize (sm.toMap pf) (op.run pf ch sm).val ∧
      Ready pf (op.run pf ch sm).final ∧
      (op.run pf ch sm).final.toMap pf = op.next sm.settings.SegSize (sm.toMap pf) ∧
      (op.run pf ch sm).final.settings.SegSize = op.nextSegSize sm.settings.SegSize := by
  have hrows := hw.start.2
  have hlim := hw.mono fun _ hs => hs.1
  cases op with
  | get key =>
    obtain ⟨hval, hwrote⟩ := ShardManager.get_spec h.inv key
    exact ⟨congrArg some hval, ⟨hwrote.inv, hwrote.kept.uniform h.uniform⟩, hwrote.toMap,
      congrArg Settings.SegSize hwrote.kept.settings⟩
  | getBy valid =>
    obtain ⟨pairs, hp, hval⟩ := ShardManager.getBy_spec ch h.inv hrows valid
    exact ⟨⟨_, pairs, hp, Shard.shows_dumpArray hq pairs, congrArg some hval⟩, h, rfl, rfl⟩
  | write w =>
    obtain ⟨hval, hwrote⟩ := ShardManager.write_spec h.inv h.uniform hv hlim.bind_left
    exact ⟨congrArg some (hval hrows), ⟨hwrote.inv, hwrote.kept.uniform h.uniform⟩, hwrote.toMap,
      congrArg Settings.SegSize hwrote.kept.settings⟩
  | flush =>
    obtain ⟨hi, hm, hs, -, hu⟩ := ShardManager.flush_spec h.inv ch
    exact ⟨rfl, ⟨hi, fun i => (hu i).trans ((h.uniform i).trans hs.symm)⟩, hm,
      congrArg Settings.SegSize hs⟩
  | compact shard =>
    have hwrote := ShardManager.compactorPass_spec h.inv (hrows.fewKeys shard)
      (hlim.bind_left.mono fun _ hs i => (hs i).bounded)
    exact ⟨rfl, ⟨hwrote.inv, hwrote.kept.uniform h.uniform⟩, hwrote.toMap,
      congrArg Settings.SegSize hwrote.kept.settings⟩
  | reloadSettings settings =>
    obtain ⟨hi, hm, hs, -, hu⟩ := ShardManager.reloadSettings_spec h.inv settings
    exact ⟨rfl, ⟨hi, hu⟩, hm, congrArg Settings.SegSize hs⟩

lemma runAll_serves {ops : List (Op n × Choices n)} (hq : pf.Quotes) (h : Ready pf sm)
    (hv : ∀ op ∈ ops, op.1.ValueOk) (hw : Traced.Within Limits (runAll pf ops) sm) :
    Serves pf sm.settings.SegSize (sm.toMap pf) (ops.map Prod.fst) (runAll pf ops sm).val
      ((runAll pf ops sm).final.toMap pf) := by
  induction ops generalizing sm with
  | nil => exact .nil
  | cons op ops ih =>
    obtain ⟨hans, hready, hmap, hseg⟩ := run_spec hq h (hv op (by simp)) hw.bind_left
    have hrest := ih hready (fun o ho => hv o (by simp [ho]))
      (hw.bind_right (run_tracked op.1)).bind_left
    rw [hmap, hseg] at hrest
    exact .cons hans hrest

lemma create_ready (pf : Platform) (settings : Settings) (ch fill : Choices n) :
    Ready pf (ShardManager.create settings ch fill fun _ => .empty) ∧
      (ShardManager.create settings ch fill fun _ => .empty).toMap pf = fun _ => none := by
  have hs := fun i => Shard.reopen_empty settings (ch.shard i) (fill.shard i)
  refine ⟨⟨⟨fun i => (hs i).1, fun i k hk => ?_⟩, fun i => (hs i).2.2⟩, ?_⟩
  · change ((Shard.reopen settings (ch.shard i) (fill.shard i) .empty).toMap k).isSome at hk
    rw [(hs i).2.1] at hk
    cases hk
  · funext k
    exact congrFun (hs (ShardManager.getShardId pf k)).2.1 k

/-- From an empty database, whatever its number of shards, every sequence of operations answers as
one map would. -/
theorem runAll_refines_map (hq : pf.Quotes) (settings : Settings) (ch fill : Choices n)
    (ops : List (Op n × Choices n)) (hv : ∀ op ∈ ops, op.1.ValueOk)
    (hw : Traced.Within Limits (runAll pf ops)
      (ShardManager.create settings ch fill fun _ => .empty)) :
    Serves pf settings.SegSize (fun _ => none) (ops.map Prod.fst)
      (runAll pf ops (ShardManager.create settings ch fill fun _ => .empty)).val
      ((runAll pf ops (ShardManager.create settings ch fill fun _ => .empty)).final.toMap pf) := by
  obtain ⟨hready, hmap⟩ := create_ready pf settings ch fill
  have := runAll_serves hq hready hv hw
  rwa [hmap] at this

/-- One platform for the runs on fixed inputs: every key has the same hash, and no text is a regular
expression. -/
def oneHash : Platform := ⟨fun _ => 0, id, fun _ => true, fun _ => none, id⟩

def newManager (settings : Settings) : ShardManager 1 :=
  ShardManager.create settings {} {} fun _ => .empty

def quoting : Platform := { oneHash with escape := escapeAscii }

def everyOp : List (Op 1 × Choices 1) :=
  [(.write (.set (ascii "a") (ascii "xxxx")), {}), (.write (.set (ascii "b") (ascii "yy")), {}),
    (.write (.set (ascii "c") (ascii "zzzz")), {}), (.get (ascii "b"), {}),
    (.getBy ⟨fun _ => true, 2⟩, {}),
    (.write (.setBy ⟨fun _ => true, 2⟩ (ascii "ww")), {}), (.write (.del (ascii "c")), {}),
    (.flush, {}), (.compact 0, {}), (.reloadSettings { SegSize := 3, CacheSize := 0 }, {}),
    (.write (.setBy ⟨fun _ => true, UINT_MAX⟩ (ascii "long")), {}),
    (.getBy ⟨fun _ => true, UINT_MAX⟩, {}), (.write (.delBy ⟨fun _ => true, 1⟩), {}),
    (.get (ascii "a"), {})]

theorem everyOp_refines_map :
    Serves quoting 10 (fun _ => none) (everyOp.map Prod.fst)
    (runAll quoting everyOp (newManager { SegSize := 10 })).val
      ((runAll quoting everyOp (newManager { SegSize := 10 })).final.toMap quoting) := by
  refine runAll_refines_map (escapeAscii_quotes rfl) { SegSize := 10 } {} {} everyOp
    (by decide +kernel) (by decide +kernel)

def setThenGet (key : Key) (value : Value) : List (Op 1 × Choices 1) :=
  [(.write (.set key value), {}), (.get key, {})]

section LongValue

variable {segSize : ℕ} {value : Value} {key : Key}

def newStorage : StorageManager := ⟨(∅ : AList (fun _ : ℕ => DataSegment)).insert 1 (.fresh 1), 1⟩

def firstValue (value : Value) : StorageManager :=
  ⟨newStorage.segments.insert 1 ((DataSegment.fresh 1).wrote value), 1⟩

lemma append_newStorage (h0 : 0 < segSize) (hz : segSize < 2 ^ 64 - 1)
    (hv : value.length ≤ segSize) :
    StorageManager.append segSize value newStorage =
      ⟨⟨[], 0, 1, value.length % 2 ^ 32, false⟩, firstValue value, [firstValue value]⟩ := by
  have hl : newStorage.segments.lookup 1 = some (.fresh 1) := rfl
  have hfull : DataSegment.isFull segSize (.fresh 1) = false := by
    simp [DataSegment.isFull, DataSegment.fresh, DataSegment.openSegment]
    omega
  have hcur : StorageManager.currentSegment segSize newStorage = ⟨1, newStorage, []⟩ := by
    rw [StorageManager.currentSegment, Traced.get_bind, if_pos]
    · rfl
    · change StorageManager.usable segSize newStorage 1 = true
      simp only [StorageManager.usable, hl, hfull, Bool.not_false]
  have hwrite : (DataSegment.fresh 1).write segSize value =
      (0, (DataSegment.fresh 1).wrote value) :=
    DataSegment.write_room rfl (by simpa [DataSegment.fresh, DataSegment.openSegment] using hv) hz
  have hne : ¬ 0 = (segSize + 1) % 2 ^ 64 := by omega
  have happ : StorageManager.appendToSegment segSize 1 value newStorage =
      ⟨⟨[], 0, 1, value.length % 2 ^ 32, false⟩, firstValue value, [firstValue value]⟩ := by
    simp only [StorageManager.appendToSegment, bind, Traced.get, hl, hwrite, Traced.step, hne,
      if_false, pure, List.nil_append, List.append_nil]
    rfl
  refine Traced.bind_eq hcur ?_
  rw [← List.append_nil [firstValue value]]
  refine Traced.bind_eq happ ?_
  rw [if_neg (show ¬ 1 = INVALID_SEGMENT_ID by decide)]
  rfl

def wideSettings : Settings := { SegSize := 2 ^ 33, CacheSize := 0 }

def beforeIndex (value : Value) : Shard :=
  ⟨wideSettings, .openWal [], ⟨∅, .ofContent [], false⟩, firstValue value, .empty 0⟩

def afterSet (key : Key) (value : Value) : Shard :=
  Shard.putIndex ⟨key, 0, 1, value.length % 2 ^ 32, false⟩ value (beforeIndex value)

lemma set_newShard (hv : value.length ≤ 2 ^ 33) :
    Shard.set key value (Shard.reopen wideSettings .plain .plain .empty) =
      ⟨⟨.Success, Messages.SUCCESS_SET, 1⟩, afterSet key value,
        [beforeIndex value, afterSet key value]⟩ := by
  have happ : Shard.onStorage (StorageManager.append (2 ^ 33) value)
      (Shard.reopen wideSettings .plain .plain .empty) =
      ⟨⟨[], 0, 1, value.length % 2 ^ 32, false⟩, beforeIndex value, [beforeIndex value]⟩ := by
    have hs : Shard.reopen wideSettings .plain .plain .empty =
        ⟨wideSettings, .openWal [], ⟨∅, .ofContent [], false⟩, newStorage, .empty 0⟩ := rfl
    rw [hs, Shard.onStorage, Traced.zoom]
    simp only [append_newStorage (by decide) (by decide) hv]
    rfl
  rw [Shard.set, Traced.get_bind]
  refine Traced.bind_eq happ ?_
  rw [if_neg (show ¬ 1 = INVALID_SEGMENT_ID by decide)]
  rfl

lemma get_afterSet (hv : value.length % 2 ^ 32 = 0) :
    (afterSet key value).get key = (⟨.Error, Messages.READ_FAILED, 0⟩, afterSet key value) := by
  have hsearch : (afterSet key value).indexManager.search key = ⟨key, 0, 1, 0, false⟩ := by
    rw [Shard.search_eq, show (afterSet key value).tree.lookup key =
      some ⟨0, 1, value.length % 2 ^ 32⟩ from
      AList.lookup_insert _, hv]
    rfl
  have hmiss : (afterSet key value).cache.get key = (⟨.invalid, []⟩, (afterSet key value).cache) :=
    rfl
  have hread : (afterSet key value).storageManager.read ⟨key, 0, 1, 0, false⟩ = [] := rfl
  have hlive : Shard.live ⟨key, 0, 1, 0, false⟩ = true := rfl
  have hdead : Shard.live .invalid = false := rfl
  simp only [Shard.get, hmiss, hdead, hsearch, hlive, hread, if_true, Bool.false_eq_true, if_false]

def managerWith (key : Key) (value : Value) : ShardManager 1 :=
  (newManager wideSettings).setShard 0 (afterSet key value)

lemma setThenGet_run (hv : value.length ≤ 2 ^ 33) (h0 : value.length % 2 ^ 32 = 0) :
    runAll oneHash (setThenGet key value) (newManager wideSettings) =
      ⟨[some ⟨.Success, Messages.SUCCESS_SET, 1⟩, some ⟨.Error, Messages.READ_FAILED, 0⟩],
        managerWith key value,
        [(newManager wideSettings).setShard 0 (beforeIndex value), managerWith key value,
          managerWith key value]⟩ := by
  have hset : (Op.write (.set key value)).run oneHash {} (newManager wideSettings) =
      ⟨some ⟨.Success, Messages.SUCCESS_SET, 1⟩, managerWith key value,
        [(newManager wideSettings).setShard 0 (beforeIndex value), managerWith key value] ++
        []⟩ := by
    refine Traced.bind_eq ?_ rfl
    change ShardManager.onShard 0 (Shard.set key value) (newManager wideSettings) = _
    rw [ShardManager.onShard, Traced.zoom]
    have hs : (newManager wideSettings).shards 0 = Shard.reopen wideSettings .plain .plain .empty :=
      rfl
    rw [hs, set_newShard hv]
    rfl
  have hget : (managerWith key value).get oneHash key =
      (⟨.Error, Messages.READ_FAILED, 0⟩, managerWith key value) := by
    have hs : (managerWith key value).shards (ShardManager.getShardId oneHash key) =
        afterSet key value := rfl
    rw [ShardManager.get, hs, get_afterSet h0]
    refine Prod.ext rfl ?_
    change (managerWith key value).setShard 0 (afterSet key value) = _
    simp [managerWith, ShardManager.setShard]
  have hrun : (Op.get key).run oneHash {} (managerWith key value) =
      ⟨some ⟨.Error, Messages.READ_FAILED, 0⟩, managerWith key value, [managerWith key value]⟩ := by
    change Outcome.mk (some ((managerWith key value).get oneHash key).1)
      ((managerWith key value).get oneHash key).2
      [((managerWith key value).get oneHash key).2] = _
    rw [hget]
  have hrest : runAll oneHash [(Op.get key, {})] (managerWith key value) =
      ⟨[some ⟨.Error, Messages.READ_FAILED, 0⟩], managerWith key value,
        [managerWith key value] ++ []⟩ :=
    Traced.bind_eq hrun rfl
  exact Traced.bind_eq hset (Traced.bind_eq hrest rfl)

lemma limits_firstValue {im : IndexManager} (hv : value.length < 2 ^ 63)
    (hk : im.memoryTree.keys.length < 2 ^ 31) :
    Limits ((newManager wideSettings).setShard 0 ⟨wideSettings, .openWal [], im, firstValue value,
      .empty 0⟩) := by
  refine ⟨fun i => ?_, fun i => ?_⟩
  · obtain rfl : i = 0 := Subsingleton.elim _ _
    refine ⟨⟨show 1 < 2 ^ 32 - 2 by decide, fun id seg hl => ?_⟩,
      show 2 ^ 33 < 2 ^ 64 - 1 by decide⟩
    change (newStorage.segments.insert 1 ((DataSegment.fresh 1).wrote value)).lookup id =
      some seg at hl
    rw [AList.lookup_insert_ite] at hl
    split_ifs at hl with hid
    · obtain rfl : (DataSegment.fresh 1).wrote value = seg := by simpa using hl
      exact hv
    · rw [newStorage, AList.lookup_insert_ite, if_neg hid] at hl
      cases hl
  · obtain rfl : i = 0 := Subsingleton.elim _ _
    exact hk

end LongValue

def longValue : Value := List.replicate (2 ^ 32) 0

lemma longValue_length : longValue.length = 2 ^ 32 := List.length_replicate

/-- A value of `2 ^ 32` bytes is taken and cannot be read back. -/
theorem setThenGet_long_value :
    longValue ≠ [] ∧ longValue.length ≤ wideSettings.SegSize ∧
      Traced.Within Limits (runAll oneHash (setThenGet (ascii "a") longValue))
      (newManager wideSettings) ∧ ¬ Serves oneHash wideSettings.SegSize (fun _ => none)
      ((setThenGet (ascii "a") longValue).map Prod.fst)
        (runAll oneHash (setThenGet (ascii "a") longValue) (newManager wideSettings)).val
        ((runAll oneHash (setThenGet (ascii "a") longValue) (newManager wideSettings)).final.toMap
          oneHash) := by
  have hlen := longValue_length
  have hle : longValue.length ≤ 2 ^ 33 := by rw [hlen]; decide
  have hlt : longValue.length < 2 ^ 63 := by rw [hlen]; decide
  have h0 : longValue.length % 2 ^ 32 = 0 := by rw [hlen]; decide
  have hne : longValue ≠ [] := List.ne_nil_of_length_pos (hlen ▸ (by decide : 0 < 2 ^ 32))
  refine ⟨hne, hle, ?_, ?_⟩
  · intro sm hsm
    rw [setThenGet_run hle h0] at hsm
    simp only [List.mem_cons, List.not_mem_nil, or_false] at hsm
    rcases hsm with rfl | rfl | rfl | rfl
    · decide +kernel
    · exact limits_firstValue hlt (by decide)
    all_goals exact limits_firstValue hlt (by decide)
  · rw [setThenGet_run hle h0]
    rintro (_ | ⟨-, hrest⟩)
    rcases hrest with _ | ⟨hans, -⟩
    have hnext : (Op.write (n := 1) (.set (ascii "a") longValue)).next wideSettings.SegSize
        (fun _ => none) (ascii "a") =
        some longValue := by
      have hfits : (Write.set (ascii "a") longValue).Fits wideSettings.SegSize := hle
      rw [next, Write.applyWithin_of_fits hfits, Write.apply, Function.update_self]
    simp only [Answers, Shard.getResult, hnext, Option.some.injEq, ResultType.mk.injEq] at hans
    cases hans.1

end Op

end Zest
