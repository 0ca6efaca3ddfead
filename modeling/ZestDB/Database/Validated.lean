import ZestDB.Database.Restart

/-! A `set` that passed the checks: when its shard takes the value. -/

namespace Zest

open Foundations

namespace StorageManager

variable {sm : StorageManager} {segSize : ℕ} {value : Value} {seg : DataSegment} {id : ℕ}

def NewestEmpty (sm : StorageManager) : Prop :=
  ∀ seg, sm.segments.lookup sm.latestSegmentId = some seg → seg.file.content = []

variable (value) in
lemma appendToSegment_empty (ho : sm.Wf) (hs : sm.segments.lookup id = some seg)
    (hempty : seg.file.content = []) :
    ∃ t, appendToSegment (2 ^ 64 - 1) id value sm = ⟨.invalid, t, [t]⟩ ∧
      t.latestSegmentId = sm.latestSegmentId := by
  have hoffset : seg.currentOffset = 0 := by rw [(ho id seg hs).offset, hempty, List.length_nil]
  have hfits : ¬ (0 + value.length) % 2 ^ 64 > 2 ^ 64 - 1 := by
    have := Nat.mod_lt (0 + value.length) (show 2 ^ 64 > 0 by decide)
    omega
  have hwrite : (seg.write (2 ^ 64 - 1) value).1 = (2 ^ 64 - 1 + 1) % 2 ^ 64 := by
    simp only [DataSegment.write, hoffset]
    rw [if_neg hfits]
    norm_num
  refine ⟨{ sm with segments := sm.segments.insert id (seg.write (2 ^ 64 - 1) value).2 }, ?_, rfl⟩
  simp only [appendToSegment, bind, Traced.get, hs, hwrite, Traced.step, if_true, pure,
    List.nil_append, List.append_nil]

lemma append_empty (hw : sm.Wf) (hlim : sm.WithinLimits) (hv : value.length < 2 ^ 63)
    (hempty : sm.NewestEmpty) :
    (append (2 ^ 64 - 1) value sm).val = .invalid := by
  have hl := hlim.latest
  have hi : IndexEntry.invalid.segmentId = INVALID_SEGMENT_ID := rfl
  -- the second attempt, from any storage the first one leaves
  have hsecond : ∀ {t : StorageManager}, t.Wf → t.latestSegmentId < 2 ^ 32 - 1 →
      ∃ u w, newSegment (nextId t.latestSegmentId) t = ⟨(), u, [u]⟩ ∧
        appendToSegment (2 ^ 64 - 1) (nextId t.latestSegmentId) value u = ⟨.invalid, w, [w]⟩ := by
    intro t ht hlt
    obtain ⟨u, hu, hou, hn⟩ := newSegment_opened ht hlt
    have hs : u.segments.lookup (t.latestSegmentId + 1) =
        some (.fresh (t.latestSegmentId + 1)) := by
      rw [hou.lookup, if_pos rfl]
    obtain ⟨w, hw', -⟩ := appendToSegment_empty value (hou.opened.wf ht) hs rfl
    exact ⟨u, w, hu, hn ▸ hw'⟩
  have hfails : ∀ {id : ℕ} {t u : StorageManager} {ts : List StorageManager},
      currentSegment (2 ^ 64 - 1) sm = ⟨id, t, ts⟩ → appendToSegment (2 ^ 64 - 1) id value t =
        ⟨.invalid, u, [u]⟩ →
      u.Wf → u.latestSegmentId < 2 ^ 32 - 1 → (append (2 ^ 64 - 1) value sm).val = .invalid := by
    intro id t u ts hc hu huw hul
    obtain ⟨w, x, hw', hx⟩ := hsecond huw hul
    have he : append (2 ^ 64 - 1) value sm = ⟨.invalid, x, ts ++ ([u] ++ ([] ++ ([w] ++ [x])))⟩ :=
      Traced.bind_eq hc (Traced.bind_eq hu
        (by rw [if_pos hi]; exact Traced.bind_eq (Traced.get_run u) (Traced.bind_eq hw' hx)))
    rw [he]
  rcases currentSegment_cases hw (by omega) (2 ^ 64 - 1) with ⟨seg, hs, hc⟩ | ⟨t, ho, hc⟩
  · have hcontent := hempty seg hs
    obtain ⟨u, hu, hul⟩ := appendToSegment_empty value hw hs hcontent
    obtain ⟨u', hu', ha⟩ :=
      appendToSegment_largest hw hs (by simp [hcontent]) hv (by unfold INVALID_SEGMENT_ID; omega)
    obtain rfl : u = u' := congrArg Outcome.final (hu.symm.trans hu')
    exact hfails hc hu (ha.wf hw) (by omega)
  · have hs : t.segments.lookup (sm.latestSegmentId + 1) =
        some (.fresh (sm.latestSegmentId + 1)) := by
      rw [ho.lookup, if_pos rfl]
    obtain ⟨u, hu, hul⟩ := appendToSegment_empty value (ho.opened.wf hw) hs rfl
    obtain ⟨u', hu', ha⟩ :=
      appendToSegment_largest (ho.opened.wf hw) hs
      (by simp [DataSegment.fresh, DataSegment.openSegment]) hv
      (by unfold INVALID_SEGMENT_ID; omega)
    obtain rfl : u = u' := congrArg Outcome.final (hu.symm.trans hu')
    exact hfails hc hu (ha.wf (ho.opened.wf hw)) (by rw [hul, ho.latest]; omega)

lemma append_newest (hw : sm.Wf) (hlim : sm.WithinLimits) (hv : value.length < 2 ^ 63)
    (hnonempty : ¬ sm.NewestEmpty) :
    (append (2 ^ 64 - 1) value sm).val.segmentId ≠ INVALID_SEGMENT_ID ∧
      Appended sm (append (2 ^ 64 - 1) value sm).final value
      (append (2 ^ 64 - 1) value sm).val := by
  have hl := hlim.latest
  have hid : sm.latestSegmentId < INVALID_SEGMENT_ID := by
    simp only [INVALID_SEGMENT_ID]
    omega
  simp only [NewestEmpty, not_forall] at hnonempty
  obtain ⟨seg, hs, hcontent⟩ := hnonempty
  have hlen := hlim.length _ _ hs
  have husable : sm.usable (2 ^ 64 - 1) sm.latestSegmentId = true := by
    simp only [usable, hs, DataSegment.isFull, (hw _ _ hs).offset, Bool.not_eq_true',
      decide_eq_false_iff_not]
    omega
  have hc : currentSegment (2 ^ 64 - 1) sm = ⟨sm.latestSegmentId, sm, []⟩ :=
    Traced.bind_eq (Traced.get_run sm) (by rw [if_pos husable]; rfl)
  obtain ⟨u, hu, ha⟩ := appendToSegment_largest hw hs hlen hv hid
  rw [if_neg (by simpa using hcontent)] at hu
  have he : append (2 ^ 64 - 1) value sm = ⟨⟨[], _, sm.latestSegmentId, _, _⟩, u, [u]⟩ :=
    Traced.bind_eq hc (Traced.bind_eq hu (by rw [if_neg hid.ne]; rfl))
  rw [he]
  exact ⟨hid.ne, ha⟩

lemma append_takes_iff (hw : sm.Wf) (hlim : sm.WithinLimits) (hz : segSize < 2 ^ 64)
    (hv : value.length < 2 ^ 63) :
    ((append segSize value sm).val.segmentId ≠ INVALID_SEGMENT_ID ↔
        value.length ≤ segSize ∧ ¬ (segSize = 2 ^ 64 - 1 ∧ sm.NewestEmpty)) ∧
      ((append segSize value sm).val.segmentId ≠ INVALID_SEGMENT_ID →
        Appended sm (append segSize value sm).final value (append segSize value sm).val) := by
  by_cases hlast : segSize = 2 ^ 64 - 1
  · subst hlast
    simp only [true_and]
    by_cases hempty : sm.NewestEmpty
    · have hinvalid : (append (2 ^ 64 - 1) value sm).val.segmentId = INVALID_SEGMENT_ID := by
        rw [append_empty hw hlim hv hempty]
        rfl
      exact ⟨iff_of_false (fun h => h hinvalid) fun h => h.2 hempty, fun h => absurd hinvalid h⟩
    · obtain ⟨hvalid, ha⟩ := append_newest hw hlim hv hempty
      exact ⟨iff_of_true hvalid ⟨by omega, hempty⟩, fun _ => ha⟩
  · rcases Nat.lt_or_ge segSize value.length with hlt | hle
    · have hinvalid : (append segSize value sm).val.segmentId = INVALID_SEGMENT_ID := by
        rw [(append_refuses hw hlim hlt hv).1]
        rfl
      exact ⟨iff_of_false (fun h => h hinvalid) fun h => absurd h.1 (not_le.mpr hlt),
        fun h => absurd hinvalid h⟩
    · obtain ⟨ha, -, -⟩ := append_fits hw hlim (by omega) hle hv
      exact ⟨iff_of_true ha.valid.ne ⟨hle, fun h => hlast h.1⟩, fun _ => ha⟩

end StorageManager

namespace Shard

variable {s : Shard} {key : Key} {value : Value}

structure Takes (key : Key) (value : Value) (s : Shard) : Prop where
  success : (set key value s).val.code = .Success
  appended : ∃ e, StorageManager.Appended s.storageManager
    (set key value s).final.storageManager value e

variable (key) in
lemma takes_iff (h : s.Tidy) (hb : s.Bounded) (hv : value.length < 2 ^ 63) :
    Takes key value s ↔ value.length ≤ s.settings.SegSize ∧
      ¬ (s.settings.SegSize = 2 ^ 64 - 1 ∧ s.storageManager.NewestEmpty) := by
  obtain ⟨hiff, happended⟩ := StorageManager.append_takes_iff h.storage hb.storage hb.segSize hv
  have ha : onStorage (StorageManager.append s.settings.SegSize value) s =
      ⟨(StorageManager.append s.settings.SegSize value s.storageManager).val,
        { s with storageManager := (StorageManager.append s.settings.SegSize value
          s.storageManager).final }, _⟩ := rfl
  rw [← hiff]
  constructor
  · rintro ⟨hsuccess, -⟩ hinvalid
    rw [set_refused ha hinvalid] at hsuccess
    cases hsuccess
  · intro hvalid
    have hput : set key value s = _ := set_put ha hvalid
    exact ⟨by rw [hput], _, by rw [hput]; exact happended hvalid⟩

end Shard

namespace ZestDB

variable {n : ℕ} [NeZero n] {pf : Platform} {few : Prop} {db : ZestDB n} {key : Key} {value : Value}
  {ch : Choices n}

/-- The set is acknowledged, and one segment of the shard of the key has the value at its end. -/
structure Takes (pf : Platform) (ch : Choices n) (key : Key) (value : Value) (db : ZestDB n) :
    Prop where
  success : (write pf ch (.set key value) db).val.code = .Success
  appended : ∃ e, StorageManager.Appended
    (db.shardManager.shards (ShardManager.getShardId pf key)).storageManager
    ((write pf ch (.set key value) db).final.shardManager.shards
      (ShardManager.getShardId pf key)).storageManager value e

/-- In every database there can be, a set that passed the checks is acknowledged when its value is
not longer than the segment size of its shard, unless that is the largest there is and the newest
segment is empty. -/
theorem validated_set_iff {config : ConfigFile} {settings : Settings} {chs fill : Choices n}
    (hc : config.Typed)
    (hs : settings.Accepted) (hist : History pf few (new config settings chs fill) db)
    (hb : (db.shardManager.shards (ShardManager.getShardId pf key)).Bounded)
    (hr : refusal pf db.settings true (.set key value) = none) :
    Takes pf ch key value db ↔
      value.length ≤ (db.shardManager.shards (ShardManager.getShardId pf key)).settings.SegSize ∧
        ¬ ((db.shardManager.shards (ShardManager.getShardId pf key)).settings.SegSize = 2 ^ 64 - 1 ∧
          (db.shardManager.shards
            (ShardManager.getShardId pf key)).storageManager.NewestEmpty) := by
  have hg := hist.tidy (new_tidy hc hs chs fill)
  have hvalue := (refusal_none hg.accepted hr).1 value rfl
  rw [← Shard.takes_iff key (hg.shards _) hb (hvalue.length.trans (by decide))]
  have hwrite : write pf ch (.set key value) db = onManager (ShardManager.set pf key value) db := by
    simp only [write, Traced.get_bind, hg.replaying, Bool.not_false, hr]
    rfl
  have hfinal : (onManager (ShardManager.set pf key value) db).final.shardManager.shards
      (ShardManager.getShardId pf key) =
      (Shard.set key value (db.shardManager.shards (ShardManager.getShardId pf key))).final :=
    Function.update_self ..
  have hval : (onManager (ShardManager.set pf key value) db).val =
      (Shard.set key value (db.shardManager.shards (ShardManager.getShardId pf key))).val := rfl
  constructor
  · rintro ⟨hsuccess, happended⟩
    rw [hwrite, hval] at hsuccess
    rw [hwrite, hfinal] at happended
    exact ⟨hsuccess, happended⟩
  · rintro ⟨hsuccess, happended⟩
    refine ⟨?_, ?_⟩
    · rw [hwrite, hval]
      exact hsuccess
    · rw [hwrite, hfinal]
      exact happended

section Runs

def plainStart : ZestDB 1 := new .defaults {} {} {}

def largestSegments : ZestDB 1 :=
  ((Event.exec { command := ascii "scfg segsize 18446744073709551615" }).run Op.oneHash
    plainStart).final

/-- Segments of ten bytes and a `config.yaml` that the library refuses: two calls of `scfg` that
throw let the database, but not its shard, take values of twenty bytes. -/
def laggingShard : ZestDB 1 :=
  [Event.edit ⟨false, none, ∅, true⟩, .exec { command := ascii "scfg segsize 30" },
    .exec { command := ascii "scfg maxvaluesize 20" }].foldl
    (fun db e => (e.run Op.oneHash db).final)
    (new .defaults { SegSize := 10, MaxValueSize := 5 } {} {})

theorem validated_sets_fail :
    (History Op.oneHash True plainStart largestSegments ∧
      (largestSegments.shardManager.shards 0).Bounded ∧
      refusal Op.oneHash largestSegments.settings true (.set (ascii "a") (ascii "x")) = none ∧
      (write Op.oneHash {} (.set (ascii "a") (ascii "x")) largestSegments).val =
        Shard.segmentFull) ∧
    History Op.oneHash True
    (new .defaults { SegSize := 10, MaxValueSize := 5 } {} {}) laggingShard ∧
      (laggingShard.shardManager.shards 0).Bounded ∧
      refusal Op.oneHash laggingShard.settings true (.set (ascii "a") (ascii "a value so long")) =
        none ∧ (write Op.oneHash {} (.set (ascii "a") (ascii "a value so long")) laggingShard).val =
        Shard.segmentFull := by
  refine ⟨⟨.tail _ (.refl _) trivial (fun _ => trivial)
    (by decide +kernel), by decide +kernel, by decide +kernel,
    by decide +kernel⟩, .tail (.exec { command := ascii "scfg maxvaluesize 20" }) (.tail
      (.exec { command := ascii "scfg segsize 30" }) (.tail (.edit ⟨false, none, ∅, true⟩) (.refl _)
        (fun s hs => by cases hs) (fun _ => trivial) (by decide +kernel))
          trivial (fun _ => trivial) (by decide +kernel)) trivial
      (fun _ => trivial)
      (by decide +kernel), by decide +kernel, by decide +kernel, by decide +kernel⟩

theorem plainStart_takes : Takes Op.oneHash {} (ascii "a") (ascii "x") plainStart := by
  have hist : History Op.oneHash False plainStart plainStart := .refl _
  refine (validated_set_iff ConfigFile.defaults_typed default_accepted hist ?_ ?_).mpr
    ⟨?_, fun h => ?_⟩
  · decide +kernel
  · decide +kernel
  · decide +kernel
  · have hsize := h.1
    revert hsize
    decide +kernel

end Runs

end ZestDB

end Zest
