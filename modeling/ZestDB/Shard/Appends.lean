import ZestDB.Shard.Readers
import ZestDB.Shard.Durable

/-! Between two passes of the compactor the files of a shard are only appended to: what is on disk
stays there. -/

namespace Zest

open Foundations
open Foundations.Traced (Tracked Within)

namespace StorageManager

variable {segSize id : ℕ} {value : Value} {ch : Choice} {sm t : StorageManager}

def part (f : BufferedFile Byte → Bytes) (sm : StorageManager) : Files :=
  fun id => (sm.segments.lookup id).map fun seg => f seg.file

structure Appends (sm t : StorageManager) : Prop where
  synced : sm.synced.Grows t.synced
  files : sm.files.Grows t.files

lemma Appends.refl (sm : StorageManager) : sm.Appends sm := ⟨.refl _, .refl _⟩

lemma Appends.trans {u : StorageManager} (h : sm.Appends t) (h' : t.Appends u) : sm.Appends u :=
  ⟨h.synced.trans h'.synced, h.files.trans h'.files⟩

lemma part_grows (f : BufferedFile Byte → Bytes) {seg' : DataSegment} {latest : ℕ}
    (hle : ∀ seg, sm.segments.lookup id = some seg → f seg.file <+: f seg'.file) :
    (part f sm).Grows (part f ⟨sm.segments.insert id seg', latest⟩) := by
  intro j c hc
  obtain ⟨seg, hs, rfl⟩ := Option.map_eq_some_iff.mp hc
  by_cases hj : j = id
  · subst hj
    refine ⟨f seg'.file, ?_, hle seg hs⟩
    simp only [part, AList.lookup_insert, Option.map_some]
  · refine ⟨f seg.file, ?_, List.prefix_rfl⟩
    simp only [part, AList.lookup_insert_ne hj, hs, Option.map_some]

lemma appends_insert {seg' : DataSegment} {latest : ℕ}
    (hle : ∀ seg, sm.segments.lookup id = some seg →
      seg.file.synced <+: seg'.file.synced ∧ seg.file.content <+: seg'.file.content) :
    sm.Appends ⟨sm.segments.insert id seg', latest⟩ :=
  ⟨part_grows BufferedFile.synced fun seg hs => (hle seg hs).1,
    part_grows BufferedFile.content fun seg hs => (hle seg hs).2⟩

lemma newSegment_appends (id : ℕ) (sm : StorageManager) : Within (Appends sm)
    (newSegment id) sm := by
  refine .step (.refl _) (appends_insert fun seg hs => ?_)
  simp only [hs, Option.map_some, Option.getD_some, DataSegment.openSegment]
  exact ⟨List.prefix_rfl, List.prefix_rfl⟩

lemma write_file (segSize : ℕ) (seg : DataSegment) (value : Value) :
    (seg.write segSize value).2.file.synced = seg.file.synced ∧
    seg.file.content <+: (seg.write segSize value).2.file.content := by
  simp only [DataSegment.write]
  split_ifs
  · exact ⟨rfl, List.prefix_rfl⟩
  · refine ⟨rfl, ?_⟩
    rw [BufferedFile.content_append]
    exact List.prefix_append _ _

lemma appendToSegment_appends (sm : StorageManager) : Within (Appends sm)
    (appendToSegment segSize id value) sm := by
  rw [appendToSegment]
  refine (Within.get_bind_iff _).mpr ?_
  cases hl : sm.segments.lookup id with
  | none => exact .pure _ (.refl _)
  | some seg =>
    have hstep : sm.Appends
        { sm with segments := sm.segments.insert id (seg.write segSize value).2 } := by
      refine appends_insert fun seg' hs => ?_
      obtain rfl : seg = seg' := by simpa [hl] using hs
      obtain ⟨hsynced, hcontent⟩ := write_file segSize seg value
      exact ⟨hsynced ▸ List.prefix_rfl, hcontent⟩
    exact .bind (.step (.refl _) hstep) (.pure _ hstep)

lemma currentSegment_appends (sm : StorageManager) : Within (Appends sm)
    (currentSegment segSize) sm := by
  refine .bind (.get (.refl _)) ?_
  exact .ite (.pure _ (.refl _)) (.bind_pure (newSegment_appends _ sm) (.step _) _)

lemma append_appends (sm : StorageManager) : Within (Appends sm) (append segSize value) sm := by
  refine .after Appends.trans currentSegment_tracked (currentSegment_appends sm) ?_
  refine .after Appends.trans appendToSegment_tracked (appendToSegment_appends _) ?_
  refine .ite (.bind (.get (.refl _)) ?_) (.pure _ (.refl _))
  exact .after Appends.trans (.step _) (newSegment_appends _ _) (appendToSegment_appends _)

lemma flushSegment_appends (id : ℕ) (sm : StorageManager) : sm.Appends (flushSegment id sm) := by
  simp only [flushSegment]
  cases hl : sm.segments.lookup id with
  | none => exact .refl _
  | some seg =>
    refine appends_insert fun seg' hs => ?_
    obtain rfl : seg = seg' := by simpa [hl] using hs
    cases hc : seg.canFlush <;>
      simp [DataSegment.flush, hc, BufferedFile.flush, BufferedFile.content]

lemma flush_appends (sm : StorageManager) : Within (Appends sm) (flush ch) sm := by
  refine .bind (.get (.refl _)) ?_
  have hall : ∀ (ids : List ℕ) (sm : StorageManager),
      Within (Appends sm) (.forEach (fun id => .step (flushSegment id)) ids) sm := by
    intro ids
    induction ids with
    | nil => exact fun sm => .pure _ (.refl _)
    | cons id ids ih =>
      exact fun sm => .after Appends.trans (.step _) (.step (.refl _) (flushSegment_appends id sm))
        (ih _)
  exact hall _ sm

end StorageManager

namespace Shard

variable {key : Key} {value : Value} {ch : Choice} {valid : ValidationRule} {count : Option ℕ}
variable {entries : List IndexEntry} {s t u : Shard}

/-- Nothing of `s` that is on disk is gone or changed in `t`. -/
structure Appends (s t : Shard) : Prop where
  index : s.indexManager.index.synced <+: t.indexManager.index.synced
  segments : s.synced.Grows t.synced

structure Writes (s t : Shard) : Prop where
  index : t.indexManager.index.synced = s.indexManager.index.synced
  storage : s.storageManager.Appends t.storageManager

lemma Appends.refl (s : Shard) : s.Appends s := ⟨List.prefix_rfl, .refl _⟩

lemma Appends.trans (h : s.Appends t) (h' : t.Appends u) : s.Appends u :=
  ⟨h.index.trans h'.index, h.segments.trans h'.segments⟩

lemma Writes.refl (s : Shard) : s.Writes s := ⟨rfl, .refl _⟩

lemma Writes.trans (h : s.Writes t) (h' : t.Writes u) : s.Writes u :=
  ⟨h'.index.trans h.index, h.storage.trans h'.storage⟩

lemma Writes.appends (h : s.Writes t) : s.Appends t := ⟨h.index ▸ List.prefix_rfl, h.storage.synced⟩

lemma onStorage_writes {α : Type} {x : Traced StorageManager α}
    (hx : Within (StorageManager.Appends s.storageManager) x s.storageManager) :
    Within s.Writes (onStorage x) s :=
  .zoom (.refl s) hx fun _ h => ⟨rfl, h⟩

lemma putIndex_writes (e : IndexEntry) (v : Value) (s : Shard) : s.Writes (putIndex e v s) :=
  ⟨rfl, .refl _⟩

lemma bury_writes (k : Key) (e : IndexEntry) (s : Shard) : s.Writes (bury k e s) := by
  refine ⟨?_, .refl _⟩
  simp only [bury, IndexManager.update]
  split
  · rfl
  · split_ifs <;> rfl

lemma set_writes (s : Shard) : Within s.Writes (set key value) s := by
  refine .bind (.get (.refl s)) ?_
  refine .after Writes.trans (onStorage_tracked StorageManager.append_tracked)
    (onStorage_writes (StorageManager.append_appends _)) ?_
  exact .ite (.pure _ (.refl _)) (.bind_pure (.step (.refl _) (putIndex_writes _ _ _)) (.step _) _)

lemma del_writes (s : Shard) : Within s.Writes (del key) s := by
  refine .after Writes.trans (.step _) (.step (.refl s) ⟨rfl, .refl _⟩) (.bind (.get (.refl _)) ?_)
  exact .ite (.bind_pure (.step (.refl _) (bury_writes _ _ _)) (.step _) _) (.pure _ (.refl _))

lemma setByEntries_writes (s : Shard) :
    Within s.Writes (setByEntries valid value entries count) s := by
  induction entries generalizing count s with
  | nil => exact .pure _ (.refl s)
  | cons entry entries ih =>
    refine .ite ?_ (ih s)
    cases valid.claim count with
    | none => exact .pure _ (.refl s)
    | some claimed =>
      refine .bind (.get (.refl s)) ?_
      refine .after Writes.trans (onStorage_tracked StorageManager.append_tracked)
        (onStorage_writes (StorageManager.append_appends _)) (.ite (ih _) ?_)
      exact .after Writes.trans (.step _) (.step (.refl _) (putIndex_writes _ _ _))
        (.bind_pure (ih _) setByEntries_tracked _)

lemma delByEntries_writes (s : Shard) : Within s.Writes (delByEntries valid entries count) s := by
  induction entries generalizing count s with
  | nil => exact .pure _ (.refl s)
  | cons entry entries ih =>
    refine .ite ?_ (ih s)
    cases valid.claim count with
    | none => exact .pure _ (.refl s)
    | some claimed =>
      exact .after Writes.trans (.step _) (.step (.refl s) (bury_writes _ _ _))
        (.bind_pure (ih _) delByEntries_tracked _)

lemma relocate_writes {stay : IndexEntry → Bool} (s : Shard) :
    Within s.Writes (relocate stay entries) s := by
  induction entries generalizing s with
  | nil => exact .pure _ (.refl s)
  | cons entry entries ih =>
    refine .bind (.get (.refl s)) (.ite (.bind_pure (ih s) relocate_tracked _) ?_)
    refine .after Writes.trans (onStorage_tracked StorageManager.append_tracked)
      (onStorage_writes (StorageManager.append_appends _))
      (.ite (.bind_pure (ih _) relocate_tracked _) ?_)
    exact .after Writes.trans (.step _) (.step (.refl _) ⟨rfl, .refl _⟩)
      (.bind_pure (ih _) relocate_tracked _)

lemma flushData_appends (s : Shard) : Within s.Appends (flushData ch) s := by
  refine .after Appends.trans (onStorage_tracked StorageManager.flush_tracked)
    ((onStorage_writes (StorageManager.flush_appends _)).mono fun _ h => h.appends)
    (.step (.refl _) ⟨?_, .refl _⟩)
  change _ <+: (IndexManager.flush _).index.synced
  simp only [IndexManager.flush]
  split_ifs
  · exact List.prefix_append _ _
  · exact List.prefix_rfl

namespace Exclusive

def Plain : Exclusive → Prop
  | .compact _ | .flush _ => False
  | _ => True

lemma run_writes {op : Exclusive} (h : op.Plain) (s : Shard) : Within s.Writes op.run s := by
  cases op with
  | set key value => exact .bind_pure (set_writes s) set_tracked _
  | del key => exact .bind_pure (del_writes s) del_tracked _
  | setBy ch valid value count =>
    exact .bind_pure (.bind (.get (.refl s))
      (.bind_pure (setByEntries_writes s) setByEntries_tracked _)) setBy_tracked _
  | delBy ch valid count =>
    exact .bind_pure (.bind (.get (.refl s))
      (.bind_pure (delByEntries_writes s) delByEntries_tracked _)) delBy_tracked _
  | compact ch => exact h.elim
  | flush ch => exact h.elim
  | reloadSettings settings => exact .step (.refl s) ⟨rfl, .refl _⟩

lemma run_appends {op : Exclusive} (h : ∀ ch, op ≠ .compact ch) (s : Shard) :
    Within s.Appends op.run s := by
  cases op with
  | compact ch => exact absurd rfl (h ch)
  | flush ch => exact flushData_appends s
  | _ =>
    refine .mono (fun _ => Writes.appends) (run_writes ?_ s)
    trivial

end Exclusive

end Shard

end Zest
