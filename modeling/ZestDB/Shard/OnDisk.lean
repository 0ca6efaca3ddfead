import ZestDB.Shard.Appends
import ZestDB.Shard.CompactionCrash

/-! What the flushed parts of INDEX and the segments say of a key, and what each operation of a
shard does to it. -/

namespace Zest.Shard

open Foundations
open Foundations.Traced (Tracked Within)

variable {O O' : Option Value → Prop} {key : Key} {ch : Choice} {s t : Shard}

/-- The map that the flushed parts of INDEX and the segments give. -/
noncomputable def onDisk (s : Shard) : Store := recovered s.synced s.saved.view

lemma view_of_flushed (h : ∃ rs, LogOk s.indexManager rs []) (key : Key) :
    s.saved.view key = s.tree.lookup key := by
  obtain ⟨rs, hlog⟩ := h
  exact congrFun (hlog.flushed_views s.saved_crash.view) key

lemma Logged.flushed (h : s.Logged) (hp : s.indexManager.index.pending = []) :
    ∃ rs, LogOk s.indexManager rs [] := by
  obtain ⟨rs, ts, hlog⟩ := h
  have hlen := indexCodec.length_le_encodeAll ts
  rw [← hlog.log.pending, hp] at hlen
  obtain rfl : ts = [] := List.eq_nil_of_length_eq_zero (Nat.le_zero.mp hlen)
  exact ⟨rs, hlog⟩

/-- Whatever becomes of the bytes that are not flushed, the disk has for the key one of the outcomes
`O`. -/
structure Assured (O : Option Value → Prop) (key : Key) (s : Shard) : Prop where
  absent : s.saved.view key = none → O none
  value : ∀ loc, s.saved.view key = some loc → s.files.InBounds loc ∧ O (some (s.files.slice loc))
  flushed : ∀ loc, s.saved.view key = some loc → s.synced.InBounds loc ∨ O none

namespace Assured

lemma onDisk (h : Assured O key s) : O (s.onDisk key) := by
  cases hv : s.saved.view key with
  | none =>
    rw [Shard.onDisk, recovered, hv]
    exact h.absent hv
  | some loc =>
    rw [Shard.onDisk, recovered, hv, Option.bind_some]
    split_ifs with hin
    · rw [← hin.slice_eq s.storageManager.synced_grows]
      exact (h.value loc hv).2
    · exact (h.flushed loc hv).resolve_left hin

lemma mono (hO : ∀ v, O v → O' v) (h : Assured O key s) : Assured O' key s where
  absent hv := hO _ (h.absent hv)
  value loc hv := ⟨(h.value loc hv).1, hO _ (h.value loc hv).2⟩
  flushed loc hv := (h.flushed loc hv).imp_right (hO _)

lemma writes (h : Assured O key s) (hw : s.Writes t) : Assured O key t := by
  have hview : t.saved.view key = s.saved.view key := by
    change (IndexManager.loadIndexIntoMemory t.indexManager.index.synced).memoryTree.lookup key = _
    rw [hw.index]
    rfl
  refine ⟨fun hv => h.absent (hview ▸ hv), fun loc hv => ?_, fun loc hv => ?_⟩
  · obtain ⟨hin, hO⟩ := h.value loc (hview ▸ hv)
    exact ⟨hin.mono hw.storage.files, (hin.slice_eq hw.storage.files).symm ▸ hO⟩
  · exact (h.flushed loc (hview ▸ hv)).imp_left fun hin => hin.mono hw.storage.synced

lemma of_view (hi : s.Inv) (hv : s.saved.view key = s.tree.lookup key) (hO : O (s.toMap key))
    (hb : ∀ loc, s.tree.lookup key = some loc → s.synced.InBounds loc ∨ O none) :
    Assured O key s := by
  refine ⟨fun hn => ?_, fun loc hl => ?_, fun loc hl => hb loc (hv ▸ hl)⟩
  · rw [toMap, ← hv, hn] at hO
    exact hO
  · rw [hv] at hl
    rw [toMap, hl] at hO
    exact ⟨(hi.entry key loc hl).inBounds, hO⟩

lemma of_settled (hi : s.Inv) (hs : Settled s s) (hO : O (s.toMap key)) : Assured O key s :=
  of_view hi (view_of_flushed hs.index key) hO fun loc hl => Or.inl (hs.bytes key loc hl).1

lemma remove (h : Assured O key s) (hv : s.saved.view key = s.tree.lookup key) {used : List ℕ}
    {sm : StorageManager} (hr : StorageManager.Removing used s.storageManager sm)
    (hu : ∀ k loc, s.tree.lookup k = some loc → loc.segmentId ∈ used) :
    Assured O key { s with storageManager := sm } := by
  refine ⟨h.absent, fun loc hl => ?_, fun loc hl => ?_⟩
  · have hl' : s.tree.lookup key = some loc := hv.symm.trans hl
    have hf : sm.files loc.segmentId = s.files loc.segmentId := hr.files_used (hu key loc hl')
    obtain ⟨hin, hO⟩ := h.value loc hl
    exact ⟨by simpa only [Files.InBounds, files, hf]
      using hin, by simpa only [Files.slice, files, hf] using hO⟩
  · have hl' : s.tree.lookup key = some loc := hv.symm.trans hl
    exact (h.flushed loc hl).imp_left fun hin => (hr.synced (hu key loc hl') hin).1

end Assured

lemma flushData_settled (h : s.Sound) (ch : Choice) :
    Settled (flushData ch s).final (flushData ch s).final :=
  (flushData_flushed h.inv h.logged ch).settled ((flushData_sound h).final flushData_tracked).inv

lemma flushData_assured (h : Assured O key s) (hs : s.Sound) (hO : O (s.toMap key)) :
    Within (Assured O key) (flushData ch) s := by
  have hwrites : Within s.Writes (onStorage (StorageManager.flush ch)) s :=
    onStorage_writes (StorageManager.flush_appends _)
  have hfinal : Assured O key (flushData ch s).final :=
    .of_settled ((flushData_sound hs).final flushData_tracked).inv (flushData_settled hs ch)
    (flushData_toMap s ch ▸ hO)
  refine .bind (hwrites.mono fun _ => h.writes) (.step (h.writes ?_) hfinal)
  exact hwrites.final (onStorage_tracked StorageManager.flush_tracked)

lemma compactIndex_tracked : Tracked (compactIndex ch) :=
  .bind .get fun _ => .bind (.step _) fun _ => .pure _

structure Copied (s f : Shard) (used : List ℕ) : Prop where
  sound : f.Sound
  pending : f.indexManager.index.pending = []
  used : ∀ k loc, f.tree.lookup k = some loc → loc.segmentId ∈ used
  toMap : f.toMap = s.toMap
  bytes : (∀ k loc, s.tree.lookup k = some loc → s.synced.InBounds loc) →
    ∀ k loc, f.tree.lookup k = some loc → f.synced.InBounds loc

lemma Copied.view {f : Shard} {used : List ℕ} (h : Copied s f used) (key : Key) :
    f.saved.view key = f.tree.lookup key :=
  view_of_flushed (h.sound.logged.flushed h.pending) key

def compacted (ch : Choice) (s : Shard) : Shard :=
  { s with indexManager := s.indexManager.compact ch }

lemma compacted_sound (h : s.Sound) (hfew : s.FewKeys) (ch : Choice) : (compacted ch s).Sound :=
  h.path (.single (.compactIndex (A := fun _ _ => False) (B := fun _ => False) ch hfew))
    fun _ _ hf => hf.elim

def copies (ch : Choice) (s : Shard) : Outcome Shard (List IndexEntry × Bool) :=
  relocate (stays s.settings.SegSize s.storageManager.latestSegmentId (s.indexManager.getAll ch))
    (s.indexManager.getAll ch) (compacted ch s)

lemma copies_spec (h : s.Sound) (hfew : s.FewKeys) (hw : Within Bounded (compactorPass ch) s) :
    Relocated (compacted ch s) (s.indexManager.getAll ch) (copies ch s) := by
  refine relocate_spec (compacted_sound h hfew ch).inv
    ((listed_getAll s ch).of_tree fun _ _ => rfl) ?_
  exact ((hw.bind_right compactIndex_tracked).bind_right .get).bind_left

lemma copies_sound (h : s.Sound) (hfew : s.FewKeys) (hw : Within Bounded (compactorPass ch) s) :
    (copies ch s).final.Sound :=
  (compacted_sound h hfew ch).path (copies_spec h hfew hw).runs.final fun _ _ hf => hf.elim

lemma copies_toMap (h : s.Sound) (hfew : s.FewKeys) (hw : Within Bounded (compactorPass ch) s) :
    (copies ch s).final.toMap = s.toMap :=
  (copies_spec h hfew hw).runs.final.toMap_eq (compacted_sound h hfew ch).inv

lemma copied (h : s.Sound) (hfew : s.FewKeys) (hw : Within Bounded (compactorPass ch) s) :
    Copied s (flushMoved ch (copies ch s).val.2 (copies ch s).final).final
    ((copies ch s).val.1.map IndexEntry.segmentId) := by
  have hspec := copies_spec h hfew hw
  have hsound := copies_sound h hfew hw
  have hruns : Runs (fun _ _ => False) (fun _ => False) _
      (flushMoved ch (copies ch s).val.2 (copies ch s).final) :=
    flushMoved_runs _
  refine ⟨hsound.path hruns.final fun _ _ hf => hf.elim, hspec.pending rfl,
    fun k loc hk => hspec.used (fun k loc hk => mem_getAll_keys hfew ch hk) hk,
    (hruns.final.toMap_eq hsound.inv).trans (copies_toMap h hfew hw), fun hb k loc hk => ?_⟩
  cases hm : (copies ch s).val.2 with
  | true =>
    rw [hm] at hk
    exact ((flushData_settled hsound ch).bytes k loc hk).1
  | false =>
    rw [hm] at hk
    have htree : (copies ch s).final.tree = (compacted ch s).tree :=
      congrArg IndexManager.memoryTree (hspec.unmoved hm)
    have hwrites : (compacted ch s).Writes (copies ch s).final :=
      (relocate_writes _).final relocate_tracked
    refine (hb k loc ?_).mono hwrites.storage.synced
    change (copies ch s).final.tree.lookup k = some loc at hk
    rw [htree] at hk
    exact hk

lemma compactorPass_assured (h : Assured O key s)
    (hs : s.Sound) (hfew : s.FewKeys) (hO : O (s.toMap key))
    (hb : ∀ loc, s.tree.lookup key = some loc → s.synced.InBounds loc ∨ O none)
    (hw : Within Bounded (compactorPass ch) s) : Within (Assured O key) (compactorPass ch) s := by
  have hc : Assured O key (compacted ch s) := by
    obtain ⟨rs, ts, hlog⟩ := hs.logged
    exact .of_view (compacted_sound hs hfew ch).inv (view_of_flushed ⟨_,
      hlog.compact hfew ch⟩ key) hO hb
  have hcopies : Within (compacted ch s).Writes
      (relocate
        (stays s.settings.SegSize s.storageManager.latestSegmentId (s.indexManager.getAll ch))
        (s.indexManager.getAll ch)) (compacted ch s) := relocate_writes _
  have hfinal : Assured O key (copies ch s).final := hc.writes (hcopies.final relocate_tracked)
  have hmoved : Within (Assured O key) (flushMoved ch (copies ch s).val.2) (copies ch s).final := by
    cases (copies ch s).val.2 with
    | true =>
      exact flushData_assured hfinal (copies_sound hs hfew hw) (copies_toMap hs hfew hw ▸ hO)
    | false => exact .pure _ hfinal
  have hcopied := copied hs hfew hw
  have hend := hmoved.final (.ite flushData_tracked (.pure _))
  refine .bind (.bind (.get h) (.bind (.step h hc) (.pure _ hc))) (.bind (.get hc)
    (.bind (hcopies.mono fun _ => hc.writes) (.bind hmoved ?_)))
  intro u hu
  rcases List.mem_cons.mp hu with rfl | hu
  · exact hend
  · obtain ⟨sm, hsm, rfl⟩ := List.mem_map.mp hu
    obtain ⟨-, -, hremoving⟩ := StorageManager.removeUnusedSegments_removing ch
      ((copies ch s).val.1.map IndexEntry.segmentId)
      (flushMoved ch (copies ch s).val.2 (copies ch s).final).final.storageManager
    exact hend.remove (hcopied.view key) (hremoving sm hsm) hcopied.used

lemma compactorPass_settled (hs : s.Sound) (hfew : s.FewKeys)
    (hb : ∀ k loc, s.tree.lookup k = some loc → s.synced.InBounds loc)
    (hw : Within Bounded (compactorPass ch) s) :
    Settled (compactorPass ch s).final (compactorPass ch s).final := by
  have hcopied := copied hs hfew hw
  obtain ⟨f, hf⟩ : ∃ f, f = (flushMoved ch (copies ch s).val.2 (copies ch s).final).final :=
    ⟨_, rfl⟩
  rw [← hf] at hcopied
  obtain ⟨-, hr, -⟩ := StorageManager.removeUnusedSegments_removing ch
    ((copies ch s).val.1.map IndexEntry.segmentId) f.storageManager
  have hsettled : Settled f f := by
    refine ⟨hcopied.sound.logged.flushed hcopied.pending, rfl, fun k loc hk => ?_⟩
    have hin := hcopied.bytes hb k loc hk
    exact ⟨hin, (hin.slice_eq f.storageManager.synced_grows).symm⟩
  have hrest := hsettled.remove hr hcopied.used
  have hpass : (compactorPass ch s).final = { f with storageManager :=
      (StorageManager.removeUnusedSegments ch
        ((copies ch s).val.1.map IndexEntry.segmentId) f.storageManager).final } := by
    rw [hf]
    rfl
  rw [hpass]
  refine ⟨hrest.index, rfl, fun k loc hk => ?_⟩
  obtain ⟨hin, -⟩ := hrest.bytes k loc hk
  exact ⟨hin, (hin.slice_eq (StorageManager.synced_grows _)).symm⟩

/-- The condition under which an operation may begin: a pass of the compactor would put the entry of
the key into INDEX before its bytes, and would leave entries out of INDEX when there are too
many. -/
def Exclusive.Safe (O : Option Value → Prop) (key : Key) (s : Shard) : Exclusive → Prop
  | .compact _ => s.FewKeys ∧ ∀ loc, s.tree.lookup key = some loc → s.synced.InBounds loc ∨ O none
  | _ => True

lemma Exclusive.run_assured {op : Exclusive} (h : Assured O key s) (hs : s.Sound)
    (hO : O (s.toMap key))
    (hsafe : op.Safe O key s) (hw : Within Bounded op.run s) : Within (Assured O key) op.run s := by
  cases op with
  | compact ch => exact compactorPass_assured h hs hsafe.1 hO hsafe.2 hw
  | flush ch => exact flushData_assured h hs hO
  | _ =>
    refine .mono (fun _ => h.writes) (run_writes ?_ s)
    trivial

end Zest.Shard
