import ZestDB.Shard.Durable
import ZestDB.Shard.Readers

/-! Where the bytes of an answer come from, over any number of crashes: an index record can point to
bytes that another key was given when a boot buries it and the tombstone is lost. -/

namespace Zest.Shard

open Foundations

variable {A : Key → Value → Prop} {B : Key → Prop} {s t u : Shard} {disk : Disk}
variable {given given' : Set (Key × Value)} {lost : Set (Key × Location)}

/-- Every value of the map was given to its key, and so was every one that a crash could bring back,
except for the records that are `lost`. -/
structure Own (given : Set (Key × Value)) (lost : Set (Key × Location)) (s : Shard) : Prop where
  sound : s.Sound
  map : ∀ k v, s.toMap k = some v → (k, v) ∈ given
  views : ∀ f, s.Views f → ∀ k loc, f k = some loc →
    (k, loc) ∈ lost ∨ (s.files.InBounds loc ∧ (k, s.files.slice loc) ∈ given)

lemma Own.indexed (h : Own given lost s) {k : Key} {loc : Location}
    (hk : s.tree.lookup k = some loc) :
    s.files.InBounds loc ∧ (k, s.files.slice loc) ∈ given :=
  ⟨(h.sound.inv.entry k loc hk).inBounds, h.map k _ (by rw [toMap, hk, Option.map_some])⟩

lemma Own.of_subset (h : Own given lost s) (hsub : given ⊆ given') : Own given' lost s :=
  ⟨h.sound, fun k v hv => hsub (h.map k v hv), fun f hf k loc hk =>
    (h.views f hf k loc hk).imp_right fun hin => ⟨hin.1, hsub hin.2⟩⟩

lemma Own.found (h : Own given lost s) : Own given {p ∈ lost | s.tree.lookup p.1 ≠ some p.2} s := by
  refine ⟨h.sound, h.map, fun f hf k loc hk => ?_⟩
  by_cases hagain : s.tree.lookup k = some loc
  · exact Or.inr (h.indexed hagain)
  · exact (h.views f hf k loc hk).imp_left fun hlost => ⟨hlost, hagain⟩

lemma Own.move (h : Own given lost s) (hm : Move A B s t)
    (hk : ∀ k v, A k v → k.length ≤ MAX_KEY_SIZE)
    (hmap : ∀ k v, t.toMap k = some v → (k, v) ∈ given) : Own given lost t := by
  have hsound : t.Sound := h.sound.path (.single hm) hk
  have htree : ∀ k loc, t.tree.lookup k = some loc → t.files.InBounds loc ∧
      (k, t.files.slice loc) ∈ given :=
    fun k loc hl => ⟨(hsound.inv.entry k loc hl).inBounds,
      hmap k _ (by rw [toMap, hl, Option.map_some])⟩
  refine ⟨hsound, hmap, fun f hf k loc hl => ?_⟩
  rcases (hm.views hk h.sound.logged).2 f hf with hold | rfl
  · rcases hm.grows_or h.sound.logged with hg | hnow
    · refine (h.views f hold k loc hl).imp_right fun hin => ⟨hin.1.mono hg, ?_⟩
      rw [hin.1.slice_eq hg]
      exact hin.2
    · rw [hnow f hf] at hl
      exact Or.inr (htree k loc hl)
  · exact Or.inr (htree k loc hl)

lemma Own.path (h : Own given lost s) (hp : Path A B s t)
    (hk : ∀ k v, A k v → k.length ≤ MAX_KEY_SIZE)
    (hone : ∀ k v v', A k v → A k v' → v = v') (hkept : ∀ k v, A k v → ¬ B k) :
    Own (given ∪ {p | A p.1 p.2 ∧ t.toMap p.1 = some p.2}) lost t := by
  induction hp with
  | refl => exact h.of_subset Set.subset_union_left
  | @tail b c hp hm ih =>
    have hcases := (hm.inv ih.sound.inv).2
    have hsub : given ∪ {p | A p.1 p.2 ∧ b.toMap p.1 = some p.2} ⊆
        given ∪ {p | A p.1 p.2 ∧ c.toMap p.1 = some p.2} := by
      rintro ⟨k, v⟩ (hg | ⟨hA, hv⟩)
      · exact Or.inl hg
      · refine Or.inr ⟨hA, ?_⟩
        rcases hcases with he | ⟨j, w, hA', he⟩ | ⟨j, hB, he⟩
        · rw [he]
          exact hv
        · rw [he, Function.update_apply]
          split_ifs with hj
          · rw [hone j w v hA' (hj ▸ hA)]
          · exact hv
        · have hne : k ≠ j := fun hkj => hkept k v hA (hkj ▸ hB)
          rw [he, Function.update_of_ne hne]
          exact hv
    refine (ih.of_subset hsub).move hm hk fun k v hv => ?_
    rcases hcases with he | ⟨j, w, hA, he⟩ | ⟨j, -, he⟩
    · rw [he] at hv
      exact hsub (ih.map k v hv)
    · by_cases hj : k = j
      · subst hj
        rw [he, Function.update_self] at hv
        obtain rfl := Option.some.inj hv
        refine Or.inr ⟨hA, ?_⟩
        rw [he, Function.update_self]
      · rw [he, Function.update_of_ne hj] at hv
        exact hsub (ih.map k v hv)
    · by_cases hj : k = j
      · rw [he, hj, Function.update_self] at hv
        cases hv
      · rw [he, Function.update_of_ne hj] at hv
        exact hsub (ih.map k v hv)

namespace Exclusive

def asks : Exclusive → Set (Key × Value)
  | .set key value => {(key, value)}
  | .setBy _ valid value _ => {p | valid.func p.1 = true ∧ p.2 = value}
  | _ => ∅

lemma run_runs (h : s.Sound) {op : Exclusive} (hop : op.Checked)
    (hl : op.Lists s) (hw : Traced.Within Bounded op.run s) :
    (∃ settings, op = .reloadSettings settings) ∨
    Runs (fun k v => (k, v) ∈ op.asks ∧ k.length ≤ MAX_KEY_SIZE) (fun k => ∀ v, (k, v) ∉ op.asks) s
      (op.run s) := by
  cases op with
  | set key value =>
    have hruns := (set_runs h.inv hop.2 hw.bind_left).bind (f := fun _ => pure ()) (.pure ())
    refine Or.inr (hruns.mono (fun k v hA => ?_) fun _ hB => hB.elim)
    rw [hA.1, hA.2]
    exact ⟨rfl, hop.1⟩
  | del key =>
    have hruns := (del_spec h.inv key).2.2.bind (f := fun _ => pure ()) (.pure ())
    exact Or.inr (hruns.mono (fun _ _ hA => hA.elim) fun _ _ _ => Set.notMem_empty _)
  | setBy ch valid value count =>
    have hruns := (setBy_runs h.inv hop hw.bind_left).bind (f := fun _ => pure ()) (.pure ())
    exact Or.inr (hruns.mono (fun k v hA => ⟨⟨hA.1.1, hA.2⟩, h.key_le hA.1.2⟩) fun _ hB => hB.elim)
  | delBy ch valid count =>
    have hruns := (delBy_spec ch valid count h.inv).1.bind (f := fun _ => pure ()) (.pure ())
    exact Or.inr (hruns.mono (fun _ _ hA => hA.elim) fun _ _ _ => Set.notMem_empty _)
  | compact ch => exact Or.inr ((compactorPass_runs h.inv hl hw).mono (fun _ _ hA => hA.elim)
      fun _ hB => hB.elim)
  | flush ch => exact Or.inr (flushData_runs s ch)
  | reloadSettings settings => exact Or.inl ⟨settings, rfl⟩

lemma asks_unique {op : Exclusive} {k : Key} {v v' : Value} (hv : (k, v) ∈ op.asks)
    (hv' : (k, v') ∈ op.asks) : v = v' := by
  cases op with
  | set key value => exact (Prod.mk.inj hv).2.trans (Prod.mk.inj hv').2.symm
  | setBy ch valid value count => exact hv.2.trans hv'.2.symm
  | _ => exact absurd hv (Set.notMem_empty _)

end Exclusive

lemma Own.reloadSettings (h : Own given lost s) (settings : Settings) :
    Own given lost (reloadSettings settings s) := by
  refine ⟨h.sound.reloadSettings settings, fun k v hv => h.map k v ?_, h.views⟩
  rwa [(reloadSettings_spec h.sound.inv settings).2] at hv

lemma Runs.path {α : Type} {o : Outcome Shard α} (h : Runs A B s o) (hu : u ∈ s :: o.visited) :
    Path A B s u := by
  rcases List.mem_cons.mp hu with rfl | hu
  · exact .refl
  · exact h.visited u hu

lemma Own.exclusive (h : Own given lost s) {op : Exclusive} (hop : op.Checked) (hl : op.Lists s)
    (hw : Traced.Within Bounded op.run s) (hu : u ∈ s :: (op.run s).visited) :
    Own (given ∪ {p ∈ op.asks | u.toMap p.1 = some p.2}) lost u := by
  rcases Exclusive.run_runs h.sound hop hl hw with ⟨settings, rfl⟩ | hruns
  · refine Own.of_subset ?_ Set.subset_union_left
    rcases List.mem_cons.mp hu with rfl | hu
    · exact h
    · obtain rfl := List.mem_singleton.mp hu
      exact h.reloadSettings settings
  · have hown := h.path (hruns.path hu) (fun k v hA => hA.2)
      (fun k v v' hA hA' => Exclusive.asks_unique hA.1 hA'.1)
      fun k v hA hB => hB v hA.1
    exact hown.of_subset (Set.union_subset_union_right _ fun p hp => ⟨hp.1.1, hp.2⟩)

lemma Crash.insert (hc : s.Crash disk) {id : ℕ} {seg : DataSegment}
    (hs : s.storageManager.segments.lookup id = some seg)
    {file : Bytes} (hf : seg.file.Survives file) :
    s.Crash { disk with segs := disk.segs.insert id file } := by
  refine ⟨hc.index, fun i seg' hs' => ?_, fun i hi => ?_, hc.wal⟩
  · by_cases hid : i = id
    · subst hid
      obtain rfl := Option.some.inj (hs.symm.trans hs')
      exact ⟨file, AList.lookup_insert _, hf⟩
    · rw [AList.lookup_insert_ne hid]
      exact hc.segment i seg' hs'
  · have hid : i ≠ id := fun h => by
      rw [h, hs] at hi
      cases hi
    rw [AList.lookup_insert_ne hid]
    exact hc.absent i hi

/-- What is left on disk by a crash, and by further crashes while the shard boots. With `few`, each
compaction of the constructor lists every key. -/
inductive Left (few : Prop) : Shard → Disk → Prop
  | crash {s : Shard} {disk : Disk} : s.Crash disk → (few → disk.FewKeys) → Left few s disk
  | again {s u : Shard} {disk disk' : Disk} (settings : Settings) (ch fill : Choice) :
      Left few s disk →
      u ∈ openDisk settings disk :: (boot ch fill (openDisk settings disk)).visited →
        u.Crash disk' → (few → disk'.FewKeys) → Left few s disk'

/-- The records on disk are ones that a crash could leave, and the bytes are those of the shard. -/
structure Remains (s : Shard) (disk : Disk) : Prop where
  ok : disk.Ok
  view : ∃ f, s.Views f ∧ ∀ k loc, disk.view k = some loc → f k = some loc
  bytes : ∀ loc, LocationOk loc → disk.files.InBounds loc →
    s.files.InBounds loc ∧ s.files.slice loc = disk.files.slice loc

lemma Remains.again (hr : Remains s disk) (hl : u.Logged)
    (hviews : ∀ g, u.Views g → ∀ k, g k = disk.view k ∨
      (g k = none ∧ Dangling disk.files disk.view k)) (hgrows : disk.files.Grows u.files)
    (hbounds : ∀ loc, LocationOk loc → (u.files.InBounds loc ↔ disk.files.InBounds loc))
    {disk' : Disk} (hc : u.Crash disk') (hfew : disk'.FewKeys) : Remains s disk' := by
  obtain ⟨f, hf, hsub⟩ := hr.view
  refine ⟨hc.disk_ok hl hfew, ⟨f, hf, fun k loc hk => hsub k loc ?_⟩, fun loc hloc hin => ?_⟩
  · rcases hviews _ hc.view k with he | ⟨hn, -⟩
    · exact he.symm.trans hk
    · rw [hn] at hk
      cases hk
  · have hin' := (hbounds loc hloc).mp (hin.mono hc.grows)
    obtain ⟨hs, he⟩ := hr.bytes loc hloc hin'
    refine ⟨hs, he.trans ?_⟩
    rw [← hin'.slice_eq hgrows, hin.slice_eq hc.grows]

lemma Left.remains (h : Left True s disk) (hl : s.Logged) : Remains s disk := by
  induction h with
  | crash hc hfew =>
    exact ⟨hc.disk_ok hl (hfew trivial), ⟨_, hc.view, fun _ _ hk => hk⟩,
      fun loc _ hin => ⟨hin.mono hc.grows, hin.slice_eq hc.grows⟩⟩
  | again settings ch fill _ hu hc hfew ih =>
    obtain ⟨-, hvisited⟩ := boot_spec settings ih.ok ch fill
    rcases List.mem_cons.mp hu with rfl | hu
    · have hb : Booting settings _ (openDisk settings _) := openDisk_booting ih.ok
      exact ih.again hb.logged hb.views hb.grows hb.inBounds hc (hfew trivial)
    · rcases hvisited _ hu with hb | hre
      · exact ih.again hb.logged hb.views hb.grows hb.inBounds hc (hfew trivial)
      · refine ih.again hre.logged hre.views hre.grows (fun loc hloc => ?_) hc (hfew trivial)
        rw [files, hre.storage]
        exact StorageManager.booted_inBounds hloc.pos

lemma Own.reopen (h : Own given lost s) (hr : Remains s disk)
    (hout : ∀ k loc, (k, loc) ∈ lost → disk.view k = some loc → ¬ disk.files.InBounds loc)
    (settings : Settings) (ch fill : Choice) :
    Own given {p | disk.view p.1 = some p.2 ∧ ¬ disk.files.InBounds p.2}
    (reopen settings ch fill disk) := by
  obtain ⟨hre, -⟩ := boot_spec settings hr.ok ch fill
  obtain ⟨rs, hlog⟩ := hr.ok.log
  obtain ⟨f, hf, hsub⟩ := hr.view
  have hgiven : ∀ k loc, disk.view k = some loc → disk.files.InBounds loc →
      (k, disk.files.slice loc) ∈ given := by
    intro k loc hk hin
    rcases h.views f hf k loc (hsub k loc hk) with hlost | ⟨-, hg⟩
    · exact absurd hin (hout k loc hlost hk)
    · have hloc : LocationOk loc :=
        hlog.location_of_lookup (s := { s with indexManager := .loadIndexIntoMemory disk.index }) hk
      rwa [← (hr.bytes loc hloc hin).2]
  refine ⟨reopen_sound settings ch fill hr.ok, fun k v hv => ?_, fun g hg k loc hk => ?_⟩
  · rw [hre.toMap, recovered] at hv
    obtain ⟨loc, hk, hloc⟩ := Option.bind_eq_some_iff.mp hv
    split_ifs at hloc with hin
    rw [← Option.some.inj hloc]
    exact hgiven k loc hk hin
  · have hview : disk.view k = some loc := by
      rcases hre.views g hg k with he | ⟨hn, -⟩
      · exact he.symm.trans hk
      · rw [hn] at hk
        cases hk
    by_cases hin : disk.files.InBounds loc
    · refine Or.inr ⟨hin.mono hre.grows, ?_⟩
      rw [hin.slice_eq hre.grows]
      exact hgiven k loc hview hin
    · exact Or.inl ⟨hview, hin⟩

/-- A shard, the pairs that a `set` or `setBy` has given it, and the records that its boot found out
of bounds and that nothing has stored since. -/
structure Site where
  shard : Shard
  given : Set (Key × Value) := ∅
  lost : Set (Key × Location) := ∅

namespace Site

def during (w : Site) (op : Exclusive) (u : Shard) : Site where
  shard := u
  given := w.given ∪ {p ∈ op.asks | u.toMap p.1 = some p.2}
  lost := {p ∈ w.lost | u.tree.lookup p.1 ≠ some p.2}

def rebooted (w : Site) (settings : Settings) (ch fill : Choice) (disk : Disk) : Site where
  shard := reopen settings ch fill disk
  given := w.given
  lost := {p | disk.view p.1 = some p.2 ∧ ¬ disk.files.InBounds p.2}

def StaysLost (w : Site) (disk : Disk) : Prop :=
  ∀ k loc, (k, loc) ∈ w.lost → disk.view k = some loc → ¬ disk.files.InBounds loc

/-- Operations one after the other, and crashes at any moment of one; `C` is asked of what a crash
leaves to the boot that comes through, and with `few` each compaction lists every key. -/
inductive Step (few : Prop) (C : Site → Disk → Prop) : Site → Site → Prop
  | get (w : Site) (key : Key) : Step few C w { w with shard := (w.shard.get key).2 }
  | exclusive (w : Site) (op : Exclusive) : op.Checked → (few → op.Lists w.shard) →
      Traced.Within Bounded op.run w.shard → Step few C w (w.during op (op.run w.shard).final)
  | crash (w : Site) (op : Exclusive) (u : Shard) (disk : Disk) (settings : Settings)
      (ch fill : Choice) :
      op.Checked → (few → op.Lists w.shard) → Traced.Within Bounded op.run w.shard →
      u ∈ w.shard :: (op.run w.shard).visited → Left few u disk → C (w.during op u) disk →
      Step few C w ((w.during op u).rebooted settings ch fill disk)

def new (settings : Settings) (ch fill : Choice) : Site := ⟨reopen settings ch fill .empty, ∅, ∅⟩

def Owned (w : Site) : Prop := Own w.given w.lost w.shard

lemma Owned.during {w : Site} (h : w.Owned) {op : Exclusive} (hop : op.Checked)
    (hl : op.Lists w.shard)
    (hw : Traced.Within Bounded op.run w.shard) (hu : u ∈ w.shard :: (op.run w.shard).visited) :
    (w.during op u).Owned :=
  (Own.exclusive h hop hl hw hu).found

lemma Owned.step {w w' : Site} (h : w.Owned) (hs : Step True StaysLost w w') : w'.Owned := by
  cases hs with
  | get key =>
    obtain ⟨-, hpath⟩ := get_spec (A := fun _ _ => False) (B := fun _ => False) h.sound.inv key
    exact (Own.path h hpath (fun _ _ hA => hA.elim) (fun _ _ _ hA => hA.elim) fun _ _ hA =>
      hA.elim).of_subset (by simp)
  | exclusive op hop hl hw => exact h.during hop (hl trivial) hw (op.run_tracked w.shard)
  | crash op u disk settings ch fill hop hl hw hu hleft hC =>
    have hd := h.during hop (hl trivial) hw hu
    exact Own.reopen hd (hleft.remains hd.sound.logged) hC settings ch fill

lemma new_owned (settings : Settings) (ch fill : Choice) : (new settings ch fill).Owned := by
  obtain ⟨hre, -⟩ := boot_spec settings empty_ok ch fill
  have hnone : ∀ k, Disk.empty.view k = none := fun _ => rfl
  refine ⟨reopen_sound settings ch fill empty_ok, fun k v hv => ?_, fun g hg k loc hk => ?_⟩
  · have hm : (new settings ch fill).shard.toMap k = none :=
      congrFun (reopen_empty settings ch fill).2.1 k
    rw [hm] at hv
    cases hv
  · rcases hre.views g hg k with he | ⟨hn, -⟩
    · rw [hnone] at he
      rw [he] at hk
      cases hk
    · rw [hn] at hk
      cases hk

/-- `get` answers with a value that its key was given, as long as no boot finds a record in bounds
that the one before it had found out of bounds, and each compaction lists every key. -/
theorem run_own (settings : Settings) (ch fill : Choice) {w : Site}
    (hrun : Relation.ReflTransGen (Step True StaysLost) (new settings ch fill) w) (key : Key)
    (hget : (w.shard.get key).1.code = .Success) :
    (key, (w.shard.get key).1.response) ∈ w.given := by
  have hown : w.Owned := by
    clear hget
    induction hrun with
    | refl => exact new_owned settings ch fill
    | tail _ hs ih => exact ih.step hs
  obtain ⟨hval, -⟩ := get_spec (A := fun _ _ => False) (B := fun _ => False) hown.sound.inv key
  rw [hval, getResult] at hget ⊢
  cases hm : w.shard.toMap key with
  | none =>
    rw [hm] at hget
    cases hget
  | some v => exact hown.map key v hm

/-- The shard when it crashes with its first entry in INDEX and no byte of the value on disk. -/
def hollow : Shard := (set (ascii "a") (ascii "x") (reopen {} .plain .plain .empty)).final

def hollowDisk : Disk := hollow.barest hollow.indexManager.index.content

def buried : Site := ((new {} .plain .plain).during (.set (ascii "a") (ascii "x")) hollow).rebooted
  {} .plain .plain hollowDisk

def stored (key : Key) (value : Value) : Shard := (set key value buried.shard).final

/-- The tombstone of the boot is not on disk, and the value stored since is. -/
def storedDisk (key : Key) (value : Value) : Disk :=
  { (stored key value).saved with segs := (stored key value).saved.segs.insert 1 value }

def dugUp (key : Key) (value : Value) : Site :=
  (buried.during (.set key value) (stored key value)).rebooted {} .plain .plain
  (storedDisk key value)

lemma buried_step {few : Prop} {C : Site → Disk → Prop}
    (hC : C ((new {} .plain .plain).during (.set (ascii "a") (ascii "x")) hollow) hollowDisk) :
    Step few C (new {} .plain .plain) buried := by
  have hwithin : Traced.Within Bounded (Exclusive.set (ascii "a") (ascii "x")).run
      (new {} .plain .plain).shard := by
    decide +kernel
  exact .crash _ _ _ _ _ _ _ ⟨by decide, by decide, by decide⟩ (fun _ => trivial) hwithin
    (Exclusive.run_tracked _ _)
    (.crash (barest_crash hollow.indexManager.index.survives_content) fun _ => by decide +kernel) hC

lemma dugUp_step {few : Prop} {C : Site → Disk → Prop} {key : Key} {value : Value}
    (hop : (Exclusive.set key value).Checked)
    (hwithin : Traced.Within Bounded (Exclusive.set key value).run buried.shard)
    (hbytes : (stored key value).files 1 = some value) (hfew : (storedDisk key value).FewKeys)
    (hC : C (buried.during (.set key value) (stored key value)) (storedDisk key value)) :
    Step few C buried (dugUp key value) := by
  obtain ⟨seg, hs, hcontent⟩ := Option.map_eq_some_iff.mp hbytes
  have hcrash : (stored key value).Crash (storedDisk key value) := by
    refine (stored key value).saved_crash.insert hs ?_
    rw [← hcontent]
    exact seg.file.survives_content
  exact .crash _ _ _ _ _ _ _ hop (fun _ => trivial) hwithin (Exclusive.run_tracked _ _)
    (.crash hcrash fun _ => hfew) hC

lemma hollow_view {k : Key} {loc : Location} (h : hollowDisk.view k = some loc) :
    k = ascii "a" ∧ loc = ⟨0, 1, 1⟩ := by
  have hentries : (IndexManager.loadIndexIntoMemory hollowDisk.index).memoryTree.entries =
      [⟨ascii "a", ⟨0, 1, 1⟩⟩] := by
    decide +kernel
  have hmem := AList.mem_lookup_iff.mp h
  rw [hentries, List.mem_singleton] at hmem
  cases hmem
  exact ⟨rfl, rfl⟩

/-- The key that was buried is stored again, and at the same place. -/
theorem dugUp_own : (ascii "a",
    ((dugUp (ascii "a") (ascii "y")).shard.get (ascii "a")).1.response) ∈
    (dugUp (ascii "a") (ascii "y")).given := by
  have hagain : (stored (ascii "a") (ascii "y")).tree.lookup (ascii "a") = some ⟨0, 1, 1⟩ := by
    decide +kernel
  refine run_own {} .plain .plain
    (.tail (.single (buried_step ?_)) (dugUp_step ⟨by decide, by decide, by decide⟩
    (by decide +kernel) (by decide +kernel) (by decide +kernel) ?_)) (ascii "a") (by decide +kernel)
  · rintro k loc ⟨hlost, -⟩
    exact hlost.elim
  · rintro k loc ⟨⟨hview, -⟩, hne⟩
    obtain ⟨rfl, rfl⟩ := hollow_view hview
    exact absurd hagain hne

/-- The second crash takes the tombstone of `a`, and its entry points to the byte stored for `b`. -/
theorem dugUp_not_own :
    ¬ ∀ settings ch fill w, Relation.ReflTransGen (Step False fun _ _ => True)
    (new settings ch fill) w → ∀ key, (w.shard.get key).1.code = .Success →
        (key, (w.shard.get key).1.response) ∈ w.given := by
  intro h
  have hown := h {} .plain .plain (dugUp (ascii "b") (ascii "y"))
    (.tail (.single (buried_step trivial))
    (dugUp_step ⟨by decide, by decide, by decide⟩ (by decide +kernel) (by decide +kernel)
      (by decide +kernel) trivial)) (ascii "a") (by decide +kernel)
  have hresponse : ((dugUp (ascii "b") (ascii "y")).shard.get (ascii "a")).1.response =
      ascii "y" := by decide +kernel
  rw [hresponse] at hown
  rcases hown with (hnew | ⟨hasked, -⟩) | ⟨hasked, -⟩
  · exact hnew
  · exact absurd (Prod.mk.inj hasked).2 (by decide)
  · exact absurd (Prod.mk.inj hasked).1 (by decide)

end Site

end Zest.Shard
