import ZestDB.Bytes
import ZestDB.Foundations.Largest
import Mathlib.Data.List.Count

/-! The archives that `createArchive` leaves in `ArchiveStoragePath`, when it is called by the save
thread and by any number of commands at once. -/

namespace Zest

open Foundations

def isArchive (name : Bytes) : Bool := (ascii "zestdb_archive_").isPrefixOf name &&
  (ascii ".zip").isSuffixOf name

def archivesOf (files : List Bytes) : List Bytes := files.filter isArchive

def outdated (retention : ℕ) (archives : List Bytes) : List Bytes :=
  if 0 < retention then least (archives.length - retention) archives else []

/-- Where a call of `createArchive` is: not past the exchange of `archiving`, before the end of the
zip file, or at the removal of old archives; `complete` says that every removal so far succeeded. -/
inductive ArchiveCall where
  | outside
  | writing (retention : ℕ)
  | pruning (retention : ℕ) (archives doomed : List Bytes) (complete : Bool)
deriving DecidableEq, Repr

structure ArchiveFolder where
  archiving : Bool := false
  calls : List ArchiveCall
  files : List Bytes
  seen : List Bytes
deriving DecidableEq, Repr

namespace ArchiveFolder

def withCall (s : ArchiveFolder) (before after : List ArchiveCall) (call : ArchiveCall) :
    ArchiveFolder :=
  { s with calls := before ++ call :: after }

def leave (s : ArchiveFolder) (before after : List ArchiveCall) : ArchiveFolder :=
  { s with calls := before ++ .outside :: after, archiving := false }

def addFile (s : ArchiveFolder) (name : Bytes) : ArchiveFolder :=
  { s with files := s.files.insert name, seen := s.seen.insert name }

/-- One step of one call, where every retention in force is at least `N`, or zero. -/
inductive Step (N : ℕ) (s : ArchiveFolder) : ArchiveFolder → Prop
  | refused {before after : List ArchiveCall} : s.calls = before ++ .outside :: after →
      s.archiving = true → Step N s s
  | entered {before after : List ArchiveCall} (retention : ℕ) :
      s.calls = before ++ .outside :: after → s.archiving = false → retention = 0 ∨ N ≤ retention →
      Step N s { s.withCall before after (.writing retention) with archiving := true }
  | failed {before after : List ArchiveCall} {retention : ℕ} :
      s.calls = before ++ .writing retention :: after →
      Step N s (s.leave before after)
  -- a file could not be added, or the folder could not be listed; the zip file is closed all the
  -- same
  | broken {before after : List ArchiveCall} {retention : ℕ} (name : Bytes) :
      isArchive name = true → s.calls = before ++ .writing retention :: after →
        Step N s ((s.addFile name).leave before after)
  | zipped {before after : List ArchiveCall} {retention : ℕ} (name : Bytes) :
      isArchive name = true → s.calls = before ++ .writing retention :: after →
      Step N s ((s.addFile name).withCall before after
        (.pruning retention (archivesOf (s.addFile name).files)
          (outdated retention (archivesOf (s.addFile name).files)) true))
  | pruned {before after : List ArchiveCall} {retention : ℕ} {archives doomed : List Bytes}
      {x : Bytes} {complete : Bool}
      (removed : Bool) : s.calls = before ++ .pruning retention archives
      (x :: doomed) complete :: after → Step N s
      { s.withCall before after (.pruning retention archives doomed (complete && removed)) with
        files := if removed then s.files.erase x else s.files }
  | left {before after : List ArchiveCall} {retention : ℕ} {archives : List Bytes}
      {complete : Bool} :
      s.calls = before ++ .pruning retention archives [] complete :: after →
        Step N s (s.leave before after)
  | others (files : List Bytes) : files.Nodup → archivesOf files = archivesOf s.files →
      Step N s { s with files := files }

inductive Reaches (N callers : ℕ) (files : List Bytes) : ArchiveFolder → Prop
  | start : Reaches N callers files ⟨false, List.replicate callers .outside, files,
      archivesOf files⟩
  | step {s s' : ArchiveFolder} : Reaches N callers files s → Step N s s' →
      Reaches N callers files s'

def Sound (N : ℕ) (files seen : List Bytes) : ArchiveCall → Prop
  | .outside => True
  | .writing retention => retention = 0 ∨ N ≤ retention
  | .pruning retention archives doomed complete =>
    archives.Nodup ∧ doomed.Nodup ∧
    (∀ x ∈ doomed, x ∈ outdated retention archives ∧ x ∉ largest {x | x ∈ seen} N) ∧
      (complete = true → ∀ x, (x ∈ files ∧ isArchive x = true) ↔
        x ∈ archives ∧ (x ∉ outdated retention archives ∨ x ∈ doomed))

def inside (call : ArchiveCall) : Bool := call ≠ .outside

structure Inv (N : ℕ) (s : ArchiveFolder) : Prop where
  single : s.calls.countP inside = if s.archiving then 1 else 0
  nodup : s.files.Nodup
  known : ∀ x ∈ s.files, isArchive x = true → x ∈ s.seen
  newest : ∀ x ∈ largest {x | x ∈ s.seen} N, x ∈ s.files
  archive : ∀ x ∈ s.seen, isArchive x = true
  sound : ∀ call ∈ s.calls, Sound N s.files s.seen call

variable {N callers : ℕ} {files : List Bytes} {s s' : ArchiveFolder}
  {before after : List ArchiveCall} {call : ArchiveCall}

lemma Inv.alone (h : s.Inv N) (hcalls : s.calls = before ++ call :: after) (hin : call ≠ .outside) :
    s.archiving = true ∧ ∀ c ∈ before ++ after, c = .outside := by
  have hsingle := h.single
  rw [hcalls, List.countP_append, List.countP_cons_of_pos (by simpa [inside] using hin)] at hsingle
  have hzero : before.countP inside = 0 ∧ after.countP inside = 0 ∧ s.archiving = true := by
    cases hs : s.archiving <;> simp only [hs, Bool.false_eq_true, if_false, if_true] at hsingle
    · omega
    · exact ⟨by omega, by omega, rfl⟩
  obtain ⟨hbefore, hafter, harchiving⟩ := hzero
  rw [List.countP_eq_zero] at hbefore hafter
  refine ⟨harchiving, fun c hc => ?_⟩
  rcases List.mem_append.mp hc with hc | hc
  · simpa [inside] using hbefore c hc
  · simpa [inside] using hafter c hc

lemma archivesOf_mem {x : Bytes} : x ∈ archivesOf files ↔ x ∈ files ∧ isArchive x = true := by
  simp [archivesOf]

lemma mem_outdated {retention : ℕ} {archives : List Bytes} {x : Bytes} :
    x ∈ outdated retention archives ↔ 0 < retention ∧
    x ∈ least (archives.length - retention) archives := by
  simp only [outdated]
  split_ifs with h <;> simp [h]

lemma outdated_subset {retention : ℕ} {archives : List Bytes} {x : Bytes}
    (h : x ∈ outdated retention archives) :
    x ∈ archives :=
  (List.mem_insertionSort _).mp (List.mem_of_mem_take (mem_outdated.mp h).2)

lemma outdated_nodup {retention : ℕ} {archives : List Bytes} (h : archives.Nodup) :
    (outdated retention archives).Nodup := by
  simp only [outdated]
  split_ifs
  · exact ((archives.perm_insertionSort _).nodup_iff.mpr h).sublist (List.take_sublist _ _)
  · exact List.nodup_nil

lemma Inv.left (h : s.Inv N) (hcalls : s.calls = before ++ call :: after) (hin : call ≠ .outside) :
    (s.leave before after).Inv N := by
  obtain ⟨-, hrest⟩ := h.alone hcalls hin
  have hout : ∀ c ∈ before ++ .outside :: after, c = .outside := by
    simp only [List.forall_mem_append, List.forall_mem_cons] at hrest ⊢
    exact ⟨hrest.1, trivial, hrest.2⟩
  refine ⟨?_, h.nodup, h.known, h.newest, h.archive, fun c hc => ?_⟩
  · simp only [leave, Bool.false_eq_true, if_false, List.countP_eq_zero]
    exact fun c hc => by simp [hout c hc, inside]
  · rw [hout c hc]
    trivial

lemma Inv.goes_on {call' : ArchiveCall} {files seen : List Bytes} (h : s.Inv N)
    (hcalls : s.calls = before ++ call :: after)
    (hin : call ≠ .outside) (hin' : call' ≠ .outside) (hnodup : files.Nodup)
    (hknown : ∀ x ∈ files, isArchive x = true → x ∈ seen)
    (hnewest : ∀ x ∈ largest {x | x ∈ seen} N, x ∈ files)
    (harchive : ∀ x ∈ seen, isArchive x = true) (hsound : Sound N files seen call') :
    ({ s.withCall before after call' with files := files, seen := seen } : ArchiveFolder).Inv
      N := by
  obtain ⟨harchiving, hrest⟩ := h.alone hcalls hin
  have hsingle := h.single
  refine ⟨?_, hnodup, hknown, hnewest, harchive, ?_⟩
  · rw [hcalls, List.countP_append,
      List.countP_cons_of_pos (by simpa [inside] using hin)] at hsingle
    simp only [withCall]
    rwa [List.countP_append, List.countP_cons_of_pos (by simpa [inside] using hin')]
  · simp only [withCall, List.forall_mem_append, List.forall_mem_cons] at hrest ⊢
    refine ⟨fun c hc => ?_, hsound, fun c hc => ?_⟩
    · rw [hrest.1 c hc]
      trivial
    · rw [hrest.2 c hc]
      trivial

lemma Inv.addFile {name : Bytes} (h : s.Inv N) (hname : isArchive name = true) :
    (s.addFile name).files.Nodup ∧
    (∀ x ∈ (s.addFile name).files, isArchive x = true → x ∈ (s.addFile name).seen) ∧
      (∀ x ∈ largest {x | x ∈ (s.addFile name).seen} N, x ∈ (s.addFile name).files) ∧
      ∀ x ∈ (s.addFile name).seen, isArchive x = true := by
  refine ⟨h.nodup.insert, fun x hx harch => ?_, fun x hx => ?_, fun x hx => ?_⟩
  · rcases List.mem_insert_iff.mp hx with rfl | hx
    · exact List.mem_insert_self
    · exact List.mem_insert_of_mem (h.known x hx harch)
  · rcases List.mem_insert_iff.mp hx.1 with rfl | hseen
    · exact List.mem_insert_self
    · exact List.mem_insert_of_mem
        (h.newest x (largest_of_subset (fun y hy => List.mem_insert_of_mem hy) hx hseen))
  · rcases List.mem_insert_iff.mp hx with rfl | hx
    · exact hname
    · exact h.archive x hx

lemma outdated_below {retention : ℕ} {archives seen : List Bytes} {x : Bytes}
    (harchives : archives.Nodup)
    (hseen : ∀ y ∈ archives, y ∈ seen) (hretention : retention = 0 ∨ N ≤ retention)
    (hx : x ∈ outdated retention archives) :
    x ∉ largest {x | x ∈ seen} N := by
  intro hlargest
  obtain ⟨hpos, hleast⟩ := mem_outdated.mp hx
  have hN : N ≤ retention := hretention.resolve_left (by omega)
  have hkeep : x ∈ largest {x | x ∈ archives} retention :=
    largest_of_subset hseen (largest_mono hN hlargest) (outdated_subset hx)
  rw [largest_list harchives] at hkeep
  exact hkeep.2 hleast

lemma sound_listed {retention : ℕ} {seen : List Bytes} (hnodup : files.Nodup)
    (hknown : ∀ x ∈ files, isArchive x = true → x ∈ seen)
    (hretention : retention = 0 ∨ N ≤ retention) :
    Sound N files seen (.pruning retention (archivesOf files)
      (outdated retention (archivesOf files)) true) := by
  have harchives : (archivesOf files).Nodup := hnodup.filter _
  have hseen : ∀ x ∈ archivesOf files, x ∈ seen := fun x hx =>
    hknown x (archivesOf_mem.mp hx).1 (archivesOf_mem.mp hx).2
  refine ⟨harchives, outdated_nodup harchives, fun x hx => ⟨hx, ?_⟩, fun _ x => ?_⟩
  · exact outdated_below harchives hseen hretention hx
  · rw [archivesOf_mem]
    tauto

lemma sound_pruned {retention : ℕ} {archives doomed seen : List Bytes} {x : Bytes}
    {complete removed : Bool} (hnodup : files.Nodup)
    (h : Sound N files seen (.pruning retention archives (x :: doomed) complete)) :
    Sound N (if removed then files.erase x else files) seen
    (.pruning retention archives doomed (complete && removed)) := by
  obtain ⟨harchives, hdoomed, hold, hexact⟩ := h
  have hout : x ∈ outdated retention archives := (hold x List.mem_cons_self).1
  refine ⟨harchives, (List.nodup_cons.mp hdoomed).2, (List.forall_mem_cons.mp hold).2,
    fun hcomplete y => ?_⟩
  obtain ⟨hc, rfl⟩ : complete = true ∧ removed = true := by simpa using hcomplete
  have hbefore := hexact hc y
  have hx : x ∉ doomed := (List.nodup_cons.mp hdoomed).1
  simp only [if_true, hnodup.mem_erase_iff, List.mem_cons] at hbefore ⊢
  by_cases hy : y = x
  · subst hy
    tauto
  · tauto

lemma sound_congr {files' seen : List Bytes}
    (hsame : ∀ x, (x ∈ files' ∧ isArchive x = true) ↔ x ∈ files ∧ isArchive x = true)
    (h : Sound N files seen call) :
    Sound N files' seen call := by
  cases call with
  | outside => trivial
  | writing => exact h
  | pruning =>
    obtain ⟨harchives, hdoomed, hold, hexact⟩ := h
    exact ⟨harchives, hdoomed, hold, fun hcomplete x => (hsame x).trans (hexact hcomplete x)⟩

lemma Inv.entered {retention : ℕ} (h : s.Inv N) (hcalls : s.calls = before ++ .outside :: after)
    (hidle : s.archiving = false) (hretention : retention = 0 ∨ N ≤ retention) :
    Inv N { s.withCall before after (.writing retention) with archiving := true } := by
  have hsingle := h.single
  rw [hidle, hcalls, List.countP_append, List.countP_cons_of_neg (by simp [inside])] at hsingle
  have hsound := h.sound
  rw [hcalls] at hsound
  simp only [List.forall_mem_append, List.forall_mem_cons] at hsound
  refine ⟨?_, h.nodup, h.known, h.newest, h.archive, ?_⟩
  · simp only [withCall, if_true]
    rw [List.countP_append, List.countP_cons_of_pos (by simp [inside])]
    simp only [Bool.false_eq_true, if_false] at hsingle
    omega
  · simp only [withCall, List.forall_mem_append, List.forall_mem_cons]
    exact ⟨hsound.1, hretention, hsound.2.2⟩

lemma Inv.pruned {retention : ℕ} {archives doomed : List Bytes} {x : Bytes}
    {complete removed : Bool} (h : s.Inv N)
    (hcalls : s.calls = before ++ .pruning retention archives (x :: doomed) complete :: after) :
    Inv N { s.withCall before after (.pruning retention archives doomed (complete && removed)) with
      files := if removed then s.files.erase x else s.files } := by
  have hsound : Sound N s.files s.seen (.pruning retention archives (x :: doomed) complete) :=
    h.sound _ (by simp [hcalls])
  have hx : x ∉ largest {x | x ∈ s.seen} N := (hsound.2.2.1 x List.mem_cons_self).2
  refine h.goes_on hcalls (by simp) (by simp) ?_ (fun y hy => ?_) (fun y hy => ?_) h.archive
    (sound_pruned h.nodup hsound)
  · split_ifs
    · exact h.nodup.erase x
    · exact h.nodup
  · split_ifs at hy
    · exact h.known y (List.mem_of_mem_erase hy)
    · exact h.known y hy
  · have hne : y ≠ x := fun heq => hx (heq ▸ hy)
    split_ifs
    · exact (List.mem_erase_of_ne hne).mpr (h.newest y hy)
    · exact h.newest y hy

lemma Inv.others (h : s.Inv N) (hnodup : files.Nodup)
    (hsame : archivesOf files = archivesOf s.files) :
    Inv N { s with files := files } := by
  have hsame : ∀ x, (x ∈ files ∧ isArchive x = true) ↔ x ∈ s.files ∧ isArchive x = true :=
    fun x => by
    rw [← archivesOf_mem, ← archivesOf_mem, hsame]
  refine ⟨h.single, hnodup, fun x hx harch => ?_, fun x hx => ?_, h.archive, fun call hcall => ?_⟩
  · exact h.known x ((hsame x).mp ⟨hx, harch⟩).1 harch
  · exact ((hsame x).mpr ⟨h.newest x hx, h.archive x hx.1⟩).1
  · exact sound_congr hsame (h.sound call hcall)

lemma Inv.step (h : s.Inv N) (hs : Step N s s') : s'.Inv N := by
  cases hs with
  | refused => exact h
  | entered retention hcalls hidle hretention => exact h.entered hcalls hidle hretention
  | failed hcalls => exact h.left hcalls (by simp)
  | @broken before after retention name hname hcalls =>
    obtain ⟨hnodup, hknown, hnewest, harchive⟩ := h.addFile hname
    have hsound : Sound N (s.addFile name).files (s.addFile name).seen (.writing retention) :=
      h.sound (.writing retention) (by simp [hcalls])
    exact (h.goes_on hcalls (by simp) (by simp) hnodup hknown hnewest harchive hsound).left rfl
      (by simp)
  | @zipped before after retention name hname hcalls =>
    obtain ⟨hnodup, hknown, hnewest, harchive⟩ := h.addFile hname
    have hretention : retention = 0 ∨ N ≤ retention :=
      h.sound (.writing retention) (by simp [hcalls])
    apply h.goes_on hcalls (by simp) (by simp) hnodup hknown hnewest harchive
    exact sound_listed hnodup hknown hretention
  | pruned removed hcalls => exact h.pruned hcalls
  | left hcalls => exact h.left hcalls (by simp)
  | others files hnodup hsame => exact h.others hnodup hsame

lemma Reaches.inv (hfiles : files.Nodup) (h : Reaches N callers files s) : s.Inv N := by
  induction h with
  | start =>
    refine ⟨?_, hfiles, fun x hx harch => archivesOf_mem.mpr ⟨hx, harch⟩,
      fun x hx => (archivesOf_mem.mp hx.1).1, fun x hx => (archivesOf_mem.mp hx).2, fun c hc => ?_⟩
    · simp [List.countP_eq_zero, List.mem_replicate, inside]
    · rw [(List.mem_replicate.mp hc).2]
      trivial
  | step _ hstep ih => exact ih.step hstep

/-- However the calls interleave and whichever of their steps fail: never more than one of them is
at work, the flag is free again when none is, and of all archives that were ever there the newest
`N` are still there. -/
theorem newest_stay (hfiles : files.Nodup) (h : Reaches N callers files s) :
    s.calls.countP inside ≤ 1 ∧ (s.archiving = true ↔ s.calls.countP inside = 1) ∧
      ∀ x ∈ largest {x | x ∈ s.seen} N, x ∈ s.files := by
  have hinv := h.inv hfiles
  have hsingle := hinv.single
  cases harchiving : s.archiving with
  | true =>
    simp only [harchiving, if_true] at hsingle
    exact ⟨hsingle.le, iff_of_true rfl hsingle, hinv.newest⟩
  | false =>
    simp only [harchiving, Bool.false_eq_true, if_false] at hsingle
    exact ⟨by omega, iff_of_false (by simp) (by omega), hinv.newest⟩

/-- A call whose removals all succeeded leaves exactly the newest of the archives that it found. -/
theorem retention_exact (hfiles : files.Nodup) (h : Reaches N callers files s) {retention : ℕ}
    {archives : List Bytes}
    (hcall : .pruning retention archives [] true ∈ s.calls) (hpos : 0 < retention) :
    {x | x ∈ s.files ∧ isArchive x = true} = largest {x | x ∈ archives} retention := by
  obtain ⟨harchives, -, -, hexact⟩ := (h.inv hfiles).sound _ hcall
  rw [largest_list harchives]
  ext x
  simp [hexact rfl x, mem_outdated, hpos]

def firstArchive : Bytes := ascii "zestdb_archive_1.zip"

def secondArchive : Bytes := ascii "zestdb_archive_2.zip"

lemma secondArchive_reached : Reaches 1 2 [firstArchive]
    ⟨true, [.pruning 1 [secondArchive, firstArchive] [] true, .outside], [secondArchive],
      [secondArchive, firstArchive]⟩ := by
  have hstart : Reaches 1 2 [firstArchive] ⟨false, [] ++ .outside :: [.outside], [firstArchive],
      [firstArchive]⟩ := .start
  have hentered := Reaches.step hstart (.entered 1 rfl rfl (.inr le_rfl))
  have hzipped : Reaches 1 2 [firstArchive]
      ⟨true, [] ++ .pruning 1 [secondArchive, firstArchive] (firstArchive :: []) true :: [.outside],
        [secondArchive, firstArchive], [secondArchive, firstArchive]⟩ := by
    convert Reaches.step hentered (.zipped secondArchive (by decide +kernel) rfl) using 1
    decide +kernel
  convert Reaches.step hzipped (.pruned true rfl) using 1
  decide +kernel

theorem secondArchive_stays :
    largest {x | x ∈ [secondArchive, firstArchive]} 1 ⊆ {x | x ∈ [secondArchive]} :=
  (newest_stay (List.nodup_singleton _) secondArchive_reached).2.2

theorem secondArchive_exact :
    {x | x ∈ [secondArchive] ∧ isArchive x = true} =
      largest {x | x ∈ [secondArchive, firstArchive]} 1 :=
  retention_exact (List.nodup_singleton _) secondArchive_reached List.mem_cons_self Nat.zero_lt_one

end ArchiveFolder

end Zest
