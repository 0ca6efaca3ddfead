import ZestDB.Foundations.Traced
import ZestDB.Index.Faulty
import ZestDB.Index.Reload

/-! `IndexManager::compact` with its file operations, each of which can fail: INDEX and its stream,
INDEX.tmp, and the rename. -/

namespace Zest

open Foundations
open Foundations.Traced (Within)

/-- `put` is the position of the stream on INDEX, `none` while it is closed; `tmp` is INDEX.tmp. -/
structure IndexFiles where
  memoryTree : Tree
  canFlush : Bool
  index : BufferedFile Byte
  put : Option ℕ
  tmp : Option (BufferedFile Byte)

/-- How far `compact` comes; `accepted` bytes are written before a write to INDEX.tmp fails. -/
inductive Compaction where
  | notOpened
  | notWritten (accepted : ℕ)
  | notSynced
  | notRenamed
  | done
deriving DecidableEq

namespace IndexFiles

def manager (s : IndexFiles) : IndexManager := ⟨s.memoryTree, s.index, s.canFlush⟩

def append (s : IndexFiles) (entry : IndexEntry) : IndexFiles :=
  match s.put with
  | none => { s with canFlush := true }
  | some p =>
    { s with
      index := s.index.writeAt p entry.serialize
      put := some (p + entry.serialize.length)
      canFlush := true }

def insert (s : IndexFiles) (entry : IndexEntry) : IndexFiles :=
  { s.append entry with memoryTree := s.memoryTree.insert entry.key entry.location }

def update (s : IndexFiles) (key : Key) (entry : IndexEntry) : IndexFiles :=
  match s.memoryTree.lookup key with
  | none => s
  | some _ =>
    let appended := s.append { entry with key := key }
    if entry.isTombstone then { appended with memoryTree := s.memoryTree.erase key }
    else { appended with memoryTree := s.memoryTree.insert key entry.location }

def flush (s : IndexFiles) : IndexFiles :=
  if s.canFlush then { s with index := s.index.flush, canFlush := false } else s

def run (s : IndexFiles) : IndexUpdate → IndexFiles
  | .insert entry => s.insert entry
  | .update key entry => s.update key entry

def runAll (us : List IndexUpdate) (s : IndexFiles) : IndexFiles := us.foldl run s

def reopen : Traced IndexFiles Unit := do
  .step fun s => { s with put := some 0 }
  .step fun s => { s with put := some s.index.content.length }

def removeTmp : Traced IndexFiles Unit := .step fun s => { s with tmp := none }

def replace (renamed : Bool) : Traced IndexFiles Unit := do
  .step fun s => { s with put := none }
  if renamed then do
    .step fun s => { s with index := s.tmp.getD s.index, tmp := none }
    reopen
    .step fun s => { s with canFlush := false }
  else reopen

def compact (ch : Choice) (o : Compaction) : Traced IndexFiles Unit := do
  let s ← .get
  let log := (s.manager.getAll ch).flatMap IndexEntry.serialize
  match o with
  | .notOpened => removeTmp
  | .notWritten accepted => do
    .step fun s => { s with tmp := some ⟨[], log.take accepted⟩ }
    removeTmp
  | .notSynced => do
    .step fun s => { s with tmp := some ⟨[], log⟩ }
    removeTmp
  | .notRenamed => do
    .step fun s => { s with tmp := some ⟨[], log⟩ }
    .step fun s => { s with tmp := s.tmp.map BufferedFile.flush }
    replace false
  | .done => do
    .step fun s => { s with tmp := some ⟨[], log⟩ }
    .step fun s => { s with tmp := s.tmp.map BufferedFile.flush }
    replace true

def load (file : Bytes) : IndexFiles :=
  let im := IndexManager.loadIndexIntoMemory file
  ⟨im.memoryTree, im.canFlush, im.index, some im.index.content.length, none⟩

def Valid : IndexUpdate → Prop
  | .insert entry => entry.Fits ∧ entry.isTombstone = false
  | .update key entry => ({ entry with key := key } : IndexEntry).Fits

def Covers (s : IndexFiles) (o : Compaction) : Prop := o = .done → s.manager.FewKeys

/-- The states of an index from its constructor on, whatever becomes of each compaction. -/
inductive Reached (file : Bytes) : IndexFiles → Prop
  | create (ch : Choice) (o : Compaction) : (load file).Covers o →
      Reached file (compact ch o (load file)).final
  | update {s : IndexFiles} (u : IndexUpdate) : Reached file s → Valid u → Reached file (s.run u)
  | flush {s : IndexFiles} : Reached file s → Reached file s.flush
  | compact {s : IndexFiles} (ch : Choice) (o : Compaction) : Reached file s → s.Covers o →
      Reached file (compact ch o s).final

structure Whole (s : IndexFiles) : Prop where
  put : s.put = some s.index.content.length
  intact : IndexStream.Intact ⟨s.manager, true⟩

variable {s t : IndexFiles} {entry : IndexEntry} {key : Key} {ch : Choice} {o : Compaction}
  {file : Bytes} {u : IndexUpdate} {us : List IndexUpdate}

lemma append_end (h : s.put = some s.index.content.length) (entry : IndexEntry) :
    s.append entry = { s with
      index := s.index.append entry.serialize
      put := some (s.index.append entry.serialize).content.length
      canFlush := true } := by
  rw [append, h, BufferedFile.content_append, List.length_append]
  simp only [BufferedFile.writeAt_end]

lemma run_end (h : s.put = some s.index.content.length) (u : IndexUpdate) :
    (s.run u).manager = u.run s.manager ∧ (s.run u).put = some (s.run u).index.content.length := by
  cases u with
  | insert entry =>
    simp only [run, insert, append_end h]
    exact ⟨rfl, trivial⟩
  | update key entry =>
    simp only [run, update, append_end h, IndexUpdate.run, IndexManager.update, manager]
    cases s.memoryTree.lookup key with
    | none => exact ⟨rfl, h⟩
    | some loc =>
      dsimp only
      split_ifs
      · exact ⟨rfl, rfl⟩
      · exact ⟨rfl, rfl⟩

lemma Whole.run (h : s.Whole) (hu : Valid u) : (s.run u).Whole := by
  obtain ⟨hmanager, hput⟩ := run_end h.put u
  refine ⟨hput, ?_⟩
  rw [hmanager]
  cases u with
  | insert entry =>
    have hi := IndexStream.insert_intact entry.serialize.length h.intact rfl hu.1 hu.2
    rwa [IndexStream.insert_complete le_rfl] at hi
  | update key entry =>
    have hi := IndexStream.update_intact ({ entry with key := key } : IndexEntry).serialize.length
      h.intact (fun _ => rfl) hu
    rwa [IndexStream.update_complete le_rfl rfl] at hi

lemma Whole.runAll (h : s.Whole) (hus : ∀ u ∈ us, Valid u) : (runAll us s).Whole := by
  induction us generalizing s with
  | nil => exact h
  | cons u us ih => exact ih (h.run (hus u (by simp))) fun v hv => hus v (by simp [hv])

lemma Whole.flush (h : s.Whole) : s.flush.Whole := by
  have hi := IndexStream.flush_intact true h.intact
  simp only [IndexStream.flush, Bool.and_self, if_true] at hi
  simp only [IndexFiles.flush]
  split_ifs with hc
  · refine ⟨by rw [BufferedFile.content_flush]; exact h.put, ?_⟩
    rw [if_pos (show s.manager.canFlush = true from hc), IndexManager.flush,
      if_pos (show s.manager.canFlush = true from hc)] at hi
    exact hi
  · exact h

lemma compact_end (h : s.put = some s.index.content.length) (ch : Choice) (o : Compaction) :
    (compact ch o s).final.put = some (compact ch o s).final.index.content.length ∧
      ((compact ch o s).final.manager = s.manager ∨
        (o = .done ∧ (compact ch o s).final.manager = s.manager.compact ch)) := by
  cases o with
  | notOpened => exact ⟨h, .inl rfl⟩
  | notWritten accepted => exact ⟨h, .inl rfl⟩
  | notSynced => exact ⟨h, .inl rfl⟩
  | notRenamed => exact ⟨rfl, .inl rfl⟩
  | done => exact ⟨rfl, .inr ⟨rfl, rfl⟩⟩

lemma Whole.compact (h : s.Whole) (ch : Choice) (hfew : s.Covers o) :
    (compact ch o s).final.Whole := by
  obtain ⟨hput, hmanager⟩ := compact_end h.put ch o
  refine ⟨hput, ?_⟩
  rcases hmanager with hmanager | ⟨ho, hmanager⟩
  · rw [hmanager]
    exact h.intact
  · rw [hmanager]
    have hi : (IndexStream.compact ⟨s.manager, true⟩ ch true).Intact :=
      IndexStream.compact_intact ch h.intact fun _ => hfew ho
    exact hi

lemma load_whole (file : Bytes) : (load file).Whole := by
  have hi : (IndexStream.create file .plain false).Intact :=
    IndexStream.create_intact .plain fun hw => by cases hw
  exact ⟨rfl, hi⟩

lemma Reached.whole (h : Reached file s) : s.Whole := by
  induction h with
  | create ch o hfew => exact (load_whole file).compact ch hfew
  | update u _ hu ih => exact ih.run hu
  | flush _ ih => exact ih.flush
  | compact ch o _ hfew ih => exact ih.compact ch hfew

lemma Reached.runAll (h : Reached file s) (hus : ∀ u ∈ us, Valid u) :
    Reached file (runAll us s) := by
  induction us generalizing s with
  | nil => exact h
  | cons u us ih => exact ih (h.update u (hus u (by simp))) fun v hv => hus v (by simp [hv])

end IndexFiles

end Zest
