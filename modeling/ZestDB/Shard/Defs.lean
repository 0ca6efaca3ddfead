import ZestDB.Settings
import ZestDB.Wal
import ZestDB.Cache.LRUCache
import ZestDB.Storage.StorageManager

/-! `Shard.cpp`: one shard, from its files up. -/

namespace Zest

open Foundations

structure Shard where
  settings : Settings
  wal : WAL
  indexManager : IndexManager
  storageManager : StorageManager
  cache : LRUCache
deriving DecidableEq

def toLongLong (count : ℕ) : ℤ := Int.bmod count (2 ^ 32)

/-- `[limit, globalMatchCount]`: take one of the matches that are left, or none when there are
none. -/
def ValidationRule.claim (valid : ValidationRule) : Option ℕ → Option (Option ℕ)
  | none => some none
  | some count =>
    if valid.limit = UINT_MAX then some (some count)
    else if count ≥ valid.limit then none
    else some (some (count + 1))

def ValidationRule.stopEarly (valid : ValidationRule) : Option ℕ → Bool
  | none => false
  | some count => valid.limit ≠ UINT_MAX && count ≥ valid.limit

namespace Shard

def onStorage {α : Type} (x : Traced StorageManager α) : Traced Shard α :=
  .zoom Shard.storageManager (fun sm s => { s with storageManager := sm }) x

def putIndex (entry : IndexEntry) (value : Value) (s : Shard) : Shard :=
  { s with indexManager := s.indexManager.insert entry, cache := s.cache.put entry value }

def bury (key : Key) (entry : IndexEntry) (s : Shard) : Shard :=
  { s with
    indexManager := s.indexManager.update key { entry with isTombstone := true }
    cache := s.cache.remove key }

def live (entry : IndexEntry) : Bool := !entry.isTombstone && entry.segmentId ≠ INVALID_SEGMENT_ID

def get (s : Shard) (key : Key) : ResultType × Shard :=
  let r := s.cache.get key
  let s := { s with cache := r.2 }
  if live r.1.index then (⟨.Success, r.1.value, 1⟩, s)
  else
    let entry := s.indexManager.search key
    if live entry then
      let value := s.storageManager.read entry
      if value = [] then (⟨.Error, Messages.READ_FAILED, 0⟩, s)
      else (⟨.Success, value, 1⟩, { s with cache := s.cache.put entry value })
    else (⟨.Error, Messages.KEY_NOT_FOUND, 0⟩, s)

def segmentFull : ResultType := ⟨.Error, ascii "Failed to write: segment full", 0⟩

def set (key : Key) (value : Value) : Traced Shard ResultType := do
  let s ← .get
  let entry ← onStorage (StorageManager.append s.settings.SegSize value)
  if entry.segmentId = INVALID_SEGMENT_ID then
    pure segmentFull
  else do
    .step (putIndex { entry with key := key } value)
    pure ⟨.Success, Messages.SUCCESS_SET, 1⟩

def del (key : Key) : Traced Shard ResultType := do
  .step fun s => { s with cache := s.cache.remove key }
  let s ← .get
  let entry := s.indexManager.search key
  if live entry then do
    .step (bury key entry)
    pure ⟨.Success, Messages.SUCCESS_DEL, 1⟩
  else pure ⟨.Error, Messages.KEY_NOT_FOUND, 0⟩

/-- The pairs `getBy` puts in its array, and the counter it leaves. -/
def getByEntries (s : Shard) (valid : ValidationRule) : List IndexEntry → Option ℕ →
    List (Key × Value) × Option ℕ
  | [], count => ([], count)
  | entry :: entries, count =>
    if live entry then
      match valid.claim count with
      | none => ([], count)
      | some count =>
        let value := s.storageManager.read entry
        let r := s.getByEntries valid entries count
        if value = [] then r else ((entry.key, value) :: r.1, r.2)
    else s.getByEntries valid entries count

def dumpPair (pf : Platform) (p : Key × Value) : Bytes :=
  ascii "\x7b\"" ++ pf.escape p.1 ++ ascii "\":\"" ++ pf.escape p.2 ++ ascii "\"\x7d"

def dumpArray (pf : Platform) (pairs : List (Key × Value)) : Bytes :=
  ascii "[" ++ List.intercalate (ascii ",") (pairs.map (dumpPair pf)) ++ ascii "]"

def getBy (pf : Platform) (ch : Choice) (s : Shard) (valid : ValidationRule) (count : Option ℕ) :
    ResultType × Option ℕ :=
  let entries := s.indexManager.findMatching ch valid.func (valid.stopEarly count)
  let r := s.getByEntries valid entries count
  (⟨.Success, dumpArray pf r.1, toLongLong r.1.length⟩, r.2)

def setByEntries (valid : ValidationRule) (value : Value) :
    List IndexEntry → Option ℕ → Traced Shard (ℕ × Option ℕ)
  | [], count => pure (0, count)
  | entry :: entries, count =>
    if live entry then
      match valid.claim count with
      | none => pure (0, count)
      | some claimed => do
        let s ← .get
        let newEntry ← onStorage (StorageManager.append s.settings.SegSize value)
        if newEntry.segmentId = INVALID_SEGMENT_ID then setByEntries valid value entries count
        else do
          .step (putIndex { newEntry with key := entry.key } value)
          let r ← setByEntries valid value entries claimed
          pure (r.1 + 1, r.2)
    else setByEntries valid value entries count

def modified (count : ℤ) : ResultType :=
  ⟨.Success, ascii s!"Value successfully modified for {count} entries", count⟩

def deleted (count : ℤ) : ResultType :=
  ⟨.Success, ascii s!"Successfully deleted {count} entries", count⟩

def setBy (ch : Choice) (valid : ValidationRule) (value : Value) (count : Option ℕ) :
    Traced Shard (ResultType × Option ℕ) := do
  let s ← .get
  let r ← setByEntries valid value
      (s.indexManager.findMatching ch valid.func (valid.stopEarly count)) count
  pure (modified (toLongLong r.1), r.2)

def delByEntries (valid : ValidationRule) : List IndexEntry → Option ℕ → Traced Shard (ℕ × Option ℕ)
  | [], count => pure (0, count)
  | entry :: entries, count =>
    if live entry then
      match valid.claim count with
      | none => pure (0, count)
      | some claimed => do
        .step (bury entry.key entry)
        let r ← delByEntries valid entries claimed
        pure (r.1 + 1, r.2)
    else delByEntries valid entries count

def delBy (ch : Choice) (valid : ValidationRule) (count : Option ℕ) :
    Traced Shard (ResultType × Option ℕ) := do
  let s ← .get
  let r ← delByEntries valid
      (s.indexManager.findMatching ch valid.func (valid.stopEarly count)) count
  pure (deleted (toLongLong r.1), r.2)

def matchingKeys (ch : Choice) (s : Shard) (valid : ValidationRule) : List Key :=
  ch.firstKeys valid.limit ((s.indexManager.findMatching ch valid.func false).map IndexEntry.key)

def flushIndex : Traced Shard Unit :=
  .step fun s => { s with indexManager := s.indexManager.flush }

def flushData (ch : Choice) : Traced Shard Unit := do
  onStorage (StorageManager.flush ch)
  flushIndex

def liveBytes (entries : List IndexEntry) (segmentId : ℕ) : ℕ :=
  ((entries.filter fun entry => entry.segmentId = segmentId).map IndexEntry.size).sum % 2 ^ 64

/-- Whether the compactor leaves `entry` where it is without reading it. -/
def stays (segSize current : ℕ) (entries : List IndexEntry) (entry : IndexEntry) : Bool :=
  entry.segmentId = current || liveBytes entries entry.segmentId * 2 % 2 ^ 64 ≥ segSize

/-- The entries after the relocation loop, and whether one was moved. -/
def relocate (stay : IndexEntry → Bool) : List IndexEntry → Traced Shard (List IndexEntry × Bool)
  | [] => pure ([], false)
  | entry :: entries => do
    let s ← .get
    if stay entry || s.storageManager.read entry = [] then do
      let r ← relocate stay entries
      pure (entry :: r.1, r.2)
    else do
      let relocated ← onStorage
          (StorageManager.append s.settings.SegSize (s.storageManager.read entry))
      if relocated.segmentId = INVALID_SEGMENT_ID then do
        let r ← relocate stay entries
        pure (entry :: r.1, r.2)
      else do
        let relocated := { relocated with key := entry.key }
        .step fun s => { s with indexManager := s.indexManager.insert relocated }
        let r ← relocate stay entries
        pure (relocated :: r.1, true)

def flushMoved (ch : Choice) (moved : Bool) : Traced Shard Unit :=
  if moved then flushData ch else pure ()

def compactSegments (ch : Choice) (entries : List IndexEntry) : Traced Shard Unit := do
  let s ← .get
  let r ← relocate (stays s.settings.SegSize s.storageManager.latestSegmentId entries) entries
  flushMoved ch r.2
  onStorage (StorageManager.removeUnusedSegments ch (r.1.map IndexEntry.segmentId))

def compactIndex (ch : Choice) : Traced Shard (List IndexEntry) := do
  let s ← .get
  .step fun s => { s with indexManager := s.indexManager.compact ch }
  pure (s.indexManager.getAll ch)

def compactorPass (ch : Choice) : Traced Shard Unit := do
  let entries ← compactIndex ch
  compactSegments ch entries

def verifyEntry (entry : IndexEntry) : Traced Shard Unit := do
  let s ← .get
  if live entry && !s.storageManager.contains entry then
    .step fun s =>
      { s with indexManager := s.indexManager.update entry.key { entry with isTombstone := true } }
  else pure ()

def verifyIndexEntries (ch : Choice) : Traced Shard Unit := do
  let s ← .get
  .forEach verifyEntry (s.indexManager.getAll ch)

def fillCacheEntries (sm : StorageManager) : List IndexEntry → List Key → LRUCache → LRUCache
  | [], _, cache => cache
  | entry :: entries, seenKeys, cache =>
    if !live entry || entry.key ∈ seenKeys then fillCacheEntries sm entries seenKeys cache
    else
      let value := sm.read entry
      fillCacheEntries sm entries (entry.key :: seenKeys)
      (if value = [] then cache else cache.put entry value)

def fillCache (ch : Choice) (s : Shard) : Shard :=
  let entries := s.indexManager.getAll ch
  { s with cache := fillCacheEntries s.storageManager (entries.take s.settings.CacheSize) [] s.cache
    }

structure Disk where
  index : Bytes
  segs : AList (fun _ : ℕ => Bytes)
  wal : Bytes

def Disk.empty : Disk := ⟨[], ∅, []⟩

def openDisk (settings : Settings) (disk : Disk) : Shard where
  settings := settings
  wal := .openWal disk.wal
  indexManager := .loadIndexIntoMemory disk.index
  storageManager := ⟨StorageManager.openAll disk.segs, 0⟩
  cache := .empty settings.CacheSize

def boot (ch fill : Choice) : Traced Shard Unit := do
  .step fun s => { s with indexManager := s.indexManager.compact ch }
  .step fun s => { s with storageManager := s.storageManager.boot }
  verifyIndexEntries ch
  .step (fillCache fill)

def reopen (settings : Settings) (ch fill : Choice) (disk : Disk) : Shard :=
  (boot ch fill (openDisk settings disk)).final

def reloadSettings (settings : Settings) (s : Shard) : Shard :=
  { s with settings := settings, cache := s.cache.resize settings.CacheSize }

end Shard

end Zest
