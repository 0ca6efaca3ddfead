import ZestDB.Choice
import ZestDB.Index.IndexManager
import ZestDB.Foundations.Traced

/-! `DataSegment.cpp` and `StorageManager.cpp`: append-only segment files. Every file of the `seg`
directory is open, so that a file is found at the segment that has it open. -/

namespace Zest

open Foundations

structure DataSegment where
  segmentId : ℕ
  currentOffset : ℕ
  file : BufferedFile Byte
  canFlush : Bool
deriving DecidableEq, Repr

namespace DataSegment

def openSegment (segmentId : ℕ) (file : BufferedFile Byte) : DataSegment :=
  ⟨segmentId, file.content.length, file, false⟩

/-- Offsets are 64 bits wide; `SegSize + 1` is the answer of a segment without room. -/
def write (segSize : ℕ) (seg : DataSegment) (value : Value) : ℕ × DataSegment :=
  if (seg.currentOffset + value.length) % 2 ^ 64 > segSize then ((segSize + 1) % 2 ^ 64, seg)
  else
    (seg.currentOffset,
      { seg with
        file := seg.file.append value
        canFlush := true
        currentOffset := (seg.currentOffset + value.length) % 2 ^ 64 })

def read (seg : DataSegment) (offset size : ℕ) : Bytes :=
  let res := (seg.file.content.drop offset).take size
  if res.length ≠ size then [] else res

def isFull (segSize : ℕ) (seg : DataSegment) : Bool := seg.currentOffset ≥ segSize

def flush (seg : DataSegment) : DataSegment :=
  if seg.canFlush then { seg with file := seg.file.flush, canFlush := false } else seg

end DataSegment

structure StorageManager where
  segments : AList (fun _ : ℕ => DataSegment)
  latestSegmentId : ℕ
deriving DecidableEq

namespace StorageManager

def nextId (currentId : ℕ) : ℕ := (currentId + 1) % 2 ^ 32

/-- Open segment `id`, creating its file if there is none, and make it the latest. -/
def newSegment (id : ℕ) : Traced StorageManager Unit :=
  .step fun sm =>
    { segments := sm.segments.insert id
        (.openSegment id (((sm.segments.lookup id).map DataSegment.file).getD (.ofContent [])))
      latestSegmentId := id }

def appendToSegment (segSize id : ℕ) (value : Value) : Traced StorageManager IndexEntry := do
  let sm ← .get
  match sm.segments.lookup id with
  | none => pure .invalid
  | some seg =>
    let r := seg.write segSize value
    .step fun sm => { sm with segments := sm.segments.insert id r.2 }
    pure (if r.1 = (segSize + 1) % 2 ^ 64 then .invalid
      else ⟨[], r.1, seg.segmentId, value.length % 2 ^ 32, false⟩)

def usable (segSize : ℕ) (sm : StorageManager) (id : ℕ) : Bool :=
  match sm.segments.lookup id with
  | some seg => !seg.isFull segSize
  | none => false

/-- The segment a value goes to first: the latest one, or a new one when that is full or gone. -/
def currentSegment (segSize : ℕ) : Traced StorageManager ℕ := do
  let sm ← .get
  if sm.usable segSize sm.latestSegmentId then pure sm.latestSegmentId
  else do
    newSegment (nextId sm.latestSegmentId)
    pure (nextId sm.latestSegmentId)

def append (segSize : ℕ) (value : Value) : Traced StorageManager IndexEntry := do
  let id ← currentSegment segSize
  let result ← appendToSegment segSize id value
  if result.segmentId = INVALID_SEGMENT_ID then do
    let sm ← .get
    newSegment (nextId sm.latestSegmentId)
    appendToSegment segSize (nextId sm.latestSegmentId) value
  else pure result

def contains (sm : StorageManager) (entry : IndexEntry) : Bool :=
  match sm.segments.lookup entry.segmentId with
  | some seg => (entry.offset + entry.size) % 2 ^ 64 ≤ seg.currentOffset
  | none => false

def read (sm : StorageManager) (entry : IndexEntry) : Bytes :=
  match sm.segments.lookup entry.segmentId with
  | some seg => seg.read entry.offset entry.size
  | none => []

def removeUnusedSegments (ch : Choice) (usedSegmentIds : List ℕ) : Traced StorageManager Unit := do
  let sm ← .get
  let toRemove := (ch.walkIds sm.segments.keys).filter fun id => id ∉ usedSegmentIds
  .forEach (fun id => .step fun sm => { sm with segments := sm.segments.erase id }) toRemove

def flushSegment (id : ℕ) (sm : StorageManager) : StorageManager :=
  match sm.segments.lookup id with
  | some seg => { sm with segments := sm.segments.insert id seg.flush }
  | none => sm

def flush (ch : Choice) : Traced StorageManager Unit := do
  let sm ← .get
  .forEach (fun id => .step (flushSegment id)) (ch.walkIds sm.segments.keys)

def openAll (files : AList (fun _ : ℕ => Bytes)) : AList (fun _ : ℕ => DataSegment) :=
  ⟨files.entries.map fun f => ⟨f.1, .openSegment f.1 (.ofContent f.2)⟩, by
    simpa [List.NodupKeys, List.keys, Function.comp_def] using files.nodupKeys⟩

def boot (sm : StorageManager) : StorageManager :=
  if sm.segments.entries.isEmpty then
    { segments := sm.segments.insert 1 (.openSegment 1 (.ofContent [])), latestSegmentId := 1 }
  else { sm with latestSegmentId := sm.segments.keys.foldl max 0 }

end StorageManager

end Zest
