import ZestDB.Choice
import ZestDB.IndexEntry
import ZestDB.Settings
import ZestDB.Foundations.BufferedFile
import Mathlib.Data.List.AList

/-! `IndexManager.cpp`: the in-memory index and the append-only INDEX file behind it. -/

namespace Zest

open Foundations

structure Location where
  offset : ℕ
  segmentId : ℕ
  size : ℕ
deriving DecidableEq, Repr

abbrev Tree := AList (fun _ : Key => Location)

structure IndexManager where
  memoryTree : Tree
  index : BufferedFile Byte
  canFlush : Bool
deriving DecidableEq

def IndexEntry.location (e : IndexEntry) : Location := ⟨e.offset, e.segmentId, e.size⟩

def toEntry (key : Key) (loc : Location) : IndexEntry :=
  ⟨key, loc.offset, loc.segmentId, loc.size, false⟩

def Tree.apply (t : Tree) (e : IndexEntry) : Tree :=
  if e.isTombstone then t.erase e.key else t.insert e.key e.location

def Tree.applyAll (t : Tree) (es : List IndexEntry) : Tree := es.foldl Tree.apply t

namespace IndexManager

def append (im : IndexManager) (entry : IndexEntry) : IndexManager :=
  { im with index := im.index.append entry.serialize, canFlush := true }

def search (im : IndexManager) (key : Key) : IndexEntry :=
  match im.memoryTree.lookup key with
  | some loc => toEntry key loc
  | none => .invalid

def update (im : IndexManager) (key : Key) (entry : IndexEntry) : IndexManager :=
  match im.memoryTree.lookup key with
  | none => im
  | some _ =>
    let appended := im.append { entry with key := key }
    if entry.isTombstone then { appended with memoryTree := im.memoryTree.erase key }
    else { appended with memoryTree := im.memoryTree.insert key entry.location }

def insert (im : IndexManager) (entry : IndexEntry) : IndexManager :=
  { im.append entry with memoryTree := im.memoryTree.insert entry.key entry.location }

/-- The entries in the order in which the hash map is walked. -/
def walk (ch : Choice) (im : IndexManager) : List IndexEntry :=
  (ch.walkKeys im.memoryTree.keys).filterMap fun key => (im.memoryTree.lookup key).map (toEntry key)

def getAll (ch : Choice) (im : IndexManager) (limit : ℕ := UINT_MAX) : List IndexEntry :=
  (im.walk ch).take limit

/-- `stopEarly` is asked before every key; between two steps of other tasks its answer is the
same. -/
def findMatching (ch : Choice) (im : IndexManager) (matching : Key → Bool) (stopEarly : Bool) :
    List IndexEntry :=
  if stopEarly then [] else (im.walk ch).filter fun entry => matching entry.key

/-- The rewritten INDEX is synced before it replaces the old one. -/
def compact (ch : Choice) (im : IndexManager) : IndexManager :=
  { im with index := .ofContent ((im.getAll ch).flatMap IndexEntry.serialize), canFlush := false }

def flush (im : IndexManager) : IndexManager :=
  if im.canFlush then { im with index := im.index.flush, canFlush := false } else im

def loadIndexIntoMemory (file : Bytes) : IndexManager :=
  let r := indexCodec.decodeAll file
  { memoryTree := Tree.applyAll ∅ r.1
    index := .ofContent (file.take (file.length - r.2.length))
    canFlush := false }

end IndexManager

end Zest
