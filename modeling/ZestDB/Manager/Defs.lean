import ZestDB.Shard.Defs

/-! `ShardManager.cpp`: the shards, and the operations routed to them or run on all of them. The
tasks of one operation run on different shards, one after the other here. -/

namespace Zest

open Foundations

/-- `nextSeq` is the counter that `WAL.cpp` keeps for all its files. -/
structure ShardManager (n : ℕ) where
  settings : Settings
  shards : Fin n → Shard
  nextSeq : ℕ

structure Choices (n : ℕ) where
  own : Choice := .plain
  shard : Fin n → Choice := fun _ => .plain

instance (priority := 2000) neZero_oneShard : NeZero 1 := ⟨Nat.one_ne_zero⟩

namespace ShardManager

variable {n : ℕ}

def create (settings : Settings) (ch fill : Choices n) (disks : Fin n → Shard.Disk) :
    ShardManager n where
  settings := settings
  shards i := Shard.reopen settings (ch.shard i) (fill.shard i) (disks i)
  nextSeq := 0

def setShard (i : Fin n) (s : Shard) (sm : ShardManager n) : ShardManager n :=
  { sm with shards := Function.update sm.shards i s }

def onShard {α : Type} (i : Fin n) (x : Traced Shard α) : Traced (ShardManager n) α :=
  .zoom (fun sm => sm.shards i) (setShard i) x

def getShardId [NeZero n] (pf : Platform) (key : Key) : Fin n := Fin.ofNat n (pf.hash key)

def get [NeZero n] (pf : Platform) (sm : ShardManager n) (key : Key) :
    ResultType × ShardManager n :=
  let r := (sm.shards (getShardId pf key)).get key
  (r.1, sm.setShard (getShardId pf key) r.2)

def set [NeZero n] (pf : Platform) (key : Key) (value : Value) :
    Traced (ShardManager n) ResultType :=
  onShard (getShardId pf key) (Shard.set key value)

def del [NeZero n] (pf : Platform) (key : Key) : Traced (ShardManager n) ResultType :=
  onShard (getShardId pf key) (Shard.del key)

def getByShards (pf : Platform) (ch : Choices n) (valid : ValidationRule) (sm : ShardManager n) :
    List (Fin n) → Option ℕ → List ResultType
  | [], _ => []
  | i :: is, count =>
    let r := (sm.shards i).getBy pf (ch.shard i) valid count
    r.1 :: getByShards pf ch valid sm is r.2

def mergeOne (acc : Bytes × ℤ) (r : ResultType) : Bytes × ℤ :=
  if r.code = .Success ∧ r.response.length > 2 then
    let merged := if acc.1.length > 1 then acc.1 ++ ascii "," else acc.1
    (merged ++ (r.response.drop 1).take (r.response.length - 2), acc.2 + r.affectedRows)
  else acc

def getBy (pf : Platform) (ch : Choices n) (sm : ShardManager n) (valid : ValidationRule) :
    ResultType :=
  let r := (sm.getByShards pf ch valid (List.finRange n) (some 0)).foldl mergeOne (ascii "[", 0)
  ⟨.Success, r.1 ++ ascii "]", r.2⟩

def firstMatchingKeys (ch : Choices n) (sm : ShardManager n) (valid : ValidationRule) : List Key :=
  let keys := (List.finRange n).flatMap fun i => (sm.shards i).matchingKeys (ch.shard i) valid
  (ch.own.firstKeys valid.limit keys).insertionSort (· ≤ ·)

def countSuccess (x : Key → Traced (ShardManager n) ResultType) :
    List Key → Traced (ShardManager n) ℤ
  | [] => pure 0
  | key :: keys => do
    let r ← x key
    let rest ← countSuccess x keys
    pure ((if r.code = .Success then 1 else 0) + rest)

def eachShard {α : Type} (x : Fin n → Traced Shard α) : List (Fin n) → Traced (ShardManager n)
    (List α)
  | [] => pure []
  | i :: is => do
    let r ← onShard i (x i)
    let rest ← eachShard x is
    pure (r :: rest)

def allShards {α : Type} (x : Fin n → Traced Shard α) : Traced (ShardManager n) (List α) :=
  eachShard x (List.finRange n)

def sumRows (results : List (ResultType × Option ℕ)) : ℤ :=
  (results.map fun r => if r.1.code = .Success then r.1.affectedRows else 0).sum

def capped (valid : ValidationRule) (total : ℤ) : ℤ :=
  if valid.limit ≠ UINT_MAX ∧ total > valid.limit then valid.limit else total

def setBy [NeZero n] (pf : Platform) (ch : Choices n) (valid : ValidationRule) (value : Value) :
    Traced (ShardManager n) ResultType :=
  if valid.limit ≠ UINT_MAX then do
    let sm ← .get
    let updated ← countSuccess (fun key => set pf key value) (sm.firstMatchingKeys ch valid)
    pure (Shard.modified updated)
  else do
    let results ← allShards fun i => Shard.setBy (ch.shard i) valid value (some 0)
    pure (Shard.modified (capped valid (sumRows results)))

def delBy [NeZero n] (pf : Platform) (ch : Choices n) (valid : ValidationRule) :
    Traced (ShardManager n) ResultType :=
  if valid.limit ≠ UINT_MAX then do
    let sm ← .get
    let deleted ← countSuccess (fun key => del pf key) (sm.firstMatchingKeys ch valid)
    pure (Shard.deleted deleted)
  else do
    let results ← allShards fun i => Shard.delBy (ch.shard i) valid (some 0)
    pure (Shard.deleted (capped valid (sumRows results)))

def clearAllWAL : Traced (ShardManager n) (List Unit) :=
  allShards fun _ => .step fun s => { s with wal := s.wal.clear }

def flush (ch : Choices n) : Traced (ShardManager n) (List Unit) := do
  let _ ← allShards fun i => Shard.flushData (ch.shard i)
  clearAllWAL

def syncWAL : Traced (ShardManager n) (List Unit) :=
  allShards fun _ => .step fun s => { s with wal := s.wal.sync }

def takeSequence (sm : ShardManager n) : ShardManager n :=
  { sm with nextSeq := (sm.nextSeq + 1) % 2 ^ 64 }

def appendToWAL [NeZero n] (pf : Platform) (key : Key) (command : Bytes) :
    Traced (ShardManager n) Unit :=
  .step fun sm =>
    let s := sm.shards (getShardId pf key)
    (sm.setShard (getShardId pf key) { s with wal := s.wal.append command sm.nextSeq }).takeSequence

def walEntries (sm : ShardManager n) : List WalEntry :=
  ((List.finRange n).flatMap fun i => (sm.shards i).wal.getCmds).insertionSort fun a b => a.seq ≤
    b.seq

def advanceSequence (next : ℕ) (sm : ShardManager n) : ShardManager n :=
  if sm.nextSeq < next then { sm with nextSeq := next } else sm

def advanceAll (allWalEntries : List WalEntry) (sm : ShardManager n) : ShardManager n :=
  match allWalEntries.getLast? with
  | some last => advanceSequence ((last.seq + 1) % 2 ^ 64) sm
  | none => sm

def reloadSettings (settings : Settings) : Traced (ShardManager n) (List Unit) := do
  .step fun sm => { sm with settings := settings }
  allShards fun _ => .step (Shard.reloadSettings settings)

def compactorPass (ch : Choices n) (i : Fin n) : Traced (ShardManager n) Unit :=
  onShard i (Shard.compactorPass (ch.shard i))

end ShardManager

end Zest
