import ZestDB.Foundations.LockOrder
import Mathlib.Data.List.FinRange

/-! The locks that the commands and the background threads take, in the order of the source, and the
tasks they give to the pool. What a command finds decides which of them it comes to, so this is a
parameter of each piece of code. `ZestLog` may be called anywhere. -/

namespace Zest.Locks

open Foundations Foundations.LockOrder

/-- The locks of a database with `n` shards, without the `logMutex` of `ZestLog`. -/
inductive Mutex (n : ℕ) where
  | flushThreadMtx
  | saveThreadMtx
  | compactorThreadMtx (i : Fin n)
  | compactionMtx (i : Fin n)
  | writeMtx
  | usersMtx
  | authFailuresMtx
  | readMtx (i : Fin n)
  | cacheMtx (i : Fin n)
  | storageMtx (i : Fin n)
  | indexMtx (i : Fin n)
  | segmentMtx (i : Fin n) (id : ℕ)
  | walMtx (i : Fin n)
deriving DecidableEq

structure Append where
  tried : List ℕ
  took : Bool

/-- What `Shard::get` finds; `found` has the segment it reads, if that is open, and whether a value
came out. -/
inductive Lookup where
  | cached
  | missing
  | found (segment : Option ℕ) (value : Bool)

structure Flush where
  segments : List ℕ
  stored : Bool

structure Move where
  segment : Option ℕ
  append : Option Append

/-- A pass of the compactor; `flushed` is there when something moved, `removes` says that it gets to
the end. -/
structure Pass where
  moves : List Move
  flushed : Option Flush
  removes : Bool

inductive Job (n : ℕ) where
  | getBy (i : Fin n) (reads : List (Option ℕ))
  | setBy (i : Fin n) (puts : List Append)
  | delBy (i : Fin n) (count : ℕ)
  | matchingKeys (i : Fin n)
  | flushData (i : Fin n) (flush : Flush)

/-- A task of the pool, and how often it logs where. -/
structure Task (n : ℕ) where
  job : Job n
  logs : ℕ → ℕ

abbrev Code (n : ℕ) := List (Instr (Mutex n) (Task n))

section Shards

variable {n : ℕ}

def mutex (l : Mutex n) : Code n := under l .exclusive []

def segmentRead (i : Fin n) (segment : Option ℕ) : Code n :=
  segment.toList.flatMap fun id => mutex (.segmentMtx i id)

def storageAppend (i : Fin n) (a : Append) : Code n :=
  under (.storageMtx i) .exclusive (a.tried.flatMap fun id => mutex (.segmentMtx i id))

def put (i : Fin n) (a : Append) : Code n :=
  storageAppend i a ++ if a.took then mutex (.indexMtx i) ++ mutex (.cacheMtx i) else []

def flushed (i : Fin n) (f : Flush) : Code n :=
  (f.segments.flatMap fun id => mutex (.segmentMtx i id)) ++ if f.stored then
    mutex (.indexMtx i) else []

def shardGet (i : Fin n) (lookup : Lookup) : Code n :=
  under (.readMtx i) .shared <| mutex (.cacheMtx i) ++
    match lookup with
    | .cached => []
    | .missing => mutex (.indexMtx i)
    | .found segment value =>
      mutex (.indexMtx i) ++ segmentRead i segment ++ if value then mutex (.cacheMtx i) else []

def shardSet (i : Fin n) (a : Append) : Code n := under (.readMtx i) .exclusive (put i a)

def shardDel (i : Fin n) (found : Bool) : Code n :=
  under (.readMtx i) .exclusive <| mutex (.cacheMtx i) ++ mutex (.indexMtx i) ++
    if found then mutex (.indexMtx i) ++ mutex (.cacheMtx i) else []

def shardFlushData (i : Fin n) (f : Flush) : Code n := under (.readMtx i) .exclusive (flushed i f)

def shardReloadSettings (i : Fin n) : Code n := under (.readMtx i) .exclusive (mutex (.cacheMtx i))

def Job.code : Job n → Code n
  | getBy i reads => under (.readMtx i) .shared
      (mutex (.indexMtx i) ++ reads.flatMap (segmentRead i))
  | setBy i puts => under (.readMtx i) .exclusive (mutex (.indexMtx i) ++ puts.flatMap (put i))
  | delBy i count =>
    under (.readMtx i) .exclusive (mutex (.indexMtx i) ++
      (List.range count).flatMap fun _ => mutex (.indexMtx i) ++ mutex (.cacheMtx i))
  | matchingKeys i => under (.readMtx i) .shared (mutex (.indexMtx i))
  | flushData i f => shardFlushData i f

def compactSegments (i : Fin n) (pass : Pass) : Code n :=
  (pass.moves.flatMap fun m => segmentRead i m.segment ++ m.append.toList.flatMap fun a =>
      storageAppend i a ++ if a.took then mutex (.indexMtx i) else []) ++
    pass.flushed.toList.flatMap (flushed i) ++ if pass.removes then mutex (.storageMtx i) else []

/-- A turn of the compactor after its wait. `IndexManager::compact` takes the lock of the index
twice. -/
def compactorTurn (i : Fin n) (pass : Pass) : Code n :=
  under (.compactionMtx i) .exclusive <| under (.readMtx i) .exclusive <|
    mutex (.indexMtx i) ++ mutex (.indexMtx i) ++ compactSegments i pass

end Shards

section Calls

variable {n : ℕ}

structure FlushAll (n : ℕ) where
  flushes : Fin n → Flush
  logs : Fin n → ℕ → ℕ
  clears : Bool

/-- What a thread does at once: a command, a call of the sessions or of the boot, or what a
background thread does between two waits. `logged` is the WAL that gets the record, and whether the
command syncs. -/
inductive Call (n : ℕ) where
  | isAddressAllowed
  | users
  | authFailures
  | syncWAL
  | refused
  | answered
  | get (i : Fin n) (lookup : Lookup)
  | set (i : Fin n) (a : Append) (logged : Option (Fin n × Bool))
  | del (i : Fin n) (found : Bool) (logged : Option (Fin n × Bool))
  | getBy (reads : Fin n → List (Option ℕ)) (logs : Fin n → ℕ → ℕ)
  | setBy (puts : Fin n → List Append) (logs : Fin n → ℕ → ℕ) (logged : Option (Fin n × Bool))
  | setByLimit (logs : Fin n → ℕ → ℕ) (sets : List (Fin n × Append))
      (logged : Option (Fin n × Bool))
  | delBy (counts : Fin n → ℕ) (logs : Fin n → ℕ → ℕ) (logged : Option (Fin n × Bool))
  | delByLimit (logs : Fin n → ℕ → ℕ) (dels : List (Fin n × Bool)) (logged : Option (Fin n × Bool))
  | flush (f : FlushAll n)
  | reload (applied : Bool)
  | scfg (applied : Bool)
  | save (f : Option (FlushAll n))
  | stop (f : FlushAll n) (ends : Fin n → Option Flush)
  | openShard (i : Fin n) (removed : ℕ)
  | fillCache (i : Fin n) (reads : List (Option ℕ × Bool))
  | getCmds
  | replayed (f : FlushAll n)
  | compactor (i : Fin n) (pass : Option Pass) (goesOn : Bool)
  | flushThread (reads : Bool)
  | saveThread (reads : Bool)

def onPool (tasks : Fin n → Task n) : Code n := submit ((List.finRange n).map tasks)

def syncWAL : Code n := (List.finRange n).flatMap fun i => mutex (.walMtx i)

def clearAllWAL : Code n := (List.finRange n).flatMap fun i => mutex (.walMtx i)

def shardsFlush (f : FlushAll n) : Code n :=
  onPool (fun i => ⟨.flushData i (f.flushes i), f.logs i⟩) ++ if f.clears then clearAllWAL else []

def shardsReloadSettings : Code n := (List.finRange n).flatMap shardReloadSettings

def firstMatchingKeys (logs : Fin n → ℕ → ℕ) : Code n := onPool fun i => ⟨.matchingKeys i, logs i⟩

def appendToWAL (logged : Option (Fin n × Bool)) : Code n :=
  logged.toList.flatMap fun r => mutex (.walMtx r.1) ++ if r.2 then syncWAL else []

def shared (p : Code n) : Code n := under .writeMtx .shared p

def alone (p : Code n) : Code n := under .writeMtx .exclusive p

def createArchive (f : FlushAll n) : Code n :=
  underAll ((List.finRange n).map .compactionMtx) .shared (alone (shardsFlush f))

def Call.code : Call n → Code n
  | isAddressAllowed => shared []
  | users => under .usersMtx .shared []
  | authFailures => mutex .authFailuresMtx
  | syncWAL => Locks.syncWAL
  | refused => []
  | answered => shared []
  | get i lookup => shared (shardGet i lookup)
  | set i a logged => shared (shardSet i a ++ appendToWAL logged)
  | del i found logged => shared (shardDel i found ++ appendToWAL logged)
  | getBy reads logs => shared (onPool fun i => ⟨.getBy i (reads i), logs i⟩)
  | setBy puts logs logged =>
    shared (onPool (fun i => ⟨.setBy i (puts i), logs i⟩) ++ appendToWAL logged)
  | setByLimit logs sets logged =>
    shared (firstMatchingKeys logs ++ (sets.flatMap fun s => shardSet s.1 s.2) ++
      appendToWAL logged)
  | delBy counts logs logged =>
    shared (onPool (fun i => ⟨.delBy i (counts i), logs i⟩) ++ appendToWAL logged)
  | delByLimit logs dels logged =>
    shared (firstMatchingKeys logs ++ (dels.flatMap fun d => shardDel d.1 d.2) ++
      appendToWAL logged)
  | flush f => alone (shardsFlush f)
  | reload applied => alone
      (if applied then under .usersMtx .exclusive [] ++ shardsReloadSettings else [])
  | scfg applied => alone (if applied then shardsReloadSettings else [])
  | save f => f.toList.flatMap createArchive
  | stop f ends =>
    alone (shardsFlush f ++ (List.finRange n).flatMap fun i =>
      (ends i).toList.flatMap (shardFlushData i))
  | openShard i removed => mutex (.indexMtx i) ++ mutex (.indexMtx i) ++
      (List.range removed).flatMap fun _ => mutex (.indexMtx i)
  | fillCache i reads => mutex (.indexMtx i) ++
      reads.flatMap fun read => segmentRead i read.1 ++ if read.2 then mutex (.cacheMtx i) else []
  | getCmds => (List.finRange n).flatMap fun i => mutex (.walMtx i)
  | replayed f => shardsFlush f
  | compactor i pass goesOn =>
    under (.compactorThreadMtx i) .exclusive (pass.toList.flatMap (compactorTurn i) ++
      if goesOn then under (.readMtx i) .shared [] else [])
  | flushThread reads => under .flushThreadMtx .exclusive (if reads then shared [] else [])
  | saveThread reads => under .saveThreadMtx .exclusive (if reads then shared [] else [])

def Call.boots : Call n → Bool
  | openShard _ _ | fillCache _ _ | replayed _ => true
  | _ => false

end Calls

section Order

variable {n : ℕ}

/-- The order of the locks; the pool has its place before those that a task takes. -/
def rank : Mutex n → ℕ
  | .flushThreadMtx | .saveThreadMtx | .compactorThreadMtx _ => 0
  | .compactionMtx i => i + 1
  | .writeMtx => n + 1
  | .usersMtx | .authFailuresMtx => n + 2
  | .readMtx _ => n + 4
  | .cacheMtx _ | .storageMtx _ | .indexMtx _ | .walMtx _ => n + 5
  | .segmentMtx _ _ => n + 6

def partOf : Mutex n → Option (Fin n)
  | .cacheMtx i | .storageMtx i | .indexMtx i | .segmentMtx i _ => some i
  | _ => none

def partGuard (booting : Bool) (l : Mutex n) : List (Mutex n) :=
  match partOf l with
  | some i => if booting then [] else [.readMtx i]
  | none => []

/-- A thread is in a shard with the lock of the database, or as its compactor, and it waits for
tasks with the lock of the database; while the database is `booting` there are exceptions. -/
def guard (booting : Bool) : Option (Mutex n) → List (Mutex n)
  | none => if booting then [] else [.writeMtx]
  | some (.readMtx i) => [.writeMtx, .compactorThreadMtx i]
  | some l => partGuard booting l

def taskGuard : Option (Mutex n) → List (Mutex n)
  | none => []
  | some l => partGuard false l

def rules (n : ℕ) (booting : Bool) : Rules (Mutex n) where
  rank := rank
  pool := n + 3
  guard := guard booting
  taskGuard := taskGuard

def top (n : ℕ) : ℕ := n + 7

lemma rank_lt (l : Mutex n) : rank l < top n := by
  cases l <;> simp only [rank, top] <;> omega

lemma part_rank {l : Mutex n} {i : Fin n} (h : partOf l = some i) : n + 5 ≤ rank l := by
  cases l <;> simp only [partOf, rank] at h ⊢ <;> first | omega | cases h

/-- The rules inside a shard, for a thread and for a task. -/
structure Inside (r : Rules (Mutex n)) : Prop where
  rank : r.rank = Locks.rank
  floor : r.floor ≤ n + 4
  part : ∀ {l i}, partOf l = some i → r.guard (some l) = [] ∨ r.guard (some l) = [.readMtx i]

lemma Inside.covered {r : Rules (Mutex n)} (h : Inside r) {l : Mutex n} {i : Fin n}
    {needed : List (Mutex n)}
    (hl : partOf l = some i) (hread : .readMtx i ∈ needed) : r.Covered (some l) needed :=
  (h.part hl).imp_right fun heq => ⟨.readMtx i, by rw [heq]; exact List.mem_singleton_self _, hread⟩

lemma guard_part {l : Mutex n} {i : Fin n} (h : partOf l = some i) (booting : Bool) :
    guard booting (some l) = (if booting then [] else [.readMtx i]) ∧ taskGuard (some l) =
      [.readMtx i] := by
  cases l <;> cases h <;> exact ⟨rfl, rfl⟩

lemma thread_inside (booting : Bool) : Inside (rules n booting) := by
  refine ⟨rfl, Nat.zero_le _, fun {l i} h => ?_⟩
  have hguard := (guard_part h booting).1
  cases booting with
  | true => exact .inl hguard
  | false => exact .inr hguard

lemma task_inside (booting : Bool) : Inside (rules n booting).task :=
  ⟨rfl, le_rfl, fun h => .inr (guard_part h booting).2⟩

variable {r : Rules (Mutex n)} {low : ℕ} {needed : List (Mutex n)} {i : Fin n}

lemma part_balanced (h : Inside r) {l : Mutex n} (hl : partOf l = some i) (hlow : low ≤ rank l)
    (hread : .readMtx i ∈ needed) : Balanced r low needed (mutex l) := by
  have hrank := part_rank hl
  have hfloor := h.floor
  refine .under ?_ ?_ (h.covered hl hread) .nil
  · rw [h.rank]
    omega
  · rwa [h.rank]

lemma index_balanced (h : Inside r) (hread : .readMtx i ∈ needed) :
    Balanced r (n + 5) needed (mutex (.indexMtx i)) :=
  part_balanced h rfl le_rfl hread

lemma cache_balanced (h : Inside r) (hread : .readMtx i ∈ needed) :
    Balanced r (n + 5) needed (mutex (.cacheMtx i)) :=
  part_balanced h rfl le_rfl hread

lemma segments_balanced (h : Inside r) (hread : .readMtx i ∈ needed) (ids : List ℕ) :
    Balanced r (n + 6) needed (ids.flatMap fun id => mutex (.segmentMtx i id)) :=
  .flatMap fun _ _ => part_balanced h rfl le_rfl hread

lemma segmentRead_balanced (h : Inside r) (hread : .readMtx i ∈ needed) (segment : Option ℕ) :
    Balanced r (n + 5) needed (segmentRead i segment) :=
  (segments_balanced h hread segment.toList).mono (Nat.le_succ _) fun _ hl => hl

lemma storageAppend_balanced (h : Inside r) (hread : .readMtx i ∈ needed) (a : Append) :
    Balanced r (n + 5) needed (storageAppend i a) := by
  have hrank : r.rank (.storageMtx i) = n + 5 := by rw [h.rank]; rfl
  have hfloor := h.floor
  refine .under (by omega) (by omega) (h.covered rfl hread) ?_
  exact (segments_balanced h (List.mem_cons_of_mem _ hread) a.tried).mono (by omega) fun _ hl => hl

lemma put_balanced (h : Inside r) (hread : .readMtx i ∈ needed) (a : Append) :
    Balanced r (n + 5) needed (put i a) :=
  (storageAppend_balanced h hread a).append
    (.ite ((index_balanced h hread).append (cache_balanced h hread)) .nil)

lemma flushed_balanced (h : Inside r) (hread : .readMtx i ∈ needed) (f : Flush) :
    Balanced r (n + 5) needed (flushed i f) :=
  ((segments_balanced h hread f.segments).mono (Nat.le_succ _) fun _ hl => hl).append
    (.ite (index_balanced h hread) .nil)

lemma readMtx_balanced (h : Inside r) (hlow : low ≤ n + 4)
    (hc : r.Covered (some (.readMtx i)) needed) {mode : Mode}
    {p : Code n} (hp : Balanced r (n + 5) (.readMtx i :: needed) p) :
    Balanced r low needed (under (.readMtx i) mode p) := by
  have hrank : r.rank (.readMtx i) = n + 4 := by rw [h.rank]; rfl
  have hfloor := h.floor
  exact .under (by omega) (by omega) hc (by rwa [hrank])

section Read

variable (h : Inside r) (hlow : low ≤ n + 4) (hc : r.Covered (some (.readMtx i)) needed)

include h hlow hc

lemma shardGet_balanced (lookup : Lookup) : Balanced r low needed (shardGet i lookup) := by
  have hread : Mutex.readMtx i ∈ .readMtx i :: needed := List.mem_cons_self
  refine readMtx_balanced h hlow hc ((cache_balanced h hread).append ?_)
  cases lookup with
  | cached => exact .nil
  | missing => exact index_balanced h hread
  | found segment value =>
    exact ((index_balanced h hread).append (segmentRead_balanced h hread segment)).append
      (.ite (cache_balanced h hread) .nil)

lemma shardSet_balanced (a : Append) : Balanced r low needed (shardSet i a) :=
  readMtx_balanced h hlow hc (put_balanced h List.mem_cons_self a)

lemma shardDel_balanced (found : Bool) : Balanced r low needed (shardDel i found) := by
  have hread : Mutex.readMtx i ∈ .readMtx i :: needed := List.mem_cons_self
  exact readMtx_balanced h hlow hc
    (((cache_balanced h hread).append (index_balanced h hread)).append
    (.ite ((index_balanced h hread).append (cache_balanced h hread)) .nil))

lemma shardFlushData_balanced (f : Flush) : Balanced r low needed (shardFlushData i f) :=
  readMtx_balanced h hlow hc (flushed_balanced h List.mem_cons_self f)

lemma shardReloadSettings_balanced : Balanced r low needed (shardReloadSettings i) :=
  readMtx_balanced h hlow hc (cache_balanced h List.mem_cons_self)

end Read

lemma job_balanced (booting : Bool) (job : Job n) :
    Balanced (rules n booting).task 0 [] job.code := by
  have h := task_inside (n := n) booting
  have hc : ∀ i, (rules n booting).task.Covered (some (.readMtx i)) [] := fun i => .inl rfl
  have hindex : ∀ i, Balanced (rules n booting).task (n + 5) [.readMtx i] (mutex (.indexMtx i)) :=
    fun i => index_balanced h List.mem_cons_self
  cases job with
  | getBy i reads =>
    exact readMtx_balanced h (Nat.zero_le _) (hc i)
      ((hindex i).append (.flatMap fun segment _ =>
        segmentRead_balanced h List.mem_cons_self segment))
  | setBy i puts =>
    exact readMtx_balanced h (Nat.zero_le _) (hc i)
      ((hindex i).append (.flatMap fun a _ => put_balanced h List.mem_cons_self a))
  | delBy i count =>
    exact readMtx_balanced h (Nat.zero_le _) (hc i)
      ((hindex i).append (.flatMap fun _ _ =>
        (hindex i).append (cache_balanced h List.mem_cons_self)))
  | matchingKeys i => exact readMtx_balanced h (Nat.zero_le _) (hc i) (hindex i)
  | flushData i f => exact shardFlushData_balanced h (Nat.zero_le _) (hc i) f

lemma compactSegments_balanced (h : Inside r) (hread : .readMtx i ∈ needed) (pass : Pass) :
    Balanced r (n + 5) needed (compactSegments i pass) := by
  refine .append (.append (.flatMap fun m _ => ?_) (.flatMap fun f _ => flushed_balanced h hread f))
    (.ite (part_balanced h rfl le_rfl hread) .nil)
  exact (segmentRead_balanced h hread m.segment).append
    (.flatMap fun a _ =>
      (storageAppend_balanced h hread a).append (.ite (index_balanced h hread) .nil))

lemma under_balanced {booting : Bool} {l : Mutex n} {mode : Mode} {p : Code n} (hlow : low ≤ rank l)
    (hfree : guard booting (some l) = [])
    (hp : Balanced (rules n booting) (rank l + 1) (l :: needed) p) :
    Balanced (rules n booting) low needed (under l mode p) :=
  .under (Nat.zero_le _) hlow (.inl hfree) hp

lemma compactorTurn_balanced (booting : Bool) (pass : Pass)
    (hthread : .compactorThreadMtx i ∈ needed) :
    Balanced (rules n booting) 1 needed (compactorTurn i pass) := by
  have h := thread_inside (n := n) booting
  have hi := i.isLt
  refine under_balanced (show 1 ≤ i.val + 1 by omega) rfl
    (readMtx_balanced h (show i.val + 1 + 1 ≤ n + 4 by omega) ?_ ?_)
  · exact .inr ⟨.compactorThreadMtx i, by simp [rules, guard], List.mem_cons_of_mem _ hthread⟩
  · exact ((index_balanced h List.mem_cons_self).append
      (index_balanced h List.mem_cons_self)).append
      (compactSegments_balanced h List.mem_cons_self pass)

lemma wals_balanced (booting : Bool) (hlow : low ≤ n + 5) :
    Balanced (rules n booting) low needed ((List.finRange n).flatMap fun i => mutex (.walMtx i)) :=
  .flatMap fun _ _ => under_balanced hlow rfl .nil

lemma appendToWAL_balanced (booting : Bool) (hlow : low ≤ n + 5) (logged : Option (Fin n × Bool)) :
    Balanced (rules n booting) low needed (appendToWAL logged) :=
  .flatMap fun _ _ => (under_balanced hlow rfl .nil).append (.ite (wals_balanced booting hlow) .nil)

lemma onPool_balanced
    {booting : Bool} (hlow : low ≤ n + 3) (hc : (rules n booting).Covered none needed)
    (tasks : Fin n → Task n) : Balanced (rules n booting) low needed (onPool tasks) :=
  .submit _ (Nat.zero_le _) hlow hc

lemma shardsFlush_balanced
    {booting : Bool} (hlow : low ≤ n + 3) (hc : (rules n booting).Covered none needed)
    (f : FlushAll n) : Balanced (rules n booting) low needed (shardsFlush f) :=
  (onPool_balanced hlow hc _).append (.ite (wals_balanced booting (by omega)) .nil)

lemma database_balanced {booting : Bool} {mode : Mode} {p : Code n} (hlow : low ≤ n + 1)
    (hp : Balanced (rules n booting) (n + 2) [.writeMtx] p) :
    Balanced (rules n booting) low needed (under .writeMtx mode p) :=
  under_balanced hlow rfl (hp.mono le_rfl fun l hl => by
    rw [List.mem_singleton.mp hl]
    exact List.mem_cons_self)

lemma pool_covered (booting : Bool) : (rules n booting).Covered none [.writeMtx] := by
  cases booting with
  | true => exact .inl rfl
  | false => exact .inr ⟨.writeMtx, List.mem_cons_self, List.mem_cons_self⟩

lemma shard_covered (booting : Bool)
    (i : Fin n) : (rules n booting).Covered (some (.readMtx i)) [.writeMtx] :=
  .inr ⟨.writeMtx, List.mem_cons_self, List.mem_cons_self⟩

lemma createArchive_balanced (booting : Bool) (f : FlushAll n) :
    Balanced (rules n booting) 0 [] (createArchive f) := by
  have hflush : Balanced (rules n booting) (n + 1) [] (alone (shardsFlush f)) :=
    database_balanced le_rfl (shardsFlush_balanced (by omega) (pool_covered booting) f)
  refine .underAll (fun _ _ => Nat.zero_le _)
    (fun l hl => ?_) (Nat.zero_le _) ?_ (fun l hl => ?_) hflush
  · obtain ⟨i, -, rfl⟩ := List.mem_map.mp hl
    exact ⟨Nat.zero_le _, Nat.succ_lt_succ i.isLt⟩
  · exact List.pairwise_map.mpr ((List.pairwise_lt_finRange n).imp fun hlt => Nat.succ_lt_succ hlt)
  · obtain ⟨i, -, rfl⟩ := List.mem_map.mp hl
    rfl

lemma boot_balanced {booting : Bool}
    (hboot : booting = true ∨ true = false) {l : Mutex n} (hl : partOf l = some i)
    (hlow : low ≤ rank l) : Balanced (rules n booting) low needed (mutex l) := by
  rcases hboot with rfl | hfalse
  · exact under_balanced hlow (guard_part hl true).1 .nil
  · cases hfalse

/-- Every call takes its locks in the order, and only the flush after the replay uses the pool
without the lock of the database. -/
lemma call_balanced {booting : Bool} (c : Call n) (hc : booting = true ∨ c.boots = false) :
    Balanced (rules n booting) 0 [] c.code := by
  have h := thread_inside (n := n) booting
  have hpool := pool_covered (n := n) booting
  have hshard := shard_covered (n := n) booting
  have htasks : ∀ tasks, Balanced (rules n booting) (n + 2) [.writeMtx] (onPool tasks) :=
    fun tasks => onPool_balanced (by omega) hpool tasks
  have hwal : ∀ logged, Balanced (rules n booting) (n + 2) [.writeMtx] (appendToWAL logged) :=
    fun logged => appendToWAL_balanced booting (by omega) logged
  have hreload : Balanced (rules n booting) (n + 2) [.writeMtx] (shardsReloadSettings (n := n)) :=
    .flatMap fun i _ => shardReloadSettings_balanced h (by omega) (hshard i)
  cases c with
  | isAddressAllowed | answered => exact database_balanced (Nat.zero_le _) .nil
  | users | authFailures => exact under_balanced (Nat.zero_le _) rfl .nil
  | syncWAL | getCmds => exact wals_balanced booting (Nat.zero_le _)
  | refused => exact .nil
  | get i lookup =>
    exact database_balanced (Nat.zero_le _) (shardGet_balanced h (by omega) (hshard i) lookup)
  | set i a logged =>
    exact database_balanced (Nat.zero_le _)
      ((shardSet_balanced h (by omega) (hshard i) a).append (hwal logged))
  | del i found logged =>
    exact database_balanced (Nat.zero_le _)
      ((shardDel_balanced h (by omega) (hshard i) found).append (hwal logged))
  | getBy reads logs => exact database_balanced (Nat.zero_le _) (htasks _)
  | setBy puts logs logged =>
    exact database_balanced (Nat.zero_le _) ((htasks _).append (hwal logged))
  | setByLimit logs sets logged =>
    exact database_balanced (Nat.zero_le _) (((htasks _).append
      (.flatMap fun s _ => shardSet_balanced h (by omega) (hshard s.1) s.2)).append (hwal logged))
  | delBy counts logs logged =>
    exact database_balanced (Nat.zero_le _) ((htasks _).append (hwal logged))
  | delByLimit logs dels logged =>
    exact database_balanced (Nat.zero_le _) (((htasks _).append
      (.flatMap fun d _ => shardDel_balanced h (by omega) (hshard d.1) d.2)).append (hwal logged))
  | flush f => exact database_balanced (Nat.zero_le _) (shardsFlush_balanced (by omega) hpool f)
  | reload applied =>
    have husers : Balanced (rules n booting) (n + 2) [.writeMtx] (under .usersMtx .exclusive []) :=
      under_balanced le_rfl rfl .nil
    exact database_balanced (Nat.zero_le _) (.ite (husers.append hreload) .nil)
  | scfg applied => exact database_balanced (Nat.zero_le _) (.ite hreload .nil)
  | save f => exact .flatMap fun f _ => createArchive_balanced booting f
  | stop f ends =>
    exact database_balanced (Nat.zero_le _) ((shardsFlush_balanced (by omega) hpool f).append
      (.flatMap fun i _ => .flatMap fun f _ => shardFlushData_balanced h (by omega) (hshard i) f))
  | openShard i removed =>
    have hindex : Balanced (rules n booting) 0 [] (mutex (.indexMtx i)) :=
      boot_balanced hc rfl (Nat.zero_le _)
    exact (hindex.append hindex).append (.flatMap fun _ _ => hindex)
  | fillCache i reads =>
    have hpart : ∀ l, partOf l = some i → Balanced (rules n booting) 0 [] (mutex l) :=
      fun l hl => boot_balanced hc hl (Nat.zero_le _)
    exact (hpart _ rfl).append
      (.flatMap fun read _ => .append (.flatMap fun id _ => hpart _ rfl) (.ite (hpart _ rfl) .nil))
  | replayed f =>
    rcases hc with rfl | hc
    · exact shardsFlush_balanced (Nat.zero_le _) (.inl rfl) f
    · cases hc
  | compactor i pass goesOn =>
    have hthread : Mutex.compactorThreadMtx i ∈ ([.compactorThreadMtx i] : List (Mutex n)) :=
      List.mem_cons_self
    refine under_balanced (Nat.zero_le _) rfl
      (.append (.flatMap fun pass _ => compactorTurn_balanced booting pass hthread) (.ite ?_ .nil))
    exact readMtx_balanced h (show 1 ≤ n + 4 by omega)
      (.inr ⟨.compactorThreadMtx i, by simp [rules, guard], hthread⟩) .nil
  | flushThread reads | saveThread reads =>
    exact under_balanced (Nat.zero_le _) rfl
      (.ite (database_balanced (show 1 ≤ n + 1 by omega) .nil) .nil)

end Order

section Runs

variable {n : ℕ}

def Task.code (t : Task n) : List (Instr (Option (Mutex n)) (Task n)) := pad t.logs t.job.code

def threadCode (calls : List (Call n × (ℕ → ℕ))) : List (Instr (Option (Mutex n)) (Task n)) :=
  calls.flatMap fun c => pad c.2 c.1.code

abbrev State (n : ℕ) := System (Option (Mutex n)) (Task n)

/-- Any number of threads, and the workers of the pool. `holdsBack` is how `std::shared_mutex`
treats a reader while a writer waits. -/
def Reaches (holdsBack : State n → Option (Mutex n) → Bool)
    (threads : List (List (Call n × (ℕ → ℕ)))) (workers : ℕ) (s : State n) : Prop :=
  Relation.ReflTransGen (Goes Task.code holdsBack) (start (threads.map threadCode) workers) s

variable {holdsBack : State n → Option (Mutex n) → Bool} {threads : List (List (Call n × (ℕ → ℕ)))}
  {workers : ℕ} {s : State n}

lemma task_ordered (booting : Bool) (t : Task n) :
    Ordered ((rules n booting).under (top n)).task [] false t.code := by
  have h := (job_balanced booting t.job).ordered
  exact h.pad (show n + 3 + 1 ≤ top n by simp only [top]; omega) rank_lt t.logs (Rules.kept_nil _)

lemma threadCode_ordered {booting : Bool} {calls : List (Call n × (ℕ → ℕ))}
    (hc : booting = true ∨ ∀ c ∈ calls, c.1.boots = false) :
    Ordered ((rules n booting).under (top n)) [] false (threadCode calls) := by
  refine .flatMap fun c hmem => ?_
  have h := (call_balanced c.1 (hc.imp_right fun hc => hc c hmem)).ordered
  exact h.pad (Nat.zero_le _) rank_lt c.2 (Rules.kept_nil _)

lemma reaches_inv {booting : Bool} (hw : 0 < workers)
    (hc : booting = true ∨ ∀ calls ∈ threads, ∀ c ∈ calls, c.1.boots = false)
    (h : Reaches holdsBack threads workers s) : Inv ((rules n booting).under (top n)) s := by
  induction h with
  | refl =>
    refine start_inv hw fun p hp => ?_
    obtain ⟨calls, hcalls, rfl⟩ := List.mem_map.mp hp
    exact threadCode_ordered (hc.imp_right fun hc => hc calls hcalls)
  | tail _ hstep ih =>
    obtain ⟨i, hi⟩ := hstep
    exact ih.step (task_ordered booting) hi

/-- Whatever the commands, the sessions, the background threads, the replay and the end of the
database do, they never wait for each other for ever, even where readers wait behind a writer that
waits. Their own steps come to an end, with every task done and no lock held. -/
theorem no_deadlock (hw : 0 < workers) (hback : ∀ s l, holdsBack s l = true → System.wanted s l)
    (h : Reaches holdsBack threads workers s) :
    (∃ t, Relation.ReflTransGen (Goes Task.code holdsBack) s t ∧
      ∀ u, ¬ Goes Task.code holdsBack t u) ∧
      ∀ k t, Progress.Chain (Goes Task.code holdsBack) k s t → k ≤ workLeft Task.code s ∧
        ((∀ u, ¬ Goes Task.code holdsBack t u) → Done t ∧ ∀ a ∈ t.agents, a.held = []) := by
  have hinv : Inv ((rules n true).under (top n)) s := reaches_inv hw (.inl rfl) h
  have hprogress := goes_progress (r := (rules n true).under (top n)) (task_ordered true) hback
  obtain ⟨hends, hruns⟩ := hprogress.ends hinv
  refine ⟨hends, fun k t hk => ⟨(hruns k t hk).1, fun hstuck => ?_⟩⟩
  have hdone := (hruns k t hk).2 hstuck
  obtain ⟨hinv', -⟩ := hprogress.bounded hinv hk
  refine ⟨hdone, fun a ha => ?_⟩
  obtain ⟨pending, hok⟩ := hinv'.ok ha
  exact hok.held_of_done (hdone.1 a ha).1

def threeThreads : List (List (Call 2 × (ℕ → ℕ))) :=
  [[(.get (Fin.last 1) .missing, fun _ => 0)],
    [(.authFailures, fun _ => 0), (.flush ⟨fun _ => ⟨[1], true⟩, fun _ _ => 0, true⟩, fun _ => 0)],
    [(.getBy (fun _ => [some 1]) (fun _ _ => 0), fun _ => 0)]]

lemma threeThreads_reaches {holdsBack : State 2 → Option (Mutex 2) → Bool} {is : List ℕ}
    {s : State 2}
    (h : run Task.code holdsBack is (start (threeThreads.map threadCode) 2) = some s) :
    Reaches holdsBack threeThreads 2 s := goes_run h

theorem threeThreads_no_deadlock : ∃ s : State 2,
    run Task.code writersFirst [0, 0, 1, 1] (start (threeThreads.map threadCode) 2) = some s ∧
      (∃ t, Relation.ReflTransGen (Goes Task.code writersFirst) s t ∧
        ∀ u, ¬ Goes Task.code writersFirst t u) ∧
        ∀ k t, Progress.Chain (Goes Task.code writersFirst) k s t → k ≤ workLeft Task.code s ∧
          ((∀ u, ¬ Goes Task.code writersFirst t u) → Done t ∧ ∀ a ∈ t.agents, a.held = []) := by
  have hsome : (run Task.code writersFirst [0, 0, 1,
      1] (start (threeThreads.map threadCode) 2)).isSome = true := by decide
  obtain ⟨s, hs⟩ := Option.isSome_iff_exists.mp hsome
  exact ⟨s, hs, no_deadlock (by decide) (fun _ _ => writersFirst_wanted) (threeThreads_reaches hs)⟩

lemma covered_part {l : Mutex n} {k : Fin n} {a : Agent (Option (Mutex n)) (Task n)} {m : Mode}
    (hinv : Inv ((rules n false).under (top n)) s) (ha : a ∈ s.agents) (hl : partOf l = some k)
    (hheld : (some l, m) ∈ a.held) : ∃ m', (some (.readMtx k), m') ∈ a.held := by
  have hguard : (a.role.rules ((rules n false).under (top n))).guard (some (some l)) =
      [some (.readMtx k)] := by
    cases a.role with
    | thread => exact congrArg (List.map some) (guard_part hl false).1
    | worker serves => exact congrArg (List.map some) (guard_part hl false).2
  rcases hinv.covered ha hheld with hnone | ⟨g, hg, hmem⟩
  · rw [hguard] at hnone
    cases hnone
  · rw [hguard, List.mem_singleton] at hg
    obtain ⟨⟨x, m'⟩, hx, rfl⟩ := List.mem_map.mp hmem
    cases hg
    exact ⟨m', hx⟩

/-- Who is in the cache, the index, the storage or a segment of a shard holds the shard, and two
agents are there at the same time only as readers. -/
theorem shard_apart (hw : 0 < workers) (hboot : ∀ calls ∈ threads, ∀ c ∈ calls, c.1.boots = false)
    (h : Reaches holdsBack threads workers s) (k : Fin n) :
    (∀ a ∈ s.agents, ∀ l m, partOf l = some k → (some l, m) ∈ a.held →
      ∃ m', (some (.readMtx k), m') ∈ a.held) ∧
    ∀ (i j : ℕ) (a b : Agent (Option (Mutex n)) (Task n)), i ≠ j → s.agents[i]? = some a →
      s.agents[j]? = some b →
      ∀ l l' m m', partOf l = some k → partOf l' = some k → (some l, m) ∈ a.held →
        (some l', m') ∈ b.held →
        (some (.readMtx k), .shared) ∈ a.held ∧ (some (.readMtx k), .shared) ∈ b.held := by
  have hinv : Inv ((rules n false).under (top n)) s := reaches_inv hw (.inr hboot) h
  refine ⟨fun a ha l m hl hin => covered_part hinv ha hl hin,
    fun i j a b hne ha hb l l' m m' hl hl' hin hin' => ?_⟩
  obtain ⟨x, hx⟩ := covered_part hinv (List.mem_of_getElem? ha) hl hin
  obtain ⟨y, hy⟩ := covered_part hinv (List.mem_of_getElem? hb) hl' hin'
  obtain ⟨rfl, rfl⟩ := hinv.apart hne ha hb hx hy
  exact ⟨hx, hy⟩

lemma holds_at {ls : List (List (Option (Mutex n) × Mode))} (h : s.agents.map Agent.held = ls)
    {i : ℕ} {x : Option (Mutex n) × Mode} {xs : List (Option (Mutex n) × Mode)}
    (hi : ls[i]? = some (x :: xs)) :
    ∃ a, s.agents[i]? = some a ∧ x ∈ a.held := by
  rw [← h, List.getElem?_map] at hi
  obtain ⟨a, ha, heq⟩ := Option.map_eq_some_iff.mp hi
  exact ⟨a, ha, by rw [heq]; exact List.mem_cons_self⟩

/-- The first reader in the cache of the last shard, and a worker that searches its index. -/
theorem threeThreads_shard_apart : ∃ s : State 2,
    run Task.code (fun _ _ => false) [0, 0, 0, 2, 2, 2, 3, 4, 4, 4]
    (start (threeThreads.map threadCode) 2) = some s ∧
      ∃ a b, s.agents[0]? = some a ∧ s.agents[4]? = some b ∧
        (some (.cacheMtx 1), .exclusive) ∈ a.held ∧ (some (.indexMtx 1), .exclusive) ∈ b.held ∧
        (∃ m, (some (.readMtx 1), m) ∈ a.held) ∧
        (some (.readMtx 1), .shared) ∈ a.held ∧ (some (.readMtx 1), .shared) ∈ b.held := by
  have hrun : (run Task.code (fun _ _ => false) [0, 0, 0, 2, 2, 2, 3, 4, 4, 4]
      (start (threeThreads.map threadCode) 2)).map (fun s => s.agents.map Agent.held) =
        some [[(some (.cacheMtx 1), .exclusive), (some (.readMtx 1), .shared),
          (some .writeMtx, .shared)], [], [(some .writeMtx, .shared)], [],
          [(some (.indexMtx 1), .exclusive), (some (.readMtx 1), .shared)]] := by decide
  obtain ⟨s, hs, hheld⟩ := Option.map_eq_some_iff.mp hrun
  obtain ⟨a, ha, hina⟩ := holds_at (i := 0) hheld rfl
  obtain ⟨b, hb, hinb⟩ := holds_at (i := 4) hheld rfl
  have hapart := shard_apart (by decide) (by decide) (threeThreads_reaches hs) 1
  exact ⟨s, hs, a, b, ha, hb, hina, hinb, hapart.1 a (List.mem_of_getElem? ha) _ _ rfl hina,
    hapart.2 0 4 a b (by decide) ha hb _ _ _ _ rfl rfl hina hinb⟩

/-- While a thread has the database for itself, no other agent holds it, and the others in a shard
are workers with its own tasks, and the compactor of the shard. -/
theorem writer_alone (hw : 0 < workers) (hboot : ∀ calls ∈ threads, ∀ c ∈ calls, c.1.boots = false)
    (h : Reaches holdsBack threads workers s) {i j : ℕ} {a b : Agent (Option (Mutex n)) (Task n)}
    (hne : i ≠ j) (ha : s.agents[i]? = some a) (hb : s.agents[j]? = some b)
    (hwrite : (some .writeMtx, .exclusive) ∈ a.held) :
    (∀ m, (some .writeMtx, m) ∉ b.held) ∧ ∀ k m, (some (.readMtx k), m) ∈ b.held →
      b.role = .worker (some i) ∨ b.role = .thread ∧
      ∃ m', (some (.compactorThreadMtx k), m') ∈ b.held := by
  have hinv : Inv ((rules n false).under (top n)) s := reaches_inv hw (.inr hboot) h
  have honly : ∀ {j' c}, s.agents[j']? = some c → some (.writeMtx : Mutex n) ∈ c.held.map Prod.fst →
      j' = i := by
    intro j' c hc hmem
    by_contra hother
    obtain ⟨⟨x, m'⟩, hx, rfl⟩ := List.mem_map.mp hmem
    cases (hinv.apart (Ne.symm hother) ha hc hwrite hx).1
  refine ⟨fun m hm => hne (honly hb (List.mem_map.mpr ⟨_, hm, rfl⟩)).symm, fun k m hread => ?_⟩
  have hcovered := hinv.covered (List.mem_of_getElem? hb) hread
  cases hrole : b.role with
  | thread =>
    refine .inr ⟨rfl, ?_⟩
    rw [hrole] at hcovered
    rcases hcovered with hnone | ⟨g, hg, hmem⟩
    · cases hnone
    · rcases List.mem_cons.mp hg with rfl | hg
      · exact absurd (honly hb hmem).symm hne
      · cases List.mem_singleton.mp hg
        obtain ⟨⟨x, m'⟩, hx, rfl⟩ := List.mem_map.mp hmem
        exact ⟨m', hx⟩
  | worker serves =>
    cases serves with
    | none =>
      have hok := hinv.agents hb
      rw [hok.held_of_done (hok.idle hrole)] at hread
      cases hread
    | some i' =>
      obtain ⟨c, hc, -, hc', -⟩ :=
        hinv.owner (pending_iff.mpr (.inr ⟨b, List.mem_of_getElem? hb, hrole⟩))
      rcases hc' with hnone | ⟨g, hg, hmem⟩
      · cases hnone
      · cases List.mem_singleton.mp hg
        exact .inl (by rw [honly hc hmem])

theorem threeThreads_writer_alone : ∃ s : State 2,
    run Task.code (fun _ _ => false) [1, 1, 1, 1, 1, 3, 3] (start (threeThreads.map threadCode) 2) =
      some s ∧ ∃ b, s.agents[3]? = some b ∧ (some (.readMtx 0), .exclusive) ∈ b.held ∧
        (∀ m, (some .writeMtx, m) ∉ b.held) ∧ (b.role = .worker (some 1) ∨ b.role = .thread ∧
          ∃ m', (some (.compactorThreadMtx 0), m') ∈ b.held) := by
  have hrun : (run Task.code (fun _ _ => false) [1, 1, 1, 1, 1, 3, 3]
      (start (threeThreads.map threadCode) 2)).map (fun s => s.agents.map Agent.held) =
        some [[], [(some .writeMtx, .exclusive)], [], [(some (.readMtx 0), .exclusive)], []] := by
          decide
  obtain ⟨s, hs, hheld⟩ := Option.map_eq_some_iff.mp hrun
  obtain ⟨a, ha, hina⟩ := holds_at (i := 1) hheld rfl
  obtain ⟨b, hb, hinb⟩ := holds_at (i := 3) hheld rfl
  have halone := writer_alone (by decide) (by decide) (threeThreads_reaches hs)
    (by decide) ha hb hina
  exact ⟨s, hs, b, hb, hinb, halone.1, halone.2 0 _ hinb⟩

end Runs

end Zest.Locks
