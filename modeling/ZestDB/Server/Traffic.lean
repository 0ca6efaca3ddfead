import ZestDB.Shard.OnDisk
import ZestDB.Server.Session

/-! The sessions, the flusher and the compactors side by side: the tasks that wait for the lock of a
shard, the commands that share `writeMtx` and the flush that takes it alone, and the WALs, which
have locks of their own. -/

namespace Zest

open Foundations

namespace Shard.Exclusive

instance (op : Exclusive) : Decidable op.Checked :=
  match op with
  | .set key value =>
    decidable_of_iff (key.length ≤ MAX_KEY_SIZE ∧ value ≠ [] ∧ value.length < 2 ^ 32)
      ⟨fun h => ⟨h.1, h.2.1, h.2.2⟩, fun h => ⟨h.1, h.2.ne_nil, h.2.length⟩⟩
  | .setBy _ _ value _ =>
    decidable_of_iff (value ≠ [] ∧ value.length < 2 ^ 32)
    ⟨fun h => ⟨h.1, h.2⟩, fun h => ⟨h.ne_nil, h.length⟩⟩
  | .del _ | .delBy _ _ _ | .compact _ | .flush _ | .reloadSettings _ => .isTrue trivial

def Touches (key : Key) : Exclusive → Prop
  | .set k _ | .del k => key = k
  | .setBy _ valid _ _ | .delBy _ valid _ => valid.func key = true
  | _ => False

end Shard.Exclusive

namespace Traffic

variable {n m : ℕ}

structure Task (n : ℕ) where
  shard : Fin n
  op : Shard.Exclusive

inductive Purpose (n : ℕ) where
  | write (command : Bytes) (tasks : List (Task n))
  | flush
  | reload
  | compact

/-- What a thread is doing: tasks it has yet to start, WALs it has yet to clear or to sync. -/
inductive Activity (n : ℕ) where
  | ready
  | running (purpose : Purpose n) (todo : List (Task n))
  | clearing (todo : List (Fin n))
  | syncing (todo : List (Fin n))

namespace Activity

def alone : Activity n → Bool
  | running .flush _ | running .reload _ | clearing _ => true
  | _ => false

def holds : Activity n → Bool
  | running .compact _ => false
  | running _ _ | clearing _ => true
  | _ => false

end Activity

/-- A write command that succeeded: its record, the WAL it went to, how many records were appended
before it, and the tasks it ran. -/
structure Done (n : ℕ) where
  entry : WalEntry
  wal : Fin n
  rank : ℕ
  tasks : List (Task n)

def Done.Touches (d : Done n) (key : Key) : Prop := ∃ task ∈ d.tasks, task.op.Touches key

structure Thread (n : ℕ) where
  activity : Activity n := .ready
  batch : List (Done n) := []

/-- The operation that holds the lock of a shard, by the states it has yet to go through. -/
structure Job (m : ℕ) where
  owner : Fin m
  rest : List Shard

end Traffic

open Traffic in
/-- Time is the number of records appended so far: `cleared` has the last time a WAL was cleared,
and `history` the maps of a shard between two of its operations. -/
structure Traffic (n m : ℕ) where
  manager : ShardManager n
  jobs : Fin n → Option (Job m)
  threads : Fin m → Thread n
  logged : ℕ
  cleared : Fin n → ℕ
  history : Fin n → List (ℕ × Store)

namespace Traffic

variable {n m : ℕ}

inductive Event (n m : ℕ) where
  | write (t : Fin m) (command : Bytes) (choices : Choices n) (chosen : List Key)
  | flush (t : Fin m) (choices : Choices n)
  | reload (t : Fin m) (settings : Settings)
  | compact (t : Fin m) (i : Fin n) (ch : Choice)
  | launch (t : Fin m) (j : ℕ)
  | work (i : Fin n)
  | finish (i : Fin n)
  | append (t : Fin m)
  | leave (t : Fin m)
  | clear (t : Fin m)
  | sync (t : Fin m)
  | reply (t : Fin m)
  | get (i : Fin n) (key : Key)

def start (sm : ShardManager n) : Traffic n m where
  manager := sm
  jobs _ := none
  threads _ := {}
  logged := 0
  cleared _ := 0
  history i := [(0, (sm.shards i).toMap)]

def withActivity (s : Traffic n m) (t : Fin m) (activity : Activity n) : Traffic n m :=
  { s with threads := Function.update s.threads t { s.threads t with activity := activity } }

def withShard (s : Traffic n m) (i : Fin n) (shard : Shard) : Traffic n m :=
  { s with manager := s.manager.setShard i shard }

def busy (s : Traffic n m) (t : Fin m) : Bool :=
  (List.finRange n).any fun i => (s.jobs i).any fun job => job.owner = t

def begin (s : Traffic n m) (t : Fin m) (i : Fin n) (op : Shard.Exclusive) : Traffic n m :=
  let o := op.run (s.manager.shards i)
  { s with jobs := Function.update s.jobs i (some ⟨t, o.visited ++ [o.final]⟩) }

/-- The lock of the shard is free, and the operation stays within the limits of its files. -/
def Admits (s : Traffic n m) (i : Fin n) (op : Shard.Exclusive) : Prop :=
  (s.jobs i).isNone ∧ op.Checked ∧ Traced.Within Shard.Bounded op.run (s.manager.shards i)

instance (s : Traffic n m) (i : Fin n) (op : Shard.Exclusive) : Decidable (s.Admits i op) :=
  inferInstanceAs (Decidable (_ ∧ _ ∧ _))

variable [NeZero n]

/-- The tasks of a write. A write with a limit runs one for each key that `firstMatchingKeys`
chose. -/
def tasksOf (pf : Platform) (choices : Choices n) (chosen : List Key) : Write → List (Task n)
  | .set key value => [⟨ShardManager.getShardId pf key, .set key value⟩]
  | .del key => [⟨ShardManager.getShardId pf key, .del key⟩]
  | .setBy valid value =>
    if valid.limit ≠ UINT_MAX then
      chosen.map fun key => ⟨ShardManager.getShardId pf key, .set key value⟩
    else (List.finRange n).map fun i => ⟨i, .setBy (choices.shard i) valid value (some 0)⟩
  | .delBy valid =>
    if valid.limit ≠ UINT_MAX then chosen.map fun key => ⟨ShardManager.getShardId pf key, .del key⟩
    else (List.finRange n).map fun i => ⟨i, .delBy (choices.shard i) valid (some 0)⟩

def walKey (command : Bytes) : Key := ((words command)[1]?.map Word.text).getD []

def step (pf : Platform) (s : Traffic n m) : Event n m → Option (Traffic n m)
  | .write t command choices chosen =>
    match (s.threads t).activity, writeOf pf command with
    | .ready, some w =>
      if (∀ u, (s.threads u).activity.alone = false) ∧ command.length ≤ MAX_PAYLOAD_SIZE then
        let tasks := tasksOf pf choices chosen w
        some (s.withActivity t (.running (.write command tasks) tasks))
      else none
    | _, _ => none
  | .flush t choices =>
    match (s.threads t).activity with
    | .ready =>
      if ∀ u, (s.threads u).activity.holds = false then
        some (s.withActivity t
          (.running .flush ((List.finRange n).map fun i => ⟨i, .flush (choices.shard i)⟩)))
      else none
    | _ => none
  | .reload t settings =>
    match (s.threads t).activity with
    | .ready =>
      if ∀ u, (s.threads u).activity.holds = false then
        some (s.withActivity t
          (.running .reload ((List.finRange n).map fun i => ⟨i, .reloadSettings settings⟩)))
      else none
    | _ => none
  | .compact t i ch =>
    match (s.threads t).activity with
    | .ready => if s.Admits i (.compact ch) then
        some ((s.begin t i (.compact ch)).withActivity t (.running .compact [])) else none
    | _ => none
  | .launch t j =>
    match (s.threads t).activity with
    | .running purpose todo =>
      match todo[j]? with
      | some task =>
        if s.Admits task.shard task.op then
          some ((s.begin t task.shard task.op).withActivity t (.running purpose (todo.eraseIdx j)))
        else none
      | none => none
    | _ => none
  | .work i =>
    match s.jobs i with
    | some ⟨t, u :: rest⟩ =>
      some { s.withShard i { u with wal := (s.manager.shards i).wal
        } with jobs := Function.update s.jobs i (some ⟨t, rest⟩) }
    | _ => none
  | .finish i =>
    match s.jobs i with
    | some ⟨_, []⟩ =>
      some { s with
        jobs := Function.update s.jobs i none
        history := Function.update s.history i
          (s.history i ++ [(s.logged, (s.manager.shards i).toMap)]) }
    | _ => none
  | .append t =>
    match (s.threads t).activity with
    | .running (.write command tasks) [] =>
      if s.busy t then none
      else
        let done : Done n :=
          ⟨⟨command, s.manager.nextSeq⟩, ShardManager.getShardId pf (walKey command),
            s.logged, tasks⟩
        some { s with
          manager := (ShardManager.appendToWAL pf (walKey command) command s.manager).final
          threads := Function.update s.threads t ⟨.ready, (s.threads t).batch ++ [done]⟩
          logged := s.logged + 1 }
    | _ => none
  | .leave t =>
    match (s.threads t).activity with
    | .running purpose [] =>
      if s.busy t then none
      else
        match purpose with
        | .flush => some (s.withActivity t (.clearing (List.finRange n)))
        | _ => some (s.withActivity t .ready)
    | _ => none
  | .clear t =>
    match (s.threads t).activity with
    | .clearing (i :: todo) =>
      let shard := s.manager.shards i
      let cleared : Traffic n m := { s with cleared := Function.update s.cleared i s.logged }
      some ((cleared.withShard i { shard with wal := shard.wal.clear }).withActivity t
        (.clearing todo))
    | .clearing [] => some (s.withActivity t .ready)
    | _ => none
  | .sync t =>
    match (s.threads t).activity with
    | .ready => some (s.withActivity t (.syncing (List.finRange n)))
    | .syncing (i :: todo) =>
      let shard := s.manager.shards i
      some ((s.withShard i { shard with wal := shard.wal.sync }).withActivity t (.syncing todo))
    | _ => none
  | .reply t =>
    match (s.threads t).activity with
    | .syncing [] => some { s with threads := Function.update s.threads t ⟨.ready, []⟩ }
    | _ => none
  | .get i key => if (s.jobs i).isNone then
      some (s.withShard i ((s.manager.shards i).get key).2) else none

end Traffic

end Zest
