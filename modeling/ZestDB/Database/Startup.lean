import ZestDB.Database.Clients
import ZestDB.Database.LogState
import ZestDB.Manager.Sequence
import ZestDB.Server.Framing

/-! The start of a process. The constructor opens its port before it replays the WALs, so the
commands of sessions run beside the replay, and both read the one flag `replaying`. -/

namespace Zest

open Foundations

namespace Startup

variable {n m : ℕ}

structure Sweep (n : ℕ) where
  toFlush : List (Fin n) := List.finRange n
  toClear : List (Fin n) := List.finRange n
deriving DecidableEq

/-- What a command has yet to do under `writeMtx`, which a write shares and a flush holds alone; a
write comes with the settings it was checked against. -/
inductive Work (n : ℕ) where
  | write (settings : Settings) (j : Clients.Job n)
  | flush (s : Sweep n)

/-- A write that is done with the shards: the shards flushed since then, and its record with the
records that were in the WALs before it. -/
structure Done (n : ℕ) where
  settings : Settings
  job : Clients.Job n
  flushed : Fin n → Bool := fun _ => false
  record : Option (WalEntry × List WalEntry) := none

/-- A command in hand. It is `logging` when `execCmd` has found the flag unset, `appending` when
`appendToWAL` has found it unset again, and `answering` when `execCmd` has succeeded and the WALs
have yet to be synced for the answer. -/
inductive Hand (n : ℕ) where
  | free
  | working (w : Work n)
  | logging (d : Done n)
  | appending (d : Done n)
  | answering (d : Done n) (toSync : List (Fin n))

/-- How far the constructor has come after it opened the port. -/
inductive Boot (n : ℕ) where
  | opened
  | reading (toRead : List (Fin n)) (allWalEntries : List WalEntry)
  | replaying (todo : List WalEntry)
  | flushing (s : Sweep n)
  | serving
deriving DecidableEq

inductive Deed (n : ℕ) where
  | turn (e : Clients.Turn n)
  | flush (i : Fin n) (ch : Choice)
  | clear (i : Fin n)

inductive Event (n m : ℕ) where
  | start (t : Fin m) (c : Call n)
  | work (o : Option (Fin m)) (d : Deed n)
  | finish (o : Option (Fin m))
  | check (t : Fin m)
  | append (t : Fin m)
  | sync (t : Fin m)
  | reply (t : Fin m)
  | compact (i : Fin n) (ch : Choice)
  | raise
  | read
  | sort
  | replay (ch : Choices n)
  | sweep
  | last (d : Deed n)
  | lower

namespace Sweep

def next (s : Sweep n) : Deed n → Option (Sweep n)
  | .flush i _ => if s.toFlush.contains i then
      some { s with toFlush := s.toFlush.filter (· ≠ i) } else none
  | .clear i => if s.toFlush = [] ∧ s.toClear.head? = some i then
      some { s with toClear := s.toClear.tail } else none
  | .turn _ => none

def finished (s : Sweep n) : Bool := s.toFlush.isEmpty && s.toClear.isEmpty

end Sweep

namespace Deed

def onShards : Deed n → Traced (ZestDB n) Unit
  | .flush i ch => ZestDB.onManager (ShardManager.onShard i (Shard.flushData ch))
  | .clear i => ZestDB.onManager
      (ShardManager.onShard i (.step fun s => { s with wal := s.wal.clear }))
  | .turn _ => pure ()

def flushes : Deed n → Fin n → Bool
  | .flush i _, j => j = i
  | _, _ => false

end Deed

/-- The step `d` of a command, with what is left of it; `none` is left of a write that failed. -/
def Work.act [NeZero n] (pf : Platform) (d : Deed n) :
    Work n → Option (Traced (ZestDB n) (Option (Work n)))
  | .write settings j =>
    match d with
    | .turn .record => none
    | .turn e => (j.turn pf e j.stage).map fun x => do
      let j ← x
      pure (j.map (.write settings))
    | _ => none
  | .flush s => (s.next d).map fun s => do
    d.onShards
    pure (some (.flush s))

def Work.alone : Work n → Bool
  | .write _ _ => false
  | .flush _ => true

def Done.after (d : Deed n) (w : Done n) : Done n :=
  { w with flushed := fun i => w.flushed i || d.flushes i }

lemma Done.after_flushed {d : Deed n} {w : Done n} {i : Fin n} (h : w.flushed i = true) :
    (w.after d).flushed i = true := by
  simp [Done.after, h]

namespace Hand

def left : Option (Work n) → Hand n
  | some w => working w
  | none => free

def isFree : Hand n → Bool
  | free => true
  | _ => false

def holds : Hand n → Bool
  | working _ | logging _ | appending _ => true
  | _ => false

def alone : Hand n → Bool
  | working w => w.alone
  | _ => false

def after (d : Deed n) : Hand n → Hand n
  | logging w => logging (w.after d)
  | appending w => appending (w.after d)
  | answering w toSync => answering (w.after d) toSync
  | h => h

def write? : Hand n → Option (Settings × Clients.Job n)
  | working (.write settings j) => some (settings, j)
  | logging d | appending d | answering d _ => some (d.settings, d.job)
  | _ => none

def done? : Hand n → Option (Done n)
  | logging d | appending d | answering d _ => some d
  | _ => none

def sweep? : Hand n → Option (Sweep n)
  | working (.flush sw) => some sw
  | _ => none

variable {d : Deed n} {x : Hand n}

@[simp] lemma after_holds (d : Deed n) (x : Hand n) : (x.after d).holds = x.holds := by
  cases x <;> rfl

@[simp] lemma after_alone (d : Deed n) (x : Hand n) : (x.after d).alone = x.alone := by
  cases x <;> rfl

@[simp] lemma after_write (d : Deed n) (x : Hand n) : (x.after d).write? = x.write? := by
  cases x <;> rfl

@[simp] lemma after_sweep (d : Deed n) (x : Hand n) : (x.after d).sweep? = x.sweep? := by
  cases x <;> rfl

@[simp] lemma after_done (d : Deed n) (x : Hand n) :
    (x.after d).done? = x.done?.map (Done.after d) := by
  cases x <;> rfl

lemma holds_of_alone (h : x.alone = true) : x.holds = true := by
  cases x with
  | working w => rfl
  | free | logging | appending | answering => cases h

lemma alone_of_sweep {sw : Sweep n} (h : x.sweep? = some sw) : x.alone = true := by
  cases x with
  | working w =>
    cases w with
    | write settings j => cases h
    | flush sw => rfl
  | free | logging | appending | answering => cases h

lemma done_of_sweep {sw : Sweep n} (h : x.sweep? = some sw) : x.done? = none := by
  cases x with
  | working w => rfl
  | free | logging | appending | answering => cases h

lemma after_answering {w : Done n} {toSync : List (Fin n)} (h : x.after d = .answering w toSync) :
    ∃ u, x = .answering u toSync ∧ w = u.after d := by
  cases x with
  | answering u toSync' =>
    obtain ⟨rfl, rfl⟩ := Hand.answering.inj h
    exact ⟨u, rfl, rfl⟩
  | free | working | logging | appending => cases h

end Hand

def exclusive (pf : Platform) (c : Call n) : Bool :=
  match ZestDB.asked pf c with
  | some (_, .flush) | some (_, .save) | some (_, .reload) | some (_, .scfg _ _) => true
  | _ => false

/-- `execCmd` up to the first lock of a shard for a write and a flush, to its end for other
commands. -/
def takeUp [NeZero n] (pf : Platform) (c : Call n) : Traced (ZestDB n) (Option (Work n)) :=
  match ZestDB.asked pf c with
  | some (key, .write w) => do
    let db ← .get
    pure (if ZestDB.refusal pf db.settings (!db.replaying) w = none then
      some (.write db.settings ⟨c, key, w, .first w⟩)
      else none)
  | some (_, .flush) | some (_, .save) => pure (some (.flush {}))
  | _ => do
    let _ ← ZestDB.execCmd pf c
    pure none

end Startup

open Startup in
/-- The database with the commands in hand: one for each `some t`, and the one that is replayed for
`none`. A session that answers several commands together has as many in hand. -/
structure Startup (n m : ℕ) where
  db : ZestDB n
  boot : Boot n
  hands : Option (Fin m) → Hand n

namespace Startup

variable {n m : ℕ} [NeZero n]

def start (config : ConfigFile) (settings : Settings) (ch fill : Choices n)
    (disks : Fin n → Shard.Disk) : Startup n m where
  db := ZestDB.construct config settings ch fill disks
  boot := .opened
  hands _ := .free

def withHand (s : Startup n m) (o : Option (Fin m)) (h : Hand n) : Startup n m :=
  { s with hands := Function.update s.hands o h }

omit [NeZero n] in
@[simp] lemma withHand_hands (s : Startup n m) (o o' : Option (Fin m)) (x : Hand n) :
    (s.withHand o x).hands o' = if o' = o then x else s.hands o' := Function.update_apply _ _ _ _

def Admits (pf : Platform) (s : Startup n m) (c : Call n) : Prop :=
  ∀ o : Option (Fin m), if exclusive pf c then (s.hands o).holds = false else (s.hands o).alone =
    false

instance (pf : Platform) (s : Startup n m) (c : Call n) : Decidable (s.Admits pf c) :=
  inferInstanceAs (Decidable (∀ o : Option (Fin m),
    if exclusive pf c then (s.hands o).holds = false else (s.hands o).alone = false))

def take (pf : Platform) (s : Startup n m) (o : Option (Fin m)) (c : Call n) :
    Option (Startup n m) :=
  if (s.hands o).isFree ∧ s.Admits pf c then
    let r := takeUp pf c s.db
    some ({ s with db := r.final }.withHand o (.left r.val))
  else none

def mark (s : Startup n m) (d : Deed n) (db : ZestDB n) : Startup n m :=
  { s with db := db, hands := fun o => (s.hands o).after d }

/-- The end of `execCmd` up to the log, where it reads the flag again. -/
def finish (s : Startup n m) (o : Option (Fin m)) : Option (Startup n m) :=
  match s.hands o with
  | .working (.write settings j) =>
    if j.stage.ended then
      some (s.withHand o (if !s.db.replaying then .logging ⟨settings, j, fun _ => false, none⟩
        else if o.isSome then .answering ⟨settings, j, fun _ => false, none⟩ (List.finRange n)
        else .free))
    else none
  | .working (.flush sw) => if sw.finished then some (s.withHand o .free) else none
  | _ => none

def step (pf : Platform) (s : Startup n m) : Event n m → Option (Startup n m)
  | .start t c => if c.command.length ≤ MAX_PAYLOAD_SIZE then s.take pf (some t) c else none
  | .work o d =>
    match s.hands o with
    | .working w => (w.act pf d).map fun x =>
      (s.mark d (x s.db).final).withHand o (.left (x s.db).val)
    | _ => none
  | .finish o => s.finish o
  | .check t =>
    match s.hands (some t) with
    | .logging d => some
        (s.withHand (some t) (if s.db.replaying then
          .answering d (List.finRange n) else .appending d))
    | _ => none
  | .append t =>
    match s.hands (some t) with
    | .appending d => some ({ s with
        db := (ZestDB.onManager
          (ShardManager.appendToWAL pf d.job.key d.job.call.command) s.db).final }.withHand (some t)
        (.answering { d with
          record := some (s.db.shardManager.record d.job.call.command,
            s.db.shardManager.walEntries) } (List.finRange n)))
    | _ => none
  | .sync t =>
    match s.hands (some t) with
    | .answering d (i :: toSync) => some ({ s with
        db := { s.db with shardManager := s.db.shardManager.onWal WAL.sync i } }.withHand (some t)
          (.answering d toSync))
    | _ => none
  | .reply t =>
    match s.hands (some t) with
    | .answering _ [] => some (s.withHand (some t) .free)
    | _ => none
  | .compact i ch => some { s with
      db := (ZestDB.onManager (ShardManager.onShard i (Shard.compactorPass ch)) s.db).final }
  | .raise =>
    match s.boot with
    | .opened =>
      some { s with db := { s.db with replaying := true }, boot := .reading (List.finRange n) [] }
    | _ => none
  | .read =>
    match s.boot with
    | .reading (i :: toRead) allWalEntries => some { s with
        boot := .reading toRead (allWalEntries ++ (s.db.shardManager.shards i).wal.getCmds) }
    | _ => none
  | .sort =>
    match s.boot with
    | .reading [] allWalEntries =>
      let sorted := allWalEntries.insertionSort fun a b => a.seq ≤ b.seq
      some { s with
        db := { s.db with shardManager := ShardManager.advanceAll sorted s.db.shardManager }
        boot := .replaying sorted }
    | _ => none
  | .replay ch =>
    match s.boot with
    | .replaying (entry :: todo) =>
      ({ s with boot := .replaying todo }).take pf none { command := entry.cmd, choices := ch }
    | _ => none
  | .sweep =>
    match s.boot with
    | .replaying [] => if (s.hands none).isFree then some { s with boot := .flushing {} } else none
    | _ => none
  | .last d =>
    match s.boot with
    | .flushing sw => (sw.next d).map fun sw =>
      { s.mark d (d.onShards s.db).final with boot := .flushing sw }
    | _ => none
  | .lower =>
    match s.boot with
    | .flushing sw =>
      if sw.finished then some
        { s with db := { s.db with replaying := false }, boot := .serving } else none
    | _ => none

section Work

variable {pf : Platform} {db : ZestDB n} {c : Call n} {d : Deed n} {w w' : Work n}
  {sw sw' : Sweep n} {j j' : Clients.Job n} {settings : Settings}

lemma takeUp_cases (pf : Platform) (c : Call n) :
    (∃ key v, ZestDB.asked pf c = some (key, .write v) ∧ exclusive pf c = false ∧
      takeUp pf c = .get >>= fun db =>
      pure (if ZestDB.refusal pf db.settings (!db.replaying) v = none then
        some (.write db.settings ⟨c, key, v, .first v⟩)
        else none)) ∨
    (exclusive pf c = true ∧ takeUp pf c = pure (some (.flush {})) ∧
      ∀ db, (ZestDB.execCmd pf c db).final = (ZestDB.flush c.choices db).final) ∨
    (Traced.Keeps ZestDB.logState (ZestDB.execCmd pf c) ∧
      takeUp pf c = ZestDB.execCmd pf c >>= fun _ => pure none) := by
  simp only [takeUp, exclusive]
  cases ha : ZestDB.asked pf c with
  | none =>
    obtain ⟨message, he⟩ := ZestDB.execCmd_none ha
    rw [he]
    exact Or.inr (Or.inr ⟨.pure _, rfl⟩)
  | some kr =>
    obtain ⟨key, req⟩ := kr
    rw [ZestDB.execCmd_some ha]
    cases req with
    | write v => exact Or.inl ⟨key, v, rfl, rfl, rfl⟩
    | flush | save => exact Or.inr (Or.inl ⟨rfl, rfl, fun _ => rfl⟩)
    | get k => exact Or.inr (Or.inr ⟨.bind (ZestDB.get_keeps pf k) fun _ => .pure _, rfl⟩)
    | getBy valid => exact Or.inr (Or.inr ⟨.bind .get fun _ => .pure _, rfl⟩)
    | help => exact Or.inr (Or.inr ⟨.pure _, rfl⟩)
    | reload => exact Or.inr (Or.inr ⟨.bind (ZestDB.reloadConfig_keeps pf) fun _ => .pure _, rfl⟩)
    | scfg param value => exact Or.inr (Or.inr ⟨ZestDB.scfg_keeps pf _ param value, rfl⟩)
    | gcfg => exact Or.inr (Or.inr ⟨.bind .get fun _ => .pure _, rfl⟩)

lemma takeUp_keeps (pf : Platform) (c : Call n) : Traced.Keeps ZestDB.logState (takeUp pf c) := by
  rcases takeUp_cases pf c with ⟨key, v, -, -, htake⟩ | ⟨-, htake, -⟩ | ⟨hkeeps, htake⟩
  · rw [htake]
    exact .bind .get fun _ => .pure _
  · rw [htake]
    exact .pure _
  · rw [htake]
    exact .bind hkeeps fun _ => .pure _

lemma takeUp_val (h : (takeUp pf c db).val = some w) :
    (exclusive pf c = false ∧ ∃ key v, ZestDB.asked pf c = some (key, .write v) ∧
      ZestDB.refusal pf db.settings (!db.replaying) v = none ∧
      w = .write db.settings ⟨c, key, v, .first v⟩) ∨ (exclusive pf c = true ∧ w = .flush {}) := by
  rcases takeUp_cases pf c with ⟨key, v, ha, hx, htake⟩ | ⟨hx, htake, -⟩ | ⟨-, htake⟩
  · rw [htake, Traced.get_bind, Traced.pure_run] at h
    simp only at h
    split_ifs at h with hr
    exact Or.inl ⟨hx, key, v, ha, hr, (Option.some.inj h).symm⟩
  · rw [htake] at h
    exact Or.inr ⟨hx, (Option.some.inj h).symm⟩
  · rw [htake] at h
    cases h

lemma turn_spec {e : Clients.Turn n} {st : Clients.Stage n}
    {x : Traced (ZestDB n) (Option (Clients.Job n))}
    (he : e ≠ .record) (h : j.turn pf e st = some x) :
    Traced.Keeps ZestDB.logState x ∧ ∀ db j', (x db).val = some j' → j'.call = j.call ∧
    j'.write = j.write := by
  cases e with
  | single =>
    cases st with
    | single =>
      obtain rfl := Option.some.inj h
      refine ⟨.bind (ZestDB.onManager_keeps (ShardManager.write_keeps pf _ _)) fun _ => .pure _,
        fun db j' hj => ?_⟩
      change (if _ then _ else _) = some j' at hj
      split_ifs at hj
      obtain rfl := Option.some.inj hj
      exact ⟨rfl, rfl⟩
    | tasks | search | keys => cases h
  | task i =>
    cases st with
    | tasks todo =>
      simp only [Clients.Job.turn] at h
      split_ifs at h
      obtain rfl := Option.some.inj h
      have htask : Traced.Keeps Shard.wal (j.task i) := by
        cases hw : j.write with
        | set | del =>
          simp only [Clients.Job.task, hw]
          exact .pure _
        | setBy valid value =>
          simp only [Clients.Job.task, hw]
          exact Shard.setBy_keeps _ _ _ _
        | delBy valid =>
          simp only [Clients.Job.task, hw]
          exact Shard.delBy_keeps _ _ _
      refine ⟨.bind (ZestDB.onManager_keeps (ShardManager.onShard_keeps htask i)) fun _ => .pure _,
        fun db j' hj => ?_⟩
      obtain rfl := Option.some.inj hj
      exact ⟨rfl, rfl⟩
    | single | search | keys => cases h
  | search i =>
    cases st with
    | search valid found =>
      simp only [Clients.Job.turn] at h
      split_ifs at h
      obtain rfl := Option.some.inj h
      refine ⟨.bind .get fun _ => .pure _, fun db j' hj => ?_⟩
      obtain rfl := Option.some.inj hj
      exact ⟨rfl, rfl⟩
    | single | tasks | keys => cases h
  | choose =>
    cases st with
    | search valid found =>
      simp only [Clients.Job.turn] at h
      split_ifs at h
      obtain rfl := Option.some.inj h
      refine ⟨.pure _, fun db j' hj => ?_⟩
      obtain rfl := Option.some.inj hj
      exact ⟨rfl, rfl⟩
    | single | tasks | keys => cases h
  | key =>
    cases st with
    | keys todo =>
      cases todo with
      | nil => cases h
      | cons key todo =>
        obtain rfl := Option.some.inj h
        refine ⟨.bind (ZestDB.onManager_keeps (ShardManager.write_keeps pf _ _)) fun _ => .pure _,
          fun db j' hj => ?_⟩
        obtain rfl := Option.some.inj hj
        exact ⟨rfl, rfl⟩
    | single | tasks | search => cases h
  | record => exact absurd rfl he

lemma act_turn (pf : Platform) (settings : Settings) (j : Clients.Job n) {e : Clients.Turn n}
    (he : e ≠ .record) :
    (Work.write settings j).act pf (.turn e) =
      (j.turn pf e j.stage).map fun x => x >>= fun j => pure (j.map (Work.write settings)) := by
  cases e with
  | record => exact absurd rfl he
  | single | task | search | choose | key => rfl

lemma act_write {x : Traced (ZestDB n) (Option (Work n))}
    (h : (Work.write settings j).act pf d = some x) :
    Traced.Keeps ZestDB.logState x ∧ (∀ i, d.flushes i = false) ∧
      ∀ db w, (x db).val = some w → ∃ j', w = .write settings j' ∧ j'.call = j.call ∧
        j'.write = j.write := by
  cases d with
  | turn e =>
    have he : e ≠ .record := by
      rintro rfl
      cases h
    rw [act_turn _ _ _ he] at h
    obtain ⟨y, hy, rfl⟩ := Option.map_eq_some_iff.mp h
    obtain ⟨hkeeps, hjob⟩ := turn_spec he hy
    refine ⟨.bind hkeeps fun _ => .pure _, fun _ => rfl, fun db w hw => ?_⟩
    obtain ⟨j', hj', rfl⟩ := Option.map_eq_some_iff.mp hw
    exact ⟨j', rfl, hjob db j' hj'⟩
  | flush | clear => cases h

end Work

end Startup

end Zest
