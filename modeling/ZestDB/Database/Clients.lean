import ZestDB.Database.Replay
import Mathlib.Logic.Relation

/-! Clients whose writes run at the same time. A write holds `writeMtx` shared from its checks to
its record, and each of its turns takes one lock: a task or a search that of a shard, a record that
of a WAL. -/

namespace Zest

open Foundations

def Write.one : Write → Key → Write
  | .setBy _ value, key => .set key value
  | .delBy _, key => .del key
  | w, _ => w

namespace Clients

variable {n m : ℕ}

/-- What is left of a write: the operation on its only key, tasks of shards, the search for the
first matching keys, or keys. The write is over when no task or key is left. -/
inductive Stage (n : ℕ) where
  | single
  | tasks (todo : List (Fin n))
  | search (valid : ValidationRule) (found : Fin n → Option (List Key))
  | keys (todo : List Key)

namespace Stage

def first : Write → Stage n
  | .set _ _ => single
  | .del _ => single
  | .setBy valid _ => if valid.limit ≠ UINT_MAX then search valid fun _ =>
    none else tasks (List.finRange n)
  | .delBy valid => if valid.limit ≠ UINT_MAX then search valid fun _ =>
    none else tasks (List.finRange n)

def ended : Stage n → Bool
  | tasks [] => true
  | keys [] => true
  | _ => false

end Stage

/-- A write that passed the checks; its record goes to the WAL of the shard of `key`. -/
structure Job (n : ℕ) where
  call : Call n
  key : Bytes
  write : Write
  stage : Stage n

inductive Turn (n : ℕ) where
  | single
  | task (i : Fin n)
  | search (i : Fin n)
  | choose
  | key
  | record

namespace Job

def withStage (j : Job n) (stage : Stage n) : Job n := { j with stage := stage }

def choices (j : Job n) : Choices n := j.call.choices

def task (j : Job n) (i : Fin n) : Traced Shard (ResultType × Option ℕ) :=
  match j.write with
  | .setBy valid value => Shard.setBy (j.choices.shard i) valid value (some 0)
  | .delBy valid => Shard.delBy (j.choices.shard i) valid (some 0)
  | _ => pure (Shard.modified 0, some 0)

def chosen (j : Job n) (valid : ValidationRule) (found : Fin n → Option (List Key)) : List Key :=
  (j.choices.own.firstKeys valid.limit
    ((List.finRange n).flatMap fun i => (found i).getD [])).insertionSort (· ≤ ·)

/-- What a turn does, and the job that is left; `none` when it is not the job's turn. -/
def turn [NeZero n] (pf : Platform) (j : Job n) :
    Turn n → Stage n → Option (Traced (ZestDB n) (Option (Job n)))
  | .single, .single => some do
    let r ← ZestDB.onManager (ShardManager.write pf j.choices j.write)
    pure (if r.code = .Success then some (j.withStage (.keys [])) else none)
  | .task i, .tasks todo =>
    if i ∈ todo then some do
      let _ ← ZestDB.onManager (ShardManager.onShard i (j.task i))
      pure (some (j.withStage (.tasks (todo.filter (· ≠ i)))))
    else none
  | .search i, .search valid found =>
    if found i = none then some do
      let db ← .get
      let keys := (db.shardManager.shards i).matchingKeys (j.choices.shard i) valid
      pure (some (j.withStage (.search valid (Function.update found i (some keys)))))
    else none
  | .choose, .search valid found =>
    if ∀ i, (found i).isSome then
      some (pure (some (j.withStage (.keys (j.chosen valid found))))) else none
  | .key, .keys (key :: todo) => some do
    let _ ← ZestDB.onManager (ShardManager.write pf j.choices (j.write.one key))
    pure (some (j.withStage (.keys todo)))
  | .record, stage =>
    if stage.ended then some do
      ZestDB.log pf j.key j.call.command j.call.syncWal
      pure none
    else none
  | _, _ => none

end Job

lemma filter_head {i : Fin n} {is : List (Fin n)} (hi : i ∉ is) :
    (i :: is).filter (· ≠ i) = is := by
  rw [List.filter_cons_of_neg (by simp)]
  refine List.filter_eq_self.mpr fun a ha => ?_
  have hai : a ≠ i := by
    rintro rfl
    exact hi ha
  simpa using hai

namespace Job

section Turns

variable [NeZero n] {pf : Platform} {j : Job n} {db db' : ZestDB n} {c : Call n} {key : Bytes}
  {w : Write}

def Goes (pf : Platform) (p q : ZestDB n × Job n) : Prop :=
  ∃ e x, e ≠ .record ∧ p.2.turn pf e p.2.stage = some x ∧ (x p.1).final = q.1 ∧
    (x p.1).val = some q.2

abbrev Leads (pf : Platform) : ZestDB n × Job n → ZestDB n × Job n → Prop :=
  Relation.ReflTransGen (Goes pf)

lemma leads_tasks {is : List (Fin n)} (hn : is.Nodup) (db : ZestDB n) :
    Leads pf (db, j.withStage (.tasks is))
      ((ZestDB.onManager (ShardManager.eachShard j.task is) db).final,
        j.withStage (.tasks [])) := by
  induction is generalizing db with
  | nil => exact .refl
  | cons i is ih =>
    obtain ⟨hi, hn⟩ := List.nodup_cons.mp hn
    have hx : (j.withStage (.tasks (i :: is))).turn pf (.task i) (.tasks (i :: is)) = some (do
        let _ ← ZestDB.onManager (ShardManager.onShard i (j.task i))
        pure (some (j.withStage (.tasks is)))) := by
      rw [Job.turn, if_pos List.mem_cons_self, filter_head hi]
      rfl
    refine .head (b := ((ZestDB.onManager (ShardManager.onShard i (j.task i)) db).final,
      j.withStage (.tasks is))) ⟨.task i, _, nofun, hx, rfl, rfl⟩ ?_
    exact ih hn _

lemma leads_search {valid : ValidationRule} {is : List (Fin n)} (hn : is.Nodup)
    (found : Fin n → Option (List Key)) (hf : ∀ i ∈ is, found i = none) :
    Leads pf (db, j.withStage (.search valid found)) (db, j.withStage (.search valid fun i =>
      if i ∈ is then some ((db.shardManager.shards i).matchingKeys (j.choices.shard i) valid)
        else found i)) := by
  induction is generalizing found with
  | nil =>
    simp only [List.not_mem_nil, if_false]
    exact .refl
  | cons i is ih =>
    obtain ⟨hi, hn⟩ := List.nodup_cons.mp hn
    obtain ⟨found', hfound'⟩ : ∃ found', found' = Function.update found i
        (some ((db.shardManager.shards i).matchingKeys (j.choices.shard i) valid)) := ⟨_, rfl⟩
    have hx : (j.withStage (.search valid found)).turn pf (.search i) (.search valid found) =
        some (do
        let db ← .get
        let keys := (db.shardManager.shards i).matchingKeys (j.choices.shard i) valid
        pure (some (j.withStage (.search valid (Function.update found i (some keys)))))) := by
      rw [Job.turn, if_pos (hf i List.mem_cons_self)]
      rfl
    have hfree : ∀ a ∈ is, found' a = none := fun a ha => by
      have hai : a ≠ i := by
        rintro rfl
        exact hi ha
      rw [hfound', Function.update_of_ne hai, hf a (List.mem_cons_of_mem _ ha)]
    have hfound : (fun a => if a ∈ is then
        some ((db.shardManager.shards a).matchingKeys (j.choices.shard a) valid) else found' a) =
        fun a => if a ∈ i :: is then
          some ((db.shardManager.shards a).matchingKeys (j.choices.shard a) valid)
            else found a := by
      funext a
      by_cases ha : a = i
      · simp [ha, hi, hfound']
      · simp [ha, hfound']
    rw [← hfound]
    refine .head ⟨.search i, _, nofun, hx, rfl, ?_⟩ (ih hn found' hfree)
    rw [hfound']
    rfl

lemma leads_keys (keys : List Key) (db : ZestDB n) :
    Leads pf (db, j.withStage (.keys keys)) ((ZestDB.onManager
      (ShardManager.countSuccess
        (fun key => ShardManager.write pf j.choices (j.write.one key)) keys) db).final,
      j.withStage (.keys [])) := by
  induction keys generalizing db with
  | nil => exact .refl
  | cons key keys ih =>
    have hx : (j.withStage (.keys (key :: keys))).turn pf .key (.keys (key :: keys)) = some (do
        let _ ← ZestDB.onManager (ShardManager.write pf j.choices (j.write.one key))
        pure (some (j.withStage (.keys keys)))) := rfl
    refine .head
      (b := ((ZestDB.onManager (ShardManager.write pf j.choices (j.write.one key)) db).final,
      j.withStage (.keys keys))) ⟨.key, _, nofun, hx, rfl, rfl⟩ ?_
    exact ih _

lemma leads_choose (valid : ValidationRule) :
    Leads pf (db, j.withStage (.search valid fun _ => none))
      (db, j.withStage (.keys (db.shardManager.firstMatchingKeys j.choices valid))) := by
  obtain ⟨found, hfound⟩ : ∃ found : Fin n → Option (List Key), found =
      fun i => if i ∈ List.finRange n then
      some ((db.shardManager.shards i).matchingKeys (j.choices.shard i) valid) else none := ⟨_, rfl⟩
  have hx : (j.withStage (.search valid found)).turn pf .choose (.search valid found) =
      some
      (pure (some (j.withStage (.keys (db.shardManager.firstMatchingKeys j.choices valid))))) := by
    rw [Job.turn, if_pos (by simp [hfound]), hfound]
    simp only [List.mem_finRange, if_true]
    rfl
  refine .tail (leads_search (List.nodup_finRange n) (fun _ => none) fun _ _ => rfl) ?_
  rw [← hfound]
  exact ⟨.choose, _, nofun, hx, rfl, rfl⟩

lemma single_turn : (⟨c, key, w, .single⟩ : Job n).turn pf .single .single = some (do
    let r ← ZestDB.onManager (ShardManager.write pf c.choices w)
    pure (if r.code = .Success then some ⟨c, key, w, .keys []⟩ else none)) := rfl

variable (key) in
lemma leads_write (hs : (ShardManager.write pf c.choices w db.shardManager).val.code = .Success) :
    ∃ st, Stage.ended st = true ∧ Leads pf (db, ⟨c, key, w, .first w⟩)
      ((ZestDB.onManager (ShardManager.write pf c.choices w) db).final, ⟨c, key, w, st⟩) := by
  have hsingle : Stage.first w = Stage.single (n := n) → Leads pf (db, ⟨c, key, w, .first w⟩)
      ((ZestDB.onManager (ShardManager.write pf c.choices w) db).final, ⟨c, key, w, .keys []⟩) :=
        fun hw => by
    rw [hw]
    exact .single ⟨.single, _, nofun, single_turn, rfl, if_pos hs⟩
  have hwhole : ∀ {valid : ValidationRule} {sm : ShardManager n}, sm = (ShardManager.countSuccess
      (fun key => ShardManager.write pf c.choices (w.one key))
      (db.shardManager.firstMatchingKeys c.choices valid) db.shardManager).final →
      Leads pf (db, ⟨c, key, w, .search valid fun _ => none⟩)
      ({ db with shardManager := sm }, ⟨c, key, w, .keys []⟩) := by
    rintro valid _ rfl
    exact (leads_choose (j := ⟨c, key, w, .single⟩) valid).trans (leads_keys _ db)
  cases w with
  | set k value => exact ⟨.keys [], rfl, hsingle rfl⟩
  | del k => exact ⟨.keys [], rfl, hsingle rfl⟩
  | setBy valid value =>
    by_cases hlim : valid.limit ≠ UINT_MAX
    · refine ⟨.keys [], rfl, ?_⟩
      rw [Stage.first, if_pos hlim]
      refine hwhole ?_
      change (ShardManager.setBy pf c.choices valid value db.shardManager).final = _
      rw [ShardManager.setBy, if_pos hlim]
      rfl
    · refine ⟨.tasks [], rfl, ?_⟩
      rw [Stage.first, if_neg hlim]
      have hrun :
          (ZestDB.onManager (ShardManager.write pf c.choices (.setBy valid value)) db).final =
          (ZestDB.onManager (ShardManager.eachShard
            (fun i => Shard.setBy (c.choices.shard i) valid value (some 0))
            (List.finRange n)) db).final := by
        rw [ShardManager.write, ShardManager.setBy, if_neg hlim]
        rfl
      rw [hrun]
      exact leads_tasks (j := ⟨c, key, .setBy valid value, .single⟩) (List.nodup_finRange n) db
  | delBy valid =>
    by_cases hlim : valid.limit ≠ UINT_MAX
    · refine ⟨.keys [], rfl, ?_⟩
      rw [Stage.first, if_pos hlim]
      refine hwhole ?_
      change (ShardManager.delBy pf c.choices valid db.shardManager).final = _
      rw [ShardManager.delBy, if_pos hlim]
      rfl
    · refine ⟨.tasks [], rfl, ?_⟩
      rw [Stage.first, if_neg hlim]
      have hrun : (ZestDB.onManager (ShardManager.write pf c.choices (.delBy valid)) db).final =
          (ZestDB.onManager (ShardManager.eachShard
            (fun i => Shard.delBy (c.choices.shard i) valid (some 0))
            (List.finRange n)) db).final := by
        rw [ShardManager.write, ShardManager.delBy, if_neg hlim]
        rfl
      rw [hrun]
      exact leads_tasks (j := ⟨c, key, .delBy valid, .single⟩) (List.nodup_finRange n) db

lemma first_of_fails
    (hs : (ShardManager.write pf c.choices w db.shardManager).val.code ≠ .Success) :
    Stage.first w = Stage.single (n := n) := by
  cases w with
  | set k value => rfl
  | del k => rfl
  | setBy valid value =>
    refine absurd ?_ hs
    simp only [ShardManager.write, ShardManager.setBy]
    split_ifs <;> rfl
  | delBy valid =>
    refine absurd ?_ hs
    simp only [ShardManager.write, ShardManager.delBy]
    split_ifs <;> rfl

end Turns

end Job

/-- A client gives the command of its next write, or goes on with the one it has. -/
inductive Event (n : ℕ) where
  | issue (c : Call n)
  | go (turn : Turn n)

end Clients

open Clients in
/-- The database among `m` clients, each with at most one write in hand. -/
structure Clients (n m : ℕ) where
  db : ZestDB n
  jobs : Fin m → Option (Job n)

namespace Clients

variable {n m : ℕ} [NeZero n]

def idle (db : ZestDB n) : Clients n m := ⟨db, fun _ => none⟩

def Idle (s : Clients n m) : Prop := ∀ t, s.jobs t = none

instance (s : Clients n m) : Decidable s.Idle := inferInstanceAs (Decidable (∀ t, s.jobs t = none))

/-- A write that passes the checks of `execCmd` is taken up; any other command leaves everything as
it is. -/
def issue (pf : Platform) (c : Call n) (db : ZestDB n) : Option (Job n) :=
  match ZestDB.asked pf c with
  | some (key, .write w) =>
    if ZestDB.refusal pf db.settings (!db.replaying) w = none then
      some ⟨c, key, w, .first w⟩ else none
  | _ => none

def event (pf : Platform) (s : Clients n m) (t : Fin m) :
    Event n → Option (Traced (ZestDB n) (Option (Job n)))
  | .issue c => if (s.jobs t).isNone then some (pure (issue pf c s.db)) else none
  | .go e => (s.jobs t).bind fun j => j.turn pf e j.stage

def step (pf : Platform) (s : Clients n m) (t : Fin m) (e : Event n) : Option (Clients n m) :=
  (s.event pf t e).map fun x => ⟨(x s.db).final, Function.update s.jobs t (x s.db).val⟩

section Alone

variable {pf : Platform} {s : Clients n m} {t : Fin m} {j : Job n} {db : ZestDB n}
  {jobs : Fin m → Option (Job n)}
variable {c : Call n} {key : Bytes} {w : Write}

def steps (pf : Platform) (t : Fin m) : List (Event n) → Clients n m → Option (Clients n m)
  | [], s => some s
  | e :: es, s => (s.step pf t e).bind (steps pf t es)

lemma steps_append {u : Clients n m} {es : List (Event n)} (es' : List (Event n))
    (h : steps pf t es s = some u) :
    steps pf t (es ++ es') s = steps pf t es' u := by
  induction es generalizing s with
  | nil => rw [← Option.some.inj h, List.nil_append]
  | cons e es ih =>
    obtain ⟨v, hv, hu⟩ := Option.bind_eq_some_iff.mp h
    rw [List.cons_append, steps, hv]
    exact ih hu

def working (db : ZestDB n) (jobs : Fin m → Option (Job n)) (t : Fin m) (o : Option (Job n)) :
    Clients n m :=
  ⟨db, Function.update jobs t o⟩

lemma step_go {e : Turn n} {x : Traced (ZestDB n) (Option (Job n))}
    (hx : j.turn pf e j.stage = some x) :
    (working db jobs t (some j)).step pf t (.go e) =
      some (working (x db).final jobs t (x db).val) := by
  simp only [step, event, working, Function.update_self, Option.bind_some, hx, Option.map_some,
    Function.update_idem]

variable (t jobs) in
lemma steps_of_leads {p q : ZestDB n × Job n} (h : Job.Leads pf p q) :
    ∃ es, steps pf t es (working p.1 jobs t (some p.2)) = some (working q.1 jobs t (some q.2)) := by
  induction h with
  | refl => exact ⟨[], rfl⟩
  | @tail q r _ hg ih =>
    obtain ⟨es, hes⟩ := ih
    obtain ⟨e, x, -, hx, hfinal, hval⟩ := hg
    refine ⟨es ++ [.go e], (steps_append _ hes).trans ?_⟩
    rw [steps, step_go hx, hfinal, hval]
    rfl

theorem steps_alone (ht : s.jobs t = none) (hr : s.db.replaying = false)
    (ha : ZestDB.asked pf c = some (key, .write w))
    (href : ZestDB.refusal pf s.db.settings true w = none) :
    ∃ es, steps pf t es s = some ⟨(ZestDB.execCmd pf c s.db).final, s.jobs⟩ := by
  have hidle : ∀ db, working db s.jobs t none = ⟨db, s.jobs⟩ := fun db => by
    rw [working, ← ht, Function.update_eq_self]
  have href' : ZestDB.refusal pf s.db.settings (!s.db.replaying) w = none := by rw [hr]; exact href
  have hissue : s.step pf t (.issue c) =
      some (working s.db s.jobs t (some ⟨c, key, w, .first w⟩)) := by
    simp only [step, event, ht, Option.isNone_none, if_true, Option.map_some, issue, ha,
      if_pos href']
    rfl
  have hwrite : ZestDB.write pf c.choices w s.db =
      ZestDB.onManager (ShardManager.write pf c.choices w) s.db :=
    ZestDB.write_accepted href'
  obtain ⟨db', hdb'⟩ :
      ∃ db', db' = (ZestDB.onManager (ShardManager.write pf c.choices w) s.db).final := ⟨_, rfl⟩
  have hexec : (ZestDB.execCmd pf c s.db).final =
      if (ShardManager.write pf c.choices w s.db.shardManager).val.code = .Success then
        (ZestDB.log pf key c.command c.syncWal db').final
      else db' := by
    rw [ZestDB.execCmd_some ha]
    change (ZestDB.writeAndLog pf c key w s.db).final = _
    have hreplaying : db'.replaying = false := by rw [hdb']; exact hr
    rw [ZestDB.writeAndLog_final, hwrite, ← hdb', hreplaying]
    simp only [Bool.not_false, Bool.true_and, decide_eq_true_eq]
    rfl
  rw [hexec, ← hidle]
  by_cases hs : (ShardManager.write pf c.choices w s.db.shardManager).val.code = .Success
  · obtain ⟨st, ho, hleads⟩ := Job.leads_write key hs
    obtain ⟨es, hes⟩ := steps_of_leads t s.jobs hleads
    refine ⟨.issue c :: (es ++ [.go .record]), ?_⟩
    have hx : (⟨c, key, w, st⟩ : Job n).turn pf .record st = some (do
        ZestDB.log pf key c.command c.syncWal
        pure none) := if_pos ho
    rw [steps, hissue, Option.bind_some, steps_append _ hes, steps, if_pos hs, step_go hx, hdb']
    rfl
  · refine ⟨[.issue c, .go .single], ?_⟩
    have hstep : (working s.db s.jobs t (some ⟨c, key, w, .single⟩)).step pf t (.go .single) =
        some (working db' s.jobs t none) := by
      rw [step_go Job.single_turn, hdb']
      exact congrArg (fun o => some (working _ s.jobs t o)) (if_neg hs)
    rw [steps, hissue, Option.bind_some, Job.first_of_fails hs, steps, hstep, if_neg hs]
    rfl

end Alone

end Clients

end Zest
