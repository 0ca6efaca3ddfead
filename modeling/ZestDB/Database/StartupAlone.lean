import ZestDB.Database.ReplayWindow

/-! The steps of a start without sessions lead where `replayWAL` leads, and those of one command
without others where `execCmd` leads. -/

namespace Zest.Startup

open Foundations

variable {n m : ℕ} [NeZero n] {pf : Platform} {s s' : Startup n m} {db db' : ZestDB n}
  {boot : Boot n} {o : Option (Fin m)}

abbrev Leads (pf : Platform) : Startup n m → Startup n m → Prop :=
  Relation.ReflTransGen (Moves pf fun _ _ => True)

def idle (db : ZestDB n) (boot : Boot n) : Startup n m := ⟨db, boot, fun _ => .free⟩

def only (db : ZestDB n) (boot : Boot n) (o : Option (Fin m)) (x : Hand n) : Startup n m :=
  (idle db boot).withHand o x

lemma leads_step {e : Event n m} (h : s.step pf e = some s') : Leads pf s s' :=
  .single ⟨e, trivial, h⟩

omit [NeZero n] in
lemma only_free (db : ZestDB n) (boot : Boot n) (o : Option (Fin m)) :
    only db boot o .free = idle db boot := by
  simp [only, idle, withHand]

omit [NeZero n] in
lemma only_hand (db : ZestDB n) (boot : Boot n) (o : Option (Fin m)) (x : Hand n) :
    (only db boot o x).hands o = x := by
  simp [only]

omit [NeZero n] in
lemma only_db (db : ZestDB n) (boot : Boot n) (o : Option (Fin m)) (x : Hand n) :
    (only db boot o x).db = db := rfl

omit [NeZero n] in
lemma only_withHand (db : ZestDB n) (boot : Boot n) (o : Option (Fin m)) (x y : Hand n) :
    (only db boot o x).withHand o y = only db boot o y := by
  simp [only, withHand]

omit [NeZero n] in
lemma mark_withHand (db db' : ZestDB n) (boot : Boot n) (o : Option (Fin m)) (x y : Hand n)
    (d : Deed n) :
    ((only db boot o x).mark d db').withHand o y = only db' boot o y := by
  have hhands : ((only db boot o x).mark d db').withHand o y =
      ⟨db', boot, ((only db' boot o y : Startup n m)).hands⟩ := by
    refine congrArg (Startup.mk db' boot) (funext fun o' => ?_)
    by_cases ho : o' = o
    · simp [ho, only]
    · simp [ho, only, mark, idle, Hand.after]
  exact hhands

section Work

variable {w : Work n} {d : Deed n} {settings : Settings} {sw : Sweep n} {ch : Choices n}
  {is cs : List (Fin n)}

lemma leads_work (db : ZestDB n) (boot : Boot n) (o : Option (Fin m))
    {x : Traced (ZestDB n) (Option (Work n))} (hx : w.act pf d = some x) :
    Leads pf (only db boot o (.working w)) (only (x db).final boot o (.left (x db).val)) := by
  refine leads_step (e := .work o d) ?_
  simp only [step, only_hand, hx, Option.map_some]
  exact congrArg some (mark_withHand _ _ _ _ _ _ _)

lemma leads_job (boot : Boot n) (o : Option (Fin m)) (settings : Settings)
    {p q : ZestDB n × Clients.Job n} (h : Clients.Job.Leads pf p q) :
    Leads pf (only p.1 boot o (.working (.write settings p.2)))
    (only q.1 boot o (.working (.write settings q.2))) := by
  induction h with
  | refl => exact .refl
  | @tail q r _ hg ih =>
    obtain ⟨e, x, he, hx, hfinal, hval⟩ := hg
    have hact := (act_turn pf settings q.2 he).trans (congrArg (Option.map _) hx)
    have hstep := leads_work q.1 boot o hact
    have hleft : (Hand.left ((x q.1).val.map (Work.write settings)) : Hand n) =
        .working (.write settings r.2) := by
      rw [hval]
      rfl
    rw [← hfinal, ← hleft]
    exact ih.trans hstep

def Sweep.Goes (p q : ZestDB n × Sweep n) : Prop :=
  ∃ d, p.2.next d = some q.2 ∧ q.1 = (d.onShards p.1).final

omit [NeZero n] in
lemma Sweep.flushes (hn : is.Nodup) (ch : Choices n) (cs : List (Fin n)) (db : ZestDB n) :
    Relation.ReflTransGen Sweep.Goes (db, ⟨is, cs⟩)
      ((ZestDB.onManager (ShardManager.eachShard (fun i => Shard.flushData (ch.shard i)) is)
        db).final, ⟨[], cs⟩) := by
  induction is generalizing db with
  | nil => exact .refl
  | cons i is ih =>
    obtain ⟨hi, hn⟩ := List.nodup_cons.mp hn
    have hnext : (⟨i :: is, cs⟩ : Sweep n).next (.flush i (ch.shard i)) = some ⟨is, cs⟩ := by
      rw [Sweep.next, if_pos (List.contains_iff_mem.mpr List.mem_cons_self), Clients.filter_head hi]
    refine .head
      (b := ((ZestDB.onManager (ShardManager.onShard i (Shard.flushData (ch.shard i))) db).final,
        ⟨is, cs⟩)) ⟨_, hnext, rfl⟩ ?_
    exact ih hn _

omit [NeZero n] in
lemma Sweep.clears (cs : List (Fin n)) (db : ZestDB n) :
    Relation.ReflTransGen Sweep.Goes (db, ⟨[], cs⟩) ((ZestDB.onManager (ShardManager.eachShard
        (fun _ => .step fun s => { s with wal := s.wal.clear }) cs) db).final, ⟨[], []⟩) := by
  induction cs generalizing db with
  | nil => exact .refl
  | cons i cs ih =>
    have hnext : (⟨[], i :: cs⟩ : Sweep n).next (.clear i) = some ⟨[], cs⟩ := by simp [Sweep.next]
    refine .head
      (b := ((ZestDB.onManager
        (ShardManager.onShard i (.step fun s => { s with wal := s.wal.clear })) db).final,
      ⟨[], cs⟩)) ⟨_, hnext, rfl⟩ ?_
    exact ih _

omit [NeZero n] in
lemma Sweep.whole (ch : Choices n) (db : ZestDB n) :
    Relation.ReflTransGen Sweep.Goes (db, {}) ((ZestDB.flush ch db).final, ⟨[], []⟩) :=
  (Sweep.flushes (List.nodup_finRange n) ch _ db).trans (Sweep.clears _ _)

lemma leads_flush {p q : ZestDB n × Sweep n} (h : Relation.ReflTransGen Sweep.Goes p q) :
    Leads pf (only p.1 boot o (.working (.flush p.2)))
    (only q.1 boot o (.working (.flush q.2))) := by
  induction h with
  | refl => exact .refl
  | @tail q r _ hg ih =>
    obtain ⟨d, hnext, hdb⟩ := hg
    have hact : (Work.flush q.2).act pf d = some (do
        d.onShards
        pure (some (.flush r.2))) := by
      rw [Work.act, hnext]
      rfl
    rw [hdb]
    exact ih.trans (leads_work _ _ _ hact)

lemma leads_last {p q : ZestDB n × Sweep n} (h : Relation.ReflTransGen Sweep.Goes p q) :
    Leads pf (idle p.1 (.flushing p.2) : Startup n m) (idle q.1 (.flushing q.2)) := by
  induction h with
  | refl => exact .refl
  | @tail q r _ hg ih =>
    obtain ⟨d, hnext, hdb⟩ := hg
    refine ih.tail ⟨.last d, trivial, ?_⟩
    simp only [step, idle, hnext, Option.map_some, hdb]
    rfl

end Work

section Commands

variable {c : Call n} {key : Bytes} {w : Write} {settings : Settings} {todo : List WalEntry}
  {ch : Choices n}

omit [NeZero n] in
lemma idle_admits (db : ZestDB n) (boot : Boot n) (c : Call n) :
    (idle db boot : Startup n m).Admits pf c := by
  intro o
  split_ifs <;> rfl

lemma take_idle (db : ZestDB n) (boot : Boot n) (o : Option (Fin m)) (c : Call n) :
    (idle db boot).take pf o c =
      some (only (takeUp pf c db).final boot o (.left (takeUp pf c db).val)) := by
  rw [take, if_pos ⟨rfl, idle_admits db boot c⟩]
  rfl

lemma leads_finish (hr : db.replaying = true) {st : Clients.Stage n} (ho : st.ended = true) :
    Leads pf (only db boot none (.working (.write settings ⟨c, key, w, st⟩)) : Startup n m)
    (idle db boot) := by
  refine leads_step (e := .finish none) ?_
  simp only [step, finish, only_hand, ho, if_true, only_db, hr, Bool.not_true, Bool.false_eq_true,
    if_false, Option.isSome_none, only_withHand, only_free]

lemma leads_release :
    Leads pf (only db boot o (.working (.flush ⟨[], []⟩))) (idle db boot) := by
  refine leads_step (e := .finish o) ?_
  simp only [step, finish, only_hand, Sweep.finished, List.isEmpty_nil, Bool.and_self, if_true,
    only_withHand, only_free]

lemma leads_write (hr : db.replaying = true) (ha : ZestDB.asked pf c = some (key, .write w))
    (href : ZestDB.refusal pf db.settings (!db.replaying) w = none) :
    Leads pf (only db boot none (.working (.write settings ⟨c, key, w, .first w⟩)) : Startup n m)
      (idle (ZestDB.execCmd pf c db).final boot) := by
  have hexec : (ZestDB.execCmd pf c db).final =
      (ZestDB.onManager (ShardManager.write pf c.choices w) db).final := by
    have hkept : (ZestDB.onManager (ShardManager.write pf c.choices w) db).final.replaying = true :=
      hr
    rw [ZestDB.execCmd_some ha]
    change (ZestDB.writeAndLog pf c key w db).final = _
    rw [ZestDB.writeAndLog_final, ZestDB.write_accepted href, hkept]
    rfl
  rw [hexec]
  by_cases hs : (ShardManager.write pf c.choices w db.shardManager).val.code = .Success
  · obtain ⟨st, ho, hleads⟩ := Clients.Job.leads_write key hs
    have hkept : (ZestDB.onManager (ShardManager.write pf c.choices w) db).final.replaying = true :=
      hr
    exact (leads_job _ _ _ hleads).trans (leads_finish hkept ho)
  · have hact := (act_turn pf settings ⟨c, key, w, .single⟩ (e := .single) nofun).trans
      (congrArg (Option.map _) Clients.Job.single_turn)
    have hnone :
        (Hand.left ((if (ZestDB.onManager (ShardManager.write pf c.choices w) db).val.code =
          .Success then
        some (⟨c, key, w, .keys []⟩ : Clients.Job n) else none).map (Work.write settings)) :
        Hand n) = .free := by
      have hfails : (ZestDB.onManager (ShardManager.write pf c.choices w) db).val.code ≠ .Success :=
        hs
      rw [if_neg hfails]
      rfl
    rw [Clients.Job.first_of_fails hs, ← only_free _ _ none, ← hnone]
    exact leads_work _ _ _ hact

lemma leads_replay (hr : db.replaying = true) (entry : WalEntry) (ch : Choices n) :
    Leads pf (idle db (.replaying (entry :: todo)) : Startup n m)
      (idle (ZestDB.execCmd pf { command := entry.cmd, choices := ch } db).final
        (.replaying todo)) := by
  obtain ⟨c, hc⟩ : ∃ c : Call n, c = { command := entry.cmd, choices := ch } := ⟨_, rfl⟩
  have htake : Leads pf (idle db (.replaying (entry :: todo)) : Startup n m)
      (only (takeUp pf c db).final (.replaying todo) none (.left (takeUp pf c db).val)) := by
    refine leads_step (e := .replay ch) ?_
    rw [hc]
    exact take_idle db _ none _
  rw [← hc]
  refine htake.trans ?_
  rcases takeUp_cases pf c with ⟨key, w, ha, -, htake⟩ | ⟨-, htake, hflush⟩ | ⟨-, htake⟩
  · rw [htake, Traced.get_bind, Traced.pure_run]
    cases href : ZestDB.refusal pf db.settings (!db.replaying) w with
    | none => exact leads_write hr ha href
    | some message =>
      have hexec : (ZestDB.execCmd pf c db).final = db := by
        rw [ZestDB.execCmd_some ha]
        change (ZestDB.writeAndLog pf c key w db).final = _
        rw [ZestDB.writeAndLog_final, ZestDB.write_refused href, if_neg (by simp [hr])]
      rw [hexec, ← only_free]
      exact .refl
  · rw [htake, hflush]
    exact (leads_flush (Sweep.whole c.choices db)).trans leads_release
  · rw [htake, ← only_free]
    exact .refl

variable (c) in
lemma execCmd_flag : Traced.Keeps ZestDB.replaying (ZestDB.execCmd pf c) := by
  rcases takeUp_cases pf c with ⟨key, w, ha, -, -⟩ | ⟨-, -, hflush⟩ | ⟨hkeeps, -⟩
  · rw [ZestDB.execCmd_some ha]
    exact .bind (ZestDB.writeAndLog_flag pf c key w) fun _ => .pure _
  · intro db
    rw [hflush]
    rfl
  · exact fun db => congrArg Prod.snd (hkeeps db)

lemma leads_replays (ch : ℕ → Choices n) (hr : db.replaying = true) (entries : List WalEntry)
    (i : ℕ) :
    Leads pf (idle db (.replaying entries) : Startup n m)
      (idle (ZestDB.replayEntries pf ch entries i db).final (.replaying [])) := by
  induction entries generalizing db i with
  | nil => exact .refl
  | cons entry entries ih =>
    exact (leads_replay hr entry (ch i)).trans (ih ((execCmd_flag _ db).trans hr) (i + 1))

lemma leads_read (toRead : List (Fin n)) (found : List WalEntry) :
    Leads pf (idle db (.reading toRead found) : Startup n m) (idle db (.reading []
        (found ++ toRead.flatMap fun i => (db.shardManager.shards i).wal.getCmds))) := by
  induction toRead generalizing found with
  | nil => rw [List.flatMap_nil, List.append_nil]
  | cons i toRead ih =>
    rw [List.flatMap_cons, ← List.append_assoc]
    exact .head ⟨.read, trivial, rfl⟩ (ih _)

theorem boot_alone (db : ZestDB n) (ch : ℕ → Choices n) :
    Leads pf (idle db .opened : Startup n m) (idle (ZestDB.replayWAL pf ch db).final .serving) := by
  obtain ⟨db₁, hdb₁⟩ : ∃ db₁ : ZestDB n, db₁ = { db with replaying := true } := ⟨_, rfl⟩
  obtain ⟨entries, hentries⟩ : ∃ entries, entries = db₁.shardManager.walEntries := ⟨_, rfl⟩
  obtain ⟨db₂, hdb₂⟩ : ∃ db₂ : ZestDB n, db₂ = { db₁ with
    shardManager := ShardManager.advanceAll entries db₁.shardManager } := ⟨_, rfl⟩
  have hr : db₂.replaying = true := by rw [hdb₂, hdb₁]
  obtain ⟨db₃, hdb₃⟩ : ∃ db₃, db₃ = (ZestDB.replayEntries pf ch entries 0 db₂).final := ⟨_, rfl⟩
  obtain ⟨db₄, hdb₄⟩ : ∃ db₄, db₄ = (ZestDB.flush (ch entries.length) db₃).final := ⟨_, rfl⟩
  have hreplay : (ZestDB.replayWAL pf ch db).final = { db₄ with replaying := false } := by
    rw [hdb₄, hdb₃, hdb₂, hentries, hdb₁]
    rfl
  have hraise : Leads pf (idle db .opened : Startup n m)
      (idle db₁ (.reading (List.finRange n) [])) :=
    leads_step (e := .raise) (by rw [hdb₁]; rfl)
  have hsort : Leads pf (idle db₁ (.reading [] ([] ++ (List.finRange n).flatMap fun i =>
      (db₁.shardManager.shards i).wal.getCmds)) : Startup n m) (idle db₂ (.replaying entries)) :=
    leads_step (e := .sort) (by rw [hdb₂, hentries]; rfl)
  have hsweep : Leads pf (idle db₃ (.replaying []) : Startup n m) (idle db₃ (.flushing {})) :=
    leads_step (e := .sweep) rfl
  have hlower : Leads pf (idle db₄ (.flushing ⟨[], []⟩) : Startup n m)
      (idle { db₄ with replaying := false } .serving) :=
    leads_step (e := .lower) rfl
  have hreplays : Leads pf (idle db₂ (.replaying entries) : Startup n m)
      (idle db₃ (.replaying [])) :=
    hdb₃ ▸ leads_replays ch hr entries 0
  have hlast : Leads pf (idle db₃ (.flushing {}) : Startup n m) (idle db₄ (.flushing ⟨[], []⟩)) :=
    hdb₄ ▸ leads_last (Sweep.whole (ch entries.length) db₃)
  rw [hreplay]
  exact hraise.trans
    ((leads_read _ _).trans (hsort.trans (hreplays.trans (hsweep.trans (hlast.trans hlower)))))

theorem session_alone (hlen : c.command.length ≤ MAX_PAYLOAD_SIZE) (hr : db.replaying = false)
    (ha : ZestDB.asked pf c = some (key, .write w))
    (href : ZestDB.refusal pf db.settings true w = none)
    (hs : (ShardManager.write pf c.choices w db.shardManager).val.code = .Success) (boot : Boot n)
    (t : Fin m) :
    ∃ d, Leads pf (idle db boot)
      (only (ZestDB.execCmd pf { c with syncWal := false } db).final boot (some t)
      (.answering d (List.finRange n))) ∧ d.settings = db.settings ∧ d.job.call = c := by
  obtain ⟨st, ho, hleads⟩ := Clients.Job.leads_write key hs
  obtain ⟨db', hdb'⟩ :
      ∃ db', db' = (ZestDB.onManager (ShardManager.write pf c.choices w) db).final := ⟨_, rfl⟩
  have hr' : db'.replaying = false := by rw [hdb']; exact hr
  have href' : ZestDB.refusal pf db.settings (!db.replaying) w = none := by rw [hr]; exact href
  have hexec : (ZestDB.execCmd pf { c with syncWal := false } db).final =
      (ZestDB.onManager (ShardManager.appendToWAL pf key c.command) db').final := by
    have ha' : ZestDB.asked pf ({ c with syncWal := false } : Call n) = some (key, .write w) := ha
    have hcode : (ZestDB.onManager (ShardManager.write pf c.choices w) db).val.code = .Success := hs
    rw [ZestDB.execCmd_some ha']
    change (ZestDB.writeAndLog pf { c with syncWal := false } key w db).final = _
    rw [ZestDB.writeAndLog_final]
    change (if !(ZestDB.write pf c.choices w db).final.replaying && _ then _ else _) = _
    rw [ZestDB.write_accepted href', ← hdb', hr', if_pos (by simp [hcode])]
    rfl
  obtain ⟨d, hd⟩ : ∃ d : Done n, d = ⟨db.settings, ⟨c, key, w, st⟩, fun _ => false, none⟩ :=
    ⟨_, rfl⟩
  have hstart : Leads pf (idle db boot)
      (only db boot (some t) (.working (.write db.settings ⟨c, key, w, .first w⟩))) := by
    refine leads_step (e := .start t c) ?_
    have hleft : (takeUp pf c db).val = some (.write db.settings ⟨c, key, w, .first w⟩) ∧
        (takeUp pf c db).final = db := by
      simp only [takeUp, ha]
      exact ⟨if_pos href', rfl⟩
    rw [step, if_pos hlen, take_idle, hleft.1, hleft.2]
    rfl
  have hfinish : Leads pf (only db' boot (some t) (.working (.write db.settings ⟨c, key, w, st⟩)))
      (only db' boot (some t) (.logging d)) := by
    refine leads_step (e := .finish (some t)) ?_
    simp only [step, finish, only_hand, ho, if_true, only_db, hr', Bool.not_false,
      only_withHand, hd]
  have hcheck : Leads pf (only db' boot (some t) (.logging d))
      (only db' boot (some t) (.appending d)) := by
    refine leads_step (e := .check t) ?_
    simp only [step, only_hand, only_db, hr', Bool.false_eq_true, if_false, only_withHand]
  refine ⟨{ d with record := some (db'.shardManager.record c.command,
    db'.shardManager.walEntries) }, ?_, by rw [hd], by rw [hd]⟩
  have happend : Leads pf (only db' boot (some t) (.appending d))
      (only (ZestDB.onManager (ShardManager.appendToWAL pf key c.command) db').final boot (some t)
        (.answering
        { d with record := some (db'.shardManager.record c.command, db'.shardManager.walEntries) }
        (List.finRange n))) := by
    refine leads_step (e := .append t) ?_
    simp only [step, only_hand, hd]
    exact congrArg some (only_withHand _ _ _ _ _)
  have hjob := leads_job boot (some t) db.settings hleads
  rw [← hdb'] at hjob
  rw [hexec]
  exact hstart.trans (hjob.trans (hfinish.trans (hcheck.trans happend)))

end Commands

end Zest.Startup
