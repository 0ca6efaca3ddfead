import ZestDB.Server.Unanswered
import ZestDB.Database.Restart

/-! Group commit: when a session queues the reply of a batch, each successful write of the batch is
in the flushed part of a WAL, or its effect is in the flushed INDEX and segments. -/

namespace Zest.Traffic

open Foundations

variable {n m : ℕ} {s s' : Traffic n m} {i : Fin n} {t : Fin m} {d : Done n}

section Wals

lemma written_withShard {v : Shard} (hd : d.wal = i) :
    (s.withShard i v).Written d ↔ ∃ rs, v.wal.file.content = walCodec.encodeAll rs ∧
    d.entry ∈ rs := by
  rw [Written, hd, shards_withShard, if_pos rfl]

lemma synced_withShard {v : Shard} (hd : d.wal = i) :
    (s.withShard i v).Synced d ↔ ∃ rs, v.wal.file.synced = walCodec.encodeAll rs ∧
    d.entry ∈ rs := by
  rw [Synced, hd, shards_withShard, if_pos rfl]

lemma Inv.get (h : s.Inv) (i : Fin n) (key : Key) :
    (s.withShard i ((s.manager.shards i).get key).2).Inv := by
  obtain ⟨cache, hc⟩ := (s.manager.shards i).get_cache key
  have hsound := (h.shard i).shard_sound.get key
  rw [hc] at hsound ⊢
  refine h.patch ⟨(s.manager.shards i).wal, cache, rfl⟩ hsound (h.shard i).log
    (fun d hd _ _ hw => ?_) (fun d hd _ _ hw => ?_)
  · rw [written_withShard hd]
    rwa [Written, hd] at hw
  · rw [synced_withShard hd]
    rwa [Synced, hd] at hw

lemma Inv.sync (h : s.Inv) (i : Fin n) :
    (s.withShard i { s.manager.shards i with wal := (s.manager.shards i).wal.sync }).Inv := by
  have hsound := (h.shard i).shard_sound
  have hfile := hsound.wal.sync_file
  obtain ⟨rs, ts, hs, hp⟩ := (h.shard i).log
  have hcontent : (s.manager.shards i).wal.file.content = walCodec.encodeAll (rs ++ ts) := by
    rw [BufferedFile.content, hs, hp, RecordCodec.encodeAll_append]
  refine h.patch ⟨(s.manager.shards i).wal.sync, (s.manager.shards i).cache, rfl⟩
    (hsound.of_wal hsound.wal.sync)
    ⟨rs ++ ts, [], ?_, ?_⟩ (fun d hd _ _ hw => ?_) (fun d hd _ _ hw => ?_)
  · rw [hfile, ← hcontent]
  · rw [hfile]
    rfl
  · rw [written_withShard hd, WAL.sync_content]
    rwa [Written, hd] at hw
  · obtain ⟨rs', hs', hmem⟩ := hw
    rw [synced_withShard hd, hfile]
    rw [hd] at hs'
    refine ⟨rs' ++ ts, ?_, List.mem_append_left _ hmem⟩
    rw [RecordCodec.encodeAll_append, ← hs', ← hp]
    rfl

lemma synced_of_written (h : s.Inv) (hd : d.wal = i) (hw : s.Written d) :
    (s.withShard i { s.manager.shards i with wal := (s.manager.shards i).wal.sync }).Synced d := by
  rw [synced_withShard hd, (h.shard i).shard_sound.wal.sync_file]
  rwa [Written, hd] at hw

lemma Inv.clear (h : s.Inv) (hall : ∀ j, s.Through j) (i : Fin n) :
    (({ s with cleared := Function.update s.cleared i s.logged } : Traffic n m).withShard i
      { s.manager.shards i with wal := (s.manager.shards i).wal.clear }).Inv := by
  obtain ⟨s', hs'⟩ : ∃ s', s' =
      ({ s with cleared := Function.update s.cleared i s.logged } : Traffic n m) := ⟨_, rfl⟩
  have hcleared : ∀ d, s'.Cleared d ↔ if d.wal = i then d.rank < s.logged else s.Cleared d := by
    intro d
    rw [hs', Cleared]
    simp only [Function.update_apply]
    split_ifs <;> rfl
  have hinv : s'.Inv := by
    rw [hs'] at hcleared ⊢
    refine ⟨fun j => ?_, h.lock, h.job, h.tasks, h.short, fun v todo ha j => ?_,
      fun v todo ha j => ?_, fun v d hd => ?_⟩
    · obtain ⟨hsound, hlog, hranks, hsorted, hcurrent, hcl⟩ := h.shard j
      refine ⟨hsound, hlog, hranks, hsorted, hcurrent, ?_⟩
      simp only [Function.update_apply]
      split_ifs
      · exact le_rfl
      · exact hcl
    · exact Or.inr (Or.inr ⟨(hall j).assured, (hall j).settled⟩)
    · exact ⟨(hall j).assured, (hall j).settled⟩
    · obtain ⟨hrank, hwritten, hpersisted, hsynced⟩ := h.batch v d hd
      refine ⟨hrank, fun hn => ?_, fun hc => ?_, fun hn => ?_⟩
      · rw [hcleared] at hn
        split_ifs at hn
        · exact absurd hrank hn
        · exact hwritten hn
      · intro j key _ u hu
        exact ((hall j).assured key u hu).mono fun w ⟨p, hp, hr, he⟩ =>
          ⟨p, hp, Nat.le_trans hrank hr, he⟩
      · rw [hcleared] at hn
        split_ifs at hn
        · exact absurd hrank hn
        · exact hsynced hn
  have hsound := (h.shard i).shard_sound
  have hempty := hsound.wal.clear_file
  have hgone : ∀ d, d.wal = i → d.rank < s'.logged → s'.Cleared d := by
    intro d hd hr
    rw [hcleared, if_pos hd]
    rw [hs'] at hr
    exact hr
  rw [← hs']
  have hshard : s.manager.shards i = s'.manager.shards i := by rw [hs']
  rw [hshard] at hsound hempty ⊢
  refine hinv.patch ⟨(s'.manager.shards i).wal.clear, (s'.manager.shards i).cache, rfl⟩
    (hsound.of_wal hsound.wal.clear) ⟨[], [], ?_, ?_⟩ (fun d hd hr hn => absurd (hgone d hd hr) hn)
    (fun d hd hr hn => absurd (hgone d hd hr) hn)
  · rw [hempty]
    rfl
  · rw [hempty]
    rfl

lemma Inv.appended (h : s.Inv) (i : Fin n) {command : Bytes} (hc : command.length < 2 ^ 32)
    (seq : ℕ) :
    (s.withShard i { s.manager.shards i with wal := (s.manager.shards i).wal.append command seq
      }).Inv ∧ ∃ rs, ((s.manager.shards i).wal.append command seq).file.content =
      walCodec.encodeAll (rs ++ [⟨command, seq⟩]) := by
  have hsound := (h.shard i).shard_sound
  obtain ⟨rs, ts, hs, hp⟩ := (h.shard i).log
  have hfile : ((s.manager.shards i).wal.append command seq).file =
      (s.manager.shards i).wal.file.append (walCodec.encode ⟨command, seq⟩) := by
    rw [WAL.append_file, Nat.mod_eq_of_lt hc, List.take_length]
  have hcontent : ∀ rs', (s.manager.shards i).wal.file.content = walCodec.encodeAll rs' →
      ((s.manager.shards i).wal.append command seq).file.content =
        walCodec.encodeAll (rs' ++ [⟨command, seq⟩]) := by
    intro rs' hr
    rw [hfile, BufferedFile.content_append, hr, RecordCodec.encodeAll_append]
    simp
  refine ⟨h.patch ⟨(s.manager.shards i).wal.append command seq, (s.manager.shards i).cache, rfl⟩
    (hsound.of_wal (WAL.append_wf _ _ _)) ⟨rs, ts ++ [⟨command, seq⟩], ?_, ?_⟩
    (fun d hd _ _ hw => ?_) (fun d hd _ _ hw => ?_), rs ++ ts, hcontent (rs ++ ts) ?_⟩
  · rw [hfile, BufferedFile.synced_append, hs]
  · rw [hfile, RecordCodec.encodeAll_append, ← hp]
    simp [BufferedFile.append]
  · obtain ⟨rs', hr, hmem⟩ := hw
    rw [written_withShard hd]
    rw [hd] at hr
    exact ⟨_, hcontent rs' hr, List.mem_append_left _ hmem⟩
  · rw [synced_withShard hd, hfile, BufferedFile.synced_append]
    rwa [Synced, hd] at hw
  · rw [BufferedFile.content, hs, hp, RecordCodec.encodeAll_append]

lemma Inv.count (h : s.Inv) (halone : ∀ u, (s.threads u).activity.alone = false) (q : ℕ) :
    ({ s with manager := { s.manager with nextSeq := q }, logged := s.logged +
      1 } : Traffic n m).Inv := by
  refine ⟨fun j => ?_, h.lock, h.job, h.tasks, h.short, fun v todo ha => ?_, fun v todo ha => ?_,
    fun v d hd => ?_⟩
  · obtain ⟨hsound, hlog, hranks, hsorted, hcurrent, hcl⟩ := h.shard j
    exact ⟨hsound, hlog, fun p hp => (hranks p hp).trans (Nat.le_succ _), hsorted, hcurrent,
      hcl.trans (Nat.le_succ _)⟩
  · have hv := halone v
    change (s.threads v).activity = _ at ha
    rw [ha] at hv
    cases hv
  · have hv := halone v
    change (s.threads v).activity = _ at ha
    rw [ha] at hv
    cases hv
  · obtain ⟨hrank, hwritten, hpersisted, hsynced⟩ := h.batch v d hd
    exact ⟨hrank.trans (Nat.lt_succ_self _), hwritten, hpersisted, hsynced⟩

end Wals

section Turning

variable {a : Activity n}

lemma holds_of_alone (h : a.alone = true) : a.holds = true := by
  cases a with
  | running purpose todo => cases purpose <;> first | rfl | cases h
  | clearing todo => rfl
  | ready => cases h
  | syncing todo => cases h

lemma Inv.unowned (h : s.Inv)
    (ha : ∀ purpose todo, (s.threads t).activity ≠ .running purpose todo) :
    ∀ i job, s.jobs i = some job → job.owner ≠ t := by
  rintro i job hj rfl
  obtain ⟨purpose, todo, hrun, -⟩ := h.job i job hj
  exact ha purpose todo hrun

lemma unowned_of_busy (hb : ¬ s.busy t = true) : ∀ i job, s.jobs i = some job → job.owner ≠ t := by
  rintro i job hj rfl
  refine hb ?_
  rw [busy, List.any_eq_true]
  exact ⟨i, List.mem_finRange i, by simp [hj]⟩

lemma turns_loose (hfree : ∀ i job, s.jobs i = some job → job.owner ≠ t) (ha : a.holds = false)
    (hidle : ∀ todo, a = .running .compact todo → todo = []) : s.Turns t a where
  alone halone := absurd (holds_of_alone halone) (by simp [ha])
  holds hh := absurd hh (by simp [ha])
  job i job hj ho := absurd ho (hfree i job hj)
  tasks purpose todo hrun := by
    cases purpose with
    | compact =>
      rw [hidle todo hrun]
      simp
    | _ =>
      rw [hrun] at ha
      cases ha
  short command tasks todo hrun := by rw [hrun] at ha; cases ha
  flush todo hrun := by rw [hrun] at ha; cases ha
  clearing todo hrun := by rw [hrun] at ha; cases ha

lemma Inv.lock_kept (h : s.Inv) (ha : a.alone = true → (s.threads t).activity.alone = true)
    (hh : a.holds = true → (s.threads t).activity.holds = true) :
    (a.alone = true → ∀ u, u ≠ t → (s.threads u).activity.holds = false) ∧
      (a.holds = true → ∀ u, u ≠ t → (s.threads u).activity.alone = false) := by
  refine ⟨fun halone u hu => h.lock t u (Ne.symm hu) (ha halone), fun hholds u hu => ?_⟩
  by_contra hn
  have hfree := h.lock u t hu (by simpa using hn)
  rw [hh hholds] at hfree
  cases hfree

lemma Inv.step_write (h : s.Inv) {command : Bytes} {tasks : List (Task n)}
    (ha : (s.threads t).activity = .ready)
    (halone : ∀ u, (s.threads u).activity.alone = false) (hc : command.length ≤ MAX_PAYLOAD_SIZE)
    (htasks : ∀ task ∈ tasks, ∀ ch, task.op ≠ .compact ch) :
    (s.withActivity t (.running (.write command tasks) tasks)).Inv := by
  have hfree := h.unowned (t := t) (by simp [ha])
  refine h.act ⟨nofun, fun _ u _ => halone u, fun i job hj ho => absurd ho (hfree i job hj), ?_, ?_,
    nofun, nofun⟩ nofun
  · intro purpose todo hrun
    cases hrun
    exact htasks
  · intro command' tasks' todo hrun
    cases hrun
    exact lt_of_le_of_lt hc (by decide)

lemma Inv.step_alone (h : s.Inv) {purpose : Purpose n} {todo : List (Task n)}
    (ha : (s.threads t).activity = .ready) (hfree : ∀ u, (s.threads u).activity.holds = false)
    (hpurpose : (Activity.running purpose todo).alone = true)
    (htasks : ∀ task ∈ todo, purpose.Serves task.op) (hall : ∀ i, ∃ task ∈ todo, task.shard = i) :
    (s.withActivity t (.running purpose todo)).Inv := by
  have hown := h.unowned (t := t) (by simp [ha])
  refine h.act ⟨fun _ u _ => hfree u, fun _ u _ => ?_, fun i job hj ho => absurd ho (hown i job hj),
    ?_, ?_, ?_, nofun⟩ nofun
  · by_contra hn
    exact absurd (holds_of_alone (by simpa using hn)) (by simp [hfree u])
  · intro purpose' todo' hrun
    cases hrun
    exact htasks
  · intro command tasks todo' hrun
    cases hrun
    cases hpurpose
  · intro todo' hrun i
    cases hrun
    exact Or.inl (hall i)

lemma Inv.step_launch (h : s.Inv) {purpose : Purpose n} {todo : List (Task n)} {j : ℕ}
    {task : Task n}
    (ha : (s.threads t).activity = .running purpose todo) (hj : todo[j]? = some task)
    (hadm : s.Admits task.shard task.op) :
    ((s.begin t task.shard task.op).withActivity t (.running purpose (todo.eraseIdx j))).Inv := by
  obtain ⟨hlt, hget⟩ := List.getElem?_eq_some_iff.mp hj
  have hmem : ∀ x, x ∈ todo ↔ x = task ∨ x ∈ todo.eraseIdx j := by
    intro x
    rw [← (List.getElem_cons_eraseIdx_perm hlt).mem_iff, hget, List.mem_cons]
  have hserves := h.tasks t purpose todo ha task ((hmem task).mpr (Or.inl rfl))
  have hbegin : (s.begin t task.shard task.op).Inv := by
    refine h.begin ha hadm (fun hp => ?_) (fun hp => ?_) fun ch hop => ?_
    · rw [hp] at hserves
      exact hserves
    · rw [hp] at hserves
      exact hserves.elim
    · rw [hop] at hserves
      cases purpose with
      | flush =>
        obtain ⟨ch', hch⟩ := hserves
        cases hch
      | compact => exact hserves.elim
      | write command tasks => exact absurd rfl (hserves ch)
      | reload => exact absurd rfl (hserves ch)
  have ha' : ((s.begin t task.shard task.op).threads t).activity = .running purpose todo := ha
  have hlock := hbegin.lock_kept (t := t) (a := .running purpose (todo.eraseIdx j))
    (by rw [ha']; cases purpose <;> exact id) (by rw [ha']; cases purpose <;> exact id)
  refine hbegin.act ⟨hlock.1, hlock.2, fun i job hjob ho => ?_, ?_, ?_, ?_, nofun⟩ nofun
  · obtain ⟨purpose', todo', hrun, hset⟩ := hbegin.job i job hjob
    rw [ho, ha'] at hrun
    cases hrun
    exact ⟨purpose, _, rfl, hset⟩
  · intro purpose' todo' hrun x hx
    cases hrun
    exact h.tasks t purpose todo ha x ((hmem x).mpr (Or.inr hx))
  · intro command tasks todo' hrun
    cases hrun
    exact h.short t command tasks todo ha
  · intro todo' hrun i
    cases hrun
    rcases hbegin.flush t todo ha' i with ⟨x, hx, hxi⟩ | h2 | h3
    · rcases (hmem x).mp hx with rfl | hx
      · exact Or.inr (Or.inl ⟨_, by rw [jobs_begin, if_pos hxi.symm]⟩)
      · exact Or.inl ⟨x, hx, hxi⟩
    · exact Or.inr (Or.inl h2)
    · exact Or.inr (Or.inr h3)

lemma Inv.step_clearing (h : s.Inv) (ha : (s.threads t).activity = .running .flush [])
    (hb : ¬ s.busy t = true) :
    (s.withActivity t (.clearing (List.finRange n))).Inv := by
  have hfree := unowned_of_busy hb
  have hlock := h.lock_kept (t := t) (a := .clearing (List.finRange n)) (by rw [ha]; exact id)
    (by rw [ha]; exact id)
  refine h.act ⟨hlock.1, hlock.2, fun i job hj ho => absurd ho (hfree i job hj), nofun, nofun,
    nofun, fun todo _ i => ?_⟩ nofun
  rcases h.flush t [] ha i with ⟨task, hmem, -⟩ | ⟨rest, hj⟩ | hth
  · cases hmem
  · exact absurd rfl (hfree i _ hj)
  · exact hth

lemma Inv.step_clear (h : s.Inv) {todo : List (Fin n)}
    (ha : (s.threads t).activity = .clearing (i :: todo)) :
    ((({ s with cleared := Function.update s.cleared i s.logged } : Traffic n m).withShard i
      { s.manager.shards i with wal := (s.manager.shards i).wal.clear }).withActivity t
      (.clearing todo)).Inv := by
  have hclear := h.clear (h.clearing t _ ha) i
  have hlock := hclear.lock_kept (t := t) (a := .clearing todo)
    (by change _ → (s.threads t).activity.alone = true; rw [ha]; exact id)
    (by change _ → (s.threads t).activity.holds = true; rw [ha]; exact id)
  have hfree := hclear.unowned (t := t) fun purpose todo' => by
    change (s.threads t).activity ≠ _
    simp [ha]
  exact hclear.act ⟨hlock.1, hlock.2, fun i job hj ho => absurd ho (hfree i job hj), nofun,
    nofun, nofun, fun _ _ => hclear.clearing t (i :: todo) ha⟩ nofun

lemma Inv.step_sync (h : s.Inv) {todo : List (Fin n)}
    (ha : (s.threads t).activity = .syncing (i :: todo)) :
    ((s.withShard i { s.manager.shards i with wal := (s.manager.shards i).wal.sync }).withActivity t
      (.syncing todo)).Inv := by
  have hsync := h.sync i
  have hfree := hsync.unowned (t := t) fun purpose todo' => by
    change (s.threads t).activity ≠ _
    simp [ha]
  refine hsync.act (turns_loose hfree rfl nofun) fun todo' hrun d hd hn hmem => ?_
  cases hrun
  by_cases hi : d.wal = i
  · exact synced_of_written h hi ((h.batch t d hd).written hn)
  · exact (hsync.batch t d hd).synced hn (i :: todo) ha (by simp [hi, hmem])

variable [NeZero n] {pf : Platform}

lemma Inv.step_append (h : s.Inv) {command : Bytes} {tasks : List (Task n)}
    (ha : (s.threads t).activity = .running (.write command tasks) []) (hb : ¬ s.busy t = true) :
    ({ s with
      manager := (ShardManager.appendToWAL pf (walKey command) command s.manager).final
      threads := Function.update s.threads t ⟨.ready, (s.threads t).batch ++
        [⟨⟨command, s.manager.nextSeq⟩, ShardManager.getShardId pf (walKey command),
          s.logged, tasks⟩]⟩
      logged := s.logged + 1 } : Traffic n m).Inv := by
  obtain ⟨hpatch, rs, hcontent⟩ := h.appended
    (ShardManager.getShardId pf (walKey command)) (h.short t command tasks [] ha)
    s.manager.nextSeq
  have halone : ∀ u, (s.threads u).activity.alone = false := by
    intro u
    by_cases hu : u = t
    · rw [hu, ha]
      rfl
    · by_contra hn
      have hfree := h.lock u t hu (by simpa using hn)
      rw [ha] at hfree
      cases hfree
  have hcount := hpatch.count halone ((s.manager.nextSeq + 1) % 2 ^ 64)
  refine hcount.turn (a := .ready) (turns_loose (unowned_of_busy hb) rfl nofun) fun d hd => ?_
  rcases List.mem_append.mp hd with hd | hd
  · obtain ⟨hrank, hwritten, hpersisted, -⟩ := hcount.batch t d hd
    exact ⟨hrank, hwritten, hpersisted, fun _ => nofun⟩
  · obtain rfl := List.mem_singleton.mp hd
    have hnot : ¬ s.logged < s.cleared (ShardManager.getShardId pf (walKey command)) :=
      not_lt.mpr (h.shard _).cleared
    refine ⟨Nat.lt_succ_self _, fun _ => ?_, fun hc => absurd hc hnot, fun _ => nofun⟩
    refine (written_withShard (s := s) (i := ShardManager.getShardId pf (walKey command)) rfl).mpr
      ⟨_, hcontent, ?_⟩
    simp

end Turning

section Runs

variable [NeZero n] {pf : Platform}

lemma tasksOf_not_compact {choices : Choices n} {chosen : List Key} (w : Write) :
    ∀ task ∈ tasksOf pf choices chosen w, ∀ ch, task.op ≠ .compact ch := by
  intro task htask ch hop
  cases w with
  | set key value =>
    obtain rfl := List.mem_singleton.mp htask
    cases hop
  | del key =>
    obtain rfl := List.mem_singleton.mp htask
    cases hop
  | setBy valid value =>
    simp only [tasksOf] at htask
    split_ifs at htask
    all_goals
      obtain ⟨x, -, rfl⟩ := List.mem_map.mp htask
      cases hop
  | delBy valid =>
    simp only [tasksOf] at htask
    split_ifs at htask
    all_goals
      obtain ⟨x, -, rfl⟩ := List.mem_map.mp htask
      cases hop

lemma Inv.of_write (h : s.Inv) {command : Bytes} {choices : Choices n} {chosen : List Key}
    (hs : s.step pf (.write t command choices chosen) = some s') : s'.Inv := by
  simp only [Traffic.step] at hs
  split at hs
  case h_1 w ha hw =>
    split_ifs at hs with hg
    obtain rfl := Option.some.inj hs
    exact h.step_write ha hg.1 hg.2 (tasksOf_not_compact w)
  case h_2 => cases hs

lemma Inv.of_flush (h : s.Inv) {choices : Choices n} (hs : s.step pf (.flush t choices) = some s') :
    s'.Inv := by
  simp only [Traffic.step] at hs
  split at hs
  case h_1 ha =>
    split_ifs at hs with hg
    obtain rfl := Option.some.inj hs
    refine h.step_alone ha hg rfl (fun task ht => ?_) fun i =>
      ⟨_, List.mem_map_of_mem (List.mem_finRange i), rfl⟩
    obtain ⟨i, -, rfl⟩ := List.mem_map.mp ht
    exact ⟨_, rfl⟩
  case h_2 => cases hs

lemma Inv.of_reload (h : s.Inv) {settings : Settings}
    (hs : s.step pf (.reload t settings) = some s') : s'.Inv := by
  simp only [Traffic.step] at hs
  split at hs
  case h_1 ha =>
    split_ifs at hs with hg
    obtain rfl := Option.some.inj hs
    refine h.step_alone ha hg rfl (fun task ht => ?_) fun i =>
      ⟨_, List.mem_map_of_mem (List.mem_finRange i), rfl⟩
    obtain ⟨i, -, rfl⟩ := List.mem_map.mp ht
    exact fun ch => (by simp)
  case h_2 => cases hs

lemma Inv.of_compact (h : s.Inv) {ch : Choice} (hc : s.Careful (.compact t i ch))
    (hs : s.step pf (.compact t i ch) = some s') : s'.Inv := by
  simp only [Traffic.step] at hs
  split at hs
  case h_1 ha =>
    split_ifs at hs with hg
    obtain rfl := Option.some.inj hs
    have hturn : (s.withActivity t (.running .compact [])).Inv := by
      refine h.act (turns_loose (h.unowned (by simp [ha])) rfl fun todo hrun => ?_) (by simp)
      cases hrun
      rfl
    have hact : ((s.withActivity t (.running .compact [])).threads t).activity =
        .running .compact [] := by
      rw [threads_withActivity, if_pos rfl]
    refine hturn.begin hact hg (by simp) (fun _ => ⟨ch, rfl⟩) fun ch' _ => ⟨hc.1, ?_⟩
    intro u d hd
    rw [threads_withActivity] at hd
    refine hc.2 u d ?_
    split_ifs at hd with hu
    · rw [hu]
      exact hd
    · exact hd
  case h_2 => cases hs

lemma Inv.of_launch (h : s.Inv) {j : ℕ} (hs : s.step pf (.launch t j) = some s') : s'.Inv := by
  simp only [Traffic.step] at hs
  split at hs
  case h_1 purpose todo ha =>
    split at hs
    case h_1 task hj =>
      split_ifs at hs with hg
      obtain rfl := Option.some.inj hs
      exact h.step_launch ha hj hg
    case h_2 => cases hs
  case h_2 => cases hs

lemma Inv.of_work (h : s.Inv) (hs : s.step pf (.work i) = some s') : s'.Inv := by
  simp only [Traffic.step] at hs
  split at hs
  case h_1 owner u rest hj =>
    obtain rfl := Option.some.inj hs
    exact h.work hj
  case h_2 => cases hs

lemma Inv.of_finish (h : s.Inv) (hs : s.step pf (.finish i) = some s') : s'.Inv := by
  simp only [Traffic.step] at hs
  split at hs
  case h_1 owner hj =>
    obtain rfl := Option.some.inj hs
    exact h.finish hj
  case h_2 => cases hs

lemma Inv.of_append (h : s.Inv) (hs : s.step pf (.append t) = some s') : s'.Inv := by
  simp only [Traffic.step] at hs
  split at hs
  case h_1 command tasks ha =>
    split_ifs at hs with hb
    obtain rfl := Option.some.inj hs
    exact h.step_append ha hb
  case h_2 => cases hs

lemma Inv.of_leave (h : s.Inv) (hs : s.step pf (.leave t) = some s') : s'.Inv := by
  simp only [Traffic.step] at hs
  split at hs
  case h_1 purpose ha =>
    split_ifs at hs with hb
    have hready : (s.withActivity t .ready).Inv :=
      h.act (turns_loose (unowned_of_busy hb) rfl (by simp)) (by simp)
    cases purpose with
    | flush =>
      obtain rfl := Option.some.inj hs
      exact h.step_clearing ha hb
    | _ =>
      obtain rfl := Option.some.inj hs
      exact hready
  case h_2 => cases hs

lemma Inv.of_clear (h : s.Inv) (hs : s.step pf (.clear t) = some s') : s'.Inv := by
  simp only [Traffic.step] at hs
  split at hs
  case h_1 i todo ha =>
    obtain rfl := Option.some.inj hs
    exact h.step_clear ha
  case h_2 ha =>
    obtain rfl := Option.some.inj hs
    exact h.act (turns_loose (h.unowned (by simp [ha])) rfl (by simp)) (by simp)
  case h_3 => cases hs

lemma Inv.of_sync (h : s.Inv) (hs : s.step pf (.sync t) = some s') : s'.Inv := by
  simp only [Traffic.step] at hs
  split at hs
  case h_1 ha =>
    obtain rfl := Option.some.inj hs
    refine h.act (turns_loose (h.unowned (by simp [ha])) rfl (by simp)) fun todo hrun d _ _ hmem =>
      ?_
    cases hrun
    exact absurd (List.mem_finRange d.wal) hmem
  case h_2 i todo ha =>
    obtain rfl := Option.some.inj hs
    exact h.step_sync ha
  case h_3 => cases hs

lemma Inv.of_reply (h : s.Inv) (hs : s.step pf (.reply t) = some s') : s'.Inv := by
  simp only [Traffic.step] at hs
  split at hs
  case h_1 ha =>
    obtain rfl := Option.some.inj hs
    exact h.turn (a := .ready) (turns_loose (h.unowned (by simp [ha])) rfl (by simp)) (by simp)
  case h_2 => cases hs

lemma Inv.of_get (h : s.Inv) {key : Key} (hs : s.step pf (.get i key) = some s') : s'.Inv := by
  simp only [Traffic.step] at hs
  split_ifs at hs
  obtain rfl := Option.some.inj hs
  exact h.get i key

theorem Inv.step (h : s.Inv) {e : Event n m} (hc : s.Careful e) (hs : s.step pf e = some s') :
    s'.Inv := by
  cases e with
  | write => exact h.of_write hs
  | flush => exact h.of_flush hs
  | reload => exact h.of_reload hs
  | compact => exact h.of_compact hc hs
  | launch => exact h.of_launch hs
  | work => exact h.of_work hs
  | finish => exact h.of_finish hs
  | append => exact h.of_append hs
  | leave => exact h.of_leave hs
  | clear => exact h.of_clear hs
  | sync => exact h.of_sync hs
  | reply => exact h.of_reply hs
  | get => exact h.of_get hs

inductive Reaches (pf : Platform) (ok : Traffic n m → Event n m → Prop) :
    Traffic n m → Traffic n m → Prop
  | refl (s : Traffic n m) : Reaches pf ok s s
  | tail {s u s' : Traffic n m} (e : Event n m) : Reaches pf ok s u → ok u e →
      u.step pf e = some s' → Reaches pf ok s s'

omit [NeZero n] in
lemma start_inv {sm : ShardManager n} (h : sm.Each Shard.Sound) (ch : Choices n) :
    (start (ShardManager.flush ch sm).final : Traffic n m).Inv := by
  have hrest := ShardManager.flush_atRest h ch
  refine ⟨fun i => ⟨fun u hu => ?_, ⟨[], [], ?_⟩, by simp [start], by simp [start],
    fun _ => ⟨[], 0, rfl⟩, le_rfl⟩,
    fun t u _ => nofun, fun i job => nofun, fun t purpose todo => nofun,
    fun t command tasks todo => nofun,
    fun t todo => nofun, fun t todo => nofun, fun t d hd => absurd hd (by simp [start])⟩
  · obtain rfl := List.mem_singleton.mp hu
    exact (hrest i).sound
  · exact List.append_eq_nil_iff.mp (hrest i).wal

lemma Inv.reaches (h : s.Inv) (hr : Reaches pf Careful s s') : s'.Inv := by
  induction hr with
  | refl => exact h
  | tail e _ hc hs ih => exact ih.step hc hs

/-- In a run in which no pass of the compactor begins at a wrong moment, each write of a batch whose
reply is about to be queued is in the flushed part of a WAL or in the flushed INDEX and segments. -/
theorem reply_durable {sm : ShardManager n} (h : sm.Each Shard.Sound) (ch : Choices n)
    (hr : Reaches pf Careful (start (ShardManager.flush ch sm).final) s) (t : Fin m)
    (ha : (s.threads t).activity = .syncing []) : ∀ d ∈ (s.threads t).batch, s.Synced d ∨
      s.Effective d := by
  intro d hd
  have hkept := ((start_inv h ch).reaches hr).batch t d hd
  by_cases hc : s.Cleared d
  · exact Or.inr (hkept.persisted hc).effective
  · exact Or.inl (hkept.synced hc [] ha (by simp))

def run (pf : Platform) : List (Event n m) → Traffic n m → Option (Traffic n m)
  | [], s => some s
  | e :: es, s => (s.step pf e).bind (run pf es)

lemma run_append (es es' : List (Event n m)) (s : Traffic n m) :
    run pf (es ++ es') s = (run pf es s).bind (run pf es') := by
  induction es generalizing s with
  | nil => rfl
  | cons e es ih =>
    simp only [List.cons_append, run, Option.bind_assoc]
    exact congrArg _ (funext ih)

lemma reaches_run {ok : Traffic n m → Event n m → Prop} {es : List (Event n m)} {s₀ : Traffic n m}
    (hok : ∀ e ∈ es, ∀ s, ok s e) (h₀ : Reaches pf ok s₀ s) (hr : run pf es s = some s') :
    Reaches pf ok s₀ s' := by
  induction es generalizing s with
  | nil =>
    obtain rfl := Option.some.inj hr
    exact h₀
  | cons e es ih =>
    obtain ⟨u, hu, hrest⟩ := Option.bind_eq_some_iff.mp hr
    exact ih (fun e' he' => hok e' (List.mem_cons_of_mem _ he'))
      (.tail e h₀ (hok e List.mem_cons_self s) hu) hrest

end Runs

section FixedRuns

def empty : ShardManager 1 := ShardManager.create {} {} {} fun _ => .empty

lemma empty_sound : empty.Each Shard.Sound := fun _ => Shard.reopen_sound _ _ _ Shard.empty_ok

def booted : Traffic 1 4 := start (ShardManager.flush {} empty).final

def sets (t : Fin 4) (value : String) : List (Event 1 4) :=
  [.write t (ascii ("set a " ++ value)) {} [], .launch t 0, .work 0, .work 0, .work 0, .finish 0]

def flushes : List (Event 1 4) :=
  [.flush 2 {}, .launch 2 0, .work 0, .work 0, .work 0, .finish 0, .leave 2, .clear 2, .clear 2]

def flushedMeanwhile : List (Event 1 4) := sets 0 "x" ++ [.append 0] ++ flushes

/-- Another session overwrites the value, and the compactor writes INDEX before the first session
syncs. -/
def compactedMeanwhile : List (Event 1 4) :=
  flushedMeanwhile ++ sets 1 "y" ++ [.compact 3 0 .plain, .work 0, .sync 0, .sync 0]

/-- The flushed part of INDEX gives the key a place that ends behind the flushed part of its
segment. -/
def exposed (shard : Shard) (key : Key) : Bool :=
  match shard.saved.view key with
  | none => false
  | some loc =>
    match shard.storageManager.segments.lookup loc.segmentId with
    | none => true
    | some seg => seg.file.synced.length < loc.offset + loc.size

lemma onDisk_of_exposed {shard : Shard} {key : Key} (h : exposed shard key = true) :
    shard.onDisk key = none := by
  simp only [exposed] at h
  rw [Shard.onDisk, Shard.recovered]
  cases hv : shard.saved.view key with
  | none => rfl
  | some loc =>
    rw [hv] at h
    rw [Option.bind_some, if_neg]
    rintro ⟨c, hc, hle⟩
    obtain ⟨seg, hs, rfl⟩ := StorageManager.lookup_of_synced hc
    simp only [hs, decide_eq_true_eq] at h
    omega

/-- Every place of the index is within the flushed part of its segment. -/
def covered (shard : Shard) : Bool :=
  shard.tree.entries.all fun e =>
    (shard.storageManager.segments.lookup e.2.segmentId).any fun seg => e.2.offset + e.2.size ≤
      seg.file.synced.length

lemma inBounds_of_covered {shard : Shard} (h : covered shard = true) {key : Key} {loc : Location}
    (hk : shard.tree.lookup key = some loc) : shard.synced.InBounds loc := by
  have he := List.all_eq_true.mp h ⟨key, loc⟩ (AList.mem_lookup_iff.mp hk)
  cases hs : shard.storageManager.segments.lookup loc.segmentId with
  | none => simp [hs] at he
  | some seg => exact ⟨seg.file.synced, StorageManager.synced_of_lookup hs, by simpa [hs] using he⟩

def answering (s : Traffic 1 4) : Bool :=
  match (s.threads 0).activity, (s.threads 0).batch with
  | .syncing [], [d] =>
    d.wal = 0 && d.rank = 0 && d.tasks.any fun task =>
      match task.op with
      | .set key _ => key = ascii "a"
      | _ => false
  | _, _ => false

lemma answering_spec {s : Traffic 1 4} (h : answering s = true) :
    (s.threads 0).activity = .syncing [] ∧
      ∃ d, (s.threads 0).batch = [d] ∧ d.wal = 0 ∧ d.rank = 0 ∧ d.Touches (ascii "a") := by
  simp only [answering] at h
  split at h
  case h_1 d ha hb =>
    simp only [Bool.and_eq_true, decide_eq_true_eq, List.any_eq_true] at h
    obtain ⟨⟨hw, hr⟩, task, ht, hop⟩ := h
    refine ⟨ha, d, hb, hw, hr, task, ht, ?_⟩
    split at hop
    case h_1 key value hset =>
      rw [hset]
      exact (of_decide_eq_true hop).symm
    case h_2 => cases hop
  case h_2 => cases h

def compactedAtOnce : List (Event 1 4) :=
  flushedMeanwhile ++ .compact 3 0 .plain :: [.work 0, .sync 0, .sync 0]

theorem compactedAtOnce_durable : ∃ s : Traffic 1 4,
    Reaches Op.oneHash Careful booted s ∧ (s.threads 0).activity = .syncing [] ∧
    (s.threads 0).batch ≠ [] ∧ ∀ d ∈ (s.threads 0).batch, s.Synced d ∨ s.Effective d := by
  obtain ⟨s, hs⟩ : ∃ s, run Op.oneHash compactedAtOnce booted = some s :=
    Option.isSome_iff_exists.mp (by decide +kernel)
  have hanswer : answering s = true := by
    have heval : (run Op.oneHash compactedAtOnce booted).all answering = true := by decide +kernel
    simpa [hs] using heval
  rw [compactedAtOnce, run_append] at hs
  obtain ⟨u, hu, hrest⟩ := Option.bind_eq_some_iff.mp hs
  obtain ⟨v, hv, hend⟩ := Option.bind_eq_some_iff.mp hrest
  have hcovered : covered (u.manager.shards 0) = true := by
    have heval : (run Op.oneHash flushedMeanwhile booted).all
        (fun u => covered (u.manager.shards 0)) = true := by decide +kernel
    simpa [hu] using heval
  have hfew : (u.manager.shards 0).FewKeys := by
    have heval : (run Op.oneHash flushedMeanwhile booted).all
        (fun u => (u.manager.shards 0).FewKeys) = true := by decide +kernel
    simpa [hu] using heval
  have hr : Reaches Op.oneHash Careful booted s := by
    refine reaches_run (by simp [Careful]) (.tail (.compact 3 0 .plain) ?_ ?_ hv) hend
    · exact reaches_run (by simp [flushedMeanwhile, sets, flushes, Careful]) (.refl _) hu
    · exact ⟨hfew, fun _ _ _ _ _ _ loc hk => Or.inl (inBounds_of_covered hcovered hk)⟩
  obtain ⟨ha, d, hb, -⟩ := answering_spec hanswer
  exact ⟨s, hr, ha, by simp [hb], reply_durable empty_sound {} hr 0 ha⟩

/-- The value was flushed, then overwritten, and INDEX names the place of the new value before its
bytes are flushed. -/
theorem compactedMeanwhile_lost :
    ¬ ∀ s : Traffic 1 4, Reaches Op.oneHash (fun _ _ => True)
    (start (ShardManager.flush {} empty).final) s → ∀ t,
      (s.threads t).activity = .syncing [] → ∀ d ∈ (s.threads t).batch, s.Synced d ∨
        s.Effective d := by
  intro hall
  obtain ⟨s, hs⟩ : ∃ s, run Op.oneHash compactedMeanwhile booted = some s :=
    Option.isSome_iff_exists.mp (by decide +kernel)
  have heval : ∀ p : Traffic 1 4 → Bool, (run Op.oneHash compactedMeanwhile booted).all p = true →
      p s = true := by
    intro p hp
    simpa [hs] using hp
  obtain ⟨ha, d, hb, hwal, hrank, htouch⟩ := answering_spec (heval answering (by decide +kernel))
  have hempty := heval (fun s => (s.manager.shards 0).wal.file.synced = []) (by decide +kernel)
  have hnone := onDisk_of_exposed
    (heval (fun s => exposed (s.manager.shards 0) (ascii "a")) (by decide +kernel))
  have hlater := heval (fun s => (s.history 0).all fun p => p.1 < 1 || (p.2 (ascii "a")).isSome)
    (by decide +kernel)
  rcases hall s (reaches_run (by simp) (.refl _) hs) 0 ha d (by simp [hb])
    with ⟨rs, hr, hmem⟩ | heff
  · have hlen := walCodec.length_le_encodeAll rs
    rw [← hr, hwal, of_decide_eq_true hempty] at hlen
    rw [List.eq_nil_of_length_eq_zero (Nat.le_zero.mp hlen)] at hmem
    cases hmem
  · obtain ⟨p, hp, hle, he⟩ := heff 0 (ascii "a") htouch
    rw [hnone] at he
    have hp' := List.all_eq_true.mp hlater p hp
    rw [← he] at hp'
    simp [hrank] at hle hp'
    omega

end FixedRuns

end Zest.Traffic
