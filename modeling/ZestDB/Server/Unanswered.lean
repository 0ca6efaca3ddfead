import ZestDB.Server.Traffic

/-! Where the writes of the batches that are not answered yet are kept: in a WAL, or, once a flush
has cleared it, in INDEX and the segments. -/

namespace Zest

open Foundations

namespace Shard

variable {s : Shard}

lemma Settled.patch (h : Settled s s) (wal : WAL) (cache : LRUCache) :
    Settled { s with wal := wal, cache := cache } { s with wal := wal, cache := cache } :=
  ⟨h.index, rfl, h.bytes⟩

lemma writes_patch (s : Shard) (wal : WAL) (cache : LRUCache) :
    s.Writes { s with wal := wal, cache := cache } :=
  ⟨rfl, .refl _⟩

end Shard

namespace Traffic

variable {n m : ℕ} {s s' : Traffic n m} {i : Fin n} {t : Fin m} {d : Done n} {rank : ℕ} {key : Key}

def line (s : Traffic n m) (i : Fin n) : List Shard :=
  s.manager.shards i :: ((s.jobs i).map Job.rest).getD []

def ending (s : Traffic n m) (i : Fin n) : Shard :=
  (((s.jobs i).map Job.rest).getD []).getLast?.getD (s.manager.shards i)

/-- The outcomes of a key in the shard since the time when `rank` records had been appended. -/
def Since (s : Traffic n m) (i : Fin n) (rank : ℕ) (key : Key) (v : Option Value) : Prop :=
  ∃ p ∈ s.history i, rank ≤ p.1 ∧ v = p.2 key

def Written (s : Traffic n m) (d : Done n) : Prop :=
  ∃ rs, (s.manager.shards d.wal).wal.file.content = walCodec.encodeAll rs ∧ d.entry ∈ rs

/-- The record of the command is in the flushed part of its WAL. -/
def Synced (s : Traffic n m) (d : Done n) : Prop :=
  ∃ rs, (s.manager.shards d.wal).wal.file.synced = walCodec.encodeAll rs ∧ d.entry ∈ rs

/-- The flushed INDEX and segments give, for each key the command wrote, the value of a moment after
the command. -/
def Effective (s : Traffic n m) (d : Done n) : Prop :=
  ∀ i key, d.Touches key → s.Since i (d.rank + 1) key ((s.manager.shards i).onDisk key)

def Persisted (s : Traffic n m) (d : Done n) : Prop :=
  ∀ i key, d.Touches key → ∀ u ∈ s.line i, u.Assured (s.Since i (d.rank + 1) key) key

/-- The WAL was cleared after the record was appended to it. -/
def Cleared (s : Traffic n m) (d : Done n) : Prop := d.rank < s.cleared d.wal

/-- A pass of the compactor lists every key, and does not begin while a key that a command of an
unanswered batch wrote, and whose record a flush has cleared, has a flushed value but is indexed at
bytes that are not flushed. -/
def Careful (s : Traffic n m) : Event n m → Prop
  | .compact _ i _ => (s.manager.shards i).FewKeys ∧
      ∀ u, ∀ d ∈ (s.threads u).batch, s.Cleared d → ∀ key, d.Touches key →
        ∀ loc, (s.manager.shards i).tree.lookup key = some loc →
          (s.manager.shards i).synced.InBounds loc ∨ (s.manager.shards i).onDisk key = none
  | _ => True

lemma Persisted.effective (h : s.Persisted d) : s.Effective d := fun i key hk =>
  (h i key hk _ List.mem_cons_self).onDisk

lemma Since.mono (hh : s.history i ⊆ s'.history i) {v : Option Value} (h : s.Since i rank key v) :
    s'.Since i rank key v := by
  obtain ⟨p, hp, hr, he⟩ := h
  exact ⟨p, hh hp, hr, he⟩

/-- Every state of `s'` goes on from one of `s` without a change to INDEX on disk. -/
structure Calm (s s' : Traffic n m) : Prop where
  line : ∀ i, ∀ u ∈ s'.line i, ∃ v ∈ s.line i, v.Writes u
  history : ∀ i, s.history i ⊆ s'.history i

lemma Calm.assured (hc : Calm s s') (h : ∀ u ∈ s.line i, u.Assured (s.Since i rank key) key) :
    ∀ u ∈ s'.line i, u.Assured (s'.Since i rank key) key := by
  intro u hu
  obtain ⟨v, hv, hw⟩ := hc.line i u hu
  exact ((h v hv).writes hw).mono fun _ => .mono (hc.history i)

lemma Persisted.calm (h : s.Persisted d) (hc : Calm s s') : s'.Persisted d :=
  fun i key hk => hc.assured (h i key hk)

structure ShardOk (s : Traffic n m) (i : Fin n) : Prop where
  sound : ∀ u ∈ s.line i, u.Sound
  log : ∃ rs ts, (s.manager.shards i).wal.file.synced = walCodec.encodeAll rs ∧
    (s.manager.shards i).wal.file.pending = walCodec.encodeAll ts
  ranks : ∀ p ∈ s.history i, p.1 ≤ s.logged
  sorted : (s.history i).Pairwise fun p q => p.1 ≤ q.1
  current : s.jobs i = none →
    ∃ before rank, s.history i = before ++ [(rank, (s.manager.shards i).toMap)]
  cleared : s.cleared i ≤ s.logged

lemma ShardOk.shard_sound (h : s.ShardOk i) : (s.manager.shards i).Sound :=
  h.sound _ List.mem_cons_self

lemma ShardOk.present (h : s.ShardOk i) (hj : s.jobs i = none) {v : Option Value}
    (hs : s.Since i rank key v) (key' : Key) :
    s.Since i rank key' ((s.manager.shards i).toMap key') := by
  obtain ⟨before, r, hh⟩ := h.current hj
  obtain ⟨p, hp, hr, -⟩ := hs
  refine ⟨(r, (s.manager.shards i).toMap), by simp [hh], ?_, rfl⟩
  have hsorted := h.sorted
  rw [hh] at hp hsorted
  rcases List.mem_append.mp hp with hp | hp
  · exact hr.trans ((List.pairwise_append.mp hsorted).2.2 p hp _ (by simp))
  · obtain rfl := List.mem_singleton.mp hp
    exact hr

structure Through (s : Traffic n m) (i : Fin n) : Prop where
  assured : ∀ key, ∀ u ∈ s.line i, u.Assured (s.Since i s.logged key) key
  settled : Shard.Settled (s.ending i) (s.ending i)

structure Kept (s : Traffic n m) (t : Fin m) (d : Done n) : Prop where
  rank : d.rank < s.logged
  written : ¬ s.Cleared d → s.Written d
  persisted : s.Cleared d → s.Persisted d
  synced : ¬ s.Cleared d → ∀ todo, (s.threads t).activity = .syncing todo → d.wal ∉ todo →
    s.Synced d

def Purpose.Serves : Purpose n → Shard.Exclusive → Prop
  | .flush, op => ∃ ch, op = .flush ch
  | .compact, _ => False
  | _, op => ∀ ch, op ≠ .compact ch

structure Inv (s : Traffic n m) : Prop where
  shard : ∀ i, s.ShardOk i
  lock : ∀ t u, t ≠ u → (s.threads t).activity.alone = true → (s.threads u).activity.holds = false
  job : ∀ i job, s.jobs i = some job → ∃ purpose todo, (s.threads job.owner).activity =
    .running purpose todo ∧ (purpose = .flush → Shard.Settled (s.ending i) (s.ending i))
  tasks : ∀ t purpose todo, (s.threads t).activity = .running purpose todo →
    ∀ task ∈ todo, purpose.Serves task.op
  short : ∀ t command tasks todo, (s.threads t).activity = .running (.write command tasks) todo →
    command.length < 2 ^ 32
  flush : ∀ t todo, (s.threads t).activity = .running .flush todo → ∀ i,
    (∃ task ∈ todo, task.shard = i) ∨ (∃ rest, s.jobs i = some ⟨t, rest⟩) ∨ s.Through i
  clearing : ∀ t todo, (s.threads t).activity = .clearing todo → ∀ i, s.Through i
  batch : ∀ t, ∀ d ∈ (s.threads t).batch, s.Kept t d

structure Turns (s : Traffic n m) (t : Fin m) (a : Activity n) : Prop where
  alone : a.alone = true → ∀ u, u ≠ t → (s.threads u).activity.holds = false
  holds : a.holds = true → ∀ u, u ≠ t → (s.threads u).activity.alone = false
  job : ∀ i job, s.jobs i = some job → job.owner = t → ∃ purpose todo, a = .running purpose todo ∧
    (purpose = .flush → Shard.Settled (s.ending i) (s.ending i))
  tasks : ∀ purpose todo, a = .running purpose todo → ∀ task ∈ todo, purpose.Serves task.op
  short : ∀ command tasks todo, a = .running (.write command tasks) todo → command.length < 2 ^ 32
  flush : ∀ todo, a = .running .flush todo → ∀ i,
    (∃ task ∈ todo, task.shard = i) ∨ (∃ rest, s.jobs i = some ⟨t, rest⟩) ∨ s.Through i
  clearing : ∀ todo, a = .clearing todo → ∀ i, s.Through i

lemma threads_withActivity (s : Traffic n m) (t u : Fin m) (a : Activity n) :
    (s.withActivity t a).threads u = if u = t then
    { s.threads t with activity := a } else s.threads u :=
  Function.update_apply ..

lemma Inv.turn (h : s.Inv) {a : Activity n} (ht : s.Turns t a) {batch : List (Done n)}
    (hb : ∀ d ∈ batch, d.rank < s.logged ∧ (¬ s.Cleared d → s.Written d) ∧
      (s.Cleared d → s.Persisted d) ∧
      (¬ s.Cleared d → ∀ todo, a = .syncing todo → d.wal ∉ todo → s.Synced d)) :
    ({ s with threads := Function.update s.threads t ⟨a, batch⟩ } : Traffic n m).Inv := by
  have hact : ∀ u, (Function.update s.threads t ⟨a, batch⟩ u).activity = if u = t then
      a else (s.threads u).activity := by
    intro u
    rw [Function.update_apply]
    split_ifs <;> rfl
  refine ⟨fun i => ?_, fun u v huv => ?_, fun i job hj => ?_, fun u purpose todo => ?_,
    fun u command tasks todo => ?_, fun u todo => ?_, fun u todo => ?_, fun u d => ?_⟩
  · obtain ⟨hsound, hlog, hranks, hsorted, hcurrent, hcl⟩ := h.shard i
    exact ⟨hsound, hlog, hranks, hsorted, hcurrent, hcl⟩
  · simp only [hact]
    by_cases hu : u = t
    · subst hu
      rw [if_pos rfl, if_neg (Ne.symm huv)]
      exact fun ha => ht.alone ha v (Ne.symm huv)
    · rw [if_neg hu]
      split_ifs with hv
      · intro ha
        by_contra hn
        exact absurd ha (by simp [ht.holds (by simpa using hn) u hu])
      · exact h.lock u v huv
  · simp only [hact]
    split_ifs with ho
    · exact ht.job i job hj ho
    · exact h.job i job hj
  · simp only [hact]
    split_ifs
    · exact ht.tasks purpose todo
    · exact h.tasks u purpose todo
  · simp only [hact]
    split_ifs
    · exact ht.short command tasks todo
    · exact h.short u command tasks todo
  · simp only [hact]
    split_ifs with hu
    · intro ha i
      subst hu
      rcases ht.flush todo ha i with h1 | h2 | h3
      · exact Or.inl h1
      · exact Or.inr (Or.inl h2)
      · exact Or.inr (Or.inr ⟨h3.assured, h3.settled⟩)
    · intro ha i
      rcases h.flush u todo ha i with h1 | h2 | h3
      · exact Or.inl h1
      · exact Or.inr (Or.inl h2)
      · exact Or.inr (Or.inr ⟨h3.assured, h3.settled⟩)
  · simp only [hact]
    split_ifs
    · intro ha i
      have h3 := ht.clearing todo ha i
      exact ⟨h3.assured, h3.settled⟩
    · intro ha i
      have h3 := h.clearing u todo ha i
      exact ⟨h3.assured, h3.settled⟩
  · intro hd
    simp only [Function.update_apply] at hd
    split_ifs at hd with hu
    · obtain ⟨hrank, hwritten, hpersisted, hsynced⟩ := hb d hd
      refine ⟨hrank, hwritten, hpersisted, fun hn todo ha => hsynced hn todo ?_⟩
      simpa only [hact, if_pos hu] using ha
    · obtain ⟨hrank, hwritten, hpersisted, hsynced⟩ := h.batch u d hd
      refine ⟨hrank, hwritten, hpersisted, fun hn todo ha => hsynced hn todo ?_⟩
      simpa only [hact, if_neg hu] using ha

lemma Inv.act (h : s.Inv) {a : Activity n} (ht : s.Turns t a)
    (hs : ∀ todo, a = .syncing todo → ∀ d ∈ (s.threads t).batch, ¬ s.Cleared d → d.wal ∉ todo →
      s.Synced d) :
    (s.withActivity t a).Inv := by
  refine h.turn ht fun d hd => ?_
  obtain ⟨hrank, hwritten, hpersisted, -⟩ := h.batch t d hd
  exact ⟨hrank, hwritten, hpersisted, fun hn todo ha => hs todo ha d hd hn⟩

lemma shards_withShard (s : Traffic n m) (i j : Fin n) (v : Shard) :
    (s.withShard i v).manager.shards j = if j = i then v else s.manager.shards j :=
  Function.update_apply ..

def Patched (s : Traffic n m) (i : Fin n) (v : Shard) : Prop :=
  ∃ wal cache, v = { s.manager.shards i with wal := wal, cache := cache }

lemma Patched.calm {v : Shard} (hv : s.Patched i v) : Calm s (s.withShard i v) := by
  obtain ⟨wal, cache, rfl⟩ := hv
  refine ⟨fun j u hu => ?_, fun j => List.Subset.refl _⟩
  rcases List.mem_cons.mp hu with rfl | hu
  · refine ⟨s.manager.shards j, List.mem_cons_self, ?_⟩
    rw [shards_withShard]
    split_ifs with hj
    · rw [hj]
      exact Shard.writes_patch _ _ _
    · exact .refl _
  · exact ⟨u, List.mem_cons_of_mem _ hu, .refl u⟩

lemma Patched.settled {v : Shard} (hv : s.Patched i v) {j : Fin n}
    (h : Shard.Settled (s.ending j) (s.ending j)) :
    Shard.Settled ((s.withShard i v).ending j) ((s.withShard i v).ending j) := by
  by_cases hj : j = i
  · subst hj
    cases hr : (((s.jobs j).map Job.rest).getD []).getLast? with
    | none =>
      have he : (s.withShard j v).ending j = v := by
        change (((s.jobs j).map Job.rest).getD []).getLast?.getD
          ((s.withShard j v).manager.shards j) = v
        rw [hr, shards_withShard, if_pos rfl, Option.getD_none]
      have he' : s.ending j = s.manager.shards j := by rw [Traffic.ending, hr, Option.getD_none]
      obtain ⟨wal, cache, hv⟩ := hv
      rw [he, hv]
      rw [he'] at h
      exact h.patch wal cache
    | some u =>
      have he : (s.withShard j v).ending j = s.ending j := by
        change (((s.jobs j).map Job.rest).getD []).getLast?.getD
          ((s.withShard j v).manager.shards j) = s.ending j
        rw [Traffic.ending, hr, Option.getD_some, Option.getD_some]
      rw [he]
      exact h
  · have he : (s.withShard i v).ending j = s.ending j := by
      change (((s.jobs j).map Job.rest).getD []).getLast?.getD
        ((s.withShard i v).manager.shards j) = s.ending j
      rw [shards_withShard, if_neg hj]
      rfl
    rw [he]
    exact h

lemma Patched.through {v : Shard} (hv : s.Patched i v) {j : Fin n} (h : s.Through j) :
    (s.withShard i v).Through j :=
  ⟨fun key => hv.calm.assured (h.assured key), hv.settled h.settled⟩

lemma Inv.patch (h : s.Inv) {v : Shard} (hv : s.Patched i v) (hs : v.Sound)
    (hlog : ∃ rs ts, v.wal.file.synced = walCodec.encodeAll rs ∧ v.wal.file.pending =
      walCodec.encodeAll ts)
    (hw : ∀ d, d.wal = i → d.rank < s.logged → ¬ s.Cleared d → s.Written d →
      (s.withShard i v).Written d)
    (hy : ∀ d, d.wal = i → d.rank < s.logged → ¬ s.Cleared d → s.Synced d →
      (s.withShard i v).Synced d) :
    (s.withShard i v).Inv := by
  have hcalm := hv.calm
  refine ⟨fun j => ?_, h.lock, fun j job hj => ?_, h.tasks, h.short, fun t todo ha j => ?_,
    fun t todo ha j => hv.through (h.clearing t todo ha j), fun t d hd => ?_⟩
  · obtain ⟨hsound, hl, hranks, hsorted, hcurrent, hcl⟩ := h.shard j
    refine ⟨fun u hu => ?_, ?_, hranks, hsorted, fun hj => ?_, hcl⟩
    · rcases List.mem_cons.mp hu with rfl | hu
      · rw [shards_withShard]
        split_ifs
        · exact hs
        · exact hsound _ List.mem_cons_self
      · exact hsound u (List.mem_cons_of_mem _ hu)
    · rw [shards_withShard]
      split_ifs
      · exact hlog
      · exact hl
    · obtain ⟨before, rank, hh⟩ := hcurrent hj
      refine ⟨before, rank, ?_⟩
      rw [shards_withShard]
      split_ifs with hji
      · subst hji
        obtain ⟨wal, cache, rfl⟩ := hv
        exact hh
      · exact hh
  · obtain ⟨purpose, todo, ha, hf⟩ := h.job j job hj
    exact ⟨purpose, todo, ha, fun hp => hv.settled (hf hp)⟩
  · rcases h.flush t todo ha j with h1 | h2 | h3
    · exact Or.inl h1
    · exact Or.inr (Or.inl h2)
    · exact Or.inr (Or.inr (hv.through h3))
  · obtain ⟨hrank, hwritten, hpersisted, hsynced⟩ := h.batch t d hd
    have hshard : d.wal ≠ i → (s.withShard i v).manager.shards d.wal = s.manager.shards d.wal :=
      fun hne => by
      rw [shards_withShard, if_neg hne]
    refine ⟨hrank, fun hn => ?_, fun hc => (hpersisted hc).calm hcalm, fun hn todo ha hmem => ?_⟩
    · by_cases hi : d.wal = i
      · exact hw d hi hrank hn (hwritten hn)
      · rw [Written, hshard hi]
        exact hwritten hn
    · by_cases hi : d.wal = i
      · exact hy d hi hrank hn (hsynced hn todo ha hmem)
      · rw [Synced, hshard hi]
        exact hsynced hn todo ha hmem

lemma jobs_begin (s : Traffic n m) (t : Fin m) (i j : Fin n) (op : Shard.Exclusive) :
    (s.begin t i op).jobs j =
      if j = i then some ⟨t,
        (op.run (s.manager.shards i)).visited ++ [(op.run (s.manager.shards i)).final]⟩
          else s.jobs j :=
  Function.update_apply ..

lemma line_begin (s : Traffic n m) (t : Fin m) (i : Fin n) (op : Shard.Exclusive) :
    (s.begin t i op).line i = s.manager.shards i ::
      ((op.run (s.manager.shards i)).visited ++ [(op.run (s.manager.shards i)).final]) := by
  rw [line, jobs_begin, if_pos rfl]
  rfl

lemma ending_begin (s : Traffic n m) (t : Fin m) (i : Fin n) (op : Shard.Exclusive) :
    (s.begin t i op).ending i = (op.run (s.manager.shards i)).final := by
  rw [ending, jobs_begin, if_pos rfl]
  simp

lemma begin_other {j : Fin n} (hj : j ≠ i) (op : Shard.Exclusive) :
    (s.begin t i op).line j = s.line j ∧ (s.begin t i op).ending j = s.ending j := by
  have hjobs : (s.begin t i op).jobs j = s.jobs j := by rw [jobs_begin, if_neg hj]
  rw [line, line, ending, ending, hjobs]
  exact ⟨rfl, rfl⟩

lemma within_line {P : Shard → Prop} {op : Shard.Exclusive}
    (h : Traced.Within P op.run (s.manager.shards i)) :
    ∀ u ∈ (s.begin t i op).line i, P u := by
  rw [line_begin, ← List.cons_append]
  intro u hu
  rcases List.mem_append.mp hu with hu | hu
  · exact h u hu
  · obtain rfl := List.mem_singleton.mp hu
    exact h.final op.run_tracked

lemma begin_assured (h : s.ShardOk i) {op : Shard.Exclusive} (hadm : s.Admits i op)
    (ha : ∀ u ∈ s.line i, u.Assured (s.Since i rank key) key)
    (hsafe : op.Safe (s.Since i rank key) key (s.manager.shards i)) :
    ∀ u ∈ (s.begin t i op).line i, u.Assured ((s.begin t i op).Since i rank key) key := by
  have hfirst := ha _ List.mem_cons_self
  have hidle : s.jobs i = none := by simpa using hadm.1
  exact within_line (op.run_assured hfirst h.shard_sound
    (h.present hidle hfirst.onDisk key) hsafe hadm.2.2)

lemma Inv.begin (h : s.Inv) {purpose : Purpose n} {todo : List (Task n)} {op : Shard.Exclusive}
    (ha : (s.threads t).activity = .running purpose todo) (hadm : s.Admits i op)
    (hflush : purpose = .flush → ∃ ch, op = .flush ch)
    (hcompact : purpose = .compact → ∃ ch, op = .compact ch)
    (hcareful : ∀ ch, op = .compact ch → s.Careful (.compact t i ch)) : (s.begin t i op).Inv := by
  have hidle : s.jobs i = none := by simpa using hadm.1
  have hsound := (h.shard i).shard_sound
  have hlists : op.Lists (s.manager.shards i) := by
    cases op with
    | compact ch => exact (hcareful ch rfl).1
    | _ => trivial
  -- a flush of another thread has let go of every other purpose but the compactor's
  have hthrough : ∀ u, u ≠ t → (s.threads u).activity.alone = true → s.Through i →
      (s.begin t i op).Through i := by
    intro u hu halone hth
    have hfree := h.lock u t hu halone
    obtain ⟨ch, rfl⟩ : ∃ ch, op = .compact ch := by
      refine hcompact ?_
      rw [ha] at hfree
      cases purpose <;> first | rfl | cases hfree
    have hending : s.ending i = s.manager.shards i := by simp [ending, hidle]
    have hin : ∀ k loc, (s.manager.shards i).tree.lookup k = some loc →
        (s.manager.shards i).synced.InBounds loc := by
      intro k loc hk
      have hset := hth.settled
      rw [hending] at hset
      exact (hset.bytes k loc hk).1
    refine ⟨fun key => begin_assured (h.shard i) hadm (hth.assured key) ⟨hlists,
      fun loc hk => Or.inl (hin key loc hk)⟩, ?_⟩
    rw [ending_begin]
    exact Shard.compactorPass_settled hsound hlists hin hadm.2.2
  have hother : ∀ j, j ≠ i → s.Through j → (s.begin t i op).Through j := by
    intro j hj hth
    obtain ⟨hline, hend⟩ := begin_other (s := s) (t := t) hj op
    refine ⟨fun key => ?_, ?_⟩
    · rw [hline]
      exact hth.assured key
    · rw [hend]
      exact hth.settled
  refine ⟨fun j => ?_, h.lock, fun j job hj => ?_, h.tasks, h.short, fun u todo' hu j => ?_,
    fun u todo' hu j => ?_, fun u d hd => ?_⟩
  · obtain ⟨hs, hlog, hranks, hsorted, hcurrent, hcl⟩ := h.shard j
    by_cases hji : j = i
    · subst hji
      refine ⟨within_line (Shard.Exclusive.run_sound hsound hadm.2.1 hlists hadm.2.2), hlog, hranks,
        hsorted, fun hn => ?_, hcl⟩
      rw [jobs_begin, if_pos rfl] at hn
      cases hn
    · have hjobs : (s.begin t i op).jobs j = s.jobs j := by rw [jobs_begin, if_neg hji]
      refine ⟨?_, hlog, hranks, hsorted, fun hn => hcurrent (hjobs ▸ hn), hcl⟩
      rw [(begin_other hji op).1]
      exact hs
  · rw [jobs_begin] at hj
    split_ifs at hj with hji
    · obtain rfl := Option.some.inj hj
      refine ⟨purpose, todo, ha, fun hp => ?_⟩
      obtain ⟨ch, rfl⟩ := hflush hp
      rw [hji, ending_begin]
      exact Shard.flushData_settled hsound ch
    · obtain ⟨purpose', todo', ha', hset⟩ := h.job j job hj
      refine ⟨purpose', todo', ha', fun hp => ?_⟩
      rw [(begin_other hji op).2]
      exact hset hp
  · change (s.threads u).activity = _ at hu
    by_cases hji : j = i
    · subst hji
      by_cases hut : u = t
      · subst hut
        exact Or.inr (Or.inl ⟨_, by rw [jobs_begin, if_pos rfl]⟩)
      · rcases h.flush u todo' hu j with h1 | ⟨rest, h2⟩ | h3
        · exact Or.inl h1
        · rw [hidle] at h2
          cases h2
        · exact Or.inr (Or.inr (hthrough u hut (by simp [hu, Activity.alone]) h3))
    · rcases h.flush u todo' hu j with h1 | ⟨rest, h2⟩ | h3
      · exact Or.inl h1
      · exact Or.inr (Or.inl ⟨rest, by rw [jobs_begin, if_neg hji, h2]⟩)
      · exact Or.inr (Or.inr (hother j hji h3))
  · change (s.threads u).activity = _ at hu
    have h3 := h.clearing u todo' hu j
    by_cases hji : j = i
    · subst hji
      refine hthrough u ?_ (by simp [hu, Activity.alone]) h3
      rintro rfl
      rw [ha] at hu
      cases hu
    · exact hother j hji h3
  · obtain ⟨hrank, hwritten, hpersisted, hsynced⟩ := h.batch u d hd
    refine ⟨hrank, hwritten, fun hc j key hk => ?_, hsynced⟩
    have hp := hpersisted hc j key hk
    by_cases hji : j = i
    · subst hji
      refine begin_assured (h.shard j) hadm hp ?_
      cases op with
      | compact ch =>
        refine ⟨hlists, fun loc hloc => ?_⟩
        refine ((hcareful ch rfl).2 u d hd hc key hk loc hloc).imp_right fun hnone => ?_
        rw [← hnone]
        exact (hp _ List.mem_cons_self).onDisk
      | _ => trivial
    · rw [(begin_other hji op).1]
      exact hp

def worked (s : Traffic n m) (i : Fin n) (owner : Fin m)
    (u : Shard) (rest : List Shard) : Traffic n m :=
  { s.withShard i { u with wal := (s.manager.shards i).wal
    } with jobs := Function.update s.jobs i (some ⟨owner, rest⟩) }

section Worked

variable {owner : Fin m} {u : Shard} {rest : List Shard}

lemma worked_shards (j : Fin n) : (s.worked i owner u rest).manager.shards j =
    if j = i then { u with wal := (s.manager.shards i).wal } else s.manager.shards j :=
  Function.update_apply ..

lemma worked_jobs (j : Fin n) : (s.worked i owner u rest).jobs j = if j = i then some ⟨owner, rest⟩
    else s.jobs j :=
  Function.update_apply ..

lemma worked_wal
    (j : Fin n) : ((s.worked i owner u rest).manager.shards j).wal = (s.manager.shards j).wal := by
  rw [worked_shards]
  split_ifs with hj
  · rw [hj]
  · rfl

lemma worked_other {j : Fin n} (hj : j ≠ i) :
    (s.worked i owner u rest).line j = s.line j ∧
    (s.worked i owner u rest).ending j = s.ending j := by
  rw [line, line, ending, ending, worked_shards, worked_jobs, if_neg hj, if_neg hj]
  exact ⟨rfl, rfl⟩

lemma worked_line :
    (s.worked i owner u rest).line i = { u with wal := (s.manager.shards i).wal } :: rest := by
  rw [line, worked_shards, worked_jobs, if_pos rfl, if_pos rfl]
  rfl

variable (hj : s.jobs i = some ⟨owner, u :: rest⟩)

include hj

lemma line_of_job : s.line i = s.manager.shards i :: u :: rest := by
  rw [line, hj]
  rfl

lemma worked_calm : Calm s (s.worked i owner u rest) := by
  refine ⟨fun j v hv => ?_, fun j => List.Subset.refl _⟩
  by_cases hji : j = i
  · subst hji
    rw [worked_line] at hv
    rcases List.mem_cons.mp hv with rfl | hv
    · exact ⟨u, by simp [line_of_job hj], Shard.writes_patch u _ u.cache⟩
    · exact ⟨v, by simp [line_of_job hj, hv], .refl v⟩
  · rw [(worked_other hji).1] at hv
    exact ⟨v, hv, .refl v⟩

lemma worked_settled {j : Fin n} (h : Shard.Settled (s.ending j) (s.ending j)) :
    Shard.Settled ((s.worked i owner u rest).ending j) ((s.worked i owner u rest).ending j) := by
  by_cases hji : j = i
  · subst hji
    rw [ending, hj] at h
    rw [ending, worked_shards, worked_jobs, if_pos rfl, if_pos rfl]
    cases hr : rest.getLast? with
    | none =>
      obtain rfl := List.getLast?_eq_none_iff.mp hr
      exact h.patch (s.manager.shards j).wal u.cache
    | some v =>
      simp only [Option.map_some, Option.getD_some, hr, List.getLast?_cons] at h ⊢
      exact h
  · rw [(worked_other hji).2]
    exact h

lemma worked_through {j : Fin n} (h : s.Through j) : (s.worked i owner u rest).Through j :=
  ⟨fun key => (worked_calm hj).assured (h.assured key), worked_settled hj h.settled⟩

lemma Inv.work (h : s.Inv) : (s.worked i owner u rest).Inv := by
  refine ⟨fun j => ?_, h.lock, fun j job hjob => ?_, h.tasks, h.short, fun v todo ha j => ?_,
    fun v todo ha j => worked_through hj (h.clearing v todo ha j), fun v d hd => ?_⟩
  · obtain ⟨hsound, hlog, hranks, hsorted, hcurrent, hcl⟩ := h.shard j
    refine ⟨fun v hv => ?_, by rw [worked_wal]; exact hlog, hranks, hsorted, fun hn => ?_, hcl⟩
    · by_cases hji : j = i
      · subst hji
        rw [worked_line] at hv
        rw [line_of_job hj] at hsound
        rcases List.mem_cons.mp hv with rfl | hv
        · exact (hsound u (by simp)).of_wal (hsound _ List.mem_cons_self).wal
        · exact hsound v (by simp [hv])
      · rw [(worked_other hji).1] at hv
        exact hsound v hv
    · rw [worked_jobs] at hn
      split_ifs at hn with hji
      rw [worked_shards, if_neg hji]
      exact hcurrent hn
  · have hold : ∃ job', s.jobs j = some job' ∧ job'.owner = job.owner := by
      rw [worked_jobs] at hjob
      split_ifs at hjob with hji
      · obtain rfl := Option.some.inj hjob
        exact ⟨⟨owner, u :: rest⟩, by rw [hji, hj], rfl⟩
      · exact ⟨job, hjob, rfl⟩
    obtain ⟨job', hjob', howner⟩ := hold
    obtain ⟨purpose, todo, ha, hset⟩ := h.job j job' hjob'
    exact ⟨purpose, todo, howner ▸ ha, fun hp => worked_settled hj (hset hp)⟩
  · rcases h.flush v todo ha j with h1 | ⟨rest', h2⟩ | h3
    · exact Or.inl h1
    · right
      left
      by_cases hji : j = i
      · subst hji
        obtain ⟨rfl, -⟩ : owner = v ∧ u :: rest = rest' := by simpa [hj] using h2
        exact ⟨rest, by rw [worked_jobs, if_pos rfl]⟩
      · exact ⟨rest', by rw [worked_jobs, if_neg hji, h2]⟩
    · exact Or.inr (Or.inr (worked_through hj h3))
  · obtain ⟨hrank, hwritten, hpersisted, hsynced⟩ := h.batch v d hd
    refine ⟨hrank, fun hn => ?_, fun hc =>
      (hpersisted hc).calm (worked_calm hj), fun hn todo ha hmem => ?_⟩
    · rw [Written, worked_wal]
      exact hwritten hn
    · rw [Synced, worked_wal]
      exact hsynced hn todo ha hmem

end Worked

def finished (s : Traffic n m) (i : Fin n) : Traffic n m :=
  { s with
    jobs := Function.update s.jobs i none
    history := Function.update s.history i
      (s.history i ++ [(s.logged, (s.manager.shards i).toMap)]) }

section Finished

lemma finished_jobs (j : Fin n) : (s.finished i).jobs j = if j = i then none else s.jobs j :=
  Function.update_apply ..

lemma finished_history (j : Fin n) : (s.finished i).history j =
    if j = i then s.history i ++ [(s.logged, (s.manager.shards i).toMap)] else s.history j :=
  Function.update_apply ..

variable {owner : Fin m} (hj : s.jobs i = some ⟨owner, []⟩)

include hj

lemma finished_same (j : Fin n) : (s.finished i).line j = s.line j ∧ (s.finished i).ending j =
    s.ending j := by
  rw [line, line, ending, ending, finished_jobs]
  split_ifs with hji
  · rw [hji, hj]
    exact ⟨rfl, rfl⟩
  · exact ⟨rfl, rfl⟩

lemma finished_calm : Calm s (s.finished i) := by
  refine ⟨fun j u hu => ⟨u, (finished_same hj j).1 ▸ hu, .refl u⟩, fun j => ?_⟩
  rw [finished_history]
  split_ifs with hji
  · rw [hji]
    exact List.subset_append_left _ _
  · exact List.Subset.refl _

lemma finished_through {j : Fin n} (h : s.Through j) : (s.finished i).Through j := by
  refine ⟨fun key => (finished_calm hj).assured (h.assured key), ?_⟩
  rw [(finished_same hj j).2]
  exact h.settled

lemma through_finished (h : s.ShardOk i) (hs : Shard.Settled (s.ending i) (s.ending i)) :
    (s.finished i).Through i := by
  have hending : s.ending i = s.manager.shards i := by simp [ending, hj]
  have hline : s.line i = [s.manager.shards i] := by simp [line, hj]
  refine ⟨fun key u hu => ?_, by rw [(finished_same hj i).2]; exact hs⟩
  rw [(finished_same hj i).1, hline] at hu
  obtain rfl := List.mem_singleton.mp hu
  rw [hending] at hs
  refine .of_settled h.shard_sound.inv hs ⟨(s.logged, (s.manager.shards i).toMap), ?_, le_rfl, rfl⟩
  rw [finished_history, if_pos rfl]
  simp

lemma Inv.finish (h : s.Inv) : (s.finished i).Inv := by
  refine ⟨fun j => ?_, h.lock, fun j job hjob => ?_, h.tasks, h.short, fun v todo ha j => ?_,
    fun v todo ha j => finished_through hj (h.clearing v todo ha j), fun v d hd => ?_⟩
  · obtain ⟨hsound, hlog, hranks, hsorted, hcurrent, hcl⟩ := h.shard j
    refine ⟨by rw [(finished_same hj j).1]; exact hsound, hlog, ?_, ?_, ?_, hcl⟩
    · rw [finished_history]
      split_ifs with hji
      · subst hji
        intro p hp
        rcases List.mem_append.mp hp with hp | hp
        · exact hranks p hp
        · rw [List.mem_singleton.mp hp]
          exact le_rfl
      · exact hranks
    · rw [finished_history]
      split_ifs with hji
      · subst hji
        refine List.pairwise_append.mpr ⟨hsorted, by simp, fun p hp q hq => ?_⟩
        rw [List.mem_singleton.mp hq]
        exact hranks p hp
      · exact hsorted
    · rw [finished_jobs, finished_history]
      split_ifs with hji
      · subst hji
        exact fun _ => ⟨_, _, rfl⟩
      · exact hcurrent
  · rw [finished_jobs] at hjob
    split_ifs at hjob
    obtain ⟨purpose, todo, ha, hset⟩ := h.job j job hjob
    refine ⟨purpose, todo, ha, fun hp => ?_⟩
    rw [(finished_same hj j).2]
    exact hset hp
  · change (s.threads v).activity = _ at ha
    rcases h.flush v todo ha j with h1 | ⟨rest, h2⟩ | h3
    · exact Or.inl h1
    · by_cases hji : j = i
      · subst hji
        obtain ⟨rfl, -⟩ : owner = v ∧ [] = rest := by simpa [hj] using h2
        obtain ⟨purpose, todo', ha', hset⟩ := h.job j _ hj
        refine Or.inr (Or.inr (through_finished hj (h.shard j) (hset ?_)))
        rw [ha] at ha'
        cases ha'
        rfl
      · exact Or.inr (Or.inl ⟨rest, by rw [finished_jobs, if_neg hji, h2]⟩)
    · exact Or.inr (Or.inr (finished_through hj h3))
  · obtain ⟨hrank, hwritten, hpersisted, hsynced⟩ := h.batch v d hd
    exact ⟨hrank, hwritten, fun hc => (hpersisted hc).calm (finished_calm hj), hsynced⟩

end Finished

end Traffic

end Zest
