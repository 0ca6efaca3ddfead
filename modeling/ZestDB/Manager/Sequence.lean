import ZestDB.Manager.Refinement
import ZestDB.Foundations.Merge
import Mathlib.Logic.Relation

/-! The numbers of the WAL records over many processes, each of which starts to count at zero. -/

namespace Zest

open Foundations

namespace Shard

variable {s : Shard}

lemma verifyEntries_wal (entries : List IndexEntry) (s : Shard) :
    (Traced.forEach verifyEntry entries s).final.wal = s.wal := by
  induction entries generalizing s with
  | nil => rfl
  | cons entry entries ih =>
    rw [Traced.forEach, Traced.bind_final, ih, verifyEntry, Traced.get_bind]
    split_ifs <;> rfl

lemma reopen_wal (settings : Settings) (ch fill : Choice) (disk : Disk) :
    (reopen settings ch fill disk).wal = .openWal disk.wal :=
  verifyEntries_wal _ _

def Unbroken (s : Shard) : Prop := walCodec.encodeAll s.wal.getCmds = s.wal.file.content

instance (s : Shard) : Decidable s.Unbroken :=
  inferInstanceAs (Decidable (walCodec.encodeAll s.wal.getCmds = s.wal.file.content))

end Shard

namespace ShardManager

variable {n : ℕ}

/-- The start of a process: the shards are opened, and the counter goes past the records that the
replay reads. -/
def restart (settings : Settings) (ch fill : Choices n) (disks : Fin n → Shard.Disk) :
    ShardManager n :=
  let sm := create settings ch fill disks
  advanceAll sm.walEntries sm

def onWal (f : WAL → WAL) (i : Fin n) (sm : ShardManager n) : ShardManager n :=
  sm.setShard i { sm.shards i with wal := f (sm.shards i).wal }

/-- The shards, and every record that was appended since the first start. -/
structure Site (n : ℕ) where
  sm : ShardManager n
  appended : List (Fin n × WalEntry) := []

/-- What a process does with its WALs once the replay is over: a flush clears them one by one, or
keeps them. `A` is asked of the shard whose WAL a record is appended to. -/
inductive Serving [NeZero n] (pf : Platform) (A : Shard → Prop) : Site n → Site n → Prop
  | append (s : Site n) (key command : Bytes) : A (s.sm.shards (getShardId pf key)) →
    Serving pf A s
      ⟨(appendToWAL pf key command s.sm).final,
        s.appended ++ [(getShardId pf key, ⟨command.take (command.length % 2 ^ 32), s.sm.nextSeq⟩)]⟩
  | sync (s : Site n) (i : Fin n) : Serving pf A s { s with sm := s.sm.onWal WAL.sync i }
  | clear (s : Site n) (i : Fin n) : Serving pf A s { s with sm := s.sm.onWal WAL.clear i }
  | execute (s : Site n) (t : ShardManager n) : t.nextSeq = s.sm.nextSeq →
    (∀ i, (t.shards i).wal = (s.sm.shards i).wal) → Serving pf A s { s with sm := t }

/-- The steps of a process, and its end: each WAL keeps what was synced and a front of the rest. -/
inductive Step [NeZero n] (pf : Platform) (A : Shard → Prop) : Site n → Site n → Prop
  | serving {s t : Site n} : Serving pf A s t → Step pf A s t
  | restart (s : Site n) (settings : Settings) (ch fill : Choices n) (disks : Fin n → Shard.Disk) :
    (∀ i, (s.sm.shards i).wal.file.Survives (disks i).wal) →
    Step pf A s { s with sm := restart settings ch fill disks }

/-- The numbers put the records in order: the next one is above all that can be read, and a replay
takes the records it reads in the order in which they were appended. -/
structure Sequenced (s : Site n) : Prop where
  above : ∀ i, ∀ e ∈ (s.sm.shards i).wal.getCmds, e.seq < s.sm.nextSeq
  replays : s.sm.walEntries.Sublist (s.appended.map Prod.snd)
  distinct : (s.sm.walEntries.map WalEntry.seq).Pairwise (· < ·)

/-- The records `log` are the ones that the WALs are read as; a WAL may end in a part of one
more. -/
structure Reads (sm : ShardManager n) (log : List (Fin n × WalEntry)) : Prop where
  getCmds : ∀ i, (sm.shards i).wal.getCmds = part log i
  cut : ∀ i, ∃ rs : List WalEntry, (∀ e ∈ rs, e.Fits) ∧
    (sm.shards i).wal.file.content <+: walCodec.encodeAll rs
  wf : ∀ i, (sm.shards i).wal.Wf
  fits : ∀ p ∈ log, p.2.Fits
  ordered : (log.map fun p => p.2.seq).Pairwise (· < ·)
  below : ∀ p ∈ log, p.2.seq < sm.nextSeq

variable {sm t : ShardManager n} {log : List (Fin n × WalEntry)}

lemma mem_walEntries {e : WalEntry} : e ∈ sm.walEntries ↔ ∃ i, e ∈ (sm.shards i).wal.getCmds := by
  rw [walEntries, (List.perm_insertionSort _ _).mem_iff, List.mem_flatMap]
  simp

lemma Reads.walEntries (h : Reads sm log) : sm.walEntries = log.map Prod.snd := by
  have hcmds : (fun i => (sm.shards i).wal.getCmds) = part log := funext h.getCmds
  rw [ShardManager.walEntries, hcmds]
  exact sort_parts WalEntry.seq log h.ordered

lemma Reads.renumber (h : Reads sm log) (hw : ∀ i, (t.shards i).wal = (sm.shards i).wal)
    (hb : ∀ p ∈ log, p.2.seq < t.nextSeq) : Reads t log := by
  refine ⟨fun i => ?_, fun i => ?_, fun i => ?_, h.fits, h.ordered, hb⟩
  · rw [hw]
    exact h.getCmds i
  · rw [hw]
    exact h.cut i
  · rw [hw]
    exact h.wf i

lemma Reads.shorten (h : Reads sm log) (hw : ∀ i, (t.shards i).wal.Wf)
    (hle : ∀ i, (t.shards i).wal.file.content <+: (sm.shards i).wal.file.content)
    (hseq : ∀ kept : List (Fin n × WalEntry), kept.Sublist log →
      (∀ i, (t.shards i).wal.getCmds = part kept i) → ∀ p ∈ kept, p.2.seq < t.nextSeq) :
    ∃ kept, kept.Sublist log ∧ Reads t kept := by
  have hread : ∀ i, (t.shards i).wal.getCmds <+: part log i := by
    intro i
    obtain ⟨rs, hrs, hcut⟩ := h.cut i
    rw [← h.getCmds i]
    exact walCodec.decodeAll_prefix hrs (hle i) hcut
  obtain ⟨kept, hsub, hpart⟩ := exists_kept log fun i => (t.shards i).wal.getCmds.length
  have hcmds : ∀ i, (t.shards i).wal.getCmds = part kept i := fun i => by
    rw [hpart]
    exact List.prefix_iff_eq_take.mp (hread i)
  refine ⟨kept, hsub, hcmds, fun i => ?_, hw, fun p hp => h.fits p (hsub.subset hp), ?_,
    hseq kept hsub hcmds⟩
  · obtain ⟨rs, hrs, hcut⟩ := h.cut i
    exact ⟨rs, hrs, (hle i).trans hcut⟩
  · exact h.ordered.sublist (hsub.map _)

lemma onWal_shards (f : WAL → WAL) (i : Fin n) (sm : ShardManager n) (j : Fin n) :
    ((sm.onWal f i).shards j).wal = if j = i then f (sm.shards i).wal else (sm.shards j).wal := by
  by_cases h : j = i
  · subst h
    simp [onWal, setShard]
  · simp [onWal, setShard, h]

lemma Reads.onWal (h : Reads sm log) {f : WAL → WAL} (hwf : ∀ {wal : WAL}, wal.Wf → (f wal).Wf)
    (hf : ∀ {wal : WAL}, wal.Wf → (f wal).file.content <+: wal.file.content) (i : Fin n) :
    ∃ kept, kept.Sublist log ∧ Reads (sm.onWal f i) kept := by
  apply h.shorten
  · intro j
    rw [onWal_shards]
    split_ifs
    · exact hwf (h.wf i)
    · exact h.wf j
  · intro j
    rw [onWal_shards]
    split_ifs with hj
    · subst hj
      exact hf (h.wf j)
    · exact List.prefix_rfl
  · exact fun kept hsub _ p hp => h.below p (hsub.subset hp)

lemma advanceAll_shards (entries : List WalEntry) (sm : ShardManager n) :
    (advanceAll entries sm).shards = sm.shards := by
  simp only [advanceAll, advanceSequence]
  split
  · split_ifs <;> rfl
  · rfl

lemma le_advanceAll (entries : List WalEntry) (sm : ShardManager n) :
    sm.nextSeq ≤ (advanceAll entries sm).nextSeq := by
  simp only [advanceAll, advanceSequence]
  split
  · split_ifs with hlt
    · exact hlt.le
    · exact le_rfl
  · exact le_rfl

lemma advanceAll_concat (entries : List WalEntry) (e : WalEntry) (sm : ShardManager n)
    (he : e.seq + 1 < 2 ^ 64)
    (hs : sm.nextSeq = 0) : (advanceAll (entries ++ [e]) sm).nextSeq = e.seq + 1 := by
  simp only [advanceAll, List.getLast?_concat, advanceSequence, Nat.mod_eq_of_lt he, hs]
  rw [if_pos (Nat.succ_pos _)]

lemma Reads.restart (h : Reads sm log) (hlt : sm.nextSeq < 2 ^ 64) (settings : Settings)
    (ch fill : Choices n)
    {disks : Fin n → Shard.Disk} (hd : ∀ i, (sm.shards i).wal.file.Survives (disks i).wal) :
    (ShardManager.restart settings ch fill disks).nextSeq ≤ sm.nextSeq ∧
      ∃ kept, kept.Sublist log ∧ Reads (ShardManager.restart settings ch fill disks) kept := by
  obtain ⟨new, hnew⟩ : ∃ new, new = create settings ch fill disks := ⟨_, rfl⟩
  have hwal : ∀ i, (new.shards i).wal = .openWal (disks i).wal := fun i => by
    rw [hnew]
    exact Shard.reopen_wal settings (ch.shard i) (fill.shard i) (disks i)
  have hzero : new.nextSeq = 0 := by rw [hnew]; rfl
  obtain ⟨kept, hsub, hreads⟩ := h.shorten (t := { new with nextSeq := sm.nextSeq })
    (fun i => by
      rw [hwal]
      exact WAL.openWal_wf _)
    (fun i => by
      rw [hwal]
      simpa [WAL.openWal] using (hd i).le_content)
    (fun kept hsub _ p hp => h.below p (hsub.subset hp))
  have hentries : new.walEntries = kept.map Prod.snd := hreads.walEntries
  have hrestart : ShardManager.restart settings ch fill disks =
      advanceAll (kept.map Prod.snd) new := by
    rw [ShardManager.restart, ← hnew, hentries]
  have hshards : ∀ i, ((advanceAll (kept.map Prod.snd) new).shards i).wal = (new.shards i).wal :=
    fun i => by
    rw [advanceAll_shards]
  rw [hrestart]
  rcases List.eq_nil_or_concat kept with rfl | ⟨front, last, rfl⟩
  · exact ⟨hzero.le.trans (Nat.zero_le _), [], hsub, hreads.renumber hshards (by simp)⟩
  · have hlast : last.2.seq < sm.nextSeq := hreads.below last (by simp)
    have hseq : (advanceAll ((front.concat last).map Prod.snd) new).nextSeq = last.2.seq + 1 := by
      rw [List.concat_eq_append, List.map_append, List.map_singleton]
      exact advanceAll_concat _ _ _ (by omega) hzero
    refine ⟨by omega, _, hsub, hreads.renumber hshards fun p hp => ?_⟩
    rw [hseq]
    have hord := hreads.ordered
    rw [List.concat_eq_append, List.map_append, List.pairwise_append] at hord
    rw [List.concat_eq_append, List.mem_append] at hp
    rcases hp with hp | hp
    · have := hord.2.2 p.2.seq (List.mem_map.mpr ⟨p, hp, rfl⟩) last.2.seq (by simp)
      omega
    · rw [List.mem_singleton.mp hp]
      exact Nat.lt_succ_self _

lemma appendToWAL_shards [NeZero n] (pf : Platform) (key command : Bytes) (sm : ShardManager n)
    (j : Fin n) :
    ((appendToWAL pf key command sm).final.shards j).wal =
      if j = getShardId pf key then
        (sm.shards j).wal.append command sm.nextSeq else (sm.shards j).wal := by
  change ((sm.setShard (getShardId pf key) _).shards j).wal = _
  by_cases h : j = getShardId pf key
  · subst h
    simp [setShard]
  · simp [setShard, h]

lemma Reads.append [NeZero n] (h : Reads sm log) (pf : Platform) (key command : Bytes)
    (hu : (sm.shards (getShardId pf key)).Unbroken) (hs : sm.nextSeq + 1 < 2 ^ 64) :
    Reads (appendToWAL pf key command sm).final
      (log ++ [(getShardId pf key, ⟨command.take (command.length % 2 ^ 32), sm.nextSeq⟩)]) := by
  obtain ⟨e, he⟩ : ∃ e : WalEntry, e = ⟨command.take (command.length % 2 ^ 32), sm.nextSeq⟩ :=
    ⟨_, rfl⟩
  have hfit : e.Fits := by
    refine ⟨?_, by rw [he]; dsimp only; omega⟩
    rw [he, List.length_take]
    exact (min_le_left _ _).trans_lt (Nat.mod_lt _ (by decide))
  have hseq : (appendToWAL pf key command sm).final.nextSeq = sm.nextSeq + 1 := Nat.mod_eq_of_lt hs
  have hfits : ∀ p ∈ log ++ [(getShardId pf key, e)], p.2.Fits := by
    intro p hp
    rcases List.mem_append.mp hp with hp | hp
    · exact h.fits p hp
    · rw [List.mem_singleton.mp hp]
      exact hfit
  have hcontent :
      ((appendToWAL pf key command sm).final.shards (getShardId pf key)).wal.file.content =
      walCodec.encodeAll (part log (getShardId pf key) ++ [e]) := by
    rw [appendToWAL_shards, if_pos rfl, WAL.append_file, BufferedFile.content_append, ← he, ← hu,
      h.getCmds,
      RecordCodec.encodeAll_append, RecordCodec.encodeAll_cons, RecordCodec.encodeAll_nil,
      List.append_nil]
  have hpart : ∀ a ∈ part log (getShardId pf key) ++ [e], a.Fits := by
    intro a ha
    rcases List.mem_append.mp ha with ha | ha
    · exact h.fits _ (mem_part ha)
    · rw [List.mem_singleton.mp ha]
      exact hfit
  rw [← he]
  refine ⟨fun j => ?_, fun j => ?_, fun j => ?_, hfits, ?_, fun p hp => ?_⟩
  · rw [part_concat]
    split_ifs with hj
    · rw [hj, WAL.getCmds, hcontent, walCodec.decodeAll_encodeAll _ hpart]
    · rw [appendToWAL_shards, if_neg hj]
      exact h.getCmds j
  · by_cases hj : j = getShardId pf key
    · rw [hj]
      exact ⟨_, hpart, hcontent ▸ List.prefix_rfl⟩
    · rw [appendToWAL_shards, if_neg hj]
      exact h.cut j
  · rw [appendToWAL_shards]
    split_ifs
    · exact WAL.append_wf _ _ _
    · exact h.wf j
  · rw [List.map_append, List.pairwise_append]
    refine ⟨h.ordered, by simp, fun a ha b hb => ?_⟩
    obtain ⟨p, hp, rfl⟩ := List.mem_map.mp ha
    obtain rfl : b = e.seq := by simpa using hb
    rw [he]
    exact h.below p hp
  · rw [hseq]
    rcases List.mem_append.mp hp with hp | hp
    · exact (h.below p hp).trans (Nat.lt_succ_self _)
    · rw [List.mem_singleton.mp hp, he]
      exact Nat.lt_succ_self _

section Runs

variable [NeZero n] {pf : Platform} {A : Shard → Prop} {s t u : Site n}

/-- The records that the WALs are read as are some of the appended ones, and the counter is not past
their number. -/
structure Site.Ordered (s : Site n) : Prop where
  reads : ∃ log, log.Sublist s.appended ∧ Reads s.sm log
  counted : s.sm.nextSeq ≤ s.appended.length

omit [NeZero n] in
lemma Site.Ordered.sequenced (h : s.Ordered) : Sequenced s := by
  obtain ⟨log, hsub, hreads⟩ := h.reads
  refine ⟨fun i e he => ?_, ?_, ?_⟩
  · rw [hreads.getCmds] at he
    exact hreads.below _ (mem_part he)
  · rw [hreads.walEntries]
    exact hsub.map _
  · rw [hreads.walEntries, List.map_map]
    exact hreads.ordered

lemma Site.Ordered.serving (h : s.Ordered) (ht : Serving pf Shard.Unbroken s t)
    (hcount : t.appended.length < 2 ^ 64) :
    t.Ordered := by
  obtain ⟨log, hsub, hreads⟩ := h.reads
  have hc := h.counted
  cases ht with
  | append key command hu =>
    rw [List.length_append, List.length_singleton] at hcount
    have hseq : (appendToWAL pf key command s.sm).final.nextSeq = s.sm.nextSeq + 1 :=
      Nat.mod_eq_of_lt (show s.sm.nextSeq + 1 < 2 ^ 64 by omega)
    refine ⟨⟨_, hsub.append (List.Sublist.refl _), hreads.append pf key command hu (by omega)⟩, ?_⟩
    rw [hseq, List.length_append, List.length_singleton]
    omega
  | sync i =>
    obtain ⟨kept, hkept, hk⟩ := hreads.onWal WAL.Wf.sync (fun {wal} _ => by rw [WAL.sync_content]) i
    exact ⟨⟨kept, hkept.trans hsub, hk⟩, hc⟩
  | clear i =>
    obtain ⟨kept, hkept, hk⟩ := hreads.onWal WAL.Wf.clear (fun {wal} hw => by
      rw [hw.clear_content]
      exact List.nil_prefix) i
    exact ⟨⟨kept, hkept.trans hsub, hk⟩, hc⟩
  | execute u hs hw =>
    exact ⟨⟨log, hsub, hreads.renumber hw fun p hp => by rw [hs]; exact hreads.below p hp⟩, hs ▸ hc⟩

lemma Serving.appended_le (h : Serving pf A s t) : s.appended.length ≤ t.appended.length := by
  cases h with
  | append key command _ => simp
  | _ => exact le_rfl

lemma Step.appended_le (h : Step pf A s t) : s.appended.length ≤ t.appended.length := by
  cases h with
  | serving h => exact h.appended_le
  | restart => exact le_rfl

lemma Site.Ordered.step (h : s.Ordered) (ht : Step pf Shard.Unbroken s t)
    (hcount : t.appended.length < 2 ^ 64) :
    t.Ordered := by
  cases ht with
  | serving ht => exact h.serving ht hcount
  | restart settings ch fill disks hd =>
    obtain ⟨log, hsub, hreads⟩ := h.reads
    have hc := h.counted
    obtain ⟨hle, kept, hkept, hk⟩ := hreads.restart (hc.trans_lt hcount) settings ch fill hd
    exact ⟨⟨kept, hkept.trans hsub, hk⟩, hle.trans hc⟩

lemma Site.Ordered.run (h : s.Ordered) (ht : Relation.ReflTransGen (Step pf Shard.Unbroken) s t)
    (hcount : t.appended.length < 2 ^ 64) : t.Ordered := by
  induction ht with
  | refl => exact h
  | tail _ hstep ih => exact (ih (hstep.appended_le.trans_lt hcount)).step hstep hcount

lemma Site.Ordered.nextSeq_le (h : s.Ordered) (ht : Serving pf A s t)
    (hcount : t.appended.length < 2 ^ 64) :
    s.sm.nextSeq ≤ t.sm.nextSeq := by
  have hc := h.counted
  cases ht with
  | append key command _ =>
    rw [List.length_append, List.length_singleton] at hcount
    have hseq : (appendToWAL pf key command s.sm).final.nextSeq = s.sm.nextSeq + 1 :=
      Nat.mod_eq_of_lt (show s.sm.nextSeq + 1 < 2 ^ 64 by omega)
    rw [hseq]
    exact Nat.le_succ _
  | execute u hs _ => exact hs.ge
  | _ => exact le_rfl

lemma Site.Ordered.process (h : s.Ordered)
    (ht : Relation.ReflTransGen (Serving pf Shard.Unbroken) s t)
    (hcount : t.appended.length < 2 ^ 64) : t.Ordered ∧ s.sm.nextSeq ≤ t.sm.nextSeq := by
  induction ht with
  | refl => exact ⟨h, le_rfl⟩
  | tail _ hstep ih =>
    obtain ⟨ho, hle⟩ := ih (hstep.appended_le.trans_lt hcount)
    exact ⟨ho.serving hstep hcount, hle.trans (ho.nextSeq_le hstep hcount)⟩

omit [NeZero n] in
lemma Site.Ordered.start (settings : Settings) (ch fill : Choices n) {disks : Fin n → Shard.Disk}
    (hd : ∀ i, (disks i).wal = []) :
    Site.Ordered ⟨ShardManager.restart settings ch fill disks, []⟩ := by
  have hwal : ∀ i, ((create settings ch fill disks).shards i).wal = .openWal [] := fun i => by
    rw [← hd i]
    exact Shard.reopen_wal settings (ch.shard i) (fill.shard i) (disks i)
  have hreads : Reads (create settings ch fill disks) [] := by
    refine ⟨fun i => ?_, fun i => ⟨[], by simp, ?_⟩, fun i => ?_, by simp, by simp, by simp⟩
    · rw [hwal]
      rfl
    · rw [hwal]
      exact List.prefix_rfl
    · rw [hwal]
      exact WAL.openWal_wf _
  have hstart : ShardManager.restart settings ch fill disks = create settings ch fill disks := by
    rw [ShardManager.restart, hreads.walEntries]
    rfl
  rw [hstart]
  exact ⟨⟨[], List.Sublist.refl _, hreads⟩, le_rfl⟩

/-- Over any number of starts, with any WALs cleared and the others kept, the numbers order the
records as long as no record is appended to a WAL that ends in a part of one; the process that reads
at `t` appends at `u`. -/
theorem run_sequenced (pf : Platform) (settings : Settings) (ch fill : Choices n)
    {disks : Fin n → Shard.Disk} (hd : ∀ i, (disks i).wal = [])
    (ht : Relation.ReflTransGen (Step pf Shard.Unbroken)
      ⟨ShardManager.restart settings ch fill disks, []⟩ t)
    (hu : Relation.ReflTransGen (Serving pf Shard.Unbroken) t u)
    (hcount : u.appended.length < 2 ^ 64) :
    Sequenced t ∧ ∀ i, ∀ e ∈ (t.sm.shards i).wal.getCmds, e.seq < u.sm.nextSeq := by
  have hle : t.appended.length ≤ u.appended.length := by
    clear ht hcount
    induction hu with
    | refl => exact le_rfl
    | tail _ hstep ih => exact ih.trans hstep.appended_le
  have hordered := (Site.Ordered.start settings ch fill hd).run ht (hle.trans_lt hcount)
  have hseq := hordered.sequenced
  exact ⟨hseq, fun i e he => (hseq.above i e he).trans_le (hordered.process hu hcount).2⟩

end Runs

def walDisk (wal : Bytes) : Fin 1 → Shard.Disk := fun _ => { Shard.Disk.empty with wal := wal }

def logged (command : Bytes) (s : Site 1) : Site 1 where
  sm := (appendToWAL Op.oneHash [] command s.sm).final
  appended := s.appended ++
    [(getShardId Op.oneHash [], ⟨command.take (command.length % 2 ^ 32), s.sm.nextSeq⟩)]

def restarted (wal : Bytes) (s : Site 1) : Site 1 := { s with sm := restart {} {} {} (walDisk wal) }

def firstStart : Site 1 := ⟨restart {} {} {} (walDisk []), []⟩

lemma logged_serving {A : Shard → Prop} {s : Site 1} (command : Bytes)
    (h : A (s.sm.shards (getShardId Op.oneHash []))) :
    Serving Op.oneHash A s (logged command s) :=
  .append s [] command h

lemma restarted_step {A : Shard → Prop} {s : Site 1} {wal : Bytes}
    (h : (s.sm.shards 0).wal.file.Survives wal) :
    Step Op.oneHash A s (restarted wal s) := by
  refine .restart s {} {} {} (walDisk wal) fun i => ?_
  rw [Subsingleton.elim i 0]
  exact h

def keptOnce : Site 1 :=
  restarted ((logged (ascii "set a x") firstStart).sm.shards 0).wal.file.content
  (logged (ascii "set a x") firstStart)

theorem keptOnce_sequenced :
    (∀ i, (walDisk [] i).wal = []) ∧
    Relation.ReflTransGen (Step Op.oneHash Shard.Unbroken) firstStart keptOnce ∧
      Relation.ReflTransGen (Serving Op.oneHash Shard.Unbroken) keptOnce
      (logged (ascii "set b y") keptOnce) ∧
      (logged (ascii "set b y") keptOnce).appended.length < 2 ^ 64 ∧
      Sequenced keptOnce ∧ ∀ i, ∀ e ∈ (keptOnce.sm.shards i).wal.getCmds, e.seq <
        (logged (ascii "set b y") keptOnce).sm.nextSeq := by
  have hu : ∀ s : Site 1, walCodec.encodeAll (s.sm.shards 0).wal.getCmds =
      (s.sm.shards 0).wal.file.content →
      (s.sm.shards (getShardId Op.oneHash [])).Unbroken := fun s h => by
    rw [Subsingleton.elim (getShardId Op.oneHash []) 0]
    exact h
  have ht : Relation.ReflTransGen (Step Op.oneHash Shard.Unbroken) firstStart keptOnce :=
    .tail
    (.single (.serving (logged_serving (ascii "set a x") (hu firstStart (by decide +kernel)))))
      (restarted_step (BufferedFile.survives_content _))
  have hs : Relation.ReflTransGen (Serving Op.oneHash Shard.Unbroken) keptOnce
      (logged (ascii "set b y") keptOnce) :=
    .single (logged_serving (ascii "set b y") (hu keptOnce (by decide +kernel)))
  have hcount : (logged (ascii "set b y") keptOnce).appended.length < 2 ^ 64 := by decide +kernel
  exact ⟨fun _ => rfl, ht, hs, hcount,
    run_sequenced Op.oneHash {} {} {} (fun _ => rfl) ht hs hcount⟩

def sizeOnly : Site 1 := restarted [12, 0, 0, 0] (logged (ascii "set abc defg") firstStart)

def highBytes : Bytes := ascii "set b aa" ++ List.replicate 8 255

/-- The WAL is read as one record, with the end of the command as its number. -/
def misread : Site 1 :=
  restarted ((logged highBytes sizeOnly).sm.shards 0).wal.file.content (logged highBytes sizeOnly)

/-- A record appended behind a part of another is read with the number `2 ^ 64 - 1`, and the counter
of the next process stays at zero. -/
theorem misread_not_sequenced :
    Relation.ReflTransGen (Step Op.oneHash fun _ => True) firstStart misread ∧
    misread.appended.length = 2 ∧ ¬ Sequenced misread := by
  refine ⟨?_, by decide +kernel, fun h => ?_⟩
  · have hfirst : Step Op.oneHash (fun _ => True) firstStart
        (logged (ascii "set abc defg") firstStart) :=
      .serving (logged_serving _ trivial)
    have htorn : Step Op.oneHash (fun _ => True)
        (logged (ascii "set abc defg") firstStart) sizeOnly :=
      restarted_step ⟨[12, 0, 0, 0], by decide +kernel, by decide +kernel⟩
    have hnext : Step Op.oneHash (fun _ => True) sizeOnly (logged highBytes sizeOnly) :=
      .serving (logged_serving _ trivial)
    exact .tail (.tail (.tail (.single hfirst) htorn) hnext)
      (restarted_step (BufferedFile.survives_content _))
  · have hread : (misread.sm.shards 0).wal.getCmds =
        [⟨[16, 0, 0, 0] ++ ascii "set b aa", 2 ^ 64 - 1⟩] := by
      decide +kernel
    have hzero : misread.sm.nextSeq = 0 := by decide +kernel
    have habove := h.above 0 ⟨[16, 0, 0, 0] ++ ascii "set b aa", 2 ^ 64 - 1⟩ (by rw [hread]; simp)
    rw [hzero] at habove
    exact Nat.not_lt_zero _ habove

end ShardManager

end Zest
