import ZestDB.Shard.Outcomes
import ZestDB.Database.Interleaved

/-! What a crash can make of a key that commands of one key set and deleted: the last record of it
in the WAL decides, and INDEX if there is none. -/

namespace Zest

open Foundations

namespace Write

variable {m : Store} {w : Write} {ws : List Write} {k key : Key}

def outcome (k : Key) (w : Write) : Option (Option Value) :=
  if w.key? = some k then some w.value? else none

lemma apply_outcome (h : w.key? = some key) (m : Store) (k : Key) :
    w.apply m k = (w.outcome k).getD (m k) := by
  rw [apply_key h, Function.update_apply, outcome, h]
  by_cases hk : k = key
  · rw [if_pos hk, if_pos (congrArg some hk.symm), Option.getD_some]
  · rw [if_neg hk, if_neg fun he => hk (Option.some.inj he).symm, Option.getD_none]

lemma applyAll_outcome (h : ∀ w ∈ ws, ∃ key, w.key? = some key) (m : Store) (k : Key) :
    applyAll ws m k = ((ws.filterMap (outcome k)).getLast?).getD (m k) := by
  induction ws using List.reverseRecOn with
  | nil => rfl
  | append_singleton ws w ih =>
    obtain ⟨key, hkey⟩ := h w (by simp)
    have hfront := ih fun v hv => h v (by simp [hv])
    have happly : applyAll (ws ++ [w]) m k = (w.outcome k).getD (applyAll ws m k) := by
      rw [← apply_outcome hkey, applyAll, List.foldl_append]
      rfl
    rw [happly, List.filterMap_append, hfront]
    cases ho : w.outcome k with
    | none => simp [ho]
    | some o => simp [ho]

end Write

def outcomes (pf : Platform) (k : Key) (entries : List WalEntry) : List (Option Value) :=
  (writesOf pf entries).filterMap (Write.outcome k)

variable {pf : Platform} {k : Key} {e : WalEntry} {rs ts : List WalEntry}
  {O O' : Option Value → Prop}

lemma outcomes_append (rs ts : List WalEntry) :
    outcomes pf k (rs ++ ts) = outcomes pf k rs ++ outcomes pf k ts := by
  simp only [outcomes, writesOf, List.filterMap_append]

namespace Shard

variable {A : Key → Value → Prop} {B : Key → Prop} {s t : Shard} {disk : Disk}

/-- Whatever a crash leaves, the key has one of the outcomes `O`: what the last record of it in the
WAL says, or one that INDEX has if the WAL has no record of it. -/
structure Covered (pf : Platform) (O : Option Value → Prop) (k : Key) (s : Shard) : Prop where
  logged : ∀ file, s.wal.file.Survives file →
    ∀ o, (outcomes pf k (walCodec.decodeAll file).1).getLast? = some o → O o
  offered : ∀ file, s.wal.file.Survives file → outcomes pf k (walCodec.decodeAll file).1 = [] →
    s.Offers O k

lemma Covered.mono (h : Covered pf O k s) (hO : ∀ o, O o → O' o) : Covered pf O' k s :=
  ⟨fun file hf o ho => hO o (h.logged file hf o ho),
    fun file hf hn => (h.offered file hf hn).mono hO⟩

lemma Covered.path (h : Covered pf O k s) (hp : Path A B s t) (hs : s.Sound)
    (hk : ∀ k v, A k v → k.length ≤ MAX_KEY_SIZE)
    (ho : O (s.toMap k)) (hA : ∀ v, A k v → O (some v)) (hB : B k → O none) : Covered pf O k t := by
  have hwal : t.wal = s.wal := hp.frame.2
  refine ⟨fun file hf => ?_, fun file hf hn => ?_⟩
  · rw [hwal] at hf
    exact h.logged file hf
  · rw [hwal] at hf
    exact (h.offered file hf hn).path hp hs.inv hs.logged hk ho hA hB

lemma Covered.of_offers (h : s.Offers O k) (hw : ∀ file, s.wal.file.Survives file → file = []) :
    Covered pf O k s := by
  refine ⟨fun file hf o ho => ?_, fun _ _ _ => h⟩
  rw [hw file hf] at ho
  cases ho

lemma Covered.clear (h : s.Offers O k) (hw : s.wal.Wf) :
    Covered pf O k { s with wal := s.wal.clear } := by
  refine .of_offers h fun file hf => ?_
  change s.wal.clear.file.Survives file at hf
  rw [hw.clear_file] at hf
  exact hf.eq_of_flushed rfl

lemma sync_survives {wal : WAL} {file : Bytes} (h : wal.sync.file.Survives file) :
    wal.file.Survives file := by
  simp only [WAL.sync] at h
  split_ifs at h
  · rw [h.eq_of_flushed wal.file.pending_flush, BufferedFile.content_flush]
    exact wal.file.survives_content
  · exact h

lemma Covered.sync (h : Covered pf O k s) : Covered pf O k { s with wal := s.wal.sync } :=
  ⟨fun file hf => h.logged file (sync_survives hf),
    fun file hf => h.offered file (sync_survives hf)⟩

lemma Covered.synced (hw : s.wal.Wf) {o : Option Value}
    (hl : (outcomes pf k s.wal.getCmds).getLast? = some o) (ho : O o) :
    Covered pf O k { s with wal := s.wal.sync } := by
  have hfile : ∀ file, s.wal.sync.file.Survives file →
      (walCodec.decodeAll file).1 = s.wal.getCmds := by
    intro file hf
    rw [hw.sync_file] at hf
    rw [hf.eq_of_flushed rfl]
    simp [BufferedFile.content, WAL.getCmds]
  refine ⟨fun file hf o' ho' => ?_, fun file hf hn => ?_⟩
  · rw [hfile file hf, hl] at ho'
    obtain rfl := Option.some.inj ho'
    exact ho
  · rw [hfile file hf] at hn
    rw [hn] at hl
    cases hl

lemma append_survives {f : BufferedFile Byte} {xs file : Bytes} (h : (f.append xs).Survives file) :
    f.Survives file ∨ ∃ p, p <+: xs ∧ file = f.content ++ p := by
  obtain ⟨kept, hk, rfl⟩ := h
  rcases List.prefix_or_prefix_of_prefix hk (List.prefix_append f.pending xs) with hle | ⟨p, rfl⟩
  · exact Or.inl ⟨kept, hle, rfl⟩
  · refine Or.inr ⟨p, (List.prefix_append_right_inj _).mp hk, ?_⟩
    rw [BufferedFile.content, List.append_assoc]
    rfl

lemma Covered.append (h : Covered pf O k s) (hw : s.wal.file.content = walCodec.encodeAll rs)
    (hrs : ∀ e ∈ rs, e.Fits)
    {command : Bytes} {seq : ℕ} (he : e = ⟨command.take (command.length % 2 ^ 32), seq⟩)
    (hfits : e.Fits) (ho : ∀ o ∈ outcomes pf k [e], O o) :
    Covered pf O k { s with wal := s.wal.append command seq } := by
  have hcontent : (walCodec.decodeAll s.wal.file.content).1 = rs := by
    rw [hw, walCodec.decodeAll_encodeAll rs hrs]
  have hcases : ∀ file, (s.wal.append command seq).file.Survives file → s.wal.file.Survives file ∨
      (walCodec.decodeAll file).1 = rs ∨ (walCodec.decodeAll file).1 = rs ++ [e] := by
    intro file hf
    rw [WAL.append_file, ← he] at hf
    rcases append_survives hf with hf | ⟨p, hp, rfl⟩
    · exact Or.inl hf
    · have hvalid : ∀ a ∈ rs ++ [e], walCodec.Valid a := fun a ha => by
        rcases List.mem_append.mp ha with ha | ha
        · exact hrs a ha
        · rw [List.mem_singleton.mp ha]
          exact hfits
      obtain ⟨m, hm, hd⟩ := walCodec.decodeAll_cut rs [e] hvalid p (by simpa using hp)
      rw [hw, hd]
      cases m with
      | zero => exact Or.inr (Or.inl (by simp))
      | succ m => exact Or.inr (Or.inr (by simp))
  have hold := s.wal.file.survives_content
  refine ⟨fun file hf o hlast => ?_, fun file hf hn => ?_⟩
  · rcases hcases file hf with hf | hd | hd
    · exact h.logged file hf o hlast
    · exact h.logged _ hold o (by rwa [hcontent, ← hd])
    · rw [hd, outcomes_append] at hlast
      rcases List.mem_append.mp (List.mem_of_getLast? hlast) with hmem | hmem
      · cases hlist : outcomes pf k [e] with
        | nil =>
          rw [hlist, List.append_nil] at hlast
          exact h.logged _ hold o (by rwa [hcontent])
        | cons a l =>
          rw [hlist, List.getLast?_append_of_ne_nil _ (by simp)] at hlast
          exact ho o (by rw [hlist]; exact List.mem_of_getLast? hlast)
      · exact ho o hmem
  · rcases hcases file hf with hf | hd | hd
    · exact h.offered file hf hn
    · exact h.offered _ hold (by rwa [hcontent, ← hd])
    · rw [hd, outcomes_append] at hn
      exact h.offered _ hold (by rw [hcontent]; exact (List.append_eq_nil_iff.mp hn).1)

end Shard

namespace ShardManager

variable {n : ℕ} [NeZero n] {sm t : ShardManager n} {segSize : ℕ}
  {allowed allowed' : Key → Set (Option Value)}
variable {log : List (Fin n × WalEntry)}

def allowedAt (pf : Platform) (allowed : Key → Set (Option Value)) (i : Fin n) (k : Key)
    (o : Option Value) : Prop :=
  if getShardId pf k = i then o ∈ allowed k else o = none

/-- The record of a write of one key, in the WAL of its shard, whose segments have room for the
value. -/
def OneKey (pf : Platform) (segSize : ℕ) (p : Fin n × WalEntry) : Prop :=
  ∃ w key, writeOf pf p.2.cmd = some w ∧ w.key? = some key ∧ p.1 = getShardId pf key ∧
    w.ValueOk ∧ w.KeyOk ∧ w.Fits segSize

/-- Whatever a crash leaves of the shards and their WALs, each key has one of its allowed
outcomes. -/
structure Holds (pf : Platform) (segSize : ℕ) (allowed : Key → Set (Option Value))
    (sm : ShardManager n) : Prop where
  sound : sm.Each Shard.Sound
  journal : ∃ log, sm.Journal log ∧ ∀ p ∈ log, OneKey pf segSize p
  covered : ∀ i k, (sm.shards i).Covered pf (allowedAt pf allowed i k) k

lemma allowedAt_mono (h : ∀ k, allowed k ⊆ allowed' k) {i : Fin n} {k : Key} {o : Option Value}
    (ho : allowedAt pf allowed i k o) : allowedAt pf allowed' i k o := by
  simp only [allowedAt] at ho ⊢
  split_ifs at ho ⊢
  · exact h k ho
  · exact ho

lemma Holds.mono (h : Holds pf segSize allowed sm) (hsub : ∀ k, allowed k ⊆ allowed' k) :
    Holds pf segSize allowed' sm :=
  ⟨h.sound, h.journal, fun i k => (h.covered i k).mono fun _ => allowedAt_mono hsub⟩

lemma allowedAt_toMap (hi : sm.Inv pf) (h : ∀ k, sm.toMap pf k ∈ allowed k) (i : Fin n) (k : Key) :
    allowedAt pf allowed i k ((sm.shards i).toMap k) := by
  simp only [allowedAt]
  split_ifs with hk
  · rw [← hk]
    exact h k
  · by_contra hsome
    exact hk (hi.routed i k (Option.isSome_iff_ne_none.mpr hsome))

lemma Holds.through (h : Holds pf segSize allowed sm) {A : Fin n → Key → Value → Prop}
    {B : Fin n → Key → Prop}
    (hp : ∀ i, Shard.Path (A i) (B i) (sm.shards i) (t.shards i)) (hs : t.nextSeq = sm.nextSeq)
    (hk : ∀ i k v, A i k v → k.length ≤ MAX_KEY_SIZE)
    (hnow : ∀ i k, allowedAt pf allowed i k ((sm.shards i).toMap k))
    (hA : ∀ i k v, A i k v → allowedAt pf allowed i k (some v))
    (hB : ∀ i k, B i k → allowedAt pf allowed i k none) :
    Holds pf segSize allowed t := by
  obtain ⟨log, hlog, hone⟩ := h.journal
  have hlogs : t.logs = sm.logs := funext fun i => by rw [logs, (hp i).frame.2, ← logs]
  exact ⟨fun i => (h.sound i).path (hp i) (hk i), ⟨log, hlog.same hlogs hs, hone⟩, fun i k =>
    (h.covered i k).path (hp i) (h.sound i) (hk i) (hnow i k) (hA i k) (hB i k)⟩

lemma Holds.append (h : Holds pf segSize allowed sm) {w : Write} {key command : Bytes}
    (hfits : (sm.record command).Fits) (hs : sm.nextSeq + 1 < 2 ^ 64)
    (hone : OneKey pf segSize ((getShardId pf key : Fin n), sm.record command))
    (hw : writeOf pf (sm.record command).cmd = some w)
    (hkey : w.key? = some key) (hout : w.value? ∈ allowed key) :
    Holds pf segSize allowed (appendToWAL pf key command sm).final := by
  obtain ⟨log, hlog, hones⟩ := h.journal
  have hshards : ∀ i, (appendToWAL pf key command sm).final.shards i = if i = getShardId pf key then
      { sm.shards i with wal := (sm.shards i).wal.append command sm.nextSeq } else sm.shards i := by
    intro i
    change (sm.setShard _ _).shards i = _
    rw [setShard_shards]
    split_ifs with hi
    · rw [hi]
    · rfl
  have hlogs : ∀ i, (appendToWAL pf key command sm).final.logs i = if i = getShardId pf key then
      sm.logs i ++ walCodec.encode (sm.record command) else sm.logs i :=
        appendToWAL_logs sm key command
  have hseq : (appendToWAL pf key command sm).final.nextSeq = sm.nextSeq + 1 := Nat.mod_eq_of_lt hs
  refine ⟨fun i => ?_, ⟨_, hlog.concat hlogs hfits rfl (by omega), fun p hp => ?_⟩, fun i k => ?_⟩
  · rw [hshards]
    split_ifs
    · exact (h.sound i).of_wal (WAL.append_wf _ _ _)
    · exact h.sound i
  · rcases List.mem_append.mp hp with hp | hp
    · exact hones p hp
    · rw [List.mem_singleton.mp hp]
      exact hone
  · rw [hshards]
    split_ifs with hi
    · refine (h.covered i k).append (hlog.parts i) (fun e he => hlog.fits _ (mem_part he)) rfl hfits
        fun o ho => ?_
      obtain ⟨v, hv, hvo⟩ := List.mem_filterMap.mp ho
      have hone : writesOf pf [sm.record command] = [w] := by
        simp only [writesOf, List.filterMap_cons, hw, List.filterMap_nil]
      change v ∈ writesOf pf [sm.record command] at hv
      rw [hone, List.mem_singleton] at hv
      subst hv
      rw [Write.outcome, hkey] at hvo
      split_ifs at hvo with hk
      obtain rfl : key = k := Option.some.inj hk
      obtain rfl : v.value? = o := Option.some.inj hvo
      rw [allowedAt, if_pos hi.symm]
      exact hout
    · exact h.covered i k

lemma Holds.sync (h : Holds pf segSize allowed sm) (hshards : ∀ i, t.shards i = sm.shards i ∨
    t.shards i = { sm.shards i with wal := (sm.shards i).wal.sync }) (hs : t.nextSeq = sm.nextSeq) :
    Holds pf segSize allowed t := by
  obtain ⟨log, hlog, hone⟩ := h.journal
  have hlogs : t.logs = sm.logs := by
    funext i
    rcases hshards i with hi | hi
    · rw [logs, hi, ← logs]
    · rw [logs, hi]
      exact WAL.sync_content _
  refine ⟨fun i => ?_, ⟨log, hlog.same hlogs hs, hone⟩, fun i k => ?_⟩
  · rcases hshards i with hi | hi
    · rw [hi]
      exact h.sound i
    · rw [hi]
      exact (h.sound i).of_wal (h.sound i).wal.sync
  · rcases hshards i with hi | hi
    · rw [hi]
      exact h.covered i k
    · rw [hi]
      exact (h.covered i k).sync

lemma Holds.synced (h : Holds pf segSize allowed sm) {key : Key} {o : Option Value}
    (hl : (outcomes pf key (sm.shards (getShardId pf key)).wal.getCmds).getLast? = some o) :
    Holds pf segSize (Function.update allowed key {o}) (syncWAL sm).final := by
  have hsync : Holds pf segSize allowed (syncWAL sm).final :=
    h.sync (fun i => Or.inr (allShards_final sm i)) allShards_frame.1
  refine ⟨hsync.sound, hsync.journal, fun i k => ?_⟩
  by_cases hk : k = key
  · subst hk
    by_cases hi : getShardId pf k = i
    · have hshard : (syncWAL sm).final.shards i =
          { sm.shards i with wal := (sm.shards i).wal.sync } := allShards_final sm i
      rw [hshard]
      refine Shard.Covered.synced (h.sound i).wal (o := o) ?_ ?_
      · rwa [hi] at hl
      · rw [allowedAt, if_pos hi, Function.update_self]
        rfl
    · refine (hsync.covered i k).mono fun o' ho' => ?_
      rwa [allowedAt, if_neg hi] at ho' ⊢
  · refine (hsync.covered i k).mono fun o' ho' => ?_
    rwa [allowedAt, Function.update_of_ne hk]

lemma Holds.clear (h : Holds pf segSize allowed sm)
    (hoff : ∀ i k, (sm.shards i).Offers (allowedAt pf allowed i k) k)
    (hshards : ∀ i, t.shards i = sm.shards i ∨
      t.shards i = { sm.shards i with wal := (sm.shards i).wal.clear })
    (hs : t.nextSeq = sm.nextSeq) : Holds pf segSize allowed t := by
  obtain ⟨log, hlog, hone⟩ := h.journal
  obtain ⟨kept, hsub, hpart⟩ := exists_kept log fun i => if t.logs i = [] then
    0 else (part log i).length
  refine ⟨fun i => ?_,
    ⟨kept, ⟨fun i => ?_, fun p hp => hlog.fits p (hsub.subset hp), ?_, fun p hp => ?_⟩,
    fun p hp => hone p (hsub.subset hp)⟩, fun i k => ?_⟩
  · rcases hshards i with hi | hi
    · rw [hi]
      exact h.sound i
    · rw [hi]
      exact (h.sound i).of_wal (h.sound i).wal.clear
  · rw [hpart]
    split_ifs with hnil
    · simpa using hnil
    · rcases hshards i with hi | hi
      · rw [logs, hi, List.take_length]
        exact hlog.parts i
      · refine absurd ?_ hnil
        rw [logs, hi]
        exact (h.sound i).wal.clear_content
  · exact hlog.ordered.sublist (hsub.map _)
  · rw [hs]
    exact hlog.below p (hsub.subset hp)
  · rcases hshards i with hi | hi
    · rw [hi]
      exact h.covered i k
    · rw [hi]
      exact .clear (hoff i k) (h.sound i).wal

lemma Holds.onShard {α : Type} {x : Traced Shard α} {i : Fin n} {A : Key → Value → Prop}
    {B : Key → Prop}
    (h : Holds pf segSize allowed sm) (hr : Shard.Runs A B (sm.shards i) (x (sm.shards i)))
    (hk : ∀ k v, A k v → k.length ≤ MAX_KEY_SIZE)
    (hnow : ∀ i k, allowedAt pf allowed i k ((sm.shards i).toMap k))
    (hA : ∀ k v, A k v → allowedAt pf allowed i k (some v))
    (hB : ∀ k, B k → allowedAt pf allowed i k none) :
    Traced.Within (Holds pf segSize allowed) (onShard i x) sm := by
  intro t ht
  rcases List.mem_cons.mp ht with rfl | ht
  · exact h
  · obtain ⟨s, hs, rfl⟩ := List.mem_map.mp ht
    have hpath : ∀ j, Shard.Path (fun k v => j = i ∧ A k v) (fun k => j = i ∧ B k) (sm.shards j)
        ((sm.setShard i s).shards j) := by
      intro j
      rw [setShard_shards]
      split_ifs with hj
      · subst hj
        exact (hr.visited s hs).mono (fun k v ha => ⟨rfl, ha⟩) fun k hb => ⟨rfl, hb⟩
      · exact .refl
    refine h.through hpath rfl (fun j k v ha => hk k v ha.2) hnow ?_ ?_
    · rintro j k v ⟨rfl, ha⟩
      exact hA k v ha
    · rintro j k ⟨rfl, hb⟩
      exact hB k hb

lemma Holds.flush (h : Holds pf segSize allowed sm)
    (hnow : ∀ i k, allowedAt pf allowed i k ((sm.shards i).toMap k))
    (ch : Choices n) : Traced.Within (Holds pf segSize allowed) (flush ch) sm := by
  have htracked : ∀ i, Traced.Tracked (Shard.flushData (ch.shard i)) :=
    fun _ => Shard.flushData_tracked
  have hdata : Traced.Within (Holds pf segSize allowed)
      (allShards fun i => Shard.flushData (ch.shard i)) sm := by
    intro t ht
    rcases List.mem_cons.mp ht with rfl | ht
    · exact h
    · have hb := eachShard_visited htracked (List.nodup_finRange n) sm t ht
      refine h.through (A := fun _ _ _ => False) (B := fun _ _ => False) (fun i => ?_) hb.nextSeq
        (fun _ _ _ hA => hA.elim)
        hnow (fun _ _ _ hA => hA.elim) fun _ _ hB => hB.elim
      rcases List.mem_cons.mp (hb.mem i) with hi | hi
      · rw [hi]
      · exact (Shard.flushData_runs (sm.shards i) (ch.shard i)).visited _ hi
  have hfinal := hdata.final (allShards_tracked htracked)
  refine .bind hdata fun t ht => ?_
  have hoff : ∀ i k, ((allShards fun i => Shard.flushData (ch.shard i)) sm).final.shards i |>.Offers
      (allowedAt pf allowed i k) k := by
    intro i k
    have hf := Shard.flushData_flushed (h.sound i).inv (h.sound i).logged (ch.shard i)
    have hsound := hfinal.sound i
    rw [allShards_final] at hsound ⊢
    refine .of_flushed hsound.inv hf.index ?_
    rw [Shard.flushData_toMap]
    exact hnow i k
  rcases List.mem_cons.mp ht with rfl | ht
  · exact hfinal
  · have hb := eachShard_visited
      (x := fun _ : Fin n => .step fun s : Shard => { s with wal := s.wal.clear })
      (fun _ => .step _) (List.nodup_finRange n) _ t ht
    refine hfinal.clear hoff (fun i => ?_) hb.nextSeq
    simpa using hb.mem i

end ShardManager

end Zest
