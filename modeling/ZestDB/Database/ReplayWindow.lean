import ZestDB.Database.Startup
import ZestDB.Database.LogState
import ZestDB.Wal.Torn

/-! What the answer to a write promises while a process starts, and the runs in which it is kept. -/

namespace Zest

open Foundations

namespace ShardManager

variable {n : ℕ} {sm : ShardManager n}

/-- A record can be added to the WAL: it ends in a whole record, and the counter is above the
numbers of all records. -/
def Ready (sm : ShardManager n) (i : Fin n) : Prop :=
  (sm.shards i).Unbroken ∧ ∀ e ∈ sm.walEntries, e.seq < sm.nextSeq

instance (sm : ShardManager n) (i : Fin n) : Decidable (sm.Ready i) :=
  inferInstanceAs (Decidable (_ ∧ _))

end ShardManager

namespace Startup

variable {n m : ℕ} [NeZero n] {pf : Platform} {s s' : Startup n m} {db db' : ZestDB n}
  {o : Option (Fin m)} {t : Fin m}

/-- The record is in its WAL, and its number is above those of the records before it. -/
def Done.Recorded (pf : Platform) (db : ZestDB n) (d : Done n) : Prop :=
  ∃ e earlier, d.record = some (e, earlier) ∧ e.cmd = d.job.call.command ∧
    e ∈ (db.shardManager.shards (ShardManager.getShardId pf d.job.key)).wal.getCmds ∧
    ∀ r ∈ earlier, r.seq < e.seq

/-- What an answer promises: the write passed the checks of `execCmd` under the settings it found,
and it is recorded, or every shard was flushed after it. -/
structure Done.Safe (pf : Platform) (db : ZestDB n) (d : Done n) : Prop where
  checked : ZestDB.refusal pf d.settings true d.job.write = none
  kept : d.Recorded pf db ∨ ∀ i, d.flushed i = true

def asksWrite (pf : Platform) (c : Call n) : Bool :=
  match ZestDB.asked pf c with
  | some (_, .write _) => true
  | _ => false

/-- No write of a session reads the flag while it is set, and until the replay is over a session
appends its record only where a record can be added. -/
def Calm (pf : Platform) (s : Startup n m) : Event n m → Prop
  | .start _ c => asksWrite pf c = true → s.db.replaying = false
  | .finish (some t) => (s.hands (some t)).write?.isSome → s.db.replaying = false
  | .check _ => s.db.replaying = false
  | .append t => ∀ d ∈ (s.hands (some t)).done?, s.db.shardManager.nextSeq + 1 < 2 ^ 64 ∧
      (s.boot = .serving ∨ s.db.shardManager.Ready (ShardManager.getShardId pf d.job.key))
  | _ => True

instance (pf : Platform) (s : Startup n m) (e : Event n m) : Decidable (s.Calm pf e) :=
  match e with
  | .start _ c => inferInstanceAs (Decidable (asksWrite pf c = true → s.db.replaying = false))
  | .finish (some t) =>
    inferInstanceAs (Decidable ((s.hands (some t)).write?.isSome → s.db.replaying = false))
  | .check _ => inferInstanceAs (Decidable (s.db.replaying = false))
  | .append t => inferInstanceAs
      (Decidable (∀ d ∈ (s.hands (some t)).done?, s.db.shardManager.nextSeq + 1 < 2 ^ 64 ∧
      (s.boot = .serving ∨ s.db.shardManager.Ready (ShardManager.getShardId pf d.job.key))))
  | .finish none | .work _ _ | .sync _ | .reply _ | .compact _ _ | .raise | .read | .sort
      | .replay _ | .sweep | .last _
  | .lower => .isTrue trivial

def Moves (pf : Platform) (C : Startup n m → Event n m → Prop) (s s' : Startup n m) : Prop :=
  ∃ e, C s e ∧ s.step pf e = some s'

def run (pf : Platform) (C : Startup n m → Event n m → Prop) [∀ s e, Decidable (C s e)] :
    List (Event n m) → Startup n m → Option (Startup n m)
  | [], s => some s
  | e :: es, s => if C s e then (s.step pf e).bind (run pf C es) else none

namespace Boot

def raised : Boot n → Bool
  | opened | serving => false
  | _ => true

def Past : Boot n → Fin n → Prop
  | flushing sw, i => i ∉ sw.toClear
  | serving, _ => True
  | _, _ => False

end Boot

def Sweeping (s : Startup n m) (sw : Sweep n) : Prop :=
  s.boot = .flushing sw ∨ ∃ o, (s.hands o).sweep? = some sw

structure Inv (pf : Platform) (s : Startup n m) : Prop where
  wf : ∀ i, (s.db.shardManager.shards i).wal.Wf
  flag : s.boot.raised = s.db.replaying
  lock : ∀ o o', (s.hands o).alone = true → (s.hands o').holds = true → o' = o
  checked : ∀ t settings j, (s.hands (some t)).write? = some (settings, j) →
    j.call.command.length ≤ MAX_PAYLOAD_SIZE ∧ ZestDB.refusal pf settings true j.write = none
  kept : ∀ t d toSync, s.hands (some t) = .answering d toSync → d.Recorded pf s.db ∨
    ∀ i, d.flushed i = true
  swept : ∀ sw, s.Sweeping sw → ∀ o d, (s.hands o).done? = some d →
    ∀ i ∉ sw.toFlush, d.flushed i = true
  level : ∀ i, s.boot.Past i → (s.db.shardManager.shards i).wal.Below s.db.shardManager.nextSeq

section Changes

variable {d : Deed n} {x : Hand n} {b : Boot n} {sw sw' : Sweep n}

lemma Inv.others_free (h : s.Inv pf) (ha : (s.hands o).alone = true) {o' : Option (Fin m)}
    (ho : o' ≠ o) :
    (s.hands o').holds = false :=
  Bool.eq_false_iff.mpr fun hh => ho (h.lock o o' ha hh)

lemma Inv.others_shared (h : s.Inv pf) (hh : (s.hands o).holds = true) {o' : Option (Fin m)}
    (ho : o' ≠ o) :
    (s.hands o').alone = false :=
  Bool.eq_false_iff.mpr fun ha => ho (h.lock o' o ha hh).symm

lemma Inv.swept_done (h : s.Inv pf) {w : Done n} (hw : (s.hands o).done? = some w) (sw : Sweep n)
    (hsw : s.boot = .flushing sw ∨ ∃ o' ≠ o, (s.hands o').sweep? = some sw) :
    ∀ i ∉ sw.toFlush, w.flushed i = true :=
  h.swept sw (hsw.imp_right fun ⟨o', _, ho'⟩ => ⟨o', ho'⟩) o w hw

lemma Inv.of_content (h : s.Inv pf) (hwf : ∀ i, (db.shardManager.shards i).wal.Wf)
    (hcontent : ∀ i, (db.shardManager.shards i).wal.file.content =
      (s.db.shardManager.shards i).wal.file.content)
    (hseq : s.db.shardManager.nextSeq ≤ db.shardManager.nextSeq)
    (hflag : db.replaying = s.db.replaying) :
    ({ s with db := db } : Startup n m).Inv pf := by
  have hcmds : ∀ i, (db.shardManager.shards i).wal.getCmds =
      (s.db.shardManager.shards i).wal.getCmds := fun i => by
    rw [WAL.getCmds, hcontent]
    rfl
  refine ⟨hwf, h.flag.trans hflag.symm, h.lock, h.checked, fun t w toSync ht => ?_, h.swept,
    fun i hi => ?_⟩
  · refine (h.kept t w toSync ht).imp_left fun hrec => ?_
    rw [Done.Recorded, hcmds]
    exact hrec
  · obtain ⟨hunbroken, hlt⟩ := h.level i hi
    refine ⟨?_, fun e he => ?_⟩
    · rw [hcmds, hcontent]
      exact hunbroken
    · rw [hcmds] at he
      exact (hlt e he).trans_le hseq

lemma Inv.of_db (h : s.Inv pf) (hl : db.logState = s.db.logState) :
    ({ s with db := db } : Startup n m).Inv pf := by
  obtain ⟨hsm, hflag⟩ := Prod.ext_iff.mp hl
  obtain ⟨hwals, hseq⟩ := Prod.ext_iff.mp hsm
  have hwal : ∀ i, (db.shardManager.shards i).wal = (s.db.shardManager.shards i).wal :=
    fun i => congrFun hwals i
  refine h.of_content (fun i => ?_) (fun i => ?_) (le_of_eq hseq.symm) hflag
  · rw [hwal]
    exact h.wf i
  · rw [hwal]

lemma Inv.mark (h : s.Inv pf) (d : Deed n) : (s.mark d s.db).Inv pf := by
  refine ⟨h.wf, h.flag, fun o o' ha hh => ?_, fun t settings j hj => ?_, fun t w toSync ht => ?_,
    fun sw hsw o w hw i hi => ?_, h.level⟩
  · exact h.lock o o' (by simpa [Startup.mark] using ha) (by simpa [Startup.mark] using hh)
  · exact h.checked t settings j (by simpa [Startup.mark] using hj)
  · obtain ⟨u, hu, rfl⟩ := Hand.after_answering ht
    exact (h.kept t u toSync hu).imp_right fun hall i => Done.after_flushed (hall i)
  · have hold : s.Sweeping sw := by
      refine hsw.imp_right ?_
      rintro ⟨o', ho'⟩
      exact ⟨o', by simpa [Startup.mark] using ho'⟩
    have hdone : (s.hands o).done?.map (Done.after d) = some w := by simpa [Startup.mark] using hw
    obtain ⟨u, hu, rfl⟩ := Option.map_eq_some_iff.mp hdone
    exact Done.after_flushed (h.swept sw hold o u hu i hi)

lemma Inv.withHand (h : s.Inv pf) (halone : x.alone = true → ∀ o' ≠ o, (s.hands o').holds = false)
    (hholds : x.holds = true → ∀ o' ≠ o, (s.hands o').alone = false)
    (hchecked : ∀ t, o = some t → ∀ settings j, x.write? = some (settings, j) →
      j.call.command.length ≤ MAX_PAYLOAD_SIZE ∧ ZestDB.refusal pf settings true j.write = none)
    (hkept : ∀ t, o = some t → ∀ w toSync, x = .answering w toSync → w.Recorded pf s.db ∨
      ∀ i, w.flushed i = true)
    (hsweep : ∀ sw, x.sweep? = some sw → ∀ o' w, (s.hands o').done? = some w →
      ∀ i ∉ sw.toFlush, w.flushed i = true) (hdone : ∀ w, x.done? = some w →
      ∀ sw, (s.boot = .flushing sw ∨ ∃ o' ≠ o, (s.hands o').sweep? = some sw) →
      ∀ i ∉ sw.toFlush, w.flushed i = true) : (s.withHand o x).Inv pf := by
  refine ⟨h.wf, h.flag, fun o₁ o₂ ha hh => ?_, fun t settings j hj => ?_, fun t w toSync ht => ?_,
    fun sw hsw o₁ w hw i hi => ?_, h.level⟩
  · rw [withHand_hands] at ha hh
    split_ifs at ha hh with h₁ h₂ h₂
    · rw [h₁, h₂]
    · rw [halone ha o₂ h₂] at hh
      cases hh
    · rw [hholds hh o₁ h₁] at ha
      cases ha
    · exact h.lock o₁ o₂ ha hh
  · rw [withHand_hands] at hj
    split_ifs at hj with ho
    · exact hchecked t ho.symm settings j hj
    · exact h.checked t settings j hj
  · rw [withHand_hands] at ht
    split_ifs at ht with ho
    · exact hkept t ho.symm w toSync ht
    · exact h.kept t w toSync ht
  · rw [withHand_hands] at hw
    split_ifs at hw with ho
    · refine hdone w hw sw (hsw.imp_right ?_) i hi
      rintro ⟨o', ho'⟩
      rw [withHand_hands] at ho'
      split_ifs at ho' with he
      · rw [Hand.done_of_sweep ho'] at hw
        cases hw
      · exact ⟨o', he, ho'⟩
    · rcases hsw with hb | ⟨o', ho'⟩
      · exact h.swept sw (Or.inl hb) o₁ w hw i hi
      · rw [withHand_hands] at ho'
        split_ifs at ho' with he
        · exact hsweep sw ho' o₁ w hw i hi
        · exact h.swept sw (Or.inr ⟨o', ho'⟩) o₁ w hw i hi

lemma Inv.free (h : s.Inv pf) (o : Option (Fin m)) : (s.withHand o .free).Inv pf := by
  refine h.withHand (fun ha => ?_) (fun hh => ?_) (fun t _ settings j hj => ?_)
    (fun t _ w toSync hx => ?_) (fun sw hsw => ?_) fun w hw => ?_
  · cases ha
  · cases hh
  · cases hj
  · cases hx
  · cases hsw
  · cases hw

lemma Inv.write (h : s.Inv pf) {settings : Settings} {j : Clients.Job n}
    (hshared : ∀ o' ≠ o, (s.hands o').alone = false)
    (hj : ∀ t, o = some t → j.call.command.length ≤ MAX_PAYLOAD_SIZE ∧
      ZestDB.refusal pf settings true j.write = none) :
    (s.withHand o (.working (.write settings j))).Inv pf := by
  refine h.withHand (fun ha => ?_) (fun _ => hshared) (fun t ht settings' j' hj' => ?_)
    (fun t _ w toSync hx => ?_) (fun sw hsw => ?_) fun w hw => ?_
  · cases ha
  · obtain ⟨rfl, rfl⟩ := Prod.mk.inj (Option.some.inj hj')
    exact hj t ht
  · cases hx
  · cases hsw
  · cases hw

lemma Inv.flush (h : s.Inv pf) {sw : Sweep n} (halone : ∀ o' ≠ o, (s.hands o').holds = false)
    (hsw : ∀ o' w, (s.hands o').done? = some w → ∀ i ∉ sw.toFlush, w.flushed i = true) :
    (s.withHand o (.working (.flush sw))).Inv pf := by
  refine h.withHand (fun _ => halone) (fun _ o' ho' => ?_) (fun t _ settings j hj => ?_)
    (fun t _ w toSync hx => ?_) (fun sw' hsw' => ?_) fun w hw => ?_
  · exact Bool.eq_false_iff.mpr fun ha => by simpa [halone o' ho'] using Hand.holds_of_alone ha
  · cases hj
  · cases hx
  · obtain rfl := Option.some.inj hsw'
    exact hsw
  · cases hw

lemma Inv.withBoot (h : s.Inv pf) (hsm : db.shardManager = s.db.shardManager)
    (hflag : b.raised = db.replaying)
    (hsweep : ∀ sw, b = .flushing sw → ∀ o w, (s.hands o).done? = some w →
      ∀ i ∉ sw.toFlush, w.flushed i = true)
    (hlevel : ∀ i, b.Past i → (s.db.shardManager.shards i).wal.Below s.db.shardManager.nextSeq) :
    ({ s with db := db, boot := b } : Startup n m).Inv pf := by
  refine ⟨fun i => ?_, hflag, h.lock, h.checked, fun t w toSync ht => ?_, fun sw hsw => ?_,
    fun i hi => ?_⟩
  · rw [hsm]
    exact h.wf i
  · rw [Done.Recorded, hsm]
    exact h.kept t w toSync ht
  · rcases hsw with hb | ho
    · exact hsweep sw hb
    · exact h.swept sw (Or.inr ho)
  · rw [hsm]
    exact hlevel i hi

end Changes

section Steps

variable {c : Call n} {d : Deed n} {sw sw' : Sweep n} {e : Event n m}

lemma Inv.deed (h : s.Inv pf) (hsw : s.Sweeping sw) (hn : sw.next d = some sw') :
    (s.mark d (d.onShards s.db).final).Inv pf ∧
      (∀ o w, ((s.hands o).after d).done? = some w → ∀ i ∉ sw'.toFlush, w.flushed i = true) ∧
      ∀ i ∈ sw.toClear, i ∉ sw'.toClear →
        ((d.onShards s.db).final.shardManager.shards i).wal.file.content = [] := by
  have hmark := h.mark d
  cases d with
  | turn e => cases hn
  | flush i ch =>
    simp only [Sweep.next] at hn
    split_ifs at hn
    obtain rfl := Option.some.inj hn
    refine ⟨hmark.of_db (ZestDB.onManager_keeps
      (ShardManager.onShard_keeps (Shard.flushData_keeps ch) i) s.db), ?_,
      fun j hj hnot => absurd hj hnot⟩
    intro o w hw j hj
    rw [Hand.after_done] at hw
    obtain ⟨u, hu, rfl⟩ := Option.map_eq_some_iff.mp hw
    by_cases hji : j = i
    · simp [Done.after, Deed.flushes, hji]
    · refine Done.after_flushed (h.swept sw hsw o u hu j fun hmem => hj ?_)
      exact List.mem_filter.mpr ⟨hmem, by simpa using hji⟩
  | clear i =>
    simp only [Sweep.next] at hn
    split_ifs at hn with hfirst
    obtain rfl := Option.some.inj hn
    obtain ⟨hflushed, hhead⟩ := hfirst
    have hall : ∀ o w, (s.hands o).done? = some w → ∀ j, w.flushed j = true := fun o w hw j =>
      h.swept sw hsw o w hw j (by rw [hflushed]; exact List.not_mem_nil)
    have hwal : ∀ j, (((Deed.clear i).onShards s.db).final.shardManager.shards j).wal =
        if j = i then (s.db.shardManager.shards i).wal.clear
          else (s.db.shardManager.shards j).wal :=
      ShardManager.onWal_shards WAL.clear i s.db.shardManager
    have hclear := (h.wf i).clear_content
    refine ⟨⟨fun j => ?_, hmark.flag, hmark.lock, hmark.checked,
      fun t w toSync ht => Or.inr fun j => ?_, hmark.swept,
      fun j hj => ?_⟩, fun o w hw j _ => ?_, fun j hj hnot => ?_⟩
    · change (((Deed.clear i).onShards s.db).final.shardManager.shards j).wal.Wf
      rw [hwal]
      split_ifs
      · exact (h.wf i).clear
      · exact h.wf j
    · obtain ⟨u, hu, rfl⟩ := Hand.after_answering ht
      exact Done.after_flushed (hall (some t) u (by rw [hu]; rfl) j)
    · change (((Deed.clear i).onShards s.db).final.shardManager.shards j).wal.Below
        s.db.shardManager.nextSeq
      rw [hwal]
      split_ifs
      · exact WAL.below_of_nil hclear _
      · exact h.level j hj
    · rw [Hand.after_done] at hw
      obtain ⟨u, hu, rfl⟩ := Option.map_eq_some_iff.mp hw
      exact Done.after_flushed (hall o u hu j)
    · rw [hwal]
      have hji : j = i := by
        obtain ⟨todo, htodo⟩ := List.head?_eq_some_iff.mp hhead
        rw [htodo] at hj hnot
        exact (List.mem_cons.mp hj).resolve_right hnot
      rw [if_pos hji]
      exact hclear

lemma Inv.take (h : s.Inv pf) (hs : s.take pf o c = some s')
    (hc : ∀ t, o = some t → c.command.length ≤ MAX_PAYLOAD_SIZE ∧
      (asksWrite pf c = true → s.db.replaying = false)) : s'.Inv pf := by
  simp only [Startup.take] at hs
  split_ifs at hs with hfree
  obtain rfl := Option.some.inj hs
  obtain ⟨-, hadmits⟩ := hfree
  obtain ⟨u, hu⟩ : ∃ u : Startup n m, u = { s with db := (takeUp pf c s.db).final } := ⟨_, rfl⟩
  have hdb : u.Inv pf := hu ▸ h.of_db (takeUp_keeps pf c s.db)
  have hhands : u.hands = s.hands := by rw [hu]
  rw [← hu]
  cases hv : (takeUp pf c s.db).val with
  | none => exact hdb.free o
  | some w =>
    rcases takeUp_val hv with ⟨hx, key, v, ha, hr, rfl⟩ | ⟨hx, rfl⟩
    · refine hdb.write (fun o' _ => ?_) fun t ht => ?_
      · have := hadmits o'
        rw [hx, if_neg Bool.false_ne_true] at this
        rw [hhands]
        exact this
      · obtain ⟨hlen, hflag⟩ := hc t ht
        rw [hflag (by rw [asksWrite, ha])] at hr
        exact ⟨hlen, hr⟩
    · refine hdb.flush (fun o' _ => ?_) fun o' w _ i hi => absurd (List.mem_finRange i) hi
      have := hadmits o'
      rw [hx, if_pos rfl] at this
      rw [hhands]
      exact this

lemma Inv.work (h : s.Inv pf) {w : Work n} (hw : s.hands o = .working w)
    {x : Traced (ZestDB n) (Option (Work n))} (hx : w.act pf d = some x) :
    ((s.mark d (x s.db).final).withHand o (.left (x s.db).val)).Inv pf := by
  have hholds : (s.hands o).holds = true := by rw [hw]; rfl
  obtain ⟨u, hu⟩ : ∃ u : Startup n m, u = s.mark d (x s.db).final := ⟨_, rfl⟩
  have hhands : ∀ o', u.hands o' = (s.hands o').after d := by simp [hu, Startup.mark]
  rw [← hu]
  cases w with
  | write settings j =>
    obtain ⟨hkeeps, -, hval⟩ := act_write hx
    have hdb : u.Inv pf := hu ▸ (h.mark d).of_db (hkeeps s.db)
    cases hv : (x s.db).val with
    | none => exact hdb.free o
    | some w =>
      obtain ⟨j', rfl, hcall, hwrite⟩ := hval s.db w hv
      refine hdb.write (fun o' ho' => ?_) fun t ht => ?_
      · rw [hhands, Hand.after_alone]
        exact h.others_shared hholds ho'
      · rw [hcall, hwrite]
        exact h.checked t settings j (by rw [← ht, hw]; rfl)
  | flush sw =>
    obtain ⟨sw', hn, rfl⟩ := Option.map_eq_some_iff.mp hx
    have halone : (s.hands o).alone = true := by rw [hw]; rfl
    obtain ⟨hdeed, hflushed, -⟩ := h.deed (Or.inr ⟨o, by rw [hw]; rfl⟩) hn
    have hdb : u.Inv pf := hu ▸ hdeed
    have hleft : ((do
        d.onShards
        pure (some (.flush sw')) : Traced (ZestDB n) (Option (Work n))) s.db).val =
          some (.flush sw') := rfl
    rw [hleft]
    refine hdb.flush (fun o' ho' => ?_) fun o' w hdone => ?_
    · rw [hhands, Hand.after_holds]
      exact h.others_free halone ho'
    · rw [hhands] at hdone
      exact hflushed o' w hdone

lemma Inv.done (h : s.Inv pf) {x : Hand n} {w : Done n} (hx : x.done? = some w)
    (halone : x.alone = false) (hwrite : x.write? = some (w.settings, w.job))
    (hshared : x.holds = true → ∀ o' ≠ o, (s.hands o').alone = false)
    (hchecked : ∀ t, o = some t → w.job.call.command.length ≤ MAX_PAYLOAD_SIZE ∧
      ZestDB.refusal pf w.settings true w.job.write = none)
    (hkept : ∀ t, o = some t → ∀ toSync, x = .answering w toSync → w.Recorded pf s.db ∨
      ∀ i, w.flushed i = true)
    (hswept : ∀ sw, (s.boot = .flushing sw ∨ ∃ o' ≠ o, (s.hands o').sweep? = some sw) →
      ∀ i ∉ sw.toFlush, w.flushed i = true) : (s.withHand o x).Inv pf := by
  refine h.withHand (fun ha => ?_) hshared (fun t ht settings j hj => ?_)
    (fun t ht w' toSync ha => ?_) (fun sw hsw => ?_) fun w' hw' => ?_
  · rw [halone] at ha
    cases ha
  · obtain ⟨rfl, rfl⟩ := Prod.mk.inj (Option.some.inj (hwrite.symm.trans hj))
    exact hchecked t ht
  · obtain rfl : w = w' := by
      rw [ha] at hx
      exact (Option.some.inj hx).symm
    exact hkept t ht toSync ha
  · rw [Hand.done_of_sweep hsw] at hx
    cases hx
  · obtain rfl := Option.some.inj (hx.symm.trans hw')
    exact hswept

lemma Inv.finish (h : s.Inv pf) (hs : s.finish o = some s')
    (hc : ∀ t settings j, o = some t → s.hands o = .working (.write settings j) →
      s.db.replaying = false) : s'.Inv pf := by
  simp only [Startup.finish] at hs
  cases hw : s.hands o with
  | free | logging | appending | answering =>
    rw [hw] at hs
    cases hs
  | working w =>
    rw [hw] at hs
    cases w with
    | flush sw =>
      simp only at hs
      split_ifs at hs
      obtain rfl := Option.some.inj hs
      exact h.free o
    | write settings j =>
      have hholds : (s.hands o).holds = true := by rw [hw]; rfl
      simp only at hs
      split_ifs at hs with _ hflag hsome
      · obtain rfl := Option.some.inj hs
        have hunset : s.db.replaying = false := by simpa using hflag
        refine h.done rfl rfl rfl (fun _ o' ho' => h.others_shared hholds ho') (fun t ht => ?_)
          (fun t _ toSync hx => ?_) ?_
        · exact h.checked t settings j (by rw [← ht, hw]; rfl)
        · cases hx
        · rintro sw (hb | ⟨o', ho', hsw⟩)
          · have := h.flag
            rw [hb, hunset] at this
            cases this
          · have := h.others_shared hholds ho'
            rw [Hand.alone_of_sweep hsw] at this
            cases this
      · obtain ⟨t, rfl⟩ := Option.isSome_iff_exists.mp hsome
        exact absurd (hc t settings j rfl hw) (by simpa using hflag)
      · obtain rfl := Option.some.inj hs
        exact h.free o

lemma Inv.check (h : s.Inv pf) {w : Done n} (hw : s.hands (some t) = .logging w) :
    (s.withHand (some t) (.appending w)).Inv pf := by
  have hholds : (s.hands (some t)).holds = true := by rw [hw]; rfl
  refine h.done rfl rfl rfl (fun _ o' ho' => h.others_shared hholds ho') (fun t' ht' => ?_)
    (fun t' _ toSync hx => ?_) (h.swept_done (by rw [hw]; rfl))
  · exact h.checked t w.settings w.job (by rw [hw]; rfl)
  · cases hx

lemma Inv.sync (h : s.Inv pf) {w : Done n} {i : Fin n} {toSync : List (Fin n)}
    (hw : s.hands (some t) = .answering w (i :: toSync)) :
    ({ s with db := { s.db with shardManager := s.db.shardManager.onWal WAL.sync i } }.withHand
      (some t) (.answering w toSync)).Inv pf := by
  have hwal := ShardManager.onWal_shards WAL.sync i s.db.shardManager
  have hdb :
      ({ s with db := { s.db with shardManager := s.db.shardManager.onWal WAL.sync i } } :
        Startup n m).Inv pf := by
    refine h.of_content (fun j => ?_) (fun j => ?_) le_rfl rfl
    · rw [hwal]
      split_ifs
      · exact (h.wf i).sync
      · exact h.wf j
    · rw [hwal]
      split_ifs with hj
      · rw [hj, WAL.sync_content]
      · rfl
  exact hdb.done rfl rfl rfl nofun (fun _ _ => h.checked t w.settings w.job (by rw [hw]; rfl))
    (fun _ _ _ _ => hdb.kept t w _ hw) (h.swept_done (by rw [hw]; rfl))

lemma Inv.append (h : s.Inv pf) {w : Done n} (hw : s.hands (some t) = .appending w)
    (hseq : s.db.shardManager.nextSeq + 1 < 2 ^ 64)
    (hready : s.boot = .serving ∨ s.db.shardManager.Ready (ShardManager.getShardId pf w.job.key)) :
    ({ s with db := (ZestDB.onManager
      (ShardManager.appendToWAL pf w.job.key w.job.call.command) s.db).final }.withHand (some t)
      (.answering { w with
        record := some (s.db.shardManager.record w.job.call.command, s.db.shardManager.walEntries) }
        (List.finRange n))).Inv pf := by
  obtain ⟨hlen, haccepted⟩ := h.checked t w.settings w.job (by rw [hw]; rfl)
  have hlt : w.job.call.command.length < 2 ^ 32 := hlen.trans_lt (by decide)
  obtain ⟨i, hi⟩ : ∃ i : Fin n, i = ShardManager.getShardId pf w.job.key := ⟨_, rfl⟩
  have hlevel : s.boot = .serving →
      ∀ j, (s.db.shardManager.shards j).wal.Below s.db.shardManager.nextSeq := fun hb j =>
    h.level j (by rw [hb]; trivial)
  have hunbroken : (s.db.shardManager.shards i).Unbroken := by
    rcases hready with hb | hr
    · exact (hlevel hb i).unbroken
    · rw [hi]
      exact hr.1
  have hbelow : ∀ e ∈ s.db.shardManager.walEntries, e.seq < s.db.shardManager.nextSeq := by
    rcases hready with hb | hr
    · intro e he
      obtain ⟨j, hj⟩ := ShardManager.mem_walEntries.mp he
      exact (hlevel hb j).lt e hj
    · exact hr.2
  have hrecord : s.db.shardManager.record w.job.call.command =
      ⟨w.job.call.command, s.db.shardManager.nextSeq⟩ := by
    rw [ShardManager.record, Nat.mod_eq_of_lt hlt, List.take_length]
  obtain ⟨db', hdb'⟩ : ∃ db', db' =
      (ZestDB.onManager (ShardManager.appendToWAL pf w.job.key w.job.call.command) s.db).final :=
    ⟨_, rfl⟩
  have hwal : ∀ j, (db'.shardManager.shards j).wal = if j = i then
      (s.db.shardManager.shards j).wal.append w.job.call.command s.db.shardManager.nextSeq
      else (s.db.shardManager.shards j).wal := by
    rw [hdb', hi]
    exact ShardManager.appendToWAL_shards pf w.job.key w.job.call.command s.db.shardManager
  have hnext : db'.shardManager.nextSeq = s.db.shardManager.nextSeq + 1 := by
    rw [hdb']
    exact Nat.mod_eq_of_lt hseq
  obtain ⟨hcmds, -⟩ := WAL.append_unbroken hunbroken hlt (Nat.lt_of_succ_lt hseq)
  have hstays : ∀ j, ∀ e ∈ (s.db.shardManager.shards j).wal.getCmds,
      e ∈ (db'.shardManager.shards j).wal.getCmds := by
    intro j e he
    rw [hwal]
    split_ifs with hj
    · rw [hj] at he ⊢
      rw [hcmds]
      exact List.mem_append_left _ he
    · exact he
  have hdb : ({ s with db := db' } : Startup n m).Inv pf := by
    refine ⟨fun j => ?_, ?_, h.lock, h.checked, fun t d toSync ht => ?_, h.swept, fun j hj => ?_⟩
    · change (db'.shardManager.shards j).wal.Wf
      rw [hwal]
      split_ifs
      · exact WAL.append_wf _ _ _
      · exact h.wf j
    · rw [h.flag, hdb']
      rfl
    · refine (h.kept t d toSync ht).imp_left ?_
      rintro ⟨e, earlier, hd, hcmd, hmem, hlt⟩
      exact ⟨e, earlier, hd, hcmd, hstays _ e hmem, hlt⟩
    · have hold := h.level j hj
      change (db'.shardManager.shards j).wal.Below db'.shardManager.nextSeq
      rw [hwal, hnext]
      split_ifs
      · exact hold.append hlt (Nat.lt_of_succ_lt hseq)
      · exact hold.mono (Nat.le_succ _)
  rw [← hdb']
  refine hdb.done rfl rfl rfl (fun hh => by cases hh) (fun _ _ => ⟨hlen, haccepted⟩)
    (fun _ _ _ _ => Or.inl ?_) (h.swept_done (w := w) (by rw [hw]; rfl))
  refine ⟨_, _, rfl, by rw [hrecord], ?_, fun r hr => ?_⟩
  · rw [← hi, hwal, if_pos rfl, hcmds, hrecord]
    exact List.mem_append_right _ (List.mem_singleton.mpr rfl)
  · rw [hrecord]
    exact hbelow r hr

lemma Inv.step_finish (h : s.Inv pf) (hc : s.Calm pf (.finish o))
    (hs : s.step pf (.finish o) = some s') : s'.Inv pf := by
  refine h.finish hs fun t settings j ho hw => ?_
  subst ho
  exact hc (by rw [hw]; rfl)

lemma Inv.step_check (h : s.Inv pf) (hc : s.Calm pf (.check t))
    (hs : s.step pf (.check t) = some s') : s'.Inv pf := by
  simp only [Startup.step] at hs
  split at hs
  · rename_i w hw
    have hunset : s.db.replaying = false := hc
    rw [hunset] at hs
    obtain rfl := Option.some.inj hs
    exact h.check hw
  · cases hs

lemma Inv.step_append (h : s.Inv pf) (hc : s.Calm pf (.append t))
    (hs : s.step pf (.append t) = some s') :
    s'.Inv pf := by
  simp only [Startup.step] at hs
  split at hs
  · rename_i w hw
    obtain rfl := Option.some.inj hs
    obtain ⟨hseq, hready⟩ := hc w (by rw [hw]; rfl)
    exact h.append hw hseq hready
  · cases hs

lemma Inv.step_work (h : s.Inv pf) (hs : s.step pf (.work o d) = some s') : s'.Inv pf := by
  simp only [Startup.step] at hs
  split at hs
  · rename_i w hw
    obtain ⟨x, hx, rfl⟩ := Option.map_eq_some_iff.mp hs
    exact h.work hw hx
  · cases hs

lemma Inv.step_sync (h : s.Inv pf) (hs : s.step pf (.sync t) = some s') : s'.Inv pf := by
  simp only [Startup.step] at hs
  split at hs
  · rename_i w i toSync hw
    obtain rfl := Option.some.inj hs
    exact h.sync hw
  · cases hs

lemma Inv.step_reply (h : s.Inv pf) (hs : s.step pf (.reply t) = some s') : s'.Inv pf := by
  simp only [Startup.step] at hs
  split at hs
  · obtain rfl := Option.some.inj hs
    exact h.free _
  · cases hs

lemma Inv.goesOn (h : s.Inv pf) (hsm : db.shardManager = s.db.shardManager)
    (hflag : b.raised = db.replaying) (hsweep : ∀ sw, b ≠ .flushing sw) (hpast : ∀ i, ¬ b.Past i) :
    ({ s with db := db, boot := b } : Startup n m).Inv pf :=
  h.withBoot hsm hflag (fun sw hsw => absurd hsw (hsweep sw)) fun i hi => absurd hi (hpast i)

lemma Inv.step_raise (h : s.Inv pf) (hs : s.step pf .raise = some s') : s'.Inv pf := by
  simp only [Startup.step] at hs
  split at hs
  · obtain rfl := Option.some.inj hs
    exact h.goesOn rfl rfl (fun _ hb => by cases hb) fun _ => id
  · cases hs

lemma Inv.step_read (h : s.Inv pf) (hs : s.step pf .read = some s') : s'.Inv pf := by
  simp only [Startup.step] at hs
  split at hs
  · rename_i i toRead allWalEntries hb
    obtain rfl := Option.some.inj hs
    have hflag := h.flag
    rw [hb] at hflag
    exact h.goesOn rfl hflag (fun _ hb => by cases hb) fun _ => id
  · cases hs

lemma Inv.step_sort (h : s.Inv pf) (hs : s.step pf .sort = some s') : s'.Inv pf := by
  simp only [Startup.step] at hs
  split at hs
  · rename_i allWalEntries hb
    obtain rfl := Option.some.inj hs
    have hflag := h.flag
    rw [hb] at hflag
    obtain ⟨sm, hsm⟩ : ∃ sm, sm =
        ShardManager.advanceAll (allWalEntries.insertionSort fun a b => a.seq ≤ b.seq)
      s.db.shardManager := ⟨_, rfl⟩
    have hshards : sm.shards = s.db.shardManager.shards := by
      rw [hsm, ShardManager.advanceAll_shards]
    have hdb : ({ s with db := { s.db with shardManager := sm } } : Startup n m).Inv pf := by
      refine h.of_content (fun i => ?_) (fun i => ?_) ?_ rfl
      · rw [hshards]
        exact h.wf i
      · rw [hshards]
      · rw [hsm]
        exact ShardManager.le_advanceAll _ _
    rw [← hsm]
    exact hdb.goesOn rfl hflag (fun _ hb => by cases hb) fun _ => id
  · cases hs

lemma Inv.step_replay {ch : Choices n} (h : s.Inv pf) (hs : s.step pf (.replay ch) = some s') :
    s'.Inv pf := by
  simp only [Startup.step] at hs
  split at hs
  · rename_i entry todo hb
    have hflag := h.flag
    rw [hb] at hflag
    have hboot : ({ s with boot := .replaying todo } : Startup n m).Inv pf :=
      h.goesOn rfl hflag (fun _ hb => by cases hb) fun _ => id
    exact hboot.take hs fun _ ht => by cases ht
  · cases hs

lemma Inv.step_sweep (h : s.Inv pf) (hs : s.step pf .sweep = some s') : s'.Inv pf := by
  simp only [Startup.step] at hs
  split at hs
  · rename_i hb
    split_ifs at hs
    obtain rfl := Option.some.inj hs
    have hflag := h.flag
    rw [hb] at hflag
    refine h.withBoot rfl hflag (fun sw hsw o w _ i hi => ?_) fun i hi => ?_
    · obtain rfl := Boot.flushing.inj hsw
      exact absurd (List.mem_finRange i) hi
    · exact absurd (List.mem_finRange i) hi
  · cases hs

lemma Inv.step_last (h : s.Inv pf) (hs : s.step pf (.last d) = some s') : s'.Inv pf := by
  simp only [Startup.step] at hs
  split at hs
  · rename_i sw hb
    obtain ⟨sw', hn, rfl⟩ := Option.map_eq_some_iff.mp hs
    obtain ⟨hdeed, hflushed, hcleared⟩ := h.deed (Or.inl hb) hn
    have hboot : (s.mark d (d.onShards s.db).final).boot = .flushing sw := hb
    have hflag := hdeed.flag
    rw [hboot] at hflag
    refine hdeed.withBoot rfl hflag (fun sw₁ hsw₁ => ?_) fun i hi => ?_
    · obtain rfl := Boot.flushing.inj hsw₁
      exact hflushed
    · by_cases hmem : i ∈ sw.toClear
      · exact WAL.below_of_nil (hcleared i hmem hi) _
      · refine hdeed.level i ?_
        rw [hboot]
        exact hmem
  · cases hs

lemma Inv.step_lower (h : s.Inv pf) (hs : s.step pf .lower = some s') : s'.Inv pf := by
  simp only [Startup.step] at hs
  split at hs
  · rename_i sw hb
    split_ifs at hs with hover
    obtain rfl := Option.some.inj hs
    obtain ⟨-, hclear⟩ := Bool.and_eq_true_iff.mp hover
    refine h.withBoot rfl rfl (fun _ hsw => by cases hsw) fun i _ => h.level i ?_
    rw [hb]
    change i ∉ sw.toClear
    rw [List.isEmpty_iff.mp hclear]
    exact List.not_mem_nil
  · cases hs

theorem Inv.step (h : s.Inv pf) (hc : s.Calm pf e) (hs : s.step pf e = some s') : s'.Inv pf := by
  cases e with
  | start t c =>
    simp only [Startup.step] at hs
    split_ifs at hs with hlen
    exact h.take hs fun t' _ => ⟨hlen, hc⟩
  | work o d => exact h.step_work hs
  | finish o => exact h.step_finish hc hs
  | check t => exact h.step_check hc hs
  | append t => exact h.step_append hc hs
  | sync t => exact h.step_sync hs
  | reply t => exact h.step_reply hs
  | compact i ch =>
    obtain rfl := Option.some.inj hs
    exact h.of_db
      (ZestDB.onManager_keeps (ShardManager.onShard_keeps (Shard.compactorPass_keeps ch) i) s.db)
  | raise => exact h.step_raise hs
  | read => exact h.step_read hs
  | sort => exact h.step_sort hs
  | replay ch => exact h.step_replay hs
  | sweep => exact h.step_sweep hs
  | last d => exact h.step_last hs
  | lower => exact h.step_lower hs

end Steps

section Runs

variable {config : ConfigFile} {settings : Settings} {ch fill : Choices n}
  {disks : Fin n → Shard.Disk}
variable {C : Startup n m → Event n m → Prop} {es : List (Event n m)} {d : Done n}

lemma start_inv : (start config settings ch fill disks : Startup n m).Inv pf := by
  refine ⟨fun i => ?_, rfl, fun o o' ha => ?_, fun t settings j hj => ?_, fun t w toSync ht => ?_,
    fun sw _ o w hw => ?_, fun i hi => ?_⟩
  · change (Shard.reopen settings (ch.shard i) (fill.shard i) (disks i)).wal.Wf
    rw [Shard.reopen_wal]
    exact WAL.openWal_wf _
  · cases ha
  · cases hj
  · cases ht
  · cases hw
  · cases hi

lemma run_moves [∀ s e, Decidable (C s e)] (h : run pf C es s = some s') :
    Relation.ReflTransGen (Moves pf C) s s' := by
  induction es generalizing s with
  | nil =>
    obtain rfl := Option.some.inj h
    exact .refl
  | cons e es ih =>
    rw [run] at h
    split_ifs at h with hc
    obtain ⟨u, hu, hrest⟩ := Option.bind_eq_some_iff.mp h
    exact .head ⟨e, hc, hu⟩ (ih hrest)

lemma run_inv (h : Relation.ReflTransGen (Moves pf (Calm pf))
    (start config settings ch fill disks) s) : s.Inv pf := by
  induction h with
  | refl => exact start_inv
  | tail _ hm ih =>
    obtain ⟨e, hc, hs⟩ := hm
    exact ih.step hc hs

/-- Beside a replay whose flag no write of a session reads, a write that is answered was checked,
and it is recorded above all that was recorded before it or flushed since. -/
theorem run_safe
    (h : Relation.ReflTransGen (Moves pf (Calm pf)) (start config settings ch fill disks) s)
    (ht : s.hands (some t) = .answering d []) : d.Safe pf s.db := by
  have hinv := run_inv h
  exact ⟨(hinv.checked t d.settings d.job (by rw [ht]; rfl)).2, hinv.kept t d [] ht⟩

end Runs

section OneShard

def answered (s : Startup 1 m) (t : Fin m) : Option (Done 1) :=
  match s.hands (some t) with
  | .answering d [] => some d
  | _ => none

lemma answered_some {s : Startup 1 m} {t : Fin m} {d : Done 1} (h : s.answered t = some d) :
    s.hands (some t) = .answering d [] := by
  simp only [answered] at h
  split at h
  · rename_i d' hd
    obtain rfl := Option.some.inj h
    exact hd
  · cases h

def opened (settings : Settings) (wal : Bytes) : Startup 1 m :=
  start { mapping := true, values := some settings } settings {} {} fun _ =>
    { Shard.Disk.empty with wal := wal }

def writing : Fin 2 := ⟨0, by decide⟩

def flushing : Fin 2 := ⟨1, by decide⟩

/-- The replay of a record, a write after it, and before the answer to the write a flush and a pass
of the compactor. -/
def afterReplay : List (Event 1 2) :=
  [.raise, .read, .sort, .replay {}, .work none (.turn .single), .finish none, .sweep,
    .last (.flush 0 .plain), .last (.clear 0), .lower,
    .start writing { command := ascii "set a x" }, .work (some writing) (.turn .single),
    .finish (some writing), .check writing, .append writing,
    .start flushing { command := ascii "flush" }, .work (some flushing) (.flush 0 .plain),
    .work (some flushing) (.clear 0), .finish (some flushing), .compact 0 .plain, .sync writing]

def recordOfB : Bytes := walCodec.encode ⟨ascii "set b y", 0⟩

theorem afterReplay_safe :
    ∃ s d, run Op.oneHash (Calm Op.oneHash) afterReplay (opened {} recordOfB) = some s ∧
      s.hands (some writing) = .answering d [] ∧
      d.Safe Op.oneHash s.db := by
  have hsome : ((run Op.oneHash (Calm Op.oneHash) afterReplay (opened {} recordOfB)).bind fun s =>
      s.answered writing).isSome = true := by
    decide +kernel
  obtain ⟨d, hd⟩ := Option.isSome_iff_exists.mp hsome
  obtain ⟨s, hs, ha⟩ := Option.bind_eq_some_iff.mp hd
  exact ⟨s, d, hs, answered_some ha, run_safe (run_moves hs) (answered_some ha)⟩

def duringReplay : List (Event 1 1) :=
  [.raise, .start 0 { command := ascii "set a x" }, .work (some 0) (.turn .single),
    .finish (some 0), .sync 0]

theorem duringReplay_not_safe :
    ¬ ∀ (config : ConfigFile) (settings : Settings) (ch fill : Choices 1)
      (disks : Fin 1 → Shard.Disk) (s : Startup 1 1) (t : Fin 1) (d : Done 1),
      Relation.ReflTransGen (Moves Op.oneHash fun _ _ => True)
        (start config settings ch fill disks) s →
      s.hands (some t) = .answering d [] → d.Safe Op.oneHash s.db := by
  intro h
  have hrefused :
      ((run Op.oneHash (fun _ _ => True) duringReplay (opened { readOnly := true } [])).bind
        fun s => s.answered 0).map
      (fun d => ZestDB.refusal Op.oneHash d.settings true d.job.write) =
        some (some Messages.READ_ONLY_ERROR) := by
    decide +kernel
  obtain ⟨d, hd, hr⟩ := Option.map_eq_some_iff.mp hrefused
  obtain ⟨s, hs, ha⟩ := Option.bind_eq_some_iff.mp hd
  have hsafe := h _ _ _ _ _ s 0 d (run_moves hs) (answered_some ha)
  rw [hsafe.checked] at hr
  cases hr

end OneShard

end Startup

end Zest
