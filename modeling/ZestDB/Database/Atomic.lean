import ZestDB.Database.Overwrites

/-! Commands of one key, flushes and passes of the compactors, one after the other, and the crash
that ends them. -/

namespace Zest

open Foundations

lemma key_of_request {pf : Platform} {v : Verb} {args : List Word} {w : Write} {key : Key}
    (h : request pf v args = .ok (.write w)) (hk : w.key? = some key) :
    (args.head?.map Word.text).getD [] = key := by
  have hrule : ∀ {x : Except Bytes ValidationRule} {f : ValidationRule → Write},
      x.map (fun valid => Request.write (f valid)) = .ok (.write w) → ∃ valid, w = f valid := by
    intro x f hx
    cases x with
    | error message => cases hx
    | ok valid =>
      obtain rfl : f valid = w := by simpa [Except.map] using hx
      exact ⟨valid, rfl⟩
  cases v with
  | s =>
    match args, h with
    | word :: value :: rest, h =>
      obtain rfl : Write.set word.text value.suffix = w := by simpa [request] using h
      exact Option.some.inj hk
  | d =>
    match args, h with
    | word :: rest, h =>
      obtain rfl : Write.del word.text = w := by simpa [request] using h
      exact Option.some.inj hk
  | sb =>
    match args, h with
    | mode :: pattern :: first :: rest, h =>
      obtain ⟨valid, rfl⟩ := hrule h
      cases hk
  | db =>
    match args, h with
    | mode :: pattern :: rest, h =>
      obtain ⟨valid, rfl⟩ := hrule h
      cases hk
  | gb =>
    match args, h with
    | mode :: pattern :: rest, h =>
      simp only [request] at h
      cases hm : makeRule pf mode pattern
        (scanLimit rest (some UINT_MAX)) Messages.INVALID_REGEX <;> rw [hm] at h <;> cases h
  | g => match args, h with
    | word :: rest, h => cases h
  | scfg => match args, h with
    | param :: value :: rest, h => cases h
  | h | f | r | gcfg | save | unknown => cases h

namespace ZestDB

variable {n : ℕ} {pf : Platform} {db : ZestDB n}

/-- A call of `execCmd`, a flush of all shards, a pass of the compactor of one. -/
inductive Action (n : ℕ) where
  | exec (c : Call n)
  | flush (ch : Choices n)
  | compact (ch : Choices n) (i : Fin n)

/-- The database, and for each key what the last acknowledged command made of it and what later ones
did. -/
structure Site (n : ℕ) where
  db : ZestDB n
  allowed : Key → Set (Option Value)

variable [NeZero n] {c : Call n} {w : Write} {word : Bytes} {k key : Key}
  {allowed allowed' : Key → Set (Option Value)}

namespace Action

def run (pf : Platform) : Action n → Traced (ZestDB n) Unit
  | .exec c => do
    let _ ← execCmd pf c
    pure ()
  | .flush ch => ZestDB.flush ch
  | .compact ch i => onManager (ShardManager.compactorPass ch i)

/-- The commands are writes of one key, and their texts fit in a record. -/
def Checked (pf : Platform) : Action n → Prop
  | .exec c => (∃ word w key, asked pf c = some (word, .write w) ∧ w.key? = some key) ∧
      c.command.length < 2 ^ 32
  | _ => True

def Few (db : ZestDB n) : Action n → Prop
  | .compact _ i => (db.shardManager.shards i).FewKeys
  | _ => True

/-- What a command that succeeds makes of the key `k`. -/
def gives (pf : Platform) (db : ZestDB n) (k : Key) : Action n → Set (Option Value)
  | .exec c => {o | ∃ w r, writeOf pf c.command = some w ∧ w.outcome k = some o ∧
      (execCmd pf c db).val = some r ∧ r.code = .Success}
  | _ => ∅

def acknowledges : Action n → Bool
  | .exec c => c.syncWal
  | _ => false

end Action

namespace Site

/-- What a key may be after a crash in the middle of the action. -/
def during (pf : Platform) (w : Site n) (a : Action n) (k : Key) : Set (Option Value) :=
  w.allowed k ∪ a.gives pf w.db k

/-- An acknowledged command leaves its key what it makes of it. -/
def after (pf : Platform) (w : Site n) (a : Action n) : Site n where
  db := (a.run pf w.db).final
  allowed k := a.gives pf w.db k ∪ {o ∈ w.allowed k | a.acknowledges → a.gives pf w.db k = ∅}

structure Roomy (pf : Platform) (w : Site n) (a : Action n) : Prop where
  number : w.db.shardManager.nextSeq + 1 < 2 ^ 64
  few : a.Few w.db
  within : Traced.Within (Each Shard.WithinLimits) (a.run pf) w.db

end Site

omit [NeZero n] in
lemma key_of_asked (h : asked pf c = some (word, .write w)) (hk : w.key? = some key) :
    word = key := by
  simp only [asked] at h
  cases hwords : words c.command with
  | nil => simp [hwords] at h
  | cons name args =>
    simp only [hwords] at h
    split_ifs at h
    cases hr : request pf (verbOf name.text) args with
    | error message => simp [hr] at h
    | ok req =>
      simp only [hr, Option.some.injEq, Prod.mk.injEq] at h
      obtain ⟨rfl, rfl⟩ := h
      exact key_of_request hr hk

def Holds (pf : Platform) (allowed : Key → Set (Option Value)) (db : ZestDB n) : Prop :=
  db.shardManager.Holds pf db.settings.SegSize allowed

lemma onManager_holds {α : Type} {x : Traced (ShardManager n) α}
    (hx : Traced.Within (ShardManager.Holds pf db.settings.SegSize allowed) x db.shardManager) :
    Traced.Within (Holds pf allowed) (onManager x) db :=
  .zoom hx.start hx fun _ ht => ht

end ZestDB

namespace ShardManager

variable {n : ℕ} [NeZero n] {pf : Platform} {sm : ShardManager n} {ch : Choices n} {segSize : ℕ}
  {w : Write} {key : Key}
variable {allowed : Key → Set (Option Value)}

lemma Holds.write (h : Holds pf segSize allowed sm) (hi : sm.Inv pf)
    (hnow : ∀ k, sm.toMap pf k ∈ allowed k)
    (hv : w.ValueOk) (hk : w.KeyOk) (hkey : w.key? = some key) (hout : w.value? ∈ allowed key)
    (hw : Traced.Within (Each Shard.Bounded) (write pf ch w) sm) :
    Traced.Within (Holds pf segSize allowed) (write pf ch w) sm := by
  have hat : allowedAt pf allowed (getShardId pf key : Fin n) key w.value? := by
    rw [allowedAt, if_pos rfl]
    exact hout
  cases w with
  | set j value =>
    obtain rfl := Option.some.inj hkey
    refine h.onShard (Shard.set_runs (hi.shard _) (hv value rfl) (within_onShard hw)) ?_
      (allowedAt_toMap hi hnow) ?_
      fun _ hB => hB.elim
    · rintro k v ⟨rfl, -⟩
      exact hk
    · rintro k v ⟨rfl, rfl⟩
      exact hat
  | del j =>
    obtain rfl := Option.some.inj hkey
    refine h.onShard (Shard.del_spec (hi.shard _) j).2.2 (fun _ _ hA => hA.elim)
      (allowedAt_toMap hi hnow) (fun _ _ hA => hA.elim) ?_
    rintro k rfl
    exact hat
  | setBy valid value => cases hkey
  | delBy valid => cases hkey

lemma Holds.last_logged (h : Holds pf segSize allowed sm) {command : Bytes}
    (hfits : (sm.record command).Fits)
    (hw : writeOf pf (sm.record command).cmd = some w) (hkey : w.key? = some key) :
    (outcomes pf key ((appendToWAL pf key command sm).final.shards
      (getShardId pf key)).wal.getCmds).getLast? = some w.value? := by
  obtain ⟨log, hlog, -⟩ := h.journal
  have hparts : (appendToWAL pf key command sm).final.logs (getShardId pf key) =
      walCodec.encodeAll (part log (getShardId pf key) ++ [sm.record command]) := by
    rw [appendToWAL_logs, if_pos rfl, hlog.parts, walCodec.encodeAll_append]
    simp [ShardManager.record]
  have hcmds : ((appendToWAL pf key command sm).final.shards (getShardId pf key)).wal.getCmds =
      part log (getShardId pf key) ++ [sm.record command] := by
    change (walCodec.decodeAll ((appendToWAL pf key command sm).final.logs (getShardId pf key))).1 =
      _
    rw [hparts, walCodec.decodeAll_encodeAll]
    intro e he
    rcases List.mem_append.mp he with he | he
    · exact hlog.fits _ (mem_part he)
    · rw [List.mem_singleton.mp he]
      exact hfits
  have hone : outcomes pf key [sm.record command] = [w.value?] := by
    simp only [outcomes, writesOf, List.filterMap_cons, hw, List.filterMap_nil, Write.outcome, hkey,
      if_true]
  rw [hcmds, outcomes_append, hone, List.getLast?_concat]

lemma Holds.syncWAL (h : Holds pf segSize allowed sm) :
    Traced.Within (Holds pf segSize allowed) syncWAL sm := by
  intro t ht
  rcases List.mem_cons.mp ht with rfl | ht
  · exact h
  · have hb := eachShard_visited
      (x := fun _ : Fin n => .step fun s : Shard => { s with wal := s.wal.sync })
      (fun _ => .step _) (List.nodup_finRange n) sm t ht
    refine h.sync (fun i => ?_) hb.nextSeq
    simpa using hb.mem i

end ShardManager

namespace ZestDB

variable {n : ℕ} [NeZero n] {pf : Platform} {db : ZestDB n} {c : Call n} {w : Write} {key : Key}
variable {allowed : Key → Set (Option Value)}

lemma log_holds (h : db.Holds pf allowed) (hn : db.shardManager.nextSeq + 1 < 2 ^ 64)
    (hl : c.command.length < 2 ^ 32)
    (hw : writeOf pf c.command = some w) (hkey : w.key? = some key) (hv : w.ValueOk) (hk : w.KeyOk)
    (hf : w.Fits db.settings.SegSize) (hout : w.value? ∈ allowed key) (syncWal : Bool) :
    Traced.Within (Holds pf allowed) (log pf key c.command syncWal) db ∧
      (syncWal = true → (log pf key c.command syncWal db).final.Holds pf
        (Function.update allowed key {w.value?})) := by
  obtain ⟨hfits, hcmd⟩ := Journal.record_fits db hl hn
  have hrecord : writeOf pf (db.shardManager.record c.command).cmd = some w := by rwa [hcmd]
  have happend := ShardManager.Holds.append h hfits hn
    ⟨w, key, hrecord, hkey, rfl, hv, hk, hf⟩ hrecord hkey hout
  have hfirst : Traced.Within (Holds pf allowed)
      (onManager (ShardManager.appendToWAL pf key c.command)) db :=
    onManager_holds (.step h happend)
  cases syncWal with
  | false => exact ⟨.bind hfirst (.pure _ happend), fun hs => by cases hs⟩
  | true =>
    refine ⟨.bind hfirst
      (.bind_pure (onManager_holds happend.syncWAL) (onManager_tracked syncWAL_tracked) _),
      fun _ => ?_⟩
    exact ShardManager.Holds.synced happend (ShardManager.Holds.last_logged h hfits hrecord hkey)

lemma execCmd_write (ha : asked pf c = some (key, .write w)) (db : ZestDB n) :
    (execCmd pf c db).final = (writeAndLog pf c key w db).final ∧
      (execCmd pf c db).val = some (write pf c.choices w db).val := by
  rw [execCmd_some ha]
  refine ⟨rfl, ?_⟩
  change some (writeAndLog pf c key w db).val = _
  rw [writeAndLog_val]

lemma Action.gives_exec (ha : asked pf c = some (key, .write w)) (db : ZestDB n) (k : Key)
    (o : Option Value) :
    o ∈ (Action.exec c).gives pf db k ↔ w.outcome k = some o ∧ (write pf c.choices w db).val.code =
      .Success := by
  constructor
  · rintro ⟨w', r, hw, ho, hr, hcode⟩
    obtain rfl : w = w' := Option.some.inj ((writeOf_of_asked ha).symm.trans hw)
    rw [(execCmd_write ha db).2] at hr
    obtain rfl := Option.some.inj hr
    exact ⟨ho, hcode⟩
  · rintro ⟨ho, hcode⟩
    exact ⟨w, _, writeOf_of_asked ha, ho, (execCmd_write ha db).2, hcode⟩

namespace Site

structure Kept (pf : Platform) (s : Site n) : Prop where
  good : s.db.Good
  ready : s.db.Ready pf
  holds : s.db.Holds pf s.allowed
  now : ∀ k, s.db.toMap pf k ∈ s.allowed k

variable {s : Site n}

lemma Kept.during (h : s.Kept pf) (a : Action n) :
    s.db.Holds pf (s.during pf a) ∧ ∀ k, s.db.toMap pf k ∈ s.during pf a k :=
  ⟨h.holds.mono fun _ => Set.subset_union_left, fun k => Set.mem_union_left _ (h.now k)⟩

lemma Kept.write_in (h : s.Kept pf) (ha : asked pf c = some (key, .write w))
    (hkey : w.key? = some key) (hr : refusal pf s.db.settings true w = none)
    (hw : Traced.Within (Each Shard.WithinLimits) (write pf c.choices w) s.db) :
    w.value? ∈ s.during pf (.exec c) key := by
  have hr' : refusal pf s.db.settings (!s.db.replaying) w = none := by rwa [h.good.replaying]
  obtain ⟨t, ht, hwrote, hsucc⟩ := write_wrote _ h.ready hr' (refusal_none h.good.accepted hr).1 hw
  have hout : w.outcome key = some w.value? := by rw [Write.outcome, if_pos hkey]
  by_cases hs : w.Succeeds s.db.settings.SegSize (s.db.toMap pf)
  · exact Or.inr ((Action.gives_exec ha s.db key _).mpr ⟨hout, hsucc.mpr hs⟩)
  · refine Or.inl ?_
    cases w with
    | set j value => exact absurd (refusal_fits h.good.accepted hr) hs
    | del j =>
      obtain rfl := Option.some.inj hkey
      have hnone : s.db.toMap pf j = none := by simpa [Write.Succeeds] using hs
      have hnow := h.now j
      rwa [hnone] at hnow
    | setBy valid value => cases hkey
    | delBy valid => cases hkey

lemma Kept.write (h : s.Kept pf) (ha : asked pf c = some (key, .write w)) (hkey : w.key? = some key)
    (hw : Traced.Within (Each Shard.WithinLimits) (write pf c.choices w) s.db) :
    Traced.Within (Holds pf (s.during pf (.exec c))) (write pf c.choices w) s.db := by
  obtain ⟨hholds, hnow⟩ := h.during (.exec c)
  have hw' := (Traced.Within.get_bind_iff _).mp hw
  refine (Traced.Within.get_bind_iff _).mpr ?_
  beta_reduce at hw' ⊢
  cases hr : refusal pf s.db.settings (!s.db.replaying) w with
  | some message => exact .pure _ hholds
  | none =>
    simp only [hr] at hw'
    rw [h.good.replaying] at hr
    obtain ⟨hv, hk⟩ := refusal_none h.good.accepted hr
    exact onManager_holds (hholds.write h.ready.inv hnow hv hk hkey (h.write_in ha hkey hr hw)
      ((within_onManager hw').mono fun _ hs i => (hs i).bounded))

lemma Kept.logged (h : s.Kept pf) (ha : asked pf c = some (key, .write w))
    (hkey : w.key? = some key)
    (hlen : c.command.length < 2 ^ 32) (hn : s.db.shardManager.nextSeq + 1 < 2 ^ 64)
    (hw : Traced.Within (Each Shard.WithinLimits) (ZestDB.write pf c.choices w) s.db)
    (hcode : (ZestDB.write pf c.choices w s.db).val.code = .Success) :
    ∃ t, (ZestDB.write pf c.choices w s.db).final = { s.db with shardManager := t } ∧
      ShardManager.Wrote pf s.db.shardManager t (w.apply (s.db.toMap pf)) ∧
      Traced.Within (Holds pf (s.during pf (.exec c))) (log pf key c.command c.syncWal)
      { s.db with shardManager := t } ∧ (c.syncWal = true →
        (log pf key c.command c.syncWal { s.db with shardManager := t }).final.Holds pf
        (Function.update (s.during pf (.exec c)) key {w.value?})) := by
  have hr : refusal pf s.db.settings (!s.db.replaying) w = none := by
    cases hr : refusal pf s.db.settings (!s.db.replaying) w with
    | none => rfl
    | some message =>
      rw [write_refused hr] at hcode
      cases hcode
  have hr' : refusal pf s.db.settings true w = none := by rwa [h.good.replaying] at hr
  obtain ⟨hv, hk⟩ := refusal_none h.good.accepted hr'
  have hf := refusal_fits h.good.accepted hr'
  obtain ⟨t, ht, hwrote, -⟩ := write_wrote _ h.ready hr hv hw
  have hfinal := (h.write ha hkey hw).final write_tracked
  rw [ht] at hfinal
  rw [Write.applyWithin_of_fits hf] at hwrote
  obtain ⟨hlog, hsync⟩ :=
    log_holds hfinal (by rwa [hwrote.kept.nextSeq]) hlen (writeOf_of_asked ha) hkey hv hk hf
    (h.write_in ha hkey hr' hw) c.syncWal
  exact ⟨t, ht, hwrote, hlog, hsync⟩

lemma Kept.writeAndLog (h : s.Kept pf) (ha : asked pf c = some (key, .write w))
    (hkey : w.key? = some key)
    (hlen : c.command.length < 2 ^ 32) (hn : s.db.shardManager.nextSeq + 1 < 2 ^ 64)
    (hw : Traced.Within (Each Shard.WithinLimits) (ZestDB.writeAndLog pf c key w) s.db) :
    Traced.Within (Holds pf (s.during pf (.exec c))) (ZestDB.writeAndLog pf c key w) s.db := by
  have hwrite := h.write ha hkey hw.bind_left
  have hfinal := hwrite.final write_tracked
  refine .bind hwrite (.bind (.get hfinal) ?_)
  change Traced.Within _ (if _ then _ else _) _
  split_ifs with hlog
  · have hcode : (ZestDB.write pf c.choices w s.db).val.code = .Success := by
      have hboth := (Bool.and_eq_true _ _).mp hlog
      exact of_decide_eq_true hboth.2
    obtain ⟨t, ht, -, hlogged, -⟩ := h.logged ha hkey hlen hn hw.bind_left hcode
    rw [ht]
    exact .bind_pure hlogged log_tracked _
  · exact .pure _ hfinal

lemma gives_eq (ha : asked pf c = some (key, .write w)) (hkey : w.key? = some key) (db : ZestDB n)
    (k : Key) :
    (Action.exec c).gives pf db k =
      if k = key ∧ (ZestDB.write pf c.choices w db).val.code = .Success then {w.value?} else ∅ := by
  ext o
  rw [Action.gives_exec ha, Write.outcome, hkey]
  by_cases hk : k = key
  · subst hk
    by_cases hcode : (ZestDB.write pf c.choices w db).val.code = .Success
    · simp [hcode, eq_comm]
    · simp [hcode]
  · have hk' : ¬ some key = some k := fun he => hk (Option.some.inj he).symm
    simp [hk, hk']

lemma Kept.of_quiet (h : s.Kept pf) {a : Action n} (hnone : ∀ k, a.gives pf s.db k = ∅)
    (hgood : (s.after pf a).db.Good) (hready : (s.after pf a).db.Ready pf)
    (hholds : (s.after pf a).db.Holds pf (s.during pf a))
    (hmap : (s.after pf a).db.toMap pf = s.db.toMap pf) :
    (s.after pf a).Kept pf := by
  have hsub : ∀ k, s.during pf a k ⊆ (s.after pf a).allowed k := fun k o ho =>
    ho.elim (fun ho => Or.inr ⟨ho, fun _ => hnone k⟩) Or.inl
  refine ⟨hgood, hready, hholds.mono hsub, fun k => ?_⟩
  rw [hmap]
  exact hsub k (Or.inl (h.now k))

lemma Kept.failed (h : s.Kept pf)
    (hw : Traced.Within (Each Shard.WithinLimits) (ZestDB.write pf c.choices w) s.db)
    (hcode : (ZestDB.write pf c.choices w s.db).val.code ≠ .Success) :
    ∃ t, (ZestDB.write pf c.choices w s.db).final = { s.db with shardManager := t } ∧
      ShardManager.Wrote pf s.db.shardManager t (s.db.toMap pf) := by
  cases hr : refusal pf s.db.settings (!s.db.replaying) w with
  | some message =>
    rw [write_refused hr]
    exact ⟨_, rfl, h.ready.inv, .refl _, rfl⟩
  | none =>
    have hr' : refusal pf s.db.settings true w = none := by rwa [h.good.replaying] at hr
    obtain ⟨t, ht, hwrote, hsucc⟩ :=
      write_wrote _ h.ready hr (refusal_none h.good.accepted hr').1 hw
    rw [Write.applyWithin_of_fails fun hs => hcode (hsucc.mpr hs)] at hwrote
    exact ⟨t, ht, hwrote⟩

lemma Kept.exec (h : s.Kept pf) (hc : (Action.exec c).Checked pf) (hroom : s.Roomy pf (.exec c)) :
    Traced.Within (Holds pf (s.during pf (.exec c))) ((Action.exec c).run pf) s.db ∧
    (s.after pf (.exec c)).Kept pf := by
  obtain ⟨⟨word, w, key, ha, hkey⟩, hlen⟩ := hc
  obtain rfl := key_of_asked ha hkey
  have hw : Traced.Within (Each Shard.WithinLimits) (execCmd pf c) s.db := hroom.within.bind_left
  have hlimits := hw
  rw [execCmd_some ha] at hlimits
  have hwl := h.writeAndLog ha hkey hlen hroom.number hlimits.bind_left
  have hgood :=
    (execCmd_steady Shard.sound_kept h.good (hw.mono fun _ hs i => (hs i).bounded)).final
      execCmd_tracked
  have hexec : Traced.Within (Holds pf (s.during pf (.exec c))) (execCmd pf c) s.db := by
    rw [execCmd_some ha]
    exact .bind_pure hwl writeAndLog_tracked _
  refine ⟨.bind_pure hexec execCmd_tracked _, ?_⟩
  have hfinal : (s.after pf (.exec c)).db = (ZestDB.writeAndLog pf c word w s.db).final :=
    (execCmd_write ha s.db).1
  have hlogs := writeAndLog_final pf c word w s.db
  have hgives := gives_eq ha hkey s.db
  by_cases hcode : (ZestDB.write pf c.choices w s.db).val.code = .Success
  · obtain ⟨t, ht, hwrote, hlogged, hsync⟩ :=
      h.logged ha hkey hlen hroom.number hlimits.bind_left.bind_left hcode
    obtain ⟨u, hu, hrec⟩ :=
      log_recorded { s.db with shardManager := t } word c.command c.syncWal hwrote.inv
      (hwrote.kept.uniform h.ready.uniform)
    rw [ht, if_pos (by simp [h.good.replaying, hcode])] at hlogs
    have hdb : (s.after pf (.exec c)).db = { s.db with shardManager := u } :=
      hfinal.trans (hlogs.trans hu)
    have hmap : (s.after pf (.exec c)).db.toMap pf = w.apply (s.db.toMap pf) := by
      rw [hdb]
      exact hrec.toMap.trans hwrote.toMap
    refine ⟨hgood, ?_, ?_, fun k => ?_⟩
    · rw [hdb]
      exact ⟨hrec.inv, hrec.uniform,
        hrec.settings.trans (hwrote.kept.settings.trans h.ready.settings)⟩
    · have hlast := hlogged.final log_tracked
      rw [← hlogs, ← hfinal] at hlast hsync
      cases hs : c.syncWal with
      | true =>
        refine (hsync hs).mono fun k o ho => ?_
        by_cases hk : k = word
        · rw [hk, Function.update_self] at ho
          refine Or.inl ?_
          rwa [hgives, if_pos ⟨hk, hcode⟩]
        · rw [Function.update_of_ne hk] at ho
          have hnone : (Action.exec c).gives pf s.db k = ∅ := by
            rw [hgives, if_neg fun hb => hk hb.1]
          exact ho.elim (fun ho => Or.inr ⟨ho, fun _ => hnone⟩) Or.inl
      | false =>
        have hnot : (Action.exec c).acknowledges = false := hs
        exact hlast.mono fun k o ho => ho.elim (fun ho => Or.inr ⟨ho, by simp [hnot]⟩) Or.inl
    · rw [hmap, Write.apply_key hkey, Function.update_apply]
      by_cases hk : k = word
      · rw [if_pos hk]
        refine Or.inl ?_
        rw [hgives, if_pos ⟨hk, hcode⟩]
        rfl
      · rw [if_neg hk]
        exact Or.inr ⟨h.now k, fun _ => by rw [hgives, if_neg fun hb => hk hb.1]⟩
  · obtain ⟨t, ht, hwrote⟩ := h.failed hlimits.bind_left.bind_left hcode
    rw [if_neg (by simp [hcode]), ht] at hlogs
    have hdb : (s.after pf (.exec c)).db = { s.db with shardManager := t } := hfinal.trans hlogs
    have hnone : ∀ k, (Action.exec c).gives pf s.db k = ∅ := fun k => by
      rw [hgives, if_neg fun hb => hcode hb.2]
    refine h.of_quiet hnone hgood ?_ (hexec.final execCmd_tracked) ?_
    · rw [hdb]
      exact ⟨hwrote.inv, hwrote.kept.uniform h.ready.uniform,
        hwrote.kept.settings.trans h.ready.settings⟩
    · rw [hdb]
      exact hwrote.toMap

lemma Kept.flush (h : s.Kept pf) (ch : Choices n) :
    Traced.Within (Holds pf (s.during pf (.flush ch))) ((Action.flush ch).run pf) s.db ∧
    (s.after pf (.flush ch)).Kept pf := by
  obtain ⟨hholds, hnow⟩ := h.during (.flush ch)
  have hfirst := onManager_holds (hholds.flush (ShardManager.allowedAt_toMap h.ready.inv hnow) ch)
  have hrun : Traced.Within (Holds pf (s.during pf (.flush ch))) ((Action.flush ch).run pf) s.db :=
    .bind_pure hfirst (onManager_tracked
      (.bind (ShardManager.allShards_tracked fun _ => Shard.flushData_tracked) fun _ =>
      ShardManager.allShards_tracked fun _ => .step _)) _
  obtain ⟨hi, hm, hs, -, hu⟩ := ShardManager.flush_spec h.ready.inv ch
  refine ⟨hrun, h.of_quiet (fun _ => rfl)
    ((flush_steady Shard.sound_kept h.good).final flush_tracked)
    ⟨hi, fun i => ?_, hs.trans h.ready.settings⟩ (hrun.final flush_tracked) hm⟩
  exact (hu i).trans ((h.ready.uniform i).trans hs.symm)

lemma Kept.compact (h : s.Kept pf) (ch : Choices n) (i : Fin n)
    (hroom : s.Roomy pf (.compact ch i)) :
    Traced.Within (Holds pf (s.during pf (.compact ch i))) ((Action.compact ch i).run pf) s.db ∧
      (s.after pf (.compact ch i)).Kept pf := by
  obtain ⟨hholds, hnow⟩ := h.during (.compact ch i)
  have hlimits := within_onManager (hroom.within.mono fun _ hs i => (hs i).bounded)
  have hpass := Shard.compactorPass_runs (h.ready.inv.shard i) hroom.few
    (ShardManager.within_onShard hlimits)
  have hrun : Traced.Within (Holds pf (s.during pf (.compact ch i)))
      ((Action.compact ch i).run pf) s.db :=
    onManager_holds (hholds.onShard hpass (fun _ _ hA => hA.elim)
      (ShardManager.allowedAt_toMap h.ready.inv hnow) (fun _ _ hA => hA.elim) fun _ hB => hB.elim)
  have htracked : Traced.Tracked ((Action.compact ch i).run pf) :=
    onManager_tracked (ShardManager.onShard_tracked Shard.compactorPass_tracked i)
  have hwrote := ShardManager.compactorPass_spec h.ready.inv hroom.few hlimits
  refine ⟨hrun, h.of_quiet (fun _ => rfl) ?_ ⟨hwrote.inv, hwrote.kept.uniform h.ready.uniform,
    hwrote.kept.settings.trans h.ready.settings⟩ (hrun.final htracked) hwrote.toMap⟩
  exact (onManager_steady h.good
    (ShardManager.compactorPass_sound h.good.shards hroom.few hlimits)).final htracked

theorem Kept.act (h : s.Kept pf) {a : Action n} (ha : a.Checked pf) (hroom : s.Roomy pf a) :
    Traced.Within (Holds pf (s.during pf a)) (a.run pf) s.db ∧ (s.after pf a).Kept pf := by
  cases a with
  | exec c => exact h.exec ha hroom
  | flush ch => exact h.flush ch
  | compact ch i => exact h.compact ch i hroom

end Site

end ZestDB

end Zest
