import ZestDB.Database.Replay

/-! What a command may change under the role of its caller. -/

namespace Zest

open Foundations

namespace Request

def isWrite : Request → Bool
  | .write _ => true
  | _ => false

def isAdmin : Request → Bool
  | .flush | .reload | .scfg _ _ | .gcfg | .save => true
  | _ => false

end Request

lemma request_kind {pf : Platform} {v : Verb} {args : List Word} {req : Request}
    (h : request pf v args = .ok req) :
    req.isWrite = v.isWrite ∧ req.isAdmin = v.isAdmin := by
  have hmap : ∀ {e : Except Bytes ValidationRule} {f : ValidationRule → Request}, e.map f =
      .ok req → ∃ valid, req = f valid := by
    intro e f he
    cases e with
    | error message => cases he
    | ok valid => exact ⟨valid, (Except.ok.inj he).symm⟩
  simp only [request] at h
  split at h
  all_goals first
    | cases h
      done
    | obtain rfl := Except.ok.inj h
      exact ⟨rfl, rfl⟩
    | obtain ⟨valid, rfl⟩ := hmap h
      exact ⟨rfl, rfl⟩

namespace ZestDB

variable {n : ℕ} {pf : Platform} {db db' : ZestDB n} {c : Call n} {key : Bytes} {req : Request}

lemma asked_allowed (h : asked pf c = some (key, req)) :
    (req.isWrite = true → c.role ≠ .Read) ∧ (req.isAdmin = true → c.role = .Admin) := by
  simp only [asked] at h
  cases hwords : words c.command with
  | nil => simp [hwords] at h
  | cons name args =>
    simp only [hwords] at h
    split_ifs at h with hd
    cases hr : request pf (verbOf name.text) args with
    | error message => simp [hr] at h
    | ok r =>
      simp only [hr, Option.some.injEq, Prod.mk.injEq] at h
      obtain ⟨-, rfl⟩ := h
      obtain ⟨hw, ha⟩ := request_kind hr
      rw [hw, ha]
      simp only [Verb.denied, Bool.or_eq_true, Bool.and_eq_true, decide_eq_true_eq, not_or, not_and,
        ne_eq, not_not] at hd
      exact hd

structure Untouched (db db' : ZestDB n) : Prop where
  settings : db'.settings = db.settings
  users : db'.users = db.users
  nextSeq : db'.shardManager.nextSeq = db.shardManager.nextSeq
  shard : ∀ i, ∃ cache, db'.shardManager.shards i = { db.shardManager.shards i with cache := cache }

lemma Untouched.refl (db : ZestDB n) : Untouched db db := ⟨rfl, rfl, rfl, fun _ => ⟨_, rfl⟩⟩

lemma Untouched.wal (h : Untouched db db') (i : Fin n) :
    (db'.shardManager.shards i).wal = (db.shardManager.shards i).wal := by
  obtain ⟨cache, hc⟩ := h.shard i
  rw [hc]

variable [NeZero n]

lemma Untouched.toMap (h : Untouched db db') : db'.toMap pf = db.toMap pf := by
  funext k
  obtain ⟨cache, hc⟩ := h.shard (ShardManager.getShardId pf k)
  change (db'.shardManager.shards _).toMap k = (db.shardManager.shards _).toMap k
  rw [hc]
  rfl

lemma get_untouched (k : Key) : Untouched db (get pf k db).final := by
  by_cases hk : (!validateKey db.settings k) = true
  · have hfinal : (get pf k db).final = db := by
      simp only [get, Traced.get_bind, hk, if_true, Traced.pure_run]
    rw [hfinal]
    exact .refl db
  · have hfinal : (get pf k db).final =
        { db with shardManager := (db.shardManager.get pf k).2 } := by
      simp only [get, Traced.get_bind, if_neg hk]
      rfl
    rw [hfinal]
    refine ⟨rfl, rfl, rfl, fun i => ?_⟩
    change ∃ cache, (db.shardManager.setShard _ _).shards i = _
    rw [ShardManager.setShard_shards]
    split_ifs with hi
    · rw [hi]
      exact Shard.get_cache _ k
    · exact ⟨_, rfl⟩

variable (pf) in
lemma write_readOnly (ch : Choices n) (w : Write) (hr : db.settings.readOnly = true)
    (hp : db.replaying = false) :
    ∃ message, write pf ch w db = ⟨failure message, db, []⟩ := by
  refine ⟨Messages.READ_ONLY_ERROR, write_refused ?_⟩
  cases w <;> simp [refusal, hr, hp]

lemma writeAndLog_settings (w : Write) :
    (writeAndLog pf c key w db).final.settings = db.settings ∧
    (writeAndLog pf c key w db).final.users = db.users := by
  have hlog : ∀ d : ZestDB n, (log pf key c.command c.syncWal d).final.settings = d.settings ∧
      (log pf key c.command c.syncWal d).final.users = d.users := by
    intro d
    cases c.syncWal <;> exact ⟨rfl, rfl⟩
  have hwrite : (write pf c.choices w db).final.settings = db.settings ∧
      (write pf c.choices w db).final.users = db.users := by
    cases hr : refusal pf db.settings (!db.replaying) w with
    | some message =>
      rw [write_refused hr]
      exact ⟨rfl, rfl⟩
    | none =>
      rw [write_accepted hr]
      exact ⟨rfl, rfl⟩
  rw [writeAndLog_final]
  split_ifs
  · exact ⟨(hlog _).1.trans hwrite.1, (hlog _).2.trans hwrite.2⟩
  · exact hwrite

def ReadsOnly (c : Call n) (db : ZestDB n) : Prop :=
  c.role = .Read ∨ (db.settings.readOnly = true ∧ c.role ≠ .Admin ∧ db.replaying = false)

variable (pf) in
lemma execCmd_untouched (h : ReadsOnly c db) : Untouched db (execCmd pf c db).final := by
  have hadmin : c.role ≠ .Admin := by
    rcases h with h | ⟨-, h, -⟩
    · rw [h]
      decide
    · exact h
  cases hask : asked pf c with
  | none =>
    obtain ⟨message, he⟩ := execCmd_none hask
    rw [he]
    exact .refl db
  | some kr =>
    obtain ⟨key, req⟩ := kr
    obtain ⟨hwrite, hadm⟩ := asked_allowed hask
    rw [execCmd_some hask]
    cases req with
    | get k => exact get_untouched k
    | getBy valid => exact .refl db
    | write w =>
      have hro : db.settings.readOnly = true ∧ c.role ≠ .Admin ∧ db.replaying = false :=
        h.resolve_left (hwrite rfl)
      obtain ⟨message, hm⟩ := write_readOnly pf c.choices w hro.1 hro.2.2
      change Untouched db (writeAndLog pf c key w db).final
      rw [writeAndLog_final, hm, if_neg (by simp [failure])]
      exact .refl db
    | help => exact .refl db
    | flush => exact absurd (hadm rfl) hadmin
    | reload => exact absurd (hadm rfl) hadmin
    | scfg param value => exact absurd (hadm rfl) hadmin
    | gcfg => exact absurd (hadm rfl) hadmin
    | save => exact absurd (hadm rfl) hadmin

lemma execCmd_writer (h : c.role = .Write) :
    (execCmd pf c db).final.settings = db.settings ∧ (execCmd pf c db).final.users = db.users := by
  cases hask : asked pf c with
  | none =>
    obtain ⟨message, he⟩ := execCmd_none hask
    rw [he]
    exact ⟨rfl, rfl⟩
  | some kr =>
    obtain ⟨key, req⟩ := kr
    have hnot : req.isAdmin = false := by
      cases hadm : req.isAdmin with
      | true =>
        have := (asked_allowed hask).2 hadm
        rw [h] at this
        cases this
      | false => rfl
    rw [execCmd_some hask]
    cases req with
    | get k => exact ⟨(get_untouched k).settings, (get_untouched k).users⟩
    | getBy valid => exact ⟨rfl, rfl⟩
    | write w => exact writeAndLog_settings w
    | help => exact ⟨rfl, rfl⟩
    | flush => cases hnot
    | reload => cases hnot
    | scfg param value => cases hnot
    | gcfg => cases hnot
    | save => cases hnot

/-- A caller who may only read changes neither the map nor a WAL, and none but an administrator
changes the settings or the users. -/
theorem execCmd_permissions (pf : Platform) (c : Call n) (db : ZestDB n) :
    (ReadsOnly c db →
      (execCmd pf c db).final.toMap pf = db.toMap pf ∧
      (∀ i, ((execCmd pf c db).final.shardManager.shards i).wal = (db.shardManager.shards i).wal) ∧
      (execCmd pf c db).final.settings = db.settings ∧ (execCmd pf c db).final.users = db.users) ∧
    (c.role = .Write →
      (execCmd pf c db).final.settings = db.settings ∧ (execCmd pf c db).final.users =
        db.users) := by
  refine ⟨fun h => ?_, execCmd_writer⟩
  have hu := execCmd_untouched pf h
  exact ⟨hu.toMap, hu.wal, hu.settings, hu.users⟩

theorem reader_set_changes_nothing :
    (execCmd Op.oneHash { command := ascii " \t SET a x", role := .Read } emptyOne).final.toMap
      Op.oneHash = emptyOne.toMap Op.oneHash :=
  ((execCmd_permissions Op.oneHash { command := ascii " \t SET a x", role := .Read } emptyOne).1
    (Or.inl rfl)).1

end ZestDB

end Zest
