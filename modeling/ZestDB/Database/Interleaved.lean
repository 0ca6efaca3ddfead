import ZestDB.Database.MapStep

/-! Writes of many clients at the same time, and the replay of their log. -/

namespace Zest

open Foundations Foundations.Movers

namespace Write

variable {w : Write} {valid : ValidationRule} {m : Store} {key : Key}

def key? : Write → Option Key
  | .set key _ => some key
  | .del key => some key
  | _ => none

open scoped Classical in
lemma apply_rule (h : w.rule? = some valid) (m : Store) :
    w.apply m = fun k => if k ∈ m.chosen valid then w.value? else m k := by
  cases w with
  | set key value => cases h
  | del key => cases h
  | setBy v value =>
    obtain rfl := Option.some.inj h
    rfl
  | delBy v =>
    obtain rfl := Option.some.inj h
    rfl

lemma apply_key (h : w.key? = some key) (m : Store) :
    w.apply m = Function.update m key w.value? := by
  cases w with
  | set k value =>
    obtain rfl := Option.some.inj h
    rfl
  | del k =>
    obtain rfl := Option.some.inj h
    rfl
  | setBy v value => cases h
  | delBy v => cases h

lemma one_key (h : w.rule? = some valid) (key : Key) : (w.one key).key? = some key := by
  cases w with
  | set k value => cases h
  | del k => cases h
  | setBy v value => rfl
  | delBy v => rfl

lemma one_value (w : Write) (key : Key) : (w.one key).value? = w.value? := by cases w <;> rfl

lemma key_of_rule (h : w.rule? = none) : ∃ key, w.key? = some key := by
  cases w with
  | set k value => exact ⟨k, rfl⟩
  | del k => exact ⟨k, rfl⟩
  | setBy v value => cases h
  | delBy v => cases h

end Write

namespace Clients

variable {n m : ℕ} [NeZero n] {pf : Platform}

def Job.mapSteps (pf : Platform) (j : Job n) (db : ZestDB n) : Turn n → Stage n → List (MapStep n)
  | .single, .single =>
    if (ShardManager.write pf j.choices j.write db.shardManager).val.code = .Success then
      (j.write.key?.map fun key => .put key j.write.value?).toList
    else []
  | .task i, .tasks _ => (j.write.rule?.map fun valid => .task i valid.func j.write.value?).toList
  | .search i, .search valid _ =>
    [.saw i valid ((db.shardManager.shards i).matchingKeys (j.choices.shard i) valid)]
  | .key, .keys (key :: _) => [.put key j.write.value?]
  | _, _ => []

/-- What the steps of a job did to the map `m`, when it has come to this stage and the map to
`u`. -/
def Stage.Left (pf : Platform) (w : Write) (m u : Store) : Stage n → Prop
  | .single => u = m
  | .tasks todo => (∀ k, ShardManager.getShardId pf k ∈ todo → u k = m k) ∧
      ∀ k, ShardManager.getShardId pf k ∉ todo → u k = w.apply m k
  | .search valid found => u = m ∧ ∀ i keys, found i = some keys →
      m.Finite ∧ MapStep.Sees pf i valid keys m
  | .keys todo => (∀ k ∈ todo, w.apply m k = w.value?) ∧ ∀ k ∉ todo, w.apply m k = u k

def Stage.Of (w : Write) : Stage n → Prop
  | .single => w.rule? = none
  | .tasks _ => ∃ valid, w.rule? = some valid ∧ valid.limit = UINT_MAX
  | .search valid _ => w.rule? = some valid ∧ valid.limit ≠ UINT_MAX
  | .keys todo => todo = [] ∨ ∃ valid, w.rule? = some valid

section Stages

variable {w : Write} {valid : ValidationRule} {s u v : Store} {i : Fin n} {key : Key}
  {todo : List Key}

omit [NeZero n] in
lemma Stage.first_of (w : Write) : (Stage.first w : Stage n).Of w := by
  cases w with
  | set key value => rfl
  | del key => rfl
  | setBy valid value =>
    simp only [Stage.first]
    split_ifs with hv
    · exact ⟨rfl, hv⟩
    · exact ⟨valid, rfl, not_not.mp hv⟩
  | delBy valid =>
    simp only [Stage.first]
    split_ifs with hv
    · exact ⟨rfl, hv⟩
    · exact ⟨valid, rfl, not_not.mp hv⟩

lemma Stage.first_left (w : Write) (s : Store) : (Stage.first w : Stage n).Left pf w s s := by
  have htasks : (Stage.tasks (List.finRange n)).Left pf w s s :=
    ⟨fun _ _ => rfl, fun k hk => absurd (List.mem_finRange _) hk⟩
  have hsearch : ∀ valid, (Stage.search (n := n) valid fun _ => none).Left pf w s s := fun valid =>
    ⟨rfl, fun i keys h => by cases h⟩
  cases w with
  | set key value => rfl
  | del key => rfl
  | setBy valid value =>
    simp only [Stage.first]
    split_ifs
    · exact hsearch valid
    · exact htasks
  | delBy valid =>
    simp only [Stage.first]
    split_ifs
    · exact hsearch valid
    · exact htasks

lemma left_single (hk : w.key? = some key) (h : (Stage.single (n := n)).Left pf w s u)
    (hv : v = (MapStep.put (n := n) key w.value?).run pf u) :
    (Stage.keys (n := n) []).Left pf w s v := by
  obtain rfl : u = s := h
  refine ⟨fun k hk => absurd hk List.not_mem_nil, fun k _ => ?_⟩
  rw [hv, Write.apply_key hk]
  rfl

lemma left_task {todo : List (Fin n)} (hr : w.rule? = some valid) (hlim : valid.limit = UINT_MAX)
    (hi : i ∈ todo) (h : (Stage.tasks todo).Left pf w s u)
    (hv : v = (MapStep.task i valid.func w.value?).run pf u) :
    (Stage.tasks (todo.filter (· ≠ i))).Left pf w s v := by
  have happly := Write.apply_rule hr s
  rw [ShardManager.chosen_unlimited hlim] at happly
  obtain ⟨htodo, hdone⟩ := h
  have hother : ∀ k, ShardManager.getShardId pf k ≠ i → v k = u k := fun k hk => by
    rw [hv]
    exact if_neg fun hin => hk hin.1
  refine ⟨fun k hk => ?_, fun k hk => ?_⟩
  · obtain ⟨hmem, hne⟩ := List.mem_filter.mp hk
    rw [hother k (by simpa using hne), htodo k hmem]
  · by_cases hki : ShardManager.getShardId pf k = i
    · have huk : u k = s k := htodo k (hki ▸ hi)
      have hin : k ∈ MapStep.inShard pf i valid.func u ↔ k ∈ s.matching valid.func := by
        simp [MapStep.inShard, Store.matching, hki, huk]
      rw [hv, happly]
      simp only [MapStep.run, huk]
      by_cases hm : k ∈ s.matching valid.func
      · rw [if_pos (hin.mpr hm), if_pos hm]
      · rw [if_neg (mt hin.mp hm), if_neg hm]
    · rw [hother k hki]
      exact hdone k fun hmem => hk (List.mem_filter.mpr ⟨hmem, by simpa using hki⟩)

lemma left_search {found : Fin n → Option (List Key)} {keys : List Key}
    (h : (Stage.search valid found).Left pf w s u) (hfin : u.Finite)
    (hsees : MapStep.Sees pf i valid keys u) :
    (Stage.search valid (Function.update found i (some keys))).Left pf w s u := by
  obtain ⟨rfl, hfound⟩ := h
  refine ⟨rfl, fun j keys' hj => ?_⟩
  rw [Function.update_apply] at hj
  split_ifs at hj with hji
  · obtain rfl := Option.some.inj hj
    rw [hji]
    exact ⟨hfin, hsees⟩
  · exact hfound j keys' hj

lemma left_key (h : (Stage.keys (n := n) (key :: todo)).Left pf w s u)
    (hv : v = (MapStep.put (n := n) key w.value?).run pf u) :
    (Stage.keys (n := n) todo).Left pf w s v := by
  obtain ⟨htodo, hdone⟩ := h
  refine ⟨fun k hk => htodo k (List.mem_cons_of_mem _ hk), fun k hk => ?_⟩
  rw [hv]
  by_cases hkk : k = key
  · rw [hkk, htodo key List.mem_cons_self]
    exact Eq.symm (Function.update_self _ _ _)
  · rw [hdone k (by simp [hkk, hk])]
    exact Eq.symm (Function.update_of_ne hkk _ _)

lemma left_ended {st : Stage n} (ho : st.ended = true) (h : st.Left pf w s u) : u = w.apply s := by
  cases st with
  | single => cases ho
  | tasks todo =>
    cases todo with
    | nil => exact funext fun k => h.2 k List.not_mem_nil
    | cons i todo => cases ho
  | search valid found => cases ho
  | keys todo =>
    cases todo with
    | nil => exact funext fun k => Eq.symm (h.2 k List.not_mem_nil)
    | cons key todo => cases ho

lemma matching_inShard (pf : Platform) (func : Key → Bool) (s : Store) :
    s.matching func = ⋃ i : Fin n, MapStep.inShard pf i func s := by
  ext k
  simp [MapStep.inShard]

lemma left_choose {j : Job n} {found : Fin n → Option (List Key)} (hr : j.write.rule? = some valid)
    (hlim : valid.limit ≠ UINT_MAX) (hall : ∀ i, (found i).isSome)
    (h : (Stage.search valid found).Left pf j.write s u) :
    (Stage.keys (n := n) (j.chosen valid found)).Left pf j.write s u := by
  obtain ⟨rfl, hfound⟩ := h
  have hsees : ∀ i, u.Finite ∧ MapStep.Sees pf i valid ((found i).getD []) u := fun i => by
    obtain ⟨keys, hkeys⟩ := Option.isSome_iff_exists.mp (hall i)
    rw [hkeys]
    exact hfound i keys hkeys
  have hin : ∀ i, ∀ k ∈ (found i).getD [], k ∈ MapStep.inShard pf i valid.func u := fun i k hk =>
    smallest_subset ((hsees i).2.first.le hk)
  have hnodup : ((List.finRange n).flatMap fun i => (found i).getD []).Nodup := by
    refine List.nodup_flatMap.mpr
      ⟨fun i _ => (hsees i).2.nodup, (List.nodup_finRange n).imp fun {a b} hab => ?_⟩
    exact fun k ha hb => hab ((hin a k ha).1.symm.trans (hin b k hb).1)
  have hset : {k | k ∈ (List.finRange n).flatMap fun i => (found i).getD []} =
      ⋃ i : Fin n, smallest (MapStep.inShard pf i valid.func u) valid.limit := by
    ext k
    simp only [Set.mem_iUnion, Set.mem_ofPred_eq, List.mem_flatMap, List.mem_finRange, true_and]
    exact exists_congr fun i => Set.ext_iff.mp (hsees i).2.first k
  have hchosen : {k | k ∈ j.chosen valid found} = u.chosen valid := by
    have hsort : {k | k ∈ j.chosen valid found} = {k | k ∈ j.choices.own.firstKeys valid.limit
        ((List.finRange n).flatMap fun i => (found i).getD [])} :=
      Set.ext fun k => (List.perm_insertionSort _ _).mem_iff
    rw [hsort, j.choices.own.mem_firstKeys _ hnodup, hset, ShardManager.chosen_limited hlim]
    refine smallest_of_subset ((hsees 0).1.subset fun k hk => hk.2) ?_ ?_
    · rw [matching_inShard (n := n) pf]
      exact Set.iUnion_mono fun i => smallest_subset
    · rw [matching_inShard (n := n) pf]
      exact smallest_iUnion_subset _
  have hmem : ∀ k, k ∈ j.chosen valid found ↔ k ∈ u.chosen valid :=
    fun k => Set.ext_iff.mp hchosen k
  refine ⟨fun k hk => ?_, fun k hk => ?_⟩
  · rw [Write.apply_rule hr]
    exact if_pos ((hmem k).mp hk)
  · rw [Write.apply_rule hr]
    exact if_neg (mt (hmem k).mpr hk)

end Stages

section Turns

variable {sm : ShardManager n} {db db' : ZestDB n} {j j' : Job n} {w : Write}
  {valid : ValidationRule} {i : Fin n}
variable {key : Key} {settings : Settings} {steps : List (MapStep n)} {e : Turn n}

structure Job.Valid (pf : Platform) (settings : Settings) (j : Job n) : Prop where
  length : j.call.command.length < 2 ^ 32
  asked : ZestDB.asked pf j.call = some (j.key, .write j.write)
  accepted : ZestDB.refusal pf settings true j.write = none
  stage : j.stage.Of j.write

omit [NeZero n] in
lemma Job.Valid.value (hj : j.Valid pf settings) (ha : settings.Accepted) :
    j.write.ValueOk ∧ j.write.Fits settings.SegSize :=
  ⟨(ZestDB.refusal_none ha hj.accepted).1, ZestDB.refusal_fits ha hj.accepted⟩

structure Turned (pf : Platform) (db db' : ZestDB n) (steps : List (MapStep n)) : Prop where
  frame : db' = { db with shardManager := db'.shardManager }
  kept : db.shardManager.Kept db'.shardManager
  inv : db'.shardManager.Inv pf
  leads : Leads (MapStep.act pf) steps (db.toMap pf) (db'.toMap pf)

structure Next (pf : Platform) (settings : Settings) (j : Job n) (steps : List (MapStep n))
    (j' : Job n) : Prop where
  valid : j'.Valid pf settings
  begun : j'.stage ≠ .single
  left : ∀ s u v, j.stage.Left pf j.write s u → Leads (MapStep.act pf) steps u v →
    j'.stage.Left pf j'.write s v

lemma toMap_finite (h : sm.Inv pf) : (sm.toMap pf).Finite := by
  refine (ShardManager.matching_finite h fun _ => true).subset fun k hk => ⟨rfl, hk⟩

lemma Turned.quiet (h : db.Ready pf) : Turned pf db db [] := ⟨rfl, .refl _, h.inv, .nil⟩

lemma Turned.step {t : ShardManager n} {d : MapStep n} (h : db.Ready pf)
    (hf : d.Fires pf (db.toMap pf))
    (hw : ShardManager.Wrote pf db.shardManager t (d.run pf (db.toMap pf))) :
    Turned pf db { db with shardManager := t } [d] :=
  ⟨rfl, hw.kept, hw.inv, leads_singleton.mpr ⟨toMap_finite h.inv, hf, hw.toMap⟩⟩

lemma Next.quiet {st : Stage n} (hj : j.Valid pf settings) (ho : st.Of j.write) (hb : st ≠ .single)
    (hl : ∀ s u, j.stage.Left pf j.write s u → st.Left pf j.write s u) : Next pf settings j []
    (j.withStage st) := by
  refine ⟨⟨hj.length, hj.asked, hj.accepted, ho⟩, hb, fun s u v h hs => ?_⟩
  obtain rfl := leads_nil.mp hs
  exact hl s _ h

lemma Next.step {st : Stage n} {d : MapStep n} (hj : j.Valid pf settings) (ho : st.Of j.write)
    (hb : st ≠ .single)
    (hl : ∀ s u v, j.stage.Left pf j.write s u → d.act pf u v → st.Left pf j.write s v) :
    Next pf settings j [d] (j.withStage st) :=
  ⟨⟨hj.length, hj.asked, hj.accepted, ho⟩, hb, fun s u v h hs => hl s u v h (leads_singleton.mp hs)⟩

lemma write_wrote {ch : Choices n} (h : db.Ready pf) (hk : w.key? = some key) (hv : w.ValueOk)
    (hf : w.Fits db.settings.SegSize) (hw : Traced.Within (ZestDB.Each Shard.WithinLimits)
      (ZestDB.onManager (ShardManager.write pf ch w)) db) :
    ShardManager.Wrote pf db.shardManager (ShardManager.write pf ch w db.shardManager).final
      ((MapStep.put (n := n) key w.value?).run pf (db.toMap pf)) := by
  have hwrote := (ShardManager.write_spec h.inv h.uniform hv (ZestDB.within_onManager hw)).2
  rw [h.settings, Write.applyWithin_of_fits hf, Write.apply_key hk] at hwrote
  exact hwrote

open scoped Classical in
lemma task_wrote {A : Key → Value → Prop} {B : Key → Prop} {t : Shard} (h : sm.Inv pf)
    (hp : Shard.Path A B (sm.shards i) t) (func : Key → Bool) (o : Option Value)
    (hm : t.toMap = fun k => if k ∈ Store.matching (sm.shards i).toMap func then
      o else (sm.shards i).toMap k) :
    ShardManager.Wrote pf sm (sm.setShard i t) ((MapStep.task i func o).run pf (sm.toMap pf)) := by
  refine ⟨h.setShard (hp.inv (h.shard i)) fun k hk => ?_, .setShard hp, ?_⟩
  · rw [hm] at hk
    simp only at hk
    split_ifs at hk with hin
    · exact h.routed i k hin.2
    · exact h.routed i k hk
  · funext k
    rw [ShardManager.toMap_setShard, hm]
    simp only [MapStep.run]
    by_cases hk : ShardManager.getShardId pf k = i
    · have hin : k ∈ MapStep.inShard pf i func (sm.toMap pf) ↔
          k ∈ Store.matching (sm.shards i).toMap func := by
        simp [MapStep.inShard, Store.matching, ShardManager.toMap, hk]
      simp only [hk, if_true, hin, ShardManager.toMap]
    · have hin : k ∉ MapStep.inShard pf i func (sm.toMap pf) := fun hin => hk hin.1
      simp only [hk, if_false, hin]

lemma Job.task_wrote (h : db.Ready pf) (ha : db.settings.Accepted) (hj : j.Valid pf db.settings)
    (hr : j.write.rule? = some valid) (hlim : valid.limit = UINT_MAX)
    (hw : Traced.Within (ZestDB.Each Shard.WithinLimits)
      (ZestDB.onManager (ShardManager.onShard i (j.task i))) db) :
    ShardManager.Wrote pf db.shardManager (ShardManager.onShard i (j.task i) db.shardManager).final
      ((MapStep.task i valid.func j.write.value?).run pf (db.toMap pf)) := by
  obtain ⟨hv, hf⟩ := hj.value ha
  have hws := ShardManager.within_onShard (ZestDB.within_onManager hw)
  cases hjw : j.write with
  | set k value => simp [hjw, Write.rule?] at hr
  | del k => simp [hjw, Write.rule?] at hr
  | setBy v value =>
    rw [hjw] at hv hf hr
    obtain rfl : v = valid := Option.some.inj hr
    simp only [Job.task, hjw] at hws ⊢
    have hruns := Shard.setBy_runs (h.inv.shard i) (hv value rfl) (hws.mono fun _ hs => hs.bounded)
    have hmap := (Shard.setBy_spec (h.inv.shard i) (hv value rfl) hws (Or.inl hlim)).2
    have hfit : value.length ≤ (db.shardManager.shards i).settings.SegSize := by
      rw [h.uniform, h.settings]
      exact hf
    rw [if_pos hfit] at hmap
    exact Clients.task_wrote h.inv hruns.final v.func (some value) hmap
  | delBy v =>
    rw [hjw] at hr
    obtain rfl : v = valid := Option.some.inj hr
    simp only [Job.task, hjw]
    obtain ⟨hruns, hmap⟩ := Shard.delBy_spec (j.choices.shard i) v (some 0) (h.inv.shard i)
    exact Clients.task_wrote h.inv hruns.final v.func none (hmap (Or.inl hlim)).2

lemma sees_matchingKeys (h : sm.Inv pf) (i : Fin n) (ch : Choice) (valid : ValidationRule) :
    MapStep.Sees pf i valid ((sm.shards i).matchingKeys ch valid) (sm.toMap pf) := by
  refine ⟨Shard.matchingKeys_nodup _ _ _, ?_⟩
  have hin : MapStep.inShard pf i valid.func (sm.toMap pf) =
      Store.matching (sm.shards i).toMap valid.func := by
    ext k
    constructor
    · rintro ⟨hi, hf, hs⟩
      rw [ShardManager.toMap, hi] at hs
      exact ⟨hf, hs⟩
    · rintro ⟨hf, hs⟩
      have hi := h.routed i k hs
      exact ⟨hi, hf, by rw [ShardManager.toMap, hi]; exact hs⟩
  rw [hin]
  exact Shard.mem_matchingKeys _ _ _

/-- What a turn without a record does, and the job it leaves. Only the operation on a single key can
fail, and then it did nothing. -/
structure Went (pf : Platform) (j : Job n) (db db' : ZestDB n) (steps : List (MapStep n))
    (o : Option (Job n)) : Prop where
  turned : Turned pf db db' steps
  next : ∀ j', o = some j' → Next pf db.settings j steps j'
  failed : o = none → steps = [] ∧ j.stage = .single

lemma Went.some {st : Stage n} (ht : Turned pf db db' steps)
    (hn : Next pf db.settings j steps (j.withStage st)) :
    Went pf j db db' steps (some (j.withStage st)) :=
  ⟨ht, fun j' h => Option.some.inj h ▸ hn, fun h => by cases h⟩

lemma went_single (h : db.Ready pf) (ha : db.settings.Accepted) (hj : j.Valid pf db.settings)
    (hs : j.stage = .single)
    {x : Traced (ZestDB n) (Option (Job n))} (hx : j.turn pf .single .single = some x)
    (hw : Traced.Within (ZestDB.Each Shard.WithinLimits) x db) :
    Went pf j db (x db).final (j.mapSteps pf db .single .single) (x db).val := by
  have hof : j.write.rule? = none := by
    have := hj.stage
    rwa [hs] at this
  obtain ⟨hv, hf⟩ := hj.value ha
  obtain ⟨key, hk⟩ := Write.key_of_rule hof
  rw [Job.turn] at hx
  obtain rfl := Option.some.inj hx
  have hwrote := write_wrote h hk hv hf hw.bind_left
  have hsucc := ShardManager.write_succeeds h.inv h.uniform hv
    (ZestDB.within_onManager hw.bind_left)
  simp only [Job.mapSteps]
  change Went pf j db
    { db with shardManager := (ShardManager.write pf j.choices j.write db.shardManager).final } _
    (if (ShardManager.write pf j.choices j.write db.shardManager).val.code = .Success then _ else _)
  split_ifs with hcode
  · rw [hk]
    refine .some (.step h trivial hwrote)
      (.step hj (Or.inl rfl) (fun hc => by cases hc) fun s u v hl hact => ?_)
    rw [hs] at hl
    exact left_single hk hl hact.2.2
  · refine ⟨⟨rfl, hwrote.kept, hwrote.inv, leads_nil.mpr ?_⟩, fun j' h => (by cases h),
      fun _ => ⟨rfl, hs⟩⟩
    rw [hsucc, h.settings] at hcode
    have hsame := Write.applyWithin_of_fails hcode
    rw [Write.applyWithin_of_fits hf] at hsame
    change (ShardManager.write pf j.choices j.write db.shardManager).final.toMap pf = db.toMap pf
    refine hwrote.toMap.trans ?_
    change Function.update _ _ _ = _
    rw [← Write.apply_key hk]
    exact hsame

lemma went_task {todo : List (Fin n)} (h : db.Ready pf) (ha : db.settings.Accepted)
    (hj : j.Valid pf db.settings)
    (hs : j.stage = .tasks todo) {x : Traced (ZestDB n) (Option (Job n))}
    (hx : j.turn pf (.task i) (.tasks todo) = some x)
    (hw : Traced.Within (ZestDB.Each Shard.WithinLimits) x db) :
    Went pf j db (x db).final (j.mapSteps pf db (.task i) (.tasks todo)) (x db).val := by
  obtain ⟨valid, hr, hlim⟩ : ∃ valid, j.write.rule? = some valid ∧ valid.limit = UINT_MAX := by
    have := hj.stage
    rwa [hs] at this
  simp only [Job.turn] at hx
  split_ifs at hx with hi
  obtain rfl := Option.some.inj hx
  simp only [Job.mapSteps, hr, Option.map_some, Option.toList_some]
  refine .some (.step h trivial (Job.task_wrote h ha hj hr hlim hw.bind_left))
    (.step hj ⟨valid, hr, hlim⟩ (fun hc => by cases hc) fun s u v hl hact => ?_)
  rw [hs] at hl
  exact left_task hr hlim hi hl hact.2.2

lemma went_search {found : Fin n → Option (List Key)} (h : db.Ready pf)
    (hj : j.Valid pf db.settings)
    (hs : j.stage = .search valid found) {x : Traced (ZestDB n) (Option (Job n))}
    (hx : j.turn pf (.search i) (.search valid found) = some x) :
    Went pf j db (x db).final (j.mapSteps pf db (.search i) (.search valid found)) (x db).val := by
  have hof : j.write.rule? = some valid ∧ valid.limit ≠ UINT_MAX := by
    have := hj.stage
    rwa [hs] at this
  simp only [Job.turn] at hx
  split_ifs at hx
  obtain rfl := Option.some.inj hx
  refine .some (.step h (sees_matchingKeys h.inv _ _ _) ⟨h.inv, .refl _, rfl⟩)
    (.step hj hof (fun hc => by cases hc) fun s u v hl hact => ?_)
  obtain ⟨hfin, hsees, rfl⟩ := hact
  rw [hs] at hl
  exact left_search hl hfin hsees

lemma went_choose {found : Fin n → Option (List Key)} (h : db.Ready pf)
    (hj : j.Valid pf db.settings)
    (hs : j.stage = .search valid found) {x : Traced (ZestDB n) (Option (Job n))}
    (hx : j.turn pf .choose (.search valid found) = some x) :
    Went pf j db (x db).final (j.mapSteps pf db .choose (.search valid found)) (x db).val := by
  have hof : j.write.rule? = some valid ∧ valid.limit ≠ UINT_MAX := by
    have := hj.stage
    rwa [hs] at this
  simp only [Job.turn] at hx
  split_ifs at hx with hall
  obtain rfl := Option.some.inj hx
  refine .some (.quiet h)
    (.quiet hj (Or.inr ⟨valid, hof.1⟩) (fun hc => by cases hc) fun s u hl => ?_)
  rw [hs] at hl
  exact left_choose hof.1 hof.2 hall hl

lemma went_key {todo : List Key} (h : db.Ready pf) (ha : db.settings.Accepted)
    (hj : j.Valid pf db.settings)
    (hs : j.stage = .keys (key :: todo)) {x : Traced (ZestDB n) (Option (Job n))}
    (hx : j.turn pf .key (.keys (key :: todo)) = some x)
    (hw : Traced.Within (ZestDB.Each Shard.WithinLimits) x db) :
    Went pf j db (x db).final (j.mapSteps pf db .key (.keys (key :: todo))) (x db).val := by
  obtain ⟨valid, hr⟩ : ∃ valid, j.write.rule? = some valid := by
    have hof := hj.stage
    rw [hs] at hof
    exact hof.resolve_left (List.cons_ne_nil _ _)
  obtain ⟨hv, hf⟩ := hj.value ha
  have hvalue := Write.one_value j.write key
  rw [Job.turn] at hx
  obtain rfl := Option.some.inj hx
  have hwrote := write_wrote h (Write.one_key hr key) (by rwa [Write.ValueOk, hvalue])
    (Write.fits_iff.mpr (by rw [hvalue]; exact Write.fits_iff.mp hf)) hw.bind_left
  rw [hvalue] at hwrote
  refine .some (.step h trivial hwrote)
    (.step hj (Or.inr ⟨valid, hr⟩) (fun hc => by cases hc) fun s u v hl hact => ?_)
  rw [hs] at hl
  exact left_key hl hact.2.2

theorem Job.turn_went (h : db.Ready pf) (ha : db.settings.Accepted) (hj : j.Valid pf db.settings)
    (he : e ≠ .record) {x : Traced (ZestDB n) (Option (Job n))} (hx : j.turn pf e j.stage = some x)
    (hw : Traced.Within (ZestDB.Each Shard.WithinLimits) x db) :
    Went pf j db (x db).final (j.mapSteps pf db e j.stage) (x db).val := by
  obtain ⟨st, hs⟩ : ∃ st, j.stage = st := ⟨_, rfl⟩
  rw [hs] at hx ⊢
  cases e with
  | single =>
    cases st with
    | single => exact went_single h ha hj hs hx hw
    | _ => cases hx
  | task i =>
    cases st with
    | tasks todo => exact went_task h ha hj hs hx hw
    | _ => cases hx
  | search i =>
    cases st with
    | search valid found => exact went_search h hj hs hx
    | _ => cases hx
  | choose =>
    cases st with
    | search valid found => exact went_choose h hj hs hx
    | _ => cases hx
  | key =>
    cases st with
    | keys todo =>
      cases todo with
      | nil => cases hx
      | cons key todo => exact went_key h ha hj hs hx hw
    | _ => cases hx
  | record => exact absurd rfl he

end Turns

section Runs

variable {s s' : Clients n m} {t : Fin m} {trace : List (Fin m × MapStep n)}
  {log : List (Fin n × WalEntry)} {c : Call n}
variable {m₀ : Store} {j : Job n} {db db₀ : ZestDB n}

def unrecorded (pf : Platform) (s : Clients n m) (t : Fin m) (trace : List (Fin m × MapStep n)) :
    Event n → List (Fin m × MapStep n)
  | .issue _ => trace
  | .go .record => others t trace
  | .go e => trace ++ ((s.jobs t).elim [] fun j => j.mapSteps pf s.db e j.stage).map fun d => (t, d)

def Event.Short : Event n → Prop
  | .issue c => c.command.length < 2 ^ 32
  | _ => True

instance : (e : Event n) → Decidable e.Short
  | .issue c => inferInstanceAs (Decidable (c.command.length < 2 ^ 32))
  | .go _ => inferInstanceAs (Decidable True)

structure Allowed (pf : Platform) (s : Clients n m) (t : Fin m) (e : Event n) : Prop where
  within : ∀ x ∈ s.event pf t e, Traced.Within (ZestDB.Each Shard.WithinLimits) x s.db
  short : e.Short
  nextSeq : s.db.shardManager.nextSeq + 1 < 2 ^ 64

instance (s : Clients n m) (t : Fin m) (e : Event n) : Decidable (s.Allowed pf t e) :=
  decidable_of_iff ((∀ x ∈ s.event pf t e, Traced.Within (ZestDB.Each Shard.WithinLimits) x s.db) ∧
    e.Short ∧ s.db.shardManager.nextSeq + 1 < 2 ^ 64)
    ⟨fun h => ⟨h.1, h.2.1, h.2.2⟩, fun h => ⟨h.within, h.short, h.nextSeq⟩⟩

/-- When a client records its write, the steps of the write may go to the left of those steps that
came before them and belong to writes without a record. -/
def Careful (pf : Platform) (trace : List (Fin m × MapStep n)) (t : Fin m) : Event n → Prop
  | .go .record => Clear (MapStep.act pf) t trace
  | _ => True

/-- The runs of the clients, with the steps of the writes that have no record yet; events of `ok`
only. -/
inductive Reaches (pf : Platform) (ok : List (Fin m × MapStep n) → Fin m → Event n → Prop)
    (db : ZestDB n) :
    List (Fin m × MapStep n) → Clients n m → Prop
  | start : Reaches pf ok db [] (idle db)
  | turn {trace : List (Fin m × MapStep n)} {s s' : Clients n m} (t : Fin m) (e : Event n) :
      Reaches pf ok db trace s → s.Allowed pf t e → ok trace t e →
      s.step pf t e = some s' → Reaches pf ok db (s.unrecorded pf t trace e) s'

/-- The log leads from `m₀` to a map, and the steps without a record lead from there to the map of
now. -/
structure Serves (pf : Platform) (m₀ : Store) (s : Clients n m) (trace : List (Fin m × MapStep n))
    (log : List (Fin n × WalEntry)) : Prop where
  ready : s.db.Ready pf
  replaying : s.db.replaying = false
  accepted : s.db.settings.Accepted
  journal : s.db.shardManager.Journal log
  writes : ZestDB.Writes pf (log.map Prod.snd)
  leads : Leads (MapStep.act pf) (trace.map Prod.snd)
    (Write.applyAll (writesOf pf (log.map Prod.snd)) m₀) (s.db.toMap pf)
  quiet : ∀ t, (∀ j, s.jobs t = some j → j.stage = .single) → own t trace = []
  jobs : ∀ t j, s.jobs t = some j → j.Valid pf s.db.settings ∧
    ∀ a b, Leads (MapStep.act pf) (own t trace) a b → j.stage.Left pf j.write a b

omit [NeZero n] in
lemma issue_spec (hc : c.command.length < 2 ^ 32) (hr : db.replaying = false)
    (hi : issue pf c db = some j) :
    j.Valid pf db.settings ∧ j.stage = .first j.write := by
  simp only [issue] at hi
  split at hi
  · rename_i key w hask
    split_ifs at hi with href
    obtain rfl := Option.some.inj hi
    rw [hr] at href
    exact ⟨⟨hc, hask, href, Stage.first_of w⟩, rfl⟩
  · cases hi

lemma Serves.issue (h : s.Serves pf m₀ trace log) (hc : c.command.length < 2 ^ 32)
    (ht : s.jobs t = none) :
    Serves pf m₀ ⟨s.db, Function.update s.jobs t (Clients.issue pf c s.db)⟩ trace log := by
  have hown : own t trace = [] := h.quiet t fun j hj => by simp [ht] at hj
  refine ⟨h.ready, h.replaying, h.accepted, h.journal, h.writes, h.leads, fun u hu => ?_,
    fun u j hj => ?_⟩
  · by_cases hut : u = t
    · rw [hut, hown]
    · exact h.quiet u fun j hj => hu j ((Function.update_of_ne hut _ _).trans hj)
  · change Function.update s.jobs t _ u = some j at hj
    by_cases hut : u = t
    · subst hut
      rw [Function.update_self] at hj
      obtain ⟨hvalid, hstage⟩ := issue_spec hc h.replaying hj
      refine ⟨hvalid, fun a b hab => ?_⟩
      rw [hown] at hab
      obtain rfl := leads_nil.mp hab
      rw [hstage]
      exact Stage.first_left _ _
    · rw [Function.update_of_ne hut] at hj
      exact h.jobs u j hj

lemma Serves.went {db' : ZestDB n} {steps : List (MapStep n)} {o : Option (Job n)}
    (h : s.Serves pf m₀ trace log) (ht : s.jobs t = some j) (hw : Went pf j s.db db' steps o) :
    Serves pf m₀ ⟨db', Function.update s.jobs t o⟩ (trace ++ steps.map fun d => (t, d)) log := by
  obtain ⟨hframe, hkept, hinv, hleads⟩ := hw.turned
  have hsettings : db'.settings = s.db.settings := by rw [hframe]
  have hreplaying : db'.replaying = s.db.replaying := by rw [hframe]
  refine ⟨⟨hinv, hkept.uniform h.ready.uniform,
    hkept.settings.trans (h.ready.settings.trans hsettings.symm)⟩,
    hreplaying.trans h.replaying, hsettings ▸ h.accepted, h.journal.same hkept.logs hkept.nextSeq,
    h.writes, ?_, fun u hu => ?_, fun u j' hj' => ?_⟩
  · rw [List.map_append, leads_append]
    refine ⟨_, h.leads, ?_⟩
    have hsnd : (steps.map fun d => (t, d)).map Prod.snd = steps := by simp [Function.comp_def]
    rw [hsnd]
    exact hleads
  · change ∀ j, Function.update s.jobs t o u = some j → j.stage = .single at hu
    rw [own_append_map]
    by_cases hut : t = u
    · subst hut
      simp only [Function.update_self] at hu
      rw [if_pos rfl]
      cases o with
      | none =>
        obtain ⟨hsteps, hsingle⟩ := hw.failed rfl
        rw [hsteps, List.append_nil]
        refine h.quiet t fun j' hj' => ?_
        obtain rfl : j = j' := Option.some.inj (ht.symm.trans hj')
        exact hsingle
      | some j' => exact absurd (hu j' rfl) (hw.next j' rfl).begun
    · rw [if_neg hut]
      exact h.quiet u fun j' hj' => hu j' (by rwa [Function.update_of_ne (Ne.symm hut)])
  · change Function.update s.jobs t o u = some j' at hj'
    change j'.Valid pf db'.settings ∧ _
    rw [hsettings, own_append_map]
    by_cases hut : t = u
    · subst hut
      rw [Function.update_self] at hj'
      rw [if_pos rfl]
      have hnext := hw.next j' hj'
      refine ⟨hnext.valid, fun a b hab => ?_⟩
      obtain ⟨v, hav, hvb⟩ := leads_append.mp hab
      exact hnext.left a v b ((h.jobs t j ht).2 a v hav) hvb
    · rw [if_neg hut]
      rw [Function.update_of_ne (Ne.symm hut)] at hj'
      exact h.jobs u j' hj'

lemma Serves.record {db' : ZestDB n} (h : s.Serves pf m₀ trace log) (ht : s.jobs t = some j)
    (ho : j.stage.ended = true)
    (hclear : Clear (MapStep.act pf) t trace) (hs : s.db.shardManager.nextSeq + 1 < 2 ^ 64)
    (hdb : db' = (ZestDB.log pf j.key j.call.command j.call.syncWal s.db).final) :
    ∃ log', Serves pf m₀ ⟨db', Function.update s.jobs t none⟩ (others t trace) log' := by
  obtain ⟨hvalid, hleft⟩ := h.jobs t j ht
  obtain ⟨sm, hsm, hrec⟩ :=
    ZestDB.log_recorded s.db j.key j.call.command j.call.syncWal h.ready.inv h.ready.uniform
  obtain ⟨hfits, hcmd⟩ := ZestDB.Journal.record_fits s.db hvalid.length hs
  have hwrite : writeOf pf (s.db.shardManager.record j.call.command).cmd = some j.write := by
    rw [hcmd]
    exact ZestDB.writeOf_of_asked hvalid.asked
  have hseq : s.db.shardManager.nextSeq < sm.nextSeq := by
    rw [hrec.nextSeq, Nat.mod_eq_of_lt hs]
    exact Nat.lt_succ_self _
  obtain ⟨u, hown, hothers⟩ := hclear.front h.leads
  obtain rfl := left_ended ho (hleft _ u hown)
  rw [hdb, hsm]
  refine ⟨log ++ [(ShardManager.getShardId pf j.key, s.db.shardManager.record j.call.command)],
    ⟨hrec.inv, hrec.uniform, hrec.settings.trans h.ready.settings⟩, h.replaying, h.accepted,
    h.journal.concat hrec.logs hfits rfl hseq, fun e he => ?_, ?_, fun v hv => ?_,
    fun v j' hj' => ?_⟩
  · rw [List.map_append] at he
    rcases List.mem_append.mp he with he | he
    · exact h.writes e he
    · obtain rfl : e = s.db.shardManager.record j.call.command := by simpa using he
      exact ⟨j.write, hwrite, (hvalid.value h.accepted).1⟩
  · have hmap : ({ s.db with shardManager := sm } : ZestDB n).toMap pf = s.db.toMap pf := hrec.toMap
    rw [hmap]
    simp only [writesOf, List.map_append, List.map_cons, List.map_nil, List.filterMap_append,
      List.filterMap_cons, hwrite,
      List.filterMap_nil, Write.applyAll, List.foldl_append, List.foldl_cons, List.foldl_nil]
    exact hothers
  · by_cases hvt : v = t
    · rw [hvt, own_others_self]
    · rw [own_others hvt]
      exact h.quiet v fun j' hj' => hv j' ((Function.update_of_ne hvt _ _).trans hj')
  · change Function.update s.jobs t none v = some j' at hj'
    by_cases hvt : v = t
    · simp [hvt] at hj'
    · rw [Function.update_of_ne hvt] at hj'
      rw [own_others hvt]
      exact h.jobs v j' hj'

lemma Serves.step {e : Event n} (h : s.Serves pf m₀ trace log) (ha : s.Allowed pf t e)
    (hc : Careful pf trace t e)
    (hs : s.step pf t e = some s') : ∃ log', s'.Serves pf m₀ (s.unrecorded pf t trace e) log' := by
  obtain ⟨x, hx, rfl⟩ := Option.map_eq_some_iff.mp hs
  have hw := ha.within x hx
  cases e with
  | issue c =>
    simp only [event] at hx
    split_ifs at hx with hnone
    obtain rfl := Option.some.inj hx
    exact ⟨log, h.issue ha.short (Option.isNone_iff_eq_none.mp hnone)⟩
  | go e =>
    obtain ⟨j, hj, hx⟩ := Option.bind_eq_some_iff.mp hx
    obtain ⟨hvalid, -⟩ := h.jobs t j hj
    by_cases he : e = .record
    · subst he
      simp only [Job.turn] at hx
      split_ifs at hx with ho
      obtain rfl := Option.some.inj hx
      exact h.record hj ho hc ha.nextSeq rfl
    · have hwent := h.went hj (j.turn_went h.ready h.accepted hvalid he hx hw)
      have hsteps : s.unrecorded pf t trace (.go e) =
          trace ++ (j.mapSteps pf s.db e j.stage).map fun d => (t, d) := by
        cases e with
        | record => exact absurd rfl he
        | _ => simp only [unrecorded, hj, Option.elim_some]
      rw [hsteps]
      exact ⟨log, hwent⟩

lemma Serves.reaches (h : db.Fresh pf) (hr : Reaches pf (Careful pf) db trace s) :
    ∃ log, s.Serves pf (db.toMap pf) trace log := by
  induction hr with
  | start => exact ⟨[], h.ready, h.good.replaying, h.good.accepted,
      .nil h.logs, by simp [ZestDB.Writes], .nil, fun t _ => rfl, fun t j hj => by cases hj⟩
  | turn t e _ ha hc hs ih =>
    obtain ⟨log, hserves⟩ := ih
    exact hserves.step ha hc hs

/-- When every client is through with its writes, the replay of their log over the map at the last
flush gives the map of now, if each write was recorded before those it cannot change places with. -/
theorem replayWAL_interleaved {ch : ℕ → Choices n} (h : db.Fresh pf)
    (hr : Reaches pf (Careful pf) db trace s)
    (hidle : s.Idle) (h₀ : db₀.Ready pf) (hmap : db₀.toMap pf = db.toMap pf)
    (hlogs : db₀.logs = s.db.logs)
    (hseg : ∀ w ∈ writesOf pf db₀.shardManager.walEntries, w.Fits db₀.settings.SegSize)
    (hw₀ : Traced.Within (ZestDB.Each Shard.WithinLimits) (ZestDB.replayWAL pf ch) db₀) :
    (ZestDB.replayWAL pf ch db₀).final.toMap pf = s.db.toMap pf := by
  obtain ⟨log, hserves⟩ := Serves.reaches h hr
  obtain rfl := eq_nil_of_own fun t => hserves.quiet t fun j hj => by simp [hidle t] at hj
  have hnow := leads_nil.mp hserves.leads
  have hentries : db₀.shardManager.walEntries = log.map Prod.snd := by
    rw [← hserves.journal.walEntries]
    have hcmds : ∀ i, (db₀.shardManager.shards i).wal.getCmds =
        (s.db.shardManager.shards i).wal.getCmds :=
      fun i => congrArg (fun xs => (walCodec.decodeAll xs).1) (congrFun hlogs i)
    simp only [ShardManager.walEntries, hcmds]
  rw [ZestDB.replayWAL_spec h₀ (hentries ▸ hserves.writes) hw₀, Write.replay_of_fits hseg, hmap,
    hentries, hnow]

def run (pf : Platform) : List (Fin m × Event n) → List (Fin m × MapStep n) × Clients n m →
    Option (List (Fin m × MapStep n) × Clients n m)
  | [], p => some p
  | (t, e) :: es, p =>
    if p.2.Allowed pf t e then
      (p.2.step pf t e).bind fun s => run pf es (p.2.unrecorded pf t p.1 e, s) else none

lemma reaches_run {ok : List (Fin m × MapStep n) → Fin m → Event n → Prop}
    {es : List (Fin m × Event n)}
    {p q : List (Fin m × MapStep n) × Clients n m} (hok : ∀ trace, ∀ d ∈ es, ok trace d.1 d.2)
    (h : Reaches pf ok db p.1 p.2) (hr : run pf es p = some q) : Reaches pf ok db q.1 q.2 := by
  induction es generalizing p with
  | nil =>
    obtain rfl := Option.some.inj hr
    exact h
  | cons d es ih =>
    simp only [run] at hr
    split_ifs at hr with ha
    obtain ⟨u, hu, hrest⟩ := Option.bind_eq_some_iff.mp hr
    exact ih (fun trace d' hd' => hok trace d' (List.mem_cons_of_mem _ hd'))
      (.turn d.1 d.2 h ha (hok p.1 d List.mem_cons_self) hu) hrest

lemma reaches_record {p q : List (Fin m × MapStep n) × Clients n m}
    (hc : Clear (MapStep.act pf) t p.1)
    (h : Reaches pf (Careful pf) db p.1 p.2) (hr : run pf [(t, .go .record)] p = some q) :
    Reaches pf (Careful pf) db q.1 q.2 := by
  simp only [run] at hr
  split_ifs at hr with ha
  obtain ⟨u, hu, hq⟩ := Option.bind_eq_some_iff.mp hr
  obtain rfl := Option.some.inj hq
  exact .turn t _ h ha hc hu

end Runs

section TwoClients

instance (priority := 2000) neZero_twoClients : NeZero 2 := ⟨Nat.succ_ne_zero 1⟩

def overlapping (c c' : Call 1) : List (Fin 2 × Event 1) :=
  [(0, .issue c), (1, .issue c'), (0, .go .single), (1, .go .single)]

def setA : Call 1 := { command := ascii "set a x" }

def apart : List (Fin 2 × MapStep 1) × Clients 1 2 :=
  (run Op.oneHash (overlapping setA { command := ascii "set b y" }) ([], idle ZestDB.emptyOne)).get
  (by decide +kernel)

def apartOne : List (Fin 2 × MapStep 1) × Clients 1 2 :=
  (run Op.oneHash [(1, .go .record)] apart).get (by decide +kernel)

def apartBoth : List (Fin 2 × MapStep 1) × Clients 1 2 :=
  (run Op.oneHash [(0, .go .record)] apartOne).get (by decide +kernel)

def put? : MapStep 1 → Option (Key × Option Value)
  | .put key o => some (key, o)
  | .saw _ _ _ | .task _ _ _ => none

-- Steps hold functions, so that a list of them cannot be compared; keys and values can.
lemma steps_of_puts {trace : List (Fin 2 × MapStep 1)} {l : List (Fin 2 × Key × Option Value)}
    (h : trace.map (fun d => (d.1, put? d.2)) = l.map fun p => (p.1, some p.2)) :
    trace = l.map fun p => (p.1, .put p.2.1 p.2.2) := by
  induction trace generalizing l with
  | nil =>
    obtain rfl : l = [] := List.map_eq_nil_iff.mp h.symm
    rfl
  | cons d trace ih =>
    obtain ⟨p, l, rfl, hd, htail⟩ := List.map_eq_cons_iff.mp h.symm
    obtain ⟨t, e⟩ := d
    obtain ⟨rfl, he⟩ := Prod.mk.inj hd
    cases e with
    | put key o =>
      rw [ih htail.symm, List.map_cons, Option.some.inj he]
    | saw i valid keys => cases he
    | task i func o => cases he

lemma apart_steps : apart.1 =
    [(0, .put (ascii "a") (some (ascii "x"))), (1, .put (ascii "b") (some (ascii "y")))] :=
  steps_of_puts (l := [(0, ascii "a", some (ascii "x")), (1, ascii "b", some (ascii "y"))])
    (by decide +kernel)

lemma apartOne_steps : apartOne.1 = [(0, .put (ascii "a") (some (ascii "x")))] :=
  steps_of_puts (l := [(0, ascii "a", some (ascii "x"))]) (by decide +kernel)

lemma apart_reached :
    Reaches Op.oneHash (Careful Op.oneHash) ZestDB.emptyOne apartBoth.1 apartBoth.2 := by
  have hfirst : Reaches Op.oneHash (Careful Op.oneHash) ZestDB.emptyOne apart.1 apart.2 := by
    refine reaches_run (p := ([], idle ZestDB.emptyOne)) (fun trace d hd => ?_) .start
      (Option.some_get _).symm
    simp only [overlapping, List.mem_cons, List.not_mem_nil, or_false] at hd
    rcases hd with rfl | rfl | rfl | rfl <;> trivial
  have hclear : Clear (MapStep.act Op.oneHash) 1 apart.1 := by
    rw [apart_steps]
    refine .cons (fun q hq _ _ => ?_) (.cons (by simp) .nil)
    obtain rfl := List.mem_singleton.mp hq
    refine MapStep.movesLeft_of_apart fun k hk hk' => ?_
    have hab : ascii "a" = ascii "b" := Eq.trans (Eq.symm hk) hk'
    exact absurd hab (by decide)
  have hone : Reaches Op.oneHash (Careful Op.oneHash) ZestDB.emptyOne apartOne.1 apartOne.2 :=
    reaches_record hclear hfirst (Option.some_get _).symm
  have hlast : Clear (MapStep.act Op.oneHash) 0 apartOne.1 := by
    rw [apartOne_steps]
    exact .cons (by simp) .nil
  exact reaches_record hlast hone (Option.some_get _).symm

theorem apart_recovered :
    apartBoth.2.db.toMap Op.oneHash (ascii "a") = some (ascii "x") ∧
      (ZestDB.replayWAL Op.oneHash (fun _ => {})
        (ZestDB.logOnly {} apartBoth.2.db.logs)).final.toMap Op.oneHash =
        apartBoth.2.db.toMap Op.oneHash := by
  obtain ⟨hready, hmap, hlogs⟩ := ZestDB.logOnly_ready Op.oneHash {} apartBoth.2.db.logs
  refine ⟨by decide +kernel,
    replayWAL_interleaved ZestDB.emptyOne_fresh apart_reached (by decide +kernel) hready
    (hmap.trans ZestDB.emptyOne_ready.2.1.symm) hlogs (fun w hw => Write.fits_iff.mpr ?_)
    (by decide +kernel)⟩
  revert w
  decide +kernel

def crossed : List (Fin 2 × MapStep 1) × Clients 1 2 :=
  (run Op.oneHash (overlapping setA { command := ascii "set a y" } ++ [(1, .go .record),
    (0, .go .record)]) ([], idle ZestDB.emptyOne)).get (by decide +kernel)

/-- Two writes of one key are recorded in the other order than they ran in. -/
theorem crossed_not_recovered :
    Reaches Op.oneHash (fun _ _ _ => True) ZestDB.emptyOne crossed.1 crossed.2 ∧ crossed.2.Idle ∧
      ZestDB.emptyOne.Fresh Op.oneHash ∧ (ZestDB.logOnly {} crossed.2.db.logs).Ready Op.oneHash ∧
      (ZestDB.logOnly {} crossed.2.db.logs).toMap Op.oneHash = ZestDB.emptyOne.toMap Op.oneHash ∧
      (ZestDB.logOnly {} crossed.2.db.logs).logs = crossed.2.db.logs ∧
      (∀ w ∈ writesOf Op.oneHash (ZestDB.logOnly {} crossed.2.db.logs).shardManager.walEntries,
        w.Fits 128000) ∧ crossed.2.db.toMap Op.oneHash (ascii "a") = some (ascii "y") ∧
      (ZestDB.replayWAL Op.oneHash (fun _ => {}) (ZestDB.logOnly {} crossed.2.db.logs)).final.toMap
        Op.oneHash
        (ascii "a") = some (ascii "x") := by
  obtain ⟨hready, hmap, hlogs⟩ := ZestDB.logOnly_ready Op.oneHash {} crossed.2.db.logs
  refine ⟨?_, by decide +kernel, ZestDB.emptyOne_fresh, hready,
    hmap.trans ZestDB.emptyOne_ready.2.1.symm, hlogs,
    fun w hw => Write.fits_iff.mpr ?_, by decide +kernel, by decide +kernel⟩
  · exact reaches_run (p := ([], idle ZestDB.emptyOne)) (fun _ _ _ => trivial) .start
      (Option.some_get _).symm
  · revert w
    decide +kernel

end TwoClients

end Clients

end Zest
