import ZestDB.Manager.Refinement

/-! A `setby` with a limit between the commands of other clients: it collects the matching keys of
one shard after the other, and then sets each key it chose with a plain `set`. -/

namespace Zest.ShardManager

open Foundations

variable {n : ℕ} [NeZero n]

/-- What another client does to a shard while it holds its lock. -/
inductive Other (n : ℕ) where
  | set (key : Key) (value : Value)
  | del (key : Key)
  | setBy (ch : Choice) (i : Fin n) (func : Key → Bool) (value : Value)
  | delBy (ch : Choice) (i : Fin n) (func : Key → Bool)

namespace Other

def run (pf : Platform) : Other n → Traced (ShardManager n) Unit
  | .set key value => do
    let _ ← ShardManager.set pf key value
  | .del key => do
    let _ ← ShardManager.del pf key
  | .setBy ch i func value => do
    let _ ← onShard i (Shard.setBy ch { func := func } value (some 0))
  | .delBy ch i func => do
    let _ ← onShard i (Shard.delBy ch { func := func } (some 0))

def Checked (segSize : ℕ) : Other n → Prop
  | .set _ value => Shard.ValueOk value ∧ value.length ≤ segSize
  | .setBy _ _ _ value => Shard.ValueOk value ∧ value.length ≤ segSize
  | _ => True

def sets (op : Other n) (k : Key) : Prop := ∃ value, op = .set k value

def deletes (pf : Platform) (k : Key) : Other n → Prop
  | .del key => k = key
  | .delBy _ i func => getShardId pf k = i ∧ func k = true
  | _ => False

variable {pf : Platform} {sm : ShardManager n} {op : Other n}

/-- The manager keeps its invariant and its settings, and `k` exists as `exist` says. -/
structure Did (pf : Platform) (sm t : ShardManager n) (exist : Key → Prop) : Prop where
  inv : t.Inv pf
  kept : Kept sm t
  exist : ∀ k, (t.toMap pf k).isSome ↔ exist k

lemma did_of_wrote {t : ShardManager n} {m : Store} {exist : Key → Prop} (h : Wrote pf sm t m)
    (he : ∀ k, (m k).isSome ↔ exist k) : Did pf sm t exist :=
  ⟨h.inv, h.kept, fun k => by rw [h.toMap, he]⟩

lemma did_of_task {A : Key → Value → Prop} {B : Key → Prop} {i : Fin n} {s : Shard}
    (gone : Key → Prop) (h : sm.Inv pf) (hp : Shard.Path A B (sm.shards i) s)
    (he : ∀ k, (s.toMap k).isSome ↔ ((sm.shards i).toMap k).isSome ∧ ¬ gone k) :
    Did pf sm (sm.setShard i s) fun k => (sm.toMap pf k).isSome ∧
    ¬ (getShardId pf k = i ∧ gone k) := by
  refine ⟨h.setShard (hp.inv (h.shard i)) fun k hk => h.routed i k ((he k).mp hk).1, .setShard hp,
    fun k => ?_⟩
  rw [toMap_setShard]
  split_ifs with hi
  · rw [he k, toMap, hi]
    simp
  · simp [hi]

lemma run_did (h : sm.Inv pf) (hu : sm.Uniform) (hop : op.Checked sm.settings.SegSize)
    (hw : Traced.Within (Each Shard.WithinLimits) (op.run pf) sm) :
    Did pf sm (op.run pf sm).final fun k => op.sets k ∨
    ((sm.toMap pf k).isSome ∧ ¬ op.deletes pf k) := by
  cases op with
  | set key value =>
    rcases set_spec _ _ h hu hop.1 hw.bind_left with ⟨-, -, hwrote⟩ | ⟨hlt, -, -⟩
    · refine did_of_wrote hwrote fun k => ?_
      rw [Function.update_apply]
      by_cases hk : k = key
      · simp [hk, sets]
      · simp [hk, Ne.symm hk, sets, deletes]
    · exact absurd hlt (not_lt.mpr hop.2)
  | del key =>
    refine did_of_wrote (del_spec h key).2 fun k => ?_
    rw [Function.update_apply]
    by_cases hk : k = key
    · simp [hk, sets, deletes]
    · simp [hk, sets, deletes]
  | setBy ch i func value =>
    have hws := within_onShard hw.bind_left
    have hruns := Shard.setBy_runs (h.shard i) hop.1 (hws.mono fun _ hs => hs.bounded)
    have hmap := (Shard.setBy_spec (h.shard i) hop.1 hws (Or.inl rfl)).2
    have hdid := did_of_task (fun _ => False) h hruns.final fun k => by
      rw [hmap, hu i, if_pos hop.2, Store.putAll]
      split_ifs with hk
      · simp [hk.2]
      · simp
    exact ⟨hdid.inv, hdid.kept, fun k => (hdid.exist k).trans (by simp [sets, deletes])⟩
  | delBy ch i func =>
    obtain ⟨hruns, hspec⟩ := Shard.delBy_spec ch { func := func } (some 0) (h.shard i)
    have hmap := (hspec (Or.inl rfl)).2
    have hdid := did_of_task (fun k => func k = true) h hruns.final fun k => by
      rw [hmap, Store.eraseAll]
      split_ifs with hk
      · have hf : func k = true := hk.1
        simp [hf]
      · simp only [Store.matching, Set.mem_ofPred_eq, not_and] at hk
        constructor
        · exact fun hs => ⟨hs, fun hf => hk hf hs⟩
        · exact fun hs => hs.1
    exact ⟨hdid.inv, hdid.kept, fun k => (hdid.exist k).trans (by simp [sets, deletes])⟩

end Other

/-- How far the `setby` is: the keys collected so far, or the chosen keys it has yet to set. -/
inductive Phase (n : ℕ) where
  | collecting (found : Fin n → Option (List Key))
  | setting (keys : List Key)

structure SetBy (n : ℕ) where
  manager : ShardManager n
  phase : Phase n

inductive Turn (n : ℕ) where
  | other (op : Other n)
  | collect (i : Fin n)
  | choose
  | put

/-- The command: its rule, its value and what the platform leaves open. -/
structure Command (n : ℕ) where
  pf : Platform
  ch : Choices n
  valid : ValidationRule
  value : Value

def Command.start (sm : ShardManager n) : SetBy n := ⟨sm, .collecting fun _ => none⟩

def Command.chosen (c : Command n) (found : Fin n → Option (List Key)) : List Key :=
  (c.ch.own.firstKeys c.valid.limit
    ((List.finRange n).flatMap fun i => (found i).getD [])).insertionSort (· ≤ ·)

def Command.step (c : Command n) : Turn n → SetBy n → Option (SetBy n)
  | .other op, s => some { s with manager := (op.run c.pf s.manager).final }
  | .collect i, ⟨sm, .collecting found⟩ =>
    if found i = none then
      some ⟨sm, .collecting
        (Function.update found i (some ((sm.shards i).matchingKeys (c.ch.shard i) c.valid)))⟩
    else none
  | .choose, ⟨sm, .collecting found⟩ =>
    if ∀ i, (found i).isSome then some ⟨sm, .setting (c.chosen found)⟩ else none
  | .put, ⟨sm, .setting (key :: keys)⟩ => some ⟨(set c.pf key c.value sm).final, .setting keys⟩
  | _, _ => none

def Command.steps (c : Command n) : List (Turn n) → SetBy n → Option (SetBy n)
  | [], s => some s
  | e :: turns, s => (c.step e s).bind (c.steps turns)

lemma Command.steps_append {c : Command n} {s t : SetBy n} (turns turns' : List (Turn n))
    (h : c.steps turns s = some t) :
    c.steps (turns ++ turns') s = c.steps turns' t := by
  induction turns generalizing s with
  | nil => rw [← Option.some.inj h, List.nil_append]
  | cons e turns ih =>
    obtain ⟨u, hu, ht⟩ := Option.bind_eq_some_iff.mp h
    rw [List.cons_append, Command.steps, hu]
    exact ih ht

lemma Command.steps_collect {c : Command n} (sm : ShardManager n) {is : List (Fin n)}
    (hn : is.Nodup) (found : Fin n → Option (List Key)) (hf : ∀ i ∈ is, found i = none) :
    c.steps (is.map .collect) ⟨sm, .collecting found⟩ = some ⟨sm, .collecting fun i =>
      if i ∈ is then some ((sm.shards i).matchingKeys (c.ch.shard i) c.valid) else found i⟩ := by
  induction is generalizing found with
  | nil => simp [Command.steps]
  | cons i is ih =>
    obtain ⟨hi, hn⟩ := List.nodup_cons.mp hn
    rw [List.map_cons, Command.steps, Command.step, if_pos (hf i List.mem_cons_self),
      Option.bind_some, ih hn]
    · simp only [List.mem_cons, Function.update_apply, Option.some.injEq, SetBy.mk.injEq,
        Phase.collecting.injEq, true_and]
      funext j
      by_cases hj : j = i
      · simp [hj, hi]
      · simp [hj]
    · intro j hj
      have hji : j ≠ i := fun hji => hi (hji ▸ hj)
      rw [Function.update_of_ne hji, hf j (List.mem_cons_of_mem _ hj)]

lemma Command.steps_put {c : Command n} (sm : ShardManager n) (keys : List Key) :
    c.steps (List.replicate keys.length .put) ⟨sm, .setting keys⟩ =
      some ⟨(countSuccess (fun key => set c.pf key c.value) keys sm).final, .setting []⟩ := by
  induction keys generalizing sm with
  | nil => rfl
  | cons key keys ih => exact ih _

theorem Command.steps_alone (c : Command n) (hlim : c.valid.limit ≠ UINT_MAX)
    (sm : ShardManager n) :
    c.steps ((List.finRange n).map .collect ++
      .choose :: List.replicate (sm.firstMatchingKeys c.ch c.valid).length .put) (start sm) =
    some ⟨(setBy c.pf c.ch c.valid c.value sm).final, .setting []⟩ := by
  have hcollect := Command.steps_collect (c := c) sm (List.nodup_finRange n)
    (fun _ => none) fun _ _ => rfl
  have hchoose : c.step .choose ⟨sm, .collecting fun i =>
      if i ∈ List.finRange n then
        some ((sm.shards i).matchingKeys (c.ch.shard i) c.valid) else none⟩ =
      some ⟨sm, .setting (sm.firstMatchingKeys c.ch c.valid)⟩ := by
    simp only [List.mem_finRange, if_true, Command.step, Option.isSome_some, implies_true,
      Command.chosen, Option.getD_some]
    rfl
  have hset : (setBy c.pf c.ch c.valid c.value sm).final =
      (countSuccess (fun key => set c.pf key c.value)
        (sm.firstMatchingKeys c.ch c.valid) sm).final := by
    rw [setBy, if_pos hlim]
    rfl
  rw [start, Command.steps_append _ _ hcollect, Command.steps, hchoose, Option.bind_some,
    Command.steps_put, hset]

/-- What the database checks, and the limits of the machine, at one turn. -/
def Command.Allowed (c : Command n) (s : SetBy n) : Turn n → Prop
  | .other op => op.Checked s.manager.settings.SegSize ∧
      Traced.Within (Each Shard.WithinLimits) (op.run c.pf) s.manager
  | .put => ∀ key keys, s.phase = .setting (key :: keys) →
      Traced.Within (Each Shard.WithinLimits) (set c.pf key c.value) s.manager
  | _ => True

inductive Command.Runs (c : Command n) (sm : ShardManager n) : List (Turn n) → SetBy n → Prop
  | nil : Runs c sm [] (start sm)
  | turn {turns s t e} : Runs c sm turns s → c.Allowed s e → c.step e s = some t →
      Runs c sm (turns ++ [e]) t

def Turn.sets (k : Key) : Turn n → Prop
  | .other op => op.sets k
  | _ => False

def Turn.deletes (pf : Platform) (k : Key) : Turn n → Prop
  | .other op => op.deletes pf k
  | _ => False

/-- After its shard was asked for its keys, `k` was deleted and not set again. -/
def Lost (pf : Platform) (k : Key) (turns : List (Turn n)) : Prop :=
  ∃ before between e after, turns =
    before ++ .collect (getShardId pf k) :: (between ++ e :: after) ∧
    e.deletes pf k ∧ ∀ e ∈ after, ¬ e.sets k

variable {pf : Platform} {c : Command n} {sm : ShardManager n} {s t : SetBy n}
  {turns : List (Turn n)} {e : Turn n} {k : Key}

lemma Turn.not_both (h : e.deletes pf k) : ¬ e.sets k := by
  cases e with
  | other op =>
    rintro ⟨value, rfl⟩
    exact h
  | _ => exact not_false

lemma lost_concat :
    Lost pf k (turns ++ [e]) ↔ (e.deletes pf k ∧ .collect (getShardId pf k) ∈ turns) ∨
    (¬ e.sets k ∧ Lost pf k turns) := by
  constructor
  · rintro ⟨before, between, d, after, heq, hd, hafter⟩
    rcases List.eq_nil_or_concat after with rfl | ⟨after, last, rfl⟩
    · have heq' : turns ++ [e] = (before ++ .collect (getShardId pf k) :: between) ++ [d] := by
        simpa using heq
      obtain ⟨rfl, hde⟩ := List.append_inj' heq' rfl
      obtain rfl : e = d := by simpa using hde
      exact Or.inl ⟨hd, by simp⟩
    · have heq' : turns ++ [e] =
          (before ++ .collect (getShardId pf k) :: (between ++ d :: after)) ++ [last] := by
        simpa using heq
      obtain ⟨rfl, hde⟩ := List.append_inj' heq' rfl
      obtain rfl : e = last := by simpa using hde
      exact Or.inr ⟨hafter e (by simp), before, between, d, after, rfl, hd,
        fun u hu => hafter u (by simp [hu])⟩
  · rintro (⟨hd, hmem⟩ | ⟨hs, before, between, d, after, rfl, hd, hafter⟩)
    · obtain ⟨before, between, rfl⟩ := List.append_of_mem hmem
      exact ⟨before, between, e, [], by simp, hd, by simp⟩
    · refine ⟨before, between, d, after ++ [e], by simp, hd, fun u hu => ?_⟩
      rcases List.mem_append.mp hu with hu | hu
      · exact hafter u hu
      · rw [List.mem_singleton.mp hu]
        exact hs

lemma Lost.mem (h : Lost pf k turns) : .collect (getShardId pf k) ∈ turns := by
  obtain ⟨before, between, e, after, rfl, -⟩ := h
  simp

structure Watched (pf : Platform) (turns : List (Turn n)) (sm : ShardManager n) (k : Key) :
    Prop where
  collected : .collect (getShardId pf k) ∈ turns
  exist : (sm.toMap pf k).isSome ↔ ¬ Lost pf k turns

lemma Watched.turn {t : ShardManager n} (h : Watched pf turns sm k)
    (he : (t.toMap pf k).isSome ↔ e.sets k ∨ ((sm.toMap pf k).isSome ∧ ¬ e.deletes pf k)) :
    Watched pf (turns ++ [e]) t k := by
  refine ⟨List.mem_append_left _ h.collected, ?_⟩
  have hboth : e.deletes pf k → ¬ e.sets k := Turn.not_both
  have hcollected := h.collected
  rw [he, h.exist, lost_concat]
  tauto

lemma watched_collect {i : Fin n} (h : sm.Inv pf) (hnew : .collect i ∉ turns) {ch : Choice}
    {valid : ValidationRule}
    (hk : k ∈ (sm.shards i).matchingKeys ch valid) : Watched pf (turns ++ [.collect i]) sm k := by
  have hmatch : k ∈ Store.matching (sm.shards i).toMap valid.func :=
    smallest_subset ((Shard.mem_matchingKeys (sm.shards i) ch valid).le hk)
  have hroute := h.routed i k hmatch.2
  refine ⟨by simp [hroute], ?_⟩
  have hnotlost : ¬ Lost pf k (turns ++ [.collect i]) := by
    rw [lost_concat]
    rintro (⟨hd, -⟩ | ⟨-, hlost⟩)
    · exact hd
    · rw [← hroute] at hnew
      exact hnew hlost.mem
  refine iff_of_true ?_ hnotlost
  rw [toMap, hroute]
  exact hmatch.2

def InHand (pf : Platform) (turns : List (Turn n)) (sm : ShardManager n) : Phase n → Prop
  | .collecting found => ∀ i, (found i = none → .collect i ∉ turns) ∧
      ∀ keys, found i = some keys → keys.Nodup ∧ ∀ k ∈ keys, getShardId pf k = i ∧
        Watched pf turns sm k
  | .setting keys => keys.Nodup ∧ ∀ k ∈ keys, Watched pf turns sm k

structure Command.Tracks (c : Command n) (segSize : ℕ) (turns : List (Turn n)) (s : SetBy n) :
    Prop where
  inv : s.manager.Inv c.pf
  uniform : s.manager.Uniform
  segSize : s.manager.settings.SegSize = segSize
  inHand : InHand c.pf turns s.manager s.phase

lemma InHand.other {ph : Phase n} {op : Other n} {t : ShardManager n} (h : InHand pf turns sm ph)
    (hdid : ∀ k, (t.toMap pf k).isSome ↔ op.sets k ∨ ((sm.toMap pf k).isSome ∧ ¬ op.deletes pf k)) :
    InHand pf (turns ++ [.other op]) t ph := by
  cases ph with
  | collecting found =>
    intro i
    refine ⟨fun hi => by simpa using (h i).1 hi,
      fun keys hi => ⟨((h i).2 keys hi).1, fun k hk => ?_⟩⟩
    obtain ⟨hroute, hwatch⟩ := ((h i).2 keys hi).2 k hk
    exact ⟨hroute, hwatch.turn (hdid k)⟩
  | setting keys => exact ⟨h.1, fun k hk => (h.2 k hk).turn (hdid k)⟩

lemma Watched.quiet (h : Watched pf turns sm k) (hs : ¬ e.sets k) (hd : ¬ e.deletes pf k) :
    Watched pf (turns ++ [e]) sm k := h.turn (by simp [hs, hd])

lemma InHand.collect {found : Fin n → Option (List Key)} {i : Fin n}
    (h : InHand pf turns sm (.collecting found))
    (hinv : sm.Inv pf) (hi : found i = none) (ch : Choice) (valid : ValidationRule) :
    InHand pf (turns ++ [.collect i]) sm
      (.collecting (Function.update found i (some ((sm.shards i).matchingKeys ch valid)))) := by
  intro j
  rw [Function.update_apply]
  split_ifs with hj
  · subst hj
    refine ⟨by simp, fun keys hkeys => ?_⟩
    obtain rfl := Option.some.inj hkeys
    refine ⟨Shard.matchingKeys_nodup _ _ _, fun k hk => ⟨?_, watched_collect hinv ((h j).1 hi) hk⟩⟩
    exact hinv.routed j k
      (smallest_subset ((Shard.mem_matchingKeys (sm.shards j) ch valid).le hk)).2
  · refine ⟨fun hn => by simpa [hj] using (h j).1 hn, fun keys hkeys => ?_⟩
    obtain ⟨hnodup, hkeys⟩ := (h j).2 keys hkeys
    exact ⟨hnodup, fun k hk => ⟨(hkeys k hk).1, (hkeys k hk).2.quiet not_false not_false⟩⟩

lemma mem_of_mem_firstKeys {ch : Choice} {limit : ℕ} {keys : List Key}
    (h : k ∈ ch.firstKeys limit keys) : k ∈ keys := by
  simp only [Choice.firstKeys] at h
  split_ifs at h
  · exact (ch.nth_element_perm _ _).mem_iff.mp (List.mem_of_mem_take h)
  · exact h

lemma InHand.choose
    {found : Fin n → Option (List Key)} (h : InHand c.pf turns sm (.collecting found)) :
    InHand c.pf (turns ++ [.choose]) sm (.setting (c.chosen found)) := by
  have hkeys : ∀ i, ((found i).getD []).Nodup ∧
      ∀ k ∈ (found i).getD [], getShardId c.pf k = i ∧ Watched c.pf turns sm k := by
    intro i
    cases hi : found i with
    | none => simp
    | some keys => exact (h i).2 keys hi
  have hnodup : ((List.finRange n).flatMap fun i => (found i).getD []).Nodup := by
    refine List.nodup_flatMap.mpr ⟨fun i _ =>
      (hkeys i).1, (List.nodup_finRange n).imp fun {i j} hij => ?_⟩
    exact fun k hi hj => hij (((hkeys i).2 k hi).1.symm.trans ((hkeys j).2 k hj).1)
  refine ⟨(List.perm_insertionSort _ _).nodup_iff.mpr (c.ch.own.firstKeys_nodup
    _ hnodup), fun k hk => ?_⟩
  obtain ⟨i, -,
      hi⟩ := List.mem_flatMap.mp (mem_of_mem_firstKeys ((List.mem_insertionSort (· ≤ ·)).mp hk))
  exact ((hkeys i).2 k hi).2.quiet not_false not_false

lemma Command.Tracks.put {segSize : ℕ} {key : Key} {keys : List Key} (h : c.Tracks segSize turns s)
    (hv : Shard.ValueOk c.value)
      (hfit : c.value.length ≤ segSize) (hs : s.phase = .setting (key :: keys))
    (hall : c.Allowed s .put) :
    Wrote c.pf s.manager (set c.pf key c.value s.manager).final
      (Function.update (s.manager.toMap c.pf) key (some c.value)) := by
  rcases set_spec _ _ h.inv h.uniform hv (hall key keys hs) with ⟨-, -, hwrote⟩ | ⟨hlt, -, -⟩
  · exact hwrote
  · rw [h.segSize] at hlt
    exact absurd hlt (not_lt.mpr hfit)

lemma Command.Tracks.step {segSize : ℕ} (h : c.Tracks segSize turns s) (hv : Shard.ValueOk c.value)
    (hfit : c.value.length ≤ segSize) (hall : c.Allowed s e) (ht : c.step e s = some t) :
    c.Tracks segSize (turns ++ [e]) t := by
  obtain ⟨sm, ph⟩ := s
  cases e with
  | other op =>
    obtain rfl := Option.some.inj ht
    have hdid := Other.run_did h.inv h.uniform hall.1 hall.2
    exact ⟨hdid.inv, hdid.kept.uniform
      h.uniform, by rw [← h.segSize]; exact congrArg Settings.SegSize hdid.kept.settings,
      h.inHand.other hdid.exist⟩
  | collect i =>
    cases ph with
    | setting keys => cases ht
    | collecting found =>
      simp only [Command.step] at ht
      split_ifs at ht with hi
      obtain rfl := Option.some.inj ht
      exact ⟨h.inv, h.uniform, h.segSize, h.inHand.collect h.inv hi _ _⟩
  | choose =>
    cases ph with
    | setting keys => cases ht
    | collecting found =>
      simp only [Command.step] at ht
      split_ifs at ht with hi
      obtain rfl := Option.some.inj ht
      exact ⟨h.inv, h.uniform, h.segSize, h.inHand.choose⟩
  | put =>
    cases ph with
    | collecting found => cases ht
    | setting keys =>
      cases keys with
      | nil => cases ht
      | cons key keys =>
        obtain rfl := Option.some.inj ht
        have hwrote := h.put hv hfit rfl hall
        obtain ⟨hnodup, hwatch⟩ := h.inHand
        obtain ⟨hkey, hnodup⟩ := List.nodup_cons.mp hnodup
        refine ⟨hwrote.inv, hwrote.kept.uniform h.uniform,
          by rw [← h.segSize]; exact congrArg Settings.SegSize hwrote.kept.settings, hnodup,
          fun k hk => ?_⟩
        have hne : k ≠ key := fun hkk => hkey (hkk ▸ hk)
        refine (hwatch k (List.mem_cons_of_mem _ hk)).turn ?_
        change ((set c.pf key c.value sm).final.toMap c.pf k).isSome ↔ _
        rw [hwrote.toMap, Function.update_of_ne hne]
        simp [Turn.sets, Turn.deletes]

lemma Command.Runs.tracks (h : c.Runs sm turns s) (hinv : sm.Inv c.pf) (hu : sm.Uniform)
    (hv : Shard.ValueOk c.value)
    (hfit : c.value.length ≤ sm.settings.SegSize) : c.Tracks sm.settings.SegSize turns s := by
  induction h with
  | nil => exact ⟨hinv, hu, rfl, fun i => ⟨by simp, by simp⟩⟩
  | turn _ hall ht ih => exact ih.step hv hfit hall ht

lemma Command.Runs.unique (h : c.Runs sm turns s) (h' : c.Runs sm turns t) : s = t := by
  induction h generalizing t with
  | nil =>
    generalize hl : ([] : List (Turn n)) = l at h'
    cases h' with
    | nil => rfl
    | turn _ _ _ => simp at hl
  | @turn turns s u e _ _ ht ih =>
    generalize hl : turns ++ [e] = l at h'
    cases h' with
    | nil => simp at hl
    | turn hr _ ht' =>
      obtain ⟨rfl, he⟩ := List.append_inj' hl rfl
      obtain rfl : e = _ := by simpa using he
      rw [ih hr, ht'] at ht
      exact Option.some.inj ht.symm

lemma Command.Runs.before {before after : List (Turn n)} (h : c.Runs sm turns t)
    (hl : turns = before ++ e :: after) :
    ∃ s, c.Runs sm before s ∧ c.Allowed s e := by
  induction h generalizing after with
  | nil => simp at hl
  | @turn turns s u d hr hall _ ih =>
    rcases List.eq_nil_or_concat after with rfl | ⟨after, last, rfl⟩
    · obtain ⟨rfl, he⟩ := List.append_inj' hl rfl
      obtain rfl : d = e := by simpa using he
      exact ⟨s, hr, hall⟩
    · have hl' : turns ++ [d] = (before ++ e :: after) ++ [last] := by simpa using hl
      exact ih (List.append_inj' hl' rfl).1

def Command.NeverCreates (c : Command n) (sm : ShardManager n) (turns : List (Turn n)) : Prop :=
  ∀ before after s t, turns = before ++ .put :: after → c.Runs sm before s →
    c.step .put s = some t → ∀ k, (t.manager.toMap c.pf k).isSome → (s.manager.toMap c.pf k).isSome

/-- When the command sets a key, the key was not deleted since it was collected, or it was set
again. -/
def Command.KeepsChosen (c : Command n) (sm : ShardManager n) (turns : List (Turn n)) : Prop :=
  ∀ before after s key keys, turns = before ++ .put :: after → c.Runs sm before s →
    s.phase = .setting (key :: keys) → ¬ Lost c.pf key before

/-- A key that was deleted and that no other client set again is not there. -/
def Command.StaysDeleted (c : Command n) (turns : List (Turn n)) (u : SetBy n) : Prop :=
  ∀ k before e after, turns = before ++ e :: after → e.deletes c.pf k → (∀ e ∈ after, ¬ e.sets k) →
    u.manager.toMap c.pf k = none

lemma Command.Tracks.exist {segSize : ℕ} (h : c.Tracks segSize turns s) (hall : c.Allowed s e)
    (ht : c.step e s = some t) (hne : e ≠ .put) (k : Key) :
    (t.manager.toMap c.pf k).isSome ↔ e.sets k ∨
    ((s.manager.toMap c.pf k).isSome ∧ ¬ e.deletes c.pf k) := by
  obtain ⟨sm, ph⟩ := s
  have hsame : t.manager = sm → (∀ op, e ≠ .other op) →
      ((t.manager.toMap c.pf k).isSome ↔ e.sets k ∨
        ((sm.toMap c.pf k).isSome ∧ ¬ e.deletes c.pf k)) := by
    rintro rfl hop
    cases e with
    | other op => exact absurd rfl (hop op)
    | _ => simp [Turn.sets, Turn.deletes]
  cases e with
  | other op =>
    obtain rfl := Option.some.inj ht
    exact (Other.run_did h.inv h.uniform hall.1 hall.2).exist k
  | put => exact absurd rfl hne
  | collect i =>
    cases ph with
    | setting keys => cases ht
    | collecting found =>
      simp only [Command.step] at ht
      split_ifs at ht
      exact hsame (congrArg SetBy.manager (Option.some.inj ht)).symm (by simp)
  | choose =>
    cases ph with
    | setting keys => cases ht
    | collecting found =>
      simp only [Command.step] at ht
      split_ifs at ht
      exact hsame (congrArg SetBy.manager (Option.some.inj ht)).symm (by simp)

section Run

variable (hinv : sm.Inv c.pf) (hu : sm.Uniform) (hv : Shard.ValueOk c.value)
  (hfit : c.value.length ≤ sm.settings.SegSize)

include hinv hu hv hfit

lemma Command.Runs.neverCreates_iff (h : c.Runs sm turns t) : c.NeverCreates sm turns ↔
    c.KeepsChosen sm turns := by
  have hput : ∀ before after s key keys, turns = before ++ .put :: after → c.Runs sm before s →
      s.phase = .setting (key :: keys) →
      Watched c.pf before s.manager key ∧
      Wrote c.pf s.manager (set c.pf key c.value s.manager).final
        (Function.update (s.manager.toMap c.pf) key (some c.value)) := by
    intro before after s key keys hl hr hs
    have htracks := hr.tracks hinv hu hv hfit
    obtain ⟨s', hr', hall⟩ := h.before hl
    obtain rfl := hr.unique hr'
    have hhand := htracks.inHand
    rw [hs] at hhand
    exact ⟨hhand.2 key List.mem_cons_self, htracks.put hv hfit hs hall⟩
  constructor
  · intro hnever before after s key keys hl hr hs
    obtain ⟨hwatch, hwrote⟩ := hput before after s key keys hl hr hs
    have hstep : c.step .put s = some ⟨(set c.pf key c.value s.manager).final, .setting keys⟩ := by
      obtain ⟨sm', ph⟩ := s
      cases hs
      rfl
    refine hwatch.exist.mp (hnever before after s _ hl hr hstep key ?_)
    rw [hwrote.toMap, Function.update_self]
    rfl
  · intro hkeeps before after s u hl hr hstep k hk
    obtain ⟨sm', ph⟩ := s
    cases ph with
    | collecting found => cases hstep
    | setting keys =>
      cases keys with
      | nil => cases hstep
      | cons key keys =>
        obtain rfl := Option.some.inj hstep
        obtain ⟨hwatch, hwrote⟩ := hput before after _ key keys hl hr rfl
        change ((set c.pf key c.value sm').final.toMap c.pf k).isSome = true at hk
        rw [hwrote.toMap, Function.update_apply] at hk
        split_ifs at hk with hkk
        · rw [hkk]
          exact hwatch.exist.mpr (hkeeps before after _ key keys hl hr rfl)
        · exact hk

lemma Command.Runs.staysDeleted (h : c.Runs sm turns t) (hnever : c.NeverCreates sm turns) :
    c.StaysDeleted turns t := by
  induction h with
  | nil =>
    intro k before e after hl
    simp at hl
  | @turn turns s u d hr hall hstep ih =>
    intro k before e after hl hd hafter
    have htracks := hr.tracks hinv hu hv hfit
    have hnever' : c.NeverCreates sm turns := by
      intro before after s t hl'
      exact hnever before (after ++ [d]) s t (by simp [hl'])
    rw [← Option.not_isSome_iff_eq_none]
    rcases List.eq_nil_or_concat after with rfl | ⟨after, last, rfl⟩
    · obtain ⟨rfl, he⟩ := List.append_inj' hl rfl
      obtain rfl : d = e := by simpa using he
      have hne : d ≠ .put := by
        rintro rfl
        exact hd
      rw [htracks.exist hall hstep hne]
      have hnot := Turn.not_both hd
      tauto
    · have hl' : turns ++ [d] = (before ++ e :: after) ++ [last] := by simpa using hl
      obtain ⟨rfl, he⟩ := List.append_inj' hl' rfl
      obtain rfl : d = last := by simpa using he
      have hgone := Option.not_isSome_iff_eq_none.mpr
        (ih hnever' k before e after rfl hd fun u hu => hafter u (by simp [hu]))
      by_cases hput : d = .put
      · subst hput
        exact fun hk => hgone (hnever _ [] s u rfl hr hstep k hk)
      · rw [htracks.exist hall hstep hput]
        have hnot := hafter d (by simp)
        tauto

/-- A `setby` with a limit creates no key exactly when no key it chose is deleted, and not set
again, between its collection and its turn. -/
theorem setBy_neverCreates_iff (h : c.Runs sm turns t) :
    (c.NeverCreates sm turns ↔ c.KeepsChosen sm turns) ∧
    (c.NeverCreates sm turns → c.StaysDeleted turns t) :=
  ⟨h.neverCreates_iff hinv hu hv hfit, h.staysDeleted hinv hu hv hfit⟩

end Run

def setAny : Command 1 := ⟨Op.oneHash, {}, ⟨fun _ => true, 1⟩, ascii "y"⟩

def oneKey : ShardManager 1 := (set Op.oneHash (ascii "a") (ascii "x") (Op.newManager {})).final

lemma oneKey_inv : oneKey.Inv setAny.pf ∧ oneKey.Uniform := by
  obtain ⟨⟨hinv, hu⟩, -⟩ := Op.create_ready Op.oneHash ({} : Settings) ({} : Choices 1) {}
  rcases set_spec (ascii "a") (ascii "x") hinv hu ⟨by decide, by decide⟩ (by decide +kernel) with
    ⟨-, -, hwrote⟩ | ⟨hlt, -, -⟩
  · exact ⟨hwrote.inv, hwrote.kept.uniform hu⟩
  · exact absurd hlt (by decide)

def deletedBetween : List (Turn 1) := [.collect 0, .choose, .other (.del (ascii "a"))]

lemma deletedBetween_runs : ∃ s, setAny.Runs oneKey deletedBetween s ∧
    s.phase = .setting [ascii "a"] ∧ (s.manager.toMap Op.oneHash (ascii "a")).isSome = false ∧
    Traced.Within (Each Shard.WithinLimits) (set Op.oneHash (ascii "a") (ascii "y")) s.manager := by
  have hstart : setAny.Runs oneKey [] _ := .nil
  have hcollect := hstart.turn (e := .collect 0) trivial rfl
  have hchoose := hcollect.turn (e := .choose) trivial rfl
  have hdel := hchoose.turn (e := .other (.del (ascii "a"))) ⟨trivial, by decide +kernel⟩ rfl
  have hkeys : setAny.chosen (Function.update (fun _ => none) 0
      (some ((oneKey.shards 0).matchingKeys (setAny.ch.shard 0) setAny.valid))) = [ascii "a"] := by
        decide +kernel
  exact ⟨_, hdel, congrArg Phase.setting hkeys, by decide +kernel, by decide +kernel⟩

theorem deletedBetween_creates :
    (∃ t, setAny.Runs oneKey (deletedBetween ++ [.put]) t) ∧
    ¬ setAny.NeverCreates oneKey (deletedBetween ++ [.put]) := by
  obtain ⟨s, hr, hs, hgone, hw⟩ := deletedBetween_runs
  have hstep : setAny.step .put s =
      some ⟨(set Op.oneHash (ascii "a") (ascii "y") s.manager).final, .setting []⟩ := by
    obtain ⟨sm, ph⟩ := s
    cases hs
    rfl
  have hall : setAny.Allowed s .put := by
    intro key keys hphase
    rw [hs] at hphase
    obtain ⟨rfl, rfl⟩ : ascii "a" = key ∧ [] = keys := by simpa using hphase
    exact hw
  refine ⟨⟨_, hr.turn hall hstep⟩, fun hnever => ?_⟩
  have htracks := hr.tracks oneKey_inv.1 oneKey_inv.2 ⟨by decide, by decide⟩ (by decide)
  have hwrote := htracks.put ⟨by decide, by decide⟩ (by decide) hs hall
  have hback := hnever _ [] s _ rfl hr hstep (ascii "a") (by
    change ((set setAny.pf (ascii "a") setAny.value s.manager).final.toMap setAny.pf
      (ascii "a")).isSome = true
    rw [hwrote.toMap, Function.update_self]
    rfl)
  rw [show s.manager.toMap setAny.pf = s.manager.toMap Op.oneHash from rfl, hgone] at hback
  cases hback

def otherBetween : List (Turn 1) :=
  [.collect 0, .choose, .other (.set (ascii "b") (ascii "z")), .other (.del (ascii "b"))]

lemma otherBetween_runs : ∃ s, setAny.Runs oneKey otherBetween s ∧ s.phase = .setting [ascii "a"] ∧
    Traced.Within (Each Shard.WithinLimits) (set Op.oneHash (ascii "a") (ascii "y")) s.manager := by
  have hstart : setAny.Runs oneKey [] _ := .nil
  have hcollect := hstart.turn (e := .collect 0) trivial rfl
  have hchoose := hcollect.turn (e := .choose) trivial rfl
  have hset := hchoose.turn (e := .other (.set (ascii "b") (ascii "z")))
    ⟨⟨⟨by decide, by decide⟩, by decide +kernel⟩, by decide +kernel⟩ rfl
  have hdel := hset.turn (e := .other (.del (ascii "b"))) ⟨trivial, by decide +kernel⟩ rfl
  have hkeys : setAny.chosen (Function.update (fun _ => none) 0
      (some ((oneKey.shards 0).matchingKeys (setAny.ch.shard 0) setAny.valid))) = [ascii "a"] := by
        decide +kernel
  exact ⟨_, hdel, congrArg Phase.setting hkeys, by decide +kernel⟩

lemma otherBetween_put {before after : List (Turn 1)}
    (h : otherBetween ++ [.put] = before ++ .put :: after) :
    before = otherBetween := by
  rcases List.eq_nil_or_concat after with rfl | ⟨after, last, rfl⟩
  · exact (List.append_inj' h rfl).1.symm
  · have hl : otherBetween ++ [.put] = (before ++ .put :: after) ++ [last] := by simpa using h
    have hput : .put ∈ otherBetween := (List.append_inj' hl rfl).1 ▸ by simp
    simp [otherBetween] at hput

lemma otherBetween_keepsChosen : setAny.KeepsChosen oneKey (otherBetween ++ [.put]) := by
  intro before after s key keys hl hr hs
  obtain ⟨t, ht, hphase, -⟩ := otherBetween_runs
  obtain rfl := otherBetween_put hl
  obtain rfl := hr.unique ht
  rw [hs] at hphase
  obtain ⟨rfl, -⟩ : key = ascii "a" ∧ keys = [] := by simpa using hphase
  rintro ⟨early, between, e, late, heq, hdel, -⟩
  have hmem : e ∈ otherBetween := heq ▸ by simp
  simp only [otherBetween, List.mem_cons, List.not_mem_nil, or_false] at hmem
  rcases hmem with rfl | rfl | rfl | rfl
  · exact hdel
  · exact hdel
  · exact hdel
  · have hother : ascii "a" ≠ ascii "b" := by decide
    exact hother hdel

theorem otherBetween_neverCreates :
    ∃ t, setAny.Runs oneKey (otherBetween ++ [.put]) t ∧
      setAny.NeverCreates oneKey (otherBetween ++ [.put]) ∧
      setAny.StaysDeleted (otherBetween ++ [.put]) t := by
  obtain ⟨s, hr, hs, hw⟩ := otherBetween_runs
  have hstep : setAny.step .put s =
      some ⟨(set Op.oneHash (ascii "a") (ascii "y") s.manager).final, .setting []⟩ := by
    obtain ⟨sm, ph⟩ := s
    cases hs
    rfl
  have hrun := hr.turn (e := .put) (fun key keys hphase => by
    rw [hs] at hphase
    obtain ⟨rfl, rfl⟩ : ascii "a" = key ∧ [] = keys := by simpa using hphase
    exact hw) hstep
  obtain ⟨hiff, hstays⟩ :=
    setBy_neverCreates_iff oneKey_inv.1 oneKey_inv.2 ⟨by decide, by decide⟩ (by decide) hrun
  have hnever := hiff.mpr otherBetween_keepsChosen
  exact ⟨_, hrun, hnever, hstays hnever⟩

end Zest.ShardManager
