import ZestDB.Manager.Refinement
import ZestDB.Foundations.Pool
import Mathlib.Algebra.Order.BigOperators.Group.List

/-! The tasks of one `getBy` with a limit, one for each shard, side by side over the counter they
share. A task that finds the counter at the limit has raised it too far and takes that back. -/

namespace Zest

open Foundations

/-- Where a task is: before it looks at the next key, before it raises the counter for the next
entry, before it reads a value, or before it takes back what it raised. -/
inductive GetByTask where
  | scanning (rest found : List IndexEntry)
  | taking (rest : List IndexEntry) (pairs : List (Key × Value))
  | reading (entry : IndexEntry) (rest : List IndexEntry) (pairs : List (Key × Value))
  | giving (pairs : List (Key × Value))
  | done (pairs : List (Key × Value))

namespace GetByTask

variable {s : Shard} {valid : ValidationRule} {count : ℕ} {t : GetByTask} {all : List IndexEntry}

def step (s : Shard) (valid : ValidationRule) (count : ℕ) : GetByTask → GetByTask × ℕ
  | .scanning [] found => (.taking found [], count)
  | .scanning (entry :: rest) found =>
    if valid.stopEarly (some count) then (.taking found [], count)
    else if valid.func entry.key then (.scanning rest (found ++ [entry]), count)
    else (.scanning rest found, count)
  | .taking [] pairs => (.done pairs, count)
  | .taking (entry :: rest) pairs =>
    if !Shard.live entry then (.taking rest pairs, count)
    else if valid.limit = UINT_MAX then (.reading entry rest pairs, count)
    else (if count ≥ valid.limit then .giving pairs else .reading entry rest pairs,
      (count + 1) % 2 ^ 32)
  | .reading entry rest pairs =>
    let value := s.storageManager.read entry
    (.taking rest (if value = [] then pairs else pairs ++ [(entry.key, value)]), count)
  | .giving pairs => (.done pairs, (count + (2 ^ 32 - 1)) % 2 ^ 32)
  | .done pairs => (.done pairs, count)

def Running : GetByTask → Prop
  | .done _ => False
  | _ => True

def pairs : GetByTask → List (Key × Value)
  | .scanning _ _ => []
  | .taking _ pairs => pairs
  | .reading _ _ pairs => pairs
  | .giving pairs => pairs
  | .done pairs => pairs

/-- How much of the counter stands for pairs the task has or is about to read. -/
def taken : GetByTask → ℕ
  | .reading _ _ pairs => pairs.length + 1
  | t => t.pairs.length

def excess : GetByTask → ℕ
  | .giving _ => 1
  | _ => 0

def pending (valid : ValidationRule) : GetByTask → List IndexEntry
  | .scanning rest found =>
    (found ++ rest.filter fun entry => valid.func entry.key).filter Shard.live
  | .taking rest _ => rest.filter Shard.live
  | .reading entry rest _ => entry :: rest.filter Shard.live
  | .giving _ => []
  | .done _ => []

def pairOf (s : Shard) (entry : IndexEntry) : Key × Value :=
  (entry.key, s.storageManager.read entry)

def line (s : Shard) (valid : ValidationRule) (t : GetByTask) : List (Key × Value) :=
  t.pairs ++ (t.pending valid).map (pairOf s)

inductive Moved (s : Shard) (valid : ValidationRule) (count : ℕ) (t : GetByTask) :
    GetByTask × ℕ → Prop
  | quiet {t'} : t'.taken = t.taken → t.excess = 0 → t'.excess = 0 →
      t'.line s valid = t.line s valid → Moved s valid count t (t', count)
  | stop {t'} : count ≥ valid.limit → t'.taken = t.taken → t.excess = 0 → t'.excess = 0 →
      (t'.line s valid).Sublist (t.line s valid) → Moved s valid count t (t', count)
  | take {t'} : count < valid.limit → t'.taken = t.taken + 1 → t.excess = 0 → t'.excess = 0 →
      t'.line s valid = t.line s valid → Moved s valid count t (t', (count + 1) % 2 ^ 32)
  | raise {t'} : count ≥ valid.limit → t'.taken = t.taken → t.excess = 0 → t'.excess = 1 →
      (t'.line s valid).Sublist (t.line s valid) → Moved s valid count t (t', (count + 1) % 2 ^ 32)
  | give {t'} : t'.taken = t.taken → t.excess = 1 → t'.excess = 0 →
      t'.line s valid = t.line s valid → Moved s valid count t (t', (count + (2 ^ 32 - 1)) % 2 ^ 32)

lemma step_moved (hlim : valid.limit ≠ UINT_MAX)
    (hread : ∀ e ∈ t.pending valid, s.storageManager.read e ≠ []) :
    Moved s valid count t (t.step s valid count) := by
  cases t with
  | scanning rest found =>
    cases rest with
    | nil => exact .quiet rfl rfl rfl (by simp [line, pairs, pending])
    | cons entry rest =>
      by_cases hstop : valid.stopEarly (some count) = true
      · have hle : count ≥ valid.limit := by simpa [ValidationRule.stopEarly, hlim] using hstop
        simp only [step, hstop, if_true]
        refine .stop hle rfl rfl rfl ?_
        simp only [line, pairs, pending, List.filter_append, List.nil_append, List.map_append]
        exact List.sublist_append_left _ _
      · by_cases hfunc : valid.func entry.key = true
        · simp only [step, hstop, hfunc, if_true, Bool.false_eq_true, if_false]
          exact .quiet rfl rfl rfl (by simp [line, pairs, pending, hfunc])
        · simp only [step, hstop, hfunc, Bool.false_eq_true, if_false]
          exact .quiet rfl rfl rfl (by simp [line, pairs, pending, hfunc])
  | taking rest pairs =>
    cases rest with
    | nil => exact .quiet rfl rfl rfl (by simp [line, GetByTask.pairs, pending])
    | cons entry rest =>
      by_cases hlive : Shard.live entry = true
      · simp only [step, hlive, Bool.not_true, Bool.false_eq_true, if_false, hlim]
        by_cases hfull : count ≥ valid.limit
        · rw [if_pos hfull]
          refine .raise hfull rfl rfl rfl ?_
          simp only [line, pending, List.map_nil, List.append_nil]
          exact List.sublist_append_left _ _
        · rw [if_neg hfull]
          exact .take (not_le.mp hfull) rfl rfl rfl
            (by simp [line, GetByTask.pairs, pending, hlive])
      · simp only [step, hlive, Bool.not_false, if_true]
        exact .quiet rfl rfl rfl (by simp [line, GetByTask.pairs, pending, hlive])
  | reading entry rest pairs =>
    have hne := hread entry List.mem_cons_self
    simp only [step, hne, if_false]
    exact .quiet (by simp [taken, GetByTask.pairs]) rfl rfl
      (by simp [line, GetByTask.pairs, pending, pairOf])
  | giving pairs => exact .give rfl rfl rfl rfl
  | done pairs => exact .quiet rfl rfl rfl rfl

/-- The sums over all tasks after a step, from those of the other tasks: `T` taken and `O` in
excess. -/
structure Balanced (limit count T O : ℕ) (t : GetByTask) : Prop where
  count : count = T + t.taken + (O + t.excess)
  le : T + t.taken ≤ limit
  full : 0 < O + t.excess → T + t.taken = limit

lemma Moved.balanced {T O : ℕ} {r : GetByTask × ℕ} (h : Moved s valid count t r)
    (hb : Balanced valid.limit count T O t) (hO : valid.limit + O + 1 < 2 ^ 32) :
    Balanced valid.limit r.2 T O r.1 ∧ (T + t.taken = valid.limit → T + r.1.taken = valid.limit) ∧
      (r.1.line s valid).Sublist (t.line s valid) ∧
      (r.1.line s valid = t.line s valid ∨ T + r.1.taken = valid.limit) := by
  obtain ⟨hcount, hle, hfull⟩ := hb
  cases h with
  | quiet htaken hover hover' hline =>
    refine ⟨⟨?_, ?_, ?_⟩, ?_, hline ▸ List.Sublist.refl _, Or.inl hline⟩ <;> dsimp only <;> omega
  | stop hc htaken hover hover' hline =>
    refine ⟨⟨?_, ?_, ?_⟩, ?_, hline, Or.inr ?_⟩ <;> dsimp only <;> omega
  | take hc htaken hover hover' hline =>
    refine ⟨⟨?_, ?_, ?_⟩, ?_, hline ▸ List.Sublist.refl _, Or.inl hline⟩ <;> dsimp only <;> omega
  | raise hc htaken hover hover' hline =>
    refine ⟨⟨?_, ?_, ?_⟩, ?_, hline, Or.inr ?_⟩ <;> dsimp only <;> omega
  | give htaken hover hover' hline =>
    refine ⟨⟨?_, ?_, ?_⟩, ?_, hline ▸ List.Sublist.refl _, Or.inl hline⟩ <;> dsimp only <;> omega

abbrev Alone (s : Shard) (valid : ValidationRule) : GetByTask × ℕ → GetByTask × ℕ → Prop :=
  Relation.ReflTransGen fun a b => a.1.Running ∧ b = a.1.step s valid a.2

lemma Alone.next {t' : GetByTask} {count' : ℕ} {r : GetByTask × ℕ} (hrun : t.Running)
    (he : t.step s valid count = (t', count')) (h : Alone s valid (t', count') r) :
    Alone s valid (t, count) r :=
  .head ⟨hrun, he.symm⟩ h

lemma alone_scanning (hgo : valid.stopEarly (some count) = false) (rest found : List IndexEntry) :
    Alone s valid (.scanning rest found, count)
      (.taking (found ++ rest.filter fun entry => valid.func entry.key) [], count) := by
  induction rest generalizing found with
  | nil => exact .single ⟨trivial, by simp [step]⟩
  | cons entry rest ih =>
    by_cases hfunc : valid.func entry.key = true
    · have hih := ih (found ++ [entry])
      rw [List.append_assoc] at hih
      rw [List.filter_cons, if_pos hfunc]
      exact .next trivial (by simp [step, hgo, hfunc]) hih
    · rw [List.filter_cons, if_neg hfunc]
      exact .next trivial (by simp [step, hgo, hfunc]) (ih found)

lemma alone_reading {entry : IndexEntry} {rest : List IndexEntry} {pairs : List (Key × Value)}
    {claimed count' : ℕ}
    (hlive : Shard.live entry = true) (hclaim : valid.claim (some count) = some (some claimed))
    (hstep : (GetByTask.taking (entry :: rest) pairs).step s valid count =
      (.reading entry rest pairs, claimed))
    (hcount : (s.getByEntries valid rest (some claimed)).2 = some count')
    (hrest : ∀ pairs, Alone s valid (.taking rest pairs, claimed)
      (.done (pairs ++ (s.getByEntries valid rest (some claimed)).1), count')) :
    (s.getByEntries valid (entry :: rest) (some count)).2 = some count' ∧
      Alone s valid (.taking (entry :: rest) pairs, count)
        (.done (pairs ++ (s.getByEntries valid (entry :: rest) (some count)).1), count') := by
  by_cases hempty : s.storageManager.read entry = []
  · have hentries : s.getByEntries valid (entry :: rest) (some count) =
        s.getByEntries valid rest (some claimed) := by
      simp [Shard.getByEntries, hlive, hclaim, hempty]
    rw [hentries]
    exact ⟨hcount, .next trivial hstep (.next trivial (by simp [step, hempty]) (hrest pairs))⟩
  · have hentries : s.getByEntries valid (entry :: rest) (some count) =
        ((entry.key, s.storageManager.read entry) :: (s.getByEntries valid rest (some claimed)).1,
          (s.getByEntries valid rest (some claimed)).2) := by
      simp [Shard.getByEntries, hlive, hclaim, hempty]
    have hlast := hrest (pairs ++ [(entry.key, s.storageManager.read entry)])
    rw [List.append_assoc] at hlast
    rw [hentries]
    exact ⟨hcount, .next trivial hstep (.next trivial (by simp [step, hempty]) hlast)⟩

lemma alone_taking (hlim : valid.limit < 2 ^ 32) (hc : count < 2 ^ 32 - 1)
    (rest : List IndexEntry) :
    ∃ count', (s.getByEntries valid rest (some count)).2 = some count' ∧ ∀ pairs,
      Alone s valid (.taking rest pairs, count)
      (.done (pairs ++ (s.getByEntries valid rest (some count)).1), count') := by
  induction rest generalizing count with
  | nil => exact ⟨count, rfl, fun pairs => .single ⟨trivial, by simp [step, Shard.getByEntries]⟩⟩
  | cons entry rest ih =>
    by_cases hlive : Shard.live entry = true
    · by_cases hmax : valid.limit = UINT_MAX
      · obtain ⟨count', hcount, hrest⟩ := ih hc
        have hclaim : valid.claim (some count) = some (some count) := by
          simp [ValidationRule.claim, hmax]
        have hread := fun pairs : List (Key × Value) =>
          alone_reading hlive hclaim
          (by simp only [step, hlive, Bool.not_true, Bool.false_eq_true, if_false, hmax,
            if_true] : (GetByTask.taking (entry :: rest) pairs).step s valid count = _) hcount hrest
        exact ⟨count', (hread []).1, fun pairs => (hread pairs).2⟩
      · by_cases hfull : count ≥ valid.limit
        · have hentries : s.getByEntries valid (entry :: rest) (some count) = ([], some count) := by
            simp [Shard.getByEntries, hlive, ValidationRule.claim, hmax, hfull]
          have hraise : (count + 1) % 2 ^ 32 = count + 1 := by omega
          have hback : (count + 1 + (2 ^ 32 - 1)) % 2 ^ 32 = count := by omega
          refine ⟨count, by rw [hentries], fun pairs => ?_⟩
          rw [hentries, List.append_nil]
          have hgive : (GetByTask.taking (entry :: rest) pairs).step s valid count =
              (.giving pairs, count + 1) := by
            simp only [step, hlive, Bool.not_true, Bool.false_eq_true, if_false, hmax, hfull,
              if_true, hraise]
          exact .next trivial hgive (.next trivial (by simp only [step, hback]) .refl)
        · have hraise : (count + 1) % 2 ^ 32 = count + 1 := by omega
          have hnext : count + 1 < 2 ^ 32 - 1 := by unfold UINT_MAX at hmax; omega
          obtain ⟨count', hcount, hrest⟩ := ih hnext
          have hclaim : valid.claim (some count) = some (some (count + 1)) := by
            simp [ValidationRule.claim, hmax, hfull]
          have hread := fun pairs : List (Key × Value) =>
            alone_reading hlive hclaim
            (by simp only [step, hlive, Bool.not_true, Bool.false_eq_true, if_false, hmax, hfull,
              hraise] : (GetByTask.taking (entry :: rest) pairs).step s valid count =
                _) hcount hrest
          exact ⟨count', (hread []).1, fun pairs => (hread pairs).2⟩
    · have hentries : s.getByEntries valid (entry :: rest) (some count) =
          s.getByEntries valid rest (some count) := by
        simp [Shard.getByEntries, hlive]
      obtain ⟨count', hcount, hrest⟩ := ih hc
      rw [hentries]
      exact ⟨count', hcount, fun pairs => .next trivial (by simp [step, hlive]) (hrest pairs)⟩

theorem alone_getBy (pf : Platform) (ch : Choice) (s : Shard) (hlim : valid.limit < 2 ^ 32)
    (hc : count < 2 ^ 32 - 1) :
    ∃ pairs count', s.getBy pf ch valid (some count) =
      (ShardManager.pairsResult pf pairs, some count') ∧
      Alone s valid (.scanning (s.indexManager.walk ch) [], count) (.done pairs, count') := by
  cases hstop : valid.stopEarly (some count) with
  | true =>
    refine ⟨[], count, by simp [Shard.getBy, hstop, IndexManager.findMatching, Shard.getByEntries,
      ShardManager.pairsResult], ?_⟩
    have hlast : Alone s valid (.taking [] [], count) (.done [], count) := .next trivial rfl .refl
    cases hall : s.indexManager.walk ch with
    | nil => exact .next trivial rfl hlast
    | cons entry rest => exact .next trivial (by simp only [step, hstop, if_true]) hlast
  | false =>
    obtain ⟨count', hcount, hrest⟩ := alone_taking (s := s) hlim hc
      ((s.indexManager.walk ch).filter fun entry => valid.func entry.key)
    refine ⟨_, count', ?_, (alone_scanning hstop _ []).trans (hrest [])⟩
    simp only [Shard.getBy, hstop, IndexManager.findMatching, Bool.false_eq_true, if_false,
      ShardManager.pairsResult, List.nil_append, hcount]

def left : GetByTask → ℕ
  | .scanning rest found => 3 * rest.length + 2 * found.length + 2
  | .taking rest _ => 2 * rest.length + 1
  | .reading _ rest _ => 2 * rest.length + 2
  | .giving _ => 1
  | .done _ => 0

lemma step_left (s : Shard) (valid : ValidationRule) (count : ℕ) (h : t.Running) :
    (t.step s valid count).1.left < t.left := by
  cases t with
  | scanning rest found =>
    cases rest with
    | nil => simp [step, left]
    | cons entry rest =>
      simp only [step]
      split_ifs <;> simp [left]
      omega
  | taking rest pairs =>
    cases rest with
    | nil => simp [step, left]
    | cons entry rest =>
      simp only [step]
      split_ifs <;> simp [left] <;> omega
  | reading entry rest pairs => simp [step, left]
  | giving pairs => simp [step, left]
  | done pairs => exact absurd h not_false

end GetByTask

namespace ShardManager

variable {n : ℕ} {sm : ShardManager n} {ch : Choices n} {valid : ValidationRule}
  {p q : Pool ℕ (Fin n × GetByTask)}

inductive GetByAct (sm : ShardManager n) (valid : ValidationRule) :
    Pool.Action ℕ (Fin n × GetByTask)
  | step {others count i t} : t.Running →
      GetByAct sm valid others count (i, t) (t.step (sm.shards i) valid count).2
      (i, (t.step (sm.shards i) valid count).1)

def getByStart (ch : Choices n) (sm : ShardManager n) : Pool ℕ (Fin n × GetByTask) :=
  ⟨0, (List.finRange n).map fun i =>
    (i, .scanning ((sm.shards i).indexManager.walk (ch.shard i)) [])⟩

def getByResult (pf : Platform) (p : Pool ℕ (Fin n × GetByTask)) : ResultType :=
  let r := (p.threads.map fun t => pairsResult pf t.2.pairs).foldl mergeOne (ascii "[", 0)
  ⟨.Success, r.1 ++ ascii "]", r.2⟩

def Finished (p : Pool ℕ (Fin n × GetByTask)) : Prop := ∀ t ∈ p.threads, ¬ t.2.Running

/-- The entries of shard `i` that match and are not deleted, in the order in which they are
found. -/
def matchingEntries (ch : Choices n) (sm : ShardManager n) (valid : ValidationRule) (i : Fin n) :
    List IndexEntry :=
  (((sm.shards i).indexManager.walk (ch.shard i)).filter fun entry => valid.func entry.key).filter
    Shard.live

def found (ch : Choices n) (sm : ShardManager n) (valid : ValidationRule) (i : Fin n) :
    List (Key × Value) :=
  (matchingEntries ch sm valid i).map (GetByTask.pairOf (sm.shards i))

def Readable (sm : ShardManager n) : Prop :=
  ∀ i k loc, (sm.shards i).tree.lookup k = some loc → Shard.live (toEntry k loc) = true →
    (sm.shards i).storageManager.read (toEntry k loc) ≠ []

def takenAll (p : Pool ℕ (Fin n × GetByTask)) : ℕ := p.total fun t => t.2.taken

def excessAll (p : Pool ℕ (Fin n × GetByTask)) : ℕ := p.total fun t => t.2.excess

/-- The counter is what the tasks hold of it; it is above the limit only when the limit is reached,
and only then has a task lost sight of an entry. -/
structure Fair (ch : Choices n) (sm : ShardManager n) (valid : ValidationRule)
    (p : Pool ℕ (Fin n × GetByTask)) : Prop where
  ids : p.threads.map Prod.fst = List.finRange n
  count : p.shared = takenAll p + excessAll p
  le : takenAll p ≤ valid.limit
  full : 0 < excessAll p → takenAll p = valid.limit
  line : ∀ t ∈ p.threads, (t.2.line (sm.shards t.1) valid).Sublist (found ch sm valid t.1) ∧
    (takenAll p = valid.limit ∨ t.2.line (sm.shards t.1) valid = found ch sm valid t.1)

lemma mem_matchingEntries {i : Fin n} {e : IndexEntry} (he : e ∈ matchingEntries ch sm valid i) :
    ∃ k loc, (sm.shards i).tree.lookup k = some loc ∧ e = toEntry k loc ∧ Shard.live e = true := by
  obtain ⟨he, hlive⟩ := List.mem_filter.mp he
  obtain ⟨k, hk⟩ := List.mem_filterMap.mp (List.mem_filter.mp he).1
  obtain ⟨loc, hloc, rfl⟩ := Option.map_eq_some_iff.mp hk.2
  exact ⟨k, loc, hloc, rfl, hlive⟩

lemma found_ne_nil (hr : sm.Readable) {i : Fin n} {kv : Key × Value}
    (h : kv ∈ found ch sm valid i) : kv.2 ≠ [] := by
  obtain ⟨e, he, rfl⟩ := List.mem_map.mp h
  obtain ⟨k, loc, hk, rfl, hlive⟩ := mem_matchingEntries he
  exact hr i k loc hk hlive

lemma excess_le (ts : List (Fin n × GetByTask)) : (ts.map fun t => t.2.excess).sum ≤ ts.length := by
  induction ts with
  | nil => simp
  | cons t ts ih =>
    have ht : t.2.excess ≤ 1 := by
      obtain ⟨i, t⟩ := t
      cases t <;> simp [GetByTask.excess]
    simp only [List.map_cons, List.sum_cons, List.length_cons]
    omega

lemma Fair.step (h : Fair ch sm valid p) (hlim : valid.limit + n < 2 ^ 32) (hn : 0 < n)
    (hr : sm.Readable) (hs : Pool.Step (GetByAct sm valid) p q) : Fair ch sm valid q := by
  obtain @⟨count, -, -, -, before, after, ⟨hrun⟩⟩ := hs
  rename_i i t
  have hmax : valid.limit ≠ UINT_MAX := by
    simp only [UINT_MAX]
    omega
  have hline := h.line (i, t) (by simp)
  have hmoved : GetByTask.Moved (sm.shards i) valid count t (t.step (sm.shards i) valid count) := by
    refine GetByTask.step_moved hmax fun e he => ?_
    have hmem : GetByTask.pairOf (sm.shards i) e ∈ found ch sm valid i :=
      hline.1.subset (List.mem_append_right _ (List.mem_map_of_mem he))
    exact found_ne_nil hr hmem
  have hlen : (before ++ after).length + 1 = n := by
    have := congrArg List.length h.ids
    simp only [List.length_map, List.length_append, List.length_cons,
      List.length_finRange] at this ⊢
    omega
  have hover := excess_le (before ++ after)
  have hbefore : GetByTask.Balanced valid.limit count ((before ++ after).map fun t => t.2.taken).sum
      ((before ++ after).map fun t => t.2.excess).sum t := by
    have hcount := h.count
    have hle := h.le
    have hfull := h.full
    simp only [takenAll, excessAll, Pool.total_split] at hcount hle hfull
    exact ⟨hcount, hle, hfull⟩
  obtain ⟨hafter, hstays, hsub, hsame⟩ := hmoved.balanced hbefore (by omega)
  have hlines := h.line
  simp only [takenAll, Pool.total_split] at hlines
  refine ⟨by simpa using h.ids, ?_, ?_, ?_, fun u hu => ?_⟩
  · simp only [takenAll, excessAll, Pool.total_split]
    exact hafter.count
  · simp only [takenAll, Pool.total_split]
    exact hafter.le
  · simp only [takenAll, excessAll, Pool.total_split]
    exact hafter.full
  · simp only [takenAll, Pool.total_split]
    have hcase : u = (i, (t.step (sm.shards i) valid count).1) ∨ u ∈ before ++ (i, t) :: after := by
      simp only [List.mem_append, List.mem_cons] at hu ⊢
      tauto
    rcases hcase with rfl | hu
    · refine ⟨hsub.trans hline.1, ?_⟩
      rcases hsame with hsame | hsame
      · rcases (hlines (i, t) (by simp)).2 with hall | hall
        · exact Or.inl (hstays hall)
        · exact Or.inr (hsame.trans hall)
      · exact Or.inl hsame
    · obtain ⟨hu1, hu2⟩ := hlines u hu
      refine ⟨hu1, ?_⟩
      rcases hu2 with hall | hall
      · exact Or.inl (hstays hall)
      · exact Or.inr hall

lemma start_fair (ch : Choices n) (sm : ShardManager n) (valid : ValidationRule) :
    Fair ch sm valid (getByStart ch sm) := by
  have hzero : ∀ (f : GetByTask → ℕ), (∀ rest found, f (.scanning rest found) = 0) →
      (getByStart ch sm).total (fun t => f t.2) = 0 := by
    intro f hf
    simp [Pool.total, getByStart, hf, Function.comp_def]
  have htaken : takenAll (getByStart ch sm) = 0 := hzero _ fun _ _ => rfl
  have hover : excessAll (getByStart ch sm) = 0 := hzero _ fun _ _ => rfl
  refine ⟨by simp [getByStart, Function.comp_def], ?_, ?_, ?_, fun t ht => ?_⟩
  · rw [htaken, hover]
    rfl
  · rw [htaken]
    exact Nat.zero_le _
  · rw [hover]
    exact fun h => absurd h (lt_irrefl 0)
  · obtain ⟨i, -, rfl⟩ := List.mem_map.mp ht
    have hline : (GetByTask.scanning ((sm.shards i).indexManager.walk (ch.shard i)) []).line
        (sm.shards i) valid =
        found ch sm valid i := rfl
    exact ⟨hline ▸ List.Sublist.refl _, Or.inr hline⟩

lemma steps_fair (hlim : valid.limit + n < 2 ^ 32) (hn : 0 < n) (hr : sm.Readable)
    (hs : Pool.Steps (GetByAct sm valid) (getByStart ch sm) p) : Fair ch sm valid p := by
  induction hs with
  | refl => exact start_fair ch sm valid
  | tail _ hstep ih => exact ih.step hlim hn hr hstep

lemma exists_finished (sm : ShardManager n) (valid : ValidationRule)
    (p : Pool ℕ (Fin n × GetByTask)) :
    ∃ q, Pool.Steps (GetByAct sm valid) p q ∧ Finished q := by
  generalize hm : p.total (fun t => t.2.left) = m
  induction m using Nat.strong_induction_on generalizing p with
  | _ m ih =>
    by_cases hf : Finished p
    · exact ⟨p, .refl, hf⟩
    · simp only [Finished, not_forall, not_not] at hf
      obtain ⟨⟨i, t⟩, ht, hrun⟩ := hf
      obtain ⟨count, threads⟩ := p
      obtain ⟨before, after, rfl⟩ := List.append_of_mem ht
      have hlt := GetByTask.step_left (sm.shards i) valid count hrun
      rw [Pool.total_split] at hm
      obtain ⟨q, hq, hfin⟩ := ih _ (by rw [← hm, Pool.total_split]; exact Nat.add_lt_add_left hlt _)
        ⟨(t.step (sm.shards i) valid count).2,
          before ++ (i, (t.step (sm.shards i) valid count).1) :: after⟩ rfl
      exact ⟨q, .head (.thread before after (.step hrun)) hq, hfin⟩

def foundAll (ch : Choices n) (sm : ShardManager n) (valid : ValidationRule) : List (Key × Value) :=
  (List.finRange n).flatMap (found ch sm valid)

variable (sm valid) in
lemma line_of_finished (hf : Finished p) {t : Fin n × GetByTask} (ht : t ∈ p.threads) :
    t.2.line (sm.shards t.1) valid = t.2.pairs ∧ t.2.taken = t.2.pairs.length := by
  have hrun := hf t ht
  obtain ⟨i, t⟩ := t
  cases t with
  | done pairs => exact ⟨List.append_nil _, rfl⟩
  | _ => exact absurd trivial hrun

lemma flatten_sublist {threads : List (Fin n × GetByTask)}
    (h : ∀ t ∈ threads, t.2.pairs.Sublist (found ch sm valid t.1)) :
    (threads.map fun t => t.2.pairs).flatten.Sublist
    ((threads.map Prod.fst).flatMap (found ch sm valid)) := by
  induction threads with
  | nil => exact .refl _
  | cons t threads ih =>
    exact (h t List.mem_cons_self).append (ih fun u hu => h u (List.mem_cons_of_mem _ hu))

lemma flatten_eq {threads : List (Fin n × GetByTask)}
    (h : ∀ t ∈ threads, t.2.pairs = found ch sm valid t.1) :
    (threads.map fun t => t.2.pairs).flatten =
      (threads.map Prod.fst).flatMap (found ch sm valid) := by
  rw [List.flatMap_def, List.map_map]
  exact congrArg List.flatten (List.map_congr_left h)

lemma Fair.pairs (h : Fair ch sm valid p) (hf : Finished p) :
    (p.threads.map fun t => t.2.pairs).flatten.Sublist (foundAll ch sm valid) ∧
    (p.threads.map fun t => t.2.pairs).flatten.length =
      min valid.limit (foundAll ch sm valid).length := by
  have hsub : (p.threads.map fun t => t.2.pairs).flatten.Sublist (foundAll ch sm valid) := by
    rw [foundAll, ← h.ids]
    exact flatten_sublist fun t ht => (line_of_finished sm valid hf ht).1 ▸ (h.line t ht).1
  refine ⟨hsub, ?_⟩
  have htaken : (p.threads.map fun t => t.2.pairs).flatten.length = takenAll p := by
    rw [List.length_flatten, List.map_map, takenAll, Pool.total]
    exact congrArg List.sum
      (List.map_congr_left fun t ht => (line_of_finished sm valid hf ht).2.symm)
  have hle := h.le
  have hlength := hsub.length_le
  by_cases hall : takenAll p = valid.limit
  · omega
  · have heq : (p.threads.map fun t => t.2.pairs).flatten = foundAll ch sm valid := by
      rw [foundAll, ← h.ids]
      refine flatten_eq fun t ht => ?_
      rw [← (line_of_finished sm valid hf ht).1]
      exact (h.line t ht).2.resolve_left hall
    rw [heq] at htaken ⊢
    omega

lemma getByResult_merge (pf : Platform) (p : Pool ℕ (Fin n × GetByTask)) :
    getByResult pf p = mergeResults ((p.threads.map fun t => t.2.pairs).map (pairsResult pf)) := by
  rw [List.map_map]
  rfl

lemma getByResult_eq (pf : Platform) (p : Pool ℕ (Fin n × GetByTask)) :
    getByResult pf p = ⟨.Success, Shard.dumpArray pf (p.threads.map fun t => t.2.pairs).flatten,
      (p.threads.map fun t => toLongLong t.2.pairs.length).sum⟩ := by
  rw [getByResult_merge, mergeResults_pairs, List.map_map]
  simp only [Function.comp_def]

lemma found_length_le (i : Fin n) :
    (found ch sm valid i).length ≤ (sm.shards i).tree.keys.length := by
  rw [found, List.length_map, matchingEntries]
  refine (List.length_filter_le _ _).trans ((List.length_filter_le _ _).trans ?_)
  rw [← List.length_map (f := IndexEntry.key)]
  refine ((IndexManager.walk_nodup (sm.shards i).indexManager (ch.shard i)).subperm fun k hk =>
    ?_).length_le
  obtain ⟨e, he, rfl⟩ := List.mem_map.mp hk
  obtain ⟨loc, hl, -⟩ := IndexManager.mem_walk.mp he
  exact AList.mem_iff_lookup.mpr ⟨loc, hl⟩

lemma Fair.rows (h : Fair ch sm valid p) (hf : Finished p)
    (hrows : valid.limit < 2 ^ 31 ∨ sm.RowsFit) :
    (p.threads.map fun t => toLongLong t.2.pairs.length).sum =
      (((p.threads.map fun t => t.2.pairs).flatten.length : ℕ) : ℤ) := by
  have hrow : ∀ t ∈ p.threads, toLongLong t.2.pairs.length = (t.2.pairs.length : ℤ) := by
    intro t ht
    obtain ⟨hline, htaken⟩ := line_of_finished sm valid hf ht
    refine toLongLong_of_lt ?_
    rcases hrows with hlim | hfit
    · have hle := h.le
      have hmem : t.2.taken ≤ takenAll p := List.le_sum_of_mem (List.mem_map_of_mem ht)
      omega
    · have hsub := (h.line t ht).1
      rw [hline] at hsub
      exact (hsub.length_le.trans (found_length_le t.1)).trans_lt (hfit t.1)
  rw [List.map_congr_left hrow, List.length_flatten, List.map_map]
  push_cast
  rw [List.map_map]
  rfl

section Answer

variable [NeZero n] {pf : Platform}

def Routed (pf : Platform) (sm : ShardManager n) : Prop := ∀ i k, k ∈ (sm.shards i).tree →
  getShardId pf k = i

def current (pf : Platform) (sm : ShardManager n) (k : Key) : Option Value :=
  let s := sm.shards (getShardId pf k)
  let entry := s.indexManager.search k
  if Shard.live entry then some (s.storageManager.read entry) else none

omit [NeZero n] in
lemma mem_found_iff {i : Fin n} {k : Key} {v : Value} :
    (k, v) ∈ found ch sm valid i ↔ valid.func k = true ∧ ∃ loc, (sm.shards i).tree.lookup k =
      some loc ∧
      Shard.live (toEntry k loc) = true ∧ (sm.shards i).storageManager.read (toEntry k loc) =
        v := by
  simp only [found, List.mem_map, matchingEntries, List.mem_filter, GetByTask.pairOf, Prod.mk.injEq]
  constructor
  · rintro ⟨e, ⟨⟨he, hfunc⟩, hlive⟩, rfl, hv⟩
    obtain ⟨loc, hl, hee⟩ := IndexManager.mem_walk.mp he
    exact ⟨hfunc, loc, hl, hee ▸ hlive, hee ▸ hv⟩
  · rintro ⟨hfunc, loc, hl, hlive, hv⟩
    exact ⟨toEntry k loc, ⟨⟨IndexManager.mem_walk.mpr ⟨loc, hl, rfl⟩, hfunc⟩, hlive⟩, rfl, hv⟩

lemma mem_foundAll_iff (hroute : sm.Routed pf) {k : Key} {v : Value} :
    (k, v) ∈ foundAll ch sm valid ↔ valid.func k = true ∧ current pf sm k = some v := by
  have hcurrent : current pf sm k = some v ↔ ∃ loc, (sm.shards (getShardId pf k)).tree.lookup k =
      some loc ∧ Shard.live (toEntry k loc) = true ∧
      (sm.shards (getShardId pf k)).storageManager.read (toEntry k loc) = v := by
    simp only [current, Shard.search_eq]
    cases hk : (sm.shards (getShardId pf k)).tree.lookup k with
    | none =>
      have hdead : Shard.live IndexEntry.invalid = false := rfl
      simp [hdead]
    | some loc => simp
  rw [hcurrent]
  simp only [foundAll, List.mem_flatMap, List.mem_finRange, true_and, mem_found_iff]
  constructor
  · rintro ⟨i, hfunc, loc, hl, hrest⟩
    obtain rfl := hroute i k
      (AList.lookup_isSome.mp (by rw [show (sm.shards i).tree.lookup k = some loc from hl]; rfl))
    exact ⟨hfunc, loc, hl, hrest⟩
  · rintro ⟨hfunc, hrest⟩
    exact ⟨_, hfunc, hrest⟩

lemma foundAll_nodup (hroute : sm.Routed pf) : ((foundAll ch sm valid).map Prod.fst).Nodup := by
  rw [foundAll, List.map_flatMap]
  refine List.nodup_flatMap.mpr ⟨fun i _ => ?_, (List.nodup_finRange n).imp fun {i j} hij => ?_⟩
  · have hkeys : (found ch sm valid i).map Prod.fst =
        (matchingEntries ch sm valid i).map IndexEntry.key := by
      rw [found, List.map_map]
      rfl
    rw [hkeys]
    exact ((List.filter_sublist.trans List.filter_sublist).map _).nodup
      (IndexManager.walk_nodup _ _)
  · intro k hi hj
    have hshard : ∀ j, k ∈ (found ch sm valid j).map Prod.fst → getShardId pf k = j := by
      intro j hk
      obtain ⟨⟨k, v⟩, hkv, rfl⟩ := List.mem_map.mp hk
      obtain ⟨-, loc, hl, -⟩ := mem_found_iff.mp hkv
      exact hroute j k
        (AList.lookup_isSome.mp (by rw [show (sm.shards j).tree.lookup k = some loc from hl]; rfl))
    exact hij ((hshard i hi).symm.trans (hshard j hj))

def matchingNow (pf : Platform) (sm : ShardManager n) (func : Key → Bool) : Set Key :=
  {k | func k = true ∧ (current pf sm k).isSome}

lemma foundAll_length (hroute : sm.Routed pf) :
    (foundAll ch sm valid).length = (matchingNow pf sm valid.func).ncard := by
  have hset : matchingNow pf sm valid.func = {k | k ∈ (foundAll ch sm valid).map Prod.fst} := by
    ext k
    simp only [matchingNow, Set.mem_ofPred_eq, List.mem_map, Prod.exists, exists_and_right,
      exists_eq_right, mem_foundAll_iff hroute, Option.isSome_iff_exists, exists_and_left]
  rw [hset, Set.ncard, encard_list _ (foundAll_nodup hroute), ENat.toNat_natCast, List.length_map]

/-- In any order of their steps the tasks finish, and then hold as many pairs as the limit asks for,
or all there are. -/
theorem getBy_limited (hq : pf.Quotes) (ch : Choices n) (hroute : sm.Routed pf)
    (hread : sm.Readable) (hlim : valid.limit + n < 2 ^ 32)
    (hrows : valid.limit < 2 ^ 31 ∨ sm.RowsFit)
    (hs : Pool.Steps (GetByAct sm valid) (getByStart ch sm) p) :
    (∃ q, Pool.Steps (GetByAct sm valid) p q ∧ Finished q) ∧
    (Finished p → ∃ text pairs, getByResult pf p = ⟨.Success, text, pairs.length⟩ ∧
      Shard.Shows pf text pairs ∧
      pairs.length = min valid.limit (matchingNow pf sm valid.func).ncard ∧
      (pairs.map Prod.fst).Nodup ∧
      ∀ k v, (k, v) ∈ pairs → valid.func k = true ∧ current pf sm k = some v) := by
  refine ⟨exists_finished sm valid p, fun hf => ⟨_, (p.threads.map fun t => t.2.pairs).flatten, ?_,
    Shard.shows_dumpArray hq _, ?_, ?_, fun k v hkv => ?_⟩⟩
  all_goals
    have hfair : Fair ch sm valid p := steps_fair hlim (Nat.pos_of_ne_zero (NeZero.ne n)) hread hs
    obtain ⟨hsub, hlen⟩ := hfair.pairs hf
  · rw [getByResult_eq, hfair.rows hf hrows]
  · rw [hlen, foundAll_length hroute]
  · exact (hsub.map _).nodup (foundAll_nodup hroute)
  · exact (mem_foundAll_iff hroute).mp (hsub.subset hkv)

lemma Inv.readable (h : sm.Inv pf) : sm.Routed pf ∧ sm.Readable ∧ current pf sm = sm.toMap pf := by
  refine ⟨fun i k hk => h.routed i k ?_, fun i k loc hk _ => ?_, ?_⟩
  · obtain ⟨loc, hl⟩ := AList.mem_iff_lookup.mp hk
    rw [Shard.toMap, show (sm.shards i).tree.lookup k = some loc from hl]
    rfl
  · rw [(h.shard i).read_eq hk]
    exact (h.shard i).slice_ne_nil hk
  · funext k
    simp only [current, Shard.search_eq, toMap, Shard.toMap]
    cases hk : (sm.shards (getShardId pf k)).tree.lookup k with
    | none => rfl
    | some loc => simp [(h.shard _).live_entry hk, (h.shard _).read_eq hk]

end Answer

def byLength : Platform := ⟨List.length, escapeAscii, fun _ => true, fun _ => none, id⟩

def twoShards : ShardManager 2 := (do
  let _ ← set byLength (ascii "a") (ascii "x")
  let _ ← set byLength (ascii "bb") (ascii "y") : Traced (ShardManager 2) Unit)
      (create {} {} {} fun _ => .empty) |>.final

lemma twoShards_inv : twoShards.Inv byLength := by
  obtain ⟨⟨hinv, hu⟩, -⟩ := Op.create_ready byLength ({} : Settings) ({} : Choices 2) {}
  rcases set_spec (ascii "a") (ascii "x") hinv hu ⟨by decide, by decide⟩ (by decide +kernel) with
    ⟨-, -, ha⟩ | ⟨hlt, -, -⟩
  · rcases set_spec (ascii "bb") (ascii "y") ha.inv (ha.kept.uniform hu) ⟨by decide, by decide⟩
      (by decide +kernel) with ⟨-, -, hb⟩ | ⟨hlt, -, -⟩
    · exact hb.inv
    · exact absurd hlt (by decide +kernel)
  · exact absurd hlt (by decide)

theorem twoShards_getBy_limited :
    ∃ p, Pool.Steps (GetByAct twoShards ⟨fun _ => true, 1⟩) (getByStart {} twoShards) p ∧
      Finished p ∧ ∃ text pairs, getByResult byLength p = ⟨.Success, text, pairs.length⟩ ∧
        Shard.Shows byLength text pairs ∧
        pairs.length = min 1 (matchingNow byLength twoShards fun _ => true).ncard ∧
        (pairs.map Prod.fst).Nodup ∧
        ∀ k v, (k, v) ∈ pairs → (true = true) ∧ current byLength twoShards k = some v := by
  obtain ⟨hroute, hread, -⟩ := twoShards_inv.readable
  obtain ⟨p, hs, hf⟩ := exists_finished twoShards ⟨fun _ => true, 1⟩ (getByStart {} twoShards)
  exact ⟨p, hs, hf, (getBy_limited (escapeAscii_quotes rfl) {} hroute hread (by decide)
    (Or.inl (by decide)) hs).2 hf⟩

section Crowded

variable {m : ℕ}

/-- `m` keys of four bytes, all with the first byte of segment 1 as their value. -/
def crowdedTree (m : ℕ) (h : m ≤ 2 ^ 32) : Tree :=
  ⟨(List.range m).map fun i => ⟨leBytes 4 i, ⟨0, 1, 1⟩⟩, by
    have hkeys :
        (((List.range m).map fun i => (⟨leBytes 4 i, ⟨0, 1, 1⟩⟩ : (_ : Key) × Location)).map
          Sigma.fst).Nodup := by
      rw [List.map_map]
      refine List.Nodup.map_on (fun i hi j hj hij => ?_) List.nodup_range
      have hvalue : ∀ i ∈ List.range m, leValue (leBytes 4 i) = i := fun i hi =>
        leValue_leBytes 4 i ((List.mem_range.mp hi).trans_le (h.trans (by norm_num)))
      rw [← hvalue i hi, ← hvalue j hj]
      exact congrArg leValue hij
    exact hkeys⟩

def crowded (m : ℕ) (h : m ≤ 2 ^ 32) : ShardManager 1 where
  settings := {}
  shards _ := ⟨{}, .openWal [], ⟨crowdedTree m h, .ofContent [], false⟩, Op.firstValue (ascii "x"),
    .empty 0⟩
  nextSeq := 0

lemma crowded_lookup (h : m ≤ 2 ^ 32) {i : Fin 1} {k : Key} {loc : Location}
    (hk : ((crowded m h).shards i).tree.lookup k = some loc) : loc = ⟨0, 1, 1⟩ := by
  have hmem := AList.mem_lookup_iff.mp hk
  obtain ⟨j, -, hj⟩ := List.mem_map.mp hmem
  cases hj
  rfl

lemma crowded_readable (h : m ≤ 2 ^ 32) : (crowded m h).Routed Op.oneHash ∧
    (crowded m h).Readable := by
  refine ⟨fun i k _ => Subsingleton.elim _ _, fun i k loc hk _ => ?_⟩
  rw [crowded_lookup h hk]
  have hread : ∀ k, (Op.firstValue (ascii "x")).read (toEntry k ⟨0, 1, 1⟩) = ascii "x" :=
    fun _ => rfl
  exact ne_of_eq_of_ne (hread k) (by decide)

lemma crowded_ncard (h : m ≤ 2 ^ 32) :
    (matchingNow Op.oneHash (crowded m h) fun _ => true).ncard = m := by
  have hset : (matchingNow Op.oneHash (crowded m h) fun _ => true) =
      {k | k ∈ (crowdedTree m h).keys} := by
    ext k
    simp only [matchingNow, true_and, Set.mem_ofPred_eq, current, Shard.search_eq]
    rw [← AList.mem_keys, ← AList.lookup_isSome]
    cases hk : ((crowded m h).shards (getShardId Op.oneHash k)).tree.lookup k with
    | none =>
      rw [show (crowdedTree m h).lookup k = none from hk]
      simp [Shard.live, IndexEntry.invalid, INVALID_SEGMENT_ID]
    | some loc =>
      rw [show (crowdedTree m h).lookup k = some loc from hk, crowded_lookup h hk]
      simp [Shard.live, toEntry, INVALID_SEGMENT_ID]
  rw [hset, Set.ncard, encard_list _ (crowdedTree m h).keys_nodup, ENat.toNat_natCast]
  simp [AList.keys, List.keys, crowdedTree]

variable {p : Pool ℕ (Fin 1 × GetByTask)}

lemma crowded_length (h : m ≤ 2 ^ 32) (hfair : Fair {} (crowded m h) ⟨fun _ => true, m⟩ p)
    (hf : Finished p) :
    (p.threads.map fun t => t.2.pairs).flatten.length = m := by
  have hlen := (hfair.pairs hf).2
  rw [foundAll_length (crowded_readable h).1, crowded_ncard, min_self] at hlen
  exact hlen

lemma single_sum (f : ℕ → ℤ) (hids : p.threads.map Prod.fst = List.finRange 1) :
    (p.threads.map fun t => f t.2.pairs.length).sum =
      f (p.threads.map fun t => t.2.pairs).flatten.length := by
  obtain ⟨t, ht, -⟩ :=
    List.map_eq_singleton_iff.mp (hids.trans (show List.finRange 1 = [0] from rfl))
  rw [ht]
  simp

lemma crowded_rows (h : m ≤ 2 ^ 32) (hlim : m + 1 < 2 ^ 32) :
    ∃ p, Pool.Steps (GetByAct (crowded m h) ⟨fun _ => true, m⟩) (getByStart {} (crowded m h)) p ∧
      Finished p ∧ (getByResult Op.oneHash p).affectedRows = toLongLong m := by
  obtain ⟨p, hs, hf⟩ :=
    exists_finished (crowded m h) ⟨fun _ => true, m⟩ (getByStart {} (crowded m h))
  have hfair : Fair {} (crowded m h) ⟨fun _ => true, m⟩ p :=
    steps_fair hlim one_pos (crowded_readable h).2 hs
  refine ⟨p, hs, hf, ?_⟩
  rw [getByResult_eq]
  exact (single_sum toLongLong hfair.ids).trans (congrArg toLongLong (crowded_length h hfair hf))

theorem crowded_rows_wrong :
    ∃ h : 2 ^ 31 ≤ 2 ^ 32, (crowded (2 ^ 31) h).Routed Op.oneHash ∧ (crowded (2 ^ 31) h).Readable ∧
      (2 ^ 31 + 1 < 2 ^ 32) ∧
      ∃ p, Pool.Steps (GetByAct (crowded (2 ^ 31) h) ⟨fun _ => true, 2 ^ 31⟩)
        (getByStart {} (crowded (2 ^ 31) h)) p ∧
        Finished p ∧ (getByResult Op.oneHash p).affectedRows ≠
          ((min (2 ^ 31) (matchingNow Op.oneHash (crowded (2 ^ 31) h) fun _ => true).ncard : ℕ) :
            ℤ) := by
  have h : 2 ^ 31 ≤ 2 ^ 32 := by decide
  obtain ⟨hroute, hread⟩ := crowded_readable h
  obtain ⟨p, hs, hf, hrows⟩ := crowded_rows h (by decide)
  refine ⟨h, hroute, hread, by decide, p, hs, hf, ?_⟩
  rw [hrows, crowded_ncard, min_self]
  decide

end Crowded

end ShardManager

end Zest
