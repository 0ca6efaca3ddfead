import ZestDB.Shard.Crowded
import ZestDB.Foundations.Pool

/-! Calls of `get` side by side, under the shared lock of a shard, between writers that hold it
alone. -/

namespace Zest.Shard

open Foundations

variable {s t : Shard} {key : Key} {few : Prop}

/-- A call of `get` before each of its steps; it gives the lock back when it is done. -/
inductive Getting where
  | cacheGet (key : Key)
  | search (key : Key)
  | read (entry : IndexEntry)
  | cachePut (entry : IndexEntry) (value : Value)
  | done (result : ResultType)

namespace Getting

def step (s : Shard) : Getting → Getting × Shard
  | .cacheGet key =>
    let r := s.cache.get key
    (if live r.1.index then .done ⟨.Success, r.1.value, 1⟩ else .search key,
      { s with cache := r.2 })
  | .search key =>
    let entry := s.indexManager.search key
    (if live entry then .read entry else .done ⟨.Error, Messages.KEY_NOT_FOUND, 0⟩, s)
  | .read entry =>
    let value := s.storageManager.read entry
    (if value = [] then .done ⟨.Error, Messages.READ_FAILED, 0⟩ else .cachePut entry value, s)
  | .cachePut entry value =>
    (.done ⟨.Success, value, 1⟩, { s with cache := s.cache.put entry value })
  | .done result => (.done result, s)

def locks : Getting → Prop
  | .done _ => False
  | _ => True

def stepFrom (p : Getting × Shard) : Getting × Shard := p.1.step p.2

lemma stepFrom_get (s : Shard) (key : Key) :
    stepFrom (stepFrom (stepFrom (stepFrom (.cacheGet key, s)))) =
      (.done (s.get key).1, (s.get key).2) := by
  by_cases hhit : live (s.cache.get key).1.index = true
  · have hget : stepFrom (.cacheGet key, s) =
        (.done ⟨.Success, (s.cache.get key).1.value, 1⟩,
          { s with cache := (s.cache.get key).2 }) := by
      simp only [stepFrom, step, if_pos hhit]
    rw [hget, Shard.get, if_pos hhit]
    rfl
  · have hget : stepFrom (.cacheGet key, s) =
        (.search key, { s with cache := (s.cache.get key).2 }) := by
      simp only [stepFrom, step, if_neg hhit]
    rw [hget, Shard.get, if_neg hhit]
    by_cases hlive : live (s.indexManager.search key) = true
    · have hsearch : ∀ c, stepFrom (.search key, { s with cache := c }) =
          (.read (s.indexManager.search key), { s with cache := c }) := by
        intro c
        simp only [stepFrom, step, if_pos hlive]
      rw [hsearch, if_pos hlive]
      by_cases hempty : s.storageManager.read (s.indexManager.search key) = []
      · simp only [stepFrom, step, hempty, if_true]
      · simp only [stepFrom, step, hempty, if_false]
    · have hsearch : ∀ c, stepFrom (.search key, { s with cache := c }) =
          (.done ⟨.Error, Messages.KEY_NOT_FOUND, 0⟩, { s with cache := c }) := by
        intro c
        simp only [stepFrom, step, if_neg hlive]
      rw [hsearch, if_neg hlive]
      rfl

def Found (s : Shard) : Getting → Prop
  | .read entry => ∃ loc, s.tree.lookup entry.key = some loc ∧ entry = toEntry entry.key loc
  | .cachePut entry value => ∃ loc, s.tree.lookup entry.key = some loc ∧
      entry = toEntry entry.key loc ∧ s.files.slice loc = value
  | _ => True

lemma step_tree (g : Getting) : (g.step s).2.tree = s.tree ∧ (g.step s).2.files = s.files := by
  cases g <;> exact ⟨rfl, rfl⟩

lemma Found.of_step {g u : Getting} (h : u.Found s) : u.Found (g.step s).2 := by
  obtain ⟨ht, hf⟩ := g.step_tree (s := s)
  cases u with
  | cacheGet key => trivial
  | search key => trivial
  | read entry => simpa only [Found, ht] using h
  | cachePut entry value => simpa only [Found, ht, hf] using h
  | done result => trivial

lemma step_found (h : s.Inv) {g : Getting} (hg : g.Found s) : (g.step s).1.Found (g.step s).2 := by
  refine Found.of_step ?_
  cases g with
  | cacheGet key =>
    simp only [step]
    split_ifs <;> trivial
  | search key =>
    simp only [step]
    split_ifs with hlive
    · rw [search_eq] at hlive ⊢
      cases hk : s.tree.lookup key with
      | none =>
        rw [hk] at hlive
        cases hlive
      | some loc => exact ⟨loc, hk, rfl⟩
    · trivial
  | read entry =>
    obtain ⟨loc, hk, he⟩ := hg
    simp only [step]
    split_ifs
    · trivial
    · refine ⟨loc, hk, he, ?_⟩
      rw [he]
      exact (h.read_eq hk).symm
  | cachePut entry value => trivial
  | done result => trivial

lemma step_sound (h : s.Sound) {g : Getting} (hg : g.Found s) : (g.step s).2.Sound := by
  have hpath : Path (fun _ _ => False) (fun _ => False) s (g.step s).2 := by
    cases g with
    | cacheGet key => exact .single (recache_get h.inv key)
    | search key => exact .refl
    | read entry => exact .refl
    | cachePut entry value =>
      obtain ⟨loc, hk, he, hv⟩ := hg
      refine .single (.recache (LRUCache.put_wf h.inv.cache entry value) fun k ce hf => ?_)
      rcases LRUCache.put_find h.inv.cache hf with ⟨rfl, rfl⟩ | ⟨-, hf⟩
      · refine Or.inr ⟨?_, loc, hk, hv⟩
        rw [he]
        exact h.inv.live_entry hk
      · exact Or.inl hf
    | done result => exact .refl
  exact h.path hpath fun _ _ hf => hf.elim

end Getting

inductive Exclusive where
  | set (key : Key) (value : Value)
  | del (key : Key)
  | setBy (ch : Choice) (valid : ValidationRule) (value : Value) (count : Option ℕ)
  | delBy (ch : Choice) (valid : ValidationRule) (count : Option ℕ)
  | compact (ch : Choice)
  | flush (ch : Choice)
  | reloadSettings (settings : Settings)

namespace Exclusive

def run : Exclusive → Traced Shard Unit
  | .set key value => do
    let _ ← Shard.set key value
  | .del key => do
    let _ ← Shard.del key
  | .setBy ch valid value count => do
    let _ ← Shard.setBy ch valid value count
  | .delBy ch valid count => do
    let _ ← Shard.delBy ch valid count
  | .compact ch => compactorPass ch
  | .flush ch => flushData ch
  | .reloadSettings settings => .step (Shard.reloadSettings settings)

def Checked : Exclusive → Prop
  | .set key value => key.length ≤ MAX_KEY_SIZE ∧ ValueOk value
  | .setBy _ _ value _ => ValueOk value
  | _ => True

def Lists (s : Shard) : Exclusive → Prop
  | .compact _ => s.FewKeys
  | _ => True

lemma run_sound {op : Exclusive} (h : s.Sound) (hop : op.Checked) (hl : op.Lists s)
    (hw : Traced.Within Bounded op.run s) :
    Traced.Within Sound op.run s := by
  cases op with
  | set key value => exact (set_sound h hop.2 hop.1 hw.bind_left).bind_pure set_tracked _
  | del key => exact (del_sound h key).bind_pure del_tracked _
  | setBy ch valid value count => exact (setBy_sound h hop hw.bind_left).bind_pure setBy_tracked _
  | delBy ch valid count => exact (delBy_sound h).bind_pure delBy_tracked _
  | compact ch => exact compactorPass_sound h hl hw
  | flush ch => exact flushData_sound h
  | reloadSettings settings =>
    intro u hu
    rcases List.mem_cons.mp hu with rfl | hu
    · exact h
    · obtain rfl := List.mem_singleton.mp hu
      exact h.reloadSettings settings

end Exclusive

/-- A client of the shard: it calls `get`, goes on with a call, or runs an operation when nobody
holds the lock. With `few`, a compaction lists every key. -/
inductive Act (few : Prop) : Pool.Action Shard Getting
  | call {others s result} (key : Key) : Act few others s (.done result) s (.cacheGet key)
  | get {others s g} : g.locks → Act few others s g (g.step s).2 (g.step s).1
  | exclusive {others s result} (op : Exclusive) : (∀ u ∈ others, ¬ u.locks) → op.Checked →
      (few → op.Lists s) → Traced.Within Bounded op.run s →
        Act few others s (.done result) (op.run s).final (.done result)

lemma Exclusive.run_tracked (op : Exclusive) : Traced.Tracked op.run := by
  cases op with
  | set key value => exact .bind set_tracked fun _ => .pure _
  | del key => exact .bind del_tracked fun _ => .pure _
  | setBy ch valid value count => exact .bind setBy_tracked fun _ => .pure _
  | delBy ch valid count => exact .bind delBy_tracked fun _ => .pure _
  | compact ch => exact compactorPass_tracked
  | flush ch => exact flushData_tracked
  | reloadSettings settings => exact .step _

lemma act_keeps : Pool.Keeps (Act True) Sound Getting.Found := by
  intro others s g s' g' hact h hg hothers
  cases hact with
  | call key => exact ⟨h, trivial, hothers⟩
  | get _ => exact ⟨Getting.step_sound h hg, Getting.step_found h.inv hg,
      fun u hu => (hothers u hu).of_step⟩
  | exclusive op hfree hop hl hw =>
    refine ⟨(Exclusive.run_sound h hop (hl trivial) hw).final op.run_tracked, trivial,
      fun u hu => ?_⟩
    -- a client that holds no lock has found nothing it still relies on
    cases u with
    | done result => trivial
    | _ => exact absurd trivial (hfree _ hu)

/-- The states of a shard and its clients, from a directory without files, over crashes and
restarts. With `few`, each compaction of the shard, by the compactor or by a constructor, lists
every key. -/
inductive Reached (few : Prop) : Pool Shard Getting → Prop
  | new (settings : Settings) (ch fill : Choice) (clients : List ResultType) :
      Reached few ⟨reopen settings ch fill .empty, clients.map .done⟩
  | step {p q} : Reached few p → Pool.Step (Act few) p q → Reached few q
  | restart {p t disk} (op : Exclusive) (settings : Settings) (ch fill : Choice)
      (clients : List ResultType) :
      Reached few p → op.Checked → (few → op.Lists p.shared) →
        Traced.Within Bounded op.run p.shared →
      t ∈ p.shared :: (op.run p.shared).visited → t.Crash disk → (few → disk.FewKeys) →
      Reached few ⟨reopen settings ch fill disk, clients.map .done⟩

lemma Reached.holds {p : Pool Shard Getting} (h : Reached True p) :
    p.Holds Sound Getting.Found := by
  have hdone : ∀ (s : Shard) (clients : List ResultType), ∀ g ∈ clients.map Getting.done,
      g.Found s := by
    intro s clients g hg
    obtain ⟨result, -, rfl⟩ := List.mem_map.mp hg
    trivial
  induction h with
  | new settings ch fill clients => exact ⟨reopen_sound settings ch fill empty_ok, hdone _ _⟩
  | step _ hstep ih => exact act_keeps.step hstep ih
  | restart op settings ch fill clients _ hop hl hw ht hc hfew ih =>
    have hsound := Exclusive.run_sound ih.shared hop (hl trivial) hw _ ht
    exact ⟨reopen_sound settings ch fill (hc.disk_ok hsound.logged (hfew trivial)), hdone _ _⟩

/-- Whatever is in the cache is what the index and the segments say, so that `get` answers as it
would with an empty cache. -/
def Transparent (s : Shard) : Prop :=
  (∀ key ce, s.cache.find key = some ce →
    live (s.indexManager.search key) = true ∧ s.storageManager.read (s.indexManager.search key) =
      ce.value) ∧
  ∀ key cap, (s.get key).1 = (get { s with cache := .empty cap } key).1

/-- While every compaction lists every key, the cache is transparent. -/
theorem cache_transparent {p : Pool Shard Getting} (h : Reached True p) : p.shared.Transparent := by
  have hinv := h.holds.shared.inv
  refine ⟨fun key ce hc => ?_, fun key cap => ?_⟩
  · obtain ⟨-, loc, hk, hs⟩ := hinv.cached key ce hc
    rw [search_eq, hk]
    exact ⟨hinv.live_entry hk, (hinv.read_eq hk).trans hs⟩
  · have hempty : ({ p.shared with cache := .empty cap } : Shard).Inv :=
      hinv.recache (LRUCache.empty_wf cap) fun k ce hf => by simp at hf
    rw [(get_spec (A := fun _ _ => False) (B := fun _ => False) hinv key).1,
      (get_spec (A := fun _ _ => False) (B := fun _ => False) hempty key).1]
    rfl

lemma Reached.first {g g' : Getting} {rest : List Getting} (h : Reached few ⟨s, g :: rest⟩)
    (hact : Act few rest s g t g') :
    Reached few ⟨t, g' :: rest⟩ :=
  h.step (.thread [] rest hact)

lemma Reached.second {g g' o : Getting} (h : Reached few ⟨s, [o, g]⟩)
    (hact : Act few [o] s g t g') : Reached few ⟨t, [o, g']⟩ :=
  h.step (.thread [o] [] hact)

def uncached : Shard :=
  ((do
    Exclusive.run (.set (ascii "a") (ascii "x"))
    Exclusive.run (.reloadSettings { CacheSize := 0 })
    Exclusive.run (.reloadSettings { CacheSize := 1 }) : Traced Shard Unit)
    (reopen {} .plain .plain .empty)).final

lemma uncached_reached (result : ResultType) :
    Reached few ⟨uncached, [.done result, .done result]⟩ := by
  have hfree : ∀ u ∈ [Getting.done result], ¬ u.locks := by
    intro u hu
    obtain rfl := List.mem_singleton.mp hu
    exact not_false
  have hnew : Reached few ⟨_, [.done result, .done result]⟩ :=
    .new {} .plain .plain [result, result]
  have hset := hnew.first
    (.exclusive (.set (ascii "a") (ascii "x")) hfree ⟨by decide, by decide, by decide⟩
      (fun _ => trivial) (by decide +kernel))
  have hzero := hset.first
    (.exclusive (.reloadSettings { CacheSize := 0 }) hfree trivial (fun _ => trivial)
      (by decide +kernel))
  exact hzero.first (.exclusive (.reloadSettings { CacheSize := 1 }) hfree trivial
    (fun _ => trivial) (by decide +kernel))

def inTurn : List Bool → Pool Shard Getting → Pool Shard Getting
  | true :: turns, ⟨s, g :: rest⟩ => inTurn turns ⟨(g.step s).2, (g.step s).1 :: rest⟩
  | false :: turns, ⟨s, [o, g]⟩ => inTurn turns ⟨(g.step s).2, [o, (g.step s).1]⟩
  | _, p => p

lemma Reached.stepped {g : Getting} {rest : List Getting} (h : Reached few ⟨s, g :: rest⟩) :
    Reached few ⟨(g.step s).2, (g.step s).1 :: rest⟩ := by
  cases g with
  | done result => exact h
  | _ => exact h.first (.get trivial)

lemma Reached.inTurn {turns : List Bool} {p : Pool Shard Getting} (h : Reached few p) :
    Reached few (inTurn turns p) := by
  fun_induction Shard.inTurn turns p with
  | case1 s turns g rest ih => exact ih h.stepped
  | case2 s turns o g ih =>
    refine ih ?_
    cases g with
    | done result => exact h
    | _ => exact h.second (.get trivial)
  | case3 => exact h

def overlapping : Pool Shard Getting :=
  inTurn [true, false, false, true, true, false, true, false]
  ⟨uncached, [.cacheGet (ascii "a"), .cacheGet (ascii "a")]⟩

theorem overlapping_transparent :
    live (overlapping.shared.indexManager.search (ascii "a")) = true ∧
    overlapping.shared.storageManager.read (overlapping.shared.indexManager.search (ascii "a")) =
      ascii "x" := by
  have hstart : Reached True ⟨uncached, [.done ⟨.Success, [], 0⟩, .done ⟨.Success, [], 0⟩]⟩ :=
    uncached_reached _
  have hcalls := (hstart.first (.call (ascii "a"))).second (.call (ascii "a"))
  have hfind : (overlapping.shared.cache.find (ascii "a")).map CacheEntry.value =
      some (ascii "x") := by decide +kernel
  obtain ⟨ce, hce, hv⟩ := Option.map_eq_some_iff.mp hfind
  rw [← hv]
  exact (cache_transparent hcalls.inTurn).1 _ ce hce

section ManyKeys

def after (ops : List Exclusive) (s : Shard) : Shard := ops.foldl (fun s op => (op.run s).final) s

lemma after_snoc (ops : List Exclusive) (op : Exclusive) (s : Shard) :
    after (ops ++ [op]) s = (op.run (after ops s)).final := by
  rw [after, List.foldl_append]
  rfl

def filled (keys : List Key) : Shard :=
  after (keys.map fun key => .set key oneByte) (reopen roomy .plain .plain .empty)

variable {keys : List Key} {result : ResultType}

lemma Reached.alone (h : Reached few ⟨s, [.done result]⟩) (op : Exclusive) (hop : op.Checked)
    (hl : few → op.Lists s)
    (hw : Traced.Within Bounded op.run s) : Reached few ⟨(op.run s).final, [.done result]⟩ :=
  h.first (.exclusive op (by simp) hop hl hw)

lemma filled_reached (result : ResultType) (hkey : ∀ k ∈ keys, k.length ≤ MAX_KEY_SIZE)
    (hlen : keys.length < 2 ^ 33) :
    (∀ few : Prop, Reached few ⟨filled keys, [.done result]⟩) ∧ (filled keys).settings = roomy ∧
    Filling (filled keys) keys := by
  induction keys using List.reverseRecOn with
  | nil => exact ⟨fun few => .new roomy .plain .plain [result], rfl, filling_nil⟩
  | append_singleton keys key ih =>
    rw [List.length_append, List.length_singleton] at hlen
    obtain ⟨hreached, hsettings, hfilling⟩ :=
      ih (fun k hk => hkey k (List.mem_append_left _ hk)) (by omega)
    have hfilled : filled (keys ++ [key]) =
        (Exclusive.run (.set key oneByte) (filled keys)).final := by
      rw [filled, List.map_append]
      exact after_snoc _ _ _
    have hsound := (hreached True).holds.shared
    obtain ⟨hw, -, hsame, hnext⟩ :=
      hfilling.set hsound.inv.storage (by rw [hsettings]; exact (by omega : keys.length < 2 ^ 33))
      (by rw [hsettings]; decide) key
    rw [hfilled]
    refine ⟨fun few => ?_, hsame.trans hsettings, hnext⟩
    exact (hreached few).alone (.set key oneByte) ⟨hkey key (by simp), by decide, by decide⟩
      (fun _ => trivial) (hw.bind_pure set_tracked _)

/-- `last` gets a segment of its own, and a pass of the compactor comes to it at the end. -/
def forgetful (keys : List Key) (last : Key) : Shard :=
  after [.reloadSettings { SegSize := 2, MaxValueSize := 1 }, .set last oneByte,
    .compact (lastly last)] (filled keys)

lemma forgetful_spec {last : Key} (hn : keys.Nodup) (hkey : ∀ k ∈ keys, k.length ≤ MAX_KEY_SIZE)
    (hmany : UINT_MAX ≤ keys.length)
    (hlen : keys.length < 2 ^ 33) (hnot : last ∉ keys) (hlast : last.length ≤ MAX_KEY_SIZE) :
    Reached False ⟨forgetful keys last, [.done result]⟩ ∧ ¬ (forgetful keys last).Transparent := by
  obtain ⟨hreached, hsettings, hfilling⟩ := filled_reached result hkey hlen
  obtain ⟨tight, htight⟩ : ∃ tight : Shard, tight =
      Shard.reloadSettings { SegSize := 2, MaxValueSize := 1 } (filled keys) := ⟨_, rfl⟩
  have hbounded : Bounded (filled keys) :=
    ⟨hfilling.storage_limits (by omega), by rw [hsettings]; decide⟩
  have hreload : Traced.Within Bounded
      (Exclusive.run (.reloadSettings { SegSize := 2, MaxValueSize := 1 })) (filled keys) := by
    intro u hu
    rcases List.mem_cons.mp hu with rfl | hu
    · exact hbounded
    · obtain rfl := List.mem_singleton.mp hu
      exact ⟨hbounded.storage, show 2 < 2 ^ 64 by decide⟩
  have htight_reached : ∀ few : Prop, Reached few ⟨tight, [.done result]⟩ := fun few =>
    htight ▸ (hreached few).alone (.reloadSettings { SegSize := 2, MaxValueSize := 1 }) trivial
    (fun _ => trivial) hreload
  have htight_filling : Filling tight keys := by
    rw [htight]
    exact ⟨hfilling.latest, hfilling.segment, hfilling.only, hfilling.tree, hfilling.all⟩
  have hcap : tight.cache.capacity ≠ 0 := by
    rw [htight, Shard.reloadSettings, LRUCache.resize, LRUCache.evictWhileOver_capacity]
    exact (by decide : Settings.CacheSize { SegSize := 2, MaxValueSize := 1 } ≠ 0)
  have hne : 2 ≤ keys.length := le_trans (by decide) hmany
  obtain ⟨hset, hsame, hapart⟩ :=
    htight_filling.next (htight_reached True).holds.shared.inv.storage (by rw [htight]; rfl)
    hne (by omega) hcap last
  obtain ⟨t, ht⟩ : ∃ t, t = (Shard.set last oneByte tight).final := ⟨_, rfl⟩
  rw [← ht] at hapart hsame
  obtain ⟨hpass, hcache, htree, hgone⟩ := hapart.pass (by rw [hsame, htight]; rfl) hn hmany hnot
  have hend : forgetful keys last = (compactorPass (lastly last) t).final := by
    rw [ht, htight]
    rfl
  have hset_reached : Reached False ⟨t, [.done result]⟩ :=
    ht ▸ (htight_reached False).alone (.set last oneByte)
    ⟨hlast, by decide, by decide⟩ (fun _ => trivial) (hset.bind_pure set_tracked _)
  rw [hend]
  refine ⟨hset_reached.alone (.compact (lastly last)) trivial False.elim hpass, fun h => ?_⟩
  obtain ⟨ce, hce, hvalue⟩ := hapart.cached
  obtain ⟨-, hread⟩ := h.1 last ce (by rw [hcache]; exact hce)
  rw [search_eq, htree, hvalue] at hread
  simp only [Option.map_some, Option.getD_some, StorageManager.read, toEntry, hgone] at hread
  cases hread

/-- With one key more than `getAll` hands over, a pass removes the segment of a value that is still
cached. -/
theorem forgetful_not_transparent :
    Reached False ⟨forgetful IndexManager.manyKeys (ascii "a"), [.done ⟨.Success, [], 0⟩]⟩ ∧
      ¬ (forgetful IndexManager.manyKeys (ascii "a")).Transparent := by
  have hlen := IndexManager.manyKeys_length
  refine forgetful_spec IndexManager.manyKeys_nodup (fun k hk => ?_) ?_ ?_ (fun hmem => ?_)
    (by decide)
  · rw [IndexManager.length_of_mem_manyKeys hk]
    decide
  · rw [hlen]
    decide
  · rw [hlen]
    decide
  · have hle : (128 : Byte) ≤ 97 := IndexManager.le_of_mem_manyKeys hmem (by decide)
    exact absurd hle (by decide)

end ManyKeys

end Zest.Shard
