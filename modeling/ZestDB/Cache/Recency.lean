import ZestDB.Cache.WellFormed
import ZestDB.Foundations.MoveToFront

/-! The cache against a list in the order of the last use, over all histories of its operations. -/

namespace Zest.LRUCache

open Foundations

inductive Use where
  | get (key : Key)
  | put (entry : IndexEntry) (value : Value)
  | remove (key : Key)
  | resize (cap : ℕ)

/-- What the call answers, if it is a `get`, and the cache after it. -/
def step (c : LRUCache) : Use → Option CacheEntry × LRUCache
  | .get key => (some (c.get key).1, (c.get key).2)
  | .put entry value => (none, c.put entry value)
  | .remove key => (none, c.remove key)
  | .resize cap => (none, c.resize cap)

def run (c : LRUCache) : List Use → List (Option CacheEntry) × LRUCache
  | [] => ([], c)
  | u :: us => ((c.step u).1 :: ((c.step u).2.run us).1, ((c.step u).2.run us).2)

def listStep (m : MoveToFront Key CacheEntry) : Use → Option CacheEntry × MoveToFront Key CacheEntry
  | .get key => (some ((m.lookup key).getD ⟨.invalid, []⟩), m.get key)
  | .put entry value => (none, m.put entry.key ⟨entry, value⟩)
  | .remove key => (none, m.remove key)
  | .resize cap => (none, m.resize cap)

def listRun (m : MoveToFront Key CacheEntry) :
    List Use → List (Option CacheEntry) × MoveToFront Key CacheEntry
  | [] => ([], m)
  | u :: us => ((listStep m u).1 :: (listRun (listStep m u).2 us).1,
      (listRun (listStep m u).2 us).2)

def putNow (key : Key) (last : Option CacheEntry) : Use → Option CacheEntry
  | .put entry value => if entry.key = key then some ⟨entry, value⟩ else last
  | _ => last

def lastPut (key : Key) (us : List Use) : Option CacheEntry := us.foldl (putNow key) none

def keys (c : LRUCache) : List Key := c.lru_list.map Prod.snd

structure Shows (c : LRUCache) (m : MoveToFront Key CacheEntry) : Prop where
  wf : c.Wf
  capacity : c.capacity = m.capacity
  keys : c.keys = m.entries.map Prod.fst
  values : ∀ k ce, c.find k = some ce → (k, ce) ∈ m.entries

variable {c : LRUCache} {m : MoveToFront Key CacheEntry} {key k : Key} {ce : CacheEntry} {node : ℕ}

lemma Linked.mem_keys (h : Linked c) : k ∈ c.keys ↔ (c.find k).isSome = true := by
  rw [keys, h.keys_perm.mem_iff, ← AList.mem_keys, ← AList.lookup_isSome, find, Option.isSome_map]

lemma Wf.keys_length (h : c.Wf) : c.keys.length = c.map.keys.length ∧
    c.keys.length ≤ c.capacity := by
  have hlen : c.keys.length = c.map.keys.length := by
    rw [LRUCache.keys, List.length_map, h.linked.length_eq]
  exact ⟨hlen, hlen.trans_le h.size⟩

lemma Shows.nodup (h : c.Shows m) : (m.entries.map Prod.fst).Nodup := by
  rw [← h.keys]
  exact h.wf.linked.keys_nodup

lemma Shows.lookup (h : c.Shows m) (k : Key) : c.find k = m.lookup k := by
  cases hf : c.find k with
  | some ce => exact (MoveToFront.lookup_eq_some h.nodup (h.values k ce hf)).symm
  | none =>
    refine (MoveToFront.lookup_eq_none ?_).symm
    rw [← h.keys, h.wf.linked.mem_keys, hf]
    simp

lemma Linked.eraseNode_keys (h : Linked c) (hk : c.map.lookup key = some (ce, node)) :
    (LRUCache.eraseNode c.lru_list node).map Prod.snd = c.keys.filter (· ≠ key) := by
  rw [keys, List.filter_map, LRUCache.eraseNode]
  congr 1
  apply List.filter_congr
  rintro ⟨m, a⟩ hp
  have hnode := (h.mem node key).mpr ⟨by simp, ce, hk⟩
  obtain ⟨-, ce', hm⟩ := (h.mem m a).mp hp
  simp only [Function.comp, decide_eq_decide, not_iff_not]
  constructor
  · rintro rfl
    exact congrArg Prod.snd (List.inj_on_of_nodup_map h.nodes hp hnode rfl)
  · rintro rfl
    rw [hk] at hm
    simp_all

lemma evict_keys (c : LRUCache) : c.evict.keys = c.keys.dropLast := by
  simp only [evict, keys]
  cases hl : c.lru_list.getLast? with
  | none => simp [List.getLast?_eq_none_iff.mp hl]
  | some last => exact List.map_dropLast

lemma evictWhileOver_keys (fuel : ℕ) (h : Linked c) (hf : c.map.keys.length ≤ fuel + c.capacity) :
    (evictWhileOver fuel c).keys = c.keys.take c.capacity := by
  have hlen : c.keys.length = c.map.keys.length := by rw [keys, List.length_map, h.length_eq]
  induction fuel generalizing c with
  | zero =>
    rw [List.take_of_length_le (by omega)]
    rfl
  | succ fuel ih =>
    simp only [evictWhileOver]
    split_ifs with ho
    · have hsize := evict_size h (by omega)
      have hlen' : c.evict.keys.length = c.evict.map.keys.length := by
        rw [keys, List.length_map, h.evict.length_eq]
      rw [ih h.evict (by rw [hsize, evict_capacity]; omega) hlen', evict_keys, evict_capacity,
        List.dropLast_eq_take, List.take_take, min_eq_left (by omega)]
    · rw [List.take_of_length_le (by omega)]

lemma Shows.of_cut {c' : LRUCache} {entries : List (Key × CacheEntry)} (hwf : c'.Wf)
    (hcapacity : c'.capacity = m.capacity) (hnodup : (entries.map Prod.fst).Nodup)
    (hkeys : c'.keys = (entries.map Prod.fst).take m.capacity)
    (hvalues : ∀ k ce, c'.find k = some ce → (k, ce) ∈ entries) :
    c'.Shows (MoveToFront.cut { m with entries := entries }) := by
  refine ⟨hwf, hcapacity, by rw [hkeys, MoveToFront.cut, List.map_take], fun k ce hf => ?_⟩
  apply MoveToFront.mem_take hnodup (hvalues k ce hf)
  rw [List.map_take, ← hkeys, hwf.linked.mem_keys, hf]
  rfl

lemma Shows.front_keys (h : c.Shows m) (key : Key) (ce : CacheEntry) :
    (((key, ce) :: MoveToFront.without key m.entries).map Prod.fst) =
      key :: c.keys.filter (· ≠ key) := by
  rw [List.map_cons, MoveToFront.without_keys, h.keys]

lemma Shows.get (h : c.Shows m) (key : Key) : (c.get key).2.Shows (m.get key) := by
  have hwf := get_wf h.wf key
  have hlookup := h.lookup key
  have hfind := get_find c key
  cases hk : c.map.lookup key with
  | none =>
    have hsame : (c.get key).2 = c := by simp only [LRUCache.get, hk]
    rw [find, hk, Option.map_none] at hlookup
    rw [hsame, MoveToFront.get, ← hlookup]
    exact h
  | some p =>
    obtain ⟨ce, node⟩ := p
    rw [find, hk, Option.map_some] at hlookup
    have hkeys : (c.get key).2.keys = key :: c.keys.filter (· ≠ key) := by
      rw [← h.wf.linked.eraseNode_keys hk]
      simp only [LRUCache.get, hk]
      rfl
    have hcapacity : (c.get key).2.capacity = m.capacity := by
      rw [← h.capacity]
      simp only [LRUCache.get, hk]
      rfl
    have hlen := hwf.keys_length.2
    rw [MoveToFront.get, ← hlookup]
    apply Shows.of_cut hwf hcapacity (MoveToFront.nodup_front h.nodup key ce)
    · rw [h.front_keys, ← hkeys, ← hcapacity, List.take_of_length_le hlen]
    · intro k ce' hf
      rw [hfind] at hf
      by_cases hkk : k = key
      · subst hkk
        rw [find, hk] at hf
        rw [← Option.some.inj hf]
        exact List.mem_cons_self
      · exact List.mem_cons_of_mem _ (MoveToFront.mem_without (h.values k ce' hf) hkk)

lemma put_capacity (c : LRUCache) (entry : IndexEntry) (value : Value) :
    (c.put entry value).capacity = c.capacity := by
  simp only [LRUCache.put]
  split_ifs with hz hfull
  · rfl
  · cases c.map.lookup entry.key with
    | some p => rfl
    | none => exact evict_capacity
  · cases c.map.lookup entry.key with
    | some p => rfl
    | none => rfl

lemma put_keys (h : c.Wf) (entry : IndexEntry) (value : Value) :
    (c.put entry value).keys = (entry.key :: c.keys.filter (· ≠ entry.key)).take c.capacity := by
  obtain ⟨hlen, hle⟩ := h.keys_length
  simp only [LRUCache.put]
  by_cases hz : c.capacity = 0
  · rw [if_pos hz, hz, List.take_zero]
    exact List.eq_nil_of_length_eq_zero (by omega)
  · rw [if_neg hz]
    cases hk : c.map.lookup entry.key with
    | some p =>
      obtain ⟨ce, node⟩ := p
      have hwf := put_wf h entry value
      have hkeys : (c.put entry value).keys = entry.key :: c.keys.filter (· ≠ entry.key) := by
        rw [← h.linked.eraseNode_keys hk]
        simp only [LRUCache.put, if_neg hz, hk]
        rfl
      have hput := hwf.keys_length.2
      rw [hkeys, put_capacity] at hput
      rw [List.take_of_length_le hput, ← hkeys]
      simp only [LRUCache.put, if_neg hz, hk]
    | none =>
      have habsent : c.keys.filter (· ≠ entry.key) = c.keys := by
        apply List.filter_eq_self.mpr
        intro k hmem
        have hsome := h.linked.mem_keys.mp hmem
        simp only [ne_eq, decide_not, Bool.not_eq_true', decide_eq_false_iff_not]
        rintro rfl
        simp [find, hk] at hsome
      obtain ⟨room, hroom⟩ := Nat.exists_eq_succ_of_ne_zero hz
      rw [habsent]
      by_cases hfull : c.map.keys.length ≥ c.capacity
      · have hlast : c.keys.length - 1 = room := by omega
        simp only [if_pos hfull]
        change entry.key :: c.evict.keys = _
        rw [evict_keys, hroom, List.take_succ_cons, List.dropLast_eq_take, hlast]
      · simp only [if_neg hfull]
        change entry.key :: c.keys = _
        rw [List.take_of_length_le (by rw [List.length_cons]; omega)]

lemma Shows.put (h : c.Shows m) (entry : IndexEntry) (value : Value) :
    (c.put entry value).Shows (m.put entry.key ⟨entry, value⟩) := by
  apply Shows.of_cut (put_wf h.wf entry value) ((put_capacity c entry value).trans h.capacity)
    (MoveToFront.nodup_front h.nodup _ _)
  · rw [h.front_keys, ← h.capacity, put_keys h.wf]
  · intro k ce hf
    rcases put_find h.wf hf with ⟨rfl, rfl⟩ | ⟨hne, hf⟩
    · exact List.mem_cons_self
    · exact List.mem_cons_of_mem _ (MoveToFront.mem_without (h.values k ce hf) hne)

lemma Shows.remove (h : c.Shows m) (key : Key) : (c.remove key).Shows (m.remove key) := by
  have hwf := remove_wf h.wf key
  have hkeys : (c.remove key).keys = c.keys.filter (· ≠ key) := by
    simp only [LRUCache.remove]
    cases hk : c.map.lookup key with
    | none =>
      refine (List.filter_eq_self.mpr fun k hk' => ?_).symm
      have hsome := h.wf.linked.mem_keys.mp hk'
      simp only [ne_eq, decide_not, Bool.not_eq_true', decide_eq_false_iff_not]
      rintro rfl
      simp [find, hk] at hsome
    | some p =>
      obtain ⟨ce, node⟩ := p
      exact h.wf.linked.eraseNode_keys hk
  refine ⟨hwf, ?_, ?_, fun k ce hf => ?_⟩
  · change (c.remove key).capacity = m.capacity
    rw [← h.capacity]
    simp only [LRUCache.remove]
    cases c.map.lookup key <;> rfl
  · rw [hkeys, h.keys, MoveToFront.remove, MoveToFront.without_keys]
  · obtain ⟨hne, hf⟩ := remove_find hf
    exact MoveToFront.mem_without (h.values k ce hf) hne

lemma evictWhileOver_capacity (fuel : ℕ) (c : LRUCache) :
    (evictWhileOver fuel c).capacity = c.capacity := by
  induction fuel generalizing c with
  | zero => rfl
  | succ fuel ih =>
    simp only [evictWhileOver]
    split_ifs
    · rw [ih, evict_capacity]
    · rfl

lemma Shows.resize (h : c.Shows m) (cap : ℕ) : (c.resize cap).Shows (m.resize cap) := by
  have hlinked : Linked { c with capacity := cap } :=
    ⟨h.wf.linked.nodes, h.wf.linked.mem, h.wf.linked.fresh⟩
  have hlen := h.wf.linked.length_eq
  have hkeys : (c.resize cap).keys = c.keys.take cap :=
    evictWhileOver_keys _ hlinked (by simp only [hlen]; omega)
  apply Shows.of_cut (m := { m with capacity := cap }) (resize_wf h.wf cap)
    (evictWhileOver_capacity _ _) h.nodup
  · rw [hkeys, h.keys]
  · exact fun k ce hf => h.values k ce (resize_find hf)

lemma Shows.step (h : c.Shows m) (u : Use) : (c.step u).1 = (listStep m u).1 ∧
    (c.step u).2.Shows (listStep m u).2 := by
  cases u with
  | get key =>
    refine ⟨?_, h.get key⟩
    rw [LRUCache.step, listStep, get_val, h.lookup key]
  | put entry value => exact ⟨rfl, h.put entry value⟩
  | remove key => exact ⟨rfl, h.remove key⟩
  | resize cap => exact ⟨rfl, h.resize cap⟩

lemma Shows.run (h : c.Shows m) (us : List Use) : (c.run us).1 = (listRun m us).1 ∧
    (c.run us).2.Shows (listRun m us).2 := by
  induction us generalizing c m with
  | nil => exact ⟨rfl, h⟩
  | cons u us ih =>
    obtain ⟨hanswer, hnext⟩ := h.step u
    obtain ⟨hanswers, hrest⟩ := ih hnext
    rw [LRUCache.run, listRun, hanswer, hanswers]
    exact ⟨rfl, hrest⟩

lemma step_last (h : c.Wf) {last : Option CacheEntry}
    (hlast : ∀ ce, c.find k = some ce → last = some ce) (u : Use) :
    ∀ ce, (c.step u).2.find k = some ce → putNow k last u = some ce := by
  intro ce hf
  cases u with
  | get key =>
    change (c.get key).2.find k = some ce at hf
    rw [get_find] at hf
    exact hlast ce hf
  | put entry value =>
    rcases put_find h hf with ⟨rfl, rfl⟩ | ⟨hne, hf⟩
    · exact if_pos rfl
    · exact (if_neg hne.symm).trans (hlast ce hf)
  | remove key => exact hlast ce (remove_find hf).2
  | resize cap => exact hlast ce (resize_find hf)

lemma run_last (h : c.Shows m) {last : Option CacheEntry}
    (hlast : ∀ ce, c.find k = some ce → last = some ce)
    (us : List Use) : ∀ ce, (c.run us).2.find k = some ce → us.foldl (putNow k) last = some ce := by
  induction us generalizing c m last with
  | nil => exact hlast
  | cons u us ih => exact ih (h.step u).2 (step_last h.wf hlast u)

structure Mirrors (us : List Use) (c : LRUCache) (m : MoveToFront Key CacheEntry) : Prop where
  capacity : c.capacity = m.capacity
  order : c.keys = m.entries.map Prod.fst
  content : ∀ k, c.find k = m.lookup k
  nodup : c.keys.Nodup
  mapped : ∀ k, k ∈ c.keys ↔ k ∈ c.map
  nodes : (c.lru_list.map Prod.fst).Nodup ∧ ∀ k ce node, c.map.lookup k = some (ce, node) →
    (node, k) ∈ c.lru_list
  size : c.map.keys.length ≤ c.capacity
  last : ∀ k ce, c.find k = some ce → lastPut k us = some ce

/-- After every history of calls the cache answers as the list in the order of the last use, and
holds what the list holds. -/
theorem run_mirrors (cap : ℕ) (us : List Use) :
    ((empty cap).run us).1 = (listRun ⟨cap, []⟩ us).1 ∧
      Mirrors us ((empty cap).run us).2 (listRun ⟨cap, []⟩ us).2 := by
  have hempty : (empty cap).Shows ⟨cap, []⟩ :=
    ⟨empty_wf cap, rfl, rfl, fun k ce hf => by simp at hf⟩
  obtain ⟨hanswers, h⟩ := hempty.run us
  refine ⟨hanswers, h.capacity, h.keys, h.lookup, h.wf.linked.keys_nodup, fun k => ?_,
    ⟨h.wf.linked.nodes, ?_⟩, h.wf.size, fun k => ?_⟩
  · rw [h.wf.linked.mem_keys, find, Option.isSome_map, AList.lookup_isSome]
  · exact fun k ce node hk => (h.wf.linked.mem node k).mpr ⟨by simp, ce, hk⟩
  · exact run_last hempty (fun ce hf => by simp at hf) us

end Zest.LRUCache
