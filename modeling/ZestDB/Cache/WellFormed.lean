import ZestDB.Cache.LRUCache
import ZestDB.Foundations.AssocMap

/-! The list and the map of the cache stay in step, and the cache holds no value but the last one
put for its key. -/

namespace Zest.LRUCache

variable {c : LRUCache} {key k : Key} {entry : IndexEntry} {value : Value} {ce : CacheEntry}
  {node : ℕ}

def find (c : LRUCache) (k : Key) : Option CacheEntry := (c.map.lookup k).map Prod.fst

/-- Every key of the map but `key` has its own node in the list, and the list has no other node. -/
structure LinkedBut (key : Option Key) (c : LRUCache) : Prop where
  nodes : (c.lru_list.map Prod.fst).Nodup
  mem : ∀ node k, (node, k) ∈ c.lru_list ↔ some k ≠ key ∧ ∃ ce, c.map.lookup k = some (ce, node)
  fresh : ∀ p ∈ c.lru_list, p.1 < c.nextNode

abbrev Linked (c : LRUCache) : Prop := LinkedBut none c

structure Wf (c : LRUCache) : Prop where
  linked : Linked c
  size : c.map.keys.length ≤ c.capacity

lemma LinkedBut.keys_nodup {o : Option Key} (h : LinkedBut o c) :
    (c.lru_list.map Prod.snd).Nodup := by
  refine List.Nodup.map_on ?_ (List.Nodup.of_map _ h.nodes)
  rintro ⟨m, a⟩ ha ⟨n, b⟩ hb (rfl : a = b)
  obtain ⟨_, ce, hm⟩ := (h.mem m a).mp ha
  obtain ⟨_, ce', hn⟩ := (h.mem n a).mp hb
  rw [hm] at hn
  simp_all

lemma Linked.keys_perm (h : Linked c) : (c.lru_list.map Prod.snd).Perm c.map.keys := by
  refine (List.perm_ext_iff_of_nodup h.keys_nodup c.map.keys_nodup).mpr fun a => ?_
  rw [← AList.mem_keys, ← AList.lookup_isSome, Option.isSome_iff_exists, List.mem_map]
  constructor
  · rintro ⟨⟨m, b⟩, hb, rfl⟩
    obtain ⟨_, ce, hm⟩ := (h.mem m b).mp hb
    exact ⟨_, hm⟩
  · rintro ⟨⟨ce, m⟩, hm⟩
    exact ⟨(m, a), (h.mem m a).mpr ⟨by simp, ce, hm⟩, rfl⟩

lemma Linked.length_eq (h : Linked c) : c.lru_list.length = c.map.keys.length := by
  simpa using h.keys_perm.length_eq

lemma mem_eraseNode {l : List (ℕ × Key)} {p : ℕ × Key} : p ∈ eraseNode l node ↔
    p ∈ l ∧ p.1 ≠ node := by
  simp [eraseNode]

lemma Linked.eraseNode (h : Linked c) (hk : c.map.lookup key = some (ce, node)) :
    LinkedBut (some key) { c with lru_list := eraseNode c.lru_list node } where
  nodes := (List.filter_sublist.map _).nodup h.nodes
  mem m k := by
    simp only [mem_eraseNode, h.mem, ne_eq, reduceCtorEq, not_false_eq_true, true_and,
      Option.some.injEq]
    constructor
    · rintro ⟨⟨ce', hm⟩, hne⟩
      refine ⟨?_, ce', hm⟩
      rintro rfl
      rw [hk] at hm
      exact hne (by simp_all)
    · rintro ⟨hne, ce', hm⟩
      refine ⟨⟨ce', hm⟩, ?_⟩
      rintro rfl
      have hc := (h.mem m key).mpr ⟨by simp, ce, hk⟩
      have hd := (h.mem m k).mpr ⟨by simp, ce', hm⟩
      exact hne (congrArg Prod.snd (List.inj_on_of_nodup_map h.nodes hd hc rfl))
  fresh p hp := h.fresh p (mem_eraseNode.mp hp).1

lemma Linked.but_absent (h : Linked c) (hk : c.map.lookup key = none) : LinkedBut (some key) c where
  nodes := h.nodes
  mem m k := by
    rw [h.mem]
    constructor
    · rintro ⟨_, ce, hm⟩
      refine ⟨?_, ce, hm⟩
      rintro ⟨⟩
      simp [hk] at hm
    · rintro ⟨_, ce, hm⟩
      exact ⟨by simp, ce, hm⟩
  fresh := h.fresh

lemma LinkedBut.push_front (h : LinkedBut (some key) c) (ce : CacheEntry) :
    Linked (c.push_front key ce) where
  nodes := by
    simp only [LRUCache.push_front, List.map_cons, List.nodup_cons, h.nodes, and_true, List.mem_map,
      not_exists, not_and]
    intro p hp he
    exact absurd (h.fresh p hp) (by omega)
  mem m k := by
    simp only [LRUCache.push_front, List.mem_cons, Prod.mk.injEq, h.mem, ne_eq, Option.some.injEq,
      reduceCtorEq, not_false_eq_true, true_and]
    by_cases hk : k = key
    · subst hk
      simp [AList.lookup_insert, eq_comm]
    · simp [hk, AList.lookup_insert_ne hk]
  fresh p hp := by
    simp only [LRUCache.push_front, List.mem_cons] at hp ⊢
    rcases hp with rfl | hp
    · simp
    · exact (h.fresh p hp).trans (by omega)

lemma LinkedBut.erase (h : LinkedBut (some key) c) : Linked { c with map := c.map.erase key } where
  nodes := h.nodes
  mem m k := by
    rw [h.mem]
    by_cases hk : k = key
    · subst hk
      simp
    · simp [hk, AList.lookup_erase_ne hk]
  fresh := h.fresh

lemma Linked.evict (h : Linked c) : Linked c.evict := by
  simp only [LRUCache.evict]
  cases hl : c.lru_list.getLast? with
  | none => exact h
  | some last =>
    obtain ⟨ys, hys⟩ := List.getLast?_eq_some_iff.mp hl
    obtain ⟨m, a⟩ := last
    have hn := h.nodes
    have hk := h.keys_nodup
    simp only [hys, List.map_append, List.map_cons, List.map_nil, List.nodup_append,
      List.mem_singleton] at hn hk
    refine ⟨?_, ?_, ?_⟩
    · simpa [hys] using hn.1
    · intro n k
      have hm := h.mem n k
      simp only [hys, List.dropLast_concat, List.mem_append, List.mem_singleton, Prod.mk.injEq,
        ne_eq, reduceCtorEq, not_false_eq_true, true_and] at hm ⊢
      by_cases hka : k = a
      · subst hka
        simp only [AList.lookup_erase, reduceCtorEq, exists_false, iff_false]
        intro hmem
        exact hk.2.2 k (List.mem_map_of_mem hmem) k rfl rfl
      · simpa [hka, AList.lookup_erase_ne hka] using hm
    · intro p hp
      exact h.fresh p (List.mem_of_mem_dropLast hp)

lemma evict_size (h : Linked c) (hpos : 0 < c.map.keys.length) :
    c.evict.map.keys.length = c.map.keys.length - 1 := by
  have hl := h.evict.length_eq
  rw [← hl]
  have h0 := h.length_eq
  simp only [LRUCache.evict]
  cases hg : c.lru_list.getLast? with
  | none => simp_all
  | some last => simp [h0]

@[simp] lemma evict_capacity : c.evict.capacity = c.capacity := by
  simp only [LRUCache.evict]
  cases c.lru_list.getLast? <;> rfl

lemma evict_find (h : c.evict.find k = some ce) : c.find k = some ce := by
  simp only [LRUCache.evict] at h
  cases hl : c.lru_list.getLast? with
  | none => simpa [hl] using h
  | some last =>
    simp only [hl, find] at h
    by_cases hk : k = last.2
    · subst hk
      simp at h
    · rwa [AList.lookup_erase_ne hk] at h

lemma push_front_find (c : LRUCache) (key k : Key) (ce : CacheEntry) :
    (c.push_front key ce).find k = if k = key then some ce else c.find k := by
  simp only [push_front, find, AList.lookup_insert_ite]
  split_ifs <;> rfl

lemma push_front_size (c : LRUCache) (key : Key) (ce : CacheEntry) :
    (c.push_front key ce).map.keys.length = (c.map.erase key).keys.length + 1 :=
  AList.keys_insert_length _ _ _

lemma empty_wf (cap : ℕ) : (empty cap).Wf where
  linked := ⟨by simp [empty], by simp [empty], by simp [empty]⟩
  size := by simp [empty]

@[simp] lemma empty_find (cap : ℕ) (k : Key) : (empty cap).find k = none := by simp [empty, find]

lemma get_wf (h : c.Wf) (key : Key) : (c.get key).2.Wf := by
  simp only [LRUCache.get]
  cases hk : c.map.lookup key with
  | none => exact h
  | some p =>
    obtain ⟨ce, node⟩ := p
    refine ⟨(h.linked.eraseNode hk).push_front ce, ?_⟩
    rw [push_front_size, AList.keys_erase_length hk]
    exact h.size

lemma get_find (c : LRUCache) (key k : Key) : (c.get key).2.find k = c.find k := by
  simp only [LRUCache.get]
  cases hk : c.map.lookup key with
  | none => rfl
  | some p =>
    simp only [push_front_find]
    split_ifs with h
    · subst h
      simp [find, hk]
    · rfl

lemma get_val (c : LRUCache) (key : Key) : (c.get key).1 = (c.find key).getD ⟨.invalid, []⟩ := by
  simp only [LRUCache.get, find]
  cases c.map.lookup key <;> rfl

lemma put_wf (h : c.Wf) (entry : IndexEntry) (value : Value) : (c.put entry value).Wf := by
  simp only [LRUCache.put]
  by_cases hz : c.capacity = 0
  · simpa [hz] using h
  · have hs := h.size
    simp only [hz, if_false]
    cases hk : c.map.lookup entry.key with
    | some p =>
      obtain ⟨ce, node⟩ := p
      refine ⟨(h.linked.eraseNode hk).push_front _, ?_⟩
      rw [push_front_size, AList.keys_erase_length hk]
      exact hs
    | none =>
      by_cases hfull : c.map.keys.length ≥ c.capacity
      · have hke : c.evict.map.lookup entry.key = none := by
          by_contra hne
          obtain ⟨p, hp⟩ := Option.ne_none_iff_exists'.mp hne
          have hf : c.evict.find entry.key = some p.1 := by simp [find, hp]
          simpa [find, hk] using evict_find hf
        simp only [hfull, if_true]
        refine ⟨(h.linked.evict.but_absent hke).push_front _, ?_⟩
        rw [push_front_size, AList.keys_erase_length_absent hke, evict_size h.linked (by omega)]
        change _ ≤ c.evict.capacity
        rw [evict_capacity]
        omega
      · simp only [hfull, if_false]
        refine ⟨(h.linked.but_absent hk).push_front _, ?_⟩
        rw [push_front_size, AList.keys_erase_length_absent hk]
        change _ ≤ c.capacity
        omega

lemma put_find_self (hcap : c.capacity ≠ 0) (entry : IndexEntry) (value : Value) :
    (c.put entry value).find entry.key = some ⟨entry, value⟩ := by
  simp only [LRUCache.put, if_neg hcap, push_front_find, if_true]

lemma put_find (h : c.Wf) (hf : (c.put entry value).find k = some ce) :
    (k = entry.key ∧ ce = ⟨entry, value⟩) ∨ (k ≠ entry.key ∧ c.find k = some ce) := by
  simp only [LRUCache.put] at hf
  by_cases hz : c.capacity = 0
  · have hkeys : c.map.keys = [] := List.eq_nil_of_length_eq_zero (by have := h.size; omega)
    have hn : k ∉ c.map := by rw [AList.mem_keys, hkeys]; simp
    simp [hz, find, AList.lookup_eq_none.mpr hn] at hf
  · simp only [hz, if_false, push_front_find] at hf
    by_cases hk : k = entry.key
    · exact Or.inl ⟨hk, by simpa [hk, eq_comm] using hf⟩
    · refine Or.inr ⟨hk, ?_⟩
      rw [if_neg hk] at hf
      cases hl : c.map.lookup entry.key with
      | some p => simpa [hl, find] using hf
      | none =>
        rw [hl] at hf
        dsimp only at hf
        split_ifs at hf
        · exact evict_find hf
        · exact hf

lemma remove_wf (h : c.Wf) (key : Key) : (c.remove key).Wf := by
  simp only [LRUCache.remove]
  cases hk : c.map.lookup key with
  | none => exact h
  | some p =>
    obtain ⟨ce, node⟩ := p
    refine ⟨(h.linked.eraseNode hk).erase, ?_⟩
    have hs := h.size
    have he := AList.keys_erase_length hk
    change (c.map.erase key).keys.length ≤ c.capacity
    omega

lemma remove_find (hf : (c.remove key).find k = some ce) : k ≠ key ∧ c.find k = some ce := by
  simp only [LRUCache.remove] at hf
  cases hk : c.map.lookup key with
  | none =>
    refine ⟨?_, by simpa [hk] using hf⟩
    rintro rfl
    simp [hk, find] at hf
  | some p =>
    simp only [hk, find] at hf
    by_cases hkey : k = key
    · subst hkey
      simp at hf
    · exact ⟨hkey, by rwa [AList.lookup_erase_ne hkey] at hf⟩

lemma evictWhileOver_wf (fuel : ℕ) (h : Linked c) (hf : c.map.keys.length ≤ fuel + c.capacity) :
    (evictWhileOver fuel c).Wf := by
  induction fuel generalizing c with
  | zero =>
    refine ⟨h, ?_⟩
    change c.map.keys.length ≤ c.capacity
    omega
  | succ fuel ih =>
    simp only [evictWhileOver]
    split_ifs with ho
    · refine ih h.evict ?_
      rw [evict_size h (by omega), evict_capacity]
      omega
    · exact ⟨h, by omega⟩

lemma evictWhileOver_find (fuel : ℕ) (h : (evictWhileOver fuel c).find k = some ce) :
    c.find k = some ce := by
  induction fuel generalizing c with
  | zero => exact h
  | succ fuel ih =>
    simp only [evictWhileOver] at h
    split_ifs at h
    · exact evict_find (ih h)
    · exact h

lemma resize_wf (h : c.Wf) (cap : ℕ) : (c.resize cap).Wf := by
  have hl : Linked { c with capacity := cap } := ⟨h.linked.nodes, h.linked.mem, h.linked.fresh⟩
  refine evictWhileOver_wf _ hl ?_
  have := h.linked.length_eq
  simp only [this]
  omega

lemma resize_find {cap : ℕ} (h : (c.resize cap).find k = some ce) : c.find k = some ce :=
  evictWhileOver_find (c := { c with capacity := cap }) _ h

end Zest.LRUCache
