import ZestDB.Index.IndexManager

/-! `LRUCache.cpp`: a map from keys to values and the list of its keys, most recently used first.
A node of the list has a number, and the map holds the number of each key's node. -/

namespace Zest

structure CacheEntry where
  index : IndexEntry
  value : Value
deriving DecidableEq, Repr

structure LRUCache where
  capacity : ℕ
  lru_list : List (ℕ × Key)
  map : AList (fun _ : Key => CacheEntry × ℕ)
  nextNode : ℕ
deriving DecidableEq

namespace LRUCache

def empty (cap : ℕ) : LRUCache := ⟨cap, [], ∅, 0⟩

def eraseNode (l : List (ℕ × Key)) (node : ℕ) : List (ℕ × Key) := l.filter fun p => p.1 ≠ node

def push_front (c : LRUCache) (key : Key) (entry : CacheEntry) : LRUCache :=
  { c with
    lru_list := (c.nextNode, key) :: c.lru_list
    map := c.map.insert key (entry, c.nextNode)
    nextNode := c.nextNode + 1 }

def get (c : LRUCache) (key : Key) : CacheEntry × LRUCache :=
  match c.map.lookup key with
  | none => (⟨.invalid, []⟩, c)
  | some (entry, node) =>
    (entry, push_front { c with lru_list := eraseNode c.lru_list node } key entry)

def evict (c : LRUCache) : LRUCache :=
  match c.lru_list.getLast? with
  | none => c
  | some last => { c with lru_list := c.lru_list.dropLast, map := c.map.erase last.2 }

def put (c : LRUCache) (entry : IndexEntry) (value : Value) : LRUCache :=
  if c.capacity = 0 then c
  else
    let room := match c.map.lookup entry.key with
      | some (_, node) => { c with lru_list := eraseNode c.lru_list node }
      | none => if c.map.keys.length ≥ c.capacity then c.evict else c
    room.push_front entry.key ⟨entry, value⟩

def evictWhileOver : ℕ → LRUCache → LRUCache
  | 0, c => c
  | fuel + 1, c => if c.map.keys.length > c.capacity then evictWhileOver fuel c.evict else c

def resize (c : LRUCache) (cap : ℕ) : LRUCache :=
  evictWhileOver c.lru_list.length { c with capacity := cap }

def remove (c : LRUCache) (key : Key) : LRUCache :=
  match c.map.lookup key with
  | none => c
  | some (_, node) => { c with lru_list := eraseNode c.lru_list node, map := c.map.erase key }

end LRUCache

end Zest
