import Mathlib.Data.List.Nodup
import Mathlib.Tactic.Basic

/-! A list of entries in the order of their last use, newest first, cut to a capacity after each
use. -/

namespace Foundations

structure MoveToFront (κ ν : Type) where
  capacity : ℕ
  entries : List (κ × ν)

namespace MoveToFront

variable {κ ν : Type} [DecidableEq κ]

def lookup (m : MoveToFront κ ν) (k : κ) : Option ν :=
  (m.entries.find? fun e => e.1 = k).map Prod.snd

def without (k : κ) (entries : List (κ × ν)) : List (κ × ν) := entries.filter fun e => e.1 ≠ k

def cut (m : MoveToFront κ ν) : MoveToFront κ ν := { m with entries := m.entries.take m.capacity }

def put (k : κ) (v : ν) (m : MoveToFront κ ν) : MoveToFront κ ν :=
  cut { m with entries := (k, v) :: without k m.entries }

def get (k : κ) (m : MoveToFront κ ν) : MoveToFront κ ν :=
  match m.lookup k with
  | none => m
  | some v => m.put k v

def remove (k : κ) (m : MoveToFront κ ν) : MoveToFront κ ν :=
  { m with entries := without k m.entries }

def resize (capacity : ℕ) (m : MoveToFront κ ν) : MoveToFront κ ν :=
  cut { m with capacity := capacity }

variable {m : MoveToFront κ ν} {entries : List (κ × ν)} {k : κ} {v : ν} {n : ℕ}

omit [DecidableEq κ] in
lemma value_unique (h : (entries.map Prod.fst).Nodup) {v' : ν} (hv : (k, v) ∈ entries)
    (hv' : (k, v') ∈ entries) : v = v' :=
  congrArg Prod.snd (List.inj_on_of_nodup_map h hv hv' rfl)

lemma lookup_eq_some (h : (m.entries.map Prod.fst).Nodup) (hv : (k, v) ∈ m.entries) :
    m.lookup k = some v := by
  rw [lookup]
  cases hf : m.entries.find? fun e => e.1 = k with
  | none =>
    have hnone := List.find?_eq_none.mp hf (k, v) hv
    simp at hnone
  | some e =>
    obtain ⟨k', v'⟩ := e
    obtain rfl : k' = k := by simpa using List.find?_some hf
    rw [value_unique h hv (List.mem_of_find?_eq_some hf)]
    rfl

lemma lookup_eq_none (h : k ∉ m.entries.map Prod.fst) : m.lookup k = none := by
  rw [lookup, Option.map_eq_none_iff, List.find?_eq_none]
  intro e he hek
  apply h
  rw [← show e.1 = k by simpa using hek]
  exact List.mem_map_of_mem he

lemma without_keys (k : κ) (entries : List (κ × ν)) :
    (without k entries).map Prod.fst = (entries.map Prod.fst).filter (· ≠ k) := by
  rw [List.filter_map]
  rfl

lemma mem_without {k' : κ} (hv : (k', v) ∈ entries) (hne : k' ≠ k) : (k', v) ∈ without k entries :=
  List.mem_filter.mpr ⟨hv, by simpa using hne⟩

omit [DecidableEq κ] in
lemma mem_take (h : (entries.map Prod.fst).Nodup) (hv : (k, v) ∈ entries)
    (hk : k ∈ (entries.take n).map Prod.fst) :
    (k, v) ∈ entries.take n := by
  obtain ⟨⟨k', v'⟩, he, rfl⟩ := List.mem_map.mp hk
  rw [value_unique h hv (List.mem_of_mem_take he)]
  exact he

lemma nodup_front (h : (m.entries.map Prod.fst).Nodup) (k : κ) (v : ν) :
    (((k, v) :: without k m.entries).map Prod.fst).Nodup := by
  rw [List.map_cons, without_keys, List.nodup_cons]
  exact ⟨by simp, h.filter _⟩

end MoveToFront

end Foundations
