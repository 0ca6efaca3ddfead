import ZestDB.Database.Clients
import ZestDB.Foundations.Movers

/-! The turns of a write as steps of the map, and when two steps may change places. -/

namespace Zest

open Foundations Foundations.Movers
open scoped Classical

def Store.Finite (m : Store) : Prop := {k | (m k).isSome}.Finite

/-- A step of the map: the keys a search saw in a shard, a key that was set or deleted, or a task
that set or deleted the matching keys of a shard. -/
inductive MapStep (n : ℕ) where
  | saw (i : Fin n) (valid : ValidationRule) (keys : List Key)
  | put (key : Key) (o : Option Value)
  | task (i : Fin n) (func : Key → Bool) (o : Option Value)

namespace MapStep

variable {n : ℕ} [NeZero n] {pf : Platform} {e f : MapStep n} {m m' : Store} {i : Fin n}
  {func : Key → Bool} {k : Key}

def inShard (pf : Platform) (i : Fin n) (func : Key → Bool) (m : Store) : Set Key :=
  {k | ShardManager.getShardId pf k = i ∧ k ∈ m.matching func}

noncomputable def run (pf : Platform) : MapStep n → Store → Store
  | .saw _ _ _, m => m
  | .put key o, m => Function.update m key o
  | .task i func o, m => fun k => if k ∈ inShard pf i func m then o else m k

structure Sees (pf : Platform) (i : Fin n) (valid : ValidationRule) (keys : List Key) (m : Store) :
    Prop where
  nodup : keys.Nodup
  first : {k | k ∈ keys} = smallest (inShard pf i valid.func m) valid.limit

def Fires (pf : Platform) : MapStep n → Store → Prop
  | .saw i valid keys, m => Sees pf i valid keys m
  | _, _ => True

def act (pf : Platform) (e : MapStep n) (m m' : Store) : Prop :=
  m.Finite ∧ e.Fires pf m ∧ m' = e.run pf m

def Concerns (pf : Platform) (k : Key) : MapStep n → Prop
  | .saw i valid _ => ShardManager.getShardId pf k = i ∧ valid.func k = true
  | .put key _ => k = key
  | .task i func _ => ShardManager.getShardId pf k = i ∧ func k = true

lemma run_finite (h : m.Finite) : (e.run pf m).Finite := by
  cases e with
  | saw i valid keys => exact h
  | put key o =>
    refine (h.insert key).subset fun k hk => ?_
    by_cases hkk : k = key
    · exact Or.inl hkk
    · rw [Set.mem_ofPred_eq, run, Function.update_of_ne hkk] at hk
      exact Or.inr hk
  | task i func o =>
    refine h.subset fun k hk => ?_
    simp only [run, Set.mem_ofPred_eq] at hk
    split_ifs at hk with hin
    · exact hin.2.2
    · exact hk

lemma run_of_not_concerns (h : ¬ e.Concerns pf k) (m : Store) : e.run pf m k = m k := by
  cases e with
  | saw i valid keys => rfl
  | put key o => exact Function.update_of_ne h _ _
  | task i func o => exact if_neg fun hin => h ⟨hin.1, hin.2.1⟩

lemma run_congr (h : m k = m' k) : e.run pf m k = e.run pf m' k := by
  cases e with
  | saw i valid keys => exact h
  | put key o => simp only [run, Function.update_apply, h]
  | task i func o =>
    have hin : k ∈ inShard pf i func m ↔ k ∈ inShard pf i func m' := by
      simp [inShard, Store.matching, h]
    simp only [run, hin, h]

lemma Fires.congr (hf : e.Fires pf m) (h : ∀ k, e.Concerns pf k → m k = m' k) : e.Fires pf m' := by
  cases e with
  | saw i valid keys =>
    have hin : inShard pf i valid.func m' = inShard pf i valid.func m := by
      ext k
      constructor
      · rintro ⟨hi, hk, hs⟩
        exact ⟨hi, hk, by rwa [h k ⟨hi, hk⟩]⟩
      · rintro ⟨hi, hk, hs⟩
        exact ⟨hi, hk, by rwa [← h k ⟨hi, hk⟩]⟩
    exact ⟨hf.nodup, by rw [hin]; exact hf.first⟩
  | put key o => trivial
  | task i func o => trivial

theorem movesLeft_of_apart (h : ∀ k, e.Concerns pf k → ¬ f.Concerns pf k) :
    MovesLeft (act pf) e f := by
  rintro s u t ⟨hs, he, rfl⟩ ⟨-, hf, rfl⟩
  have hf' : f.Fires pf s := hf.congr fun k hk => run_of_not_concerns (fun hek => h k hek hk) s
  have he' : e.Fires pf (f.run pf s) := he.congr fun k hk => (run_of_not_concerns (h k hk) s).symm
  refine ⟨f.run pf s, ⟨hs, hf', rfl⟩, run_finite hs, he', ?_⟩
  funext k
  by_cases hk : e.Concerns pf k
  · rw [run_of_not_concerns (h k hk), run_congr (run_of_not_concerns (h k hk) s)]
  · rw [run_of_not_concerns hk, run_congr (run_of_not_concerns hk s)]

end MapStep

end Zest
