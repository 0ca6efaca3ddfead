import Mathlib.Logic.Relation
import Mathlib.Algebra.BigOperators.Group.List.Basic
import Mathlib.Algebra.GroupWithZero.Nat
import Mathlib.Algebra.Order.Group.Nat
import Mathlib.Tactic.ByContra
import Mathlib.Tactic.Push

/-! Steps that wear themselves out: each one lowers a measure, and one can be taken until the work
is done. -/

namespace Foundations

/-- Under `inv`, every step lowers `measure`, and a step is left unless `done`. -/
structure Progress {σ : Type*} (step : σ → σ → Prop) (inv done : σ → Prop) (measure : σ → ℕ) :
    Prop where
  keeps : ∀ {s t}, inv s → step s t → inv t
  lowers : ∀ {s t}, inv s → step s t → measure t < measure s
  goes : ∀ {s}, inv s → ¬ done s → ∃ t, step s t

namespace Progress

inductive Chain {σ : Type*} (step : σ → σ → Prop) : ℕ → σ → σ → Prop
  | nil (s : σ) : Chain step 0 s s
  | snoc {k : ℕ} {s t u : σ} : Chain step k s t → step t u → Chain step (k + 1) s u

variable {σ : Type*} {step : σ → σ → Prop} {inv done : σ → Prop} {measure : σ → ℕ} {s t : σ} {k : ℕ}

lemma bounded (p : Progress step inv done measure) (hs : inv s) (h : Chain step k s t) :
    inv t ∧ k + measure t ≤ measure s := by
  induction h with
  | nil => exact ⟨hs, (Nat.zero_add _).le⟩
  | snoc _ hstep ih =>
    obtain ⟨hinv, hle⟩ := ih hs
    have hlt := p.lowers hinv hstep
    exact ⟨p.keeps hinv hstep, by omega⟩

lemma done_of_stuck (p : Progress step inv done measure) (hs : inv s) (h : ∀ t, ¬ step s t) :
    done s := by
  by_contra hd
  obtain ⟨t, ht⟩ := p.goes hs hd
  exact h t ht

theorem ends (p : Progress step inv done measure) (hs : inv s) :
    (∃ t, Relation.ReflTransGen step s t ∧ ∀ u, ¬ step t u) ∧
      (∀ k t, Chain step k s t → k ≤ measure s ∧ ((∀ u, ¬ step t u) → done t)) := by
  refine ⟨?_, fun k t h => ?_⟩
  · induction hm : measure s using Nat.strong_induction_on generalizing s with
    | _ m ih =>
      by_cases hstuck : ∀ t, ¬ step s t
      · exact ⟨s, .refl, hstuck⟩
      · push Not at hstuck
        obtain ⟨t, ht⟩ := hstuck
        obtain ⟨u, hu, hend⟩ := ih _ (hm ▸ p.lowers hs ht) (p.keeps hs ht) rfl
        exact ⟨u, .head ht hu, hend⟩
  · obtain ⟨hinv, hle⟩ := p.bounded hs h
    exact ⟨by omega, p.done_of_stuck hinv⟩

end Progress

section Parts

variable {α : Type*} {l : List α} {i : ℕ} {x : α}

lemma split_part (h : l[i]? = some x) :
    ∃ before after, l = before ++ x :: after ∧ ∀ y, l.set i y = before ++ y :: after := by
  obtain ⟨hi, rfl⟩ := List.getElem?_eq_some_iff.mp h
  refine ⟨l.take i, l.drop (i + 1), by simp, fun y => ?_⟩
  rw [List.set_eq_take_append_cons_drop, if_pos hi]

lemma sum_set_part (f : α → ℕ) (h : l[i]? = some x) (y : α) :
    ((l.set i y).map f).sum + f x = (l.map f).sum + f y := by
  obtain ⟨before, after, rfl, hset⟩ := split_part h
  rw [hset]
  simp only [List.map_append, List.map_cons, List.sum_append, List.sum_cons]
  omega

end Parts

end Foundations
