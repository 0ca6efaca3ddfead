import Mathlib.Logic.Relation
import Mathlib.Algebra.BigOperators.Group.List.Basic
import Mathlib.Algebra.GroupWithZero.Nat

/-! Threads that share a state. A step is taken by one thread; what the others are doing may hold it
back, which is how a lock is modelled. -/

namespace Foundations

structure Pool (σ τ : Type*) where
  shared : σ
  threads : List τ

namespace Pool

variable {σ τ : Type*}

abbrev Action (σ τ : Type*) := List τ → σ → τ → σ → τ → Prop

inductive Step (act : Action σ τ) : Pool σ τ → Pool σ τ → Prop
  | thread {s s' t t'} (before after : List τ) : act (before ++ after) s t s' t' →
      Step act ⟨s, before ++ t :: after⟩ ⟨s', before ++ t' :: after⟩

abbrev Steps (act : Action σ τ) : Pool σ τ → Pool σ τ → Prop := Relation.ReflTransGen (Step act)

def total (f : τ → ℕ) (p : Pool σ τ) : ℕ := (p.threads.map f).sum

lemma total_split (f : τ → ℕ) (s : σ) (t : τ) (before after : List τ) :
    total f ⟨s, before ++ t :: after⟩ = ((before ++ after).map f).sum + f t := by
  simp only [total, List.map_append, List.map_cons, List.sum_append, List.sum_cons]
  omega

structure Holds (I : σ → Prop) (R : σ → τ → Prop) (p : Pool σ τ) : Prop where
  shared : I p.shared
  thread : ∀ t ∈ p.threads, R p.shared t

/-- A step keeps `I` and the assertion of its own thread, and does not disturb those of the
others. -/
def Keeps (act : Action σ τ) (I : σ → Prop) (R : σ → τ → Prop) : Prop :=
  ∀ {others s t s' t'}, act others s t s' t' → I s → R s t → (∀ u ∈ others, R s u) →
    I s' ∧ R s' t' ∧ ∀ u ∈ others, R s' u

variable {act : Action σ τ} {I : σ → Prop} {R : σ → τ → Prop} {p q : Pool σ τ}

lemma Keeps.step (hk : Keeps act I R) (h : Step act p q) (hp : Holds I R p) : Holds I R q := by
  obtain @⟨s, s', t, t', before, after, hact⟩ := h
  have hmem : ∀ u, u ∈ before ++ t :: after ↔ u = t ∨ u ∈ before ++ after := by
    intro u
    simp only [List.mem_append, List.mem_cons]
    tauto
  obtain ⟨hI, hR, hothers⟩ := hk hact hp.shared (hp.thread t ((hmem t).mpr (Or.inl rfl)))
    fun u hu => hp.thread u ((hmem u).mpr (Or.inr hu))
  refine ⟨hI, fun u hu => ?_⟩
  rcases List.mem_append.mp hu with hu | hu
  · exact hothers u (List.mem_append_left _ hu)
  · rcases List.mem_cons.mp hu with rfl | hu
    · exact hR
    · exact hothers u (List.mem_append_right _ hu)

end Pool

end Foundations
