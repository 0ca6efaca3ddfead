import Mathlib.Data.List.Basic
import Mathlib.Data.List.Pairwise

/-! Steps of several owners on one state. If the steps of one owner move to the left of those of the
others, they may be taken first. -/

namespace Foundations.Movers

inductive Leads {σ ι : Type} (act : ι → σ → σ → Prop) : List ι → σ → σ → Prop
  | nil {s : σ} : Leads act [] s s
  | cons {e : ι} {es : List ι} {s u t : σ} : act e s u → Leads act es u t → Leads act (e :: es) s t

variable {σ ι ω : Type} {act : ι → σ → σ → Prop} {s t u : σ} {e : ι} {es fs : List ι}

def MovesLeft (act : ι → σ → σ → Prop) (e f : ι) : Prop :=
  ∀ s u t, act e s u → act f u t → ∃ v, act f s v ∧ act e v t

lemma leads_nil : Leads act [] s t ↔ t = s := by
  constructor
  · rintro ⟨⟩
    rfl
  · rintro rfl
    exact .nil

lemma leads_append : Leads act (es ++ fs) s t ↔ ∃ u, Leads act es s u ∧ Leads act fs u t := by
  induction es generalizing s with
  | nil => simp [leads_nil]
  | cons e es ih =>
    constructor
    · intro h
      cases h with | cons he h =>
      obtain ⟨v, hes, hfs⟩ := ih.mp h
      exact ⟨v, .cons he hes, hfs⟩
    · rintro ⟨v, h, hfs⟩
      cases h with | cons he hes =>
      exact .cons he (ih.mpr ⟨v, hes, hfs⟩)

lemma leads_singleton : Leads act [e] s t ↔ act e s t := by
  constructor
  · intro h
    cases h with | cons he h =>
    obtain rfl := leads_nil.mp h
    exact he
  · exact fun he => .cons he .nil

lemma MovesLeft.leads (hm : ∀ f ∈ fs, MovesLeft act e f) (he : act e s u) (h : Leads act fs u t) :
    ∃ v, Leads act fs s v ∧ act e v t := by
  induction fs generalizing s u with
  | nil =>
    obtain rfl := leads_nil.mp h
    exact ⟨s, .nil, he⟩
  | cons f fs ih =>
    cases h with | cons hf h =>
    obtain ⟨v, hf, he⟩ := hm f List.mem_cons_self _ _ _ he hf
    obtain ⟨w, h, he⟩ := ih (fun g hg => hm g (List.mem_cons_of_mem _ hg)) he h
    exact ⟨w, .cons hf h, he⟩

section Owners

variable [DecidableEq ω] {o o' : ω} {ps qs : List (ω × ι)}

def own (o : ω) (ps : List (ω × ι)) : List ι := (ps.filter fun p => p.1 = o).map Prod.snd

def others (o : ω) (ps : List (ω × ι)) : List (ω × ι) := ps.filter fun p => p.1 ≠ o

/-- The steps of `o` move to the left of the steps of others that come before them. -/
def Clear (act : ι → σ → σ → Prop) (o : ω) (ps : List (ω × ι)) : Prop :=
  ps.Pairwise fun p q => p.1 ≠ o → q.1 = o → MovesLeft act p.2 q.2

lemma own_append_map (o o' : ω) (es : List ι) (ps : List (ω × ι)) :
    own o (ps ++ es.map fun e => (o', e)) = if o' = o then own o ps ++ es else own o ps := by
  by_cases h : o' = o
  · simp [own, h, List.filter_map, Function.comp_def]
  · simp [own, h, List.filter_map, Function.comp_def]

lemma own_others (h : o' ≠ o) (ps : List (ω × ι)) : own o' (others o ps) = own o' ps := by
  rw [own, others, List.filter_filter]
  congr 1
  refine List.filter_congr fun p _ => ?_
  by_cases hp : p.1 = o'
  · simp [hp, h]
  · simp [hp]

lemma own_others_self (o : ω) (ps : List (ω × ι)) : own o (others o ps) = [] := by
  rw [own, others, List.filter_filter]
  simp

lemma eq_nil_of_own (h : ∀ o, own o ps = []) : ps = [] := by
  rcases List.eq_nil_or_concat ps with rfl | ⟨qs, ⟨o, e⟩, rfl⟩
  · rfl
  · have ho := h o
    simp [own] at ho

theorem Clear.front (hc : Clear act o ps) (h : Leads act (ps.map Prod.snd) s t) :
    ∃ u, Leads act (own o ps) s u ∧ Leads act ((others o ps).map Prod.snd) u t := by
  induction ps generalizing s with
  | nil => exact ⟨s, .nil, h⟩
  | cons p ps ih =>
    obtain ⟨hfirst, hc⟩ := List.pairwise_cons.mp hc
    cases h with | cons he h =>
    obtain ⟨v, hown, hothers⟩ := ih hc h
    by_cases hp : p.1 = o
    · refine ⟨v, ?_, ?_⟩
      · simpa [own, hp] using Leads.cons he hown
      · simpa [others, hp] using hothers
    · have hmoves : ∀ f ∈ own o ps, MovesLeft act p.2 f := by
        intro f hf
        obtain ⟨q, hq, rfl⟩ := List.mem_map.mp hf
        obtain ⟨hmem, ho⟩ := List.mem_filter.mp hq
        exact hfirst q hmem hp (by simpa using ho)
      obtain ⟨w, hown, he⟩ := MovesLeft.leads hmoves he hown
      refine ⟨w, ?_, ?_⟩
      · simpa [own, hp] using hown
      · simpa [others, hp] using Leads.cons he hothers

end Owners

end Foundations.Movers
