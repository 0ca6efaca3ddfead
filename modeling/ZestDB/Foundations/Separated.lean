import Mathlib.Data.List.Infix
import Mathlib.Algebra.Order.BigOperators.Group.List
import Mathlib.Algebra.Order.Group.Nat
import Mathlib.Data.List.Flatten

/-! Texts made of pieces with a separator between them, and the pieces of such a text. -/

namespace Foundations

variable {α : Type*} [DecidableEq α] {sep : List α} {acc d : List α} {docs : List (List α)}

/-- The pieces of a text that goes on after `acc`; `skip` more elements belong to a separator. -/
def cutFrom (sep : List α) : ℕ → List α → List α → List (List α)
  | _, acc, [] => [acc.reverse]
  | skip + 1, acc, _ :: text => cutFrom sep skip acc text
  | 0, acc, x :: text =>
    if sep <+: x :: text then acc.reverse :: cutFrom sep (sep.length - 1) [] text else cutFrom sep 0
      (x :: acc) text

def cut (sep text : List α) : List (List α) := if text = [] then [] else cutFrom sep 0 [] text

lemma cutFrom_ne_nil (sep : List α) (skip : ℕ) (acc text : List α) :
    cutFrom sep skip acc text ≠ [] := by
  induction text generalizing skip acc with
  | nil => simp [cutFrom]
  | cons x text ih =>
    cases skip with
    | zero =>
      rw [cutFrom]
      split_ifs
      · simp
      · exact ih _ _
    | succ skip => exact ih _ _

lemma cutFrom_uncut (h : ¬ sep <:+: d) : cutFrom sep 0 acc d = [acc.reverse ++ d] := by
  induction d generalizing acc with
  | nil => simp [cutFrom]
  | cons x d ih =>
    rw [List.infix_cons_iff, not_or] at h
    rw [cutFrom, if_neg h.1, ih h.2]
    simp

lemma two_le_length_cutFrom (hs : sep ≠ []) (h : sep <:+: d) :
    2 ≤ (cutFrom sep 0 acc d).length := by
  induction d generalizing acc with
  | nil => exact absurd (List.infix_nil.mp h) hs
  | cons x d ih =>
    rw [cutFrom]
    split_ifs with hx
    · have hpos := List.length_pos_iff.mpr (cutFrom_ne_nil sep (sep.length - 1) [] d)
      rw [List.length_cons]
      omega
    · exact ih ((List.infix_cons_iff.mp h).resolve_left hx)

lemma cutFrom_skip (sep acc skipped text : List α) :
    cutFrom sep skipped.length acc (skipped ++ text) = cutFrom sep 0 acc text := by
  induction skipped with
  | nil => rfl
  | cons x skipped ih => exact ih

omit [DecidableEq α] in
lemma prefix_append_iff {x : α} (hx : x ∉ sep) (text : List α) : sep <+: d ++ x :: text ↔
    sep <+: d ++ [x] := by
  refine ⟨fun h => ?_, fun h => h.trans ((List.prefix_append_right_inj d).mpr (by simp))⟩
  have hlen : sep.length ≤ d.length := by
    by_contra hlt
    have htake := List.prefix_iff_eq_take.mp h
    apply hx
    rw [htake, List.take_append, show sep.length - d.length =
      sep.length - d.length - 1 + 1 by omega]
    simp
  exact (List.prefix_of_prefix_length_le h (List.prefix_append _ _) hlen).trans
    (List.prefix_append _ _)

lemma cutFrom_append {x : α} (hx : x ∉ sep) (hs : sep ≠ []) (text : List α) (skip : ℕ)
    (hd : skip ≤ d.length) :
    cutFrom sep skip acc (d ++ x :: (sep ++ text)) =
      cutFrom sep skip acc (d ++ [x]) ++ cutFrom sep 0 [] text := by
  induction d generalizing skip acc with
  | nil =>
    obtain rfl : skip = 0 := by simpa using hd
    obtain ⟨y, ys, rfl⟩ := List.exists_cons_of_ne_nil hs
    have hno : ∀ rest, ¬ y :: ys <+: x :: rest := fun rest h => by
      rw [List.cons_prefix_cons] at h
      exact hx (h.1 ▸ List.mem_cons_self)
    have hfirst : cutFrom (y :: ys) 0 (x :: acc) (y :: ys ++ text) =
        (x :: acc).reverse :: cutFrom (y :: ys) ys.length [] (ys ++ text) := by
      have hpre : y :: ys <+: y :: (ys ++ text) := List.prefix_append (y :: ys) text
      rw [List.cons_append, cutFrom, if_pos hpre]
      rfl
    simp only [List.nil_append]
    rw [cutFrom, if_neg (hno _), hfirst, cutFrom_skip, cutFrom, if_neg (hno _)]
    rfl
  | cons z d ih =>
    cases skip with
    | succ skip => exact ih skip (by simpa using hd)
    | zero =>
      rw [List.cons_append, List.cons_append, cutFrom, cutFrom]
      have hiff : sep <+: z :: (d ++ x :: (sep ++ text)) ↔ sep <+: z :: (d ++ [x]) :=
        prefix_append_iff (d := z :: d) hx (sep ++ text)
      by_cases hz : sep <+: z :: (d ++ [x])
      · have hlen : sep.length ≤ d.length + 1 := by
          by_contra hlt
          apply hx
          rw [List.prefix_iff_eq_take.mp hz, List.take_of_length_le (by simp; omega)]
          simp
        rw [if_pos (hiff.mpr hz), if_pos hz, ih _ (by omega), List.cons_append]
      · rw [if_neg (mt hiff.mp hz), if_neg hz, ih 0 (Nat.zero_le _)]

omit [DecidableEq α] in
lemma infix_append_left_iff {start : List α} (hs : sep ≠ []) (h : ∀ x ∈ start, x ∉ sep) :
    sep <:+: start ++ d ↔ sep <:+: d := by
  induction start with
  | nil => rfl
  | cons x start ih =>
    obtain ⟨y, ys, rfl⟩ := List.exists_cons_of_ne_nil hs
    have hx : ¬ y :: ys <+: x :: (start ++ d) := fun hp => by
      rw [List.cons_prefix_cons] at hp
      exact h x List.mem_cons_self (hp.1 ▸ List.mem_cons_self)
    rw [List.cons_append, List.infix_cons_iff, ih fun z hz => h z (List.mem_cons_of_mem _ hz)]
    exact or_iff_right hx

omit [DecidableEq α] in
lemma infix_append_right_iff {last : List α} (hs : sep ≠ []) (h : ∀ x ∈ last, x ∉ sep) :
    sep <:+: d ++ last ↔ sep <:+: d := by
  rw [← List.reverse_infix, List.reverse_append,
    infix_append_left_iff (by simpa using hs) (by simpa using h), List.reverse_infix]

def Closed (sep d : List α) : Prop := ∃ start x, d = start ++ [x] ∧ x ∉ sep

omit [DecidableEq α] in
lemma Closed.ne_nil (h : Closed sep d) : d ≠ [] := by
  obtain ⟨start, x, rfl, -⟩ := h
  simp

lemma cutFrom_intercalate (hs : sep ≠ []) (hne : docs ≠ []) (h : ∀ d ∈ docs, Closed sep d) :
    cutFrom sep 0 [] (sep.intercalate docs) = docs.flatMap (cutFrom sep 0 []) := by
  induction docs with
  | nil => exact absurd rfl hne
  | cons d docs ih =>
    cases docs with
    | nil => simp
    | cons d' docs =>
      obtain ⟨start, x, rfl, hx⟩ := h d List.mem_cons_self
      have hrest := ih (List.cons_ne_nil _ _) fun e he => h e (List.mem_cons_of_mem _ he)
      have hjoin : sep.intercalate ((start ++ [x]) :: d' :: docs) =
          start ++ x :: (sep ++ sep.intercalate (d' :: docs)) := by
        simp [List.intercalate]
      rw [hjoin, cutFrom_append hx hs _ 0 (Nat.zero_le _), hrest]
      rfl

variable (sep) in
lemma cut_intercalate_eq_iff (hs : sep ≠ []) (h : ∀ d ∈ docs, Closed sep d) :
    cut sep (sep.intercalate docs) = docs ↔ ∀ d ∈ docs, ¬ sep <:+: d := by
  cases docs with
  | nil => simp [cut, List.intercalate]
  | cons d docs =>
    have hne : sep.intercalate (d :: docs) ≠ [] := by
      have hd := (h d List.mem_cons_self).ne_nil
      cases docs <;> simp [List.intercalate, hd]
    rw [cut, if_neg hne, cutFrom_intercalate hs (List.cons_ne_nil _ _) h]
    constructor
    · intro heq e he hin
      have hlen := congrArg List.length heq
      have hlt : (d :: docs).length < ((d :: docs).flatMap (cutFrom sep 0 [])).length := by
        have hones : (d :: docs).length = ((d :: docs).map fun _ => 1).sum := by
          simp
          omega
        rw [List.length_flatMap, hones]
        refine List.sum_lt_sum _ _ (fun f _ => ?_) ⟨e, he, ?_⟩
        · exact List.length_pos_iff.mpr (cutFrom_ne_nil sep 0 [] f)
        · exact two_le_length_cutFrom hs hin
      omega
    · intro hall
      have hmap : (d :: docs).flatMap (cutFrom sep 0 []) = (d :: docs).flatMap fun e => [e] := by
        refine List.flatMap_congr fun e he => ?_
        rw [cutFrom_uncut (hall e he)]
        rfl
      rw [hmap, List.flatMap_singleton']

end Foundations
