import Mathlib.Data.Option.Basic

/-! What a command does to one place of a map, without regard to the other places. However such
changes follow one another, the whole of them done twice does no more than done once. -/

namespace Foundations

inductive Change (α : Type) where
  | keep
  | put (x : Option α)
  | replace (a : α)

namespace Change

variable {α : Type} {c d : Change α}

def apply : Change α → Option α → Option α
  | keep, x => x
  | put y, _ => y
  | replace a, x => x.map fun _ => a

def after : Change α → Change α → Change α
  | keep, c => c
  | put y, _ => put y
  | replace a, keep => replace a
  | replace a, put y => put (y.map fun _ => a)
  | replace a, replace _ => replace a

def decides : Change α → Bool
  | put _ => true
  | _ => false

@[simp] lemma apply_after (d c : Change α) (x : Option α) :
    (d.after c).apply x = d.apply (c.apply x) := by
  cases d with
  | keep => rfl
  | put y => rfl
  | replace a =>
    cases c with
    | keep => rfl
    | put y => rfl
    | replace b => simp [after, apply, Function.comp_def]

lemma apply_apply (c : Change α) (x : Option α) : c.apply (c.apply x) = c.apply x := by
  cases c with
  | keep => rfl
  | put y => rfl
  | replace a => simp [apply, Function.comp_def]

lemma apply_of_decides (h : c.decides = true) (x y : Option α) : c.apply x = c.apply y := by
  cases c with
  | put z => rfl
  | keep => cases h
  | replace a => cases h

lemma isSome_of_not_decides (h : c.decides = false) (x : Option α) :
    (c.apply x).isSome = x.isSome := by
  cases c with
  | put z => cases h
  | keep => rfl
  | replace a => simp [apply]

end Change

end Foundations
