import ZestDB.Settings
import ZestDB.Foundations.Smallest

/-! What the database is for: a map from keys to values, and what each write means on it. -/

namespace Zest

open Foundations
open scoped Classical

abbrev Store := Key → Option Value

def ValidationRule.bound (valid : ValidationRule) : Option ℕ :=
  if valid.limit = UINT_MAX then none else some valid.limit

namespace Store

def matching (m : Store) (func : Key → Bool) : Set Key := {k | func k = true ∧ (m k).isSome}

/-- The keys a rule concerns: all that match, or the smallest ones. -/
def chosen (m : Store) (valid : ValidationRule) : Set Key :=
  match valid.bound with
  | none => m.matching valid.func
  | some n => smallest (m.matching valid.func) n

noncomputable def putAll (m : Store) (keys : Set Key) (value : Value) : Store :=
  fun k => if k ∈ keys then some value else m k

noncomputable def eraseAll (m : Store) (keys : Set Key) : Store :=
  fun k => if k ∈ keys then none else m k

lemma putAll_empty (m : Store) (value : Value) : m.putAll ∅ value = m := by
  funext k
  simp [putAll]

lemma eraseAll_empty (m : Store) : m.eraseAll ∅ = m := by
  funext k
  simp [eraseAll]

lemma putAll_update (m : Store) (a : Key) (keys : Set Key) (value : Value) :
    putAll (Function.update m a (some value)) keys value = m.putAll (insert a keys) value := by
  funext k
  simp only [putAll, Set.mem_insert_iff, Function.update_apply]
  by_cases hk : k ∈ keys
  · simp [hk]
  · by_cases ha : k = a <;> simp [hk, ha]

lemma eraseAll_update (m : Store) (a : Key) (keys : Set Key) :
    eraseAll (Function.update m a none) keys = m.eraseAll (insert a keys) := by
  funext k
  simp only [eraseAll, Set.mem_insert_iff, Function.update_apply]
  by_cases hk : k ∈ keys
  · simp [hk]
  · by_cases ha : k = a <;> simp [hk, ha]

lemma chosen_subset (m : Store) (valid : ValidationRule) :
    m.chosen valid ⊆ m.matching valid.func := by
  simp only [chosen]
  cases valid.bound with
  | none => exact subset_rfl
  | some n => exact smallest_subset

end Store

inductive Write where
  | set (key : Key) (value : Value)
  | del (key : Key)
  | setBy (valid : ValidationRule) (value : Value)
  | delBy (valid : ValidationRule)

namespace Write

noncomputable def apply : Write → Store → Store
  | .set key value, m => Function.update m key (some value)
  | .del key, m => Function.update m key none
  | .setBy valid value, m => m.putAll (m.chosen valid) value
  | .delBy valid, m => m.eraseAll (m.chosen valid)

def Fits (segSize : ℕ) : Write → Prop
  | .set _ value => value.length ≤ segSize
  | .setBy _ value => value.length ≤ segSize
  | _ => True

/-- A value longer than a segment is refused, and nothing changes. -/
noncomputable def applyWithin (segSize : ℕ) (w : Write) (m : Store) : Store :=
  if w.Fits segSize then w.apply m else m

noncomputable def applyAll (ws : List Write) (m : Store) : Store :=
  ws.foldl (fun m w => w.apply m) m

def value? : Write → Option Value
  | .set _ value => some value
  | .setBy _ value => some value
  | _ => none

def rule? : Write → Option ValidationRule
  | .setBy valid _ => some valid
  | .delBy valid => some valid
  | _ => none

lemma fits_iff {segSize : ℕ} {w : Write} : w.Fits segSize ↔ ∀ v ∈ w.value?, v.length ≤ segSize := by
  cases w <;> simp [Fits, value?]

lemma applyWithin_of_fits {segSize : ℕ} {w : Write} (h : w.Fits segSize) (m : Store) :
    w.applyWithin segSize m = w.apply m := if_pos h

lemma applyWithin_setBy (segSize : ℕ) (valid : ValidationRule) (value : Value) (m : Store) :
    (Write.setBy valid value).applyWithin segSize m =
      if value.length ≤ segSize then m.putAll (m.chosen valid) value else m := by
  by_cases h : value.length ≤ segSize
  · rw [if_pos h, applyWithin_of_fits (show Fits segSize (.setBy valid value) from h)]
    rfl
  · rw [if_neg h, applyWithin, if_neg (show ¬ Fits segSize (.setBy valid value) from h)]

end Write

end Zest
