import Mathlib.Data.List.AList

/-! Lookup and size of association maps after an update. -/

namespace AList

variable {α : Type} {β : Type} [DecidableEq α]

lemma lookup_insert_ite (m : AList (fun _ : α => β)) (a k : α) (b : β) :
    (m.insert a b).lookup k = if k = a then some b else m.lookup k := by
  split_ifs with h
  · subst h
    exact lookup_insert m
  · exact lookup_insert_ne h

lemma lookup_erase_ite (m : AList (fun _ : α => β)) (a k : α) :
    (m.erase a).lookup k = if k = a then none else m.lookup k := by
  split_ifs with h
  · subst h
    exact lookup_erase k m
  · exact lookup_erase_ne h

lemma mem_iff_lookup {m : AList (fun _ : α => β)} {k : α} :
    k ∈ m.keys ↔ ∃ b, m.lookup k = some b := by
  rw [← mem_keys, ← lookup_isSome, Option.isSome_iff_exists]

lemma keys_erase_length {m : AList (fun _ : α => β)} {a : α} {b : β} (h : m.lookup a = some b) :
    (m.erase a).keys.length + 1 = m.keys.length := by
  have hm : a ∈ m.keys := mem_iff_lookup.mpr ⟨b, h⟩
  rw [keys_erase, List.length_erase_of_mem hm, Nat.sub_add_cancel (List.length_pos_of_mem hm)]

lemma keys_erase_length_absent {m : AList (fun _ : α => β)} {a : α} (h : m.lookup a = none) :
    (m.erase a).keys.length = m.keys.length := by
  rw [keys_erase, List.erase_of_not_mem (fun hm => lookup_eq_none.mp h (mem_keys.mpr hm))]

lemma keys_insert_length (m : AList (fun _ : α => β)) (a : α) (b : β) :
    (m.insert a b).keys.length = (m.erase a).keys.length + 1 := by
  simp only [keys_insert, keys_erase, List.length_cons]

end AList
