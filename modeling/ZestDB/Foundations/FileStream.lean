import Mathlib.Algebra.Order.Group.Nat
import Mathlib.Data.List.TakeDrop

/-! A file stream: the content of the file, one position for reading and writing, and whether the
stream is good. Each call is given how it fails, if it does. -/

namespace Foundations

structure FileStream (α : Type) where
  content : List α
  pos : ℕ
  good : Bool
deriving DecidableEq, Repr

namespace FileStream

variable {α : Type}

def maxOffset : ℕ := 2 ^ 63

def clear (f : FileStream α) : FileStream α := { f with good := true }

def seek (fails : Option ℕ) (offset : ℕ) (f : FileStream α) : FileStream α :=
  if f.good then
    match fails with
    | some pos => { f with pos := pos, good := false }
    | none => if offset < maxOffset then { f with pos := offset } else { f with good := false }
  else f

def read (fails : Option ℕ) (size : ℕ) (f : FileStream α) : List α × FileStream α :=
  if f.good then
    let got := (f.content.drop f.pos).take (min (fails.getD size) size)
    (got, { f with pos := f.pos + got.length, good := got.length = size })
  else ([], f)

variable {f : FileStream α} {xs ys : List α} {n pos offset size : ℕ}

@[simp] lemma clear_content : f.clear.content = f.content := rfl

@[simp] lemma clear_good : f.clear.good = true := rfl

@[simp] lemma seek_content (fails : Option ℕ) (offset : ℕ) :
    (f.seek fails offset).content = f.content := by
  cases fails with
  | some pos =>
    simp only [seek]
    split_ifs <;> rfl
  | none =>
    simp only [seek]
    split_ifs <;> rfl

lemma seek_good {fails : Option ℕ} (h : (f.seek fails offset).good = true) :
    fails = none ∧ offset < maxOffset ∧ (f.seek fails offset).pos = offset := by
  cases fails with
  | some pos =>
    simp only [seek] at h
    split_ifs at h with hg
    exact absurd h hg
  | none =>
    simp only [seek] at h ⊢
    split_ifs at h ⊢ with hg ho
    · exact ⟨trivial, ho, rfl⟩
    · exact absurd h hg

lemma seek_none (hg : f.good = true) (ho : offset < maxOffset) :
    f.seek none offset = { f with pos := offset } := by
  rw [seek, if_pos hg]
  exact if_pos ho

@[simp] lemma read_content (fails : Option ℕ) (size : ℕ) :
    (f.read fails size).2.content = f.content := by
  unfold read
  split_ifs <;> rfl

lemma read_whole {fails : Option ℕ} (hg : f.good = true) (h : (f.read fails size).1.length = size) :
    (f.read fails size).1 = (f.content.drop f.pos).take size := by
  unfold read at h ⊢
  rw [if_pos hg] at h ⊢
  dsimp only at h ⊢
  have hle : size ≤ min (fails.getD size) size := by
    rw [List.length_take] at h
    omega
  rw [min_eq_right (hle.trans (min_le_left _ _))]

lemma read_none (hg : f.good = true) : (f.read none size).1 = (f.content.drop f.pos).take size := by
  rw [read, if_pos hg]
  simp

variable [Zero α]

/-- `ys` over the content from `pos` on, after a gap of zeros when the content is shorter. -/
def overwrite (xs : List α) (pos : ℕ) (ys : List α) : List α :=
  xs.take pos ++ List.replicate (pos - xs.length) 0 ++ ys ++ xs.drop (pos + ys.length)

def write (fails : Option (ℕ × ℕ)) (ys : List α) (f : FileStream α) : FileStream α :=
  if f.good then
    match fails with
    | some (kept, pos) => ⟨overwrite f.content f.pos (ys.take kept), pos, false⟩
    | none =>
      if f.pos + ys.length < maxOffset then ⟨overwrite f.content f.pos ys, f.pos + ys.length, true⟩
      else { f with good := false }
  else f

lemma overwrite_take (hn : n ≤ pos) (hx : pos ≤ xs.length) :
    (overwrite xs pos ys).take n = xs.take n := by
  have hpos : (xs.take pos).length = pos := by rw [List.length_take, min_eq_left hx]
  rw [overwrite, List.append_assoc, List.append_assoc, List.take_append_of_le_length (by omega),
    List.take_take, min_eq_left hn]

lemma overwrite_end (hx : pos ≤ xs.length) :
    (overwrite xs pos ys).take (pos + ys.length) = xs.take pos ++ ys := by
  have hpos : (xs.take pos).length = pos := by rw [List.length_take, min_eq_left hx]
  rw [overwrite, Nat.sub_eq_zero_of_le hx, List.replicate_zero, List.append_nil]
  apply List.take_left'
  rw [List.length_append, hpos]

lemma overwrite_length (hx : pos ≤ xs.length) :
    (overwrite xs pos ys).length = max xs.length (pos + ys.length) := by
  simp only [overwrite, List.length_append, List.length_take, List.length_replicate,
    List.length_drop]
  omega

lemma write_keeps (fails : Option (ℕ × ℕ)) (ys : List α)
    (hp : f.good = true → f.pos ≤ f.content.length)
    (hn : f.good = true → n ≤ f.pos) : (f.write fails ys).content.take n = f.content.take n := by
  cases fails with
  | some p =>
    simp only [write]
    split_ifs with hg
    · exact overwrite_take (hn hg) (hp hg)
    · rfl
  | none =>
    simp only [write]
    split_ifs with hg
    · exact overwrite_take (hn hg) (hp hg)
    · rfl
    · rfl

lemma write_grows (fails : Option (ℕ × ℕ)) (ys : List α)
    (hp : f.good = true → f.pos ≤ f.content.length) :
    f.content.length ≤ (f.write fails ys).content.length := by
  have hover : ∀ zs : List α, f.good = true →
      f.content.length ≤ (overwrite f.content f.pos zs).length := by
    intro zs hg
    rw [overwrite_length (hp hg)]
    exact le_max_left _ _
  cases fails with
  | some p =>
    simp only [write]
    split_ifs with hg
    · exact hover _ hg
    · exact le_rfl
  | none =>
    simp only [write]
    split_ifs with hg
    · exact hover _ hg
    · exact le_rfl
    · exact le_rfl

lemma write_good {fails : Option (ℕ × ℕ)} (h : (f.write fails ys).good = true) :
    f.good = true ∧ f.pos + ys.length < maxOffset ∧
      f.write fails ys = ⟨overwrite f.content f.pos ys, f.pos + ys.length, true⟩ := by
  cases fails with
  | some p =>
    simp only [write] at h
    split_ifs at h with hg
    exact absurd h hg
  | none =>
    simp only [write] at h ⊢
    split_ifs at h ⊢ with hg hm
    · exact ⟨hg, hm, rfl⟩
    · exact absurd h hg

lemma write_none (hg : f.good = true) (hm : f.pos + ys.length < maxOffset) :
    f.write none ys = ⟨overwrite f.content f.pos ys, f.pos + ys.length, true⟩ := by
  rw [write, if_pos hg]
  exact if_pos hm

end FileStream

end Foundations
