import Mathlib.Data.List.Infix

/-! A file behind a buffered stream that is only appended to. What was flushed survives a
crash; of what was written since, an arbitrary prefix does. -/

namespace Foundations

structure BufferedFile (α : Type) where
  synced : List α
  pending : List α
deriving DecidableEq, Repr

namespace BufferedFile

variable {α : Type}

def content (f : BufferedFile α) : List α := f.synced ++ f.pending

def ofContent (xs : List α) : BufferedFile α := ⟨xs, []⟩

def append (f : BufferedFile α) (xs : List α) : BufferedFile α :=
  { f with pending := f.pending ++ xs }

def flush (f : BufferedFile α) : BufferedFile α := ⟨f.content, []⟩

/-- A write at the position `p`: what it changes of the flushed part is not flushed any more. -/
def writeAt (f : BufferedFile α) (p : ℕ) (xs : List α) : BufferedFile α where
  synced := f.synced.take p
  pending := (f.content.take p ++ xs ++ f.content.drop (p + xs.length)).drop
    (f.synced.take p).length

def Survives (f : BufferedFile α) (xs : List α) : Prop :=
  ∃ kept, kept <+: f.pending ∧ xs = f.synced ++ kept

@[simp] lemma content_ofContent (xs : List α) : (ofContent xs).content = xs := by
  simp [ofContent, content]

@[simp] lemma content_append (f : BufferedFile α) (xs : List α) :
    (f.append xs).content = f.content ++ xs := by
  simp [append, content]

@[simp] lemma synced_append (f : BufferedFile α) (xs : List α) : (f.append xs).synced = f.synced :=
  rfl

lemma writeAt_end (f : BufferedFile α) (xs : List α) :
    f.writeAt f.content.length xs = f.append xs := by
  have hsynced : f.synced.take f.content.length = f.synced :=
    List.take_of_length_le (by simp [content])
  have hnone : f.content.drop (f.content.length + xs.length) = [] :=
    List.drop_of_length_le (by omega)
  rw [writeAt, hsynced, hnone, List.take_length, List.append_nil, content, List.append_assoc,
    List.drop_left]
  rfl

@[simp] lemma content_flush (f : BufferedFile α) : f.flush.content = f.content := by
  simp [flush, content]

@[simp] lemma pending_flush (f : BufferedFile α) : f.flush.pending = [] := rfl

lemma Survives.le_content {f : BufferedFile α} {xs : List α} (h : f.Survives xs) :
    xs <+: f.content := by
  obtain ⟨kept, hk, rfl⟩ := h
  exact (List.prefix_append_right_inj _).mpr hk

lemma Survives.synced_le {f : BufferedFile α} {xs : List α} (h : f.Survives xs) :
    f.synced <+: xs := by
  obtain ⟨kept, _, rfl⟩ := h
  exact List.prefix_append _ _

lemma survives_content (f : BufferedFile α) : f.Survives f.content :=
  ⟨f.pending, List.prefix_rfl, rfl⟩

lemma survives_synced (f : BufferedFile α) : f.Survives f.synced := ⟨[], List.nil_prefix, by simp⟩

lemma Survives.eq_of_flushed {f : BufferedFile α} {xs : List α} (h : f.Survives xs)
    (hp : f.pending = []) :
    xs = f.content := by
  obtain ⟨kept, hk, rfl⟩ := h
  rw [hp, List.prefix_nil] at hk
  simp [content, hp, hk]

end BufferedFile

end Foundations
