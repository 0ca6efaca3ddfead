import ZestDB.Bytes
import ZestDB.Foundations.RecordLog
import ZestDB.Foundations.BufferedFile

/-! `WAL.cpp`: the write-ahead log of one shard. -/

namespace Zest

open Foundations

structure WalEntry where
  cmd : Bytes
  seq : ℕ
deriving DecidableEq, Repr

namespace WalEntry

def NEWLINE : Byte := 10

def core (e : WalEntry) : Bytes := leBytes 4 e.cmd.length ++ e.cmd ++ leBytes 8 e.seq

/-- One turn of the loop of `getCmds`: the record at the front of what is left to read. -/
def take (is : Bytes) : Option (WalEntry × Bytes) :=
  let size := leValue (is.take 4)
  let afterSize := is.drop 4
  let afterCmd := afterSize.drop size
  if is.length < 4 ∨ afterSize.length < size ∨ afterCmd.length < 8 then none
  else
    let rest := afterCmd.drop 8
    some (⟨afterSize.take size, leValue (afterCmd.take 8)⟩,
      if rest.head? = some NEWLINE then rest.tail else rest)

structure Fits (e : WalEntry) : Prop where
  cmd : e.cmd.length < 2 ^ 32
  seq : e.seq < 2 ^ 64

lemma core_length (e : WalEntry) : e.core.length = e.cmd.length + 12 := by
  simp [core]
  omega

lemma core_size (e : WalEntry) (h : e.Fits) (rest : Bytes) :
    leValue ((e.core ++ rest).take 4) = e.cmd.length := by
  have hc := h.cmd
  rw [core, List.append_assoc, List.append_assoc, List.take_left' (by simp), leValue_leBytes]
  norm_num
  omega

lemma core_drop (e : WalEntry) (rest : Bytes) :
    (e.core ++ rest).drop 4 = e.cmd ++ (leBytes 8 e.seq ++ rest) := by
  rw [core, List.append_assoc, List.append_assoc, List.drop_left' (by simp)]

lemma take_core (e : WalEntry) (h : e.Fits) (rest : Bytes) :
    take (e.core ++ rest) = some (e, if rest.head? = some NEWLINE then rest.tail else rest) := by
  have hs := h.seq
  have hl : ¬ ((e.core ++ rest).length < 4 ∨
      (e.cmd ++ (leBytes 8 e.seq ++ rest)).length < e.cmd.length ∨
      (leBytes 8 e.seq ++ rest).length < 8) := by
    simp [core_length]
    omega
  simp only [take, core_size e h, core_drop, List.drop_left' rfl, List.take_left' rfl]
  rw [if_neg hl, List.take_left' (by simp), List.drop_left' (by simp),
    leValue_leBytes _ _ (by norm_num at hs ⊢; omega)]

lemma take_cut (e : WalEntry) (h : e.Fits) (p : Bytes) (hp : p <+: e.core) (hne : p ≠ e.core) :
    take p = none := by
  obtain ⟨t, ht⟩ := hp
  have hlt : p.length < e.core.length := by
    rw [← ht, List.length_append]
    cases t with
    | nil => simp at ht; exact absurd ht hne
    | cons b t => simp
  rw [core_length] at hlt
  simp only [take]
  by_cases h4 : p.length < 4
  · rw [if_pos (Or.inl h4)]
  · have hsize : leValue (p.take 4) = e.cmd.length := by
      rw [← core_size e h [], List.append_nil, ← ht, List.take_append_of_le_length (by omega)]
    rw [if_pos (Or.inr (by rw [hsize]; simp; omega))]

end WalEntry

def walCodec : RecordCodec WalEntry Byte where
  core := WalEntry.core
  pad := [WalEntry.NEWLINE]
  decode := WalEntry.take
  Valid := WalEntry.Fits
  core_ne_nil e h := by
    have := congrArg List.length h
    simp [WalEntry.core_length] at this
  decode_record e h rest := by
    rw [List.append_assoc, e.take_core h]
    simp
  decode_cut_pad e h q hq := by
    rw [e.take_core h]
    rcases List.prefix_cons_iff.mp hq with rfl | ⟨t, rfl, ht⟩
    · simp
    · simp [List.prefix_nil.mp ht]
  decode_cut_core e h p hp hne := e.take_cut h p hp hne

structure WAL where
  file : BufferedFile Byte
  canClear : Bool
  dirty : Bool
deriving DecidableEq, Repr

namespace WAL

def openWal (file : Bytes) : WAL := ⟨.ofContent file, true, false⟩

/-- The size of the command is stored, and the command cut, in 32 bits. -/
def append (wal : WAL) (cmd : Bytes) (seq : ℕ) : WAL :=
  let size := cmd.length % 2 ^ 32
  { file := wal.file.append (leBytes 4 size ++ cmd.take size ++ leBytes 8 seq ++ [WalEntry.NEWLINE])
    canClear := true
    dirty := true }

def sync (wal : WAL) : WAL :=
  if wal.dirty then { wal with file := wal.file.flush, dirty := false } else wal

def clear (wal : WAL) : WAL := if wal.canClear then ⟨.ofContent [], false, false⟩ else wal

def getCmds (wal : WAL) : List WalEntry := (walCodec.decodeAll wal.file.content).1

lemma append_file (wal : WAL) (cmd : Bytes) (seq : ℕ) :
    (wal.append cmd seq).file =
      wal.file.append (walCodec.encode ⟨cmd.take (cmd.length % 2 ^ 32), seq⟩) := by
  have hl : (cmd.take (cmd.length % 2 ^ 32)).length = cmd.length % 2 ^ 32 := by
    rw [List.length_take, min_eq_left (Nat.mod_le _ _)]
  simp only [append, RecordCodec.encode, walCodec, WalEntry.core, hl]

structure Wf (wal : WAL) : Prop where
  clean : wal.dirty = false → wal.file.pending = []
  empty : wal.canClear = false → wal.file.content = []

lemma openWal_wf (file : Bytes) : (openWal file).Wf := ⟨fun _ => rfl, fun h => by cases h⟩

lemma append_wf (wal : WAL) (cmd : Bytes) (seq : ℕ) : (wal.append cmd seq).Wf :=
  ⟨fun h => (by cases h), fun h => by cases h⟩

lemma sync_content (wal : WAL) : wal.sync.file.content = wal.file.content := by
  simp only [sync]
  split_ifs
  · exact wal.file.content_flush
  · rfl

lemma Wf.sync {wal : WAL} (h : wal.Wf) : wal.sync.Wf := by
  refine ⟨fun hd => ?_, fun hc => ?_⟩
  · cases hdirty : wal.dirty with
    | true => simp [WAL.sync, hdirty]
    | false => simpa [WAL.sync, hdirty] using h.clean hdirty
  · rw [sync_content]
    refine h.empty ?_
    simp only [WAL.sync] at hc
    split_ifs at hc
    · exact hc
    · exact hc

lemma Wf.clear_content {wal : WAL} (h : wal.Wf) : wal.clear.file.content = [] := by
  simp only [clear]
  split_ifs with hc
  · rfl
  · exact h.empty (by simpa using hc)

lemma Wf.clear {wal : WAL} (h : wal.Wf) : wal.clear.Wf := by
  simp only [WAL.clear]
  split_ifs
  · exact ⟨fun _ => rfl, fun _ => rfl⟩
  · exact h

lemma Wf.sync_file {wal : WAL} (h : wal.Wf) : wal.sync.file = ⟨wal.file.content, []⟩ := by
  have hp : wal.sync.file.pending = [] := by
    refine h.sync.clean ?_
    simp only [WAL.sync]
    split_ifs with hdirty
    · rfl
    · simpa using hdirty
  have hc := sync_content wal
  rw [BufferedFile.content, hp, List.append_nil] at hc
  rw [← hc, ← hp]

lemma Wf.clear_file {wal : WAL} (h : wal.Wf) : wal.clear.file = ⟨[], []⟩ := by
  obtain ⟨hs, hp⟩ := List.append_eq_nil_iff.mp h.clear_content
  cases hf : wal.clear.file with
  | mk synced pending =>
    rw [hf] at hs hp
    obtain rfl : synced = [] := hs
    obtain rfl : pending = [] := hp
    rfl

lemma getCmds_nil {wal : WAL} (h : wal.file.content = []) : wal.getCmds = [] := by
  rw [getCmds, h]
  rfl

end WAL

end Zest
