import ZestDB.Bytes
import ZestDB.Foundations.RecordLog

/-! `IndexManager.hpp`: index entries and their record in the INDEX file. -/

namespace Zest

open Foundations

def MAX_KEY_SIZE : ℕ := 256
def INVALID_SEGMENT_ID : ℕ := 2 ^ 32 - 1
def INVALID_OFFSET : ℕ := 2 ^ 64 - 1

structure IndexEntry where
  key : Key
  offset : ℕ
  segmentId : ℕ
  size : ℕ
  isTombstone : Bool
deriving DecidableEq, Repr

namespace IndexEntry

def invalid : IndexEntry := ⟨[], INVALID_OFFSET, INVALID_SEGMENT_ID, 0, false⟩

def header (e : IndexEntry) : Bytes :=
  leBytes 4 e.key.length ++ leBytes 8 e.offset ++ leBytes 4 e.segmentId ++ leBytes 4 e.size ++
    [if e.isTombstone then 1 else 0]

def serialize (e : IndexEntry) : Bytes := e.header ++ e.key

def HEADER_SIZE : ℕ := 21

def deserialize (is : Bytes) : Option (IndexEntry × Bytes) :=
  let header := is.take HEADER_SIZE
  let klen := leValue (header.take 4)
  if header.length < HEADER_SIZE ∨ klen > MAX_KEY_SIZE then none
  else
    let rest := is.drop HEADER_SIZE
    if rest.length < klen then none
    else
      some (⟨rest.take klen, leValue ((header.drop 4).take 8), leValue ((header.drop 12).take 4),
        leValue ((header.drop 16).take 4), header.drop 20 ≠ [0]⟩, rest.drop klen)

structure Fits (e : IndexEntry) : Prop where
  key : e.key.length ≤ MAX_KEY_SIZE
  offset : e.offset < 2 ^ 64
  segmentId : e.segmentId < 2 ^ 32
  size : e.size < 2 ^ 32

@[simp] lemma header_length (e : IndexEntry) : e.header.length = HEADER_SIZE := by
  simp [header, HEADER_SIZE]

lemma header_klen (e : IndexEntry) (h : e.Fits) : leValue (e.header.take 4) = e.key.length := by
  have hk := h.key
  rw [header, List.append_assoc, List.append_assoc, List.append_assoc, List.take_left' (by simp),
    leValue_leBytes]
  simp only [MAX_KEY_SIZE] at hk
  omega

lemma deserialize_serialize (e : IndexEntry) (h : e.Fits) (rest : Bytes) :
    deserialize (e.serialize ++ rest) = some (e, rest) := by
  have ht : (e.serialize ++ rest).take HEADER_SIZE = e.header := by
    rw [serialize, List.append_assoc, List.take_left' (by simp)]
  have hd : (e.serialize ++ rest).drop HEADER_SIZE = e.key ++ rest := by
    rw [serialize, List.append_assoc, List.drop_left' (by simp)]
  have ho : leValue ((e.header.drop 4).take 8) = e.offset := by
    rw [header, List.append_assoc, List.append_assoc, List.append_assoc, List.drop_left' (by simp),
      List.take_left' (by simp),
      leValue_leBytes _ _ (by have := h.offset; norm_num at this ⊢; omega)]
  have hs : leValue ((e.header.drop 12).take 4) = e.segmentId := by
    rw [header, List.append_assoc, List.append_assoc, List.drop_left' (by simp),
      List.take_left' (by simp),
      leValue_leBytes _ _ (by have := h.segmentId; norm_num at this ⊢; omega)]
  have hz : leValue ((e.header.drop 16).take 4) = e.size := by
    rw [header, List.append_assoc, List.drop_left' (by simp), List.take_left' (by simp),
      leValue_leBytes _ _ (by have := h.size; norm_num at this ⊢; omega)]
  have hb : (decide (e.header.drop 20 ≠ [0])) = e.isTombstone := by
    rw [header, List.drop_left' (by simp)]
    cases e.isTombstone <;> decide
  have hk := h.key
  simp only [deserialize, ht, hd, header_klen e h, ho, hs, hz, hb, header_length]
  rw [if_neg (by omega), if_neg (by simp), List.take_left' rfl, List.drop_left' rfl]

lemma deserialize_cut (e : IndexEntry) (h : e.Fits) (p : Bytes) (hp : p <+: e.serialize)
    (hne : p ≠ e.serialize) : deserialize p = none := by
  obtain ⟨t, ht⟩ := hp
  have hlt : p.length < e.serialize.length := by
    rw [← ht, List.length_append]
    cases t with
    | nil => simp at ht; exact absurd ht hne
    | cons b t => simp
  simp only [serialize, List.length_append, header_length] at hlt
  by_cases hh : p.length < HEADER_SIZE
  · simp only [deserialize]
    rw [if_pos (Or.inl (by simp; omega))]
  · have hl : p.take HEADER_SIZE = e.header := by
      have := congrArg (List.take HEADER_SIZE) ht
      rwa [List.take_append_of_le_length (by omega), serialize, List.take_left' (by simp)] at this
    have hk := h.key
    simp only [deserialize, hl, header_klen e h, header_length, List.length_drop]
    rw [if_neg (by omega), if_pos (by omega)]

end IndexEntry

def indexCodec : RecordCodec IndexEntry Byte where
  core := IndexEntry.serialize
  pad := []
  decode := IndexEntry.deserialize
  Valid := IndexEntry.Fits
  core_ne_nil e h := by
    have := congrArg List.length h
    simp [IndexEntry.serialize, IndexEntry.HEADER_SIZE] at this
  decode_record e h rest := by simpa using e.deserialize_serialize h rest
  decode_cut_pad e h q hq := by
    obtain rfl : q = [] := List.prefix_nil.mp hq
    simpa using e.deserialize_serialize h []
  decode_cut_core e h p hp hne := e.deserialize_cut h p hp hne

end Zest
