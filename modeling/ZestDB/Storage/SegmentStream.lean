import ZestDB.Storage.StorageManager
import ZestDB.Foundations.FileStream

/-! `DataSegment.cpp` on its file stream, where writes and reads share one position and each
operation of the stream may fail. -/

namespace Zest

open Foundations

structure SegmentStream where
  segment : FileStream Byte
  currentOffset : ℕ
  canFlush : Bool
  atWriteEnd : Bool
deriving DecidableEq, Repr

namespace SegmentStream

def refreshFullStatus (seekg seekp : Option ℕ) (s : SegmentStream) : SegmentStream :=
  let segment := s.segment.seek seekg s.segment.content.length
  { s with
    segment := segment.seek seekp segment.content.length
    currentOffset := if segment.good then segment.pos else 2 ^ 64 - 1 }

def openSegment (seekg seekp : Option ℕ) (file : Bytes) : SegmentStream :=
  refreshFullStatus seekg seekp ⟨⟨file, 0, true⟩, 0, false, false⟩

def writeHere (segSize : ℕ) (fails : Option (ℕ × ℕ)) (value : Value) (s : SegmentStream) :
    ℕ × SegmentStream :=
  let segment := s.segment.write fails value
  if segment.good then
    (s.currentOffset,
      { segment := segment, currentOffset := (s.currentOffset + value.length) % 2 ^ 64,
        canFlush := true,
        atWriteEnd := true })
  else
    ((segSize + 1) % 2 ^ 64,
      { segment := segment, currentOffset := s.currentOffset, canFlush := true,
        atWriteEnd := false })

/-- The seek is left out when the last operation was a write. -/
def write (segSize : ℕ) (seekp : Option ℕ) (fails : Option (ℕ × ℕ)) (value : Value)
    (s : SegmentStream) :
    ℕ × SegmentStream :=
  if (s.currentOffset + value.length) % 2 ^ 64 > segSize then ((segSize + 1) % 2 ^ 64, s)
  else if s.atWriteEnd then writeHere segSize fails value s
  else
    let sought := { s with segment := s.segment.clear.seek seekp s.currentOffset }
    if sought.segment.good then writeHere segSize fails value sought
    else ((segSize + 1) % 2 ^ 64, sought)

def read (seekg fails : Option ℕ) (offset size : ℕ) (s : SegmentStream) : Bytes × SegmentStream :=
  let sought := s.segment.clear.seek seekg offset
  if sought.good then
    let res := sought.read fails size
    (if res.1.length ≠ size then [] else res.1, { s with segment := res.2, atWriteEnd := false })
  else ([], { s with segment := sought, atWriteEnd := false })

/-- `flushed` and `synced` say how the flush of the stream and the sync of the file go. -/
def flush (flushed synced : Bool) (s : SegmentStream) : Bool × SegmentStream :=
  if s.canFlush then
    let segment := { s.segment with good := s.segment.good && flushed }
    if segment.good && synced then (true, { s with segment := segment, canFlush := false })
    else (false, { s with segment := segment })
  else (true, s)

/-- A call on a segment with the `SegSize` it sees and the failures it meets. Sizes are 32 bits
wide. -/
inductive Call where
  | write (segSize : ℕ) (seekp : Option ℕ) (fails : Option (ℕ × ℕ)) (value : Value)
  | read (seekg fails : Option ℕ) (offset : ℕ) (size : Fin (2 ^ 32))
  | flush (flushed synced : Bool)

inductive Reply where
  | position (offset : ℕ)
  | value (res : Bytes)
  | flushed (ok : Bool)
deriving DecidableEq, Repr

def step (c : Call) (s : SegmentStream) : Reply × SegmentStream :=
  match c with
  | .write segSize seekp fails value =>
    let r := s.write segSize seekp fails value
    (.position r.1, r.2)
  | .read seekg fails offset size =>
    let r := s.read seekg fails offset size
    (.value r.1, r.2)
  | .flush flushed synced =>
    let r := s.flush flushed synced
    (.flushed r.1, r.2)

def run : List Call → SegmentStream → List (Call × Reply) × SegmentStream
  | [], s => ([], s)
  | c :: cs, s => ((c, (s.step c).1) :: (run cs (s.step c).2).1, (run cs (s.step c).2).2)

def reported : Call × Reply → Option (ℕ × Value)
  | (.write segSize _ _ value, .position offset) =>
    if offset = (segSize + 1) % 2 ^ 64 then none else some (offset, value)
  | _ => none

/-- A write sees a `SegSize` whose successor is a number of 64 bits. -/
def Call.Sized : Call → Prop
  | .write segSize _ _ _ => segSize < 2 ^ 64 - 1
  | .read .. => True
  | .flush .. => True

def Consecutive : ℕ → List (ℕ × Value) → Prop
  | _, [] => True
  | start, (o, v) :: w => o = start ∧ Consecutive (start + v.length) w

def values (w : List (ℕ × Value)) : Bytes := w.flatMap Prod.snd

lemma Consecutive.concat {start o : ℕ} {v : Value} {w : List (ℕ × Value)} (h : Consecutive start w)
    (ho : o = start + (values w).length) : Consecutive start (w ++ [(o, v)]) := by
  induction w generalizing start with
  | nil => exact ⟨by simpa [values] using ho, trivial⟩
  | cons p w ih =>
    refine ⟨h.1, ih h.2 ?_⟩
    rw [ho]
    simp [values, Nat.add_assoc]

lemma Consecutive.le_mem {start o : ℕ} {v : Value} {w : List (ℕ × Value)} (h : Consecutive start w)
    (hm : (o, v) ∈ w) : start ≤ o := by
  induction w generalizing start with
  | nil => cases hm
  | cons p w ih =>
    rcases List.mem_cons.mp hm with rfl | hm
    · exact h.1.ge
    · exact (Nat.le_add_right _ _).trans (ih h.2 hm)

lemma Consecutive.disjoint {start : ℕ} {w : List (ℕ × Value)} (h : Consecutive start w) :
    w.Pairwise fun a b => a.1 + a.2.length ≤ b.1 := by
  induction w generalizing start with
  | nil => exact List.Pairwise.nil
  | cons p w ih =>
    apply List.pairwise_cons.mpr
    refine ⟨fun q hq => ?_, ih h.2⟩
    rw [h.1]
    exact h.2.le_mem hq

lemma Consecutive.slice {file : Bytes} {o : ℕ} {v : Value} {w : List (ℕ × Value)}
    (h : Consecutive file.length w)
    (hm : (o, v) ∈ w) : ((file ++ values w).drop o).take v.length = v ∧
    o + v.length ≤ (file ++ values w).length := by
  induction w generalizing file with
  | nil => cases hm
  | cons p w ih =>
    have hsplit : file ++ values (p :: w) = file ++ p.2 ++ values w := by simp [values]
    rw [hsplit]
    rcases List.mem_cons.mp hm with rfl | hm
    · rw [show o = file.length from h.1, List.append_assoc, List.drop_left, List.take_left]
      simp
    · exact ih (by simpa using h.2) hm

/-- The file holds `file` and the reported values up to the current offset, which is where the
stream is after a write. -/
structure Holds (file : Bytes) (w : List (ℕ × Value)) (s : SegmentStream) : Prop where
  room : s.currentOffset ≤ s.segment.content.length
  offset : s.currentOffset < FileStream.maxOffset
  position : s.atWriteEnd = true → s.segment.good = true → s.segment.pos = s.currentOffset
  content : s.segment.content.take s.currentOffset = file ++ values w
  consecutive : Consecutive file.length w

/-- The segment knows its size, or has none and nothing was written. -/
def Coherent (file : Bytes) (w : List (ℕ × Value)) (s : SegmentStream) : Prop :=
  s.Holds file w ∨ (s.currentOffset = 2 ^ 64 - 1 ∧ s.atWriteEnd = false ∧ w = [])

variable {file : Bytes} {w : List (ℕ × Value)} {s : SegmentStream}

lemma openSegment_coherent (seekg seekp : Option ℕ) (file : Bytes) :
    (openSegment seekg seekp file).Coherent file [] := by
  by_cases hg : ((⟨file, 0, true⟩ : FileStream Byte).seek seekg file.length).good = true
  · left
    obtain ⟨-, hlt, hpos⟩ := FileStream.seek_good hg
    have hoffset : (openSegment seekg seekp file).currentOffset = file.length := by
      rw [← hpos]
      exact if_pos hg
    have hcontent : (openSegment seekg seekp file).segment.content = file := by
      simp [openSegment, refreshFullStatus]
    refine ⟨by rw [hoffset, hcontent], by rwa [hoffset], fun h => (by cases h), ?_, trivial⟩
    rw [hoffset, hcontent, List.take_length]
    simp [values]
  · exact Or.inr ⟨if_neg hg, rfl, rfl⟩

lemma Holds.writeHere (h : s.Holds file w)
    (hpos : s.segment.good = true → s.segment.pos = s.currentOffset)
    (segSize : ℕ) (fails : Option (ℕ × ℕ)) (value : Value) :
    ((s.writeHere segSize fails value).1 = s.currentOffset ∧ s.currentOffset + value.length <
      2 ^ 64 ∧ (s.writeHere segSize fails value).2.Holds file (w ++ [(s.currentOffset, value)])) ∨
      ((s.writeHere segSize fails value).1 = (segSize + 1) % 2 ^ 64 ∧
        (s.writeHere segSize fails value).2.Holds file w) := by
  have hroom := h.room
  have hoffset : s.currentOffset = file.length + (values w).length := by
    rw [← List.length_append, ← h.content, List.length_take, min_eq_left h.room]
  by_cases hg : (s.segment.write fails value).good = true
  · left
    obtain ⟨hgood, hmax, hw⟩ := FileStream.write_good hg
    rw [hpos hgood] at hmax hw
    have hlt : s.currentOffset + value.length < 2 ^ 64 := hmax.trans (by decide)
    simp only [SegmentStream.writeHere, if_pos hg]
    refine ⟨trivial, hlt, ?_, ?_, ?_, ?_, h.consecutive.concat hoffset⟩
    all_goals simp only [Nat.mod_eq_of_lt hlt, hw]
    · rw [FileStream.overwrite_length hroom]
      exact le_max_right _ _
    · exact hmax
    · exact fun _ _ => trivial
    · rw [FileStream.overwrite_end hroom, h.content]
      simp [values]
  · right
    simp only [SegmentStream.writeHere, if_neg hg]
    have hle : s.segment.good = true → s.segment.pos ≤ s.segment.content.length :=
      fun hg => (hpos hg).trans_le hroom
    refine ⟨trivial, ?_, h.offset, fun h => (by cases h), ?_, h.consecutive⟩
    · exact hroom.trans (FileStream.write_grows fails value hle)
    · rw [← h.content]
      exact FileStream.write_keeps fails value hle fun hg => (hpos hg).ge

lemma Holds.sought (h : s.Holds file w) {segment : FileStream Byte}
    (hcontent : segment.content = s.segment.content)
    (hpos : s.atWriteEnd = true → segment.good = true → segment.pos = s.currentOffset) :
    Holds file w { s with segment := segment } :=
  ⟨h.room.trans_eq (by rw [hcontent]), h.offset, hpos, by rw [hcontent]; exact h.content,
    h.consecutive⟩

lemma Holds.write (h : s.Holds file w) {segSize : ℕ} (hsize : segSize < 2 ^ 64 - 1)
    (seekp : Option ℕ) (fails : Option (ℕ × ℕ)) (value : Value) :
    ((s.write segSize seekp fails value).1 ≠ (segSize + 1) % 2 ^ 64 ∧
        (s.write segSize seekp fails value).2.Holds file
        (w ++ [((s.write segSize seekp fails value).1, value)])) ∨
      ((s.write segSize seekp fails value).1 = (segSize + 1) % 2 ^ 64 ∧
        (s.write segSize seekp fails value).2.Holds file w) := by
  by_cases hfull : (s.currentOffset + value.length) % 2 ^ 64 > segSize
  · simp only [SegmentStream.write, if_pos hfull]
    exact Or.inr ⟨trivial, h⟩
  · -- a write that goes well reports an offset below `SegSize + 1`
    have key : ∀ t : SegmentStream, t.currentOffset = s.currentOffset → t.Holds file w →
        (t.segment.good = true → t.segment.pos = t.currentOffset) →
        ((t.writeHere segSize fails value).1 ≠ (segSize + 1) % 2 ^ 64 ∧
            (t.writeHere segSize fails value).2.Holds file
            (w ++ [((t.writeHere segSize fails value).1, value)])) ∨
          ((t.writeHere segSize fails value).1 = (segSize + 1) % 2 ^ 64 ∧
            (t.writeHere segSize fails value).2.Holds file w) := by
      intro t ht hholds hpos
      rcases hholds.writeHere hpos segSize fails value with ⟨h1, hlt, h2⟩ | h2
      · rw [h1]
        rw [ht] at hlt ⊢
        rw [Nat.mod_eq_of_lt hlt] at hfull
        refine Or.inl ⟨?_, by rwa [ht] at h2⟩
        rw [Nat.mod_eq_of_lt (by omega)]
        omega
      · exact Or.inr h2
    cases hend : s.atWriteEnd with
    | true =>
      simp only [SegmentStream.write, if_neg hfull, hend, if_true]
      exact key s rfl h (h.position hend)
    | false =>
      rw [SegmentStream.write, if_neg hfull, if_neg (by simp [hend])]
      dsimp only
      have hsought : Holds file w
          { s with segment := s.segment.clear.seek seekp s.currentOffset } :=
        h.sought (by simp) fun hc => absurd hc (by simp [hend])
      split_ifs with hg
      · exact key _ rfl hsought fun hg => (FileStream.seek_good hg).2.2
      · exact Or.inr ⟨rfl, hsought⟩

lemma Holds.left (h : s.Holds file w) {segment : FileStream Byte} (hcontent : segment.content =
    s.segment.content) :
    Holds file w { s with segment := segment, atWriteEnd := false } :=
  ⟨h.room.trans_eq (by rw [hcontent]), h.offset,
    fun hc => (by cases hc), by rw [hcontent]; exact h.content, h.consecutive⟩

lemma Holds.read (h : s.Holds file w) (seekg fails : Option ℕ) (offset size : ℕ) :
    (s.read seekg fails offset size).2.Holds file w := by
  by_cases hg : (s.segment.clear.seek seekg offset).good = true
  · simp only [SegmentStream.read, if_pos hg]
    exact h.left (by simp)
  · simp only [SegmentStream.read, if_neg hg]
    exact h.left (by simp)

lemma Holds.flush (h : s.Holds file w) (flushed synced : Bool) :
    (s.flush flushed synced).2.Holds file w := by
  have hpos : s.atWriteEnd = true → (s.segment.good && flushed) = true →
      s.segment.pos = s.currentOffset := by
    intro hend hgood
    exact h.position hend (Bool.and_eq_true_iff.mp hgood).1
  rw [SegmentStream.flush]
  dsimp only
  split_ifs
  · exact ⟨h.room, h.offset, hpos, h.content, h.consecutive⟩
  · exact ⟨h.room, h.offset, hpos, h.content, h.consecutive⟩
  · exact h

lemma write_unknown (hoffset : s.currentOffset = 2 ^ 64 - 1) (hend : s.atWriteEnd = false)
    (segSize : ℕ) (seekp : Option ℕ) (fails : Option (ℕ × ℕ)) (value : Value) :
    (s.write segSize seekp fails value).1 = (segSize + 1) % 2 ^ 64 ∧
      (s.write segSize seekp fails value).2.currentOffset = 2 ^ 64 - 1 ∧
      (s.write segSize seekp fails value).2.atWriteEnd = false := by
  have hg : ¬ (s.segment.clear.seek seekp s.currentOffset).good = true := by
    intro hg
    have hlt := (FileStream.seek_good hg).2.1
    rw [hoffset] at hlt
    exact absurd hlt (by decide)
  rw [SegmentStream.write, if_neg (c := s.atWriteEnd = true) (by simp [hend])]
  dsimp only
  split_ifs
  · exact ⟨rfl, hoffset, hend⟩
  · exact ⟨rfl, hoffset, hend⟩

lemma read_leaves (s : SegmentStream) (seekg fails : Option ℕ) (offset size : ℕ) :
    (s.read seekg fails offset size).2.currentOffset = s.currentOffset ∧
      (s.read seekg fails offset size).2.atWriteEnd = false := by
  rw [SegmentStream.read]
  dsimp only
  by_cases hg : (s.segment.clear.seek seekg offset).good = true
  · rw [if_pos hg]
    exact ⟨rfl, rfl⟩
  · rw [if_neg hg]
    exact ⟨rfl, rfl⟩

lemma flush_leaves (s : SegmentStream) (flushed synced : Bool) :
    (s.flush flushed synced).2.currentOffset = s.currentOffset ∧
      (s.flush flushed synced).2.atWriteEnd = s.atWriteEnd := by
  rw [SegmentStream.flush]
  dsimp only
  split_ifs
  · exact ⟨rfl, rfl⟩
  · exact ⟨rfl, rfl⟩
  · exact ⟨rfl, rfl⟩

lemma Coherent.step (h : s.Coherent file w) {c : Call} (hc : c.Sized) :
    (s.step c).2.Coherent file (w ++ (reported (c, (s.step c).1)).toList) := by
  cases c with
  | write segSize seekp fails value =>
    simp only [SegmentStream.step, reported]
    rcases h with h | ⟨hoffset, hend, rfl⟩
    · rcases h.write hc seekp fails value with ⟨hne, hw⟩ | ⟨heq, hw⟩
      · rw [if_neg hne]
        exact Or.inl hw
      · rw [if_pos heq]
        exact Or.inl (by simpa using hw)
    · obtain ⟨heq, hrest⟩ := write_unknown hoffset hend segSize seekp fails value
      rw [if_pos heq]
      exact Or.inr ⟨hrest.1, hrest.2, rfl⟩
  | read seekg fails offset size =>
    rw [show reported _ = none from rfl, Option.toList_none, List.append_nil]
    rcases h with h | ⟨hoffset, hend, rfl⟩
    · exact Or.inl (h.read seekg fails offset size)
    · obtain ⟨ho, he⟩ := s.read_leaves seekg fails offset size
      exact Or.inr ⟨ho.trans hoffset, he, rfl⟩
  | flush flushed synced =>
    rw [show reported _ = none from rfl, Option.toList_none, List.append_nil]
    rcases h with h | ⟨hoffset, hend, rfl⟩
    · exact Or.inl (h.flush flushed synced)
    · obtain ⟨ho, he⟩ := s.flush_leaves flushed synced
      exact Or.inr ⟨ho.trans hoffset, he.trans hend, rfl⟩

lemma Coherent.run {cs : List Call} (h : s.Coherent file w) (hcs : ∀ c ∈ cs, c.Sized) :
    (SegmentStream.run cs s).2.Coherent file
    (w ++ (SegmentStream.run cs s).1.filterMap reported) := by
  induction cs generalizing s w with
  | nil => simpa [SegmentStream.run] using h
  | cons c cs ih =>
    have hlater := ih (h.step (hcs c (by simp))) fun d hd => hcs d (by simp [hd])
    rw [List.append_assoc] at hlater
    rw [SegmentStream.run, List.filterMap_cons]
    cases hr : reported (c, (s.step c).1) with
    | none => simpa [hr] using hlater
    | some p => simpa [hr] using hlater

lemma Holds.read_back (h : s.Holds file w) {o : ℕ} {v : Value} (hv : (o, v) ∈ w)
    (seekg fails : Option ℕ) :
    ((s.read seekg fails o v.length).2.segment.good = true →
      (s.read seekg fails o v.length).1 = v) ∧
      (s.read none none o v.length).2.segment.good = true := by
  obtain ⟨hslice, hle⟩ := h.consecutive.slice hv
  rw [← h.content] at hslice hle
  rw [List.length_take, min_eq_left h.room] at hle
  have hoffset := h.offset
  have hbytes : (s.segment.content.drop o).take v.length = v := by
    rw [List.drop_take, List.take_take, min_eq_left (by omega)] at hslice
    exact hslice
  have hsought : s.segment.clear.seek none o = { s.segment.clear with pos := o } :=
    FileStream.seek_none rfl (by omega)
  constructor
  · intro hgood
    by_cases hg : (s.segment.clear.seek seekg o).good = true
    · simp only [SegmentStream.read, if_pos hg] at hgood ⊢
      have hlen : ((s.segment.clear.seek seekg o).read fails v.length).1.length = v.length := by
        simp only [FileStream.read, if_pos hg] at hgood ⊢
        exact of_decide_eq_true hgood
      rw [if_neg (not_not.mpr hlen), FileStream.read_whole hg hlen, (FileStream.seek_good hg).2.2]
      simpa using hbytes
    · simp only [SegmentStream.read, if_neg hg] at hgood
      exact absurd hgood hg
  · simp only [SegmentStream.read, hsought, FileStream.clear_good, if_true, FileStream.read]
    simpa using congrArg List.length hbytes

/-- In every run of calls, whatever fails in them, the reported ranges follow each other from the
end of the file as it was opened, and each is read back as what was written there. -/
theorem run_coherent (seekg seekp : Option ℕ) (file : Bytes) {cs : List Call}
    (hcs : ∀ c ∈ cs, c.Sized) :
    Consecutive file.length ((run cs (openSegment seekg seekp file)).1.filterMap reported) ∧
      ((run cs (openSegment seekg seekp file)).1.filterMap reported).Pairwise
      (fun a b => a.1 + a.2.length ≤ b.1) ∧
      ∀ o v, (o, v) ∈ (run cs (openSegment seekg seekp file)).1.filterMap reported →
        ∀ size : Fin (2 ^ 32), size.val = v.length → ∀ seekg' fails : Option ℕ,
          (((run cs (openSegment seekg seekp file)).2.read seekg' fails o size).2.segment.good =
            true → ((run cs (openSegment seekg seekp file)).2.read seekg' fails o size).1 = v) ∧
          ((run cs (openSegment seekg seekp file)).2.read none none o size).2.segment.good =
            true := by
  have hrun := (openSegment_coherent seekg seekp file).run hcs
  rw [List.nil_append] at hrun
  rcases hrun with h | ⟨-, -, hnone⟩
  · refine ⟨h.consecutive, h.consecutive.disjoint, ?_⟩
    intro o v hv size hsize seekg' fails
    rw [hsize]
    exact h.read_back hv seekg' fails
  · rw [hnone]
    refine ⟨trivial, List.Pairwise.nil, ?_⟩
    intro o v hv
    cases hv

def fourCalls : List Call :=
  [.write 100 none none [97, 98], .write 60 none (some (1, 7)) [99, 100],
    .read none none 9 ⟨3, by decide⟩, .write 50 none none [101]]

lemma fourCalls_sized : ∀ c ∈ fourCalls, c.Sized := by
  intro c hc
  simp only [fourCalls, List.mem_cons, List.not_mem_nil, or_false] at hc
  rcases hc with rfl | rfl | rfl | rfl
  all_goals simp [Call.Sized]

theorem fourCalls_coherent :
    (run fourCalls (openSegment none none [7])).1.filterMap reported = [(1, [97, 98]), (3, [101])] ∧
      ((run fourCalls (openSegment none none [7])).2.read none none 1 2).1 = [97, 98] := by
  have hreported : (run fourCalls (openSegment none none [7])).1.filterMap reported =
      [(1, [97, 98]), (3, [101])] := by
    decide +kernel
  have hread := (run_coherent none none [7] fourCalls_sized).2.2 1 [97, 98] (by simp [hreported])
    ⟨2, by decide⟩ rfl
    none none
  exact ⟨hreported, hread.1 hread.2⟩

structure Models (s : SegmentStream) (seg : DataSegment) : Prop where
  content : s.segment.content = seg.file.content
  offset : s.currentOffset = seg.currentOffset
  size : seg.currentOffset = seg.file.content.length
  canFlush : s.canFlush = seg.canFlush
  position : s.atWriteEnd = true → s.segment.good = true ∧ s.segment.pos = s.currentOffset

variable {seg : DataSegment}

lemma openSegment_models (segmentId : ℕ) (hfile : file.length < FileStream.maxOffset) :
    (openSegment none none file).Models (.openSegment segmentId (.ofContent file)) := by
  have hseek : (⟨file, 0, true⟩ : FileStream Byte).seek none file.length =
      ⟨file, file.length, true⟩ :=
    FileStream.seek_none rfl hfile
  refine ⟨by simp [openSegment, refreshFullStatus, DataSegment.openSegment], ?_, rfl, rfl,
    fun h => by cases h⟩
  simp [openSegment, refreshFullStatus, DataSegment.openSegment, hseek]

lemma Models.writeHere (h : s.Models seg) (hg : s.segment.good = true)
    (hpos : s.segment.pos = s.currentOffset) {segSize : ℕ} {value : Value}
    (hroom : seg.currentOffset + value.length < FileStream.maxOffset) :
    (s.writeHere segSize none value).1 = seg.currentOffset ∧
      (s.writeHere segSize none value).2.Models
        { seg with file := seg.file.append value, canFlush := true, currentOffset :=
          seg.currentOffset + value.length } := by
  have hput : s.segment.write none value = _ := FileStream.write_none hg (by rwa [hpos, h.offset])
  have hlen : (s.segment.content).length = s.currentOffset := by rw [h.content, h.offset, h.size]
  have hlt : s.currentOffset + value.length < 2 ^ 64 := by
    rw [h.offset]
    exact hroom.trans (by decide)
  simp only [SegmentStream.writeHere, hput, if_true]
  refine ⟨h.offset, ?_, ?_, ?_, rfl, fun _ => ⟨rfl, ?_⟩⟩
  · have hwhole : FileStream.overwrite s.segment.content s.segment.pos value =
        s.segment.content ++ value := by
      rw [hpos, ← hlen, FileStream.overwrite]
      simp
    rw [BufferedFile.content_append, ← h.content]
    exact hwhole
  · rw [Nat.mod_eq_of_lt hlt, h.offset]
  · rw [BufferedFile.content_append, List.length_append, h.size]
  · rw [Nat.mod_eq_of_lt hlt]
    exact congrArg (· + value.length) hpos

theorem Models.write (h : s.Models seg) {segSize : ℕ} (hsize : segSize < FileStream.maxOffset)
    (hoffset : seg.currentOffset < FileStream.maxOffset) {value : Value}
    (hvalue : value.length < FileStream.maxOffset) :
    (s.write segSize none none value).1 = (seg.write segSize value).1 ∧
      (s.write segSize none none value).2.Models (seg.write segSize value).2 := by
  have hlt : seg.currentOffset + value.length < 2 ^ 64 := by
    simp only [FileStream.maxOffset] at hoffset hvalue
    omega
  by_cases hfull : (seg.currentOffset + value.length) % 2 ^ 64 > segSize
  · rw [SegmentStream.write, DataSegment.write, h.offset, if_pos hfull, if_pos hfull]
    exact ⟨rfl, h⟩
  · have hroom : seg.currentOffset + value.length < FileStream.maxOffset := by
      rw [Nat.mod_eq_of_lt hlt] at hfull
      omega
    rw [SegmentStream.write,
      DataSegment.write, h.offset, if_neg hfull, if_neg hfull, Nat.mod_eq_of_lt hlt]
    by_cases hend : s.atWriteEnd = true
    · rw [if_pos hend]
      exact h.writeHere (h.position hend).1 (h.position hend).2 hroom
    · have hsought : s.segment.clear.seek none seg.currentOffset =
          { s.segment.clear with pos := seg.currentOffset } :=
        FileStream.seek_none rfl hoffset
      have ht : Models ⟨{ s.segment.clear with pos := seg.currentOffset
          }, seg.currentOffset, s.canFlush, s.atWriteEnd⟩
          seg := ⟨h.content, rfl, h.size, h.canFlush, fun hc => absurd hc hend⟩
      rw [if_neg hend, hsought]
      dsimp only
      rw [if_pos (show s.segment.clear.good = true from rfl)]
      exact ht.writeHere rfl rfl hroom

theorem Models.read (h : s.Models seg) {offset : ℕ} (hoffset : offset < FileStream.maxOffset)
    (size : ℕ) :
    (s.read none none offset size).1 = seg.read offset size ∧
    (s.read none none offset size).2.Models seg := by
  have hsought : s.segment.clear.seek none offset = { s.segment.clear with pos := offset } :=
    FileStream.seek_none rfl hoffset
  have hres : (({ s.segment.clear with pos := offset } : FileStream Byte).read none size).1 = _ :=
    FileStream.read_none rfl
  rw [SegmentStream.read, hsought]
  dsimp only
  rw [if_pos (show s.segment.clear.good = true from rfl), hres]
  refine ⟨?_, ⟨by simpa using h.content, h.offset, h.size, h.canFlush, fun hc => by cases hc⟩⟩
  rw [DataSegment.read, ← h.content]
  rfl

theorem Models.flush (h : s.Models seg) (hg : s.segment.good = true) :
    (s.flush true true).1 = true ∧ (s.flush true true).2.Models seg.flush := by
  cases hc : s.canFlush with
  | true =>
    rw [SegmentStream.flush, DataSegment.flush, if_pos hc, if_pos (h.canFlush.symm.trans hc)]
    dsimp only
    rw [if_pos (by simp [hg])]
    refine ⟨rfl, ?_, h.offset, ?_, rfl, fun hend => ⟨by simp [hg], (h.position hend).2⟩⟩
    · rw [BufferedFile.content_flush]
      exact h.content
    · rw [BufferedFile.content_flush]
      exact h.size
  | false =>
    have hseg : seg.canFlush = false := h.canFlush.symm.trans hc
    rw [SegmentStream.flush, DataSegment.flush, if_neg (by simp [hc]), if_neg (by simp [hseg])]
    exact ⟨rfl, h⟩

end SegmentStream

end Zest
