import Mathlib.Data.List.Infix
import Mathlib.Tactic.Basic

/-! Logs of self-delimiting records: a record is a core followed by a fixed pad that a
reader may find missing at the end of the log. A cut log decodes to its first records. -/

namespace Foundations

structure RecordCodec (α β : Type) where
  core : α → List β
  pad : List β
  decode : List β → Option (α × List β)
  Valid : α → Prop
  core_ne_nil : ∀ a, core a ≠ []
  decode_record : ∀ a, Valid a → ∀ rest, decode (core a ++ pad ++ rest) = some (a, rest)
  decode_cut_pad : ∀ a, Valid a → ∀ q, q <+: pad → decode (core a ++ q) = some (a, [])
  decode_cut_core : ∀ a, Valid a → ∀ p, p <+: core a → p ≠ core a → decode p = none

def decodeLog {α β : Type} (decode : List β → Option (α × List β)) : ℕ → List β → List α × List β
  | 0, xs => ([], xs)
  | fuel + 1, xs =>
    match decode xs with
    | none => ([], xs)
    | some (a, rest) =>
      let r := decodeLog decode fuel rest
      (a :: r.1, r.2)

/-- `xs` is read as the records `rs` to its end, whatever follows it. -/
inductive Spells {α β : Type} (decode : List β → Option (α × List β)) : List α → List β → Prop
  | nil : Spells decode [] []
  | cons {a used rs xs} : used ≠ [] → (∀ rest, decode (used ++ rest) = some (a, rest)) →
      Spells decode rs xs → Spells decode (a :: rs) (used ++ xs)

namespace Spells

variable {α β : Type} {decode : List β → Option (α × List β)} {rs ts : List α} {xs ys : List β}

lemma append (h : Spells decode rs xs) (h' : Spells decode ts ys) : Spells decode (rs ++ ts)
    (xs ++ ys) := by
  induction h with
  | nil => exact h'
  | cons hne hd _ ih =>
    rw [List.append_assoc]
    exact .cons hne hd ih

lemma length_le (h : Spells decode rs xs) : rs.length ≤ xs.length := by
  induction h with
  | nil => exact le_rfl
  | cons hne _ _ ih =>
    have hpos := List.length_pos_of_ne_nil hne
    simp only [List.length_cons, List.length_append]
    omega

lemma decodeLog_append (h : Spells decode rs xs) (ys : List β) (fuel : ℕ) :
    decodeLog decode (rs.length + fuel) (xs ++ ys) =
      (rs ++ (decodeLog decode fuel ys).1, (decodeLog decode fuel ys).2) := by
  induction h with
  | nil => simp
  | @cons a used rs xs hne hd _ ih =>
    have hf : (a :: rs).length + fuel = (rs.length + fuel) + 1 := by simp; omega
    rw [hf, List.append_assoc]
    simp only [decodeLog, hd, ih, List.cons_append]

end Spells

lemma decodeLog_spells {α β : Type} {decode : List β → Option (α × List β)}
    (hused : ∀ xs a rest, decode xs = some (a, rest) →
      ∃ used, used ≠ [] ∧ xs = used ++ rest ∧ ∀ ys, decode (used ++ ys) = some (a, ys)) (fuel : ℕ)
        (xs : List β) :
    ∃ front, xs = front ++ (decodeLog decode fuel xs).2 ∧
      Spells decode (decodeLog decode fuel xs).1 front := by
  induction fuel generalizing xs with
  | zero => exact ⟨[], rfl, .nil⟩
  | succ fuel ih =>
    cases hd : decode xs with
    | none =>
      simp only [decodeLog, hd]
      exact ⟨[], rfl, .nil⟩
    | some p =>
      obtain ⟨a, rest⟩ := p
      obtain ⟨used, hne, rfl, hread⟩ := hused xs a rest hd
      obtain ⟨front, hrest, hspells⟩ := ih rest
      simp only [decodeLog, hd]
      exact ⟨used ++ front, by rw [List.append_assoc, ← hrest], .cons hne hread hspells⟩

namespace RecordCodec

variable {α β : Type} (c : RecordCodec α β)

def encode (a : α) : List β := c.core a ++ c.pad

def encodeAll (rs : List α) : List β := rs.flatMap c.encode

def decodeAll (xs : List β) : List α × List β := decodeLog c.decode xs.length xs

@[simp] lemma encodeAll_nil : c.encodeAll [] = [] := rfl

@[simp] lemma encodeAll_cons (a : α) (rs : List α) :
    c.encodeAll (a :: rs) = c.encode a ++ c.encodeAll rs := rfl

@[simp] lemma encodeAll_append (rs ts : List α) :
    c.encodeAll (rs ++ ts) = c.encodeAll rs ++ c.encodeAll ts := by
  simp [encodeAll]

lemma encode_pos (a : α) : 0 < (c.encode a).length := by
  have h := List.length_pos_of_ne_nil (c.core_ne_nil a)
  simp only [encode, List.length_append]
  omega

lemma length_le_encodeAll (rs : List α) : rs.length ≤ (c.encodeAll rs).length := by
  induction rs with
  | nil => simp
  | cons a rs ih =>
    have := c.encode_pos a
    simp only [List.length_cons, encodeAll_cons, List.length_append]
    omega

lemma decode_encode (a : α) (ha : c.Valid a) (rest : List β) :
    c.decode (c.encode a ++ rest) = some (a, rest) :=
  c.decode_record a ha rest

lemma decodeLog_append (rs : List α) (hr : ∀ a ∈ rs, c.Valid a) (xs : List β) (fuel : ℕ) :
    decodeLog c.decode (rs.length + fuel) (c.encodeAll rs ++ xs) =
      (rs ++ (decodeLog c.decode fuel xs).1, (decodeLog c.decode fuel xs).2) := by
  induction rs with
  | nil => simp
  | cons a rs ih =>
    have ha := c.decode_encode a (hr a (by simp)) (c.encodeAll rs ++ xs)
    have hf : (a :: rs).length + fuel = (rs.length + fuel) + 1 := by simp; omega
    rw [hf, encodeAll_cons, List.append_assoc]
    simp only [decodeLog, ha, ih (fun b hb => hr b (by simp [hb])), List.cons_append]

lemma decodeLog_stuck (xs : List β) (fuel : ℕ) (h : c.decode xs = none) :
    decodeLog c.decode fuel xs = ([], xs) := by
  cases fuel with
  | zero => rfl
  | succ fuel => simp [decodeLog, h]

lemma decodeAll_append (rs : List α) (hr : ∀ a ∈ rs, c.Valid a) (xs : List β)
    (h : c.decode xs = none) :
    c.decodeAll (c.encodeAll rs ++ xs) = (rs, xs) := by
  have hl := c.length_le_encodeAll rs
  obtain ⟨fuel, hf⟩ := Nat.exists_eq_add_of_le
    (show rs.length ≤ (c.encodeAll rs ++ xs).length by simp only [List.length_append]; omega)
  rw [decodeAll, hf, decodeLog_append c rs hr, decodeLog_stuck c xs fuel h, List.append_nil]

lemma spells_encode {a : α} (ha : c.Valid a) : Spells c.decode [a] (c.encode a) := by
  rw [← List.append_nil (c.encode a)]
  exact .cons (List.ne_nil_of_length_pos (c.encode_pos a)) (c.decode_encode a ha) .nil

lemma spells_encodeAll {rs : List α} (hr : ∀ a ∈ rs, c.Valid a) : Spells c.decode rs
    (c.encodeAll rs) := by
  induction rs with
  | nil => exact .nil
  | cons a rs ih =>
    exact (c.spells_encode (hr a (by simp))).append (ih fun b hb => hr b (by simp [hb]))

lemma decodeAll_spells {rs : List α} {xs : List β} (h : Spells c.decode rs xs)
    (hnil : c.decode [] = none) :
    c.decodeAll xs = (rs, []) := by
  obtain ⟨fuel, hf⟩ := Nat.exists_eq_add_of_le h.length_le
  have hlog := h.decodeLog_append [] fuel
  rw [decodeLog_stuck c [] fuel hnil, List.append_nil, List.append_nil] at hlog
  rw [decodeAll, hf, hlog]

lemma decode_nil_of (a : α) (ha : c.Valid a) : c.decode [] = none :=
  c.decode_cut_core a ha [] ⟨c.core a, rfl⟩ (fun h => c.core_ne_nil a h.symm)

lemma cut_log (rs : List α) (hr : ∀ a ∈ rs, c.Valid a) (p : List β) (hp : p <+: c.encodeAll rs) :
    ∃ m ≤ rs.length, ∃ t, p = c.encodeAll (rs.take m) ++ t ∧
      (c.decode t = none ∨ t = [] ∨ ∃ a, rs[m]? = some a ∧ ∃ q, q <+: c.pad ∧
        t = c.core a ++ q) := by
  induction rs generalizing p with
  | nil => exact ⟨0, le_rfl, p, by simp, Or.inr (Or.inl (List.prefix_nil.mp hp))⟩
  | cons a rs ih =>
    have ha := hr a (by simp)
    rcases List.prefix_or_prefix_of_prefix hp (List.prefix_append (c.encode a) (c.encodeAll rs))
      with h | ⟨p', rfl⟩
    · rcases List.prefix_or_prefix_of_prefix h (List.prefix_append (c.core a) c.pad)
        with h' | ⟨q, rfl⟩
      · by_cases hc : p = c.core a
        · exact ⟨0, by simp, p, by simp,
            Or.inr (Or.inr ⟨a, by simp, [], ⟨c.pad, rfl⟩, by simpa using hc⟩)⟩
        · exact ⟨0, by simp, p, by simp, Or.inl (c.decode_cut_core a ha p h' hc)⟩
      · exact ⟨0, by simp, c.core a ++ q, by simp,
          Or.inr (Or.inr ⟨a, by simp, q, (List.prefix_append_right_inj _).mp h, rfl⟩)⟩
    · obtain ⟨m, hm, t, rfl, ht⟩ :=
        ih (fun b hb => hr b (by simp [hb])) p' ((List.prefix_append_right_inj _).mp hp)
      exact ⟨m + 1, by simpa using hm, t, by simp, by simpa using ht⟩

lemma decodeAll_encodeAll (rs : List α) (hr : ∀ a ∈ rs, c.Valid a) :
    c.decodeAll (c.encodeAll rs) = (rs, []) := by
  cases rs with
  | nil => rfl
  | cons a rs => simpa using c.decodeAll_append (a :: rs) hr [] (c.decode_nil_of a (hr a (by simp)))

lemma decodeAll_cut_pad (rs : List α) (hr : ∀ a ∈ rs, c.Valid a) (a : α) (ha : c.Valid a)
    (q : List β)
    (hq : q <+: c.pad) : (c.decodeAll (c.encodeAll rs ++ (c.core a ++ q))).1 = rs ++ [a] := by
  have hpos := List.length_pos_of_ne_nil (c.core_ne_nil a)
  have hl := c.length_le_encodeAll rs
  obtain ⟨fuel, hf⟩ := Nat.exists_eq_add_of_le
    (show rs.length + 1 ≤
      (c.encodeAll rs ++ (c.core a ++ q)).length by simp only [List.length_append]; omega)
  rw [decodeAll, hf, Nat.add_assoc, decodeLog_append c _ hr, Nat.add_comm 1 fuel]
  simp [decodeLog, c.decode_cut_pad a ha q hq, decodeLog_stuck c [] fuel (c.decode_nil_of a ha)]

lemma decodeAll_cut (rs ts : List α) (hr : ∀ a ∈ rs ++ ts, c.Valid a) (p : List β)
    (hp : p <+: c.encodeAll ts) :
    ∃ m ≤ ts.length, (c.decodeAll (c.encodeAll rs ++ p)).1 = rs ++ ts.take m := by
  obtain ⟨m, hm, t, rfl, ht⟩ := c.cut_log ts (fun a ha => hr a (by simp [ha])) p hp
  have hv : ∀ a ∈ rs ++ ts.take m, c.Valid a := by
    intro a ha
    rcases List.mem_append.mp ha with ha | ha
    · exact hr a (by simp [ha])
    · exact hr a (by simp [List.mem_of_mem_take ha])
  rw [← List.append_assoc, ← encodeAll_append]
  rcases ht with ht | rfl | ⟨a, ha, q, hq, rfl⟩
  · exact ⟨m, hm, by rw [decodeAll_append c _ hv _ ht]⟩
  · exact ⟨m, hm, by rw [List.append_nil, decodeAll_encodeAll c _ hv]⟩
  · have hmem : a ∈ ts := List.mem_of_getElem? ha
    refine ⟨m + 1, (List.getElem?_eq_some_iff.mp ha).1, ?_⟩
    rw [decodeAll_cut_pad c _ hv a (hr a (by simp [hmem])) q hq, List.take_add_one, ha]
    simp

lemma cut_unpadded (hpad : c.pad = []) (ts : List α) (hr : ∀ a ∈ ts, c.Valid a) (p : List β)
    (hp : p <+: c.encodeAll ts) :
    ∃ m ≤ ts.length, ∃ t, p = c.encodeAll (ts.take m) ++ t ∧ (c.decode t = none ∨ t = []) := by
  obtain ⟨m, hm, t, rfl, ht⟩ := c.cut_log ts hr p hp
  rcases ht with ht | ht | ⟨a, ha, q, hq, rfl⟩
  · exact ⟨m, hm, t, rfl, Or.inl ht⟩
  · exact ⟨m, hm, t, rfl, Or.inr ht⟩
  · obtain rfl : q = [] := by simpa [hpad] using hq
    refine ⟨m + 1, (List.getElem?_eq_some_iff.mp ha).1, [], ?_, Or.inr rfl⟩
    simp [List.take_add_one, ha, encode, hpad]

def coreEnd (rs : List α) (i : ℕ) (a : α) : ℕ :=
  (c.encodeAll (rs.take i)).length + (c.core a).length

def whole (rs : List α) (k : ℕ) : List α :=
  (rs.zipIdx.filter fun p => c.coreEnd rs p.2 p.1 ≤ k).map Prod.fst

lemma filter_zipIdx {p : α × ℕ → Bool} {m : ℕ} (rs : List α)
    (h : ∀ i a, rs[i]? = some a → (p (a, i) = true ↔ i < m)) :
    (rs.zipIdx.filter p).map Prod.fst = rs.take m := by
  induction rs using List.reverseRecOn with
  | nil => simp
  | append_singleton rs a ih =>
    have hlast := h rs.length a (by simp)
    have hfirst := ih fun i b hb => h i b (by
      rw [List.getElem?_append_left (List.getElem?_eq_some_iff.mp hb).1]
      exact hb)
    rw [List.zipIdx_append, List.filter_append, List.map_append, hfirst]
    by_cases hm : rs.length < m
    · have hall : (rs ++ [a]).take m = rs ++ [a] := List.take_of_length_le (by simp; omega)
      rw [hall, List.take_of_length_le (by omega)]
      simp [hlast.mpr hm]
    · have hp : p (a, rs.length) = false := by simpa [hm] using hlast
      rw [List.take_append_of_le_length (by omega)]
      simp [hp]

lemma encodeAll_take_le (rs : List α) {i j : ℕ} (h : i ≤ j) :
    (c.encodeAll (rs.take i)).length ≤ (c.encodeAll (rs.take j)).length := by
  obtain ⟨n, rfl⟩ := Nat.exists_eq_add_of_le h
  rw [List.take_add, encodeAll_append, List.length_append]
  omega

lemma encodeAll_take_succ {rs : List α} {i : ℕ} {a : α} (ha : rs[i]? = some a) :
    (c.encodeAll (rs.take (i + 1))).length = c.coreEnd rs i a + c.pad.length := by
  rw [List.take_add_one, ha, encodeAll_append]
  simp [coreEnd, encode, Nat.add_assoc]

lemma coreEnd_le {rs : List α} {i m : ℕ} {a : α} (ha : rs[i]? = some a) (h : i < m) :
    c.coreEnd rs i a ≤ (c.encodeAll (rs.take m)).length := by
  have hstep := c.encodeAll_take_succ ha
  have hmono := c.encodeAll_take_le rs (show _ + 1 ≤ _ from h)
  omega

lemma le_coreEnd {rs : List α} {i m : ℕ} {a : α} (h : m < i) {b : α} (hb : rs[m]? = some b) :
    c.coreEnd rs m b < c.coreEnd rs i a := by
  have hstep := c.encodeAll_take_succ hb
  have hmono := c.encodeAll_take_le rs (show _ + 1 ≤ _ from h)
  have hpos := List.length_pos_of_ne_nil (c.core_ne_nil a)
  simp only [coreEnd] at hstep ⊢
  omega

lemma whole_eq_take {rs : List α} {k m : ℕ}
    (hfirst : ∀ i a, rs[i]? = some a → i < m → c.coreEnd rs i a ≤ k)
    (hnext : ∀ a, rs[m]? = some a → k < c.coreEnd rs m a) : c.whole rs k = rs.take m := by
  apply filter_zipIdx
  intro i a ha
  rw [decide_eq_true_eq]
  constructor
  · intro hk
    change c.coreEnd rs i a ≤ k at hk
    by_contra him
    rcases Nat.eq_or_lt_of_le (Nat.le_of_not_lt him) with rfl | hlt
    · have := hnext a ha
      omega
    · have hm : m < rs.length := hlt.trans (List.getElem?_eq_some_iff.mp ha).1
      have := hnext rs[m] (List.getElem?_eq_getElem hm)
      have := c.le_coreEnd (a := a) hlt (List.getElem?_eq_getElem hm)
      omega
  · intro him
    exact hfirst i a ha him

lemma exists_cut (rs : List α) (k : ℕ) :
    (c.encodeAll rs).length ≤ k ∨ ∃ m a, rs[m]? = some a ∧ (c.encodeAll (rs.take m)).length ≤ k ∧
      k < (c.encodeAll (rs.take (m + 1))).length := by
  induction rs using List.reverseRecOn with
  | nil => exact Or.inl (Nat.zero_le k)
  | append_singleton rs a ih =>
    rcases ih with hk | ⟨m, b, hb, hle, hlt⟩
    · by_cases hlast : (c.encodeAll (rs ++ [a])).length ≤ k
      · exact Or.inl hlast
      · refine Or.inr ⟨rs.length, a, by simp, by simpa using hk, ?_⟩
        rw [List.take_of_length_le (by simp)]
        exact Nat.lt_of_not_le hlast
    · have hm := (List.getElem?_eq_some_iff.mp hb).1
      refine Or.inr ⟨m, b, ?_, ?_, ?_⟩
      · rw [List.getElem?_append_left hm]
        exact hb
      · rw [List.take_append_of_le_length hm.le]
        exact hle
      · rw [List.take_append_of_le_length hm]
        exact hlt

lemma take_encodeAll {rs : List α} {m k : ℕ} {a : α} (ha : rs[m]? = some a)
    (hle : (c.encodeAll (rs.take m)).length ≤ k)
    (hlt : k < (c.encodeAll (rs.take (m + 1))).length) :
    (c.encodeAll rs).take k =
      c.encodeAll (rs.take m) ++ (c.encode a).take (k - (c.encodeAll (rs.take m)).length) := by
  have hsplit : c.encodeAll rs = c.encodeAll (rs.take (m + 1)) ++ c.encodeAll
      (rs.drop (m + 1)) := by
    rw [← encodeAll_append, List.take_append_drop]
  have hone : c.encodeAll (rs.take (m + 1)) = c.encodeAll (rs.take m) ++ c.encode a := by
    rw [List.take_add_one, ha, encodeAll_append]
    simp
  rw [hsplit, List.take_append_of_le_length hlt.le, hone, List.take_append,
    List.take_of_length_le hle]

theorem decodeAll_take {rs : List α} (hr : ∀ a ∈ rs, c.Valid a) (k : ℕ) :
    (c.decodeAll ((c.encodeAll rs).take k)).1 = c.whole rs k := by
  rcases c.exists_cut rs k with hk | ⟨m, a, ha, hle, hlt⟩
  · rw [List.take_of_length_le hk, decodeAll_encodeAll c rs hr]
    have hwhole : c.whole rs k = rs.take rs.length := by
      apply c.whole_eq_take
      · intro i a ha hi
        have hend := c.coreEnd_le ha hi
        rw [List.take_length] at hend
        exact hend.trans hk
      · intro a ha
        simp at ha
    rw [hwhole, List.take_length]
  · have hfirst : ∀ i b, rs[i]? = some b → i < m → c.coreEnd rs i b ≤ k :=
      fun i b hb hi => (c.coreEnd_le hb hi).trans hle
    have hv : ∀ b ∈ rs.take m, c.Valid b := fun b hb => hr b (List.mem_of_mem_take hb)
    have hva := hr a (List.mem_of_getElem? ha)
    rw [c.take_encodeAll ha hle hlt, encode, List.take_append]
    by_cases hk : k < c.coreEnd rs m a
    · -- the cut is inside the core of the record
      rw [c.whole_eq_take hfirst (fun b hb => by
        obtain rfl : a = b := by simpa [ha] using hb
        exact hk)]
      have hshort : k - (c.encodeAll (rs.take m)).length < (c.core a).length := by
        simp only [coreEnd] at hk
        omega
      rw [Nat.sub_eq_zero_of_le hshort.le, List.take_zero, List.append_nil, decodeAll_append c _ hv]
      apply c.decode_cut_core a hva _ (List.take_prefix _ _)
      intro heq
      have := congrArg List.length heq
      rw [List.length_take] at this
      omega
    · -- the cut is in the pad of the record
      rw [c.whole_eq_take (m := m + 1)]
      · have hcore : (c.core a).length ≤ k - (c.encodeAll (rs.take m)).length := by
          simp only [coreEnd] at hk
          omega
        rw [List.take_of_length_le hcore, decodeAll_cut_pad c _ hv a hva _ (List.take_prefix _ _),
          List.take_add_one, ha]
        rfl
      · intro i b hb hi
        rcases Nat.lt_succ_iff_lt_or_eq.mp hi with hi | rfl
        · exact hfirst i b hb hi
        · obtain rfl : a = b := by simpa [ha] using hb
          exact Nat.le_of_not_lt hk
      · intro b hb
        have hend : (c.encodeAll (rs.take (m + 1))).length < c.coreEnd rs (m + 1) b := by
          have := List.length_pos_of_ne_nil (c.core_ne_nil b)
          simp only [coreEnd]
          omega
        omega

lemma whole_length_le (rs : List α) {j k : ℕ} (h : j ≤ k) :
    (c.whole rs j).length ≤ (c.whole rs k).length := by
  rw [whole, whole, List.length_map, List.length_map]
  apply List.Sublist.length_le
  apply List.monotone_filter_right
  intro p hp
  rw [decide_eq_true_eq] at hp ⊢
  exact hp.trans h

theorem decodeAll_prefix {rs : List α} (hr : ∀ a ∈ rs, c.Valid a) {xs ys : List β} (hx : xs <+: ys)
    (hy : ys <+: c.encodeAll rs) : (c.decodeAll xs).1 <+: (c.decodeAll ys).1 := by
  have hread : ∀ zs, zs <+: c.encodeAll rs → (c.decodeAll zs).1 = c.whole rs zs.length ∧
      (c.decodeAll zs).1 <+: rs := by
    intro zs hz
    obtain ⟨m, -, hm⟩ := c.decodeAll_cut [] rs hr zs hz
    rw [encodeAll_nil, List.nil_append, List.nil_append] at hm
    have htake := c.decodeAll_take hr zs.length
    rw [← List.prefix_iff_eq_take.mp hz] at htake
    exact ⟨htake, hm ▸ List.take_prefix m rs⟩
  obtain ⟨hxw, hxr⟩ := hread xs (hx.trans hy)
  obtain ⟨hyw, hyr⟩ := hread ys hy
  refine List.prefix_of_prefix_length_le hxr hyr ?_
  rw [hxw, hyw]
  exact c.whole_length_le rs hx.length_le

end RecordCodec

end Foundations
