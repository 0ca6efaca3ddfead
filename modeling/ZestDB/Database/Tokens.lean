import ZestDB.Database.Command

/-! The words of a command line that is put together from words and blanks. -/

namespace Zest

def Blanks (ws : Bytes) : Prop := ∀ b ∈ ws, isBlank b = true

def Gap (ws : Bytes) : Prop := ws ≠ [] ∧ Blanks ws

def Solid (w : Bytes) : Prop := w ≠ [] ∧ ∀ b ∈ w, isBlank b = false

def LineEnds (ws : Bytes) : Prop := ∀ b ∈ ws, isLineEnd b = true

instance (ws : Bytes) : Decidable (Blanks ws) :=
  inferInstanceAs (Decidable (∀ b ∈ ws, isBlank b = true))

instance (ws : Bytes) : Decidable (Gap ws) := inferInstanceAs (Decidable (ws ≠ [] ∧ Blanks ws))

instance (w : Bytes) : Decidable (Solid w) :=
  inferInstanceAs (Decidable (w ≠ [] ∧ ∀ b ∈ w, isBlank b = false))

instance (ws : Bytes) : Decidable (LineEnds ws) :=
  inferInstanceAs (Decidable (∀ b ∈ ws, isLineEnd b = true))

def StartsSolid (xs : Bytes) : Prop := ∃ b rest, xs = b :: rest ∧ isBlank b = false

def StartsBlank (xs : Bytes) : Prop := ∀ b, xs.head? = some b → isBlank b = true

def EndsSolid (xs : Bytes) : Prop := ∃ b, xs.getLast? = some b ∧ isBlank b = false

variable {ws xs w rest v t sv : Bytes} {b : Byte}

lemma isBlank_of_lineEnd (h : isLineEnd b = true) : isBlank b = true := by
  simp only [isLineEnd, Bool.or_eq_true, decide_eq_true_eq] at h
  rcases h with rfl | rfl
  · rfl
  · rfl

lemma Solid.starts (h : Solid w) (xs : Bytes) : StartsSolid (w ++ xs) := by
  obtain ⟨b, bs, rfl⟩ := List.exists_cons_of_ne_nil h.1
  exact ⟨b, bs ++ xs, rfl, h.2 b (by simp)⟩

lemma Solid.ends (h : Solid w) : EndsSolid w :=
  ⟨w.getLast h.1, List.getLast?_eq_some_getLast h.1, h.2 _ (List.getLast_mem _)⟩

lemma endsSolid_append (hv : v ≠ []) : EndsSolid (xs ++ v) ↔ EndsSolid v := by
  rw [EndsSolid, EndsSolid, List.getLast?_append_of_ne_nil _ hv]

lemma Gap.starts (h : Gap ws) (xs : Bytes) : StartsBlank (ws ++ xs) := by
  obtain ⟨b, bs, rfl⟩ := List.exists_cons_of_ne_nil h.1
  intro c hc
  obtain rfl : b = c := by simpa using hc
  exact h.2 b (by simp)

lemma startsBlank_nil : StartsBlank [] := by
  intro b hb
  cases hb

lemma StartsSolid.dropWhile (h : StartsSolid xs) : xs.dropWhile isBlank = xs := by
  obtain ⟨b, rest, rfl, hb⟩ := h
  exact List.dropWhile_cons_of_neg (by simp [hb])

lemma Blanks.dropWhile (h : Blanks ws) (xs : Bytes) :
    (ws ++ xs).dropWhile isBlank = xs.dropWhile isBlank :=
  List.dropWhile_append_of_pos h

lemma Solid.takeWhile (h : Solid w) (hrest : StartsBlank rest) :
    ((w ++ rest).takeWhile fun b => !isBlank b) = w := by
  have hnone : rest.takeWhile (fun b => !isBlank b) = [] := by
    cases rest with
    | nil => rfl
    | cons b rest => exact List.takeWhile_cons_of_neg (by simp [hrest b rfl])
  rw [List.takeWhile_append_of_pos (fun b hb => by simp [h.2 b hb]), hnone, List.append_nil]

lemma Solid.dropWhile (h : Solid w) (hrest : StartsBlank rest) :
    ((w ++ rest).dropWhile fun b => !isBlank b) = rest := by
  rw [List.dropWhile_append_of_pos (fun b hb => by simp [h.2 b hb])]
  cases rest with
  | nil => rfl
  | cons b rest => exact List.dropWhile_cons_of_neg (by simp [hrest b rfl])

lemma trimmed_line {lead body tail : Bytes} (hlead : Blanks lead) (hstart : StartsSolid body)
    (hend : ∀ b, body.getLast? = some b → isLineEnd b = false) (htail : LineEnds tail) :
    trimmed (lead ++ body ++ tail) = body := by
  have hne : body ≠ [] := by
    obtain ⟨b, rest, rfl, -⟩ := hstart
    simp
  have hbody : StartsSolid (body ++ tail) := by
    obtain ⟨b, rest, rfl, hb⟩ := hstart
    exact ⟨b, rest ++ tail, rfl, hb⟩
  rw [trimmed, List.append_assoc, hlead.dropWhile, hbody.dropWhile, List.rdropWhile,
    List.reverse_append,
    List.dropWhile_append_of_pos (fun b hb => htail b (List.mem_reverse.mp hb))]
  obtain ⟨front, b, rfl⟩ : ∃ front b, body = front ++ [b] :=
    ⟨body.dropLast, body.getLast hne, (List.dropLast_append_getLast hne).symm⟩
  have hb := hend b (by simp)
  rw [List.reverse_append, List.reverse_singleton, List.singleton_append,
    List.dropWhile_cons_of_neg (by simp [hb])]
  simp

lemma splitWords_rest (hsv : sv ≠ []) :
    ((sv.dropWhile fun b => !isBlank b).dropWhile isBlank).length < sv.length := by
  obtain ⟨b, rest, rfl⟩ := List.exists_cons_of_ne_nil hsv
  have hblank := List.length_dropWhile_le isBlank rest
  cases hb : isBlank b with
  | true =>
    rw [List.dropWhile_cons_of_neg (by simp [hb]), List.dropWhile_cons_of_pos hb, List.length_cons]
    omega
  | false =>
    have hsolid := List.length_dropWhile_le (fun b => !isBlank b) rest
    have hle := List.length_dropWhile_le isBlank (rest.dropWhile fun b => !isBlank b)
    rw [List.dropWhile_cons_of_pos (by simp [hb]), List.length_cons]
    omega

lemma splitWords_fuel {n m : ℕ} (hn : sv.length ≤ n) (hm : sv.length ≤ m) :
    splitWords n sv = splitWords m sv := by
  induction n generalizing sv m with
  | zero =>
    obtain rfl : sv = [] := List.length_eq_zero_iff.mp (Nat.le_zero.mp hn)
    cases m with
    | zero => rfl
    | succ m => simp [splitWords]
  | succ n ih =>
    by_cases hsv : sv = []
    · subst hsv
      cases m with
      | zero => simp [splitWords]
      | succ m => simp [splitWords]
    · have hlt := splitWords_rest hsv
      have hpos := List.length_pos_of_ne_nil hsv
      obtain ⟨m, rfl⟩ : ∃ k, m = k + 1 := ⟨m - 1, by omega⟩
      simp only [splitWords, if_neg hsv]
      rw [ih (m := m) (by omega) (by omega)]

def wordsIn (sv : Bytes) : List Word := splitWords sv.length sv

lemma wordsIn_cons (hw : Solid w) (hrest : StartsBlank rest) :
    wordsIn (w ++ rest) = ⟨w, w ++ rest⟩ :: wordsIn (rest.dropWhile isBlank) := by
  have hne : w ++ rest ≠ [] := by simp [hw.1]
  have hpos := List.length_pos_of_ne_nil hne
  have hlt := splitWords_rest hne
  rw [hw.dropWhile hrest] at hlt
  obtain ⟨m, hm⟩ : ∃ m, (w ++ rest).length = m + 1 := ⟨(w ++ rest).length - 1, by omega⟩
  rw [wordsIn, hm, splitWords, if_neg hne, hw.takeWhile hrest, hw.dropWhile hrest, wordsIn,
    splitWords_fuel (m := (rest.dropWhile isBlank).length) (by omega) le_rfl]

lemma wordsIn_gap {gap : Bytes} (hw : Solid w) (hgap : Gap gap) (hrest : StartsSolid rest) :
    wordsIn (w ++ (gap ++ rest)) = ⟨w, w ++ (gap ++ rest)⟩ :: wordsIn rest := by
  rw [wordsIn_cons hw (hgap.starts rest), hgap.2.dropWhile, hrest.dropWhile]

lemma wordsIn_word (hw : Solid w) : wordsIn w = [⟨w, w⟩] := by
  have h := wordsIn_cons hw startsBlank_nil
  rwa [List.append_nil] at h

lemma words_line {lead body tail : Bytes} (hlead : Blanks lead) (hstart : StartsSolid body)
    (hend : ∀ b, body.getLast? = some b → isLineEnd b = false) (htail : LineEnds tail) :
    words (lead ++ body ++ tail) = wordsIn body := by
  rw [words, trimmed_line hlead hstart hend htail, wordsIn]
  apply splitWords_fuel
  · simp only [List.length_append]
    omega
  · exact le_rfl

lemma dropWhile_head {p : Byte → Bool} (h : xs.dropWhile p = b :: rest) : p b = false := by
  have hhead := List.head?_dropWhile_not p xs
  rwa [h] at hhead

lemma StartsSolid.cases (h : StartsSolid v) (he : EndsSolid v) :
    Solid v ∨ ∃ w gap v', v = w ++ (gap ++ v') ∧ Solid w ∧ Gap gap ∧ StartsSolid v' ∧
    EndsSolid v' := by
  obtain ⟨w, hw⟩ : ∃ w, w = v.takeWhile fun b => !isBlank b := ⟨_, rfl⟩
  have hsolid : Solid w := by
    obtain ⟨b, rest, rfl, hb⟩ := h
    refine ⟨by rw [hw, List.takeWhile_cons_of_pos (by simp [hb])]; simp, fun c hc => ?_⟩
    rw [hw] at hc
    simpa using List.mem_takeWhile_imp hc
  have hsplit : w ++ v.dropWhile (fun b => !isBlank b) = v := by
    rw [hw, List.takeWhile_append_dropWhile]
  cases hr : v.dropWhile fun b => !isBlank b with
  | nil =>
    rw [hr, List.append_nil] at hsplit
    exact Or.inl (hsplit ▸ hsolid)
  | cons c r =>
    right
    have hc : isBlank c = true := by simpa using dropWhile_head hr
    have hgap : Gap ((c :: r).takeWhile isBlank) :=
      ⟨by rw [List.takeWhile_cons_of_pos hc]; simp, fun d hd => List.mem_takeWhile_imp hd⟩
    rw [hr, ← List.takeWhile_append_dropWhile (p := isBlank) (l := c :: r)] at hsplit
    refine ⟨w, _, _, hsplit.symm, hsolid, hgap, ?_⟩
    cases hr' : (c :: r).dropWhile isBlank with
    | nil =>
      -- the text would end with the last blank of the gap
      rw [hr', List.append_nil] at hsplit
      rw [← hsplit, endsSolid_append hgap.1] at he
      obtain ⟨d, hd, hblank⟩ := he
      rw [hgap.2 d (List.mem_of_getLast? hd)] at hblank
      cases hblank
    | cons e s =>
      rw [hr'] at hsplit
      rw [← hsplit, endsSolid_append (by simp), endsSolid_append (by simp)] at he
      exact ⟨⟨e, s, rfl, dropWhile_head hr'⟩, he⟩

def Word.extend (t : Bytes) (w : Word) : Word := ⟨w.text, w.suffix ++ t⟩

lemma wordsIn_append (hv : StartsSolid v) (he : EndsSolid v) (ht : StartsBlank t) :
    wordsIn (v ++ t) = (wordsIn v).map (Word.extend t) ++ wordsIn (t.dropWhile isBlank) := by
  obtain ⟨k, hk⟩ : ∃ k, v.length = k := ⟨_, rfl⟩
  induction k using Nat.strong_induction_on generalizing v with
  | _ k ih =>
    rcases hv.cases he with hsolid | ⟨w, gap, v', rfl, hw, hgap, hv', he'⟩
    · rw [wordsIn_cons hsolid ht, wordsIn_word hsolid]
      rfl
    · have hpos := List.length_pos_of_ne_nil hw.1
      have hstart : StartsSolid (v' ++ t) := by
        obtain ⟨b, rest, rfl, hb⟩ := hv'
        exact ⟨b, rest ++ t, rfl, hb⟩
      have hlater := ih v'.length (by simp only [← hk, List.length_append]; omega) hv' he' rfl
      rw [List.append_assoc, List.append_assoc, wordsIn_gap hw hgap hstart, wordsIn_gap hw hgap hv',
        hlater]
      simp [Word.extend]

lemma wordsIn_first (hv : v ≠ []) : ∃ text rest, wordsIn v = ⟨text, v⟩ :: rest := by
  obtain ⟨b, rest, rfl⟩ := List.exists_cons_of_ne_nil hv
  rw [wordsIn, List.length_cons, splitWords, if_neg hv]
  exact ⟨_, _, rfl⟩

lemma wordsIn_last (hv : StartsSolid v) (he : EndsSolid v) :
    ∃ before x, wordsIn v = before ++ [⟨x, x⟩] ∧ x <:+ v := by
  obtain ⟨k, hk⟩ : ∃ k, v.length = k := ⟨_, rfl⟩
  induction k using Nat.strong_induction_on generalizing v with
  | _ k ih =>
    rcases hv.cases he with hsolid | ⟨w, gap, v', rfl, hw, hgap, hv', he'⟩
    · rw [wordsIn_word hsolid]
      exact ⟨[], v, rfl, List.suffix_rfl⟩
    · have hpos := List.length_pos_of_ne_nil hw.1
      obtain ⟨before, x, hx, hsuffix⟩ :=
        ih v'.length (by simp only [← hk, List.length_append]; omega) hv' he' rfl
      rw [wordsIn_gap hw hgap hv', hx]
      refine ⟨_ :: before, x, rfl, ?_⟩
      rw [← List.append_assoc]
      exact hsuffix.trans (List.suffix_append _ _)

lemma solid_of_lower {name : Bytes} (hname : Solid name) (h : toLowerStr w = name) : Solid w := by
  refine ⟨?_, fun b hb => ?_⟩
  · rintro rfl
    exact hname.1 h.symm
  · have hmem : (if 65 ≤ b && b ≤ 90 then b + 32 else b) ∈ name := by
      rw [← h]
      exact List.mem_map_of_mem hb
    have hsolid := hname.2 _ hmem
    cases hblank : isBlank b with
    | false => rfl
    | true =>
      simp only [isBlank, Bool.or_eq_true, decide_eq_true_eq] at hblank
      rcases hblank with ((rfl | rfl) | rfl) | rfl
      all_goals exact absurd hsolid (by decide)

end Zest
