import ZestDB.Database.Rule
import ZestDB.Foundations.Regex
import Mathlib.Data.List.TakeWhile

/-! The guard on regular expressions against the grammar: what it takes is small, if it reads the
classes right. -/

namespace Zest.RegexGuard

open Foundations Foundations.Regex
open Json (octet)

variable {b : Byte} {pattern rest text bounds : Bytes} {cost cs : List ℕ} {c d last : ℕ}

/-- Whether the guard comes to a class without an item, from where `scan` is; it has not refused the
pattern before. -/
def misreads : ℕ → Bytes → List ℕ → ℕ → Bool
  | 0, _, _, _ => false
  | _ + 1, [], _, _ => false
  | fuel + 1, c :: rest, cost, lastAtom =>
    let go (rest : Bytes) (cost : List ℕ) (lastAtom : ℕ) : Bool :=
      cost.headD 0 ≤ maxStates && misreads fuel rest cost lastAtom
    let addTop (n : ℕ) : List ℕ := (cost.headD 0 + n) :: cost.tail
    if c = 40 then cost.length ≤ maxDepth && misreads fuel rest (0 :: cost) 0
    else if c = 41 ∧ cost.length > 1 then
      let atom := cost.headD 0 + 1
      go rest ((cost.tail.headD 0 + atom) :: cost.tail.tail) atom
    else if c = 123 ∧ 125 ∈ rest then
      match repeats (rest.takeWhile (· ≠ 125)) with
      | none => false
      | some n => go ((rest.dropWhile (· ≠ 125)).drop 1) (addTop (lastAtom * (n - 1))) lastAtom
    else if c = 91 then
      (skip 94 rest).head? = some 93 || go (afterClass rest.length (skip 93 (skip 94 rest)))
      (addTop 1) 1
    else if c = 92 then go (rest.drop 1) (addTop 1) 1
    else go rest (addTop 1) 1

/-- The guard comes to `[]` or `[^]`, which it does not take for a whole class. -/
def meetsEmptyClass (pattern : Bytes) : Bool := misreads pattern.length pattern [0] 0

def Passes (pattern : Bytes) (cost : List ℕ) (last : ℕ) : Prop :=
  ∃ fuel, pattern.length ≤ fuel ∧ scan fuel pattern cost last = false ∧
    misreads fuel pattern cost last = false

lemma passes_next {fuel : ℕ} (hfuel : rest.length ≤ fuel)
    (h : ((c :: cs).headD 0 > maxStates || scan fuel rest (c :: cs) last) = false)
    (hm : ((c :: cs).headD 0 ≤ maxStates && misreads fuel rest (c :: cs) last) = false) :
    c ≤ maxStates ∧ Passes rest (c :: cs) last := by
  obtain ⟨hc, hs⟩ := Bool.or_eq_false_iff.mp h
  have hle : (c :: cs).headD 0 ≤ maxStates := not_lt.mp (of_decide_eq_false hc)
  rw [decide_eq_true hle, Bool.true_and] at hm
  exact ⟨hle, fuel, hfuel, hs, hm⟩

lemma Passes.open (h : Passes (40 :: rest) cost last) :
    cost.length ≤ maxDepth ∧ Passes rest (0 :: cost) 0 := by
  obtain ⟨_ | fuel, hfuel, h, hm⟩ := h
  · simp at hfuel
  · rw [scan, if_pos rfl] at h
    rw [misreads, if_pos rfl] at hm
    obtain ⟨hc, hs⟩ := Bool.or_eq_false_iff.mp h
    have hle : cost.length ≤ maxDepth := not_lt.mp (of_decide_eq_false hc)
    rw [decide_eq_true hle, Bool.true_and] at hm
    exact ⟨hle, fuel, by simpa using hfuel, hs, hm⟩

lemma Passes.close (h : Passes (41 :: rest) (c :: d :: cs) last) :
    d + (c + 1) ≤ maxStates ∧ Passes rest ((d + (c + 1)) :: cs) (c + 1) := by
  obtain ⟨_ | fuel, hfuel, h, hm⟩ := h
  · simp at hfuel
  · rw [scan, if_neg (by decide), if_pos (by simp)] at h
    rw [misreads, if_neg (by decide), if_pos (by simp)] at hm
    exact passes_next (by simpa using hfuel) h hm

lemma Passes.escape (h : Passes (92 :: b :: rest) (c :: cs) last) :
    c + 1 ≤ maxStates ∧ Passes rest ((c + 1) :: cs) 1 := by
  obtain ⟨_ | fuel, hfuel, h, hm⟩ := h
  · simp at hfuel
  · rw [scan, if_neg (by decide), if_neg (by simp), if_neg (by simp), if_neg (by decide),
      if_pos rfl] at h
    rw [misreads, if_neg (by decide), if_neg (by simp), if_neg (by simp), if_neg (by decide),
      if_pos rfl] at hm
    simp only [List.length_cons] at hfuel
    exact passes_next (by omega) h hm

lemma Passes.plain (hb : b ∉ [40, 41, 123, 91, 92]) (h : Passes (b :: rest) (c :: cs) last) :
    c + 1 ≤ maxStates ∧ Passes rest ((c + 1) :: cs) 1 := by
  simp only [List.mem_cons, List.not_mem_nil, or_false, not_or] at hb
  obtain ⟨h40, h41, h123, h91, h92⟩ := hb
  obtain ⟨_ | fuel, hfuel, h, hm⟩ := h
  · simp at hfuel
  · rw [scan, if_neg h40, if_neg (fun h => h41 h.1), if_neg (fun h => h123 h.1), if_neg h91,
      if_neg h92] at h
    rw [misreads, if_neg h40, if_neg (fun h => h41 h.1), if_neg (fun h => h123 h.1), if_neg h91,
      if_neg h92] at hm
    exact passes_next (by simpa using hfuel) h hm

lemma Passes.repeat (hb : (125 : Byte) ∉ bounds)
    (h : Passes (123 :: (bounds ++ 125 :: rest)) (c :: cs) last) :
    ∃ n, repeats bounds = some n ∧ c + last * (n - 1) ≤ maxStates ∧
      Passes rest ((c + last * (n - 1)) :: cs) last := by
  have hall : ∀ a ∈ bounds, decide (a ≠ 125) = true :=
    fun a ha => decide_eq_true fun h => hb (h ▸ ha)
  have htake : (bounds ++ 125 :: rest).takeWhile (· ≠ 125) = bounds := by
    rw [List.takeWhile_append_of_pos hall]
    simp
  have hdrop : (bounds ++ 125 :: rest).dropWhile (· ≠ 125) = 125 :: rest := by
    rw [List.dropWhile_append_of_pos hall]
    simp
  obtain ⟨_ | fuel, hfuel, h, hm⟩ := h
  · simp at hfuel
  · rw [scan, if_neg (by decide), if_neg (by simp), if_pos (by simp), htake, hdrop] at h
    rw [misreads, if_neg (by decide), if_neg (by simp), if_pos (by simp), htake, hdrop] at hm
    cases hn : repeats bounds with
    | none => simp [hn] at h
    | some n =>
      rw [hn] at h hm
      simp only [List.length_cons, List.length_append] at hfuel
      exact ⟨n, rfl, passes_next (by omega) h hm⟩

lemma afterClass_items (items : List ClassItem) {fuel : ℕ}
    (hfuel : (items.flatMap ClassItem.text ++ 93 :: rest).length ≤ fuel) :
    afterClass fuel (items.flatMap ClassItem.text ++ 93 :: rest) = rest := by
  induction items generalizing fuel with
  | nil =>
    obtain ⟨fuel, rfl⟩ : ∃ f, fuel = f + 1 := Nat.exists_eq_add_one.mpr (by simp at hfuel; omega)
    simp [afterClass]
  | cons item items ih =>
    obtain ⟨fuel, rfl⟩ : ∃ f, fuel = f + 1 := Nat.exists_eq_add_one.mpr (by simp at hfuel; omega)
    cases item with
    | plain b ok =>
      simp only [List.mem_cons, List.not_mem_nil, or_false, not_or] at ok
      have hend : b ≠ 93 := ok.1
      have hslash : b ≠ 92 := ok.2
      simp only [List.flatMap_cons, ClassItem.text, List.cons_append, List.nil_append, afterClass,
        hend, hslash, if_false]
      exact ih (by simpa [ClassItem.text] using hfuel)
    | escaped b =>
      have hslash : octet '\\' = 92 := rfl
      simp only [List.flatMap_cons, ClassItem.text, List.cons_append, List.nil_append, afterClass,
        hslash, if_true, List.drop_one, List.tail_cons]
      rw [if_neg (by decide)]
      refine ih ?_
      simp only [List.flatMap_cons, ClassItem.text, List.cons_append, List.nil_append,
        List.length_cons] at hfuel
      omega

lemma skip_of_ne (h : pattern.head? ≠ some b) : skip b pattern = pattern := if_neg h

lemma items_text_ne_nil {items : List ClassItem} (h : items ≠ []) :
    items.flatMap ClassItem.text ≠ [] := by
  obtain ⟨item, items, rfl⟩ := List.exists_cons_of_ne_nil h
  cases item <;> simp [ClassItem.text]

lemma items_head {items : List ClassItem} (h : items ≠ []) (tail : Bytes) :
    (items.flatMap ClassItem.text ++ tail).head? ≠ some 93 := by
  obtain ⟨item, items, rfl⟩ := List.exists_cons_of_ne_nil h
  cases item with
  | plain b ok =>
    simp only [List.mem_cons, List.not_mem_nil, or_false, not_or] at ok
    have hend : b ≠ 93 := ok.1
    simpa [ClassItem.text] using hend
  | escaped b =>
    have hslash : octet '\\' ≠ 93 := by decide
    simpa [ClassItem.text] using hslash

lemma Passes.cls {cc : CharClass} (h : Passes (cc.text ++ rest) (c :: cs) last) :
    c + 1 ≤ maxStates ∧ Passes rest ((c + 1) :: cs) 1 := by
  have htext : cc.text ++ rest =
      91 :: ((if cc.negated then [octet '^'] else []) ++
        (cc.items.flatMap ClassItem.text ++ 93 :: rest)) := by
    simp only [CharClass.text, List.cons_append, List.append_assoc, List.nil_append]
    rfl
  obtain ⟨_ | fuel, hfuel, h, hm⟩ := h
  · simp [htext] at hfuel
  rw [htext] at hfuel h hm
  rw [misreads, if_neg (by decide), if_neg (by simp), if_neg (by simp), if_pos rfl,
    Bool.or_eq_false_iff] at hm
  obtain ⟨hread, hm⟩ := hm
  have hne : cc.items ≠ [] := by
    intro hnil
    refine of_decide_eq_false hread ?_
    rw [hnil]
    cases cc.negated <;> rfl
  have hskip : skip 93
      (skip 94 ((if cc.negated then [octet '^'] else []) ++
        (cc.items.flatMap ClassItem.text ++ 93 :: rest))) =
      cc.items.flatMap ClassItem.text ++ 93 :: rest := by
    have hhead := items_head hne (93 :: rest)
    cases hn : cc.negated with
    | true =>
      have hcaret : skip 94 (octet '^' :: (cc.items.flatMap ClassItem.text ++ 93 :: rest)) =
          cc.items.flatMap ClassItem.text ++ 93 :: rest := rfl
      rw [if_pos rfl, List.singleton_append, hcaret, skip_of_ne hhead]
    | false =>
      have hfirst : (cc.items.flatMap ClassItem.text ++ 93 :: rest).head? ≠ some 94 := by
        have hok := cc.ok.resolve_left (by simp [hn])
        rw [List.head?_append_of_ne_nil _ (items_text_ne_nil hne)]
        exact hok
      rw [if_neg (by simp), List.nil_append, skip_of_ne hfirst, skip_of_ne hhead]
  rw [scan, if_neg (by decide), if_neg (by simp), if_neg (by simp), if_pos rfl, hskip,
    afterClass_items cc.items (by simp)] at h
  rw [hskip, afterClass_items cc.items (by simp)] at hm
  simp only [List.length_cons, List.length_append] at hfuel
  exact passes_next (by omega) h hm

section Bounds

variable {n m : Number} {q : Repetition} {value biggest : ℕ}

lemma digit_cases {a : Byte} (h : Json.Digit a) : isDigit a = true ∧ a ≠ 44 ∧ a ≠ 125 := by
  obtain ⟨hlow, hhigh⟩ := h
  have hlow' : (48 : ℕ) ≤ a.val := hlow
  have hhigh' : a.val ≤ (57 : ℕ) := hhigh
  refine ⟨?_, fun ha => ?_, fun ha => ?_⟩
  · simp only [isDigit, Bool.and_eq_true, decide_eq_true_eq]
    exact ⟨hlow, hhigh⟩
  · rw [ha] at hlow'
    exact absurd hlow' (by decide)
  · rw [ha] at hhigh'
    exact absurd hhigh' (by decide)

lemma fromChars_digits {bound : ℕ} (h : fromChars bound n.digits = some value) :
    value = n.value := by
  have htake : n.digits.takeWhile isDigit = n.digits := by
    rw [List.takeWhile_eq_self_iff]
    exact fun a ha => (digit_cases (n.ok.2 a ha)).1
  simp only [fromChars, htake] at h
  split_ifs at h
  exact (Option.some.inj h).symm

def readPart (acc : Option ℕ) (part : Bytes) : Option ℕ := do
  let biggest ← acc
  let value ← if part = [] then some 0 else fromChars (2 ^ 64) part
  if value > maxStates then none else some (max biggest value)

lemma readPart_nil {acc : Option ℕ} (h : readPart acc [] = some value) : acc = some value := by
  cases acc with
  | none => cases h
  | some a => simpa [readPart, maxStates] using h

lemma readPart_digits {acc : Option ℕ} (h : readPart acc n.digits = some value) :
    ∃ a, acc = some a ∧ value = max a n.value := by
  cases acc with
  | none => cases h
  | some a =>
    cases hv : fromChars (2 ^ 64) n.digits with
    | none =>
      simp only [readPart, n.ok.1, if_false, hv] at h
      cases h
    | some v =>
      obtain rfl := fromChars_digits hv
      simp only [readPart, n.ok.1, if_false, hv, Option.bind_eq_bind, Option.bind_some] at h
      split_ifs at h
      exact ⟨a, rfl, (Option.some.inj h).symm⟩

lemma repeats_bounds (h : repeats q.bounds = some biggest) : biggest = q.largest := by
  have hcomma : ∀ n : Number, (44 : Byte) ∉ n.digits :=
    fun n hn => (digit_cases (n.ok.2 44 hn)).2.1 rfl
  have hparts : ∀ bounds, bounds ≠ [] →
      repeats bounds = (splitComma bounds).foldl readPart (some 0) :=
    fun bounds hne => if_neg hne
  cases q with
  | star => simpa [repeats, Repetition.bounds, Repetition.largest] using h.symm
  | plus => simpa [repeats, Repetition.bounds, Repetition.largest] using h.symm
  | optional => simpa [repeats, Repetition.bounds, Repetition.largest] using h.symm
  | exactly n =>
    rw [Repetition.bounds, hparts _ n.ok.1, splitComma, List.splitOn_eq_singleton (hcomma n)] at h
    obtain ⟨a, ha, rfl⟩ := readPart_digits h
    obtain rfl := Option.some.inj ha
    exact Nat.zero_max _
  | atLeast n =>
    have hsplit : (n.digits ++ [octet ',']).splitOn 44 = [n.digits, []] :=
      List.splitOn_append_cons_self_of_not_mem (hcomma n) []
    rw [Repetition.bounds, hparts _ (by simp), splitComma, hsplit] at h
    obtain ⟨a, ha, rfl⟩ := readPart_digits (readPart_nil h)
    obtain rfl := Option.some.inj ha
    exact Nat.zero_max _
  | between n m =>
    have hsplit : (n.digits ++ octet ',' :: m.digits).splitOn 44 = [n.digits, m.digits] :=
      (List.splitOn_append_cons_self_of_not_mem (hcomma n) m.digits).trans
        (congrArg _ (List.splitOn_eq_singleton (hcomma m)))
    rw [Repetition.bounds, hparts _ (by simp), splitComma, hsplit] at h
    obtain ⟨a, ha, rfl⟩ := readPart_digits h
    obtain ⟨a', ha', rfl⟩ := readPart_digits ha
    obtain rfl := Option.some.inj ha'
    exact congrArg (max · m.value) (Nat.zero_max _)

lemma closing_notMem_bounds (q : Repetition) : (125 : Byte) ∉ q.bounds := by
  have hdigits : ∀ n : Number, (125 : Byte) ∉ n.digits :=
    fun n hn => (digit_cases (n.ok.2 125 hn)).2.2 rfl
  have hcomma : (125 : Byte) ≠ octet ',' := by decide
  cases q with
  | star => exact List.not_mem_nil
  | plus => exact List.not_mem_nil
  | optional => exact List.not_mem_nil
  | exactly n => exact hdigits n
  | atLeast n => simpa [Repetition.bounds, hdigits n] using hcomma
  | between n m => simpa [Repetition.bounds, hdigits n, hdigits m] using hcomma

end Bounds

section Productions

variable {q : Repetition} {kind : GroupKind}

lemma Passes.repetition (h : Passes (q.text ++ rest) (c :: cs) last) :
    ∃ c' last', c + last * (q.factor - 1) ≤ c' ∧ c' ≤ maxStates ∧ Passes rest (c' :: cs) last' := by
  have hsign : ∀ b : Byte, b ∉ [40, 41, 123, 91, 92] → Passes (b :: rest) (c :: cs) last →
      ∃ c' last', c + last * (1 - 1) ≤ c' ∧ c' ≤ maxStates ∧ Passes rest (c' :: cs) last' := by
    intro b hb h
    obtain ⟨hle, h⟩ := h.plain hb
    exact ⟨c + 1, 1, by omega, hle, h⟩
  have hbraces : q.text = octet '\x7b' :: (q.bounds ++ [octet '\x7d']) →
      ∃ c' last', c + last * (q.factor - 1) ≤ c' ∧ c' ≤ maxStates ∧
        Passes rest (c' :: cs) last' := by
    intro htext
    have hcut : q.text ++ rest = 123 :: (q.bounds ++ 125 :: rest) := by
      rw [htext, List.cons_append, List.append_assoc]
      rfl
    rw [hcut] at h
    obtain ⟨n, hn, hle, h⟩ := h.repeat (closing_notMem_bounds q)
    obtain rfl := repeats_bounds hn
    have hfactor : q.factor - 1 = q.largest - 1 := by
      rw [Repetition.factor]
      omega
    exact ⟨_, last, by rw [hfactor], hle, h⟩
  cases q with
  | star => exact hsign (octet '*') (by decide) h
  | plus => exact hsign (octet '+') (by decide) h
  | optional => exact hsign (octet '?') (by decide) h
  | exactly n => exact hbraces rfl
  | atLeast n => exact hbraces rfl
  | between n m => exact hbraces rfl

lemma Passes.groupKind (hc : c ≤ maxStates) (h : Passes (kind.text ++ rest) (c :: cs) last) :
    ∃ c' last', c ≤ c' ∧ c' ≤ maxStates ∧ Passes rest (c' :: cs) last' := by
  have htwo : ∀ b : Byte, b ∉ [40, 41, 123, 91, 92] →
      Passes (octet '?' :: b :: rest) (c :: cs) last →
      ∃ c' last', c ≤ c' ∧ c' ≤ maxStates ∧ Passes rest (c' :: cs) last' := by
    intro b hb h
    obtain ⟨hle, h⟩ := (h.plain (by decide)).2.plain hb
    exact ⟨c + 1 + 1, 1, by omega, hle, h⟩
  cases kind with
  | capturing => exact ⟨c, last, le_rfl, hc, h⟩
  | plain => exact htwo (octet ':') (by decide) h
  | lookahead => exact htwo (octet '=') (by decide) h
  | negativeLookahead => exact htwo (octet '!') (by decide) h

lemma word_plain {b : Byte} (h : Letter b ∨ Json.Digit b) : b ∉ [40, 41, 123, 91, 92] := by
  intro hb
  simp only [List.mem_cons, List.not_mem_nil, or_false] at hb
  revert h
  rcases hb with rfl | rfl | rfl | rfl | rfl
  all_goals
    simp only [Letter, Json.Digit]
    decide

lemma Passes.word {tail : Bytes} (hc : c ≤ maxStates) (ht : ∀ b ∈ tail, Letter b ∨ Json.Digit b)
    (h : Passes (tail ++ rest) (c :: cs) 1) :
    ∃ c', c ≤ c' ∧ c' ≤ maxStates ∧ Passes rest (c' :: cs) 1 := by
  induction tail generalizing c with
  | nil => exact ⟨c, le_rfl, hc, h⟩
  | cons b tail ih =>
    obtain ⟨hle, h⟩ := h.plain (word_plain (ht b List.mem_cons_self))
    obtain ⟨c', hc', hle', h⟩ := ih hle (fun b hb => ht b (List.mem_cons_of_mem _ hb)) h
    exact ⟨c', by omega, hle', h⟩

lemma plain_notMem {b : Byte} (h : Plain b) : b ∉ [40, 41, 123, 91, 92] := by
  simp only [Plain, List.mem_cons, List.not_mem_nil, or_false, not_or] at h ⊢
  obtain ⟨hslash, -, -, -, hopen, hclose, hclass, hbrace, -⟩ := h
  exact ⟨hopen, hclose, hbrace, hclass, hslash⟩

end Productions

/-- What the guard has counted behind a part of the pattern: for an atom `last` is its share. -/
structure Counted (l : Level) (size c c' last' : ℕ) : Prop where
  total : c + size ≤ c'
  atom : l = .atom → size ≤ last' ∧ c + last' ≤ c'
  le : c' ≤ maxStates

lemma Passes.counted {l : Level} (p : Pattern l) (hc : c ≤ maxStates) (hcs : cs.length ≤ maxDepth)
    (h : Passes (p.text ++ rest) (c :: cs) last) :
    p.depth + cs.length ≤ maxDepth ∧ ∃ c' last', Counted l p.size c c' last' ∧
    Passes rest (c' :: cs) last' := by
  induction p generalizing rest c cs last with
  | char b ok =>
    obtain ⟨hle, h⟩ := h.plain (plain_notMem ok)
    exact ⟨by simpa [Pattern.depth] using hcs, c + 1, 1, ⟨le_rfl, fun _ => ⟨le_rfl, le_rfl⟩, hle⟩,
      h⟩
  | escape b tail ok =>
    obtain ⟨hle, h⟩ := Passes.escape h
    obtain ⟨c', hc', hle', h⟩ := h.word hle ok
    exact ⟨by simpa [Pattern.depth] using hcs, c', 1, ⟨hc', fun _ => ⟨le_rfl, hc'⟩, hle'⟩, h⟩
  | cls cc =>
    obtain ⟨hle, h⟩ := h.cls
    exact ⟨by simpa [Pattern.depth] using hcs, c + 1, 1, ⟨le_rfl, fun _ => ⟨le_rfl, le_rfl⟩, hle⟩,
      h⟩
  | group kind d ih =>
    have htext : (Pattern.group kind d).text ++ rest =
        40 :: (kind.text ++ (d.text ++ 41 :: rest)) := by
      simp only [Pattern.text, List.cons_append, List.append_assoc, List.nil_append]
      rfl
    rw [htext] at h
    obtain ⟨hopen, h⟩ := h.open
    obtain ⟨c₀, last₀, -, hle₀, h⟩ := h.groupKind (Nat.zero_le _)
    obtain ⟨hdepth, c₁, last₁, hcount, h⟩ := ih hle₀ hopen h
    obtain ⟨hle, h⟩ := h.close
    have htotal := hcount.total
    simp only [List.length_cons] at hdepth
    refine ⟨by simp only [Pattern.depth]; omega, c + (c₁ + 1), c₁ + 1,
      ⟨?_, fun _ => ⟨?_, le_rfl⟩, hle⟩, h⟩
    · simp only [Pattern.size]
      omega
    · simp only [Pattern.size]
      omega
  | once a ih =>
    obtain ⟨hdepth, c', last', hcount, h⟩ := ih hc hcs h
    exact ⟨hdepth, c', last', ⟨hcount.total, by simp, hcount.le⟩, h⟩
  | repeated a q reluctant ih =>
    rw [Pattern.text, List.append_assoc, List.append_assoc] at h
    obtain ⟨hdepth, c₁, last₁, hcount, h⟩ := ih hc hcs h
    obtain ⟨hsize, hlast⟩ := hcount.atom rfl
    obtain ⟨c₂, last₂, hc₂, hle₂, h⟩ := h.repetition
    have htotal : c + (a.repeated q reluctant).size ≤ c₂ := by
      have hfactor : q.factor = (q.factor - 1) + 1 := by
        rw [Repetition.factor]
        omega
      calc c + a.size * q.factor ≤ c + last₁ * q.factor :=
        Nat.add_le_add_left (Nat.mul_le_mul_right _ hsize) _
        _ = c + last₁ + last₁ * (q.factor - 1) := by
          rw [hfactor, Nat.add_sub_cancel]
          ring
        _ ≤ c₂ := by omega
    cases reluctant with
    | false => exact ⟨hdepth, c₂, last₂, ⟨htotal, by simp, hle₂⟩, h⟩
    | true =>
      obtain ⟨hle₃, h⟩ := Passes.plain (b := octet '?') (by decide) h
      exact ⟨hdepth, c₂ + 1, 1, ⟨by omega, by simp, hle₃⟩, h⟩
  | empty => exact ⟨by simpa [Pattern.depth] using hcs, c, last, ⟨le_rfl, by simp, hc⟩, h⟩
  | cons t ts iht ihts =>
    rw [Pattern.text, List.append_assoc] at h
    obtain ⟨hdepth, c₁, last₁, hcount, h⟩ := iht hc hcs h
    obtain ⟨hdepth', c₂, last₂, hcount', h⟩ := ihts hcount.le hcs h
    have htotal := hcount.total
    have htotal' := hcount'.total
    refine ⟨by simp only [Pattern.depth]; omega, c₂, last₂, ⟨?_, by simp, hcount'.le⟩, h⟩
    simp only [Pattern.size]
    omega
  | single a ih =>
    obtain ⟨hdepth, c', last', hcount, h⟩ := ih hc hcs h
    exact ⟨hdepth, c', last', ⟨hcount.total, by simp, hcount.le⟩, h⟩
  | or a d iha ihd =>
    rw [Pattern.text, List.append_assoc] at h
    obtain ⟨hdepth, c₁, last₁, hcount, h⟩ := iha hc hcs h
    obtain ⟨hle, h⟩ := Passes.plain (b := octet '|') (by decide) h
    obtain ⟨hdepth', c₂, last₂, hcount', h⟩ := ihd hle hcs h
    have htotal := hcount.total
    have htotal' := hcount'.total
    refine ⟨by simp only [Pattern.depth]; omega, c₂, last₂, ⟨?_, by simp, hcount'.le⟩, h⟩
    simp only [Pattern.size]
    omega

structure Small (p : Pattern .disjunction) : Prop where
  depth : p.depth ≤ maxDepth
  size : p.size ≤ maxStates

/-- A pattern is refused or small, if the guard refuses it before it comes to an empty class or it
has none. -/
theorem isRegexTooComplex_sound (p : Pattern .disjunction) (hp : meetsEmptyClass p.text = false)
    (h : isRegexTooComplex p.text = false) : Small p := by
  obtain ⟨-, hscan⟩ := Bool.or_eq_false_iff.mp h
  have hpasses : Passes (p.text ++ []) [0] 0 := by
    rw [List.append_nil]
    exact ⟨p.text.length, le_rfl, hscan, hp⟩
  obtain ⟨hdepth, c', last', hcount, -⟩ := hpasses.counted p (Nat.zero_le _) (Nat.zero_le _)
  have htotal := hcount.total
  have hle := hcount.le
  exact ⟨by simpa using hdepth, by omega⟩

/-- The class comes too late. -/
example : meetsEmptyClass (ascii "(a\x7b1000\x7d)\x7b1000\x7d[]") = false := by decide +kernel

section Hidden

lemma afterClass_unread {hidden : Bytes} (hend : (93 : Byte) ∉ hidden)
    (hslash : (92 : Byte) ∉ hidden) {fuel : ℕ} (hfuel : (hidden ++ 93 :: rest).length ≤ fuel) :
    afterClass fuel (hidden ++ 93 :: rest) = rest := by
  have hitems : ∀ b ∈ hidden, b ∉ [octet ']', octet '\\'] := by
    intro b hb hmem
    simp only [List.mem_cons, List.not_mem_nil, or_false] at hmem
    rcases hmem with rfl | rfl
    · exact hend hb
    · exact hslash hb
  have htext : (hidden.attach.map fun b => ClassItem.plain b.1 (hitems b.1 b.2)).flatMap
      ClassItem.text = hidden := by
    rw [List.flatMap_map]
    simp [ClassItem.text]
  have h := @afterClass_items rest
    (hidden.attach.map fun b => ClassItem.plain b.1 (hitems b.1 b.2)) fuel
  rw [htext] at h
  exact h hfuel

theorem hidden_taken {hidden : Bytes} (hend : (93 : Byte) ∉ hidden) (hslash : (92 : Byte) ∉ hidden)
    (hlen : hidden.length + 5 ≤ maxLength) :
    isRegexTooComplex (ascii "[]" ++ hidden ++ ascii "[x]") = false := by
  have htext : ascii "[]" ++ hidden ++ ascii "[x]" =
      91 :: 93 :: ((hidden ++ ascii "[x") ++ [93]) := by
    rw [List.append_assoc, List.append_assoc]
    rfl
  have hafter : afterClass (93 :: ((hidden ++ ascii "[x") ++ [93])).length
      (skip 93 (skip 94 (93 :: ((hidden ++ ascii "[x") ++ [93])))) = [] := by
    have hskip : skip 93 (skip 94 (93 :: ((hidden ++ ascii "[x") ++ [93]))) =
        (hidden ++ ascii "[x") ++ [93] := rfl
    rw [hskip]
    refine afterClass_unread ?_ ?_ (by simp)
    · rw [List.mem_append, not_or]
      exact ⟨hend, by decide⟩
    · rw [List.mem_append, not_or]
      exact ⟨hslash, by decide⟩
  rw [htext, isRegexTooComplex, Bool.or_eq_false_iff]
  constructor
  · have hshort : (91 :: 93 :: ((hidden ++ ascii "[x") ++ [93])).length = hidden.length + 5 := by
      simp [ascii]
    rw [hshort]
    exact decide_eq_false (not_lt.mpr hlen)
  · rw [List.length_cons, scan, if_neg (by decide), if_neg (by simp), if_neg (by simp),
      if_pos rfl, hafter]
    rfl

def thousand : Number := ⟨ascii "1000", by simp only [Json.Digits, Json.Digit]; decide +kernel⟩

def characterA : Pattern .atom := .char (octet 'a') (by simp only [Plain]; decide)

def millionAs : Pattern .term :=
  .repeated
  (.group .capturing (.single (.cons (.repeated characterA (.exactly thousand) false) .empty)))
  (.exactly thousand) false

def emptyClass : Pattern .term := .once (.cls ⟨false, [], .inr (by decide)⟩)

def classX : Pattern .term :=
  .once (.cls ⟨false, [.plain (octet 'x') (by decide)], .inr (by decide)⟩)

def hiddenMillion : Pattern .disjunction :=
  .single (.cons emptyClass (.cons millionAs (.cons classX .empty)))

/-- A pattern of 20 bytes with a million states that the guard takes. -/
theorem hiddenMillion_taken :
    hiddenMillion.text = ascii "[](a\x7b1000\x7d)\x7b1000\x7d[x]" ∧
    isRegexTooComplex hiddenMillion.text = false ∧ ¬ Small hiddenMillion := by
  have htext : hiddenMillion.text = ascii "[]" ++ millionAs.text ++ ascii "[x]" := by decide +kernel
  refine ⟨by decide +kernel, ?_, fun h => ?_⟩
  · rw [htext]
    exact hidden_taken (by decide +kernel) (by decide +kernel) (by decide +kernel)
  · have hsize := h.size
    revert hsize
    decide +kernel

theorem filledClass_small :
    Small
    (.single (.cons classX
      (.cons (.repeated characterA (.between thousand thousand) true) .empty))) := by
  exact isRegexTooComplex_sound _ (by decide +kernel) (by decide +kernel)

end Hidden

end Zest.RegexGuard
