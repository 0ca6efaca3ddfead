import ZestDB.Shard.Defs
import ZestDB.Foundations.Json

/-! What the text of a `getBy` says: the dump of pairs that are UTF-8 is the dump of no others. -/

namespace Zest

open Foundations

/-- What is assumed of the JSON library's `dump`: a string that is UTF-8 is read back as it was.
Other bytes it shows as U+FFFD. -/
structure Platform.Quotes (pf : Platform) : Prop where
  escape : ∀ s t x y, Json.Utf8 s → Json.Utf8 t →
    pf.escape s ++ Json.octet '"' :: x = pf.escape t ++ Json.octet '"' :: y → s = t

namespace Shard

variable {pf : Platform} {p q : Key × Value} {ps qs : List (Key × Value)} {x y : Bytes}

def Utf8Pairs (pairs : List (Key × Value)) : Prop := ∀ p ∈ pairs, Json.Utf8 p.1 ∧ Json.Utf8 p.2

/-- `text` is the array of the pairs and, if they are UTF-8, of no others that are. -/
structure Shows (pf : Platform) (text : Bytes) (pairs : List (Key × Value)) : Prop where
  dumped : text = dumpArray pf pairs
  only : Utf8Pairs pairs → ∀ other, Utf8Pairs other → text = dumpArray pf other → other = pairs

lemma dumpPair_append (pf : Platform) (p : Key × Value) (x : Bytes) :
    dumpPair pf p ++ x = ascii "\x7b\"" ++ (pf.escape p.1 ++ Json.octet '"' :: (ascii ":\"" ++
      (pf.escape p.2 ++ Json.octet '"' :: (ascii "\x7d" ++ x)))) := by
  have hmid : ascii "\":\"" = Json.octet '"' :: ascii ":\"" := by decide +kernel
  have hend : ascii "\"\x7d" = Json.octet '"' :: ascii "\x7d" := by decide +kernel
  rw [dumpPair, hmid, hend]
  simp only [List.append_assoc, List.cons_append]

lemma dumpPair_inj (hq : pf.Quotes) (hp : Json.Utf8 p.1 ∧ Json.Utf8 p.2)
    (hq' : Json.Utf8 q.1 ∧ Json.Utf8 q.2)
    (h : dumpPair pf p ++ x = dumpPair pf q ++ y) : p = q ∧ x = y := by
  rw [dumpPair_append, dumpPair_append, List.append_right_inj] at h
  have hkey := hq.escape _ _ _ _ hp.1 hq'.1 h
  rw [hkey, List.append_right_inj, List.cons.injEq, List.append_right_inj] at h
  have hvalue := hq.escape _ _ _ _ hp.2 hq'.2 h.2
  rw [hvalue, List.append_right_inj, List.cons.injEq, List.append_right_inj] at h
  exact ⟨Prod.ext hkey hvalue, h.2.2⟩

def behind (pf : Platform) (ps : List (Key × Value)) : Bytes :=
  if ps = [] then ascii "]" else ascii "," ++
    (List.intercalate (ascii ",") (ps.map (dumpPair pf)) ++ ascii "]")

lemma intercalate_behind (pf : Platform) (p : Key × Value) (ps : List (Key × Value)) :
    List.intercalate (ascii ",") ((p :: ps).map (dumpPair pf)) ++ ascii "]" =
      dumpPair pf p ++ behind pf ps := by
  cases ps with
  | nil => simp [behind, List.intercalate]
  | cons p' ps =>
    rw [behind, if_neg (List.cons_ne_nil _ _)]
    simp only [List.map_cons, List.intercalate_cons_cons, List.append_assoc]

lemma behind_inj (h : behind pf ps = behind pf qs)
    (hinner : ps ≠ [] → qs ≠ [] → List.intercalate (ascii ",") (ps.map (dumpPair pf)) ++ ascii "]" =
      List.intercalate (ascii ",") (qs.map (dumpPair pf)) ++ ascii "]" → ps = qs) : ps = qs := by
  have hcomma : ∀ x, ascii "," ++ x ≠ ascii "]" := by
    intro x hx
    rw [show ascii "," = [44] by decide +kernel, show ascii "]" = [93] by decide +kernel] at hx
    exact absurd (List.cons.inj hx).1 (by decide)
  simp only [behind] at h
  split_ifs at h with hp hq hq
  · rw [hp, hq]
  · exact absurd h.symm (hcomma _)
  · exact absurd h (hcomma _)
  · exact hinner hp hq (List.append_cancel_left h)

lemma dumpArray_inj (hq : pf.Quotes) (hp : Utf8Pairs ps) (hp' : Utf8Pairs qs)
    (h : dumpArray pf ps = dumpArray pf qs) :
    ps = qs := by
  have hinner : List.intercalate (ascii ",") (ps.map (dumpPair pf)) ++ ascii "]" =
      List.intercalate (ascii ",") (qs.map (dumpPair pf)) ++ ascii "]" := by
    rw [dumpArray, dumpArray, List.append_assoc, List.append_assoc] at h
    exact List.append_cancel_left h
  have hempty : ∀ p ps, List.intercalate (ascii ",")
      (([] : List (Key × Value)).map (dumpPair pf)) ++ ascii "]" ≠
      dumpPair pf p ++ behind pf ps := by
    intro p ps heq
    rw [dumpPair_append, show ascii "\x7b\"" = [123, 34] by decide +kernel,
      show ascii "]" = [93] by decide +kernel] at heq
    exact absurd (List.cons.inj heq).1 (by decide)
  clear h
  induction ps generalizing qs with
  | nil =>
    cases qs with
    | nil => rfl
    | cons q qs =>
      rw [intercalate_behind] at hinner
      exact absurd hinner (hempty q qs)
  | cons p ps ih =>
    cases qs with
    | nil =>
      rw [intercalate_behind] at hinner
      exact absurd hinner.symm (hempty p ps)
    | cons q qs =>
      rw [intercalate_behind, intercalate_behind] at hinner
      obtain ⟨rfl, hrest⟩ :=
        dumpPair_inj hq (hp p List.mem_cons_self) (hp' q List.mem_cons_self) hinner
      rw [behind_inj hrest fun _ _ => ih (fun r hr => hp r (List.mem_cons_of_mem _ hr))
        fun r hr => hp' r (List.mem_cons_of_mem _ hr)]

lemma shows_dumpArray (hq : pf.Quotes) (pairs : List (Key × Value)) :
    Shows pf (dumpArray pf pairs) pairs :=
  ⟨rfl, fun hp _ hother h => dumpArray_inj hq hother hp h.symm⟩

end Shard

section Ascii

def hexOctet (d : ℕ) : Byte := Fin.ofNat 256 (if d < 10 then 48 + d else 87 + d)

def escapeByte (b : Byte) : Bytes :=
  if 0x20 ≤ b.val ∧ b.val < 0x7f ∧ b ≠ 34 ∧ b ≠ 92 then [b]
  else ascii "\\u00" ++ [hexOctet (b.val / 16), hexOctet (b.val % 16)]

def escapeAscii (str : Bytes) : Bytes := str.flatMap escapeByte

lemma hexOctet_inj : ∀ d < 16, ∀ e < 16, hexOctet d = hexOctet e → d = e := by decide

lemma escapeByte_inj {b c : Byte} {x y : Bytes} (h : escapeByte b ++ x = escapeByte c ++ y) :
    b = c ∧ x = y := by
  have hslash : ascii "\\u00" = 92 :: ascii "u00" := by decide +kernel
  simp only [escapeByte, hslash] at h
  split_ifs at h with hb hc hc
  · simpa using h
  · exact absurd (List.cons.inj h).1 hb.2.2.2
  · exact absurd (List.cons.inj h).1.symm hc.2.2.2
  · simp only [List.cons_append, List.append_assoc, List.cons.injEq, List.append_cancel_left_eq,
      true_and, List.nil_append] at h
    obtain ⟨hhi, hlo, hrest⟩ := h
    have hdiv := hexOctet_inj _ (by omega) _ (by omega) hhi
    have hmod := hexOctet_inj _ (by omega) _ (by omega) hlo
    exact ⟨Fin.ext (by omega), hrest⟩

lemma escapeByte_ne_quote (b : Byte) (x y : Bytes) : escapeByte b ++ x ≠ Json.octet '"' :: y := by
  intro h
  have hslash : ascii "\\u00" = 92 :: ascii "u00" := by decide +kernel
  simp only [escapeByte, hslash] at h
  split_ifs at h with hb
  · exact hb.2.2.1 (List.cons.inj h).1
  · exact absurd (List.cons.inj h).1 (by decide)

lemma escapeAscii_inj {s t x y : Bytes}
    (h : escapeAscii s ++ Json.octet '"' :: x = escapeAscii t ++ Json.octet '"' :: y) : s = t := by
  induction s generalizing t with
  | nil =>
    cases t with
    | nil => rfl
    | cons c t =>
      rw [escapeAscii, escapeAscii, List.flatMap_nil, List.nil_append, List.flatMap_cons,
        List.append_assoc] at h
      exact absurd h.symm (escapeByte_ne_quote _ _ _)
  | cons b s ih =>
    cases t with
    | nil =>
      rw [escapeAscii, escapeAscii, List.flatMap_nil, List.nil_append, List.flatMap_cons,
        List.append_assoc] at h
      exact absurd h (escapeByte_ne_quote _ _ _)
    | cons c t =>
      rw [escapeAscii, escapeAscii, List.flatMap_cons, List.flatMap_cons, List.append_assoc,
        List.append_assoc] at h
      obtain ⟨rfl, hrest⟩ := escapeByte_inj h
      rw [ih hrest]

lemma escapeAscii_quotes {pf : Platform} (h : pf.escape = escapeAscii) : pf.Quotes :=
  ⟨fun s t x y _ _ heq => escapeAscii_inj (x := x) (y := y) (by rwa [h] at heq)⟩

end Ascii

end Zest
