import Mathlib.Data.List.Infix
import Mathlib.Tactic.ByContra

/-! A reader of a stream that takes what comes in chunks until it ends with a mark. -/

namespace Foundations

variable {α : Type*} [DecidableEq α]

def readUntil (mark : List α) (buf : List α) : List (List α) → Option (List α × List (List α))
  | [] => if mark <:+ buf then some (buf, []) else none
  | chunk :: chunks =>
    if mark <:+ buf then some (buf, chunk :: chunks) else readUntil mark (buf ++ chunk) chunks

def readEach (mark : List α) : List (List (List α)) → List (List α) → Option (List (List α))
  | [], _ => some []
  | chunks :: arrivals, left =>
    (readUntil mark [] (left ++ chunks)).bind fun (text, left) => (readEach mark arrivals left).map
    (text :: ·)

structure Terminated (mark text : List α) : Prop where
  ends : mark <:+ text
  once : ∀ p, p <+: text → mark <:+ p → p = text

structure Cuts (texts : List (List α)) (arrivals : List (List (List α))) : Prop where
  whole : arrivals.map List.flatten = texts
  chunks : ∀ chunks ∈ arrivals, [] ∉ chunks

variable {mark text buf got : List α} {chunks left : List (List α)} {texts : List (List α)}
  {arrivals : List (List (List α))}

lemma readUntil_suffix (h : readUntil mark buf chunks = some (got, left)) : mark <:+ got := by
  induction chunks generalizing buf with
  | nil =>
    simp only [readUntil] at h
    split_ifs at h with hm
    cases h
    exact hm
  | cons chunk chunks ih =>
    simp only [readUntil] at h
    split_ifs at h with hm
    · cases h
      exact hm
    · exact ih h

lemma Terminated.readUntil (h : Terminated mark text) (hbuf : buf ++ chunks.flatten = text)
    (hne : [] ∉ chunks) :
    readUntil mark buf chunks = some (text, []) := by
  induction chunks generalizing buf with
  | nil =>
    obtain rfl : buf = text := by simpa using hbuf
    simp [Foundations.readUntil, h.ends]
  | cons chunk chunks ih =>
    have hearly : ¬ mark <:+ buf := by
      intro hm
      have hall := h.once buf ⟨_, hbuf⟩ hm
      rw [hall, List.append_right_eq_self, List.flatten_cons, List.append_eq_nil_iff] at hbuf
      exact hne (by simp [hbuf.1])
    rw [Foundations.readUntil, if_neg hearly]
    refine ih ?_ fun hmem => hne (List.mem_cons_of_mem _ hmem)
    rw [← hbuf, List.flatten_cons, List.append_assoc]

omit [DecidableEq α] in
lemma Cuts.cons_iff : Cuts (text :: texts) (chunks :: arrivals) ↔
    (chunks.flatten = text ∧ [] ∉ chunks) ∧ Cuts texts arrivals := by
  constructor
  · rintro ⟨hwhole, hne⟩
    simp only [List.map_cons, List.cons.injEq] at hwhole
    exact ⟨⟨hwhole.1, hne _ List.mem_cons_self⟩, hwhole.2,
      fun c hc => hne c (List.mem_cons_of_mem _ hc)⟩
  · rintro ⟨⟨htext, hne⟩, hwhole, hall⟩
    exact ⟨by simp [htext, hwhole], by simpa using ⟨hne, hall⟩⟩

def oneChunk (text : List α) : List (List α) := if text = [] then [] else [text]

omit [DecidableEq α] in
lemma cuts_oneChunk (texts : List (List α)) : Cuts texts (texts.map oneChunk) := by
  have hflat : ∀ text : List α, (oneChunk text).flatten = text := by
    intro text
    by_cases h : text = [] <;> simp [oneChunk, h]
  refine ⟨by simp [Function.comp_def, hflat], fun chunks hc => ?_⟩
  obtain ⟨text, -, rfl⟩ := List.mem_map.mp hc
  by_cases h : text = [] <;> simp [oneChunk, h, eq_comm]

lemma readEach_cons (h : readEach mark (chunks :: arrivals) left = some (text :: texts)) :
    ∃ rest, readUntil mark [] (left ++ chunks) = some (text, rest) ∧ readEach mark arrivals rest =
      some texts := by
  simp only [readEach, Option.bind_eq_some_iff, Option.map_eq_some_iff] at h
  obtain ⟨⟨got, rest⟩, hread, texts', hrest, heq⟩ := h
  obtain ⟨rfl, rfl⟩ := List.cons.inj heq
  exact ⟨rest, hread, hrest⟩

lemma terminated_of_read (hmark : mark ≠ [])
    (h : ∀ chunks : List (List α), chunks.flatten = text → [] ∉ chunks →
      ∃ rest, readUntil mark [] chunks = some (text, rest)) : Terminated mark text := by
  have hnil : ¬ mark <:+ [] := fun hn => hmark (List.suffix_nil.mp hn)
  obtain ⟨⟨hone, hne⟩, -⟩ := Cuts.cons_iff.mp (cuts_oneChunk [text])
  obtain ⟨rest, hread⟩ := h _ hone hne
  refine ⟨readUntil_suffix hread, fun p hp hm => ?_⟩
  obtain ⟨t, rfl⟩ := hp
  by_contra hproper
  have ht : t ≠ [] := by
    rintro rfl
    simp at hproper
  have hp : p ≠ [] := by
    rintro rfl
    exact hnil hm
  -- the first chunk ends where the mark does
  obtain ⟨rest, hread⟩ := h [p, t] (by simp) (by simp [hp.symm, ht.symm])
  simp only [Foundations.readUntil, if_neg hnil, List.nil_append, if_pos hm, Option.some.injEq,
    Prod.mk.injEq] at hread
  exact hproper hread.1

/-- Texts are read one by one, in whatever chunks they come, exactly if each of them ends with the
mark and not before. -/
theorem readEach_iff (hmark : mark ≠ []) :
    (∀ arrivals, Cuts texts arrivals → readEach mark arrivals [] = some texts) ↔
      ∀ text ∈ texts, Terminated mark text := by
  constructor
  · intro h
    induction texts with
    | nil => simp
    | cons text texts ih =>
      have hterm : Terminated mark text := by
        refine terminated_of_read hmark fun chunks hflat hne => ?_
        obtain ⟨rest, hread, -⟩ :=
          readEach_cons (h _ (Cuts.cons_iff.mpr ⟨⟨hflat, hne⟩, cuts_oneChunk texts⟩))
        exact ⟨rest, hread⟩
      obtain ⟨⟨hone, hne⟩, -⟩ := Cuts.cons_iff.mp (cuts_oneChunk (text :: texts))
      refine List.forall_mem_cons.mpr ⟨hterm, ih fun arrivals hcuts => ?_⟩
      obtain ⟨rest, hread, hrest⟩ := readEach_cons (h _ (Cuts.cons_iff.mpr ⟨⟨hone, hne⟩, hcuts⟩))
      rw [List.nil_append, hterm.readUntil (by simpa using hone) hne] at hread
      cases hread
      exact hrest
  · intro h arrivals
    induction texts generalizing arrivals with
    | nil =>
      rintro ⟨hwhole, -⟩
      rw [List.map_eq_nil_iff.mp hwhole]
      rfl
    | cons text texts ih =>
      intro hcuts
      obtain ⟨hterm, hrest⟩ := List.forall_mem_cons.mp h
      cases arrivals with
      | nil => cases hcuts.whole
      | cons chunks arrivals =>
        obtain ⟨⟨hflat, hne⟩, hcuts⟩ := Cuts.cons_iff.mp hcuts
        have hread : Foundations.readUntil mark [] chunks = some (text, []) :=
          hterm.readUntil ((List.nil_append _).trans hflat) hne
        simp only [readEach, List.nil_append, hread, Option.bind_some, ih hrest arrivals hcuts,
          Option.map_some]

omit [DecidableEq α] in
lemma pair_infix_append {a b : α} {x y : List α} :
    [a, b] <:+: x ++ y ↔ [a, b] <:+: x ∨ [a, b] <:+: y ∨
    (x.getLast? = some a ∧ y.head? = some b) := by
  induction x with
  | nil => simp
  | cons c x ih =>
    cases x with
    | nil =>
      have hshort : ¬ [a, b] <:+: [c] := fun h => by simpa using h.length_le
      have hfront : [a, b] <+: c :: y ↔ [c].getLast? = some a ∧ y.head? = some b := by
        cases y <;> simp [List.cons_prefix_cons, eq_comm]
      rw [List.singleton_append, List.infix_cons_iff, hfront]
      simp only [hshort, false_or]
      exact or_comm
    | cons d x =>
      have hfront : [a, b] <+: c :: d :: (x ++ y) ↔ [a, b] <+: c :: d :: x := by
        simp [List.cons_prefix_cons]
      rw [List.cons_append, List.infix_cons_iff, List.infix_cons_iff, ih, List.cons_append, hfront,
        List.getLast?_cons_cons, or_assoc]

omit [DecidableEq α] in
lemma terminated_pair {a b : α} {body : List α} (hbody : body.getLast? = some a) :
    Terminated [a, b] (body ++ [b]) ↔ ¬ [a, b] <:+: body := by
  constructor
  · rintro h ⟨s, t, hst⟩
    have hp : s ++ [a, b] <+: body := ⟨t, hst⟩
    have hall := h.once _ (hp.trans (List.prefix_append _ _)) (List.suffix_append _ _)
    have hlen := hp.length_le
    rw [hall, List.length_append, List.length_singleton] at hlen
    omega
  · intro h
    obtain ⟨start, rfl⟩ := List.getLast?_eq_some_iff.mp hbody
    refine ⟨⟨start, by simp⟩, fun p hp hm => ?_⟩
    rcases List.prefix_concat_iff.mp hp with rfl | hp
    · rfl
    · exact absurd (hm.isInfix.trans hp.isInfix) h

end Foundations
