import Mathlib.Data.Fin.Basic
import Mathlib.Order.Fin.Basic
import Mathlib.Data.List.Basic
import Mathlib.Tactic.IntervalCases

/-! The grammar of RFC 8259, over octets. -/

namespace Foundations.Json

local instance (priority := 3000) neZero_octet : NeZero 256 := ⟨by decide⟩

abbrev Octets := List (Fin 256)

def octet (c : Char) : Fin 256 := Fin.ofNat 256 c.toNat

def Ws (s : Octets) : Prop := ∀ b ∈ s, b = octet ' ' ∨ b = octet '\t' ∨ b = octet '\n' ∨
  b = octet '\r'

def Digit (b : Fin 256) : Prop := octet '0' ≤ b ∧ b ≤ octet '9'

def Digits (s : Octets) : Prop := s ≠ [] ∧ ∀ b ∈ s, Digit b

def Natural (s : Octets) : Prop := s = [octet '0'] ∨ (Digits s ∧ s.head? ≠ some (octet '0'))

def Fraction (s : Octets) : Prop := s = [] ∨ ∃ t, Digits t ∧ s = octet '.' :: t

def Exponent (s : Octets) : Prop :=
  s = [] ∨ ∃ e sign t, (e = octet 'e' ∨ e = octet 'E') ∧
  (sign = [] ∨ sign = [octet '+'] ∨ sign = [octet '-']) ∧ Digits t ∧ s = e :: (sign ++ t)

def Number (s : Octets) : Prop :=
  ∃ minus natural fraction exponent, (minus = [] ∨ minus = [octet '-']) ∧ Natural natural ∧
    Fraction fraction ∧ Exponent exponent ∧ s = minus ++ natural ++ fraction ++ exponent

def Hex (b : Fin 256) : Prop :=
  Digit b ∨ (octet 'a' ≤ b ∧ b ≤ octet 'f') ∨ (octet 'A' ≤ b ∧ b ≤ octet 'F')

def utf8 (c : Char) : Octets := (String.utf8EncodeChar c).map fun b => Fin.ofNat 256 b.toNat

def Utf8 (s : Octets) : Prop := ∃ cs : List Char, s = cs.flatMap utf8

inductive Chars : Octets → Prop
  | nil : Chars []
  | unescaped {s : Octets} (c : Char) : 0x20 ≤ c.toNat → c ≠ '"' → c ≠ '\\' → Chars s →
      Chars (utf8 c ++ s)
  | escape {s : Octets} (c : Char) : c ∈ ['"', '\\', '/', 'b', 'f', 'n', 'r', 't'] → Chars s →
      Chars (octet '\\' :: octet c :: s)
  | unicode {s : Octets} {h₁ h₂ h₃ h₄ : Fin 256} : Hex h₁ → Hex h₂ → Hex h₃ → Hex h₄ → Chars s →
      Chars (octet '\\' :: octet 'u' :: h₁ :: h₂ :: h₃ :: h₄ :: s)

def Str (s : Octets) : Prop := ∃ t, Chars t ∧ s = octet '"' :: (t ++ [octet '"'])

def literal (s : String) : Octets := s.toList.map octet

mutual

inductive Value : Octets → Prop
  | null : Value (literal "null")
  | true : Value (literal "true")
  | false : Value (literal "false")
  | number {s : Octets} : Number s → Value s
  | string {s : Octets} : Str s → Value s
  | emptyArray {w : Octets} : Ws w → Value (octet '[' :: (w ++ [octet ']']))
  | array {s : Octets} : Elements s → Value (octet '[' :: (s ++ [octet ']']))
  | emptyObject {w : Octets} : Ws w → Value (octet '\x7b' :: (w ++ [octet '\x7d']))
  | object {s : Octets} : Members s → Value (octet '\x7b' :: (s ++ [octet '\x7d']))

inductive Elements : Octets → Prop
  | one {w v w' : Octets} : Ws w → Value v → Ws w' → Elements (w ++ v ++ w')
  | more {w v w' s : Octets} : Ws w → Value v → Ws w' → Elements s →
      Elements (w ++ v ++ w' ++ octet ',' :: s)

inductive Members : Octets → Prop
  | one {w k w' u v u' : Octets} : Ws w → Str k → Ws w' → Ws u → Value v → Ws u' →
      Members (w ++ k ++ w' ++ octet ':' :: (u ++ v ++ u'))
  | more {w k w' u v u' s : Octets} : Ws w → Str k → Ws w' → Ws u → Value v → Ws u' → Members s →
      Members (w ++ k ++ w' ++ octet ':' :: (u ++ v ++ u') ++ octet ',' :: s)

end

def Text (s : Octets) : Prop := ∃ w v w', Ws w ∧ Value v ∧ Ws w' ∧ s = w ++ v ++ w'

lemma Ws.nil : Ws [] := by simp [Ws]

lemma Value.text {s : Octets} (h : Value s) : Text s := ⟨[], s, [], .nil, h, .nil, by simp⟩

lemma mem_utf8 {c : Char} {b : Fin 256} (hc : 0x20 ≤ c.toNat) (hb : b ∈ utf8 c) : 0x20 ≤ b.val := by
  have hlt : c.val.toNat < 0x110000 := by
    rcases c.valid with h | ⟨-, h⟩
    · exact lt_of_lt_of_le h (by decide)
    · exact h
  have hval : c.toNat = c.val.toNat := rfl
  simp only [utf8, String.utf8EncodeChar] at hb
  split_ifs at hb <;> simp only [List.map_cons, List.map_nil, List.mem_cons, List.not_mem_nil,
    or_false] at hb <;>
    rcases hb with rfl | rfl | rfl | rfl <;> simp <;> omega

lemma Chars.printable {s : Octets} (h : Chars s) : ∀ b ∈ s, 0x20 ≤ b.val := by
  induction h with
  | nil => simp
  | unescaped c hc _ _ _ ih =>
    intro b hb
    rcases List.mem_append.mp hb with hb | hb
    · exact mem_utf8 hc hb
    · exact ih b hb
  | escape c hc _ ih =>
    simp only [List.mem_cons]
    rintro b (rfl | rfl | hb)
    · decide
    · simp only [List.mem_cons, List.not_mem_nil, or_false] at hc
      rcases hc with rfl | rfl | rfl | rfl | rfl | rfl | rfl | rfl <;> decide
    · exact ih b hb
  | unicode h₁ h₂ h₃ h₄ _ ih =>
    have hhex : ∀ {b}, Hex b → 0x20 ≤ b.val := by
      rintro b (⟨hb, -⟩ | ⟨hb, -⟩ | ⟨hb, -⟩) <;> exact le_trans (by decide) (Fin.le_def.mp hb)
    simp only [List.mem_cons]
    rintro b (rfl | rfl | rfl | rfl | rfl | rfl | hb)
    · decide
    · decide
    · exact hhex h₁
    · exact hhex h₂
    · exact hhex h₃
    · exact hhex h₄
    · exact ih b hb

lemma utf8_ascii {c : Char} (h : c.toNat < 0x80) : utf8 c = [octet c] := by
  change c.val.toNat < 0x80 at h
  simp only [utf8, String.utf8EncodeChar]
  rw [if_pos (by omega)]
  simp only [List.map_cons, List.map_nil, octet, UInt8.toNat_ofNat']
  congr 1
  ext
  simp

lemma Chars.ascii {cs : List Char}
    (h : ∀ c ∈ cs, 0x20 ≤ c.toNat ∧ c.toNat < 0x80 ∧ c ≠ '"' ∧ c ≠ '\\') :
    Chars (cs.map octet) := by
  induction cs with
  | nil => exact .nil
  | cons c cs ih =>
    obtain ⟨hlo, hhi, hq, hb⟩ := h c List.mem_cons_self
    have hrest := ih fun d hd => h d (List.mem_cons_of_mem _ hd)
    have hc := Chars.unescaped c hlo hq hb hrest
    rwa [utf8_ascii hhi] at hc

lemma octet_digit {c : Char} (h : c.isDigit) : Digit (octet c) := by
  simp only [Char.isDigit, Bool.and_eq_true, decide_eq_true_eq, ge_iff_le] at h
  obtain ⟨hlo, hhi⟩ := h
  rw [UInt32.le_iff_toNat_le] at hlo hhi
  have hval : (octet c).val = c.val.toNat := by
    change c.val.toNat % 256 = c.val.toNat
    exact Nat.mod_eq_of_lt (lt_of_le_of_lt hhi (by decide))
  constructor
  · rw [Fin.le_def, hval]
    exact hlo
  · rw [Fin.le_def, hval]
    exact hhi

lemma natural_digits (n : ℕ) : Natural ((Nat.toDigits 10 n).map octet) := by
  have hdigits : Digits ((Nat.toDigits 10 n).map octet) := by
    refine ⟨by simp, fun b hb => ?_⟩
    obtain ⟨c, hc, rfl⟩ := List.mem_map.mp hb
    exact octet_digit (Nat.isDigit_of_mem_toDigits (by decide) (by decide) hc)
  rcases Nat.eq_zero_or_pos n with rfl | hpos
  · exact Or.inl rfl
  · refine Or.inr ⟨hdigits, ?_⟩
    clear hdigits
    induction n using Nat.strong_induction_on with
    | _ n ih =>
      by_cases hn : n < 10
      · rw [Nat.toDigits_of_lt_base hn]
        interval_cases n <;> decide
      · rw [Nat.toDigits_of_base_le (by decide) (by omega), List.map_append,
          List.head?_append_of_ne_nil]
        · exact ih (n / 10) (by omega) (by omega)
        · simp

lemma Natural.printable {s : Octets} (h : Natural s) : ∀ b ∈ s, 0x20 ≤ b.val := by
  intro b hb
  rcases h with rfl | ⟨⟨-, hdigits⟩, -⟩
  · rw [List.mem_singleton.mp hb]
    decide
  · exact le_trans (by decide) (Fin.le_def.mp (hdigits b hb).1)

lemma literal_toString (n : ℕ) : literal (toString n) = (Nat.toDigits 10 n).map octet := by
  change (Nat.repr n).toList.map octet = _
  rw [Nat.toList_repr]

lemma toString_printable (n : ℤ) : ∀ b ∈ literal (toString n), 0x20 ≤ b.val := by
  cases n with
  | ofNat n =>
    change ∀ b ∈ literal (toString n), _
    rw [literal_toString]
    exact (natural_digits n).printable
  | negSucc n =>
    have hsign : literal (toString (Int.negSucc n)) =
        octet '-' :: (Nat.toDigits 10 (n + 1)).map octet := by
      change ("-" ++ Nat.repr (n + 1)).toList.map octet = _
      simp [Nat.toList_repr]
    rw [hsign]
    simp only [List.mem_cons]
    rintro b (rfl | hb)
    · decide
    · exact (natural_digits (n + 1)).printable b hb

lemma number_toString (n : ℤ) : Number (literal (toString n)) := by
  cases n with
  | ofNat n =>
    refine ⟨[], _, [], [], Or.inl rfl, natural_digits n, Or.inl rfl, Or.inl rfl, ?_⟩
    change literal (toString n) = _
    rw [literal_toString, List.nil_append, List.append_nil, List.append_nil]
  | negSucc n =>
    refine ⟨[octet '-'], _, [], [], Or.inr rfl, natural_digits (n + 1), Or.inl rfl, Or.inl rfl, ?_⟩
    change ("-" ++ Nat.repr (n + 1)).toList.map octet = _
    simp [Nat.toList_repr]

end Foundations.Json
