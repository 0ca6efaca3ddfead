import Mathlib.Data.List.Lex
import Mathlib.Order.Fin.Basic
import Mathlib.Tactic.Ring
import Mathlib.Algebra.Order.Group.Nat

/-! Byte strings and the little-endian layout of the machine integers in the files. -/

namespace Zest

instance (priority := 2000) neZero_byte : NeZero 256 := ⟨by decide⟩

abbrev Byte := Fin 256

instance (priority := 2000) lawfulBEq_byte : LawfulBEq Byte := inferInstance

abbrev Bytes := List Byte
abbrev Key := Bytes
abbrev Value := Bytes

def ascii (s : String) : Bytes := s.toList.map fun c => Fin.ofNat 256 c.toNat

def leBytes : ℕ → ℕ → Bytes
  | 0, _ => []
  | w + 1, x => Fin.ofNat 256 x :: leBytes w (x / 256)

def leValue : Bytes → ℕ
  | [] => 0
  | b :: bs => b.val + 256 * leValue bs

@[simp] lemma leBytes_length (w x : ℕ) : (leBytes w x).length = w := by
  induction w generalizing x with
  | zero => rfl
  | succ w ih => simp [leBytes, ih]

lemma leValue_leBytes (w x : ℕ) (h : x < 256 ^ w) : leValue (leBytes w x) = x := by
  induction w generalizing x with
  | zero =>
    have : x = 0 := by simpa using h
    simp [leBytes, leValue, this]
  | succ w ih =>
    have hx : x / 256 < 256 ^ w := by
      rw [Nat.div_lt_iff_lt_mul (by norm_num)]
      rwa [pow_succ] at h
    have hm : (Fin.ofNat 256 x).val = x % 256 := rfl
    rw [leBytes, leValue, ih _ hx, hm]
    omega

lemma leBytes_leValue (bs : Bytes) : leBytes bs.length (leValue bs) = bs := by
  induction bs with
  | nil => rfl
  | cons b bs ih =>
    have hdiv : (b.val + 256 * leValue bs) / 256 = leValue bs := by omega
    have hmod : Fin.ofNat 256 (b.val + 256 * leValue bs) = b := Fin.ext (by simp [Fin.ofNat])
    rw [leValue, List.length_cons, leBytes, hdiv, hmod, ih]

lemma leValue_lt (bs : Bytes) : leValue bs < 256 ^ bs.length := by
  induction bs with
  | nil => simp [leValue]
  | cons b bs ih =>
    have hb := b.isLt
    rw [leValue, List.length_cons, pow_succ]
    omega

end Zest
