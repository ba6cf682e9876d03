import Mathlib.Algebra.Group.Int.Defs
import Mathlib.Algebra.GroupWithZero.Nat
import Mathlib.Data.List.Basic

/-! # Zero-padded decimal numbers

Padded to one width, decimal numbers sort as strings the way they sort as numbers.
-/

namespace Basis

def digits : Nat → Nat → List Char
  | 0, _ => []
  | w + 1, n => digits w (n / 10) ++ [Nat.digitChar (n % 10)]

@[simp] theorem length_digits : ∀ w n, (digits w n).length = w
  | 0, _ => rfl
  | w + 1, n => by simp [digits, length_digits w]

theorem digits_zero : ∀ w, digits w 0 = List.replicate w '0'
  | 0 => rfl
  | w + 1 => by
    rw [digits, Nat.zero_div, digits_zero w, List.replicate_succ']
    rfl

theorem leftpad_toDigits : ∀ w n, n < 10 ^ (w + 1) → (Nat.toDigits 10 n).leftpad (w + 1) '0' =
    digits (w + 1) n
  | w, n, h => by
    by_cases hn : n < 10
    · rw [Nat.toDigits_of_lt_base hn, digits, Nat.div_eq_of_lt hn, Nat.mod_eq_of_lt hn, digits_zero]
      simp [List.leftpad]
    · cases w with
      | zero => simp at h; omega
      | succ w =>
        have hlt : n / 10 < 10 ^ (w + 1) := by rw [Nat.pow_succ] at h; omega
        rw [Nat.toDigits_of_base_le (by decide) (by omega), digits,
          ← leftpad_toDigits w (n / 10) hlt]
        simp [List.leftpad]

theorem digitChar_compare : ∀ a < 10, ∀ b < 10, compare (Nat.digitChar a) (Nat.digitChar b) =
    compare a b := by decide

theorem compare_append : ∀ {a b : List Char}, a.length = b.length → ∀ x y,
    compare (a ++ x) (b ++ y) = (compare a b).then (compare x y)
  | [], [], _, _, _ => by simp [compare, List.compareLex_nil_nil]
  | c :: a, d :: b, h, x, y => by
    have ih := compare_append (a := a) (b := b) (by simpa using h) x y
    simp only [compare, List.cons_append, List.compareLex_cons_cons] at ih ⊢
    rw [ih, Ordering.then_assoc]

theorem digits_compare : ∀ w n m, n < 10 ^ w → m < 10 ^ w →
    compare (digits w n) (digits w m) = compare n m
  | 0, n, m, hn, hm => by
    have hn : n = 0 := by simpa using hn
    have hm : m = 0 := by simpa using hm
    subst hn hm
    rfl
  | w + 1, n, m, hn, hm => by
    rw [Nat.pow_succ] at hn hm
    have hlast : compare [Nat.digitChar (n % 10)] [Nat.digitChar (m % 10)] =
        compare (n % 10) (m % 10) := by
      rw [← digitChar_compare _ (Nat.mod_lt _ (by omega)) _ (Nat.mod_lt _ (by omega))]
      simp [compare, List.compareLex_cons_cons, List.compareLex_nil_nil]
    rw [digits, digits, compare_append (by simp), digits_compare w _ _ (by omega) (by omega), hlast]
    rcases Nat.lt_trichotomy (n / 10) (m / 10) with h | h | h
    · rw [Nat.compare_eq_lt.mpr h, Nat.compare_eq_lt.mpr (by omega : n < m)]
      rfl
    · rw [Nat.compare_eq_eq.mpr h]
      show compare (n % 10) (m % 10) = _
      rcases Nat.lt_trichotomy (n % 10) (m % 10) with h' | h' | h'
      · rw [Nat.compare_eq_lt.mpr h', Nat.compare_eq_lt.mpr (by omega : n < m)]
      · rw [Nat.compare_eq_eq.mpr h', Nat.compare_eq_eq.mpr (by omega : n = m)]
      · rw [Nat.compare_eq_gt.mpr h', Nat.compare_eq_gt.mpr (by omega : m < n)]
    · rw [Nat.compare_eq_gt.mpr h, Nat.compare_eq_gt.mpr (by omega : m < n)]
      rfl

end Basis
