import Mathlib.Algebra.Order.Field.Power
import Mathlib.Data.Rat.Floor
import Mathlib.Tactic.FieldSimp
import Mathlib.Tactic.Linarith
import Mathlib.Tactic.NormNum
import Mathlib.Tactic.Positivity

/-!
# Binary64 numbers, as far as a quotient of two counters needs them

A finite value is the rational it denotes. Rounding is to the nearest value
with a 53-bit significand, ties to even. Quotients of 64-bit integers are
neither subnormal nor overflow, so the exponent is not bounded here. Rounding
keeps the order, doubles with its argument, and fixes the whole numbers below
`2 ^ 53`.
-/

namespace Basis

inductive Binary64
  | nan
  | inf (negative : Bool)
  | finite (q : ℚ)
  deriving DecidableEq

namespace Binary64

def exponent (q : ℚ) : ℤ :=
  let e : ℤ := q.num.toNat.log2 - q.den.log2
  if (2 : ℚ) ^ e ≤ q then e else e - 1

def roundEven (q : ℚ) : ℤ :=
  let n := ⌊q⌋
  let r := q - n
  if r < 1 / 2 then n else if 1 / 2 < r then n + 1 else if n % 2 = 0 then n else n + 1

/-- The nearest value with a 53-bit significand to a number that is not negative. -/
def round (q : ℚ) : ℚ :=
  if q ≤ 0 then 0
  else
    let ulp : ℚ := (2 : ℚ) ^ (exponent q - 52)
    roundEven (q / ulp) * ulp

def ofNat (n : Nat) : Binary64 := .finite (round n)

def div : Binary64 → Binary64 → Binary64
  | .finite a, .finite b => .finite (round (a / b))
  | _, _ => .nan

def ge : Binary64 → Binary64 → Bool
  | .nan, _ | _, .nan => false
  | .inf false, _ | _, .inf true => true
  | .inf true, _ | _, .inf false => false
  | .finite a, .finite b => b ≤ a

example : round 1 = 1 ∧ round (1 / 2) = 1 / 2 ∧ round (2 ^ 53 + 1) = 2 ^ 53 := by decide +kernel

/-! ## What rounding keeps -/

theorem exponent_spec {q : ℚ} (hq : 0 < q) : (2 : ℚ) ^ exponent q ≤ q ∧
    q < (2 : ℚ) ^ (exponent q + 1) := by
  have hn : q.num.toNat ≠ 0 := by
    have := Rat.num_pos.mpr hq
    omega
  have hd : q.den ≠ 0 := q.den_ne_zero
  have hnum : ((q.num.toNat : ℕ) : ℚ) = q * q.den := by
    rw [Rat.mul_den_eq_num]
    have := Int.toNat_of_nonneg (Rat.num_pos.mpr hq).le
    exact_mod_cast this
  have hn₁ : (2 : ℚ) ^ q.num.toNat.log2 ≤ q * q.den := by
    rw [← hnum]
    exact_mod_cast Nat.log2_self_le hn
  have hn₂ : q * q.den < (2 : ℚ) ^ (q.num.toNat.log2 + 1) := by
    rw [← hnum]
    exact_mod_cast Nat.lt_log2_self
  have hd₁ : (2 : ℚ) ^ q.den.log2 ≤ q.den := by exact_mod_cast Nat.log2_self_le hd
  have hd₂ : (q.den : ℚ) < (2 : ℚ) ^ (q.den.log2 + 1) := by exact_mod_cast Nat.lt_log2_self
  have hpos : (0 : ℚ) < q.den := by exact_mod_cast q.den_pos
  have htwo : (2 : ℚ) ≠ 0 := two_ne_zero
  -- The quotient of the leading powers is off by less than a factor of two on either side.
  have hlow : (2 : ℚ) ^ ((q.num.toNat.log2 : ℤ) - q.den.log2 - 1) ≤ q := by
    rw [zpow_sub₀ htwo, zpow_sub₀ htwo, zpow_natCast, zpow_natCast, zpow_one, div_div,
      div_le_iff₀ (by positivity)]
    rw [pow_succ] at hd₂
    nlinarith [hd₂.le]
  have hhigh : q < (2 : ℚ) ^ ((q.num.toNat.log2 : ℤ) - q.den.log2 + 1) := by
    rw [zpow_add₀ htwo, zpow_sub₀ htwo, zpow_natCast, zpow_natCast, zpow_one, div_mul_eq_mul_div,
      lt_div_iff₀ (by positivity)]
    rw [pow_succ] at hn₂
    nlinarith
  simp only [exponent]
  split
  · rename_i h
    exact ⟨h, hhigh⟩
  · rename_i h
    rw [sub_add_cancel]
    exact ⟨hlow, not_le.mp h⟩

theorem roundEven_mem (q : ℚ) : roundEven q = ⌊q⌋ ∨ roundEven q = ⌊q⌋ + 1 := by
  simp only [roundEven]
  split
  · exact .inl rfl
  · split
    · exact .inr rfl
    · split
      · exact .inl rfl
      · exact .inr rfl

theorem roundEven_intCast (n : ℤ) : roundEven n = n := by
  simp [roundEven]

theorem roundEven_mono {x y : ℚ} (h : x ≤ y) : roundEven x ≤ roundEven y := by
  have hf : ⌊x⌋ ≤ ⌊y⌋ := Int.floor_le_floor h
  rcases hf.lt_or_eq with hlt | heq
  · have hx := roundEven_mem x
    have hy := roundEven_mem y
    omega
  · have hr : x - ⌊x⌋ ≤ y - ⌊y⌋ := by rw [heq]; linarith
    simp only [roundEven, heq] at hr ⊢
    split_ifs <;> first | omega | linarith

theorem round_of_pos {q : ℚ} (hq : 0 < q) :
    round q = roundEven (q / (2 : ℚ) ^ (exponent q - 52)) * (2 : ℚ) ^ (exponent q - 52) :=
    if_neg (not_le.mpr hq)

theorem round_binade {q : ℚ} (hq : 0 < q) : (2 : ℚ) ^ exponent q ≤ round q ∧
    round q ≤ (2 : ℚ) ^ (exponent q + 1) := by
  obtain ⟨hlow, hhigh⟩ := exponent_spec hq
  have hulp : (0 : ℚ) < (2 : ℚ) ^ (exponent q - 52) := by positivity
  have hsplit : ∀ n : ℕ, (2 : ℚ) ^ (exponent q - 52 + n) = (2 : ℚ) ^ n * (2 : ℚ) ^
      (exponent q - 52) := fun n => by
    rw [zpow_add₀ two_ne_zero, zpow_natCast, mul_comm]
  have h₁ := hsplit 52
  have h₂ := hsplit 53
  rw [show exponent q - 52 + ((52 : ℕ) : ℤ) = exponent q by omega] at h₁
  rw [show exponent q - 52 + ((53 : ℕ) : ℤ) = exponent q + 1 by omega] at h₂
  have hr₁ : ((2 ^ 52 : ℤ)) ≤ roundEven (q / (2 : ℚ) ^ (exponent q - 52)) := by
    rw [← roundEven_intCast (2 ^ 52)]
    refine roundEven_mono ((le_div_iff₀ hulp).mpr ?_)
    rw [Int.cast_pow, Int.cast_ofNat, ← h₁]
    exact hlow
  have hr₂ : roundEven (q / (2 : ℚ) ^ (exponent q - 52)) ≤ (2 ^ 53 : ℤ) := by
    rw [← roundEven_intCast (2 ^ 53)]
    refine roundEven_mono ((div_le_iff₀ hulp).mpr ?_)
    rw [Int.cast_pow, Int.cast_ofNat, ← h₂]
    exact hhigh.le
  have hr₁' : ((2 : ℚ) ^ 52) ≤ (roundEven (q / (2 : ℚ) ^ (exponent q - 52)) : ℚ) := by
    exact_mod_cast hr₁
  have hr₂' : (roundEven (q / (2 : ℚ) ^ (exponent q - 52)) : ℚ) ≤ (2 : ℚ) ^ 53 := by
    exact_mod_cast hr₂
  rw [round_of_pos hq, h₁, h₂]
  exact ⟨mul_le_mul_of_nonneg_right hr₁' hulp.le, mul_le_mul_of_nonneg_right hr₂' hulp.le⟩

theorem round_nonneg (q : ℚ) : 0 ≤ round q := by
  by_cases hq : q ≤ 0
  · rw [round, if_pos hq]
  · exact le_trans (by positivity) (round_binade (not_le.mp hq)).1

theorem exponent_mono {x y : ℚ} (hx : 0 < x) (h : x ≤ y) : exponent x ≤ exponent y := by
  have h₁ := (exponent_spec hx).1
  have h₂ := (exponent_spec (hx.trans_le h)).2
  have hlt := (zpow_lt_zpow_iff_right₀ (one_lt_two : (1 : ℚ) < 2)).mp (h₁.trans_lt (h.trans_lt h₂))
  omega

theorem round_mono {x y : ℚ} (h : x ≤ y) : round x ≤ round y := by
  by_cases hx : x ≤ 0
  · rw [round, if_pos hx]
    exact round_nonneg y
  · have hx := not_le.mp hx
    have hy := hx.trans_le h
    rcases (exponent_mono hx h).lt_or_eq with hlt | heq
    · refine (round_binade hx).2.trans (le_trans ?_ (round_binade hy).1)
      exact zpow_le_zpow_right₀ one_le_two (by omega)
    · have hulp : (0 : ℚ) < (2 : ℚ) ^ (exponent y - 52) := by positivity
      have hr := roundEven_mono ((div_le_div_iff_of_pos_right hulp).mpr h)
      have hr' : (roundEven (x / (2 : ℚ) ^ (exponent y - 52)) : ℚ) ≤ roundEven
          (y / (2 : ℚ) ^ (exponent y - 52)) := by
        exact_mod_cast hr
      rw [round_of_pos hx, round_of_pos hy, heq]
      exact mul_le_mul_of_nonneg_right hr' hulp.le

theorem exponent_two_mul {q : ℚ} (hq : 0 < q) : exponent (2 * q) = exponent q + 1 := by
  obtain ⟨h₁, h₂⟩ := exponent_spec hq
  obtain ⟨h₃, h₄⟩ := exponent_spec (mul_pos two_pos hq)
  have hone : (1 : ℚ) < 2 := one_lt_two
  have hdouble : ∀ e : ℤ, (2 : ℚ) ^ (e + 1) = 2 * (2 : ℚ) ^ e := fun e => by
    rw [zpow_add₀ two_ne_zero, zpow_one, mul_comm]
  have hle : exponent q + 1 < exponent (2 * q) + 1 := by
    rw [← zpow_lt_zpow_iff_right₀ hone]
    refine lt_of_le_of_lt ?_ h₄
    rw [hdouble]
    linarith
  have hge : exponent (2 * q) < exponent q + 1 + 1 := by
    rw [← zpow_lt_zpow_iff_right₀ hone]
    refine lt_of_le_of_lt h₃ ?_
    rw [hdouble]
    linarith
  omega

theorem round_two_mul (q : ℚ) : round (2 * q) = 2 * round q := by
  by_cases hq : q ≤ 0
  · rw [round, round, if_pos hq, if_pos (by linarith), mul_zero]
  · have hpos := not_le.mp hq
    have hulp : (2 : ℚ) ^ (exponent q + 1 - 52) = 2 * (2 : ℚ) ^ (exponent q - 52) := by
      rw [show exponent q + 1 - 52 = exponent q - 52 + 1 by ring, zpow_add₀ two_ne_zero,
        zpow_one, mul_comm]
    rw [round_of_pos hpos, round_of_pos (mul_pos two_pos hpos), exponent_two_mul hpos, hulp,
      mul_div_mul_left _ _ two_ne_zero, mul_left_comm]

/-- A whole number below `2 ^ 53` is its own rounding. -/
theorem round_natCast {n : ℕ} (hn : n < 2 ^ 53) : round n = n := by
  by_cases h0 : (n : ℚ) ≤ 0
  · have : n = 0 := by exact_mod_cast le_antisymm h0 (Nat.cast_nonneg n)
    rw [round, if_pos h0, this, Nat.cast_zero]
  · have hpos := not_le.mp h0
    have he : exponent n < 53 := by
      rw [← zpow_lt_zpow_iff_right₀ (one_lt_two : (1 : ℚ) < 2)]
      refine (exponent_spec hpos).1.trans_lt ?_
      exact_mod_cast hn
    obtain ⟨k, hk⟩ := Int.le.dest (show exponent n ≤ 52 by omega)
    have hulp : (2 : ℚ) ^ (exponent n - 52) = ((2 : ℚ) ^ k)⁻¹ := by
      rw [show exponent n - 52 = -(k : ℤ) by omega, zpow_neg, zpow_natCast]
    have hint : (n : ℚ) / ((2 : ℚ) ^ k)⁻¹ = ((n * 2 ^ k : ℤ) : ℚ) := by
      push_cast
      rw [div_inv_eq_mul]
    rw [round_of_pos hpos, hulp, hint, roundEven_intCast]
    push_cast
    field_simp

/-! ## Shares -/

def Positive : Binary64 → Prop
  | nan => False
  | inf negative => negative = false
  | finite q => 0 < q

instance : ∀ x : Binary64, Decidable x.Positive
  | nan => inferInstanceAs (Decidable False)
  | inf _ => inferInstanceAs (Decidable (_ = _))
  | finite _ => inferInstanceAs (Decidable (_ < _))

def share (d b : ℕ) : Binary64 := (ofNat d).div (ofNat b)

theorem share_eq (d b : ℕ) : share d b = finite (round (round d / round b)) := rfl

theorem round_zero : round 0 = 0 := if_pos (le_refl 0)

theorem share_zero_ge {c : Binary64} (hc : c.Positive) (b : ℕ) : (share 0 b).ge c = false := by
  rw [share_eq, Nat.cast_zero, round_zero, zero_div, round_zero]
  cases c with
  | nan => rfl
  | inf negative =>
    have hneg : negative = false := hc
    rw [hneg]
    rfl
  | finite q => exact decide_eq_false (not_le.mpr hc)

/-- The share of a part in a larger whole is not larger. -/
theorem share_ge_of_le {c : Binary64} {d b b' : ℕ} (hb : 0 < b) (h : b ≤ b')
    (hge : (share d b').ge c = true) :
    (share d b).ge c = true := by
  have hpos : (0 : ℚ) < b := by exact_mod_cast hb
  have hrb : 0 < round (b : ℚ) := lt_of_lt_of_le (by positivity) (round_binade hpos).1
  have hle : round (b : ℚ) ≤ round b' := round_mono (by exact_mod_cast h)
  have hround : round (round (d : ℚ) / round b') ≤ round (round d / round b) :=
    round_mono (div_le_div_of_nonneg_left (round_nonneg _) hrb hle)
  rw [share_eq] at hge ⊢
  cases c with
  | nan => exact hge
  | inf negative => cases negative <;> exact hge
  | finite q => exact decide_eq_true (le_trans (of_decide_eq_true hge) hround)

theorem half_le_share {d b : ℕ} (hb : 0 < b) (h : b ≤ 2 * d) :
    (share d b).ge (finite (1 / 2)) = true := by
  have hpos : (0 : ℚ) < b := by exact_mod_cast hb
  have hrb : 0 < round (b : ℚ) := lt_of_lt_of_le (by positivity) (round_binade hpos).1
  have hle : round (b : ℚ) ≤ 2 * round d := by
    rw [← round_two_mul]
    exact round_mono (by exact_mod_cast h)
  have hhalf : round (1 / 2) = 1 / 2 := by decide +kernel
  refine decide_eq_true ?_
  rw [← hhalf]
  refine round_mono ?_
  rw [le_div_iff₀ hrb]
  linarith

/-- Below `2 ^ 53` the comparison with a binary64 number is the one of the exact share. -/
theorem share_lt {d b : ℕ} {q : ℚ} (hd : d < 2 ^ 53) (hb : b < 2 ^ 53) (hq : round q = q)
    (h : (share d b).ge (finite q) = false) : (d : ℚ) / b < q := by
  rw [share_eq, round_natCast hd, round_natCast hb] at h
  refine not_le.mp fun hle => of_decide_eq_false h ?_
  rw [← hq]
  exact round_mono hle

end Binary64

end Basis
