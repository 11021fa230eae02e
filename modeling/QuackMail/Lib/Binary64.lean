import Mathlib.Algebra.Order.Field.Power
import Mathlib.Data.Int.Log
import Mathlib.Data.Rat.Floor
import Mathlib.Tactic.FieldSimp
import Mathlib.Tactic.Linarith
import Mathlib.Tactic.Positivity
import Mathlib.Tactic.Ring

/-! # Doubles

A binary64 number by its sign and its magnitude, and the double nearest to a rational number,
ties to even.  A number that has a significand of 53 bits is its own nearest double.
-/

namespace Binary64

/-- A double.  Zero has two signs. -/
inductive Double
  | finite (negative : Bool) (magnitude : ℚ)
  | infinity (negative : Bool)
  | nan
  deriving DecidableEq

/-- The integer nearest to `q`, the even one of two. -/
def roundEven (q : ℚ) : ℤ :=
  if q - ⌊q⌋ < 1 / 2 then ⌊q⌋
  else if 1 / 2 < q - ⌊q⌋ then ⌊q⌋ + 1
  else if ⌊q⌋ % 2 = 0 then ⌊q⌋
  else ⌊q⌋ + 1

/-- The unit in the last place of the doubles about `q` is two to the power of this. -/
def unitExponent (q : ℚ) : ℤ := max (Int.log 2 q - 52) (-1074)

/-- The double nearest to the number of this sign and magnitude. -/
def nearest (negative : Bool) (q : ℚ) : Double :=
  let e := unitExponent q
  let rounded := roundEven (q / (2 : ℚ) ^ e) * (2 : ℚ) ^ e
  if rounded < (2 : ℚ) ^ (1024 : ℤ) then .finite negative rounded else .infinity negative

@[simp] theorem roundEven_intCast (n : ℤ) : roundEven n = n := by
  simp [roundEven]

/-- The unit of a number is at most that of a significand of 53 bits it has. -/
theorem unitExponent_le {m : ℕ} {e : ℤ} (hpos : 0 < m) (hm : m < 2 ^ 53) (he : -1074 ≤ e) :
    unitExponent (m * (2 : ℚ) ^ e) ≤ e := by
  have hunit : (0 : ℚ) < (2 : ℚ) ^ e := by positivity
  have hmq : (0 : ℚ) < m := by exact_mod_cast hpos
  have hbound : (m : ℚ) * (2 : ℚ) ^ e < ((2 : ℕ) : ℚ) ^ (53 + e) := by
    have hsig : (m : ℚ) < (2 : ℚ) ^ (53 : ℤ) := by exact_mod_cast hm
    calc (m : ℚ) * (2 : ℚ) ^ e < (2 : ℚ) ^ (53 : ℤ) * (2 : ℚ) ^ e :=
          mul_lt_mul_of_pos_right hsig hunit
      _ = ((2 : ℕ) : ℚ) ^ (53 + e) := by
          rw [zpow_add₀ (by norm_num)]
          norm_num
  have hlog := (Int.lt_zpow_iff_log_lt (by norm_num) (mul_pos hmq hunit)).mp hbound
  exact max_le (by omega) he

/-- A number with a significand of 53 bits is a double. -/
theorem nearest_exact {m : ℕ} {e : ℤ} (hm : m < 2 ^ 53) (he : -1074 ≤ e)
    (hlt : (m : ℚ) * (2 : ℚ) ^ e < (2 : ℚ) ^ (1024 : ℤ)) (negative : Bool) :
    nearest negative (m * (2 : ℚ) ^ e) = .finite negative (m * (2 : ℚ) ^ e) := by
  have hrounded : (roundEven ((m * (2 : ℚ) ^ e) / (2 : ℚ) ^ unitExponent (m * (2 : ℚ) ^ e)) : ℚ) *
      (2 : ℚ) ^ unitExponent (m * (2 : ℚ) ^ e) = m * (2 : ℚ) ^ e := by
    cases Nat.eq_zero_or_pos m with
    | inl hzero =>
      subst hzero
      simp [roundEven]
    | inr hpos =>
      have hu := unitExponent_le hpos hm he
      generalize unitExponent (m * (2 : ℚ) ^ e) = u at hu
      -- the significand is a whole number of units
      obtain ⟨k, hk⟩ := Int.eq_ofNat_of_zero_le (show 0 ≤ e - u by omega)
      have hwhole : (m * (2 : ℚ) ^ e) / (2 : ℚ) ^ u = ((m * 2 ^ k : ℕ) : ℤ) := by
        rw [mul_div_assoc, ← zpow_sub₀ (by norm_num), hk]
        push_cast
        rfl
      rw [hwhole, roundEven_intCast, ← hwhole]
      exact div_mul_cancel₀ _ (by positivity)
  rw [nearest, hrounded, if_pos hlt]

/-- The whole numbers up to two to the power of 53 are doubles. -/
theorem nearest_natCast {n : ℕ} (h : n ≤ 2 ^ 53) (negative : Bool) :
    nearest negative n = .finite negative n := by
  have hbound : (n : ℚ) < (2 : ℚ) ^ (1024 : ℤ) := by
    calc (n : ℚ) ≤ (2 : ℚ) ^ (53 : ℤ) := by exact_mod_cast h
      _ < (2 : ℚ) ^ (1024 : ℤ) := zpow_lt_zpow_right₀ (by norm_num) (by norm_num)
  cases Nat.lt_or_eq_of_le h with
  | inl hlt =>
    have h0 := nearest_exact (e := 0) hlt (by norm_num) (by simpa using hbound) negative
    simpa using h0
  | inr heq =>
    have hq : ((2 ^ 52 : ℕ) : ℚ) * (2 : ℚ) ^ (1 : ℤ) = n := by
      rw [heq]
      norm_num
    have h1 := nearest_exact (m := 2 ^ 52) (e := 1) (by norm_num) (by norm_num)
      (by rw [hq]; exact hbound) negative
    rwa [hq] at h1

/-! ## How far the nearest double is -/

/-- What `nearest` rounds a magnitude to, whatever the range. -/
def rounded (q : ℚ) : ℚ := roundEven (q / (2 : ℚ) ^ unitExponent q) * (2 : ℚ) ^ unitExponent q

theorem nearest_eq (negative : Bool) (q : ℚ) : nearest negative q =
    if rounded q < (2 : ℚ) ^ (1024 : ℤ) then .finite negative (rounded q)
    else .infinity negative := rfl

variable {n : ℤ} {q : ℚ}

theorem roundEven_le (h : q ≤ n) : roundEven q ≤ n := by
  have hfloor := Int.floor_le q
  have hle : ⌊q⌋ ≤ n := by exact_mod_cast hfloor.trans h
  cases Int.lt_or_eq_of_le hle with
  | inl hlt =>
    unfold roundEven
    repeat' split
    all_goals omega
  | inr heq =>
    have hq : q = n := le_antisymm h (heq ▸ hfloor)
    rw [hq, roundEven_intCast]

theorem le_roundEven (h : (n : ℚ) ≤ q) : n ≤ roundEven q := by
  have hfloor := Int.le_floor.mpr h
  unfold roundEven
  repeat' split
  all_goals omega

/-- An even integer takes both of its ties. -/
theorem roundEven_eq_iff (hn : n % 2 = 0) :
    roundEven q = n ↔ (n : ℚ) - 1 / 2 ≤ q ∧ q ≤ n + 1 / 2 := by
  have hle := Int.floor_le q
  have hlt := Int.lt_floor_add_one q
  unfold roundEven
  generalize ⌊q⌋ = f at *
  constructor
  · intro heq
    split at heq
    · rw [← heq]
      constructor <;> linarith
    · split at heq
      · rw [← heq]
        push_cast
        constructor <;> linarith
      · split at heq
        · rw [← heq]
          constructor <;> linarith
        · rw [← heq]
          push_cast
          constructor <;> linarith
  · rintro ⟨hlow, hhigh⟩
    have hf : f ≤ n := by
      have : (f : ℚ) < n + 1 := by linarith
      exact Int.lt_add_one_iff.mp (by exact_mod_cast this)
    have hf' : n ≤ f + 1 := by
      have : (n : ℚ) < f + 1 + 1 := by linarith
      exact Int.lt_add_one_iff.mp (by exact_mod_cast this)
    obtain rfl | hnext : f = n ∨ f + 1 = n := by omega
    · split
      · rfl
      · have hhalf : ¬1 / 2 < q - f := by linarith
        rw [if_neg hhalf]
    · have hcast : (f : ℚ) + 1 = n := by exact_mod_cast hnext
      rw [if_neg (by linarith)]
      split
      · exact hnext
      · rw [if_neg (by omega)]
        exact hnext

theorem unitExponent_eq (hn : -1022 ≤ n) (hlow : (2 : ℚ) ^ n ≤ q)
    (hhigh : q < (2 : ℚ) ^ (n + 1)) : unitExponent q = n - 52 := by
  have hpos : 0 < q := lt_of_lt_of_le (by positivity) hlow
  have hle := (Int.zpow_le_iff_le_log (b := 2) (by norm_num) hpos).mp (by exact_mod_cast hlow)
  have hlt := (Int.lt_zpow_iff_log_lt (b := 2) (by norm_num) hpos).mp (by exact_mod_cast hhigh)
  rw [unitExponent]
  omega

/-- A power of two is a whole number of units. -/
theorem zpow_eq_units {k : ℤ} (he : unitExponent q ≤ k) :
    ∃ m : ℕ, (2 : ℚ) ^ k = ((2 ^ m : ℕ) : ℤ) * (2 : ℚ) ^ unitExponent q := by
  obtain ⟨m, hm⟩ := Int.eq_ofNat_of_zero_le (show 0 ≤ k - unitExponent q by omega)
  refine ⟨m, ?_⟩
  rw [show k = (m : ℤ) + unitExponent q by omega, zpow_add₀ (by norm_num)]
  push_cast
  rfl

/-- Rounding does not cross a power of two that is a whole number of units. -/
theorem rounded_le_of_unit {k : ℤ} (he : unitExponent q ≤ k) (h : q ≤ (2 : ℚ) ^ k) :
    rounded q ≤ (2 : ℚ) ^ k := by
  have hunit : (0 : ℚ) < (2 : ℚ) ^ unitExponent q := by positivity
  obtain ⟨m, hpow⟩ := zpow_eq_units he
  rw [hpow, ← div_le_iff₀ hunit] at h
  rw [hpow, rounded]
  exact mul_le_mul_of_nonneg_right (by exact_mod_cast roundEven_le h) hunit.le

theorem le_rounded_of_unit {k : ℤ} (he : unitExponent q ≤ k) (h : (2 : ℚ) ^ k ≤ q) :
    (2 : ℚ) ^ k ≤ rounded q := by
  have hunit : (0 : ℚ) < (2 : ℚ) ^ unitExponent q := by positivity
  obtain ⟨m, hpow⟩ := zpow_eq_units he
  rw [hpow, ← le_div_iff₀ hunit] at h
  rw [hpow, rounded]
  exact mul_le_mul_of_nonneg_right (by exact_mod_cast le_roundEven h) hunit.le

theorem log_le (hn : 0 ≤ n) (h : q ≤ (2 : ℚ) ^ n) : Int.log 2 q ≤ n := by
  by_cases hpos : 0 < q
  · have hmono := Int.log_mono_right (b := 2) hpos h
    have hpow := Int.log_zpow (R := ℚ) (b := 2) (by norm_num) n
    rw [Nat.cast_ofNat] at hpow
    omega
  · rw [Int.log_of_right_le_zero 2 (not_lt.mp hpos)]
    exact hn

theorem rounded_le (hn : 0 ≤ n) (h : q ≤ (2 : ℚ) ^ n) : rounded q ≤ (2 : ℚ) ^ n := by
  have hlog := log_le hn h
  exact rounded_le_of_unit (max_le (by omega) (by omega)) h

theorem le_rounded (hn : -1022 ≤ n) (h : (2 : ℚ) ^ n ≤ q) : (2 : ℚ) ^ n ≤ rounded q := by
  have hpos : 0 < q := lt_of_lt_of_le (by positivity) h
  have hlog := (Int.zpow_le_iff_le_log (b := 2) (by norm_num) hpos).mp (by exact_mod_cast h)
  -- the power of two just below is a whole number of units
  have hbelow := Int.zpow_log_le_self (b := 2) (by norm_num) hpos
  rw [Nat.cast_ofNat] at hbelow
  exact (zpow_le_zpow_right₀ (by norm_num) hlog).trans
    (le_rounded_of_unit (max_le (by omega) (by omega)) hbelow)

/-- From two to the power of 52 on, doubles are whole numbers. -/
theorem rounded_whole (h : (2 : ℚ) ^ (52 : ℤ) ≤ q) : ∃ n : ℤ, rounded q = n := by
  have hpos : 0 < q := lt_of_lt_of_le (by positivity) h
  have hlog : (52 : ℤ) ≤ Int.log 2 q := by
    apply (Int.zpow_le_iff_le_log (b := 2) (by norm_num) hpos).mp
    rw [Nat.cast_ofNat]
    exact h
  obtain ⟨m, hm⟩ := Int.eq_ofNat_of_zero_le
    (show 0 ≤ unitExponent q by rw [unitExponent]; omega)
  refine ⟨roundEven (q / (2 : ℚ) ^ unitExponent q) * 2 ^ m, ?_⟩
  rw [rounded, hm]
  push_cast
  rfl

end Binary64
