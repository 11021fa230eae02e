import QuackMail.Json.Numbers
import QuackMail.Json.Value

/-! # JSON integers

`Value::AsInt`.  The bound it compares with is written as 2^63 - 8, whose double is 2^63: so
2^63 itself passes, and its conversion to `int64_t` is undefined.  The literals about 2^63 that
round to it are all there are.
-/

namespace QuackMail

namespace Json

open Binary64

/-! ## The code -/

/-- The number of a sign and a magnitude. -/
def signed (negative : Bool) (magnitude : ℚ) : ℚ := if negative then -magnitude else magnitude

/-- `<=` of two doubles. -/
def leDouble : Double → Double → Bool
  | .nan, _ => false
  | _, .nan => false
  | .infinity true, _ => true
  | .infinity false, y => y == .infinity false
  | .finite _ _, .infinity negative => !negative
  | .finite n q, .finite n' q' => signed n q ≤ signed n' q'

/-- The bound in the source, -9.2233720368547758e18 and 9.2233720368547758e18. -/
def bound (negative : Bool) : Double := nearest negative 9223372036854775800

/-- The integer part of a double. -/
def truncation : Double → Option Int
  | .finite true q => some (-⌊q⌋)
  | .finite false q => some ⌊q⌋
  | _ => none

/-- `(int64_t)number`, none where that is undefined. -/
def toInt64 (x : Double) : Option Int :=
  (truncation x).filter fun t => -0x8000000000000000 ≤ t ∧ t ≤ 0x7fffffffffffffff

/-- `Value::AsInt`; none is an undefined conversion. -/
def asInt (v : Value) (dflt : Int) : Option Int :=
  match v with
  | .number number _ =>
    if !(leDouble (bound true) number && leDouble number (bound false)) then some dflt
    else toInt64 number
  | _ => some dflt

/-! ## The value of a literal -/

/-- The magnitude of a literal. -/
def magnitude (s : Bytes) : ℚ :=
  let s := skipMinus s
  let int := s.takeWhile isDigit
  let s := s.dropWhile isDigit
  let frac := fractionDigits s
  decimal (int ++ frac) frac.length (exponentOf (afterFraction s))

def negative (s : Bytes) : Bool := s.head? == some (ch '-')

theorem strtod_eq (s : Bytes) : strtod s = nearest (negative s) (magnitude s) := rfl

theorem rounded_bound : rounded 9223372036854775800 = (2 : ℚ) ^ (63 : ℤ) := by
  have hunit : unitExponent 9223372036854775800 = 62 - 52 :=
    unitExponent_eq (by norm_num) (by norm_num) (by norm_num)
  rw [rounded, hunit]
  have heven : roundEven (9223372036854775800 / (2 : ℚ) ^ ((62 : ℤ) - 52)) = 9007199254740992 :=
    (roundEven_eq_iff (by norm_num)).mpr (by norm_num)
  rw [heven]
  norm_num

/-- The literal of the bound is no other double than two to the power of 63. -/
theorem bound_eq (negative : Bool) : bound negative = .finite negative ((2 : ℚ) ^ (63 : ℤ)) := by
  rw [bound, nearest_eq, rounded_bound, if_pos (zpow_lt_zpow_right₀ (by norm_num) (by norm_num))]

/-- The magnitudes whose double is two to the power of 63. -/
def AtBound (q : ℚ) : Prop := 2 ^ 63 - 512 ≤ q ∧ q ≤ 2 ^ 63 + 1024

theorem rounded_eq_iff (q : ℚ) : rounded q = (2 : ℚ) ^ (63 : ℤ) ↔ AtBound q := by
  have h63 : (2 : ℚ) ^ (63 : ℤ) = 9223372036854775808 := by norm_num
  obtain hq | hq := lt_or_ge q ((2 : ℚ) ^ (62 : ℤ))
  · have hle := rounded_le (by norm_num) hq.le
    apply iff_of_false
    · intro heq
      linarith
    · intro hbound
      linarith [hbound.1]
  obtain hq' | hq' := lt_or_ge q ((2 : ℚ) ^ (63 : ℤ))
  · -- a unit is 1024
    have hunit : unitExponent q = 62 - 52 := unitExponent_eq (by norm_num) hq hq'
    have hten : (2 : ℚ) ^ ((62 : ℤ) - 52) = 1024 := by norm_num
    have heven := roundEven_eq_iff (q := q / 1024) (n := 9007199254740992) (by norm_num)
    rw [rounded, hunit, hten, h63]
    constructor
    · intro heq
      have hround : roundEven (q / 1024) = 9007199254740992 := by
        have : (roundEven (q / 1024) : ℚ) = (9007199254740992 : ℤ) := by
          linarith
        exact_mod_cast this
      have hlow := (heven.mp hround).1
      constructor <;> linarith
    · intro hbound
      rw [heven.mpr (by push_cast; constructor <;> linarith [hbound.1])]
      norm_num
  obtain hq'' | hq'' := lt_or_ge q ((2 : ℚ) ^ (64 : ℤ))
  · -- a unit is 2048
    have hunit : unitExponent q = 63 - 52 := unitExponent_eq (by norm_num) hq' hq''
    have heleven : (2 : ℚ) ^ ((63 : ℤ) - 52) = 2048 := by norm_num
    have heven := roundEven_eq_iff (q := q / 2048) (n := 4503599627370496) (by norm_num)
    rw [rounded, hunit, heleven, h63]
    constructor
    · intro heq
      have hround : roundEven (q / 2048) = 4503599627370496 := by
        have : (roundEven (q / 2048) : ℚ) = (4503599627370496 : ℤ) := by
          linarith
        exact_mod_cast this
      have hhigh := (heven.mp hround).2
      constructor <;> linarith
    · intro hbound
      rw [heven.mpr (by push_cast; constructor <;> linarith [hbound.2])]
      norm_num
  · have hge := le_rounded (by norm_num) hq''
    apply iff_of_false
    · intro heq
      linarith
    · intro hbound
      linarith [hbound.2]

/-- A double above two to the power of 63 is a whole number. -/
theorem floor_above {q : ℚ} (h : (2 : ℚ) ^ (63 : ℤ) < rounded q) : (2 : ℤ) ^ 63 < ⌊rounded q⌋ := by
  obtain hq | hq := lt_or_ge q ((2 : ℚ) ^ (52 : ℤ))
  · have hle := rounded_le (by norm_num) hq.le
    have hlt : (2 : ℚ) ^ (52 : ℤ) < (2 : ℚ) ^ (63 : ℤ) :=
      zpow_lt_zpow_right₀ (by norm_num) (by norm_num)
    exact absurd h (not_lt.mpr (hle.trans hlt.le))
  · obtain ⟨n, hn⟩ := rounded_whole hq
    rw [hn] at h ⊢
    exact_mod_cast h

theorem rounded_nonneg {q : ℚ} (h : 0 ≤ q) : 0 ≤ rounded q := by
  have hpos : (0 : ℚ) < (2 : ℚ) ^ unitExponent q := by positivity
  have hround : 0 ≤ roundEven (q / (2 : ℚ) ^ unitExponent q) :=
    le_roundEven (by rw [Int.cast_zero]; positivity)
  exact mul_nonneg (by exact_mod_cast hround) hpos.le

theorem magnitude_nonneg (s : Bytes) : 0 ≤ magnitude s := by
  unfold magnitude decimal
  positivity

/-! ## The result -/

/-- What `AsInt` has to return for a number: its integer part where that is an `int64_t`. -/
def intOf (x : Double) (dflt : Int) : Int :=
  match truncation x with
  | some t => if -0x8000000000000000 ≤ t ∧ t ≤ 0x7fffffffffffffff then t else dflt
  | none => dflt

/-- An integer with a sign. -/
def signedInt (negative : Bool) (n : Nat) : Int := if negative then -(n : Int) else n

theorem between_bounds (neg : Bool) {m : ℚ} (h : 0 ≤ m) :
    (leDouble (.finite true ((2 : ℚ) ^ (63 : ℤ))) (.finite neg m) &&
      leDouble (.finite neg m) (.finite false ((2 : ℚ) ^ (63 : ℤ)))) =
      decide (m ≤ (2 : ℚ) ^ (63 : ℤ)) := by
  rw [Bool.eq_iff_iff, Bool.and_eq_true, decide_eq_true_eq]
  cases neg with
  | true =>
    simp only [leDouble, signed, if_true, decide_eq_true_eq, neg_le_neg_iff,
      if_neg Bool.false_ne_true]
    constructor
    · exact fun hle => hle.1
    · exact fun hle => ⟨hle, by linarith⟩
  | false =>
    simp only [leDouble, signed, if_true, decide_eq_true_eq, if_neg Bool.false_ne_true]
    constructor
    · exact fun hle => hle.2
    · exact fun hle => ⟨by linarith, hle⟩

theorem intOf_in {x : Double} {t : Int} (h : truncation x = some t)
    (hin : -0x8000000000000000 ≤ t ∧ t ≤ 0x7fffffffffffffff) (dflt : Int) :
    toInt64 x = some (intOf x dflt) ∧ intOf x dflt = t := by
  have hint : intOf x dflt = t := by
    rw [intOf, h]
    exact if_pos hin
  rw [hint, toInt64, h]
  exact ⟨Option.filter_some_pos (by simpa using hin), rfl⟩

theorem intOf_out {x : Double} {t : Int} (h : truncation x = some t)
    (hout : ¬(-0x8000000000000000 ≤ t ∧ t ≤ 0x7fffffffffffffff)) (dflt : Int) :
    toInt64 x = none ∧ intOf x dflt = dflt := by
  rw [intOf, toInt64, h]
  exact ⟨Option.filter_some_neg (by simpa using hout), if_neg hout⟩

theorem asInt_iff (neg : Bool) {q : ℚ} (h : 0 ≤ q) (integral : Bool) (dflt : Int) :
    asInt (.number (nearest neg q) integral) dflt = some (intOf (nearest neg q) dflt) ↔
      ¬(neg = false ∧ AtBound q) := by
  have hnonneg := rounded_nonneg h
  have htwo : (2 : ℚ) ^ (63 : ℤ) = ((2 ^ 63 : ℤ) : ℚ) := by norm_num
  rw [asInt, bound_eq, bound_eq, nearest_eq, ← rounded_eq_iff]
  split
  · rw [between_bounds neg hnonneg]
    obtain hlt | hle := lt_or_ge ((2 : ℚ) ^ (63 : ℤ)) (rounded q)
    · -- above the bound the default is right
      have hfloor := floor_above hlt
      rw [decide_eq_false (not_le.mpr hlt), if_pos (by rfl), Option.some.injEq]
      apply iff_of_true _ fun hat => absurd hat.2 (ne_of_gt hlt)
      cases neg with
      | true => exact (intOf_out (t := -⌊rounded q⌋) rfl (by omega) dflt).2.symm
      | false => exact (intOf_out (t := ⌊rounded q⌋) rfl (by omega) dflt).2.symm
    · have hfloor : ⌊rounded q⌋ ≤ 2 ^ 63 := by
        have : (⌊rounded q⌋ : ℚ) ≤ ((2 ^ 63 : ℤ) : ℚ) := by
          exact (Int.floor_le _).trans hle
        exact_mod_cast this
      have hzero : 0 ≤ ⌊rounded q⌋ := Int.floor_nonneg.mpr hnonneg
      rw [decide_eq_true hle, if_neg (by simp)]
      cases neg with
      | true =>
        exact iff_of_true (intOf_in (t := -⌊rounded q⌋) rfl (by omega) dflt).1 fun hat =>
          Bool.noConfusion hat.1
      | false =>
        by_cases heq : rounded q = (2 : ℚ) ^ (63 : ℤ)
        · -- the bound itself passes, and is out of range
          have hbound : ⌊rounded q⌋ = 2 ^ 63 := by rw [heq, htwo, Int.floor_intCast]
          apply iff_of_false _ fun hno => hno ⟨rfl, heq⟩
          rw [(intOf_out (t := ⌊rounded q⌋) rfl (by omega) dflt).1]
          simp
        · have hless : ⌊rounded q⌋ < 2 ^ 63 := by
            rw [Int.floor_lt, ← htwo]
            exact lt_of_le_of_ne hle heq
          exact iff_of_true (intOf_in (t := ⌊rounded q⌋) rfl (by omega) dflt).1 fun hat =>
            heq hat.2
  · next hbig =>
    have hlt : (2 : ℚ) ^ (63 : ℤ) < (2 : ℚ) ^ (1024 : ℤ) :=
      zpow_lt_zpow_right₀ (by norm_num) (by norm_num)
    have hne : ¬(neg = false ∧ rounded q = (2 : ℚ) ^ (63 : ℤ)) := by
      intro hat
      rw [hat.2] at hbig
      exact hbig hlt
    apply iff_of_true _ hne
    cases neg with
    | true => rfl
    | false => rfl

/-- The integers that a double holds come back. -/
theorem intOf_nat (neg : Bool) {n : Nat} (h : n ≤ 2 ^ 53) (dflt : Int) :
    intOf (nearest neg n) dflt = signedInt neg n := by
  rw [nearest_natCast h]
  cases neg with
  | true =>
    simp only [intOf, truncation, Int.floor_natCast, signedInt, if_true]
    rw [if_pos (by omega)]
  | false =>
    simp only [intOf, truncation, Int.floor_natCast, signedInt, if_neg Bool.false_ne_true]
    rw [if_pos (by omega)]

theorem parseNumber_strtod {s rest : Bytes} {x : Double} {integral : Bool}
    (h : parseNumber s = .ok (x, integral, rest)) :
    x = strtod (s.take (s.length - rest.length)) := by
  unfold parseNumber at h
  split at h
  · cases h
  · split at h
    · cases h
    · split at h
      · cases h
      · cases h
        rfl

/-- A number that the reader accepts, with what follows it. -/
structure Accepted (s rest : Bytes) (v : Value) (text : Bytes) : Prop where
  read : ∃ x integral, parseNumber s = .ok (x, integral, rest) ∧ v = .number x integral
  literal : text = s.take (s.length - rest.length)

/-- `AsInt` is right for a number: its integer part in the range, the default outside, and the
integer of a literal within two to the power of 53. -/
def Right (v : Value) (text : Bytes) (dflt : Int) : Prop :=
  asInt v dflt = some (intOf (strtod text) dflt) ∧
    ∀ n : Nat, n ≤ 2 ^ 53 → magnitude text = n → asInt v dflt = some (signedInt (negative text) n)

/-- `AsInt` is right for the number of every literal but those about 2^63 that round to it. -/
theorem asInt_right {s rest text : Bytes} {v : Value} (h : Accepted s rest v text) (dflt : Int) :
    Right v text dflt ↔ ¬(negative text = false ∧ AtBound (magnitude text)) := by
  obtain ⟨x, integral, hparse, rfl⟩ := h.read
  rw [parseNumber_strtod hparse, ← h.literal]
  have hiff := asInt_iff (negative text) (magnitude_nonneg text) integral dflt
  rw [← hiff, Right]
  apply and_iff_left_of_imp
  intro hright n hn hmagnitude
  rw [hright, strtod_eq, hmagnitude, intOf_nat _ hn]

theorem asInt_right_seven : Right (.number (strtod (bytes "-7")) true) (bytes "-7") 0 ↔
    ¬(negative (bytes "-7") = false ∧ AtBound (magnitude (bytes "-7"))) :=
  have hread : parseNumber (bytes "-7,") = .ok (strtod (bytes "-7"), true, bytes ",") := rfl
  asInt_right ⟨⟨_, _, hread, rfl⟩, by decide⟩ 0

/-- The literal 9223372036854775808 passes the comparison. -/
theorem two_to_63_converted : ¬∀ (s rest text : Bytes) (v : Value) (dflt : Int),
    Accepted s rest v text → Right v text dflt := by
  intro h
  have hskip : skipMinus (bytes "9223372036854775808") = bytes "9223372036854775808" := by
    decide +kernel
  have hint : (bytes "9223372036854775808").takeWhile isDigit = bytes "9223372036854775808" := by
    decide +kernel
  have hrest : (bytes "9223372036854775808").dropWhile isDigit = [] := by decide +kernel
  have hvalue : digitsFrom 0 (bytes "9223372036854775808") = 2 ^ 63 := by decide +kernel
  have hmagnitude : magnitude (bytes "9223372036854775808") = 2 ^ 63 := by
    unfold magnitude
    simp only [hskip, hint, hrest, fractionDigits, afterFraction, exponentOf, decimal,
      List.append_nil, hvalue]
    norm_num
  have hright := (h (bytes "9223372036854775808") [] _ _ 0 ⟨⟨_, _, rfl, rfl⟩, rfl⟩).1
  have hiff := asInt_iff (negative (bytes "9223372036854775808"))
    (magnitude_nonneg (bytes "9223372036854775808")) true 0
  rw [← strtod_eq, hmagnitude] at hiff
  exact hiff.mp hright ⟨by decide +kernel, by unfold AtBound; norm_num⟩

end Json

end QuackMail
