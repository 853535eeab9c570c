import Mathlib.Data.Int.Log
import Mathlib.Data.Rat.Floor

namespace BeatNet.Library.Floats

/-- A floating-point number. Zeros and infinities have no sign. -/
inductive Value
  | finite (q : ℚ)
  | infinite
  | nan
  deriving DecidableEq

namespace Value

def rational : Value → Option ℚ
  | finite q => some q
  | infinite => none
  | nan => none

def map (round : ℚ → Value) : Value → Value
  | finite q => round q
  | infinite => infinite
  | nan => nan

def div (round : ℚ → Value) : Value → Value → Value
  | finite x, finite y => if y = 0 then if x = 0 then nan else infinite else round (x / y)
  | finite _, infinite => finite 0
  | infinite, finite _ => infinite
  | _, _ => nan

theorem rational_eq_some {v : Value} {q : ℚ} : v.rational = some q ↔ v = finite q := by
  cases v <;> simp [rational]

theorem div_finite {round : ℚ → Value} {x y : ℚ} (h : y ≠ 0) :
    div round (finite x) (finite y) = round (x / y) := if_neg h

end Value

/-- The nearest integer, and the even one of two that are as near. -/
def roundEven (x : ℚ) : ℤ :=
  if x - ⌊x⌋ < 1 / 2 ∨ x - ⌊x⌋ = 1 / 2 ∧ ⌊x⌋ % 2 = 0 then ⌊x⌋ else ⌊x⌋ + 1

theorem roundEven_intCast (n : ℤ) : roundEven n = n := by
  rw [roundEven, Int.floor_intCast, sub_self, if_pos (.inl (by norm_num))]

theorem roundEven_nonneg {x : ℚ} (h : 0 ≤ x) : 0 ≤ roundEven x := by
  have hfloor := Int.floor_nonneg.mpr h
  rw [roundEven]
  split_ifs
  · exact hfloor
  · omega

/-- A binary format: the digits of a number, the exponent of the last digit of the smallest ones,
and that of the power of two which no number reaches. -/
structure Format where
  precision : ℕ
  least : ℤ
  limit : ℤ

namespace Format

def binary32 : Format := ⟨24, -149, 128⟩

def binary64 : Format := ⟨53, -1074, 1024⟩

def place (f : Format) (q : ℚ) : ℤ := max f.least (Int.log 2 |q| + 1 - f.precision)

def round (f : Format) (q : ℚ) : Value :=
  let rounded : ℚ := roundEven (q / 2 ^ f.place q) * 2 ^ f.place q
  if |rounded| < 2 ^ f.limit then .finite rounded else .infinite

variable {f : Format} {m e : ℤ} {q r : ℚ}

theorem place_le (hm : |m| < 2 ^ f.precision) (hne : m ≠ 0) (he : f.least ≤ e) :
    f.place (m * 2 ^ e) ≤ e := by
  have hpos : (0 : ℚ) < 2 ^ e := zpow_pos two_pos e
  have hq : 0 < |(m : ℚ) * 2 ^ e| := abs_pos.mpr (mul_ne_zero (Int.cast_ne_zero.mpr hne) hpos.ne')
  have hm' : |(m : ℚ)| < 2 ^ (f.precision : ℤ) := by
    rw [zpow_natCast]
    exact_mod_cast hm
  have hlt : |(m : ℚ) * 2 ^ e| < ((2 : ℕ) : ℚ) ^ ((f.precision : ℤ) + e) := by
    rw [Nat.cast_two, zpow_add₀ two_ne_zero, abs_mul, abs_of_pos hpos]
    exact mul_lt_mul_of_pos_right hm' hpos
  have hlog := (Int.lt_zpow_iff_log_lt Nat.one_lt_two hq).mp hlt
  rw [place, max_le_iff]
  exact ⟨he, by omega⟩

theorem round_eq_self (hm : |m| < 2 ^ f.precision) (he : f.least ≤ e)
    (hlimit : |(m : ℚ) * 2 ^ e| < 2 ^ f.limit) : f.round (m * 2 ^ e) = .finite (m * 2 ^ e) := by
  have hself : (roundEven ((m : ℚ) * 2 ^ e / 2 ^ f.place (m * 2 ^ e)) : ℚ) *
      2 ^ f.place (m * 2 ^ e) = m * 2 ^ e := by
    have hne : (2 : ℚ) ^ f.place (m * 2 ^ e) ≠ 0 := (zpow_pos two_pos _).ne'
    rcases eq_or_ne m 0 with rfl | hm0
    · rw [Int.cast_zero, zero_mul, zero_div, ← Int.cast_zero (R := ℚ), roundEven_intCast,
        Int.cast_zero, zero_mul]
    · -- the number is a whole multiple of its last digit
      obtain ⟨k, hk⟩ := Int.le.dest (place_le hm hm0 he)
      have hwhole : (m : ℚ) * 2 ^ e / 2 ^ f.place (m * 2 ^ e) = ((m * 2 ^ k : ℤ) : ℚ) := by
        rw [div_eq_iff hne, Int.cast_mul, Int.cast_pow, Int.cast_two, mul_assoc, ← zpow_natCast,
          ← zpow_add₀ two_ne_zero, add_comm, hk]
      rw [hwhole, roundEven_intCast, ← hwhole, div_mul_cancel₀ _ hne]
  rw [round]
  simp only [hself]
  exact if_pos hlimit

theorem round_nonneg (hq : 0 ≤ q) (h : f.round q = .finite r) : 0 ≤ r := by
  rw [round] at h
  split_ifs at h
  cases h
  have hpos : (0 : ℚ) < 2 ^ f.place q := zpow_pos two_pos _
  exact mul_nonneg (Int.cast_nonneg (roundEven_nonneg (div_nonneg hq hpos.le))) hpos.le

end Format

end BeatNet.Library.Floats
