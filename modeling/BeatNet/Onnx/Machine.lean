import BeatNet.Library.Floats
import Mathlib.Tactic.Linarith
import Mathlib.Tactic.Positivity

namespace BeatNet.Onnx

open Library.Floats

instance : Coe ℚ Value := ⟨Value.finite⟩

/-- `static_cast<long>` truncates towards zero. -/
def toLong (q : ℚ) : ℤ := if 0 ≤ q then ⌊q⌋ else ⌈q⌉

theorem toLong_of_nonneg {q : ℚ} (h : 0 ≤ q) : toLong q = ⌊q⌋ := if_pos h

/-- The machine that the program runs on: how it rounds to `float` and to `double`, which numbers
can be cast to `long`, and how many samples there is memory for, in a first and in a second
vector. -/
structure Machine where
  float : ℚ → Value
  double : ℚ → Value
  long : ℚ → Option ℤ
  silenceFits : ℕ → Bool
  outputFits : ℕ → Bool
  float_natCast : ∀ n : ℕ, n < 2 ^ 24 → float n = .finite n
  float_nonneg : ∀ q r, 0 ≤ q → float q = .finite r → 0 ≤ r
  double_half : ∀ n : ℕ, n < 2 ^ 53 → double (n / 2) = .finite (n / 2)
  double_nonneg : ∀ q r, 0 ≤ q → double q = .finite r → 0 ≤ r
  toLong_of_long : ∀ q n, long q = some n → n = toLong q
  long_of_lt : ∀ q, |toLong q| < 2 ^ 31 → long q = some (toLong q)

namespace Machine

def Roomy (m : Machine) : Prop := ∀ n, m.silenceFits n = true ∧ m.outputFits n = true

/-- Numbers without rounding and without bounds. -/
def exact : Machine where
  float := .finite
  double := .finite
  long q := some (toLong q)
  silenceFits _ := true
  outputFits _ := true
  float_natCast _ _ := rfl
  float_nonneg _ _ hq h := by
    cases h
    exact hq
  double_half _ _ := rfl
  double_nonneg _ _ hq h := by
    cases h
    exact hq
  toLong_of_long _ _ h := (Option.some.inj h).symm
  long_of_lt _ _ := rfl

/-- Numbers of IEEE 754, a `long` of 64 bits, and vectors as long as a `std::vector<float>` may
be. -/
def ieee : Machine where
  float := Format.binary32.round
  double := Format.binary64.round
  long q := if -2 ^ 63 ≤ toLong q ∧ toLong q < 2 ^ 63 then some (toLong q) else none
  silenceFits n := decide (n < 2 ^ 61)
  outputFits n := decide (n < 2 ^ 61)
  float_natCast n hn := by
    have hq : (n : ℚ) < 2 ^ 24 := by exact_mod_cast hn
    have hself := Format.round_eq_self (f := .binary32) (m := n) (e := 0)
      (by rwa [Nat.abs_cast, Format.binary32, ← Nat.cast_two, ← Nat.cast_pow, Nat.cast_lt])
      (by decide) (by
        rw [zpow_zero, mul_one, Int.cast_natCast, Nat.abs_cast]
        exact hq.trans (by norm_num [Format.binary32]))
    rwa [zpow_zero, mul_one, Int.cast_natCast] at hself
  float_nonneg _ _ := Format.round_nonneg
  double_half n hn := by
    have hq : (n : ℚ) < 2 ^ 53 := by exact_mod_cast hn
    have hself := Format.round_eq_self (f := .binary64) (m := n) (e := -1)
      (by rwa [Nat.abs_cast, Format.binary64, ← Nat.cast_two, ← Nat.cast_pow, Nat.cast_lt])
      (by decide) (by
        rw [zpow_neg_one, Int.cast_natCast, abs_mul, Nat.abs_cast, abs_of_pos (by norm_num)]
        have hlimit : (2 : ℚ) ^ (53 : ℤ) ≤ 2 ^ (1024 : ℤ) :=
          zpow_le_zpow_right₀ one_le_two (by decide)
        exact lt_of_lt_of_le (by rw [zpow_ofNat]; linarith) hlimit)
    rwa [zpow_neg_one, Int.cast_natCast, ← div_eq_mul_inv] at hself
  double_nonneg _ _ := Format.round_nonneg
  toLong_of_long q n h := by
    split_ifs at h
    exact (Option.some.inj h).symm
  long_of_lt q h := by
    rw [abs_lt] at h
    exact if_pos ⟨by omega, by omega⟩

theorem exact_roomy : exact.Roomy := fun _ ↦ ⟨rfl, rfl⟩

end Machine

end BeatNet.Onnx
