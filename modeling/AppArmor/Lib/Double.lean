import Mathlib.Algebra.Order.Round
import Mathlib.Data.Int.Log
import Mathlib.Data.Rat.Floor
import Mathlib.Tactic

namespace AppArmor.Double

open Int

def ulp (q : ℚ) : ℚ := 2 ^ (Int.log 2 q - 52)

def roundEven (q : ℚ) : ℤ :=
  if q - ⌊q⌋ < 1 / 2 ∨ q - ⌊q⌋ = 1 / 2 ∧ ⌊q⌋ % 2 = 0 then ⌊q⌋ else ⌊q⌋ + 1

def round (q : ℚ) : ℚ := if q = 0 then 0 else roundEven (q / ulp q) * ulp q

variable {q : ℚ}

theorem ulp_pos (q : ℚ) : 0 < ulp q := by
  unfold ulp
  positivity

theorem roundEven_error (q : ℚ) : |(roundEven q : ℚ) - q| ≤ 1 / 2 := by
  have hfloor := floor_le q
  have hlt := lt_floor_add_one q
  unfold roundEven
  rw [abs_le]
  split_ifs with h
  · rcases h with h | h <;> constructor <;> linarith
  · push Not at h
    push_cast
    constructor <;> linarith [h.1]

theorem roundEven_int (n : ℤ) : roundEven n = n := by
  simp [roundEven]

theorem round_error (hq : 0 < q) : |round q - q| ≤ ulp q / 2 := by
  have hulp := ulp_pos q
  have herr := roundEven_error (q / ulp q)
  have heq : round q - q = (roundEven (q / ulp q) - q / ulp q) * ulp q := by
    rw [round, if_neg hq.ne', sub_mul, div_mul_cancel₀ q hulp.ne']
  rw [heq, abs_mul, abs_of_pos hulp]
  calc |(roundEven (q / ulp q) : ℚ) - q / ulp q| * ulp q
      ≤ 1 / 2 * ulp q := mul_le_mul_of_nonneg_right herr hulp.le
    _ = ulp q / 2 := by ring

theorem ulp_le {k : ℤ} (hq : 0 < q) (hlt : q < 2 ^ k) : ulp q ≤ 2 ^ (k - 53) := by
  have hlog : log 2 q < k := (lt_zpow_iff_log_lt (by norm_num) hq).mp (by exact_mod_cast hlt)
  unfold ulp
  exact zpow_le_zpow_right₀ (by norm_num) (by omega)

theorem round_natCast {n : ℕ} (hn : n < 2 ^ 53) : round n = n := by
  rcases Nat.eq_zero_or_pos n with rfl | hpos
  · simp [round]
  have hq : (0 : ℚ) < n := by exact_mod_cast hpos
  have hlog : log 2 (n : ℚ) ≤ 52 := by
    rw [log_natCast]
    have : Nat.log 2 n < 53 := Nat.log_lt_of_lt_pow hpos.ne' hn
    omega
  obtain ⟨k, hk⟩ : ∃ k : ℕ, log 2 (n : ℚ) - 52 = -k := ⟨(52 - log 2 (n : ℚ)).toNat, by omega⟩
  have hulp : ulp (n : ℚ) = (2 ^ k)⁻¹ := by rw [ulp, hk, zpow_neg, zpow_natCast]
  have hdiv : (n : ℚ) / ulp n = ((n * 2 ^ k : ℤ) : ℚ) := by
    rw [hulp, div_inv_eq_mul]
    push_cast
    rfl
  rw [round, if_neg hq.ne', hdiv, roundEven_int, ← hdiv, div_mul_cancel₀ _ (ulp_pos _).ne']

theorem round_lt_round {p q d : ℚ} {k : ℤ} (hp : 0 ≤ p) (hpq : p + d ≤ q) (hq : q < 2 ^ k) (hd : 2 ^ (k - 53) < d) :
    round p < round q := by
  have hdpos : 0 < d := lt_trans (by positivity) hd
  have hqpos : 0 < q := by linarith
  have hqerr := abs_le.mp (round_error hqpos)
  have hqulp := ulp_le hqpos hq
  rcases hp.eq_or_lt with rfl | hppos
  · have hzero : round 0 = 0 := by simp [round]
    linarith
  · have hperr := abs_le.mp (round_error hppos)
    have hplt : p < 2 ^ k := by linarith
    have hpulp := ulp_le hppos hplt
    linarith

end AppArmor.Double
