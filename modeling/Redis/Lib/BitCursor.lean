import Mathlib.Data.Nat.Bitwise
import Mathlib.Data.Nat.ModEq
import Mathlib.Tactic.Ring

/-! # Counting with reversed bits

`rank v` is the number whose binary digits are those of `v` in reverse order. The words that agree
with `v` on the lowest `n` bits are, by rank, an interval of `2 ^ (w - n)` numbers, and `advance n`
(set the bits above the mask, add one to the reversed word) moves to the start of the next one. -/

namespace Redis
namespace BitCursor
variable {w n m : Nat} {v x : BitVec w}

def lowMask (w n : Nat) : BitVec w := BitVec.ofNat w (2 ^ n - 1)

def rank (v : BitVec w) : Nat := v.reverse.toNat

/-- Increment the bits of `v` under the mask, from the most significant one down. -/
def advance (n : Nat) (v : BitVec w) : BitVec w := ((v ||| ~~~lowMask w n).reverse + 1).reverse

theorem getLsbD_lowMask (n i : Nat) : (lowMask w n).getLsbD i = (decide (i < w) && decide (i < n)) := by
  rw [lowMask, BitVec.getLsbD_ofNat, Nat.testBit_two_pow_sub_one]

theorem rank_lt (v : BitVec w) : rank v < 2 ^ w := v.reverse.isLt

theorem testBit_rank (v : BitVec w) (i : Nat) : (rank v).testBit i = v.getMsbD i := by
  rw [rank, BitVec.testBit_toNat, BitVec.getLsbD_reverse]

@[simp] theorem rank_reverse (v : BitVec w) : rank v.reverse = v.toNat := by
  rw [rank, BitVec.reverse_reverse_eq]

theorem rank_eq_zero : rank v = 0 ↔ v = 0 := by
  constructor
  · intro h
    have : v.reverse = 0 := BitVec.eq_of_toNat_eq (by simpa [rank] using h)
    rw [← v.reverse_reverse_eq, this]
    apply BitVec.eq_of_getLsbD_eq
    simp [BitVec.getLsbD_reverse]
  · rintro rfl
    refine Nat.eq_of_testBit_eq fun i => ?_
    simp [testBit_rank]

/-- Two words agree under the mask exactly when their ranks lie in the same interval. -/
theorem and_lowMask_eq_iff (hn : n ≤ w) :
    x &&& lowMask w n = v &&& lowMask w n ↔ rank x / 2 ^ (w - n) = rank v / 2 ^ (w - n) := by
  have hbits : ∀ y : BitVec w, ∀ j, (rank y / 2 ^ (w - n)).testBit j = y.getMsbD (w - n + j) := by
    intro y j
    rw [Nat.testBit_div_two_pow, testBit_rank, add_comm]
  constructor
  · intro h
    refine Nat.eq_of_testBit_eq fun j => ?_
    rw [hbits, hbits]
    by_cases hj : w - n + j < w
    · have hb := congrArg (fun y : BitVec w => y.getLsbD (w - 1 - (w - n + j))) h
      simp only [BitVec.getLsbD_and, getLsbD_lowMask] at hb
      rw [decide_eq_true (by omega), decide_eq_true (by omega)] at hb
      simpa [BitVec.getMsbD, hj] using hb
    · simp [BitVec.getMsbD, hj]
  · intro h
    refine BitVec.eq_of_getLsbD_eq fun i hi => ?_
    simp only [BitVec.getLsbD_and, getLsbD_lowMask]
    by_cases hin : i < n
    · have hb := congrArg (fun q : Nat => q.testBit (w - 1 - i - (w - n))) h
      simp only [hbits] at hb
      rw [show w - n + (w - 1 - i - (w - n)) = w - 1 - i by omega] at hb
      have hlt : w - 1 - i < w := by omega
      simp only [BitVec.getMsbD, hlt, decide_true, Bool.true_and] at hb
      rw [show w - 1 - (w - 1 - i) = i by omega] at hb
      rw [hb]
    · simp [hin]

/-- `advance` goes to the start of the next interval, or wraps to zero after the last one. -/
theorem rank_advance (hn : n ≤ w) : rank (advance n v) = (rank v / 2 ^ (w - n) + 1) * 2 ^ (w - n) % 2 ^ w := by
  have hfill : rank (v ||| ~~~lowMask w n) = 2 ^ (w - n) * (rank v / 2 ^ (w - n)) + (2 ^ (w - n) - 1) := by
    refine Nat.eq_of_testBit_eq fun i => ?_
    rw [testBit_rank, Nat.testBit_two_pow_mul_add _ (by have := Nat.two_pow_pos (w - n); omega)]
    by_cases hi : i < w - n
    · rw [if_pos hi, Nat.testBit_two_pow_sub_one, decide_eq_true hi, BitVec.getMsbD_eq_getLsbD,
        BitVec.getLsbD_or, BitVec.getLsbD_not, getLsbD_lowMask]
      have h1 : i < w := by omega
      have h2 : ¬ (w - 1 - i < n) := by omega
      have h3 : w - 1 - i < w := by omega
      simp [h1, h2, h3]
    · rw [if_neg hi, Nat.testBit_div_two_pow, Nat.sub_add_cancel (Nat.le_of_not_lt hi), testBit_rank,
        BitVec.getMsbD_eq_getLsbD, BitVec.getMsbD_eq_getLsbD, BitVec.getLsbD_or, BitVec.getLsbD_not,
        getLsbD_lowMask]
      by_cases h1 : i < w
      · have h2 : w - 1 - i < n := by omega
        have h3 : w - 1 - i < w := by omega
        simp [h1, h2, h3]
      · simp [h1]
  have hpos := Nat.two_pow_pos (w - n)
  rw [advance, rank_reverse, BitVec.toNat_add, show (v ||| ~~~lowMask w n).reverse.toNat =
    rank (v ||| ~~~lowMask w n) from rfl, hfill]
  rcases eq_zero_or_pos w with rfl | hw
  · simp [Nat.mod_one]
  have h1 : (1 : BitVec w).toNat = 1 := by
    exact Nat.mod_eq_of_lt (Nat.one_lt_two_pow (by omega))
  rw [h1]
  rw [add_assoc, Nat.sub_add_cancel hpos, Nat.add_mul, Nat.one_mul, mul_comm]

/-- The bits between two masks vanish when the start of an interval of the finer one is also the
start of an interval of the coarser one. -/
theorem and_xor_lowMask_eq_zero_iff (hm : m ≤ w) (hnm : n ≤ m) (hv : 2 ^ (w - m) ∣ rank v) :
    v &&& (lowMask w n ^^^ lowMask w m) = 0 ↔ 2 ^ (w - n) ∣ rank v := by
  have hlow : ∀ j < w - m, (rank v).testBit j = false := by
    intro j hj
    obtain ⟨q, hq⟩ := hv
    rw [hq, Nat.testBit_two_pow_mul]
    simp [not_le.2 hj]
  constructor
  · intro h
    rw [Nat.dvd_iff_mod_eq_zero]
    refine Nat.eq_of_testBit_eq fun j => ?_
    rw [Nat.testBit_mod_two_pow, Nat.zero_testBit]
    by_cases hj : j < w - n
    · by_cases hjm : j < w - m
      · simp [hlow j hjm]
      have hb := congrArg (fun y : BitVec w => y.getLsbD (w - 1 - j)) h
      simp only [BitVec.getLsbD_and, BitVec.getLsbD_xor, getLsbD_lowMask] at hb
      have h1 : w - 1 - j < w := by omega
      have h2 : ¬ (w - 1 - j < n) := by omega
      have h3 : w - 1 - j < m := by omega
      have h4 : j < w := by omega
      rw [testBit_rank, BitVec.getMsbD_eq_getLsbD]
      simpa [h1, h2, h3, h4, hj] using hb
    · simp [hj]
  · intro h
    refine BitVec.eq_of_getLsbD_eq fun i hi => ?_
    simp only [BitVec.getLsbD_and, BitVec.getLsbD_xor, getLsbD_lowMask]
    by_cases hin : i < n
    · have : i < m := by omega
      simp [hin, this]
    by_cases him : i < m
    · have hz : (rank v).testBit (w - 1 - i) = false := by
        obtain ⟨q, hq⟩ := h
        rw [hq, Nat.testBit_two_pow_mul]
        have : ¬ (w - n ≤ w - 1 - i) := by omega
        simp [this]
      have h1 : w - 1 - i < w := by omega
      rw [testBit_rank, BitVec.getMsbD_eq_getLsbD, show w - 1 - (w - 1 - i) = i by omega] at hz
      simp only [h1, decide_true, Bool.true_and] at hz
      simp [hz]
    · simp [hin, him]

theorem rank_injective {y : BitVec w} (h : rank x = rank y) : x = y := by
  rw [← x.reverse_reverse_eq, ← y.reverse_reverse_eq, BitVec.eq_of_toNat_eq h]

/-- A word that is not below `v` and below the advanced cursor agrees with `v` under the mask. -/
theorem interval_of_advance (hn : n ≤ w) (hle : rank v ≤ rank x) (hlt : advance n v = 0 ∨ rank x < rank (advance n v)) :
    rank x / 2 ^ (w - n) = rank v / 2 ^ (w - n) := by
  have hpos := Nat.two_pow_pos (w - n)
  have hbelow : rank x < (rank v / 2 ^ (w - n) + 1) * 2 ^ (w - n) := by
    rw [← rank_eq_zero, rank_advance hn] at hlt
    rcases lt_or_ge ((rank v / 2 ^ (w - n) + 1) * 2 ^ (w - n)) (2 ^ w) with hw | hw
    · rw [Nat.mod_eq_of_lt hw] at hlt
      exact hlt.resolve_left (by simp)
    · exact (rank_lt x).trans_le hw
  exact le_antisymm (Nat.lt_succ_iff.1 ((Nat.div_lt_iff_lt_mul hpos).2 hbelow))
    (Nat.div_le_div_right hle)

section
variable (hm : m ≤ w) (hnm : n ≤ m)
include hm hnm

private theorem two_pow_split : 2 ^ (w - n) = 2 ^ (w - m) * 2 ^ (m - n) := by
  rw [← pow_add]
  congr 1
  omega

private theorem dvd_rank_advance_iff : 2 ^ (w - n) ∣ rank (advance m v) ↔ 2 ^ (m - n) ∣ rank v / 2 ^ (w - m) + 1 := by
  rw [rank_advance hm, Nat.dvd_mod_iff (Nat.pow_dvd_pow 2 (by omega)), two_pow_split hm hnm,
    mul_comm (_ + 1)]
  exact Nat.mul_dvd_mul_iff_left (Nat.two_pow_pos _)

theorem advance_eq_of_dvd (h : 2 ^ (w - n) ∣ rank (advance m v)) : advance m v = advance n v := by
  refine rank_injective ?_
  rw [dvd_rank_advance_iff hm hnm] at h
  rw [rank_advance hm, rank_advance (hnm.trans hm), two_pow_split hm hnm, ← Nat.div_div_eq_div_mul]
  congr 1
  calc (rank v / 2 ^ (w - m) + 1) * 2 ^ (w - m)
      = (rank v / 2 ^ (w - m) + 1) / 2 ^ (m - n) * 2 ^ (m - n) * 2 ^ (w - m) := by
        rw [Nat.div_mul_cancel h]
    _ = (rank v / 2 ^ (w - m) / 2 ^ (m - n) + 1) * (2 ^ (w - m) * 2 ^ (m - n)) := by
        rw [Nat.succ_div_of_dvd h]
        ring

/-- Before that, advancing with the finer mask moves by one step inside the interval. -/
theorem advance_inside (h : ¬ 2 ^ (w - n) ∣ rank (advance m v)) :
    rank (advance m v) / 2 ^ (w - m) % 2 ^ (m - n) = rank v / 2 ^ (w - m) % 2 ^ (m - n) + 1 ∧
      advance n (advance m v) = advance n v := by
  have hstep : rank (advance m v) / 2 ^ (w - m) = rank v / 2 ^ (w - m) + 1 := by
    rw [rank_advance hm]
    have hle : (rank v / 2 ^ (w - m) + 1) * 2 ^ (w - m) ≤ 2 ^ w := by
      have hlt : rank v / 2 ^ (w - m) < 2 ^ m := by
        rw [Nat.div_lt_iff_lt_mul (Nat.two_pow_pos _), ← pow_add, show m + (w - m) = w by omega]
        exact rank_lt v
      calc (rank v / 2 ^ (w - m) + 1) * 2 ^ (w - m)
          ≤ 2 ^ m * 2 ^ (w - m) := Nat.mul_le_mul_right _ hlt
        _ = 2 ^ w := by rw [← pow_add]; congr 1; omega
    rcases Nat.lt_or_eq_of_le hle with hlt | heq
    · rw [Nat.mod_eq_of_lt hlt, Nat.mul_div_cancel _ (Nat.two_pow_pos _)]
    · rw [rank_advance hm, heq, Nat.mod_self] at h
      exact absurd (Nat.dvd_zero _) h
  have hdiv := Nat.succ_div_of_not_dvd (mt (dvd_rank_advance_iff hm hnm).2 h)
  refine ⟨?_, rank_injective ?_⟩
  · have h1 := Nat.div_add_mod (rank v / 2 ^ (w - m)) (2 ^ (m - n))
    have h2 := Nat.div_add_mod (rank v / 2 ^ (w - m) + 1) (2 ^ (m - n))
    rw [hdiv] at h2
    rw [hstep]
    omega
  · rw [rank_advance (hnm.trans hm), rank_advance (hnm.trans hm), two_pow_split hm hnm,
      ← Nat.div_div_eq_div_mul, ← Nat.div_div_eq_div_mul, hstep, hdiv]

end

end BitCursor
end Redis
