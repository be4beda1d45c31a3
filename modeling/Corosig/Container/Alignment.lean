import Corosig.Container.Allocator

namespace Corosig

theorem land_mask {x k : Nat} (hx : x < 2 ^ 64) (hk : k ≤ 64) :
    x &&& (2 ^ 64 - 2 ^ k) = x / 2 ^ k * 2 ^ k := by
  have hmask : 2 ^ 64 - 2 ^ k = (2 ^ (64 - k) - 1) <<< k := by
    rw [Nat.shiftLeft_eq, Nat.sub_mul, Nat.one_mul, ← Nat.pow_add, Nat.sub_add_cancel hk]
  have hround : x / 2 ^ k * 2 ^ k = (x >>> k) <<< k := by
    rw [Nat.shiftLeft_eq, Nat.shiftRight_eq_div_pow]
  rw [hmask, hround]
  refine Nat.eq_of_testBit_eq fun i => ?_
  simp only [Nat.testBit_and, Nat.testBit_shiftLeft, Nat.testBit_two_pow_sub_one,
    Nat.testBit_shiftRight]
  by_cases hki : k ≤ i
  · by_cases hi : i < 64
    · have : i - k < 64 - k := by omega
      simp [hki, this]
    · have : x.testBit i = false :=
        Nat.testBit_lt_two_pow (Nat.lt_of_lt_of_le hx (Nat.pow_le_pow_right (by decide) (by omega)))
      simp [hki, this]
  · simp [hki]

theorem alignRightDiff_spec {p k : Nat} (hp : p < 2 ^ 64) (hk : k < 64) :
    alignRightDiff p (2 ^ k) < 2 ^ k ∧ (p + alignRightDiff p (2 ^ k)) % 2 ^ k = 0 := by
  have hpow : 2 ^ 64 = 2 ^ k * 2 ^ (64 - k) := by
    rw [← Nat.pow_add]
    congr 1
    omega
  have hpos : 0 < 2 ^ k := Nat.two_pow_pos k
  have hlt : 2 ^ k < 2 ^ 64 := Nat.pow_lt_pow_right (by decide) hk
  unfold alignRightDiff
  rw [land_mask (Nat.mod_lt _ (by decide)) (Nat.le_of_lt hk)]
  generalize ha : 2 ^ k = a at *
  rcases Nat.lt_or_ge (p + a - 1) (2 ^ 64) with h | h
  · rw [Nat.mod_eq_of_lt h]
    have hdm := Nat.div_add_mod (p + a - 1) a
    have hm := Nat.mod_lt (p + a - 1) hpos
    rw [Nat.mul_comm] at hdm
    generalize hq : (p + a - 1) / a * a = q at *
    have hd : (q + 2 ^ 64 - p) % 2 ^ 64 = q - p := by omega
    rw [hd]
    refine ⟨by omega, ?_⟩
    rw [show p + (q - p) = q by omega, ← hq]
    exact Nat.mul_mod_left _ _
  · have hx : (p + a - 1) % 2 ^ 64 = p + a - 1 - 2 ^ 64 := by omega
    rw [hx, Nat.div_eq_of_lt (by omega)]
    have hd : (0 * a + 2 ^ 64 - p) % 2 ^ 64 = 2 ^ 64 - p := by omega
    rw [hd]
    refine ⟨by omega, ?_⟩
    rw [show p + (2 ^ 64 - p) = 2 ^ 64 by omega, hpow]
    exact Nat.mul_mod_right _ _

theorem alignRightDiff_blocks {p k : Nat} (hp : p < 2 ^ 64) (hk : k < 64)
    (hb : p % blockSize = 0) : alignRightDiff p (2 ^ k) % blockSize = 0 := by
  obtain ⟨hlt, hmul⟩ := alignRightDiff_spec hp hk
  have hdvd : 2 ^ k ∣ p + alignRightDiff p (2 ^ k) := Nat.dvd_of_mod_eq_zero hmul
  rcases Nat.le_total k 4 with h | h
  · have hpk : 2 ^ k ∣ p := (Nat.pow_dvd_pow 2 h).trans (Nat.dvd_of_mod_eq_zero hb)
    rw [Nat.eq_zero_of_dvd_of_lt ((Nat.dvd_add_right hpk).mp hdvd) hlt]
    decide
  · have hd : blockSize ∣ p + alignRightDiff p (2 ^ k) := (Nat.pow_dvd_pow 2 h).trans hdvd
    exact Nat.mod_eq_zero_of_dvd ((Nat.dvd_add_right (Nat.dvd_of_mod_eq_zero hb)).mp hd)

theorem ceilDiv_blocks (a : Nat) : ceilDiv a blockSize = (a + 15) / 16 := by
  show a / 16 + (if a % 16 ≠ 0 then 1 else 0) = (a + 15) / 16
  split <;> omega

theorem ceilDiv_add_mul (a q : Nat) : ceilDiv (a + q * blockSize) blockSize =
    ceilDiv a blockSize + q := by
  rw [ceilDiv_blocks, ceilDiv_blocks, blockSize]
  omega

theorem le_ceilDiv_mul (a : Nat) : a ≤ ceilDiv a blockSize * blockSize := by
  rw [ceilDiv_blocks, blockSize]
  omega

theorem ceilDiv_pos {a : Nat} (h : 0 < a) : 0 < ceilDiv a blockSize := by
  rw [ceilDiv_blocks]
  omega

end Corosig
