import Mathlib.Data.Nat.Log
import Mathlib.Tactic

/-!
# Compact numbers

A number in compact form is its length in bytes and its three leading bytes, of which the top
bit stays clear. Going over to the compact form truncates: the number it stands for is below the
one it was made from, by less than half.
-/

namespace BitcoinNode.Compact

variable {v m s : Nat}

/-- The number that a compact form stands for; a mantissa with its top bit set is negative
and counts as zero. -/
def expand (bits : Nat) : Nat :=
  let size := bits / 2 ^ 24
  let mantissa := bits % 2 ^ 24
  let mantissa := if size ≤ 3 then mantissa / 256 ^ (3 - size) else mantissa
  if mantissa < 2 ^ 23 then mantissa * 256 ^ (size - 3) else 0

/-- The number of bytes of a number. -/
def byteLength (v : Nat) : Nat := if v = 0 then 0 else Nat.log2 v / 8 + 1

/-- The compact form, rounded towards zero. -/
def compact (v : Nat) : Nat :=
  let size := byteLength v
  let mantissa := v * 256 ^ (3 - size) / 256 ^ (size - 3)
  if mantissa < 2 ^ 23 then size * 2 ^ 24 + mantissa
  else (size + 1) * 2 ^ 24 + mantissa / 256

theorem expand_of_small (hm : m < 2 ^ 23) (hs : s ≤ 3) :
    expand (s * 2 ^ 24 + m) = m / 256 ^ (3 - s) := by
  have hsize : (s * 2 ^ 24 + m) / 2 ^ 24 = s := by omega
  have hmantissa : (s * 2 ^ 24 + m) % 2 ^ 24 = m := by omega
  have hlt : m / 256 ^ (3 - s) < 2 ^ 23 := (Nat.div_le_self _ _).trans_lt hm
  simp only [expand, hsize, hmantissa, if_pos hs, if_pos hlt]
  rw [Nat.sub_eq_zero_of_le hs, pow_zero, mul_one]

theorem expand_of_large (hm : m < 2 ^ 23) (hs : 3 < s) :
    expand (s * 2 ^ 24 + m) = m * 256 ^ (s - 3) := by
  have hsize : (s * 2 ^ 24 + m) / 2 ^ 24 = s := by omega
  have hmantissa : (s * 2 ^ 24 + m) % 2 ^ 24 = m := by omega
  simp only [expand, hsize, hmantissa, if_neg (Nat.not_le.2 hs), if_pos hm]

theorem lt_pow_byteLength : v < 256 ^ byteLength v := by
  unfold byteLength
  split_ifs with hv
  · omega
  · calc v < 2 ^ (Nat.log2 v + 1) := Nat.lt_log2_self
      _ ≤ 2 ^ (8 * (Nat.log2 v / 8 + 1)) := Nat.pow_le_pow_right Nat.two_pos (by omega)
      _ = 256 ^ (Nat.log2 v / 8 + 1) := by rw [pow_mul]; norm_num

theorem pow_byteLength_le (hv : 0 < v) : 256 ^ (byteLength v - 1) ≤ v := by
  rw [byteLength, if_neg hv.ne', Nat.add_sub_cancel]
  calc 256 ^ (Nat.log2 v / 8) = 2 ^ (8 * (Nat.log2 v / 8)) := by rw [pow_mul]; norm_num
    _ ≤ 2 ^ Nat.log2 v := Nat.pow_le_pow_right Nat.two_pos (by omega)
    _ ≤ v := Nat.log2_self_le hv.ne'

/-- The compact form keeps the leading bytes. -/
theorem expand_compact (hv : 0 < v) :
    ∃ k, 256 ^ k ≤ v ∧ expand (compact v) = v / 256 ^ k * 256 ^ k := by
  have hlt := @lt_pow_byteLength v
  have hle := pow_byteLength_le hv
  have hpos : 0 < byteLength v := by
    rw [byteLength, if_neg hv.ne']
    exact Nat.succ_pos _
  unfold compact
  generalize byteLength v = s at hlt hle hpos
  dsimp only
  rcases Nat.lt_or_ge 3 s with hs | hs
  · -- more than three bytes
    obtain ⟨k, rfl⟩ : ∃ k, s = k + 3 := ⟨s - 3, by omega⟩
    rw [show 3 - (k + 3) = 0 by omega, pow_zero, mul_one, Nat.add_sub_cancel]
    rw [show k + 3 - 1 = k + 2 by omega, pow_add] at hle
    have hmantissa : v / 256 ^ k < 2 ^ 24 := by
      rw [Nat.div_lt_iff_lt_mul (by positivity)]
      calc v < 256 ^ (k + 3) := hlt
        _ = 2 ^ 24 * 256 ^ k := by rw [pow_add, mul_comm]; norm_num
    split_ifs with hm
    · refine ⟨k, (Nat.le_mul_of_pos_right _ (by norm_num)).trans hle, ?_⟩
      rw [expand_of_large hm hs, Nat.add_sub_cancel]
    · refine ⟨k + 1, ?_, ?_⟩
      · rw [pow_succ]
        exact (Nat.mul_le_mul_left _ (by norm_num)).trans hle
      · rw [expand_of_large (by omega) (by omega), Nat.div_div_eq_div_mul, ← pow_succ,
          show k + 3 + 1 - 3 = k + 1 by omega]
  · rw [Nat.sub_eq_zero_of_le hs, pow_zero, Nat.div_one]
    have hmantissa : v * 256 ^ (3 - s) < 2 ^ 24 := by
      calc v * 256 ^ (3 - s) < 256 ^ s * 256 ^ (3 - s) :=
            Nat.mul_lt_mul_of_pos_right hlt (by positivity)
        _ = 2 ^ 24 := by rw [← pow_add, Nat.add_sub_cancel' hs]; norm_num
    split_ifs with hm
    · refine ⟨0, by rwa [pow_zero], ?_⟩
      rw [expand_of_small hm hs, Nat.mul_div_cancel _ (by positivity), pow_zero,
        Nat.div_one, mul_one]
    · rcases Nat.lt_or_eq_of_le hs with hs | rfl
      · refine ⟨0, by rwa [pow_zero], ?_⟩
        rw [expand_of_small (by omega) hs, show 3 - s = 3 - (s + 1) + 1 by omega, pow_succ,
          ← mul_assoc, Nat.mul_div_cancel _ (by norm_num), Nat.mul_div_cancel _ (by positivity),
          pow_zero, Nat.div_one, mul_one]
      · refine ⟨1, le_trans (by norm_num) hle, ?_⟩
        rw [expand_of_large (by omega) (by omega), Nat.sub_self, pow_zero, mul_one]
        norm_num

theorem expand_compact_le : expand (compact v) ≤ v := by
  rcases Nat.eq_zero_or_pos v with rfl | hv
  · decide
  · obtain ⟨k, -, heq⟩ := expand_compact hv
    rw [heq]
    exact Nat.div_mul_le_self _ _

/-- Less than half is lost. -/
theorem lt_two_mul_expand_compact (hv : 0 < v) : v < 2 * expand (compact v) := by
  obtain ⟨k, hk, heq⟩ := expand_compact hv
  have hquot : 1 ≤ v / 256 ^ k := (Nat.one_le_div_iff (by positivity)).2 hk
  have hrest := Nat.div_add_mod' v (256 ^ k)
  have hmod : v % 256 ^ k < 256 ^ k := Nat.mod_lt _ (by positivity)
  have hblock : 256 ^ k ≤ v / 256 ^ k * 256 ^ k := Nat.le_mul_of_pos_left _ hquot
  omega

end BitcoinNode.Compact
