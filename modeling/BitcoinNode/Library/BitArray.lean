import Mathlib.Tactic

/-!
# Bits in bytes

A byte string as an array of bits: bit `i` is bit `i % 8` of byte `i / 8`. Setting a bit
changes no other one.
-/

namespace BitcoinNode.BitArray

variable {data : List UInt8} {positions : List Nat} {i j : Nat}

/-- The bit of a position in its byte. -/
def mask (i : Nat) : UInt8 := 1 <<< UInt8.ofNat (7 &&& i)

def get (data : List UInt8) (i : Nat) : Bool := data[i >>> 3]?.any fun byte => byte &&& mask i != 0

def set (data : List UInt8) (i : Nat) : List UInt8 := data.modify (i >>> 3) (· ||| mask i)

/-- Set the bits at all of the positions. -/
def setAll (data : List UInt8) (positions : List Nat) : List UInt8 := positions.foldl set data

theorem mask_mod (i : Nat) : mask i = mask (i % 8) := by
  have hmod : 7 &&& i = 7 &&& (i % 8) := by
    rw [Nat.and_comm, Nat.and_comm 7, show 7 = 2 ^ 3 - 1 by rfl, Nat.and_two_pow_sub_one_eq_mod,
      Nat.and_two_pow_sub_one_eq_mod]
    omega
  rw [mask, mask, hmod]

/-- Bits of a byte are told apart by their masks. -/
theorem mask_and_mask : mask i &&& mask j = if i % 8 = j % 8 then mask i else 0 := by
  have hsmall : ∀ a < 8, ∀ b < 8, mask a &&& mask b = if a = b then mask a else 0 := by decide
  rw [mask_mod i, mask_mod j]
  exact hsmall _ (Nat.mod_lt i (by decide)) _ (Nat.mod_lt j (by decide))

theorem mask_ne_zero (i : Nat) : mask i ≠ 0 := by
  have hsmall : ∀ a < 8, mask a ≠ 0 := by decide
  rw [mask_mod]
  exact hsmall _ (Nat.mod_lt i (by decide))

theorem or_mask_and_mask (byte : UInt8) :
    ((byte ||| mask i) &&& mask j ≠ 0) ↔ (byte &&& mask j ≠ 0) ∨ i % 8 = j % 8 := by
  have hdistrib : (byte ||| mask i) &&& mask j = byte &&& mask j ||| mask i &&& mask j :=
    UInt8.toBitVec_inj.1 BitVec.and_or_distrib_right
  rw [hdistrib, ne_eq, UInt8.or_eq_zero_iff, not_and_or, mask_and_mask]
  refine or_congr_right ?_
  by_cases h : i % 8 = j % 8
  · simp [h, mask_ne_zero]
  · simp [h]

@[simp] theorem length_set : (set data i).length = data.length := by simp [set]

@[simp] theorem length_setAll : (setAll data positions).length = data.length := by
  induction positions generalizing data with
  | nil => rfl
  | cons i positions ih => exact ih.trans length_set

/-- Setting a bit of the array sets that bit and keeps the others. -/
theorem get_set (hi : i < data.length * 8) :
    get (set data i) j = true ↔ get data j = true ∨ i = j := by
  have hbyte : i >>> 3 < data.length := by
    rw [Nat.shiftRight_eq_div_pow]
    omega
  unfold get set
  rw [List.getElem?_modify]
  by_cases h : i >>> 3 = j >>> 3
  · have hsame : i % 8 = j % 8 ↔ i = j := by
      simp only [Nat.shiftRight_eq_div_pow] at h
      omega
    have hor := @or_mask_and_mask i j data[i >>> 3]
    rw [hsame] at hor
    simpa [← h, List.getElem?_eq_getElem hbyte] using hor
  · have hne : i ≠ j := fun hij => h (hij ▸ rfl)
    simp [h, hne]

theorem get_setAll (h : ∀ i ∈ positions, i < data.length * 8) :
    get (setAll data positions) j = true ↔ get data j = true ∨ j ∈ positions := by
  induction positions generalizing data with
  | nil => simp [setAll]
  | cons i positions ih =>
    obtain ⟨hi, hrest⟩ := List.forall_mem_cons.1 h
    have hset := @ih (set data i) (by simpa using hrest)
    rw [setAll, List.foldl_cons]
    rw [setAll] at hset
    rw [hset, get_set hi, List.mem_cons, or_assoc, @eq_comm _ j i]

end BitcoinNode.BitArray
