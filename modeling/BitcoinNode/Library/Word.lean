import Mathlib.Data.Nat.Basic
import Mathlib.Tactic

/-!
# Fixed-width unsigned arithmetic on natural numbers

A machine word of width `w` is a natural number below `2 ^ w`. Unchecked operations
wrap, as a release build computes them; checked operations return `none` when the exact
result does not fit. The lemmas say when a wrapped result is the exact one.
-/

namespace BitcoinNode.Word

/-- Unchecked addition at width `w`. -/
def add (w a b : Nat) : Nat := (a + b) % 2 ^ w

/-- Unchecked subtraction at width `w`. -/
def sub (w a b : Nat) : Nat := (a + (2 ^ w - b % 2 ^ w)) % 2 ^ w

/-- Unchecked multiplication at width `w`. -/
def mul (w a b : Nat) : Nat := (a * b) % 2 ^ w

/-- Addition that fails when the sum does not fit. -/
def checkedAdd (w a b : Nat) : Option Nat := if a + b < 2 ^ w then some (a + b) else none

/-- Subtraction that fails when the difference is negative. -/
def checkedSub (a b : Nat) : Option Nat := if b ≤ a then some (a - b) else none

@[simp] theorem add_eq {w a b : Nat} (h : a + b < 2 ^ w) : add w a b = a + b :=
  Nat.mod_eq_of_lt h

theorem sub_eq {w a b : Nat} (h : b ≤ a) (ha : a < 2 ^ w) : sub w a b = a - b := by
  have hb : b % 2 ^ w = b := Nat.mod_eq_of_lt (h.trans_lt ha)
  have : a + (2 ^ w - b) = (a - b) + 2 ^ w := by omega
  rw [sub, hb, this, Nat.add_mod_right, Nat.mod_eq_of_lt (by omega)]

theorem add_lt (w a b : Nat) : add w a b < 2 ^ w := Nat.mod_lt _ (Nat.two_pow_pos w)

theorem sub_lt (w a b : Nat) : sub w a b < 2 ^ w := Nat.mod_lt _ (Nat.two_pow_pos w)

theorem checkedAdd_eq_some {w a b c : Nat} :
    checkedAdd w a b = some c ↔ a + b < 2 ^ w ∧ c = a + b := by
  unfold checkedAdd
  split_ifs with h
  · simp [h, eq_comm]
  · simp [h]

/-- A wrapped fold adds exactly while the exact total fits. -/
theorem foldl_add_eq {α : Type*} (w : Nat) (f : α → Nat) (xs : List α) (a : Nat)
    (h : a + (xs.map f).sum < 2 ^ w) :
    xs.foldl (fun total x => add w total (f x)) a = a + (xs.map f).sum := by
  induction xs generalizing a with
  | nil => simp
  | cons x xs ih =>
    simp only [List.map_cons, List.sum_cons] at h ⊢
    have hx : add w a (f x) = a + f x := add_eq (by omega)
    rw [List.foldl_cons, hx, ih _ (by omega)]
    omega

/-- Adding again what was subtracted. -/
theorem sub_add_modEq (w a b : Nat) : sub w a b + b ≡ a [MOD 2 ^ w] := by
  have hb : b % 2 ^ w ≤ 2 ^ w := (Nat.mod_lt b (Nat.two_pow_pos w)).le
  calc sub w a b + b
      ≡ (a + (2 ^ w - b % 2 ^ w)) + b % 2 ^ w [MOD 2 ^ w] :=
        (Nat.mod_modEq _ _).add (Nat.mod_modEq b _).symm
    _ = a + 2 ^ w := by omega
    _ ≡ a [MOD 2 ^ w] := by simp [Nat.ModEq]

/-- Adding numbers one by one never wraps. -/
def NoWrap (w : Nat) (ns : List Nat) : Prop := ∀ n, (ns.take n).sum < 2 ^ w

theorem noWrap_of_sum_lt {w : Nat} {ns : List Nat} (h : ns.sum < 2 ^ w) : NoWrap w ns := by
  intro n
  have hsum := congrArg List.sum (List.take_append_drop n ns)
  rw [List.sum_append] at hsum
  omega

/-- One bit of a word. -/
theorem and_shiftLeft (n k : Nat) : n &&& 1 <<< k = if n.testBit k then 1 <<< k else 0 := by
  apply Nat.eq_of_testBit_eq
  intro i
  rw [Nat.one_shiftLeft, Nat.testBit_and, Nat.testBit_two_pow]
  by_cases hi : k = i
  · cases h : n.testBit k <;> simp [← hi, h, Nat.testBit_two_pow_self]
  · cases h : n.testBit k <;> simp [hi]

theorem and_shiftLeft_eq_zero {n k : Nat} : n &&& 1 <<< k = 0 ↔ n.testBit k = false := by
  rw [and_shiftLeft, Nat.one_shiftLeft]
  cases n.testBit k <;> simp

/-- Modular subtraction undoes modular addition. -/
theorem sub_add_cancel {w a b : Nat} (ha : a < 2 ^ w) : sub w (add w a b) b = a := by
  have hb : b % 2 ^ w < 2 ^ w := Nat.mod_lt _ (Nat.two_pow_pos w)
  have : (a + b) % 2 ^ w + (2 ^ w - b % 2 ^ w) ≡ a [MOD 2 ^ w] := by
    calc (a + b) % 2 ^ w + (2 ^ w - b % 2 ^ w)
        ≡ (a + b % 2 ^ w) + (2 ^ w - b % 2 ^ w) [MOD 2 ^ w] := by
          refine Nat.ModEq.add_right _ ?_
          exact (Nat.mod_modEq _ _).trans ((Nat.mod_modEq b _).symm.add_left a)
      _ = a + 2 ^ w := by omega
      _ ≡ a [MOD 2 ^ w] := by simp [Nat.ModEq]
  rw [sub, add, this, Nat.mod_eq_of_lt ha]

end BitcoinNode.Word
