import BitcoinNode.Primitives.Transaction

/-!
# Final transactions

`is_final` compares the lock time of a transaction with the height or the time of a block after
reading both as signed words. The comparison is the unsigned one as long as both have the same
sign.
-/

namespace BitcoinNode.Transaction

variable {tx : Transaction} {height t m n : Nat} {time time' : Int}

/-- Words in the same half are ordered as they are read. -/
theorem asI32_lt_iff (hm : m < 2 ^ 32) (hn : n < 2 ^ 32) (hsign : m < 2 ^ 31 ↔ n < 2 ^ 31) :
    asI32 m < asI32 n ↔ m < n := by
  unfold asI32
  grind

/-- Words in different halves are ordered the other way round. -/
theorem asI32_lt_iff_of_ne (hm : m < 2 ^ 32) (hn : n < 2 ^ 32)
    (hsign : ¬ (m < 2 ^ 31 ↔ n < 2 ^ 31)) :
    asI32 m < asI32 n ↔ ¬ m < n := by
  unfold asI32
  grind

/-- No input keeps the lock time of the transaction in force. -/
def AllFinal (tx : Transaction) : Prop := ∀ input ∈ tx.input, input.sequence = 0xffffffff

instance : Decidable tx.AllFinal := by
  unfold AllFinal
  infer_instance

/-- The lock time is over in a block of the height and the time. -/
def FinalAt (tx : Transaction) (height t : Nat) : Prop :=
  tx.lockTime = 0
    ∨ (if tx.lockTime < LOCKTIME_THRESHOLD then tx.lockTime < height else tx.lockTime < t)
    ∨ tx.AllFinal

instance : Decidable (tx.FinalAt height t) := by
  unfold FinalAt
  infer_instance

theorem isFinal_iff : tx.isFinal height time = true ↔ tx.lockTime = 0
    ∨ asI32 tx.lockTime < (if tx.lockTime < LOCKTIME_THRESHOLD then asI32 height else time)
    ∨ tx.AllFinal := by
  unfold isFinal AllFinal
  dsimp only
  split_ifs <;> simp_all

/-- The signed comparison is right for a lock by height if the height is below 2^31, and for a
lock by time if the lock time and the time are both below 2^31 or both not. -/
theorem isFinal_iff_finalAt (hlock : tx.lockTime < 2 ^ 32) (hheight : height < 2 ^ 32)
    (ht : t < 2 ^ 32) : (tx.isFinal height (asI32 t) = true ↔ tx.FinalAt height t) ↔
      tx.lockTime = 0 ∨ tx.AllFinal
        ∨ if tx.lockTime < LOCKTIME_THRESHOLD then height < 2 ^ 31
          else (tx.lockTime < 2 ^ 31 ↔ t < 2 ^ 31) := by
  rw [isFinal_iff, FinalAt]
  by_cases hzero : tx.lockTime = 0
  · simp [hzero]
  by_cases hall : tx.AllFinal
  · simp [hall]
  simp only [hzero, hall, false_or, or_false]
  split_ifs with hby
  · -- a lock time below the threshold is not negative
    have hsmall : tx.lockTime < 2 ^ 31 := hby.trans (by decide)
    by_cases hhigh : height < 2 ^ 31
    · exact iff_of_true (asI32_lt_iff hlock hheight (iff_of_true hsmall hhigh)) hhigh
    · have hne := asI32_lt_iff_of_ne hlock hheight (fun h => hhigh (h.1 hsmall))
      exact iff_of_false (by tauto) hhigh
  · by_cases hsign : tx.lockTime < 2 ^ 31 ↔ t < 2 ^ 31
    · exact iff_of_true (asI32_lt_iff hlock ht hsign) hsign
    · have hne := asI32_lt_iff_of_ne hlock ht hsign
      exact iff_of_false (by tauto) hsign

/-- A transaction that is locked until a time. -/
def lockedUntil (lockTime : Nat) : Transaction where
  version := 2
  lockTime := lockTime
  input := [⟨⟨1, 0⟩, [], 0, []⟩]
  output := []

theorem isFinal_iff_finalAt_now :
    ((lockedUntil 1700000000).isFinal 700000 (asI32 1600000000) = true ↔
      (lockedUntil 1700000000).FinalAt 700000 1600000000) ↔
    (lockedUntil 1700000000).lockTime = 0 ∨ (lockedUntil 1700000000).AllFinal
      ∨ if (lockedUntil 1700000000).lockTime < LOCKTIME_THRESHOLD then 700000 < 2 ^ 31
        else ((lockedUntil 1700000000).lockTime < 2 ^ 31 ↔ 1600000000 < 2 ^ 31) :=
  isFinal_iff_finalAt (by decide) (by decide) (by decide)

/-- A lock time of 2^31 is in the past at any time before it. -/
theorem isFinal_of_negative : (lockedUntil (2 ^ 31)).isFinal 700000 (asI32 1600000000) = true
    ∧ ¬ (lockedUntil (2 ^ 31)).FinalAt 700000 1600000000 := by
  decide

end BitcoinNode.Transaction
