import BitcoinNode.Blockchain.Locks

/-!
# Relative locks and their arithmetic

The locks that `verify_locks` asks for are those of the standard, input by input, for transactions
whose version is not negative. In a build with overflow checks `get_locks` panics at an input that
is locked by zero blocks or seconds.
-/

namespace BitcoinNode

namespace ChainDB

variable {env : Env} {db : ChainDB} {e : ChainEntry} {n b : Nat}

/-- The times before an entry are times of stored entries. -/
theorem of_mem_lastTimes {P : Nat → Prop} {hash : BlockHash}
    (hP : ∀ hash e, db.getEntryByHash hash = some e → P e.time)
    (he : db.getEntryByHash hash = some e) : ∀ t ∈ db.lastTimes n e, P t := by
  induction n generalizing e hash with
  | zero => simp [lastTimes]
  | succ n ih =>
    rw [lastTimes, List.forall_mem_cons]
    refine ⟨hP _ _ he, ?_⟩
    split
    · rename_i p hp
      exact ih hp
    · simp

theorem median_lt {times : List Nat} (hne : times ≠ []) (h : ∀ t ∈ times, t < b) :
    median times < b := by
  have hcount : times.countP (· < b) = times.length :=
    List.countP_eq_length.2 fun t ht => decide_eq_true (h t ht)
  have hpos := List.length_pos_iff.2 hne
  by_contra hle
  have := (le_median_iff hne).1 (Nat.not_lt.1 hle)
  omega

theorem le_median {times : List Nat} (hne : times ≠ []) (h : ∀ t ∈ times, b ≤ t) :
    b ≤ median times := by
  have hcount : times.countP (· < b) = 0 :=
    List.countP_eq_zero.2 fun t ht => by simpa using h t ht
  rw [le_median_iff hne, hcount]
  exact Nat.zero_le _

/-- Median times are below a bound on all times. -/
theorem getMedianTime_lt {hash : BlockHash}
    (htimes : ∀ hash e, db.getEntryByHash hash = some e → e.time < b)
    (he : db.getEntryByHash hash = some e) : db.getMedianTime e < b :=
  median_lt lastTimes_ne_nil (of_mem_lastTimes (P := (· < b)) htimes he)

theorem le_getMedianTime {hash : BlockHash}
    (htimes : ∀ hash e, db.getEntryByHash hash = some e → b ≤ e.time)
    (he : db.getEntryByHash hash = some e) : b ≤ db.getMedianTime e :=
  le_median lastTimes_ne_nil (of_mem_lastTimes (P := (b ≤ ·)) htimes he)

/-- All times are positive if that of the genesis block is. -/
theorem Timely.time_pos (tree : db.Tree env) (timely : db.Timely)
    (hgenesis : 0 < env.genesisEntry.time) {hash : BlockHash}
    (he : db.getEntryByHash hash = some e) : 1 ≤ e.time := by
  rcases eq_or_ne e env.genesisEntry with rfl | hgen
  · exact hgenesis
  · obtain ⟨p, hp⟩ := tree.rooted.exists_parent he hgen
    exact Nat.lt_of_le_of_lt (Nat.zero_le _) (timely _ _ _ he hp)

end ChainDB

namespace Chain

open ChainDB

variable {env : Env} {c : Chain} {prev : ChainEntry} {view : CoinView} {tx : Transaction}
  {flags : LockFlags} {h sequence : Nat} {inputs : List TxIn} {minHeight minTime : Option Nat}

/-! ## The locks of the standard -/

/-- The relative lock of an input is over in a block on `prev`, for a coin of height `h`. -/
def SequenceLock (db : ChainDB) (prev : ChainEntry) (h sequence : Nat) : Prop :=
  sequence.testBit 31 = true ∨
  if sequence.testBit 22 = false then h + sequence % 2 ^ 16 ≤ prev.height + 1
  else ∃ a, db.parentWalk (prev.height - (h - 1)) prev = some a
    ∧ db.getMedianTime a + 512 * (sequence % 2 ^ 16) ≤ db.getMedianTime prev

theorem masked_eq : sequence &&& SEQUENCE_MASK = sequence % 2 ^ 16 := by
  rw [show SEQUENCE_MASK = 2 ^ 16 - 1 from rfl, Nat.and_two_pow_sub_one_eq_mod]

theorem shiftLeft_granularity {n : Nat} : n <<< SEQUENCE_GRANULARITY = 512 * n := by
  rw [Nat.shiftLeft_eq, Nat.mul_comm]
  rfl

/-- The lock over as the code has it is the lock over as the standard has it. -/
theorem unlocked_iff_sequenceLock (inv : c.Inv env) (skips : c.db.Skips)
    (hprev : c.db.getEntryByHash prev.hash = some prev) (hheight : prev.height < 2 ^ 31)
    (htimes : ∀ hash e, c.db.getEntryByHash hash = some e → 1 ≤ e.time ∧ e.time < 2 ^ 31)
    (hpos : 1 ≤ h) (hle : h ≤ prev.height + 1) :
    c.Unlocked prev h sequence ↔ SequenceLock c.db prev h sequence := by
  have hmask : sequence % 2 ^ 16 < 2 ^ 16 := Nat.mod_lt _ (by decide)
  simp only [SequenceLock, Unlocked, ne_eq, SEQUENCE_DISABLE_FLAG, Word.and_shiftLeft_eq_zero,
    SEQUENCE_TYPE_FLAG, masked_eq, Bool.not_eq_false]
  refine or_congr_right ?_
  split_ifs with htype
  · -- a lock of no blocks wraps below zero and back
    unfold Word.add Word.sub
    omega
  · obtain ⟨a, ha, hanc, hheight⟩ := getAncestor_eq inv.tree inv.main skips hprev
      (show h - 1 ≤ prev.height by omega)
    have hwalk := inv.tree.rooted.climb_of_ancestor hprev hanc
    rw [hheight] at hwalk
    have hstored := hanc.stored inv.tree hprev
    have hlow := le_getMedianTime (fun hash e he => (htimes hash e he).1) hstored
    have hhigh := getMedianTime_lt (fun hash e he => (htimes hash e he).2) hstored
    simp only [ha, hwalk, shiftLeft_granularity, Except.ok.injEq, Option.some.injEq,
      exists_eq_left']
    unfold Word.add Word.sub
    omega

theorem toUInt32_lt_two_iff {v : Int32} : v.toUInt32 < 2 ↔ 0 ≤ v ∧ v < 2 := by
  have hword : v.toUInt32.toNat = v.toBitVec.toNat := rfl
  have hsigned : v.toInt = v.toBitVec.toInt := rfl
  have hcond := BitVec.toInt_eq_toNat_cond v.toBitVec
  have hlow : (0 : Int32).toInt = 0 := rfl
  have hhigh : (2 : Int32).toInt = 2 := rfl
  have hhigh' : (2 : UInt32).toNat = 2 := rfl
  rw [Int32.le_iff_toInt_le, Int32.lt_iff_toInt_lt, UInt32.lt_iff_toNat_lt, hword, hsigned, hlow,
    hhigh, hhigh']
  split at hcond <;> omega

/-- The coin that an input spends has the height. -/
def SpendsAt (view : CoinView) (input : TxIn) (h : Nat) : Prop :=
  ∃ coin, view.getEntry input.previousOutput = some coin ∧ coin.height = some h

theorem coinHeight_of_spendsAt {input : TxIn} (hspends : SpendsAt view input h) :
    c.coinHeight view input = h := by
  obtain ⟨coin, hcoin, hheight⟩ := hspends
  simp [coinHeight, hcoin, hheight]

/-- `verify_locks` follows the standard, except that it accepts every transaction with a negative
version, also if a relative lock of it is not over. -/
theorem verifyLocks_standard_iff (law : env.Lawful) (hc : Visited env c)
    (hgenesis : 0 < env.genesisEntry.time)
    (htimes : ∀ hash e, c.db.getEntryByHash hash = some e → e.time < 2 ^ 31)
    (hprev : c.db.getEntryByHash prev.hash = some prev) (hheight : prev.height < 2 ^ 31)
    (hcoins : ∀ input ∈ tx.input, ∃ h, SpendsAt view input h ∧ 1 ≤ h ∧ h ≤ prev.height + 1)
    (hflag : flags.contains LockFlags.VERIFY_SEQUENCE = true) :
    (c.verifyLocks prev tx view flags = .ok () ↔ tx.isCoinBase = true ∨ tx.version.toUInt32 < 2
      ∨ ∀ input ∈ tx.input, ∀ h, SpendsAt view input h →
        SequenceLock c.db prev h input.sequence) ↔
    0 ≤ tx.version ∨ tx.isCoinBase = true
      ∨ ∀ input ∈ tx.input, ∀ h, SpendsAt view input h
        → SequenceLock c.db prev h input.sequence := by
  have inv := hc.inv law
  have timely := hc.timely law
  have hlocks : (∀ input ∈ tx.input, c.Unlocked prev (c.coinHeight view input) input.sequence) ↔
      ∀ input ∈ tx.input, ∀ h, SpendsAt view input h → SequenceLock c.db prev h input.sequence := by
    refine forall₂_congr fun input hinput => ?_
    obtain ⟨h, hspends, hpos, hle⟩ := hcoins input hinput
    have hiff := @unlocked_iff_sequenceLock env c prev h input.sequence inv (hc.skips law)
      hprev hheight
      (fun hash e he => ⟨timely.time_pos inv.tree hgenesis he, htimes hash e he⟩) hpos hle
    rw [coinHeight_of_spendsAt hspends, hiff]
    refine ⟨fun hlock h' hspends' => ?_, fun hlock => hlock h hspends⟩
    rwa [← coinHeight_of_spendsAt (c := c) hspends', coinHeight_of_spendsAt hspends]
  -- the two readings of a version differ when it is negative
  have hnegative : ¬ 0 ≤ tx.version → tx.version < 2 := fun hsign =>
    Int32.lt_of_lt_of_le (Int32.not_le.1 hsign) (by decide)
  rw [verifyLocks_iff hflag, hlocks, toUInt32_lt_two_iff]
  by_cases hsign : 0 ≤ tx.version
  · simp only [hsign, true_and, true_or]
  · simp only [hsign, hnegative hsign, false_and, false_or, true_or, or_true, true_iff]

/-! ## Arithmetic -/

/-- The loop of `get_locks` in a build with overflow checks. -/
def checkedInputLocks (c : Chain) (prev : ChainEntry) (view : CoinView) :
    List TxIn → Option Nat → Option Nat → Except Panic (Option Nat × Option Nat)
  | [], minHeight, minTime => .ok (minHeight, minTime)
  | input :: inputs, minHeight, minTime =>
    if input.sequence &&& SEQUENCE_DISABLE_FLAG ≠ 0 then
      checkedInputLocks c prev view inputs minHeight minTime
    else do
      let next ← checked (Word.checkedAdd 32 c.height 1)
      let height := ((view.getEntry input.previousOutput).bind CoinEntry.height).getD next
      let masked := input.sequence &&& SEQUENCE_MASK
      if input.sequence &&& SEQUENCE_TYPE_FLAG = 0 then
        let blocks ← checked (Word.checkedSub masked 1)
        let height ← checked (Word.checkedAdd 32 height blocks)
        checkedInputLocks c prev view inputs (some (max (minHeight.getD 0) height)) minTime
      else do
        let entry ← c.db.getAncestor prev (height - 1)
        let seconds ← checked (Word.checkedSub (masked <<< SEQUENCE_GRANULARITY) 1)
        let time ← checked (Word.checkedAdd 32 (c.db.getMedianTime entry) seconds)
        checkedInputLocks c prev view inputs minHeight (some (max (minTime.getD 0) time))
where
  /-- A result that fits, or a panic. -/
  checked : Option Nat → Except Panic Nat
    | some n => .ok n
    | none => .error .overflow

def checkedGetLocks (c : Chain) (prev : ChainEntry) (tx : Transaction) (view : CoinView)
    (flags : LockFlags) : Except Panic (Option Nat × Option Nat) :=
  if !flags.contains LockFlags.VERIFY_SEQUENCE then .ok (none, none)
  else if tx.isCoinBase || decide (tx.version < 2) then .ok (none, none)
  else c.checkedInputLocks prev view tx.input none none

/-- The lock of the input is not of length zero, and fits a word with the height of the coin. -/
def LockFits (c : Chain) (view : CoinView) (input : TxIn) : Prop :=
  input.sequence &&& SEQUENCE_DISABLE_FLAG = 0 →
    input.sequence &&& SEQUENCE_MASK ≠ 0 ∧ c.height + 1 < 2 ^ 32
      ∧ (input.sequence &&& SEQUENCE_TYPE_FLAG = 0 →
        c.coinHeight view input + (input.sequence &&& SEQUENCE_MASK) ≤ 2 ^ 32)

section Steps

variable {input : TxIn} {a : ChainEntry} (hoff : ¬ input.sequence &&& SEQUENCE_DISABLE_FLAG ≠ 0)

theorem checked_add {m n : Nat} (hlt : m + n < 2 ^ 32) :
    checkedInputLocks.checked (Word.checkedAdd 32 m n) = .ok (m + n) := by
  rw [Word.checkedAdd, if_pos hlt]
  rfl

theorem checked_sub {m n : Nat} (hle : n ≤ m) :
    checkedInputLocks.checked (Word.checkedSub m n) = .ok (m - n) := by
  rw [Word.checkedSub, if_pos hle]
  rfl

include hoff

theorem inputLocks_height (htype : input.sequence &&& SEQUENCE_TYPE_FLAG = 0) :
    c.inputLocks prev view (input :: inputs) minHeight minTime =
      c.inputLocks prev view inputs (some (max (minHeight.getD 0) (Word.add 32
        (c.coinHeight view input) (Word.sub 32 (input.sequence &&& SEQUENCE_MASK) 1))))
        minTime := by
  rw [inputLocks, if_neg hoff, if_pos htype]
  rfl

theorem inputLocks_time (htype : ¬ input.sequence &&& SEQUENCE_TYPE_FLAG = 0)
    (ha : c.db.getAncestor prev (c.coinHeight view input - 1) = .ok a) :
    c.inputLocks prev view (input :: inputs) minHeight minTime =
      c.inputLocks prev view inputs minHeight (some (max (minTime.getD 0) (Word.add 32
        (c.db.getMedianTime a)
        (Word.sub 32 ((input.sequence &&& SEQUENCE_MASK) <<< SEQUENCE_GRANULARITY) 1)))) := by
  rw [inputLocks, if_neg hoff, if_neg htype]
  exact bind_of_ok ha

theorem checkedInputLocks_cons (hnext : c.height + 1 < 2 ^ 32) :
    c.checkedInputLocks prev view (input :: inputs) minHeight minTime =
      (if input.sequence &&& SEQUENCE_TYPE_FLAG = 0 then do
        let blocks ← checkedInputLocks.checked
          (Word.checkedSub (input.sequence &&& SEQUENCE_MASK) 1)
        let height ← checkedInputLocks.checked
          (Word.checkedAdd 32 (c.coinHeight view input) blocks)
        c.checkedInputLocks prev view inputs (some (max (minHeight.getD 0) height)) minTime
      else do
        let entry ← c.db.getAncestor prev (c.coinHeight view input - 1)
        let seconds ← checkedInputLocks.checked
          (Word.checkedSub ((input.sequence &&& SEQUENCE_MASK) <<< SEQUENCE_GRANULARITY) 1)
        let time ← checkedInputLocks.checked
          (Word.checkedAdd 32 (c.db.getMedianTime entry) seconds)
        c.checkedInputLocks prev view inputs minHeight (some (max (minTime.getD 0) time))) := by
  rw [checkedInputLocks, if_neg hoff, checked_add hnext]
  rfl

end Steps

/-- The locks of the coins are in range, and the times are those of an accepted chain. -/
structure LockInputs (env : Env) (c : Chain) (prev : ChainEntry) (view : CoinView)
    (inputs : List TxIn) : Prop where
  inv : c.Inv env
  skips : c.db.Skips
  stored : c.db.getEntryByHash prev.hash = some prev
  times : ∀ hash e, c.db.getEntryByHash hash = some e → e.time < 2 ^ 31
  coins : ∀ input ∈ inputs,
    1 ≤ c.coinHeight view input ∧ c.coinHeight view input ≤ prev.height + 1

namespace LockInputs

variable {input : TxIn}

theorem tail (h : LockInputs env c prev view (input :: inputs)) :
    LockInputs env c prev view inputs :=
  { h with coins := (List.forall_mem_cons.1 h.coins).2 }

/-- The ancestor that a time lock is measured from exists and has a median time in range. -/
theorem exists_ancestor (h : LockInputs env c prev view (input :: inputs)) :
    ∃ a, c.db.getAncestor prev (c.coinHeight view input - 1) = .ok a
      ∧ c.db.getMedianTime a < 2 ^ 31 := by
  have hle := ((List.forall_mem_cons.1 h.coins).1).2
  obtain ⟨a, ha, hanc, -⟩ := getAncestor_eq h.inv.tree h.inv.main h.skips h.stored
    (show c.coinHeight view input - 1 ≤ prev.height by omega)
  exact ⟨a, ha, getMedianTime_lt h.times (hanc.stored h.inv.tree h.stored)⟩

/-- An input whose lock fits is passed as in a release build. -/
theorem step_of_fits (h : LockInputs env c prev view (input :: inputs))
    (hfits : c.LockFits view input) : ∃ height time,
    c.checkedInputLocks prev view (input :: inputs) minHeight minTime
        = c.checkedInputLocks prev view inputs height time
      ∧ c.inputLocks prev view (input :: inputs) minHeight minTime
        = c.inputLocks prev view inputs height time := by
  have hmask : input.sequence &&& SEQUENCE_MASK < 2 ^ 16 := by
    rw [masked_eq]
    exact Nat.mod_lt _ (by decide)
  have hpos := ((List.forall_mem_cons.1 h.coins).1).1
  by_cases hoff : input.sequence &&& SEQUENCE_DISABLE_FLAG ≠ 0
  · refine ⟨minHeight, minTime, ?_, ?_⟩
    · rw [checkedInputLocks, if_pos hoff]
    · rw [inputLocks, if_pos hoff]
  obtain ⟨hne, hnext, hheight⟩ := hfits (not_not.1 hoff)
  have hone : 1 ≤ input.sequence &&& SEQUENCE_MASK := Nat.one_le_iff_ne_zero.2 hne
  rw [checkedInputLocks_cons hoff hnext]
  by_cases htype : input.sequence &&& SEQUENCE_TYPE_FLAG = 0
  · have hfit := hheight htype
    rw [inputLocks_height hoff htype, if_pos htype, checked_sub hone, bind_of_ok rfl,
      checked_add (by omega), bind_of_ok rfl, Word.sub_eq hone (by omega), Word.add_eq (by omega)]
    exact ⟨_, _, rfl, rfl⟩
  · obtain ⟨a, ha, hmedian⟩ := h.exists_ancestor
    rw [inputLocks_time hoff htype ha, if_neg htype, ha, bind_of_ok rfl, shiftLeft_granularity,
      checked_sub (by omega), bind_of_ok rfl, checked_add (by omega), bind_of_ok rfl,
      Word.sub_eq (by omega) (by omega), Word.add_eq (by omega)]
    exact ⟨_, _, rfl, rfl⟩

theorem step_of_not_fits (h : LockInputs env c prev view (input :: inputs))
    (hfits : ¬ c.LockFits view input) :
    c.checkedInputLocks prev view (input :: inputs) minHeight minTime = .error .overflow := by
  obtain ⟨hoff, hfits⟩ := Classical.not_imp.1 hfits
  by_cases hnext : c.height + 1 < 2 ^ 32
  swap
  · rw [checkedInputLocks, if_neg (not_not.2 hoff), Word.checkedAdd, if_neg hnext]
    rfl
  rw [checkedInputLocks_cons (not_not.2 hoff) hnext]
  by_cases hzero : input.sequence &&& SEQUENCE_MASK = 0
  · -- nothing can be taken from a lock of no blocks or seconds
    have hnone : Word.checkedSub 0 1 = none := rfl
    rw [hzero, Nat.zero_shiftLeft, hnone]
    by_cases htype : input.sequence &&& SEQUENCE_TYPE_FLAG = 0
    · rw [if_pos htype]
      rfl
    · obtain ⟨a, ha, -⟩ := h.exists_ancestor
      rw [if_neg htype, ha]
      rfl
  · have hone := Nat.one_le_iff_ne_zero.2 hzero
    obtain ⟨htype, hlong⟩ : input.sequence &&& SEQUENCE_TYPE_FLAG = 0
        ∧ 2 ^ 32 < c.coinHeight view input + (input.sequence &&& SEQUENCE_MASK) := by
      have hheight := not_and.1 (not_and.1 hfits hzero) hnext
      exact (Classical.not_imp.1 hheight).imp_right Nat.lt_of_not_le
    rw [if_pos htype, checked_sub hone, bind_of_ok rfl, Word.checkedAdd, if_neg (by omega)]
    rfl

/-- The locks are computed as in a release build if the lock of every input fits. -/
theorem checkedInputLocks_of_fits (h : LockInputs env c prev view inputs)
    (hfits : ∀ input ∈ inputs, c.LockFits view input) :
    c.checkedInputLocks prev view inputs minHeight minTime
      = c.inputLocks prev view inputs minHeight minTime := by
  induction inputs generalizing minHeight minTime with
  | nil => rfl
  | cons input inputs ih =>
    obtain ⟨hinput, hinputs⟩ := List.forall_mem_cons.1 hfits
    obtain ⟨height, time, hchecked, hrelease⟩ := @step_of_fits _ _ _ _ _ minHeight
      minTime _ h hinput
    rw [hchecked, hrelease, ih h.tail hinputs]

/-- Otherwise the only panic is an overflow. -/
theorem checkedInputLocks_of_not_fits (h : LockInputs env c prev view inputs)
    (hfits : ¬ ∀ input ∈ inputs, c.LockFits view input) :
    c.checkedInputLocks prev view inputs minHeight minTime = .error .overflow := by
  induction inputs generalizing minHeight minTime with
  | nil => exact absurd nofun hfits
  | cons input inputs ih =>
    by_cases hinput : c.LockFits view input
    · obtain ⟨height, time, hchecked, -⟩ := @step_of_fits _ _ _ _ _ minHeight minTime _ h hinput
      rw [hchecked]
      exact ih h.tail fun hinputs => hfits (List.forall_mem_cons.2 ⟨hinput, hinputs⟩)
    · exact h.step_of_not_fits hinput

theorem exists_inputLocks (h : LockInputs env c prev view inputs) :
    ∃ locks, c.inputLocks prev view inputs minHeight minTime = .ok locks := by
  induction inputs generalizing minHeight minTime with
  | nil => exact ⟨_, rfl⟩
  | cons input inputs ih =>
    by_cases hoff : input.sequence &&& SEQUENCE_DISABLE_FLAG ≠ 0
    · rw [inputLocks, if_pos hoff]
      exact ih h.tail
    by_cases htype : input.sequence &&& SEQUENCE_TYPE_FLAG = 0
    · rw [inputLocks_height hoff htype]
      exact ih h.tail
    · obtain ⟨a, ha, -⟩ := h.exists_ancestor
      rw [inputLocks_time hoff htype ha]
      exact ih h.tail

end LockInputs

/-- In a build with overflow checks the locks of a transaction are computed, and are those of a
release build, exactly if no lock in force is of length zero or beyond the range of heights. -/
theorem checkedGetLocks_iff (law : env.Lawful) (hc : Visited env c)
    (hprev : c.db.getEntryByHash prev.hash = some prev)
    (htimes : ∀ hash e, c.db.getEntryByHash hash = some e → e.time < 2 ^ 31)
    (hcoins : ∀ input ∈ tx.input,
      1 ≤ c.coinHeight view input ∧ c.coinHeight view input ≤ prev.height + 1) :
    (∃ locks, c.checkedGetLocks prev tx view flags = .ok locks
      ∧ c.getLocks prev tx view flags = .ok locks) ↔
    flags.contains LockFlags.VERIFY_SEQUENCE = false ∨ tx.isCoinBase = true ∨ tx.version < 2
      ∨ ∀ input ∈ tx.input, c.LockFits view input := by
  have hinputs : LockInputs env c prev view tx.input :=
    ⟨hc.inv law, hc.skips law, hprev, htimes, hcoins⟩
  unfold checkedGetLocks getLocks
  by_cases hflag : flags.contains LockFlags.VERIFY_SEQUENCE = true
  swap
  · simp [hflag]
  by_cases hfree : tx.isCoinBase = true ∨ tx.version < 2
  · simp [hflag, hfree, ← or_assoc]
  obtain ⟨hcoinbase, hversion⟩ := not_or.1 hfree
  simp only [hflag, hcoinbase, hversion, Bool.not_true, Bool.false_eq_true, if_false, false_or,
    decide_false, Bool.or_false, Bool.true_eq_false]
  by_cases hfits : ∀ input ∈ tx.input, c.LockFits view input
  · obtain ⟨locks, hlocks⟩ := @LockInputs.exists_inputLocks _ _ _ _ _ none none hinputs
    have hchecked := @LockInputs.checkedInputLocks_of_fits _ _ _ _ _ none none hinputs hfits
    exact iff_of_true ⟨locks, hchecked.trans hlocks, hlocks⟩ hfits
  · rw [hinputs.checkedInputLocks_of_not_fits hfits]
    exact iff_of_false (by simp) hfits

end Chain

/-! ## A transaction on the genesis block -/

namespace Small

open Chain

/-- A view with a coin of the first block. -/
def oneCoin : CoinView :=
  { CoinView.empty with map := CoinView.empty.map.insert ⟨7, 0⟩ ⟨2, some 1, false, ⟨0, []⟩, false⟩ }

/-- A transaction that spends it. -/
def locking (version : Int32) (sequence : Nat) : Transaction where
  version := version
  lockTime := 0
  input := [⟨⟨7, 0⟩, [], sequence, []⟩]
  output := [⟨0, []⟩]

theorem spendsAt_spending {version : Int32} {sequence : Nat} :
    ∀ input ∈ (locking version sequence).input, SpendsAt oneCoin input 1 := by
  intro input hinput
  rw [List.mem_singleton.1 hinput]
  exact ⟨_, AList.lookup_insert _, rfl⟩

/-- The fresh chain, on which a decided property holds. -/
theorem exists_new (P : Chain → Bool) (h : (match Chain.new env with
      | .ok c => P c
      | .error _ => false) = true) :
    ∃ c, Visited env c ∧ c.tip = env.genesisEntry
      ∧ (∀ hash e, c.db.getEntryByHash hash = some e → e.time < 2 ^ 31) ∧ P c = true := by
  split at h
  · rename_i c hnew
    refine ⟨c, ⟨c, hnew, .refl⟩, ?_, fun hash e he => ?_, h⟩
    · obtain ⟨mostWork, rfl⟩ := new_eq_ok lawful hnew
      rfl
    · obtain ⟨mostWork, rfl⟩ := new_eq_ok lawful hnew
      rw [(getEntryByHash_fresh.1 he).2]
      decide
  · cases h

end Small

namespace Chain

/-- A transaction of version -1 is accepted in the first block, although its coin is locked for a
hundred blocks. -/
theorem exists_unlocked_negative : ∃ c, Visited Small.env c ∧ c.tip = Small.env.genesisEntry
    ∧ (∀ hash e, c.db.getEntryByHash hash = some e → e.time < 2 ^ 31)
    ∧ (∀ input ∈ (Small.locking (-1) 100).input, SpendsAt Small.oneCoin input 1)
    ∧ c.verifyLocks c.tip (Small.locking (-1) 100) Small.oneCoin LockFlags.STANDARD_LOCKTIME_FLAGS
      = .ok ()
    ∧ ¬ ((Small.locking (-1) 100).isCoinBase = true ∨ (Small.locking (-1) 100).version.toUInt32 < 2
      ∨ ∀ input ∈ (Small.locking (-1) 100).input, ∀ h, SpendsAt Small.oneCoin input h →
        SequenceLock c.db c.tip h input.sequence) := by
  obtain ⟨c, hc, htip, htimes, hP⟩ := Small.exists_new (fun c => decide (c.verifyLocks c.tip
    (Small.locking (-1) 100) Small.oneCoin LockFlags.STANDARD_LOCKTIME_FLAGS = .ok ()))
    (by decide +kernel)
  refine ⟨c, hc, htip, htimes, Small.spendsAt_spending, of_decide_eq_true hP, ?_⟩
  rintro (hcoinbase | hversion | hlocks)
  · cases hcoinbase
  · exact absurd hversion (by decide)
  · have hspends := @Small.spendsAt_spending (-1) 100 _ List.mem_cons_self
    rcases hlocks _ List.mem_cons_self 1 hspends with hoff | hlock
    · exact absurd hoff (by decide)
    · rw [if_pos (by decide), htip] at hlock
      exact absurd hlock (by decide)

/-- The characterization for the same transaction with version 2. -/
theorem verifyLocks_standard_iff_two : ∃ c, Visited Small.env c ∧ c.tip = Small.env.genesisEntry
    ∧ ((c.verifyLocks c.tip (Small.locking 2 100) Small.oneCoin LockFlags.STANDARD_LOCKTIME_FLAGS
        = .ok () ↔ (Small.locking 2 100).isCoinBase = true
      ∨ (Small.locking 2 100).version.toUInt32 < 2
      ∨ ∀ input ∈ (Small.locking 2 100).input, ∀ h, SpendsAt Small.oneCoin input h →
        SequenceLock c.db c.tip h input.sequence) ↔
    0 ≤ (Small.locking 2 100).version ∨ (Small.locking 2 100).isCoinBase = true
      ∨ ∀ input ∈ (Small.locking 2 100).input, ∀ h, SpendsAt Small.oneCoin input h →
        SequenceLock c.db c.tip h input.sequence) := by
  obtain ⟨c, hc, htip, htimes, -⟩ := Small.exists_new (fun _ => true) (by decide +kernel)
  refine ⟨c, hc, htip, verifyLocks_standard_iff Small.lawful hc (by decide) htimes
    (hc.inv Small.lawful).tip_stored (by rw [htip]; decide) (fun input hinput => ?_) (by decide)⟩
  exact ⟨1, Small.spendsAt_spending input hinput, le_rfl, Nat.le_add_left _ _⟩

/-- A sane transaction with a relative lock of zero blocks. -/
theorem exists_overflow : ∃ c, Visited Small.env c ∧ c.tip = Small.env.genesisEntry
    ∧ (∀ hash e, c.db.getEntryByHash hash = some e → e.time < 2 ^ 31)
    ∧ (Small.locking 2 0).checkSanity = .ok ()
    ∧ (∀ input ∈ (Small.locking 2 0).input, SpendsAt Small.oneCoin input 1)
    ∧ c.checkedGetLocks c.tip (Small.locking 2 0) Small.oneCoin LockFlags.STANDARD_LOCKTIME_FLAGS
      = .error .overflow := by
  obtain ⟨c, hc, htip, htimes, hP⟩ := Small.exists_new (fun c => decide (c.checkedGetLocks c.tip
    (Small.locking 2 0) Small.oneCoin LockFlags.STANDARD_LOCKTIME_FLAGS = .error .overflow))
    (by decide +kernel)
  exact ⟨c, hc, htip, htimes, by decide, Small.spendsAt_spending, of_decide_eq_true hP⟩

/-- The characterization for a lock of one block. -/
theorem checkedGetLocks_iff_one : ∃ c, Visited Small.env c ∧ c.tip = Small.env.genesisEntry
    ∧ ((∃ locks, c.checkedGetLocks c.tip (Small.locking 2 1) Small.oneCoin
          LockFlags.STANDARD_LOCKTIME_FLAGS = .ok locks
        ∧ c.getLocks c.tip (Small.locking 2 1) Small.oneCoin LockFlags.STANDARD_LOCKTIME_FLAGS
          = .ok locks) ↔
      LockFlags.STANDARD_LOCKTIME_FLAGS.contains LockFlags.VERIFY_SEQUENCE = false
        ∨ (Small.locking 2 1).isCoinBase = true ∨ (Small.locking 2 1).version < 2
        ∨ ∀ input ∈ (Small.locking 2 1).input, c.LockFits Small.oneCoin input) := by
  obtain ⟨c, hc, htip, htimes, -⟩ := Small.exists_new (fun _ => true) (by decide +kernel)
  refine ⟨c, hc, htip, checkedGetLocks_iff Small.lawful hc (hc.inv Small.lawful).tip_stored htimes
    fun input hinput => ?_⟩
  rw [coinHeight_of_spendsAt (Small.spendsAt_spending input hinput)]
  exact ⟨le_rfl, Nat.le_add_left _ _⟩

end Chain

end BitcoinNode
