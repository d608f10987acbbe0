import BitcoinNode.Blockchain.MedianTime

/-!
# Relative lock times

`get_locks` takes the latest of the locks of the inputs, so a transaction passes when each of
its inputs is unlocked. An input that is unlocked stays so when the tip moves up.
-/

namespace BitcoinNode

namespace Word

theorem add_add_le {w a b k : Nat} : add w (a + k) b ≤ add w a b + k := by
  unfold add
  rw [show a + k + b = (a + b) + k by omega, Nat.add_mod]
  have h₁ := Nat.mod_le ((a + b) % 2 ^ w + k % 2 ^ w) (2 ^ w)
  have h₂ := Nat.mod_le k (2 ^ w)
  omega

/-- A sum wraps below its first term for all large terms, or for none. -/
theorem add_lt_mono {w a a' b : Nat} (hb : b < 2 ^ w) (ha : a ≤ a') (h : add w a b < a) :
    add w a' b < a' := by
  unfold add at *
  have hM : 0 < 2 ^ w := Nat.two_pow_pos w
  by_cases ha' : a' < 2 ^ w
  · have hwrap : 2 ^ w ≤ a + b := by
      by_contra hlt
      rw [Nat.mod_eq_of_lt (by omega)] at h
      omega
    rw [Nat.mod_eq_sub_mod (by omega), Nat.mod_eq_of_lt (by omega)]
    omega
  · exact (Nat.mod_lt _ hM).trans_le (by omega)

end Word

namespace Chain

open ChainDB

variable {env : Env} {c c' : Chain} {prev : ChainEntry} {view : CoinView} {inputs : List TxIn}
  {minHeight minTime : Option Nat} {h h' sequence : Nat}

/-- The lock of an input with the sequence number is over in a block on `prev`, if its coin is
of height `h`. -/
def Unlocked (c : Chain) (prev : ChainEntry) (h sequence : Nat) : Prop :=
  sequence &&& SEQUENCE_DISABLE_FLAG ≠ 0 ∨
  if sequence &&& SEQUENCE_TYPE_FLAG = 0 then
    Word.add 32 h (Word.sub 32 (sequence &&& SEQUENCE_MASK) 1) ≤ prev.height
  else ∃ a, c.db.getAncestor prev (h - 1) = .ok a ∧
    Word.add 32 (c.db.getMedianTime a)
        (Word.sub 32 ((sequence &&& SEQUENCE_MASK) <<< SEQUENCE_GRANULARITY) 1)
      < c.db.getMedianTime prev

theorem unlocked_iff_height (hoff : ¬ sequence &&& SEQUENCE_DISABLE_FLAG ≠ 0)
    (htype : sequence &&& SEQUENCE_TYPE_FLAG = 0) : c.Unlocked prev h sequence ↔
      Word.add 32 h (Word.sub 32 (sequence &&& SEQUENCE_MASK) 1) ≤ prev.height := by
  rw [Unlocked, if_pos htype, or_iff_right hoff]

theorem unlocked_iff_time (hoff : ¬ sequence &&& SEQUENCE_DISABLE_FLAG ≠ 0)
    (htype : sequence &&& SEQUENCE_TYPE_FLAG ≠ 0) : c.Unlocked prev h sequence ↔
      ∃ a, c.db.getAncestor prev (h - 1) = .ok a ∧
        Word.add 32 (c.db.getMedianTime a)
            (Word.sub 32 ((sequence &&& SEQUENCE_MASK) <<< SEQUENCE_GRANULARITY) 1)
          < c.db.getMedianTime prev := by
  rw [Unlocked, if_neg htype, or_iff_right hoff]

/-- The height that `get_locks` takes for the coin of an input. -/
def coinHeight (c : Chain) (view : CoinView) (input : TxIn) : Nat :=
  ((view.getEntry input.previousOutput).bind CoinEntry.height).getD (c.height + 1)

/-- What `verify_locks` asks of the heights and times that `get_locks` returns. -/
def LocksOver (c : Chain) (prev : ChainEntry) (minHeight minTime : Option Nat) : Prop :=
  (∀ h ∈ minHeight, h ≤ prev.height) ∧ ∀ t ∈ minTime, t < c.db.getMedianTime prev

theorem locksOver_height :
    c.LocksOver prev (some (max (minHeight.getD 0) h)) minTime ↔
      c.LocksOver prev minHeight minTime ∧ h ≤ prev.height := by
  unfold LocksOver
  cases minHeight <;> simp <;> tauto

theorem locksOver_time :
    c.LocksOver prev minHeight (some (max (minTime.getD 0) h)) ↔
      c.LocksOver prev minHeight minTime ∧ h < c.db.getMedianTime prev := by
  unfold LocksOver
  cases minTime with
  | none => simp
  | some t =>
    simp
    tauto

/-- What `get_locks` collects is over when every input is unlocked. -/
theorem inputLocks_iff :
    (∃ height time, c.inputLocks prev view inputs minHeight minTime = .ok (height, time)
      ∧ c.LocksOver prev height time) ↔
    c.LocksOver prev minHeight minTime
      ∧ ∀ input ∈ inputs, c.Unlocked prev (c.coinHeight view input) input.sequence := by
  induction inputs generalizing minHeight minTime with
  | nil => simp [inputLocks]
  | cons input inputs ih =>
    rw [inputLocks, List.forall_mem_cons]
    by_cases hoff : input.sequence &&& SEQUENCE_DISABLE_FLAG ≠ 0
    · have hinput : c.Unlocked prev (c.coinHeight view input) input.sequence := .inl hoff
      rw [if_pos hoff, ih, and_iff_right hinput]
    rw [if_neg hoff]
    by_cases htype : input.sequence &&& SEQUENCE_TYPE_FLAG = 0
    · rw [if_pos htype, ih, locksOver_height, unlocked_iff_height hoff htype, and_assoc]
      rfl
    · rw [if_neg htype, unlocked_iff_time hoff htype, coinHeight]
      cases ha : c.db.getAncestor prev
          (((view.getEntry input.previousOutput).bind CoinEntry.height).getD (c.height + 1)
            - 1) with
      | error p => simp [bind_eq_ok]
      | ok a =>
        rw [bind_of_ok rfl, ih, locksOver_time, and_assoc]
        simp only [Except.ok.injEq, exists_eq_left']

/-- A transaction with relative locks passes when all its inputs are unlocked. -/
theorem verifyLocks_iff {tx : Transaction} {flags : LockFlags}
    (hflag : flags.contains LockFlags.VERIFY_SEQUENCE = true) :
    c.verifyLocks prev tx view flags = .ok () ↔
      tx.isCoinBase = true ∨ tx.version < 2
        ∨ ∀ input ∈ tx.input, c.Unlocked prev (c.coinHeight view input) input.sequence := by
  have hok : ∀ height time, (if height.any fun h => h > prev.height then
        (.error (.error .nonFinal) : Except (Stop TransactionVerificationError) Unit)
      else if time.any fun t => t ≥ c.db.getMedianTime prev then .error (.error .nonFinal)
      else .ok ()) = .ok () ↔ c.LocksOver prev height time := by
    intro height time
    unfold LocksOver
    split_ifs <;> cases height <;> cases time <;> simp_all
  unfold verifyLocks getLocks
  rw [hflag]
  by_cases hcoinbase : tx.isCoinBase = true
  · simp [hcoinbase]
  by_cases hversion : tx.version < 2
  · simp [hversion]
  have hlocks := @inputLocks_iff c prev view tx.input none none
  simp only [LocksOver, Option.not_mem_none, false_imp_iff, implies_true, true_and] at hlocks
  simp only [hcoinbase, hversion, false_or, ← hlocks]
  cases c.inputLocks prev view tx.input none none with
  | error p => simp
  | ok locks =>
    refine (hok locks.1 locks.2).trans ⟨fun hover => .inr ⟨_, _, rfl, hover⟩, ?_⟩
    rintro (hfalse | ⟨height, time, heq, hover⟩)
    · cases hfalse
    · obtain rfl := Except.ok.inj heq
      exact hover

/-! ## A tip that moves up -/

/-- The second chain has the entries of the first, and its tip is on top of that of the first. -/
structure Above (env : Env) (c c' : Chain) : Prop where
  inv : c.Inv env
  inv' : c'.Inv env
  skips : c.db.Skips
  skips' : c'.db.Skips
  timely : c'.db.Timely
  entries : ∀ hash e, c.db.getEntryByHash hash = some e → c'.db.getEntryByHash hash = some e
  tip : c'.db.Ancestor c'.tip c.tip

namespace Above

variable (law : env.Lawful) (above : Above env c c')

include above

theorem height_le : c.height ≤ c'.height := by
  rw [above.inv.height_eq, above.inv'.height_eq]
  exact above.inv'.tree.rooted.rank_le_of_ancestor above.inv'.tip_stored above.tip

include law

theorem getMedianTime_le : c.db.getMedianTime c.tip ≤ c'.db.getMedianTime c'.tip := by
  rw [← getMedianTime_mono law above.inv.tree above.inv'.tree above.entries above.inv.tip_stored]
  exact above.timely.getMedianTime_le above.inv'.tip_stored above.tip

theorem getAncestor_tip {a : ChainEntry} (ha : c.db.getAncestor c.tip h = .ok a) :
    c'.db.getAncestor c'.tip h = .ok a ∧ c'.db.getMedianTime a = c.db.getMedianTime a := by
  obtain ⟨hle, hanc, rfl⟩ := getAncestor_eq_ok above.inv.tree above.inv.main above.skips
    above.inv.tip_stored ha
  have hstored := hanc.stored above.inv.tree above.inv.tip_stored
  have hle' : a.height ≤ c'.tip.height := by
    have := above.height_le
    rw [above.inv.height_eq, above.inv'.height_eq] at this
    omega
  obtain ⟨b, hb, hanc', hheight⟩ := getAncestor_eq above.inv'.tree above.inv'.main above.skips'
    above.inv'.tip_stored hle'
  have heq := above.inv'.tree.rooted.ancestor_unique above.inv'.tip_stored hanc'
    (above.tip.trans (Forest.Ancestor.mono above.entries hanc)) hheight
  exact ⟨heq ▸ hb, getMedianTime_mono law above.inv.tree above.inv'.tree above.entries hstored⟩

/-- The coin of the input is as deep as before, or its transaction still waits for a block. -/
theorem unlocked (hcoin : h' = h ∨ h = c.height + 1 ∧ h' = c'.height + 1)
    (hlock : c.Unlocked c.tip h sequence) : c'.Unlocked c'.tip h' sequence := by
  have hheight := above.height_le
  unfold Unlocked at *
  refine hlock.imp_right fun hlock => ?_
  by_cases htype : sequence &&& SEQUENCE_TYPE_FLAG = 0
  · rw [if_pos htype, ← above.inv.height_eq] at hlock
    rw [if_pos htype, ← above.inv'.height_eq]
    rcases hcoin with rfl | ⟨rfl, rfl⟩
    · omega
    · have := @Word.add_add_le 32 (c.height + 1) (Word.sub 32 (sequence &&& SEQUENCE_MASK) 1)
        (c'.height - c.height)
      rw [show c.height + 1 + (c'.height - c.height) = c'.height + 1 by omega] at this
      omega
  · rw [if_neg htype] at hlock ⊢
    obtain ⟨a, ha, hlt⟩ := hlock
    rcases hcoin with rfl | ⟨rfl, rfl⟩
    · obtain ⟨ha', hmedian⟩ := above.getAncestor_tip law ha
      exact ⟨a, ha', hmedian ▸ hlt.trans_le (above.getMedianTime_le law)⟩
    · -- a coin of the pool is measured from the tip itself
      have htip : ∀ {c : Chain}, c.Inv env → c.db.Skips →
          c.db.getAncestor c.tip (c.height + 1 - 1) = .ok c.tip := by
        intro c inv skips
        obtain ⟨a, ha, hanc, hheight⟩ := getAncestor_eq inv.tree inv.main skips inv.tip_stored
          inv.height_eq.le
        rw [inv.height_eq] at hheight
        rw [Nat.add_sub_cancel, ha,
          inv.tree.rooted.ancestor_unique inv.tip_stored hanc .refl hheight]
      rw [htip above.inv above.skips] at ha
      obtain rfl := Except.ok.inj ha
      exact ⟨c'.tip, htip above.inv' above.skips',
        Word.add_lt_mono (Word.sub_lt ..) (above.getMedianTime_le law) hlt⟩

end Above

end Chain

end BitcoinNode
