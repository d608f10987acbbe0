import BitcoinNode.Library.Result
import BitcoinNode.Blockchain.System
import BitcoinNode.Blockchain.Tree

/-!
# The moves a call is made of

Every call on the chain is a sequence of a few moves: fill the version-bits cache, save a
header, mark a block invalid, write a block, connect one to the tip, disconnect the tip.
This module inverts the functions of the chain into what they did when they returned.
-/

namespace BitcoinNode.Chain

variable {env : Env} {c c' : Chain} {block : Block} {entry prev : ChainEntry}

/-! ## Inverting verification -/

/-- Behind the checks of the header and the body, verification asks for the flags of the block
and decides. -/
theorem verify_eq (c : Chain) (hprev : block.header.prevBlockhash = prev.hash)
    (hbody : block.checkBody env = .ok ()) :
    ∃ verdict : VersionBitsCache × DeploymentState → Except BlockVerificationError Unit,
      c.verify env block prev = (do
        let flags ← c.db.getDeployments env block.header.time prev
        .ok (c.withCache flags.1, verdict flags)) := by
  unfold verify
  rw [if_neg (not_not.2 hprev), hbody]
  refine exists_bind_eq (fun flags => ?_) _
  dsimp only
  repeat' split
  all_goals exact ⟨_, rfl⟩

/-- Verification that returns refused the body, or left the flags of the block in the cache. -/
theorem verify_cases {r : Except BlockVerificationError Unit}
    (h : c.verify env block prev = .ok (c', r)) :
    block.header.prevBlockhash = prev.hash ∧
      ((c' = c ∧ ∃ e, r = .error e) ∨
        ∃ cache state, block.checkBody env = .ok ()
          ∧ c.db.getDeployments env block.header.time prev = .ok (cache, state)
          ∧ c' = c.withCache cache) := by
  by_cases hprev : block.header.prevBlockhash = prev.hash
  · refine ⟨hprev, ?_⟩
    cases hbody : block.checkBody env with
    | error e =>
      rw [verify, if_neg (not_not.2 hprev), hbody] at h
      obtain ⟨rfl, rfl⟩ := Prod.mk.inj (Except.ok.inj h)
      exact .inl ⟨rfl, e, rfl⟩
    | ok _ =>
      obtain ⟨verdict, hverify⟩ := c.verify_eq hprev hbody
      rw [hverify] at h
      obtain ⟨⟨cache, state⟩, hflags, h⟩ := bind_eq_ok.1 h
      exact .inr ⟨cache, state, rfl, hflags, (Prod.mk.inj (Except.ok.inj h)).1.symm⟩
  · rw [verify, if_pos hprev] at h
    cases h

/-- Verification fills the version-bits cache and changes nothing else. -/
theorem verify_eq_ok {r : Except BlockVerificationError Unit}
    (h : c.verify env block prev = .ok (c', r)) :
    (∃ cache, c' = c.withCache cache) ∧ block.header.prevBlockhash = prev.hash
      ∧ (r = .ok () → block.checkBody env = .ok ()) := by
  obtain ⟨hprev, ⟨rfl, e, rfl⟩ | ⟨cache, -, hbody, -, rfl⟩⟩ := verify_cases h
  · exact ⟨⟨c'.db.versionBitsCache, rfl⟩, hprev, nofun⟩
  · exact ⟨⟨cache, rfl⟩, hprev, fun _ => hbody⟩

/-- A block that passes contextual verification passed the other checks, and its inputs
gave the view. -/
theorem verifyContext_eq_ok {r : Except BlockVerificationError (CoinView × DeploymentState)}
    (h : c.verifyContext env block prev = .ok (c', r)) :
    (∃ cache, c' = c.withCache cache) ∧ block.header.prevBlockhash = prev.hash
      ∧ ∀ view state, r = .ok (view, state) →
        block.checkBody env = .ok () ∧ c'.verifyInputs env block prev state = .ok view := by
  simp only [verifyContext, bind_eq_ok] at h
  obtain ⟨⟨cache, state⟩, -, ⟨c₁, verified⟩, hverify, h⟩ := h
  obtain ⟨⟨cache', rfl⟩, hprev, hbody⟩ := verify_eq_ok hverify
  dsimp only at h
  split at h
  · simp only [pure_eq_ok, Prod.mk.injEq] at h
    obtain ⟨rfl, rfl⟩ := h
    exact ⟨⟨cache', rfl⟩, hprev, by simp⟩
  · repeat' split at h
    all_goals cases h
    all_goals
      refine ⟨⟨cache', rfl⟩, hprev, ?_⟩
      rintro view' state' ⟨⟩
    all_goals exact ⟨hbody rfl, ‹_›⟩

/-! ## Inverting the steps of the chain -/

/-- The chain after a verified block is connected in the database. -/
def connected (c : Chain) (db : ChainDB) (block : Block) (entry : ChainEntry) (view : CoinView)
    (state : DeploymentState) : Chain :=
  Chain.notifyConnect { c with db := db, height := entry.height, tip := entry, state := state }
    entry block view

/-- Connecting either marks the block invalid or extends the tip with it. -/
theorem connect_eq_ok {r : Except BlockVerificationError ChainEntry}
    (h : c.connect env block entry prev = .ok (c', r)) :
    block.header.prevBlockhash = prev.hash ∧ prev.hash = c.tip.hash ∧ ∃ cache,
      ((∃ e, r = .error e ∧ c' = (c.withCache cache).setInvalid entry.hash
          ∧ c.verifyContext env block prev = .ok (c.withCache cache, .error e))
        ∨ ∃ view state db, r = .ok entry
          ∧ c.verifyContext env block prev = .ok (c.withCache cache, .ok (view, state))
          ∧ block.checkBody env = .ok ()
          ∧ (c.withCache cache).verifyInputs env block prev state = .ok view
          ∧ (c.withCache cache).db.connect env entry block view = .ok db
          ∧ c' = c.connected db block entry view state) := by
  unfold connect at h
  split at h
  · cases h
  rename_i hheader
  split at h
  · cases h
  rename_i htip
  refine ⟨not_not.1 hheader, not_not.1 htip, ?_⟩
  simp only [bind_eq_ok] at h
  obtain ⟨⟨c₁, verified⟩, hverify, h⟩ := h
  obtain ⟨⟨cache, rfl⟩, -, hview⟩ := verifyContext_eq_ok hverify
  refine ⟨cache, ?_⟩
  dsimp only at h
  split at h
  · cases h
    exact .inl ⟨_, rfl, rfl, hverify⟩
  · rename_i view state
    simp only [bind_eq_ok] at h
    obtain ⟨db, hdb, h⟩ := h
    cases h
    obtain ⟨hbody, hinputs⟩ := hview view state rfl
    exact .inr ⟨view, state, db, rfl, hverify, hbody, hinputs, hdb, rfl⟩

/-- The chain after the database disconnected its tip. -/
def disconnected (c : Chain) (db : ChainDB) (block : Block) (entry prev : ChainEntry)
    (view : CoinView) : Chain :=
  Chain.notifyDisconnect { c with db := db, tip := prev, height := prev.height } entry block view

theorem disconnect_eq_ok (h : c.disconnect env entry = .ok c') :
    ∃ block prev db view, c.db.getBlock entry.hash = some block
      ∧ c.db.getEntryByHash entry.prevBlock = some prev
      ∧ c.db.disconnect env entry block = .ok (db, view)
      ∧ c' = c.disconnected db block entry prev view := by
  unfold disconnect at h
  split at h
  · cases h
  rename_i block hblock
  split at h
  · cases h
  rename_i prev hprev
  simp only [bind_eq_ok] at h
  obtain ⟨⟨db, view⟩, hdb, h⟩ := h
  cases h
  exact ⟨block, prev, db, view, hblock, hprev, hdb, rfl⟩

/-- A saved header extends a stored one, with the skip pointer the search returned. -/
theorem addHeader_eq_ok {now : Nat} {header : BlockHeader}
    {r : Except BlockHeaderVerificationError (ChainEntry × ChainEntry)}
    (h : c.addHeader env now header = .ok (c', r)) :
    (∃ e, r = .error e ∧ c' = c) ∨ ∃ entry prev skip db, r = .ok (entry, prev)
      ∧ env.validatePow header = true
      ∧ c.hasInvalid (env.blockHash header) header.prevBlockhash = false
      ∧ c.db.getEntryByHash (env.blockHash header) = none
      ∧ c.db.getEntryByHash header.prevBlockhash = some prev
      ∧ c.db.getAncestor prev (getSkipHeight (prev.height + 1)) = .ok skip
      ∧ entry = { ChainEntry.fromBlockHeader env header (some prev) with skip := skip.hash }
      ∧ c.contextualCheckBlockHeader env now header prev = .ok ()
      ∧ c.db.saveEntry entry prev = .ok db ∧ c' = { c with db := db } := by
  unfold addHeader at h
  split at h
  · cases h
    exact .inl ⟨_, rfl, rfl⟩
  rename_i hpow
  dsimp only at h
  split at h
  · cases h
  rename_i hinvalid
  split at h
  · cases h
  rename_i hknown
  split at h
  · cases h
  rename_i prev hprev
  simp only [bind_eq_ok] at h
  obtain ⟨skip, hskip, h⟩ := h
  split at h
  · cases h
  · cases h
    exact .inl ⟨_, rfl, rfl⟩
  · rename_i hcheck
    simp only [bind_eq_ok] at h
    obtain ⟨db, hdb, h⟩ := h
    cases h
    refine .inr ⟨_, prev, skip, db, rfl, by simpa using hpow, by simpa using hinvalid, ?_, hprev,
      hskip, rfl, hcheck, hdb, rfl⟩
    simpa [ChainDB.hasHeader] using hknown

end BitcoinNode.Chain
