import BitcoinNode.Blockchain.Ancestors

/-!
# Panics that do not occur

The two assertions of fork choice never fire, and no loop of the chain goes on for ever:
in the model, no loop uses up its fuel.
-/

namespace BitcoinNode

/-- The panics shown not to occur. -/
def Panic.excluded : List Panic := [.connectBestPrevious, .connectTip, .diverges]

/-- The computation does not end in an excluded panic. -/
abbrev Safe {α : Type} (x : Except Panic α) : Prop := Throws x fun p => p ∉ Panic.excluded

/-- The same of a computation that may also return an error. -/
abbrev SafeStop {ε α : Type} (x : Except (Stop ε) α) : Prop :=
  Throws x fun s => ∀ p, s = .panic p → p ∉ Panic.excluded

namespace ChainDB

variable {env : Env} {db : ChainDB} {tip entry prev : ChainEntry}

/-! ## Headers -/

theorem cacheGet_safe {cache : VersionBitsCache} {bit : Nat} {hash : BlockHash} :
    Safe (cache.get bit hash) := by
  unfold VersionBitsCache.get
  split <;> simp [Panic.excluded]

theorem cacheSet_safe {cache : VersionBitsCache} {bit : Nat} {hash : BlockHash}
    {state : ThresholdState} : Safe (cache.set bit hash state) := by
  unfold VersionBitsCache.set
  split
  · simp [Panic.excluded]
  · split_ifs <;> exact throws_ok

theorem countSignals_safe {bit threshold n count : Nat} :
    Safe (db.countSignals bit threshold n entry count) := by
  induction n generalizing entry count with
  | zero => exact throws_ok
  | succ n ih =>
    rw [countSignals]
    generalize (if entry.hasBit bit then count + 1 else count) = count
    split_ifs
    · exact throws_ok
    · split
      · simp [Panic.excluded]
      · exact ih

theorem transition_safe {deployment : Deployment} {startTime : Nat} {state : ThresholdState} :
    Safe (transition env db deployment startTime state entry) := by
  unfold transition
  dsimp only
  split
  · exact throws_ok
  · split_ifs
    · exact throws_ok
    · exact countSignals_safe.bind fun _ _ => throws_pure
  all_goals exact throws_ok

theorem computeStates_safe {deployment : Deployment} {startTime : Nat} {compute : List ChainEntry}
    {cache : VersionBitsCache} {state : ThresholdState} :
    Safe (computeStates env db deployment startTime compute cache state) := by
  induction compute generalizing cache state with
  | nil => exact throws_ok
  | cons entry compute ih =>
    exact transition_safe.bind fun _ _ => cacheSet_safe.bind fun _ _ => ih

theorem commit_safe {batch : Batch} : Safe (db.commit batch) := by
  unfold commit
  split
  · simp [Panic.excluded]
  · exact throws_ok

section Headers

variable (tree : db.Tree env) (main : db.Main tip) (skips : db.Skips)

include tree main skips

theorem getAncestor_safe {height : Nat} (he : db.getEntryByHash entry.hash = some entry) :
    Safe (db.getAncestor entry height) := by
  rcases Nat.lt_or_ge entry.height height with hlt | hle
  · rw [getAncestor, if_pos hlt]
    simp [Panic.excluded]
  · obtain ⟨a, ha, -⟩ := getAncestor_eq tree main skips he hle
    rw [ha]
    exact throws_ok

omit main skips in
theorem lastRealBits_safe {fuel : Nat} (he : db.getEntryByHash entry.hash = some entry)
    (hfuel : entry.height ≤ fuel) : Safe (lastRealBits env db fuel entry) := by
  induction fuel generalizing entry with
  | zero =>
    rw [lastRealBits, if_neg (fun h => h.1 (by omega))]
    exact throws_ok
  | succ fuel ih =>
    unfold lastRealBits
    split
    · dsimp only
      split
      · simp [Panic.excluded]
      · rename_i p hp
        have := tree.height_eq he hp
        exact ih (tree.self hp) (by omega)
    · exact throws_ok

theorem getTarget_safe {time : Nat} (he : db.getEntryByHash entry.hash = some entry) :
    Safe (getTarget env db time (some entry)) := by
  simp only [getTarget]
  split_ifs
  · exact throws_ok
  · exact lastRealBits_safe tree he le_rfl
  · exact throws_ok
  · simp [Panic.excluded]
  · exact (getAncestor_safe tree main skips he).bind fun _ _ => throws_pure

theorem walkWindows_safe {deployment : Deployment} {startTime fuel : Nat}
    {cache : VersionBitsCache} {compute : List ChainEntry}
    (he : db.getEntryByHash entry.hash = some entry) (hfuel : entry.height < fuel) :
    Safe (walkWindows env db deployment startTime fuel entry cache compute) := by
  induction fuel generalizing entry cache compute with
  | zero => omega
  | succ fuel ih =>
    refine Throws.bind cacheGet_safe fun cached _ => ?_
    split
    · exact throws_pure
    split_ifs with hstart hfirst
    · exact cacheSet_safe.bind fun _ _ => throws_pure
    · exact throws_pure
    · refine (getAncestor_safe tree main skips he).bind fun a ha => ?_
      obtain ⟨-, hanc, hheight⟩ := getAncestor_eq_ok tree main skips he ha
      have := env.network.minerConfirmationWindow_pos
      exact ih (hanc.stored tree he) (by omega)

theorem windowBoundary_safe (he : db.getEntryByHash prev.hash = some prev) :
    Safe (windowBoundary env db prev) := by
  unfold windowBoundary
  dsimp only
  split_ifs
  · exact throws_ok
  · exact throws_ok
  · refine (getAncestor_safe tree main skips he).bind fun _ _ => ?_
    split_ifs
    · rintro p ⟨⟩
      simp [Panic.excluded]
    · exact throws_pure

theorem windowBoundary_stored {boundary : ChainEntry}
    (he : db.getEntryByHash prev.hash = some prev)
    (h : windowBoundary env db prev = .ok (some boundary)) :
    db.getEntryByHash boundary.hash = some boundary := by
  unfold windowBoundary at h
  dsimp only at h
  split at h
  · cases h
    exact he
  split at h
  · cases h
  · simp only [bind_eq_ok] at h
    obtain ⟨a, ha, h⟩ := h
    split at h
    · cases h
    · cases h
      exact (getAncestor_eq_ok tree main skips he ha).2.1.stored tree he

theorem getDeploymentStatus_safe {deployment : Deployment} {prev : Option ChainEntry}
    (hprev : ∀ e ∈ prev, db.getEntryByHash e.hash = some e) :
    Safe (getDeploymentStatus env db prev deployment) := by
  unfold getDeploymentStatus
  split
  · exact throws_ok
  · exact throws_ok
  · rename_i prev startTime _
    have he := hprev prev rfl
    refine (windowBoundary_safe tree main skips he).bind fun boundary hboundary => ?_
    split
    · exact throws_pure
    · refine Throws.bind (walkWindows_safe tree main skips
        (windowBoundary_stored tree main skips he hboundary) (Nat.lt_succ_self _)) fun _ _ => ?_
      exact computeStates_safe

theorem getDeployments_safe {time : Nat} (he : db.getEntryByHash prev.hash = some prev) :
    Safe (getDeployments env db time prev) := by
  unfold getDeployments
  split
  · simp [Panic.excluded]
  · refine Throws.bind (Throws.bind (getDeploymentStatus_safe tree main skips ?_)
      fun _ _ => throws_pure) fun _ _ => throws_pure
    rintro e ⟨⟩
    exact he

/-- A header is checked and saved without an excluded panic. -/
theorem saveEntry_safe (hidle : db.Idle) (hnew : db.getEntryByHash entry.hash = none)
    (hprev : db.getEntryByHash entry.prevBlock = some prev)
    (hheight : entry.height = prev.height + 1)
    (hskip : db.SkipsFrom entry) {p : ChainEntry} : Safe (db.saveEntry entry p) := by
  rw [saveEntry, start_eq hidle, bind_of_ok rfl]
  have hlt := getSkipHeight_lt (show 0 < entry.height by omega)
  dsimp only
  split
  · exact throws_pure.bind fun _ _ => commit_safe.bind fun _ _ => throws_pure
  · refine Throws.bind (throws_of_exists ?_) fun _ _ => throws_pure.bind fun _ _ =>
      commit_safe.bind fun _ _ => throws_pure
    have hstaged := @getAncestor_new env { db with
        pending := some db.state
        entryCache := db.entryCache.insertHashBatch entry } tip entry ?_ ?_ ?_ prev _ hnew hskip
      hprev hheight hlt
    · exact hstaged.imp fun _ h => h.1
    · exact tree.congr rfl
    · exact ⟨main.top, main.above, main.stored, main.prev⟩
    · exact skips.congr rfl

end Headers

/-! ## Blocks -/

theorem spendCoins_safe {view : CoinView} {inputs : List TxIn} {pending : ChainState} :
    Safe (spendCoins view inputs pending) := by
  induction inputs generalizing pending with
  | nil => exact throws_ok
  | cons input inputs ih =>
    rw [spendCoins]
    split
    · simp [Panic.excluded]
    · exact ih

theorem connectTransactions_safe {view : CoinView} {txs : List Transaction} {i : Nat}
    {pending : ChainState} : Safe (connectTransactions env view txs i pending) := by
  induction txs generalizing i pending with
  | nil => exact throws_ok
  | cons tx txs ih =>
    rw [connectTransactions]
    dsimp only
    split
    · exact spendCoins_safe.bind fun _ _ => ih
    · exact throws_pure.bind fun _ _ => ih

theorem writeUndo_safe {view : CoinView} : Safe (db.writeUndo entry view) := by
  unfold writeUndo BlockStore.writeUndo
  split_ifs <;> simp [Panic.excluded]

theorem connect_safe {block : Block} {view : CoinView} (hidle : db.Idle)
    (hgen : entry.isGenesis = false) (hhash : env.blockHash block.header = entry.hash) :
    Safe (db.connect env entry block view) := by
  rw [connect_eq hidle hgen hhash]
  exact connectTransactions_safe.bind fun _ _ => writeUndo_safe.bind fun _ _ => throws_pure

theorem restoreCoins_safe {inputs : List TxIn} {undo : UndoCoins} {view : CoinView}
    {pending : ChainState} : Safe (restoreCoins inputs undo view pending) := by
  induction inputs generalizing undo view pending with
  | nil => exact throws_ok
  | cons input inputs ih =>
    rw [restoreCoins]
    refine Throws.bind ?_ fun _ _ => ?_
    · unfold UndoCoins.apply
      split <;> simp [Panic.excluded]
    · dsimp only
      split
      · simp [Panic.excluded]
      · exact ih

theorem disconnectTransactions_safe {height : Nat} {txs : List (Transaction × Nat)}
    {undo : UndoCoins} {view : CoinView} {pending : ChainState} :
    Safe (disconnectTransactions env height txs undo view pending) := by
  induction txs generalizing undo view pending with
  | nil => exact throws_ok
  | cons tx txs ih =>
    rw [disconnectTransactions]
    dsimp only
    split
    · exact restoreCoins_safe.bind fun _ _ => ih
    · exact throws_pure.bind fun _ _ => ih

theorem disconnect_safe {block : Block} (hidle : db.Idle) :
    Safe (db.disconnect env entry block) := by
  rw [disconnect_eq hidle]
  split
  · simp [Panic.excluded]
  · refine disconnectTransactions_safe.bind fun _ _ => ?_
    dsimp only
    split
    · exact throws_pure
    · simp [Panic.excluded]

theorem writeBlock_safe {block : Block} {hash : BlockHash} :
    Safe (db.writeBlock env hash block) := by
  refine Throws.bind ?_ fun _ _ => throws_pure
  unfold BlockStore.writeBlock
  split_ifs <;> simp [Panic.excluded]

end ChainDB

namespace Chain

variable {env : Env} {c c' : Chain} {block : Block} {entry prev : ChainEntry}

/-! ## Verification -/

/-- The sum of the input values, behind the checks of one coin. -/
theorem addValue_safe {total value : Nat}
    {rest : Nat → Except (Stop TransactionVerificationError) Nat}
    (h : ∀ total, SafeStop (rest total)) :
    SafeStop (match Word.checkedAdd 64 total value with
      | none => .error (.error .inputValuesOutOfRange)
      | some total =>
        if value > MAX_MONEY || total > MAX_MONEY then .error (.error .inputValuesOutOfRange)
        else rest total) := by
  split
  · simp
  · split
    · simp
    · exact h _

theorem inputTotal_safe {view : CoinView} {height total : Nat} {inputs : List TxIn} :
    SafeStop (Transaction.inputTotal view height inputs total) := by
  induction inputs generalizing total with
  | nil => exact throws_ok
  | cons input inputs ih =>
    rw [Transaction.inputTotal]
    split
    · simp
    · dsimp only
      split
      · split
        · simp [Panic.excluded, throw_bind]
        · split
          · simp [throw_bind]
          · exact addValue_safe fun _ => ih
      · exact addValue_safe fun _ => ih

theorem checkInputs_safe {tx : Transaction} {view : CoinView} {height : Nat} :
    SafeStop (tx.checkInputs view height) := by
  refine inputTotal_safe.bind fun _ _ => ?_
  dsimp only
  split_ifs <;> simp [throw_bind]

theorem inputLocks_safe (inv : c.Inv env) (skips : c.db.Skips)
    (hprev : c.db.getEntryByHash prev.hash = some prev) {view : CoinView} {inputs : List TxIn}
    {minHeight minTime : Option Nat} : Safe (c.inputLocks prev view inputs minHeight minTime) := by
  induction inputs generalizing minHeight minTime with
  | nil => exact throws_ok
  | cons input inputs ih =>
    rw [inputLocks]
    dsimp only
    split_ifs
    · exact ih
    · exact ih
    · exact (ChainDB.getAncestor_safe inv.tree inv.main skips hprev).bind fun _ _ => ih

theorem verifyLocks_safe (inv : c.Inv env) (skips : c.db.Skips)
    (hprev : c.db.getEntryByHash prev.hash = some prev) {tx : Transaction} {view : CoinView}
    {flags : LockFlags} : SafeStop (c.verifyLocks prev tx view flags) := by
  have hlocks : Safe (c.getLocks prev tx view flags) := by
    unfold getLocks
    split_ifs
    · exact throws_ok
    · exact throws_ok
    · exact inputLocks_safe inv skips hprev
  unfold verifyLocks
  split
  · rename_i p hp
    simpa using hlocks p hp
  · split_ifs <;> simp

theorem ofTransaction_safe {α : Type} {x : Except (Stop TransactionVerificationError) α}
    (h : SafeStop x) : SafeStop (ofTransaction x) := by
  unfold ofTransaction
  split
  · exact throws_ok
  · rename_i p
    simpa using h (.panic p) rfl
  · simp

theorem verifySpends_safe (inv : c.Inv env) (skips : c.db.Skips)
    (hprev : c.db.getEntryByHash prev.hash = some prev) {state : DeploymentState}
    {tx : Transaction} {view : CoinView} {reward : Nat} :
    SafeStop (c.verifySpends prev state tx view reward) := by
  unfold verifySpends
  dsimp only
  split
  · refine throws_pure.bind fun view _ => checkInputs_safe.bind fun fee _ => ?_
    split
    · refine throws_pure.bind fun reward _ => ?_
      split
      · simp [throw_bind]
      · split
        · exact (verifyLocks_safe inv skips hprev).bind fun _ _ => throws_pure
        · exact throws_pure
    · simp [throw_bind]
  · simp [throw_bind]

theorem verifyTransactions_safe (inv : c.Inv env) (skips : c.db.Skips)
    (hprev : c.db.getEntryByHash prev.hash = some prev) {state : DeploymentState}
    {txs : List Transaction} {view : CoinView} {sigops reward : Nat} :
    SafeStop (c.verifyTransactions env prev state txs view sigops reward) := by
  induction txs generalizing view sigops reward with
  | nil => exact throws_ok
  | cons tx txs ih =>
    have hrest : ∀ result : CoinView × Nat, SafeStop (do
        let sigops := sigops + tx.getSigopCost env result.1 state.scriptFlags
        if sigops > MAX_BLOCK_SIGOPS_COST then throw (.error .badSigops)
        verifyTransactions env c prev state txs (result.1.addTx env tx (prev.height + 1)) sigops
          result.2) := by
      intro result
      dsimp only
      split_ifs
      · simp [throw_bind]
      · exact ih
    rw [verifyTransactions]
    dsimp only
    split_ifs
    · exact throws_pure.bind fun result _ => hrest result
    · exact (ofTransaction_safe (verifySpends_safe inv skips hprev)).bind fun result _ =>
        hrest result

theorem verifyScripts_safe {tx : Transaction} {view : CoinView} {flags : ScriptFlags} :
    SafeStop (tx.verifyScripts env view flags) := by
  refine Throws.bind (Throws.mapM fun input _ => ?_) fun _ _ => ?_
  · split <;> simp [Panic.excluded]
  · dsimp only
    split_ifs <;> simp

theorem verifyInputs_safe (inv : c.Inv env) (skips : c.db.Skips)
    (hprev : c.db.getEntryByHash prev.hash = some prev) {state : DeploymentState} :
    SafeStop (c.verifyInputs env block prev state) := by
  refine (verifyTransactions_safe inv skips hprev).bind fun result _ => ?_
  dsimp only
  split
  · rename_i p hp
    unfold Block.getClaimed at hp
    split at hp
    · cases hp
      simp [Panic.excluded]
    · split at hp
      · cases hp
      · cases hp
        simp [Panic.excluded]
  · split
    · simp [throw_bind]
    · split
      · exact Throws.bind (Throws.forIn fun tx _ _ =>
          (ofTransaction_safe verifyScripts_safe).bind fun _ _ => throws_pure)
          fun _ _ => throws_pure
      · exact throws_pure

theorem verify_safe (inv : c.Inv env) (skips : c.db.Skips)
    (hprev : c.db.getEntryByHash prev.hash = some prev) : Safe (c.verify env block prev) := by
  by_cases hheader : block.header.prevBlockhash = prev.hash
  · cases hbody : block.checkBody env with
    | error e =>
      rw [verify, if_neg (not_not.2 hheader), hbody]
      exact throws_ok
    | ok _ =>
      obtain ⟨verdict, hverify⟩ := c.verify_eq hheader hbody
      rw [hverify]
      exact (ChainDB.getDeployments_safe inv.tree inv.main skips hprev).bind fun _ _ => throws_ok
  · rw [verify, if_pos hheader]
    simp [Panic.excluded]

theorem verifyContext_safe (inv : c.Inv env) (skips : c.db.Skips)
    (hprev : c.db.getEntryByHash prev.hash = some prev) :
    Safe (c.verifyContext env block prev) := by
  refine (ChainDB.getDeployments_safe inv.tree inv.main skips hprev).bind fun result _ => ?_
  obtain ⟨cache, state⟩ := result
  refine (verify_safe (inv.withCache cache) (skips.congr rfl) hprev).bind fun result hverify => ?_
  obtain ⟨c₁, verified⟩ := result
  obtain ⟨⟨cache', rfl⟩, -⟩ := verify_eq_ok hverify
  have hinputs : SafeStop
      (((c.withCache cache).withCache cache').verifyInputs env block prev state) :=
    verifyInputs_safe ((inv.withCache cache).withCache cache') (skips.congr rfl) hprev
  dsimp only
  repeat' split
  all_goals try exact throws_pure
  all_goals
    rename_i p hp
    exact throws_throw.2 (hinputs _ hp p rfl)

/-- Connecting a block on top of the tip panics for other reasons only. -/
theorem connect_safe (inv : c.Inv env) (skips : c.db.Skips)
    (hentry : c.db.getEntryByHash entry.hash = some entry)
    (hblock : c.db.getBlock entry.hash = some block) (hprev : entry.prevBlock = c.tip.hash) :
    Safe (c.connect env block entry c.tip) := by
  unfold connect
  split
  · simp [Panic.excluded]
  rw [if_neg (by simp)]
  refine (verifyContext_safe inv skips inv.tip_stored).bind fun result hverify => ?_
  obtain ⟨c₁, verified⟩ := result
  obtain ⟨⟨cache, rfl⟩, -⟩ := verifyContext_eq_ok hverify
  dsimp only
  split
  · exact throws_pure
  · have htip : c.db.getEntryByHash entry.prevBlock = some c.tip := by rw [hprev, inv.tip_stored]
    exact (ChainDB.connect_safe (inv.withCache cache).idle (inv.tree.isGenesis_eq_false hentry htip)
      (inv.block_hash hblock)).bind fun _ _ => throws_pure

theorem disconnect_safe (inv : c.Inv env) : Safe (c.disconnect env c.tip) := by
  unfold disconnect
  split
  · simp [Panic.excluded]
  split
  · simp [Panic.excluded]
  · exact (ChainDB.disconnect_safe inv.idle).bind fun _ _ => throws_pure

/-! ## Headers -/

/-- The checks of a header against its previous one panic where the target does. -/
theorem contextualCheckBlockHeader_throws {P : Stop BlockHeaderVerificationError → Prop}
    {now : Nat} {header : BlockHeader}
    (hprev : header.prevBlockhash ≠ prev.hash → P (.panic .headerPrevious))
    (htarget : ∀ p, c.db.getTarget env header.time (some prev) = .error p → P (.panic p))
    (herror : ∀ e, P (.error e)) : Throws (c.contextualCheckBlockHeader env now header prev) P := by
  rw [contextualCheckBlockHeader]
  by_cases hheader : header.prevBlockhash ≠ prev.hash
  · rw [if_pos hheader]
    exact throws_throw.2 (hprev hheader)
  rw [if_neg hheader]
  cases hbits : c.db.getTarget env header.time (some prev) with
  | error p => exact throws_throw.2 (htarget p hbits)
  | ok bits =>
    exact .check (herror _) (.check (herror _) (.check (herror _) (.check (herror _) throws_pure)))

theorem contextualCheckBlockHeader_safe (inv : c.Inv env) (skips : c.db.Skips) {now : Nat}
    {header : BlockHeader} (hprev : c.db.getEntryByHash prev.hash = some prev) :
    SafeStop (c.contextualCheckBlockHeader env now header prev) := by
  have htarget : Safe (ChainDB.getTarget env c.db header.time (some prev)) :=
    ChainDB.getTarget_safe inv.tree inv.main skips hprev
  refine contextualCheckBlockHeader_throws (fun _ => ?_) (fun p hp => ?_) fun _ => nofun
  · simp [Panic.excluded]
  · simpa using htarget p hp

theorem addHeader_safe (inv : c.Inv env) (skips : c.db.Skips) {now : Nat} {header : BlockHeader} :
    Safe (c.addHeader env now header) := by
  unfold addHeader
  split
  · exact throws_ok
  dsimp only
  split
  · simp [Panic.excluded]
  split
  · simp [Panic.excluded]
  rename_i hknown
  split
  · simp [Panic.excluded]
  rename_i prev hprev
  have hself := inv.tree.self hprev
  refine (ChainDB.getAncestor_safe inv.tree inv.main skips hself).bind fun skip hskip => ?_
  obtain ⟨-, hanc, hheight⟩ := ChainDB.getAncestor_eq_ok inv.tree inv.main skips hself hskip
  have hcheck : SafeStop (c.contextualCheckBlockHeader env now header prev) :=
    contextualCheckBlockHeader_safe inv skips hself
  split
  · rename_i p hp
    exact throws_throw.2 (hcheck _ hp p rfl)
  · exact throws_pure
  · refine (ChainDB.saveEntry_safe inv.tree inv.main skips inv.idle ?_ hprev rfl ?_).bind
      fun _ _ => throws_pure
    · change c.db.getEntryByHash (env.blockHash header) = none
      simpa [ChainDB.hasHeader] using hknown
    · exact .inr ⟨skip, hanc.stored inv.tree hself, .head hprev hanc, hheight⟩

end Chain

end BitcoinNode
