import BitcoinNode.Blockchain.Headers

/-!
# The chain

`Chain` of `blockchain/chain.rs`: verification of headers and blocks, fork choice, and the
three entry points `add_header`, `add` and `attach`. A call either panics or returns the
chain it leaves behind together with `Ok` or `Err`. The clock reading of a call is its
argument `now`; calls to the listeners are recorded in order.
-/

namespace BitcoinNode

/-- What a listener sees of the chain when it is called. -/
structure Snapshot where
  tip : ChainEntry
  height : Nat
  state : DeploymentState
  dbState : ChainState
  deriving DecidableEq

/-- A call to `handle_connect` or `handle_disconnect` of every listener. -/
inductive Notification where
  | connect (chain : Snapshot) (entry : ChainEntry) (block : Block) (view : CoinView)
  | disconnect (chain : Snapshot) (entry : ChainEntry) (block : Block) (view : CoinView)

structure Chain where
  db : ChainDB
  tip : ChainEntry
  height : Nat
  state : DeploymentState
  notified : List Notification

/-- What a call that does not panic leaves behind and returns. -/
abbrev Returned (ε α : Type) := Chain × Except ε α

namespace Chain

def snapshot (c : Chain) : Snapshot := ⟨c.tip, c.height, c.state, c.db.state⟩

def withCache (c : Chain) (cache : VersionBitsCache) : Chain :=
  { c with db := { c.db with versionBitsCache := cache } }

def setInvalid (c : Chain) (hash : BlockHash) : Chain := { c with db := c.db.setInvalid hash }

def notifyConnect (c : Chain) (entry : ChainEntry) (block : Block) (view : CoinView) : Chain :=
  { c with notified := c.notified ++ [.connect c.snapshot entry block view] }

def notifyDisconnect (c : Chain) (entry : ChainEntry) (block : Block) (view : CoinView) : Chain :=
  { c with notified := c.notified ++ [.disconnect c.snapshot entry block view] }

def isBlockReady (c : Chain) (hash : BlockHash) : Bool :=
  !c.db.hasInvalid hash && c.db.hasBlock hash

/-! ## Relative lock times -/

/-- The loop of `get_locks`: the least height and time at which all inputs are unlocked. -/
def inputLocks (c : Chain) (prev : ChainEntry) (view : CoinView) :
    List TxIn → Option Nat → Option Nat → Except Panic (Option Nat × Option Nat)
  | [], minHeight, minTime => .ok (minHeight, minTime)
  | input :: inputs, minHeight, minTime =>
    if input.sequence &&& SEQUENCE_DISABLE_FLAG ≠ 0 then
      inputLocks c prev view inputs minHeight minTime
    else
      let height := ((view.getEntry input.previousOutput).bind CoinEntry.height).getD (c.height + 1)
      let masked := input.sequence &&& SEQUENCE_MASK
      if input.sequence &&& SEQUENCE_TYPE_FLAG = 0 then
        let height := Word.add 32 height (Word.sub 32 masked 1)
        inputLocks c prev view inputs (some (max (minHeight.getD 0) height)) minTime
      else do
        let entry ← c.db.getAncestor prev (height - 1)
        let time := Word.add 32 (c.db.getMedianTime entry)
          (Word.sub 32 (masked <<< SEQUENCE_GRANULARITY) 1)
        inputLocks c prev view inputs minHeight (some (max (minTime.getD 0) time))

def getLocks (c : Chain) (prev : ChainEntry) (tx : Transaction) (view : CoinView)
    (flags : LockFlags) : Except Panic (Option Nat × Option Nat) :=
  if !flags.contains LockFlags.VERIFY_SEQUENCE then .ok (none, none)
  else if tx.isCoinBase || decide (tx.version < 2) then .ok (none, none)
  else c.inputLocks prev view tx.input none none

def verifyLocks (c : Chain) (prev : ChainEntry) (tx : Transaction) (view : CoinView)
    (flags : LockFlags) : Except (Stop TransactionVerificationError) Unit :=
  match c.getLocks prev tx view flags with
  | .error p => .error (.panic p)
  | .ok (height, time) =>
    if height.any fun height => height > prev.height then .error (.error .nonFinal)
    else if time.any fun time => time ≥ c.db.getMedianTime prev then .error (.error .nonFinal)
    else .ok ()

/-- Whether the transaction is final in a block on `prev`; the clock is read only without
the median-time flag. -/
def verifyFinal (c : Chain) (now : Nat) (prev : ChainEntry) (tx : Transaction)
    (flags : LockFlags) : Bool :=
  let height := prev.height + 1
  if tx.lockTime < LOCKTIME_THRESHOLD then tx.isFinal height (-1)
  else if flags.contains LockFlags.MEDIAN_TIME_PAST then
    tx.isFinal height (Transaction.asI32 (c.db.getMedianTime prev))
  else tx.isFinal height (Transaction.asI32 now)

/-! ## Block verification -/

/-- Non-contextual verification, and the checks that need the header tree only. -/
def verify (env : Env) (c : Chain) (block : Block) (prev : ChainEntry) :
    Except Panic (Returned BlockVerificationError Unit) :=
  if block.header.prevBlockhash ≠ prev.hash then .error .verifyPrevious
  else match block.checkBody env with
    | .error e => .ok (c, .error e)
    | .ok _ => do
      let height := prev.height + 1
      let (cache, state) ← c.db.getDeployments env block.header.time prev
      let c := c.withCache cache
      let time := if state.hasMtp then c.db.getMedianTime prev else block.header.time
      if !block.txdata.all fun tx => tx.isFinal height (Transaction.asI32 time) then
        return (c, .error (.badTransaction .nonFinal))
      if state.hasBip34 then
        if let .error e := block.checkCoinbaseHeight env (prev.height + 1) then
          return (c, .error e)
      if !env.checkWitnessCommitment block then return (c, .error .badWitnessCommitment)
      if env.getWeight block > MAX_BLOCK_WEIGHT then return (c, .error .badBlockWeight)
      return (c, .ok ())

/-- Refuse a transaction whose outputs are in the coin column, outside the two exceptions. -/
def verifyDuplicates (env : Env) (c : Chain) (block : Block) (prev : ChainEntry) :
    Except TransactionVerificationError Unit :=
  let accepted := block.txdata.all fun tx =>
    !c.db.hasCoins env tx
      || env.network.bip30.lookup (prev.height + 1) == some (env.blockHash block.header)
  if accepted then .ok () else .error .duplicateTxid

/-- A transaction check inside a block check. -/
def ofTransaction {α : Type} : Except (Stop TransactionVerificationError) α →
    Except (Stop BlockVerificationError) α
  | .ok a => .ok a
  | .error (.panic p) => .error (.panic p)
  | .error (.error e) => .error (.error (.badTransaction e))

/-- The part of the transaction loop of `verify_inputs` that a coinbase skips: the view
after spending the inputs and the reward with the fee. -/
def verifySpends (c : Chain) (prev : ChainEntry) (state : DeploymentState) (tx : Transaction)
    (view : CoinView) (reward : Nat) :
    Except (Stop TransactionVerificationError) (CoinView × Nat) := do
  let view ← match view.spendInputs c.db.db.coin tx.input with
    | .ok view => pure view
    | .error e => throw (.error e)
  let fee ← tx.checkInputs view (prev.height + 1)
  let reward ← match Word.checkedAdd 64 reward fee with
    | some reward => pure reward
    | none => throw (.error .inputValuesOutOfRange)
  if reward > MAX_MONEY then throw (.error .feeOutOfRange)
  if tx.version ≥ 2 then c.verifyLocks prev tx view state.lockFlags
  return (view, reward)

/-- The transaction loop of `verify_inputs`. -/
def verifyTransactions (env : Env) (c : Chain) (prev : ChainEntry) (state : DeploymentState) :
    List Transaction → CoinView → Nat → Nat →
      Except (Stop BlockVerificationError) (CoinView × Nat)
  | [], view, _, reward => .ok (view, reward)
  | tx :: txs, view, sigops, reward => do
    let (view, reward) ←
      if tx.isCoinBase then pure (view, reward)
      else ofTransaction (c.verifySpends prev state tx view reward)
    let sigops := sigops + tx.getSigopCost env view state.scriptFlags
    if sigops > MAX_BLOCK_SIGOPS_COST then throw (.error .badSigops)
    verifyTransactions env c prev state txs (view.addTx env tx (prev.height + 1)) sigops reward

def verifyInputs (env : Env) (c : Chain) (block : Block) (prev : ChainEntry)
    (state : DeploymentState) : Except (Stop BlockVerificationError) CoinView := do
  let (view, reward) ← c.verifyTransactions env prev state block.txdata CoinView.empty 0 0
  let reward := Word.add 64 reward (getBlockSubsidy (prev.height + 1) env.network)
  match block.getClaimed with
  | .error p => throw (.panic p)
  | .ok claimed =>
    if claimed > reward then throw (.error .badCoinbaseAmount)
    if env.verifyScripts then
      for tx in block.txdata.drop 1 do
        ofTransaction (tx.verifyScripts env view state.scriptFlags)
    return view

def verifyContext (env : Env) (c : Chain) (block : Block) (prev : ChainEntry) :
    Except Panic (Returned BlockVerificationError (CoinView × DeploymentState)) := do
  let (cache, state) ← c.db.getDeployments env block.header.time prev
  let (c, verified) ← (c.withCache cache).verify env block prev
  match verified with
  | .error e => return (c, .error e)
  | .ok _ =>
    if !state.hasBip34 || decide (prev.height + 1 ≥ BIP34_IMPLIES_BIP30_LIMIT) then
      if let .error e := c.verifyDuplicates env block prev then
        return (c, .error (.badTransaction e))
    match c.verifyInputs env block prev state with
    | .error (.panic p) => throw p
    | .error (.error e) => return (c, .error e)
    | .ok view => return (c, .ok (view, state))

/-! ## Connecting and disconnecting -/

def connect (env : Env) (c : Chain) (block : Block) (entry prev : ChainEntry) :
    Except Panic (Returned BlockVerificationError ChainEntry) :=
  if block.header.prevBlockhash ≠ prev.hash then .error .connectHeader
  else if prev.hash ≠ c.tip.hash then .error .connectTip
  else do
    let (c, verified) ← c.verifyContext env block prev
    match verified with
    | .error e => return (c.setInvalid entry.hash, .error e)
    | .ok (view, state) =>
      let db ← c.db.connect env entry block view
      let c := { c with db := db, height := entry.height, tip := entry, state := state }
      return (c.notifyConnect entry block view, .ok entry)

def disconnect (env : Env) (c : Chain) (entry : ChainEntry) : Except Panic Chain :=
  match c.db.getBlock entry.hash with
  | none => .error .disconnectNoBlock
  | some block =>
    match c.db.getEntryByHash entry.prevBlock with
    | none => .error .disconnectNoPrevious
    | some prev => do
      let (db, view) ← c.db.disconnect env entry block
      let c := { c with db := db, tip := prev, height := prev.height }
      return c.notifyDisconnect entry block view

/-! ## Fork choice -/

/-- The loop of `get_next_best` over the children: the path that ends in the most work, the
first of several. -/
def keepBest (path : ChainEntry → Except Panic (List ChainEntry)) :
    List ChainEntry → Nat → List ChainEntry → Except Panic (List ChainEntry)
  | [], _, maxPath => .ok maxPath
  | next :: entries, maxWork, maxPath => do
    let path' ← path next
    match path'.getLast? with
    | none => keepBest path entries maxWork maxPath
    | some last =>
      if last.chainwork > maxWork then keepBest path entries last.chainwork path'
      else keepBest path entries maxWork maxPath

/-- The recursion of `get_next_best`: the path of ready blocks from `entry` on that ends in
the most work. Children are higher than their parent, so the depth is bounded by the
number of stored entries. -/
def bestPath (c : Chain) : Nat → ChainEntry → Except Panic (List ChainEntry)
  | 0, _ => .error .diverges
  | fuel + 1, entry =>
    if !c.isBlockReady entry.hash then .ok []
    else do
      let entries ← c.db.getNextEntries entry.hash
      return entry :: (← keepBest (bestPath c fuel) entries 0 [])

def getNextBest (c : Chain) (entry : ChainEntry) : Except Panic (List ChainEntry) := do
  let path ← c.bestPath (c.db.entryCache.hash.keys.card + 1) entry
  return path.tail

/-- A block waiting to be connected, with its entry and the entry before it. -/
structure Queued where
  entry : ChainEntry
  prev : ChainEntry
  block : Option Block

/-- The loop of `connect_best` that puts the ancestors off the main chain in front of the
queue; `none` when one of them is not ready. -/
def queueAncestors (c : Chain) :
    Nat → ChainEntry → List Queued → Except Panic (Option (List Queued))
  | fuel, headPrev, queue =>
    if c.db.isMainChain headPrev then .ok (some queue)
    else if !c.isBlockReady headPrev.hash then .ok none
    else match fuel with
      | 0 => .error .diverges
      | fuel + 1 =>
        match c.db.getEntryByHash headPrev.prevBlock with
        | none => .error .connectBestNoParent
        | some parent => queueAncestors c fuel parent (⟨headPrev, parent, none⟩ :: queue)

/-- The loop of `connect_best` that appends the waiting blocks that follow. -/
def queueNexts : ChainEntry → List ChainEntry → List Queued
  | _, [] => []
  | entry, next :: nexts => ⟨next, entry, none⟩ :: queueNexts next nexts

/-- The blocks `connect_best` is going to connect; empty when nothing is to be done. -/
def buildQueue (c : Chain) (entry prev : ChainEntry) (block : Option Block) :
    Except Panic (List Queued) :=
  if !c.isBlockReady entry.hash then .ok []
  else do
    match ← c.queueAncestors prev.height prev [⟨entry, prev, block⟩] with
    | none => return []
    | some queue =>
      let nexts ← c.getNextBest entry
      let queue := queue ++ queueNexts entry nexts
      let lastWork := (queue.getLast?.map fun queued => queued.entry.chainwork).getD 0
      return if lastWork ≤ c.tip.chainwork then [] else queue

/-- The disconnect loop of `connect_best`. -/
def disconnectTo (env : Env) (hash : BlockHash) : Nat → Chain → Except Panic Chain
  | fuel, c =>
    if c.tip.hash = hash then .ok c
    else match fuel with
      | 0 => .error .diverges
      | fuel + 1 => do disconnectTo env hash fuel (← c.disconnect env c.tip)

/-- The connect loop of `connect_best`; it returns on the first error. -/
def connectQueue (env : Env) : List Queued → Chain →
    Except Panic (Returned BlockVerificationError Unit)
  | [], c => .ok (c, .ok ())
  | queued :: queue, c =>
    match queued.block.or (c.db.getBlock queued.entry.hash) with
    | none => .error .connectBestNoBlock
    | some block => do
      let (c, connected) ← c.connect env block queued.entry queued.prev
      match connected with
      | .error e => return (c, .error e)
      | .ok _ => connectQueue env queue c

/-- Every disconnect lowers the tip by one, and one at genesis panics, so the loop ends
within `c.tip.height + 1` rounds. -/
def connectBest (env : Env) (c : Chain) (entry prev : ChainEntry) (block : Option Block) :
    Except Panic (Returned BlockVerificationError Unit) :=
  if entry.prevBlock ≠ prev.hash then .error .connectBestPrevious
  else do
    let queue ← c.buildQueue entry prev block
    match queue with
    | [] => return (c, .ok ())
    | first :: _ =>
      let c ← disconnectTo env first.entry.prevBlock (c.tip.height + 1) c
      connectQueue env queue c

/-! ## Entry points -/

def contextualCheckBlockHeader (env : Env) (c : Chain) (now : Nat) (header : BlockHeader)
    (prev : ChainEntry) : Except (Stop BlockHeaderVerificationError) Unit := do
  if header.prevBlockhash ≠ prev.hash then throw (.panic .headerPrevious)
  match c.db.getTarget env header.time (some prev) with
  | .error p => throw (.panic p)
  | .ok bits =>
    if bits ≠ header.bits then throw (.error .badDifficultyBits)
    if header.time ≤ c.db.getMedianTime prev then throw (.error .timeTooOld)
    if header.time ≥ now + MAX_FUTURE_BLOCK_TIME then throw (.error .timeTooNew)
    let height := prev.height
    if header.version < 2 ∧ height ≥ env.network.bip34Height
        ∨ header.version < 3 ∧ height ≥ env.network.bip66Height
        ∨ header.version < 4 ∧ height ≥ env.network.bip65Height then
      throw (.error .obsolete)

/-- `has_invalid` marks a child of an invalid block; its only caller then panics. -/
def hasInvalid (c : Chain) (hash prev : BlockHash) : Bool :=
  c.db.hasInvalid hash || c.db.hasInvalid prev

def addHeader (env : Env) (now : Nat) (c : Chain) (header : BlockHeader) :
    Except Panic (Returned BlockHeaderVerificationError (ChainEntry × ChainEntry)) :=
  if !env.validatePow header then .ok (c, .error .invalidPOW)
  else
    let hash := env.blockHash header
    if c.hasInvalid hash header.prevBlockhash then .error .addHeaderInvalid
    else if c.db.hasHeader hash then .error .addHeaderKnown
    else match c.db.getEntryByHash header.prevBlockhash with
      | none => .error .addHeaderNoPrevious
      | some prev => do
        let entry := ChainEntry.fromBlockHeader env header (some prev)
        let skip ← c.db.getAncestor prev (getSkipHeight entry.height)
        let entry := { entry with skip := skip.hash }
        match c.contextualCheckBlockHeader env now header prev with
        | .error (.panic p) => throw p
        | .error (.error e) => return (c, .error e)
        | .ok _ =>
          let db ← c.db.saveEntry entry prev
          return ({ c with db := db }, .ok (entry, prev))

def addBlock (env : Env) (c : Chain) (block : Block) (entry prev : ChainEntry) :
    Except Panic (Returned BlockVerificationError Unit) :=
  if c.db.hasBlock (env.blockHash block.header) then .error .addBlockKnown
  else do
    let (c, verified) ← c.verify env block prev
    match verified with
    | .error e => return (c.setInvalid entry.hash, .error e)
    | .ok _ =>
      let db ← c.db.writeBlock env entry.hash block
      return ({ c with db := db }, .ok ())

/-- The part of `add` after the entry of the block is known. -/
def addWith (env : Env) (c : Chain) (block : Block) (entry prev : ChainEntry) :
    Except Panic (Returned BlockVerificationError ChainEntry) := do
  let (c, added) ← c.addBlock env block entry prev
  match added with
  | .error e => return (c, .error e)
  | .ok _ =>
    let (c, connected) ← c.connectBest env entry prev (some block)
    match connected with
    | .error e => return (c, .error e)
    | .ok _ => return (c, .ok entry)

/-- Add a block to the chain and return its entry if it was added successfully. -/
def add (env : Env) (now : Nat) (c : Chain) (block : Block) :
    Except Panic (Returned BlockVerificationError ChainEntry) :=
  match c.db.getEntryByHash (env.blockHash block.header) with
  | some entry =>
    match c.db.getEntryByHash block.header.prevBlockhash with
    | none => .error .addNoPrevious
    | some prev => c.addWith env block entry prev
  | none => do
    let (c, header) ← c.addHeader env now block.header
    match header with
    | .error e => return (c, .error (.badHeader e))
    | .ok (entry, prev) => c.addWith env block entry prev

def attach (env : Env) (c : Chain) (entry : ChainEntry) :
    Except Panic (Returned BlockVerificationError Unit) :=
  if c.db.isMainChain entry then .ok (c, .ok ())
  else match c.db.getEntryByHash entry.prevBlock with
    | none => .error .attachNoPrevious
    | some prev => c.connectBest env entry prev none

/-- Start a chain on a fresh database. -/
def new (env : Env) : Except Panic Chain := do
  let db ← ChainDB.openFresh env
  match db.getTip with
  | none => throw .noTip
  | some tip =>
    match db.getEntryByHash tip.prevBlock with
    | none =>
      if tip.isGenesis then return ⟨db, tip, tip.height, .default, []⟩ else throw .tipNotGenesis
    | some prev =>
      let (cache, state) ← db.getDeployments env tip.time prev
      return ⟨{ db with versionBitsCache := cache }, tip, tip.height, state, []⟩

end Chain

end BitcoinNode
