import BitcoinNode.Blockchain.Database

/-!
# The chain database

`ChainDB` of `blockchain/chain_db.rs`: the entry cache, the pending state record, the
staged batch and its commit, and the operations that save a header, connect a block and
disconnect one. Reads of the store and batch writes are taken not to fail.
-/

namespace BitcoinNode

/-! ## Entry cache -/

inductive ChainEntryCacheOperation where
  | insertHash (entry : ChainEntry)
  | insertHeight (entry : ChainEntry)
  | removeHeight (height : Nat)

structure ChainEntryCache where
  height : FMap Nat BlockHash
  hash : FMap BlockHash ChainEntry
  batch : List ChainEntryCacheOperation

namespace ChainEntryCache

def empty : ChainEntryCache := ⟨∅, ∅, []⟩

def insertHeightBatch (cache : ChainEntryCache) (entry : ChainEntry) : ChainEntryCache :=
  { cache with batch := cache.batch ++ [.insertHeight entry] }

def insertHashBatch (cache : ChainEntryCache) (entry : ChainEntry) : ChainEntryCache :=
  { cache with batch := cache.batch ++ [.insertHash entry] }

def removeHeightBatch (cache : ChainEntryCache) (entry : ChainEntry) : ChainEntryCache :=
  { cache with batch := cache.batch ++ [.removeHeight entry.height] }

def applyOperation (cache : ChainEntryCache) : ChainEntryCacheOperation → ChainEntryCache
  | .insertHash entry => { cache with hash := cache.hash.insert entry.hash entry }
  | .insertHeight entry => { cache with height := cache.height.insert entry.height entry.hash }
  | .removeHeight height => { cache with height := cache.height.erase height }

def writeBatch (cache : ChainEntryCache) : ChainEntryCache :=
  cache.batch.foldl applyOperation { cache with batch := [] }

def clearBatch (cache : ChainEntryCache) : ChainEntryCache := { cache with batch := [] }

end ChainEntryCache

/-! ## Version-bits cache -/

structure VersionBitsCache where
  bits : FMap Nat (FMap BlockHash ThresholdState)
  updates : List (Nat × BlockHash)

namespace VersionBitsCache

def new (network : NetworkParams) : VersionBitsCache where
  bits := network.deployments.foldl (fun bits deployment => bits.insert deployment.bit ∅) ∅
  updates := []

def get (cache : VersionBitsCache) (bit : Nat) (hash : BlockHash) :
    Except Panic (Option ThresholdState) :=
  match cache.bits.lookup bit with
  | none => .error .unknownBit
  | some states => .ok (states.lookup hash)

def set (cache : VersionBitsCache) (bit : Nat) (hash : BlockHash) (state : ThresholdState) :
    Except Panic VersionBitsCache :=
  match cache.bits.lookup bit with
  | none => .error .unknownBit
  | some states =>
    if states.lookup hash = some state then .ok cache
    else .ok ⟨cache.bits.insert bit (states.insert hash state), cache.updates ++ [(bit, hash)]⟩

def commit (cache : VersionBitsCache) : VersionBitsCache := { cache with updates := [] }

end VersionBitsCache

/-! ## The database -/

structure ChainDB where
  entryCache : ChainEntryCache
  state : ChainState
  db : Database
  /-- Allows for atomic chain state update. -/
  pending : Option ChainState
  invalid : Finset BlockHash
  mostWork : Option ChainEntry
  blocks : BlockStore
  versionBitsCache : VersionBitsCache
  downloaded : Finset BlockHash

/-- Clear the lowest set bit. -/
def flipLow (n : Nat) : Nat := n &&& (n - 1)

/-- The height of the ancestor an entry's skip pointer names. -/
def getSkipHeight (height : Nat) : Nat :=
  if height < 2 then 0
  else if height &&& 1 = 1 then flipLow (flipLow (height - 1) + 1)
  else flipLow height

namespace ChainDB

/-! ### Reading -/

def getEntryByHash (db : ChainDB) (hash : BlockHash) : Option ChainEntry :=
  db.entryCache.hash.lookup hash

def getEntryByHeight (db : ChainDB) (height : Nat) : Except Panic (Option ChainEntry) :=
  match db.entryCache.height.lookup height with
  | none => .ok none
  | some hash =>
    match db.entryCache.hash.lookup hash with
    | none => .error .heightIndex
    | some entry => .ok (some entry)

def getTip (db : ChainDB) : Option ChainEntry := db.getEntryByHash db.state.tip

def hasBlock (db : ChainDB) (hash : BlockHash) : Bool := hash ∈ db.downloaded

def getBlock (db : ChainDB) (hash : BlockHash) : Option Block := db.blocks.readBlock hash

def hasHeader (db : ChainDB) (hash : BlockHash) : Bool := (db.getEntryByHash hash).isSome

def hasInvalid (db : ChainDB) (hash : BlockHash) : Bool := hash ∈ db.invalid

def setInvalid (db : ChainDB) (hash : BlockHash) : ChainDB :=
  { db with invalid := insert hash db.invalid }

def isMainChain (db : ChainDB) (entry : ChainEntry) : Bool :=
  db.entryCache.height.lookup entry.height == some entry.hash

def isMainHash (db : ChainDB) (hash : BlockHash) : Bool :=
  match db.getEntryByHash hash with
  | none => false
  | some entry => db.isMainChain entry

def readCoin (db : ChainDB) (prevout : OutPoint) : Option CoinEntry :=
  (db.db.coin.lookup prevout).map CoinEntry.reload

/-- Whether any output of the transaction is in the coin column. -/
def hasCoins (env : Env) (db : ChainDB) (tx : Transaction) : Bool :=
  (List.range tx.output.length).any fun vout => ⟨env.txid tx, vout⟩ ∈ db.db.coin

def getNextHashes (db : ChainDB) (hash : BlockHash) : List BlockHash :=
  (db.db.nextHashes.lookup hash).getD []

def getNextEntries (db : ChainDB) (hash : BlockHash) : Except Panic (List ChainEntry) :=
  (db.getNextHashes hash).mapM fun hash =>
    match db.getEntryByHash hash with
    | none => .error .nextEntryMissing
    | some entry => .ok entry

/-- The pointer `get_ancestor` follows from an entry on its way down to `height`. -/
def ancestorStep (entry : ChainEntry) (height : Nat) : BlockHash :=
  let skip : Int := getSkipHeight entry.height
  let prev : Int := getSkipHeight (entry.height + 1)
  let skipBetter := skip > height
  let prevBetter := prev < skip - 2 ∧ prev ≥ height
  if entry.skip ≠ 0 then
    if skip = height ∨ (skipBetter ∧ ¬ prevBetter) then entry.skip else entry.prevBlock
  else entry.prevBlock

/-- The loop of `get_ancestor`. -/
def walkAncestor (db : ChainDB) (height : Nat) : Nat → ChainEntry → Except Panic ChainEntry
  | fuel, entry =>
    if entry.height = height then .ok entry
    else match fuel with
      | 0 => .error .diverges
      | fuel + 1 =>
        match db.getEntryByHash (ancestorStep entry height) with
        | none => .error .ancestorMissing
        | some entry => walkAncestor db height fuel entry

/-- The ancestor of an entry at a height; each step of the loop lowers the height. -/
def getAncestor (db : ChainDB) (entry : ChainEntry) (height : Nat) : Except Panic ChainEntry :=
  if entry.height < height then .error .ancestorHeight
  else if db.isMainChain entry then do
    match ← db.getEntryByHeight height with
    | none => throw .ancestorMain
    | some entry => return entry
  else db.walkAncestor height entry.height entry

def getSkip (db : ChainDB) (entry : ChainEntry) : Except Panic ChainEntry :=
  db.getAncestor entry (getSkipHeight entry.height)

/-- The entry with the most chainwork in the tip index, which is read from its end: of
several such entries, the one read last. -/
def getMostWorkEntry (db : ChainDB) : Option ChainEntry :=
  db.db.chainWork.reverse.foldl (fun best next =>
    match best with
    | none => some next.2
    | some best => if next.2.chainwork < best.chainwork then some best else some next.2) none

/-! ### Staging and committing -/

/-- Stage a copy of the state record and an empty batch. -/
def start (db : ChainDB) : Except Panic ChainDB :=
  if db.pending.isSome then .error .startPending
  else .ok { db with pending := some db.state, entryCache := db.entryCache.clearBatch }

def commit (db : ChainDB) (batch : Batch) : Except Panic ChainDB :=
  match db.pending with
  | none => .error .noPending
  | some pending => .ok { db with
      pending := none
      db := db.db.writeBatch batch
      state := if pending.commited then pending else db.state
      entryCache := db.entryCache.writeBatch
      versionBitsCache := db.versionBitsCache.commit }

/-- The writes that bring a view to the coin column. -/
def saveView (view : CoinView) : Batch :=
  view.map.entries.map fun e =>
    if e.2.spent then .remove (.coin e.1) else .insert (.coin e.1) e.2

/-! ### Headers -/

def updateMostWork (db : ChainDB) (entry : ChainEntry) : ChainDB :=
  match db.mostWork with
  | none => { db with mostWork := some entry }
  | some mostWork =>
    if entry.chainwork > mostWork.chainwork then { db with mostWork := some entry }
    else if entry.chainwork = mostWork.chainwork ∧ entry.hash > mostWork.hash then
      { db with mostWork := some entry }
    else db

def saveEntry (db : ChainDB) (entry prev : ChainEntry) : Except Panic ChainDB := do
  let db ← db.start
  let hash := entry.hash
  let batch : Batch := [
    .insert (.height hash) entry.height,
    .insert (.entry hash) entry,
    .remove (.chainWork prev.chainwork prev.hash),
    .insert (.chainWork entry.chainwork hash) entry]
  let db := { db with entryCache := db.entryCache.insertHashBatch entry }
  let entry ←
    if entry.isGenesis then pure entry
    else do
      let skip ← db.getSkip entry
      pure { entry with skip := skip.hash }
  let nexts := db.getNextHashes prev.hash ++ [hash]
  let batch := batch ++ [.insert (.nextHashes prev.hash) nexts]
  let db ← db.commit batch
  return db.updateMostWork entry

/-! ### Blocks -/

def writeBlock (env : Env) (db : ChainDB) (hash : BlockHash) (block : Block) :
    Except Panic ChainDB := do
  let blocks ← db.blocks.writeBlock env hash block
  return { db with blocks := blocks, downloaded := insert hash db.downloaded }

/-- The input loop of `connect_block`. -/
def spendCoins (view : CoinView) : List TxIn → ChainState → Except Panic ChainState
  | [], pending => .ok pending
  | input :: inputs, pending =>
    match view.getOutput input.previousOutput with
    | none => .error .connectBlockNoCoin
    | some spent => spendCoins view inputs (pending.spend spent)

/-- The output loop of `connect_block`. -/
def addCoins (env : Env) (outputs : List TxOut) (pending : ChainState) : ChainState :=
  outputs.foldl (fun pending output =>
    if env.isProvablyUnspendable output.scriptPubkey then pending else pending.add output) pending

/-- The transaction loop of `connect_block` from transaction number `i` on. -/
def connectTransactions (env : Env) (view : CoinView) :
    List Transaction → Nat → ChainState → Except Panic ChainState
  | [], _, pending => .ok pending
  | tx :: txs, i, pending => do
    let pending ← if i > 0 then spendCoins view tx.input pending else pure pending
    connectTransactions env view txs (i + 1) (addCoins env tx.output pending)

def connectBlock (env : Env) (db : ChainDB) (entry : ChainEntry) (block : Block)
    (view : CoinView) : Except Panic (ChainDB × Batch) :=
  match db.pending with
  | none => .error .noPending
  | some pending => do
    let pending := pending.connect block
    if entry.isGenesis then
      return ({ db with pending := some pending }, [])
    let pending ← connectTransactions env view block.txdata 0 pending
    let batch := saveView view
    let blocks ←
      if view.undo.isEmpty then pure db.blocks else db.blocks.writeUndo entry.hash view.undo
    return ({ db with pending := some pending, blocks := blocks }, batch)

def connect (env : Env) (db : ChainDB) (entry : ChainEntry) (block : Block) (view : CoinView) :
    Except Panic ChainDB := do
  let db ← db.start
  let hash := env.blockHash block.header
  let next : Batch := if entry.isGenesis then [] else [.insert (.nextHash entry.prevBlock) hash]
  let cache := (db.entryCache.insertHeightBatch entry).insertHashBatch entry
  let (db, coins) ← connectBlock env { db with entryCache := cache } entry block view
  match db.pending with
  | none => throw .noPending
  | some pending =>
    let chainState := pending.commit hash
    let index : Batch := [.insert (.hash entry.height) hash]
    let state : Batch := [.insert .chainState chainState]
    { db with pending := some chainState }.commit (next ++ index ++ coins ++ state)

/-- The input loop of `disconnect_block`, over the inputs in reverse. -/
def restoreCoins : List TxIn → UndoCoins → CoinView → ChainState →
    Except Panic (UndoCoins × CoinView × ChainState)
  | [], undo, view, pending => .ok (undo, view, pending)
  | input :: inputs, undo, view, pending => do
    let (undo, view) ← undo.apply view input.previousOutput
    match view.getOutput input.previousOutput with
    | none => throw .disconnectNoCoin
    | some output => restoreCoins inputs undo view (pending.add output)

/-- The output loop of `disconnect_block`, over the outputs in reverse. -/
def dropCoins (env : Env) (outputs : List TxOut) (pending : ChainState) : ChainState :=
  outputs.foldl (fun pending output =>
    if env.isProvablyUnspendable output.scriptPubkey then pending else pending.spend output) pending

/-- The transaction loop of `disconnect_block`, over the numbered transactions in
reverse. -/
def disconnectTransactions (env : Env) (height : Nat) :
    List (Transaction × Nat) → UndoCoins → CoinView → ChainState →
      Except Panic (UndoCoins × CoinView × ChainState)
  | [], undo, view, pending => .ok (undo, view, pending)
  | (tx, i) :: txs, undo, view, pending => do
    let (undo, view, pending) ←
      if i > 0 then restoreCoins tx.input.reverse undo view pending
      else pure (undo, view, pending)
    let view := view.removeTx env tx height
    disconnectTransactions env height txs undo view (dropCoins env tx.output.reverse pending)

def disconnectBlock (env : Env) (db : ChainDB) (entry : ChainEntry) (block : Block) :
    Except Panic (ChainDB × Batch × CoinView) :=
  match db.blocks.readUndo entry.hash with
  | none => .error .undoMissing
  | some undo =>
    match db.pending with
    | none => .error .noPending
    | some pending => do
      let pending := pending.disconnect block
      let (undo, view, pending) ← disconnectTransactions env entry.height
        block.txdata.zipIdx.reverse undo CoinView.empty pending
      if !undo.isEmpty then throw .undoLeftOver
      return ({ db with pending := some pending }, saveView view, view)

def disconnect (env : Env) (db : ChainDB) (entry : ChainEntry) (block : Block) :
    Except Panic (ChainDB × CoinView) := do
  let db ← db.start
  let cache := db.entryCache.removeHeightBatch entry
  let (db, coins, view) ← disconnectBlock env { db with entryCache := cache } entry block
  match db.pending with
  | none => throw .noPending
  | some pending =>
    let chainState := pending.commit entry.prevBlock
    let index : Batch := [.remove (.nextHash entry.prevBlock), .remove (.hash entry.height)]
    let state : Batch := [.insert .chainState chainState]
    let db ← { db with pending := some chainState }.commit (index ++ coins ++ state)
    return (db, view)

/-! ### Opening a fresh database -/

def new (env : Env) : ChainDB where
  entryCache := .empty
  state := .default
  db := .empty
  pending := none
  invalid := ∅
  mostWork := none
  blocks := .empty
  versionBitsCache := .new env.network
  downloaded := ∅

def saveGenesis (env : Env) (db : ChainDB) : Except Panic ChainDB := do
  let entry := env.genesisEntry
  let db ← db.saveEntry entry ChainEntry.default
  let db ← db.writeBlock env entry.hash env.genesisBlock
  db.connect env entry env.genesisBlock CoinView.empty

/-- Open a database that holds no state record yet. -/
def openFresh (env : Env) : Except Panic ChainDB := do
  let db ← (new env).saveGenesis env
  return { db with mostWork := db.getMostWorkEntry }

end ChainDB

end BitcoinNode
