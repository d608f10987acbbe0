import BitcoinNode.Net.PeerManager
import BitcoinNode.Net.Requests

/-!
# Requests of the peer manager

Blocks, transactions and compact blocks that `net/peer_manager.rs` has asked its peers for.
Every handler runs as a whole. A panic ends the thread of one peer only, so a handler that
panics still leaves a state, that of the moment of the panic.
-/

namespace BitcoinNode

/-- The rest of a peer's state: what was asked of it besides blocks. -/
structure Peer.Requests where
  txMap : Finset GenericTxid
  compactBlocks : FMap BlockHash CompactBlock
  txRelay : TxRelay
  disconnect : Bool

def Peer.Requests.new : Peer.Requests := ⟨∅, ∅, .txid, false⟩

def Peer.State.new : Peer.State := ⟨false, none, ∅, ∅, none, none, true⟩

/-- The assertions on the sets of requests. -/
inductive Assertion where
  /-- `assert!(state.block_map.remove(&hash))` in `handle_block` and `resolve_block` -/
  | blockMapMissing
  /-- `assert!(self.state.write().verifying.remove(&hash.as_hash()))` in `handle_block` -/
  | verifyingMissing
  /-- `assert!(!state.block_map.contains(&hash))` in `handle_compact_block` -/
  | blockMapPresent
  /-- `assert!(peer_state.compact_blocks.insert(hash, block).is_none())` -/
  | compactPresent
  /-- `assert!(state.compact_blocks.remove(&hash))` in `handle_block_txn` -/
  | compactMissing
  /-- `assert!(state.tx_map.remove(gtxid))` in `resolve_tx` -/
  | txMapMissing
  deriving DecidableEq, Repr

/-- How a handler stops early: by returning an error, by one of the assertions, by a panic in
the `add_header` that `handle_compact_block` calls, or by any other panic. -/
inductive Halt where
  | error (e : HandleError)
  | assertion (a : Assertion)
  | addHeader (p : Panic)
  | panic (p : Panic)
  deriving DecidableEq, Repr

/-- The manager with all requests. `created` are the peers that were ever made and `joining`
those of them that `maintain_peers` has not put into `state.peers` yet. -/
structure RequestManager extends PeerManager where
  mempool : Option MemPool
  requests : PeerId → Peer.Requests
  txMap : Finset GenericTxid
  compactBlocks : Finset BlockHash
  created : Finset PeerId
  joining : Finset PeerId

namespace RequestManager

/-- How a handler ends. -/
abbrev Result : Type := Except Halt Unit

def withManager (m : RequestManager) (manager : PeerManager) : RequestManager :=
  { m with toPeerManager := manager }

/-- A handler of the manager without the other requests. What panics in it is the chain, before
a set is written. -/
def lift (m : RequestManager) :
    Except Panic (PeerManager × Except HandleError Unit) → RequestManager × Result
  | .error p => (m, .error (.panic p))
  | .ok (manager, .error e) => (m.withManager manager, .error (.error e))
  | .ok (manager, .ok _) => (m.withManager manager, .ok ())

def setBlockMap (m : RequestManager) (peer : PeerId) (blockMap : Finset BlockHash) :
    RequestManager :=
  { m with peers := Function.update m.peers peer { m.peers peer with blockMap := blockMap } }

def setRequests (m : RequestManager) (peer : PeerId) (requests : Peer.Requests) :
    RequestManager :=
  { m with requests := Function.update m.requests peer requests }

def getNextBlocks (now : Nat) (m : RequestManager) : RequestManager × Result :=
  m.lift (m.toPeerManager.getNextBlocks now)

def handleHeaders (env : Env) (clock : Nat → Nat) (m : RequestManager) (peer : PeerId)
    (headers : List BlockHeader) : RequestManager × Result :=
  m.lift (m.toPeerManager.handleHeaders env clock peer headers)

/-! ## Transactions -/

/-- The loop of `handle_inv`. -/
def invLoop (peer : PeerId) :
    List Inventory → RequestManager → List GenericTxid → RequestManager × List GenericTxid
  | [], m, gtxids => (m, gtxids)
  | item :: items, m, gtxids =>
    match item.gtxid with
    | none => invLoop peer items m gtxids
    | some gtxid =>
      if gtxid ∈ m.txMap then invLoop peer items m gtxids
      else
        let state := m.peers peer
        let requests := m.requests peer
        let m := { m with
          peers := Function.update m.peers peer
            { state with invFilter := insert gtxid.hash state.invFilter }
          txMap := insert gtxid m.txMap }
        invLoop peer items
          (m.setRequests peer { requests with txMap := insert gtxid requests.txMap })
          (gtxids ++ [gtxid])

def handleInv (now : Nat) (m : RequestManager) (peer : PeerId) (items : List Inventory) :
    RequestManager × Result :=
  if !m.chain.synced now m.maxTipAge then (m, .ok ())
  else
    let (m, gtxids) := invLoop peer items m []
    if gtxids.isEmpty then (m, .ok ())
    else m.lift (.ok (m.send peer (.getData (gtxids.map GenericTxid.item))))

def handleTx (env : Env) (lib : Bip152) (now : Nat) (m : RequestManager) (peer : PeerId)
    (tx : Transaction) : RequestManager × Result :=
  let requests := m.requests peer
  let gtxid := requests.txRelay.gtxid env lib tx
  if gtxid ∉ requests.txMap then (m, .ok ())
  else
    let m := m.setRequests peer { requests with txMap := requests.txMap.erase gtxid }
    match m.mempool with
    | none => (m, .ok ())
    | some mempool =>
      match mempool.addTx env m.chain now tx with
      | .error p => (m, .error (.panic p))
      | .ok (mempool, _) => ({ m with mempool := some mempool }, .ok ())

/-! ## Blocks -/

/-- The part of `handle_block` after the block was taken out of the sets. -/
def verifyBlock (env : Env) (now : Nat) (m : RequestManager) (block : Block) :
    RequestManager × Result :=
  let hash := env.blockHash block.header
  let m := { m with verifying := insert hash m.verifying }
  match m.chain.add env now block with
  | .error p => (m, .error (.panic p))
  | .ok (chain, .error _) => ({ m with chain := chain }, .error (.panic .addBlockUnwrap))
  | .ok (chain, .ok _) =>
    if hash ∉ m.verifying then ({ m with chain := chain }, .error (.assertion .verifyingMissing))
    else { m with chain := chain, verifying := m.verifying.erase hash }.getNextBlocks now

def handleBlock (env : Env) (now : Nat) (m : RequestManager) (peer : PeerId) (block : Block) :
    RequestManager × Result :=
  let hash := env.blockHash block.header
  let state := m.peers peer
  if hash ∉ state.blockMap then (m, .error (.error .unrequestedBlock))
  else
    let requested := decide (hash ∈ m.blockMap)
    let m := m.setBlockMap peer (state.blockMap.erase hash)
    if !requested then (m, .error (.assertion .blockMapMissing))
    else { m with blockMap := m.blockMap.erase hash }.verifyBlock env now block

/-- `handle_block` on a block that was put together. -/
def handleFull (env : Env) (now : Nat) (m : RequestManager) (peer : PeerId) (c : CompactBlock) :
    RequestManager × Result :=
  match c.toBlock with
  | .error p => (m, .error (.panic p))
  | .ok block => m.handleBlock env now peer block

/-- The compact block with what the pool has of it, and whether that is all; `txs` are the
transactions of the pool in the order of iteration. -/
def openBlock (lib : Bip152) (m : RequestManager) (compact : HeaderAndShortIds)
    (txs : List Transaction) : Except Panic (Option (CompactBlock × Bool)) := do
  let block ← CompactBlock.new lib compact
  return block.map fun block =>
    if m.mempool.isSome then block.fillMempool lib txs else (block, false)

/-- The part of `handle_compact_block` after the header was added. -/
def openCompactBlock (env : Env) (lib : Bip152) (now : Nat) (m : RequestManager) (peer : PeerId)
    (compact : HeaderAndShortIds) (txs : List Transaction) : RequestManager × Result :=
  let hash := env.blockHash compact.header
  match m.openBlock lib compact txs with
  | .error p => (m, .error (.panic p))
  | .ok none => (m, .error (.error .siphashCollision))
  | .ok (some (block, full)) =>
    if full then m.handleFull env now peer block
    else
      let requests := m.requests peer
      if requests.compactBlocks.keys.card ≥ 15 then (m, .error (.error .compactBlockDos))
      else
        let request := block.intoBlockTransactionsRequest lib
        let present := decide (hash ∈ requests.compactBlocks)
        let m := m.setRequests peer
          { requests with compactBlocks := requests.compactBlocks.insert hash block }
        if present then (m, .error (.assertion .compactPresent))
        else
          let m := { m with compactBlocks := insert hash m.compactBlocks }
          m.lift (.ok (m.send peer (.getBlockTxn request.blockHash request.indexes)))

/-- Note the block as asked of the peer, unless it was. -/
def askBlock (m : RequestManager) (peer : PeerId) (hash : BlockHash) :
    RequestManager × Except Assertion Unit :=
  let state := m.peers peer
  if hash ∈ state.blockMap then (m, .ok ())
  else
    let requested := decide (hash ∈ m.blockMap)
    let m := m.setBlockMap peer (insert hash state.blockMap)
    if requested then (m, .error .blockMapPresent)
    else ({ m with blockMap := insert hash m.blockMap }, .ok ())

/-- The part of `handle_compact_block` after the block was noted. -/
def addCompactBlock (env : Env) (lib : Bip152) (now : Nat) (m : RequestManager) (peer : PeerId)
    (compact : HeaderAndShortIds) (txs : List Transaction) : RequestManager × Result :=
  match m.chain.addHeader env now compact.header with
  | .error p => (m, .error (.addHeader p))
  | .ok (chain, .error _) => ({ m with chain := chain }, .error (.error .invalidCompactBlock))
  | .ok (chain, .ok _) => { m with chain := chain }.openCompactBlock env lib now peer compact txs

def handleCompactBlock (env : Env) (lib : Bip152) (now : Nat) (m : RequestManager)
    (peer : PeerId) (compact : HeaderAndShortIds) (txs : List Transaction) :
    RequestManager × Result :=
  let hash := env.blockHash compact.header
  if hash ∈ (m.requests peer).compactBlocks then (m, .ok ())
  else if hash ∈ m.compactBlocks then (m, .ok ())
  else
    match m.askBlock peer hash with
    | (m, .error a) => (m, .error (.assertion a))
    | (m, .ok _) => m.addCompactBlock env lib now peer compact txs

def handleBlockTxn (env : Env) (now : Nat) (m : RequestManager) (peer : PeerId)
    (transactions : List Transaction) (hash : BlockHash) : RequestManager × Result :=
  let requests := m.requests peer
  match requests.compactBlocks.lookup hash with
  | none => (m, .ok ())
  | some block =>
    let m := m.setRequests peer { requests with compactBlocks := requests.compactBlocks.erase hash }
    if hash ∉ m.compactBlocks then (m, .error (.assertion .compactMissing))
    else
      let m := { m with compactBlocks := m.compactBlocks.erase hash }
      let (block, full) := block.fillMissing transactions
      if !full then (m, .error (.error .nonFullBlocktxn))
      else m.handleFull env now peer block

/-! ## Items that were not found -/

/-- `resolve_block`, and whether the block was asked for. -/
def resolveBlock (m : RequestManager) (peer : PeerId) (hash : BlockHash) :
    RequestManager × Except Assertion Bool :=
  let state := m.peers peer
  if hash ∉ state.blockMap then (m, .ok false)
  else
    let requested := decide (hash ∈ m.blockMap)
    let m := m.setBlockMap peer (state.blockMap.erase hash)
    if !requested then (m, .error .blockMapMissing)
    else ({ m with blockMap := m.blockMap.erase hash }, .ok true)

/-- `resolve_tx`, and whether the transaction was asked for. -/
def resolveTx (m : RequestManager) (peer : PeerId) (gtxid : GenericTxid) :
    RequestManager × Except Assertion Bool :=
  let requests := m.requests peer
  if gtxid ∉ requests.txMap then (m, .ok false)
  else
    let m := m.setRequests peer { requests with txMap := requests.txMap.erase gtxid }
    if gtxid ∉ m.txMap then (m, .error .txMapMissing)
    else ({ m with txMap := m.txMap.erase gtxid }, .ok true)

def resolveItem (m : RequestManager) (peer : PeerId) :
    Inventory → RequestManager × Except Assertion Bool
  | .error | .unknown _ _ => (m, .ok false)
  | .transaction txid | .witnessTransaction txid => m.resolveTx peer ⟨txid, false⟩
  | .wTx wtxid => m.resolveTx peer ⟨wtxid, true⟩
  | .block hash | .filteredBlock hash | .compactBlock hash | .witnessBlock hash
  | .witnessFilteredBlock hash => m.resolveBlock peer hash

/-- `handle_not_found`: it goes on behind an item of an unknown kind and returns at any other
that was not asked for. -/
def handleNotFound (peer : PeerId) : List Inventory → RequestManager → RequestManager × Result
  | [], m => (m, .ok ())
  | item :: items, m =>
    match m.resolveItem peer item with
    | (m, .error a) => (m, .error (.assertion a))
    | (m, .ok true) => handleNotFound peer items m
    | (m, .ok false) =>
      match item with
      | .error | .unknown _ _ => handleNotFound peer items m
      | .wTx _ => (m, .error (.panic .notFoundWtxid))
      | _ => (m, .ok ())

/-! ## Peers -/

/-- The loop over the peers in `maintain_peers`: one that is to be disconnected is taken out,
and its blocks are drained. -/
def removePeers (m : RequestManager) : RequestManager :=
  let gone := m.listed.filter fun peer => (m.requests peer).disconnect
  { m with
    listed := m.listed.filter fun peer => !(m.requests peer).disconnect
    blockMap := m.blockMap \ gone.toFinset.biUnion fun peer => (m.peers peer).blockMap
    peers := fun peer =>
      if peer ∈ gone then { m.peers peer with blockMap := ∅ } else m.peers peer }

/-- `state.peers.insert`: a peer that was connected under the same address is dropped; `order`
is the order of iteration from then on. -/
def insertPeer (m : RequestManager) (peer : PeerId) (order : List PeerId) : RequestManager :=
  { m with listed := order, joining := m.joining.erase peer }

/-- What is not about requests, and is written by other messages and threads. -/
structure Other where
  chain : Chain
  mempool : Option MemPool
  ack : Bool
  sendCompact : Option Bool
  connected : Bool
  txRelay : TxRelay
  disconnect : Bool

def other (m : RequestManager) (peer : PeerId) (o : Other) : RequestManager :=
  { m with
    chain := o.chain
    mempool := o.mempool
    peers := Function.update m.peers peer { m.peers peer with
      ack := o.ack, sendCompact := o.sendCompact, connected := o.connected } }.setRequests peer
    { m.requests peer with txRelay := o.txRelay, disconnect := o.disconnect }

/-! ## Acts -/

/-- A handler, the removal of peers, or another change. -/
inductive Act where
  | create (peer : PeerId)
  | insertPeer (peer : PeerId) (old : Option PeerId) (order : List PeerId)
  | handleInv (peer : PeerId) (now : Nat) (items : List Inventory)
  | handleTx (peer : PeerId) (now : Nat) (tx : Transaction)
  | handleHeaders (peer : PeerId) (clock : Nat → Nat) (headers : List BlockHeader)
  | handleBlock (peer : PeerId) (now : Nat) (block : Block)
  | handleCompactBlock (peer : PeerId) (now : Nat) (compact : HeaderAndShortIds)
    (txs : List Transaction)
  | handleBlockTxn (peer : PeerId) (now : Nat) (transactions : List Transaction)
    (hash : BlockHash)
  | handleNotFound (peer : PeerId) (items : List Inventory)
  | getNextBlocks (now : Nat)
  | removePeers
  | other (peer : PeerId) (o : Other)

/-- The transactions are those of the pool in some order. -/
def Iterates (m : RequestManager) (txs : List Transaction) : Prop :=
  ∀ mempool ∈ m.mempool, (txs : Multiset Transaction) = mempool.transactions.entries.map (·.2.tx)

instance (m : RequestManager) (txs : List Transaction) : Decidable (m.Iterates txs) :=
  inferInstanceAs (Decidable (∀ mempool ∈ m.mempool, _))

/-- One act, where it is possible, and how it ends. The thread of a peer may still handle a
message before the peer is listed and after it was removed. -/
def act (env : Env) (lib : Bip152) (m : RequestManager) : Act → Option (RequestManager × Result)
  | .create peer =>
    if peer ∈ m.created then none
    else some ({ m with
      created := insert peer m.created
      joining := insert peer m.joining
      peers := Function.update m.peers peer .new }.setRequests peer .new, .ok ())
  | .insertPeer peer old order =>
    if peer ∈ m.joining ∧ (∀ p ∈ old, p ∈ m.listed)
        ∧ order.Perm (peer :: m.listed.filter fun p => old ≠ some p) then
      some (m.insertPeer peer order, .ok ())
    else none
  | .handleInv peer now items =>
    if peer ∈ m.created then some (m.handleInv now peer items) else none
  | .handleTx peer now tx =>
    if peer ∈ m.created then some (m.handleTx env lib now peer tx) else none
  | .handleHeaders peer clock headers =>
    if peer ∈ m.created then some (m.handleHeaders env clock peer headers) else none
  | .handleBlock peer now block =>
    if peer ∈ m.created then some (m.handleBlock env now peer block) else none
  | .handleCompactBlock peer now compact txs =>
    if peer ∈ m.created ∧ m.Iterates txs then
      some (m.handleCompactBlock env lib now peer compact txs)
    else none
  | .handleBlockTxn peer now transactions hash =>
    if peer ∈ m.created then some (m.handleBlockTxn env now peer transactions hash) else none
  | .handleNotFound peer items =>
    if peer ∈ m.created then some (handleNotFound peer items m) else none
  | .getNextBlocks now => some (m.getNextBlocks now)
  | .removePeers => some (m.removePeers, .ok ())
  | .other peer o => some (m.other peer o, .ok ())

/-- The manager that `PeerManager::new` makes. -/
def new (chain : Chain) (mempool : Option MemPool) (maxTipAge : Nat) : RequestManager where
  chain := chain
  peers := fun _ => .new
  listed := []
  blockMap := ∅
  verifying := ∅
  maxTipAge := maxTipAge
  sent := []
  mempool := mempool
  requests := fun _ => .new
  txMap := ∅
  compactBlocks := ∅
  created := ∅
  joining := ∅

end RequestManager

end BitcoinNode
