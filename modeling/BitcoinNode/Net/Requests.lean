import BitcoinNode.Mempool.MemPool
import BitcoinNode.Net.CompactBlock
import BitcoinNode.Net.NewPeerManager

/-!
# Requests of the new peer manager

Blocks and transactions under way in `net/new_peer_manager.rs`. The tasks of the manager are
the loop that serves a peer, the one that resolves headers and the thread that adds blocks
and transactions. They take turns between their locks: an act is what a task does under one.
-/

namespace BitcoinNode

/-- The id of a transaction, with its witness or without. -/
structure GenericTxid where
  hash : Nat
  wtxid : Bool
  deriving DecidableEq, Repr

inductive TxRelay where
  | txid | wtxid
  deriving DecidableEq, Repr

/-- What items of an inventory are about. -/
def Inventory.gtxid : Inventory → Option GenericTxid
  | .transaction txid => some ⟨txid, false⟩
  | .wTx wtxid => some ⟨wtxid, true⟩
  | _ => none

/-- The item with which a transaction is asked for in `get_transactions`. -/
def GenericTxid.item (gtxid : GenericTxid) : Inventory :=
  if gtxid.wtxid then .wTx gtxid.hash else .witnessTransaction gtxid.hash

def TxRelay.gtxid (env : Env) (lib : Bip152) (relay : TxRelay) (tx : Transaction) : GenericTxid :=
  match relay with
  | .txid => ⟨env.txid tx, false⟩
  | .wtxid => ⟨lib.wtxid tx, true⟩

/-- The state of a peer that requests read and change. -/
structure NewPeer.Requests where
  handshake : Bool
  txRelay : TxRelay
  commonHeight : Option Nat
  commonHash : Option BlockHash
  requestedBlocks : FMap BlockHash Nat
  requestedTransactions : Finset GenericTxid
  stallingSince : Option Nat
  blockTime : Option Nat
  disconnected : Bool

/-- `State::default()` of a peer -/
def NewPeer.Requests.new : NewPeer.Requests where
  handshake := false
  txRelay := .txid
  commonHeight := none
  commonHash := none
  requestedBlocks := ∅
  requestedTransactions := ∅
  stallingSince := none
  blockTime := none
  disconnected := false

/-- What the thread that adds is asked for; the peer is the one that waits for the answer. -/
inductive AddEvent where
  | addBlock (block : Block) (peer : PeerId)
  | attach (entry : ChainEntry)
  | addTransaction (tx : Transaction) (peer : PeerId)
  deriving DecidableEq

/-- What the handler of a message waits for, and the answer once it is there. -/
inductive Awaiting where
  | block (hash : BlockHash) (accepted : Option Bool)
  | transaction (gtxid : GenericTxid) (accepted : Option Bool)
  deriving DecidableEq

namespace Awaiting

def answer (accepted : Bool) : Awaiting → Awaiting
  | block hash _ => block hash (some accepted)
  | transaction gtxid _ => transaction gtxid (some accepted)

def answered : Awaiting → Bool
  | block _ accepted => accepted.isSome
  | transaction _ accepted => accepted.isSome

/-- The hash that the handler put into `verifying`. -/
def hash : Awaiting → Nat
  | block hash _ => hash
  | transaction gtxid _ => gtxid.hash

end Awaiting

/-- Where the task that resolves headers stands in `get_next_blocks`. -/
inductive Resolver where
  | idle
  | attaching (peer : PeerId) (items : List BlockHash)
  | booking (peer : PeerId) (items : List BlockHash)
  deriving DecidableEq

/-- The resolver once a block has been attached. -/
def Resolver.attached : Resolver → Resolver
  | .attaching peer items => if items.isEmpty then .idle else .booking peer items
  | resolver => resolver

theorem Resolver.attached_ne_attaching {r : Resolver} {peer : PeerId} {items : List BlockHash} :
    r.attached ≠ .attaching peer items := by
  cases r <;> grind [Resolver.attached]

theorem Resolver.attached_eq_booking {r : Resolver} {peer : PeerId} {items : List BlockHash}
    (h : r.attached = .booking peer items) :
    r = .attaching peer items ∨ r = .booking peer items := by
  cases r <;> grind [Resolver.attached]

def BLOCK_DOWNLOAD_WINDOW : Nat := 1024
def MAX_BLOCKS_PER_PEER : Nat := 16

/-- The manager with its requests and its tasks. A peer is named by its address; `seen` are
the addresses that a connection was made to, `listed` those of `state.peers`. -/
structure SyncManager extends NewPeerManager where
  mempool : Option MemPool
  maxTipAge : Nat
  requests : PeerId → NewPeer.Requests
  listed : Finset PeerId
  headerSyncPeer : Option PeerId
  requestedBlocks : FMap BlockHash PeerId
  requestedTransactions : Finset GenericTxid
  verifying : Finset Nat
  seen : Finset PeerId
  handshaking : Finset PeerId
  running : Finset PeerId
  awaiting : PeerId → Option Awaiting
  resolver : Resolver
  queue : List AddEvent

namespace SyncManager

def update (m : SyncManager) (peer : PeerId) (state : NewPeer.Requests) : SyncManager :=
  { m with requests := Function.update m.requests peer state }

def queueMessage (m : SyncManager) (peer : PeerId) (message : NetworkMessage) : SyncManager :=
  { m with outbox := m.outbox ++ [(peer, message)] }

/-! ## Choosing blocks -/

/-- The variables of `get_next_blocks`, with the part of the peer's state that it writes. -/
structure Fetch where
  items : List BlockHash
  saved : List ChainEntry
  waiting : Option PeerId
  staller : Option PeerId
  commonHash : Option BlockHash
  commonHeight : Option Nat

/-- How the loop over one path ends: by going on to the next path, with enough blocks, or by
returning from `get_next_blocks`. -/
inductive Flow where
  | next | filled | returned
  deriving DecidableEq

/-- The loop over one path. -/
def scan (m : SyncManager) (peer : PeerId) (endHeight blocksToFetch : Nat) :
    List ChainEntry → Fetch → Fetch × Flow
  | [], f => (f, .next)
  | entry :: entries, f =>
    if entry.hash ∈ m.requestedBlocks then
      scan m peer endHeight blocksToFetch entries
        (if f.waiting.isNone then { f with waiting := m.requestedBlocks.lookup entry.hash } else f)
    else if m.chain.db.hasInvalid entry.hash then (f, .returned)
    else if m.chain.db.isMainChain entry then
      scan m peer endHeight blocksToFetch entries
        { f with commonHash := some entry.hash, commonHeight := some entry.height }
    else if entry.hash ∈ m.verifying then scan m peer endHeight blocksToFetch entries f
    else if m.chain.db.hasBlock entry.hash then
      scan m peer endHeight blocksToFetch entries { f with saved := f.saved ++ [entry] }
    else if entry.height > endHeight ∧ f.items.isEmpty ∧ f.waiting ≠ some peer then
      ({ f with staller := f.waiting }, .next)
    else
      let f := if entry.height > endHeight then f else { f with items := f.items ++ [entry.hash] }
      if f.items.length ≥ blocksToFetch then (f, .filled)
      else scan m peer endHeight blocksToFetch entries f

/-- The loop over paths of `MAX_BLOCKS_PER_PEER` entries; whether it returned. -/
def walk (m : SyncManager) (peer : PeerId) (best : ChainEntry)
    (endHeight maxHeight blocksToFetch : Nat) :
    Nat → ChainEntry → Fetch → Except Panic (Fetch × Bool)
  | fuel, walker, f =>
    if walker.height < maxHeight then
      match fuel with
      | 0 => .error .diverges
      | fuel + 1 => do
        let entries ← m.chain.db.getNextPath best walker.height MAX_BLOCKS_PER_PEER
        match entries.getLast? with
        | none => return (f, false)
        | some last =>
          match m.scan peer endHeight blocksToFetch entries f with
          | (f, .returned) => return (f, true)
          | (f, .filled) => return (f, false)
          | (f, .next) => walk m peer best endHeight maxHeight blocksToFetch fuel last f
    else .ok (f, false)

/-- The last block that the peer and the chain are known to have in common. -/
def commonEntry (m : SyncManager) (peer : PeerId) (best : ChainEntry) :
    Except Panic ChainEntry := do
  let hash ← match (m.requests peer).commonHash with
    | some hash => pure hash
    | none =>
      match ← m.chain.db.getEntryByHeight (min m.chain.height best.height) with
      | none => throw .commonHeight
      | some entry => pure entry.hash
  match m.chain.db.getEntryByHash hash with
  | none => throw .commonHash
  | some walker =>
    match ← m.chain.commonAncestor walker best with
    | none => throw .commonAncestor
    | some walker => return walker

/-- `get_next_blocks` up to its first `await`, or up to the call of `get_block`: the blocks to
attach and to ask for, unless it returns, and the peer that stalls the window. -/
def getNextBlocks (m : SyncManager) (peer : PeerId) (best : ChainEntry) :
    Except Panic (SyncManager × Option (List ChainEntry × List BlockHash) × Option PeerId) :=
  let blocksToFetch := MAX_BLOCKS_PER_PEER - (m.requests peer).requestedBlocks.keys.card
  if blocksToFetch = 0 then .ok (m, none, none)
  else do
    let walker ← m.commonEntry peer best
    let endHeight := walker.height + BLOCK_DOWNLOAD_WINDOW
    let (f, returned) ← m.walk peer best endHeight (min best.height (endHeight + 1)) blocksToFetch
      (best.height + 1) walker ⟨[], [], none, none, some walker.hash, some walker.height⟩
    let m := m.update peer { m.requests peer with
      commonHash := f.commonHash, commonHeight := f.commonHeight }
    return (m, if returned then none else some (f.saved, f.items), f.staller)

/-! ## Booking blocks -/

/-- Note that a block was asked of a peer. -/
def book (now : Nat) (m : SyncManager) (peer : PeerId) (hash : BlockHash) : SyncManager :=
  let state := m.requests peer
  { m with requestedBlocks := m.requestedBlocks.insert hash peer }.update peer
    { state with requestedBlocks := state.requestedBlocks.insert hash now }

/-- The loop of `get_block`. -/
def bookLoop (now : Nat) (peer : PeerId) :
    List BlockHash → SyncManager → List BlockHash → SyncManager × List BlockHash
  | [], m, items => (m, items)
  | hash :: hashes, m, items =>
    if hash ∈ m.verifying ∨ hash ∈ m.requestedBlocks ∨ m.chain.db.hasBlock hash then
      bookLoop now peer hashes m items
    else bookLoop now peer hashes (m.book now peer hash) (items ++ [hash])

def getBlock (now : Nat) (m : SyncManager) (peer : PeerId) (hashes : List BlockHash) :
    SyncManager :=
  if (m.requests peer).disconnected then m
  else
    let (m, items) := bookLoop now peer hashes m []
    if items.isEmpty then m
    else
      let m := m.queueMessage peer (.getData (items.map .witnessBlock))
      m.update peer { m.requests peer with blockTime := some now }

/-! ## Handlers -/

/-- The loop that serves the peer stops; a handler that waits is dropped. -/
def stop (m : SyncManager) (peer : PeerId) : SyncManager :=
  { m with
    running := m.running.erase peer
    awaiting := Function.update m.awaiting peer none }

/-- `handle_block` up to its `await`. -/
def handleBlock (env : Env) (now : Nat) (m : SyncManager) (peer : PeerId) (block : Block) :
    Except Panic (SyncManager × Except HandleError Unit) :=
  let hash := env.blockHash block.header
  let state := m.requests peer
  if hash ∉ state.requestedBlocks then .ok (m, .error .unrequestedBlock)
  else if hash ∉ m.requestedBlocks then .error .requestedBlock
  else if hash ∈ m.verifying then .error .verifyingTwice
  else
    let m := m.update peer { state with
      requestedBlocks := state.requestedBlocks.erase hash
      blockTime := some now
      stallingSince := none }
    .ok ({ m with
      requestedBlocks := m.requestedBlocks.erase hash
      verifying := insert hash m.verifying
      awaiting := Function.update m.awaiting peer (some (.block hash none))
      queue := m.queue ++ [.addBlock block peer] }, .ok ())

def mempoolHasTx (m : SyncManager) (gtxid : GenericTxid) : Bool :=
  m.mempool.any fun mempool => gtxid.hash ∈ mempool.transactions

/-- `handle_tx` up to its `await`. -/
def handleTx (env : Env) (lib : Bip152) (m : SyncManager) (peer : PeerId) (tx : Transaction) :
    SyncManager × Except HandleError Unit :=
  let state := m.requests peer
  let gtxid := state.txRelay.gtxid env lib tx
  if m.mempoolHasTx gtxid then (m, .ok ())
  else if gtxid ∉ state.requestedTransactions then (m, .error .unrequestedTransaction)
  else
    let m := m.update peer { state with
      requestedTransactions := state.requestedTransactions.erase gtxid }
    ({ m with
      requestedTransactions := m.requestedTransactions.erase gtxid
      verifying := insert gtxid.hash m.verifying
      awaiting := Function.update m.awaiting peer (some (.transaction gtxid none))
      queue := m.queue ++ [.addTransaction tx peer] }, .ok ())

/-- Note that a transaction was asked of a peer. -/
def request (m : SyncManager) (peer : PeerId) (gtxid : GenericTxid) : SyncManager :=
  let state := m.requests peer
  { m with requestedTransactions := insert gtxid m.requestedTransactions }.update peer
    { state with requestedTransactions := insert gtxid state.requestedTransactions }

/-- The loop of `handle_inv`. -/
def invLoop (peer : PeerId) :
    List Inventory → SyncManager → List GenericTxid → SyncManager × List GenericTxid
  | [], m, gtxids => (m, gtxids)
  | item :: items, m, gtxids =>
    match item.gtxid with
    | none => invLoop peer items m gtxids
    | some gtxid =>
      if gtxid ∈ m.requestedTransactions ∨ gtxid.hash ∈ m.verifying ∨ m.mempoolHasTx gtxid then
        invLoop peer items m gtxids
      else invLoop peer items (m.request peer gtxid) (gtxids ++ [gtxid])

def handleInv (now : Nat) (m : SyncManager) (peer : PeerId) (items : List Inventory) :
    SyncManager :=
  if !m.chain.synced now m.maxTipAge then m
  else
    let (m, gtxids) := invLoop peer items m []
    if gtxids.isEmpty then m
    else m.queueMessage peer (.getData (gtxids.map GenericTxid.item))

/-- The rest of a handler once the answer it waits for is there. -/
def finish (m : SyncManager) (peer : PeerId) : SyncManager × Except HandleError Unit :=
  let resumed := { m with awaiting := Function.update m.awaiting peer none }
  match m.awaiting peer with
  | some (.block hash (some true)) =>
    ({ resumed with verifying := m.verifying.erase hash, resolveHeaders := true }, .ok ())
  | some (.block _ (some false)) => (resumed, .error .invalidBlock)
  | some (.transaction _ (some _)) => (resumed, .ok ())
  | _ => (m, .ok ())

/-! ## The thread that adds -/

/-- Answer the handler of a peer, unless it was dropped. -/
def answer (m : SyncManager) (peer : PeerId) (accepted : Bool) : SyncManager :=
  let awaiting := (m.awaiting peer).map (Awaiting.answer accepted)
  { m with awaiting := Function.update m.awaiting peer awaiting }

def addEvent (env : Env) (now : Nat) (m : SyncManager) : AddEvent → Except Panic SyncManager
  | .addBlock block peer => do
    let (chain, added) ← m.chain.add env now block
    return { m with chain := chain }.answer peer added.isOk
  | .attach entry => do
    let (chain, attached) ← m.chain.attach env entry
    match attached with
    | .error _ => throw .attachNoPrevious
    | .ok _ =>
      return { m with chain := chain, resolveHeaders := true, resolver := m.resolver.attached }
  | .addTransaction tx peer =>
    match m.mempool with
    | none => return m.answer peer true
    | some mempool => do
      let (mempool, added) ← mempool.addTx env m.chain now tx
      return { m with mempool := some mempool }.answer peer added.isOk

/-! ## Connections -/

/-- `Peer::disconnect`, and what `run_peer` does when its loop has ended. -/
def disconnect (m : SyncManager) (peer : PeerId) : SyncManager :=
  m.update peer { m.requests peer with disconnected := true }

/-- `peer_disconnected` under its lock; `next` is the peer chosen to sync headers from. -/
def peerDisconnected (m : SyncManager) (peer : PeerId) (next : Option PeerId) : SyncManager :=
  let state := m.requests peer
  let m := { m with
    listed := m.listed.erase peer
    requestedBlocks := FMap.eraseKeys m.requestedBlocks state.requestedBlocks }
  let m := m.update peer { state with requestedBlocks := ∅ }
  let headerSyncPeer := if m.headerSyncPeer = some peer then none else m.headerSyncPeer
  { m with headerSyncPeer := headerSyncPeer.or next }

/-! ## Acts -/

/-- What a task does next. Everything that other tasks do to the chain, the pool and the rest
of the manager is `other`. -/
inductive Act where
  | connect (peer : PeerId)
  | handshakeComplete (peer : PeerId) (txRelay : TxRelay)
  | handshakeFailed (peer : PeerId)
  | getNextBlocks (peer : PeerId) (best : ChainEntry)
  | getBlock (now : Nat)
  | handleBlock (peer : PeerId) (now : Nat) (block : Block)
  | handleTx (peer : PeerId) (tx : Transaction)
  | handleInv (peer : PeerId) (now : Nat) (items : List Inventory)
  | add (now : Nat)
  | finish (peer : PeerId)
  | disconnect (peer : PeerId)
  | drop (peer : PeerId)
  | disconnected (peer : PeerId)
  | peerDisconnected (peer : PeerId) (next : Option PeerId)
  | other (manager : NewPeerManager) (mempool : Option MemPool)

/-- The loop that serves a peer ends with the first error. -/
def handled (peer : PeerId) : SyncManager × Except HandleError Unit → SyncManager
  | (m, .ok _) => m
  | (m, .error _) => m.stop peer

/-- The loop that serves the peer is waiting for its next message. -/
def Listening (m : SyncManager) (peer : PeerId) : Prop :=
  peer ∈ m.running ∧ m.awaiting peer = none

instance (m : SyncManager) (peer : PeerId) : Decidable (m.Listening peer) :=
  inferInstanceAs (Decidable (_ ∧ _))

/-- The resolver after its choice of blocks. -/
def resolve (m : SyncManager) (peer : PeerId) :
    Option (List ChainEntry × List BlockHash) → SyncManager
  | none => m
  | some (entry :: _, items) =>
    { m with resolver := .attaching peer items, queue := m.queue ++ [.attach entry] }
  | some ([], items) => if items.isEmpty then m else { m with resolver := .booking peer items }

/-- One act, where it is possible. An address is connected to once; the peers to choose blocks
for have shaken hands, and the task that chooses is one. -/
def act (env : Env) (lib : Bip152) (m : SyncManager) : Act → Except Panic (Option SyncManager)
  | .connect peer =>
    if peer ∈ m.seen then .ok none
    else .ok <| some <| { m with
      seen := insert peer m.seen
      listed := insert peer m.listed
      handshaking := insert peer m.handshaking }.update peer .new
  | .handshakeComplete peer txRelay =>
    if peer ∈ m.handshaking then
      .ok <| some <| { m with
        handshaking := m.handshaking.erase peer
        running := insert peer m.running
        headerSyncPeer := m.headerSyncPeer.or (some peer)
        resolveHeaders := true }.update peer
          { m.requests peer with handshake := true, txRelay := txRelay }
    else .ok none
  | .handshakeFailed peer =>
    if peer ∈ m.handshaking then
      .ok (some { m with
        handshaking := m.handshaking.erase peer, listed := m.listed.erase peer })
    else .ok none
  | .getNextBlocks peer best =>
    if m.resolver = .idle ∧ (m.requests peer).handshake then do
      let (m, next, _) ← m.getNextBlocks peer best
      return some (m.resolve peer next)
    else .ok none
  | .getBlock now =>
    match m.resolver with
    | .booking peer items => .ok (some ({ m with resolver := .idle }.getBlock now peer items))
    | _ => .ok none
  | .handleBlock peer now block =>
    if m.Listening peer then do
      let result ← m.handleBlock env now peer block
      return some (handled peer result)
    else .ok none
  | .handleTx peer tx =>
    if m.Listening peer then .ok (some (handled peer (m.handleTx env lib peer tx))) else .ok none
  | .handleInv peer now items =>
    if m.Listening peer then .ok (some (m.handleInv now peer items)) else .ok none
  | .add now =>
    match m.queue with
    | [] => .ok none
    | event :: queue => do
      let m ← { m with queue := queue }.addEvent env now event
      return some m
  | .finish peer =>
    if (m.awaiting peer).any Awaiting.answered then .ok (some (handled peer (m.finish peer)))
    else .ok none
  | .disconnect peer => if peer ∈ m.listed then .ok (some (m.disconnect peer)) else .ok none
  | .drop peer => if peer ∈ m.running then .ok (some (m.stop peer)) else .ok none
  | .disconnected peer =>
    if (m.requests peer).handshake ∧ peer ∉ m.running then .ok (some (m.disconnect peer))
    else .ok none
  | .peerDisconnected peer next =>
    if peer ∈ m.listed ∧ (m.requests peer).handshake ∧ (m.requests peer).disconnected
        ∧ peer ∉ m.running ∧ (∀ q ∈ next, q ∈ m.listed.erase peer)
        ∧ (next = none → m.listed.erase peer = ∅) then
      .ok (some (m.peerDisconnected peer next))
    else .ok none
  | .other manager mempool =>
    .ok (some { m with toNewPeerManager := manager, mempool := mempool })

/-- Acts one after the other, where they are possible. -/
def run (env : Env) (lib : Bip152) : SyncManager → List Act → Option SyncManager
  | m, [] => some m
  | m, a :: acts =>
    match m.act env lib a with
    | .ok (some m') => run env lib m' acts
    | _ => none

/-! ## What the loops change -/

section

variable {m : SyncManager} {peer : PeerId} {now : Nat}

@[simp] theorem update_requests_self {state : NewPeer.Requests} :
    (m.update peer state).requests peer = state := by simp [update]

theorem update_requests {state : NewPeer.Requests} {q : PeerId} :
    (m.update peer state).requests q = if q = peer then state else m.requests q := by
  simp [update, Function.update_apply]

/-- Booking changes the requests for blocks of the peer only. -/
theorem bookLoop_eq (hashes : List BlockHash) (items : List BlockHash) :
    ∃ requested blocks, (bookLoop now peer hashes m items).1
      = { m with requestedBlocks := requested }.update peer
        { m.requests peer with requestedBlocks := blocks } := by
  induction hashes generalizing m items with
  | nil =>
    refine ⟨m.requestedBlocks, (m.requests peer).requestedBlocks, ?_⟩
    simp [bookLoop, update, Function.update_eq_self]
  | cons hash hashes ih =>
    rw [bookLoop]
    split
    · exact ih items
    · obtain ⟨requested, blocks, heq⟩ := @ih (m.book now peer hash) (items ++ [hash])
      refine ⟨requested, blocks, heq.trans ?_⟩
      simp [book, update, Function.update_idem]

theorem getBlock_eq (items : List BlockHash) :
    ∃ requested blocks time outbox, m.getBlock now peer items
      = { m with requestedBlocks := requested, outbox := outbox }.update peer
        { m.requests peer with requestedBlocks := blocks, blockTime := time } := by
  unfold getBlock
  split
  · refine ⟨m.requestedBlocks, (m.requests peer).requestedBlocks, (m.requests peer).blockTime,
      m.outbox, ?_⟩
    simp [update, Function.update_eq_self]
  · obtain ⟨requested, blocks, heq⟩ := @bookLoop_eq m peer now items []
    generalize bookLoop now peer items m [] = result at heq ⊢
    obtain ⟨m', items'⟩ := result
    obtain rfl : m' = _ := heq
    dsimp only
    split
    · exact ⟨requested, blocks, (m.requests peer).blockTime, m.outbox, rfl⟩
    · refine ⟨requested, blocks, some now,
        m.outbox ++ [(peer, .getData (items'.map .witnessBlock))], ?_⟩
      simp [queueMessage, update, Function.update_idem]

/-- An inventory changes the requests for transactions of the peer only. -/
theorem invLoop_eq (items : List Inventory) (gtxids : List GenericTxid) :
    ∃ requested transactions, (invLoop peer items m gtxids).1
      = { m with requestedTransactions := requested }.update peer
        { m.requests peer with requestedTransactions := transactions } := by
  induction items generalizing m gtxids with
  | nil =>
    refine ⟨m.requestedTransactions, (m.requests peer).requestedTransactions, ?_⟩
    simp [invLoop, update, Function.update_eq_self]
  | cons item items ih =>
    rw [invLoop]
    split
    · exact ih gtxids
    split
    · exact ih gtxids
    · rename_i gtxid _ _
      obtain ⟨requested, transactions, heq⟩ := @ih (m.request peer gtxid) (gtxids ++ [gtxid])
      refine ⟨requested, transactions, heq.trans ?_⟩
      simp [request, update, Function.update_idem]

theorem handleInv_eq (items : List Inventory) :
    ∃ requested transactions outbox, m.handleInv now peer items
      = { m with requestedTransactions := requested, outbox := outbox }.update peer
        { m.requests peer with requestedTransactions := transactions } := by
  unfold handleInv
  split
  · refine ⟨m.requestedTransactions, (m.requests peer).requestedTransactions, m.outbox, ?_⟩
    simp [update, Function.update_eq_self]
  · obtain ⟨requested, transactions, heq⟩ := @invLoop_eq m peer items []
    generalize invLoop peer items m [] = result at heq ⊢
    obtain ⟨m', gtxids⟩ := result
    obtain rfl : m' = _ := heq
    dsimp only
    split
    · exact ⟨requested, transactions, m.outbox, rfl⟩
    · exact ⟨requested, transactions,
        m.outbox ++ [(peer, .getData (gtxids.map GenericTxid.item))], rfl⟩

end

/-- What an act does where it is possible. -/
inductive Step (env : Env) (lib : Bip152) (m : SyncManager) : Act → SyncManager → Prop where
  | connect {peer : PeerId} : peer ∉ m.seen → Step env lib m (.connect peer)
      ({ m with
        seen := insert peer m.seen
        listed := insert peer m.listed
        handshaking := insert peer m.handshaking }.update peer .new)
  | handshakeComplete {peer : PeerId} {txRelay : TxRelay} : peer ∈ m.handshaking →
      Step env lib m (.handshakeComplete peer txRelay)
        ({ m with
          handshaking := m.handshaking.erase peer
          running := insert peer m.running
          headerSyncPeer := m.headerSyncPeer.or (some peer)
          resolveHeaders := true }.update peer
            { m.requests peer with handshake := true, txRelay := txRelay })
  | handshakeFailed {peer : PeerId} : peer ∈ m.handshaking →
      Step env lib m (.handshakeFailed peer)
        { m with handshaking := m.handshaking.erase peer, listed := m.listed.erase peer }
  | getNextBlocks {peer : PeerId} {best : ChainEntry} {m₁ : SyncManager}
      {next : Option (List ChainEntry × List BlockHash)} {staller : Option PeerId} :
      m.resolver = .idle → (m.requests peer).handshake = true →
      m.getNextBlocks peer best = .ok (m₁, next, staller) →
      Step env lib m (.getNextBlocks peer best) (m₁.resolve peer next)
  | getBlock {now : Nat} {peer : PeerId} {items : List BlockHash} :
      m.resolver = .booking peer items →
      Step env lib m (.getBlock now) ({ m with resolver := .idle }.getBlock now peer items)
  | handleBlock {peer : PeerId} {now : Nat} {block : Block}
      {result : SyncManager × Except HandleError Unit} : m.Listening peer →
      m.handleBlock env now peer block = .ok result →
      Step env lib m (.handleBlock peer now block) (handled peer result)
  | handleTx {peer : PeerId} {tx : Transaction} : m.Listening peer →
      Step env lib m (.handleTx peer tx) (handled peer (m.handleTx env lib peer tx))
  | handleInv {peer : PeerId} {now : Nat} {items : List Inventory} : m.Listening peer →
      Step env lib m (.handleInv peer now items) (m.handleInv now peer items)
  | add {now : Nat} {event : AddEvent} {queue : List AddEvent} {m' : SyncManager} :
      m.queue = event :: queue → { m with queue := queue }.addEvent env now event = .ok m' →
      Step env lib m (.add now) m'
  | finish {peer : PeerId} {waiting : Awaiting} : m.awaiting peer = some waiting →
      waiting.answered = true → Step env lib m (.finish peer) (handled peer (m.finish peer))
  | disconnect {peer : PeerId} : peer ∈ m.listed →
      Step env lib m (.disconnect peer) (m.disconnect peer)
  | drop {peer : PeerId} : peer ∈ m.running → Step env lib m (.drop peer) (m.stop peer)
  | disconnected {peer : PeerId} : (m.requests peer).handshake = true → peer ∉ m.running →
      Step env lib m (.disconnected peer) (m.disconnect peer)
  | peerDisconnected {peer : PeerId} {next : Option PeerId} : peer ∈ m.listed →
      (m.requests peer).handshake = true → (m.requests peer).disconnected = true →
      peer ∉ m.running →
      Step env lib m (.peerDisconnected peer next) (m.peerDisconnected peer next)
  | other {manager : NewPeerManager} {mempool : Option MemPool} :
      Step env lib m (.other manager mempool)
        { m with toNewPeerManager := manager, mempool := mempool }

theorem act_step {env : Env} {lib : Bip152} {m m' : SyncManager} {a : Act}
    (h : m.act env lib a = .ok (some m')) : Step env lib m a m' := by
  cases a <;> simp only [act] at h
  case connect => split at h <;> cases h; exact .connect ‹_›
  case handshakeComplete => split at h <;> cases h; exact .handshakeComplete ‹_›
  case handshakeFailed => split at h <;> cases h; exact .handshakeFailed ‹_›
  case getNextBlocks =>
    split at h
    · rename_i hguard
      obtain ⟨⟨m₁, next, staller⟩, hnext, h⟩ := bind_eq_ok.1 h
      cases h
      exact .getNextBlocks hguard.1 hguard.2 hnext
    · cases h
  case getBlock => split at h <;> cases h; exact .getBlock ‹_›
  case handleBlock =>
    split at h
    · obtain ⟨result, hresult, h⟩ := bind_eq_ok.1 h
      cases h
      exact .handleBlock ‹_› hresult
    · cases h
  case handleTx => split at h <;> cases h; exact .handleTx ‹_›
  case handleInv => split at h <;> cases h; exact .handleInv ‹_›
  case add =>
    split at h
    · cases h
    · obtain ⟨m₁, hadd, h⟩ := bind_eq_ok.1 h
      cases h
      exact .add ‹_› hadd
  case finish =>
    split at h
    · rename_i hanswered
      cases h
      obtain ⟨waiting, hwaiting, hanswered⟩ := (Option.any_eq_true _ _).1 hanswered
      exact .finish hwaiting hanswered
    · cases h
  case disconnect => split at h <;> cases h; exact .disconnect ‹_›
  case drop => split at h <;> cases h; exact .drop ‹_›
  case disconnected =>
    split at h
    · rename_i hguard
      cases h
      exact .disconnected hguard.1 hguard.2
    · cases h
  case peerDisconnected =>
    split at h
    · rename_i hguard
      cases h
      exact .peerDisconnected hguard.1 hguard.2.1 hguard.2.2.1 hguard.2.2.2.1
    · cases h
  case other => cases h; exact .other

/-- An event changes the chain, the pool, the answers and where the resolver stands. -/
theorem addEvent_eq_ok {env : Env} {now : Nat} {m m' : SyncManager} {event : AddEvent}
    (h : m.addEvent env now event = .ok m') :
    match event with
    | .addBlock _ peer => ∃ chain accepted, m' = { m with chain := chain }.answer peer accepted
    | .attach _ => ∃ chain, m' = { m with
        chain := chain, resolveHeaders := true, resolver := m.resolver.attached }
    | .addTransaction _ peer =>
      ∃ mempool accepted, m' = { m with mempool := mempool }.answer peer accepted := by
  cases event with
  | addBlock block peer =>
    obtain ⟨⟨chain, added⟩, -, h⟩ := bind_eq_ok.1 h
    exact ⟨chain, _, (Except.ok.inj h).symm⟩
  | attach entry =>
    obtain ⟨⟨chain, attached⟩, -, h⟩ := bind_eq_ok.1 h
    cases attached with
    | error e => cases h
    | ok _ => exact ⟨chain, (Except.ok.inj h).symm⟩
  | addTransaction tx peer =>
    simp only [addEvent] at h
    split at h
    · cases h
      exact ⟨m.mempool, _, rfl⟩
    · obtain ⟨⟨mempool, added⟩, -, h⟩ := bind_eq_ok.1 h
      cases h
      exact ⟨_, _, rfl⟩

/-- The manager that `PeerManager::new` makes. -/
def new (chain : Chain) (mempool : Option MemPool) (maxTipAge : Nat) : SyncManager where
  chain := chain
  peers := fun _ => ⟨none, none⟩
  outbox := []
  resolveHeaders := false
  mempool := mempool
  maxTipAge := maxTipAge
  requests := fun _ => .new
  listed := ∅
  headerSyncPeer := none
  requestedBlocks := ∅
  requestedTransactions := ∅
  verifying := ∅
  seen := ∅
  handshaking := ∅
  running := ∅
  awaiting := fun _ => none
  resolver := .idle
  queue := []

end SyncManager

namespace Small

/-- A peer comes, is asked for the first blocks of the chain and sends one of them. -/
def syncActs (c : Chain) : List SyncManager.Act :=
  match c.mostWork with
  | .error _ => []
  | .ok best => [.connect 0, .handshakeComplete 0 .txid, .getNextBlocks 0 best, .getBlock 5,
      .handleBlock 0 6 Small.first]

end Small

end BitcoinNode
