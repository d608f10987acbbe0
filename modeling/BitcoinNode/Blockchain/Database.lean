import BitcoinNode.Library.FiniteMap
import BitcoinNode.Library.Word
import BitcoinNode.Blockchain.ChainEntry
import BitcoinNode.Coins

/-!
# The chain database's columns, batches and block store

The keys and columns of `blockchain/chain_db.rs`, the batch that writes to them, the
state record of the main chain, and the block store as the chain sees it: one write-once
table of blocks and one of undo records.
-/

namespace BitcoinNode

/-! ## Chain state -/

/-- Current state of the main chain; the three counters are 64-bit words. -/
structure ChainState where
  /-- Hash of the tip of the chain. -/
  tip : BlockHash
  /-- Number of transactions that have occurred. -/
  tx : Nat
  /-- Number of unspent coins. -/
  coin : Nat
  /-- The value of unspent coins. -/
  value : Nat
  commited : Bool
  deriving DecidableEq, Repr

namespace ChainState

def default : ChainState := ⟨0, 0, 0, 0, false⟩

def connect (state : ChainState) (block : Block) : ChainState :=
  { state with tx := Word.add 64 state.tx block.txdata.length }

def disconnect (state : ChainState) (block : Block) : ChainState :=
  { state with tx := Word.sub 64 state.tx block.txdata.length }

def add (state : ChainState) (coin : TxOut) : ChainState :=
  { state with coin := Word.add 64 state.coin 1, value := Word.add 64 state.value coin.value }

def spend (state : ChainState) (coin : TxOut) : ChainState :=
  { state with coin := Word.sub 64 state.coin 1, value := Word.sub 64 state.value coin.value }

def commit (state : ChainState) (hash : BlockHash) : ChainState :=
  { state with tip := hash, commited := true }

@[simp] theorem add_tx (state : ChainState) (coin : TxOut) : (state.add coin).tx = state.tx := by
  rw [add]

@[simp] theorem spend_tx (state : ChainState) (coin : TxOut) :
    (state.spend coin).tx = state.tx := by
  rw [spend]

@[simp] theorem commit_tip (state : ChainState) (hash : BlockHash) :
    (state.commit hash).tip = hash := rfl

@[simp] theorem commit_tx (state : ChainState) (hash : BlockHash) :
    (state.commit hash).tx = state.tx := rfl

end ChainState

/-! ## Columns and batches -/

inductive Key where
  | entry (hash : BlockHash)
  | coin (outpoint : OutPoint)
  | hash (height : Nat)
  | height (hash : BlockHash)
  | nextHash (hash : BlockHash)
  | nextHashes (hash : BlockHash)
  | chainState
  | chainWork (work : Nat) (hash : BlockHash)
  deriving DecidableEq, Repr

/-- The type of the values stored under a key. -/
abbrev Key.Value : Key → Type
  | .entry _ => ChainEntry
  | .coin _ => CoinEntry
  | .hash _ => BlockHash
  | .height _ => Nat
  | .nextHash _ => BlockHash
  | .nextHashes _ => List BlockHash
  | .chainState => ChainState
  | .chainWork _ _ => ChainEntry

/-- The number spelt by the bytes of an `n`-byte word in reverse order. -/
def reverseBytes : Nat → Nat → Nat
  | 0, _ => 0
  | n + 1, word => word % 256 * 256 ^ n + reverseBytes n (word / 256)

/-- The bytes of a chainwork key, read as one number: the work as the library encodes it,
least significant byte first, then the hash. -/
def chainWorkKey (work : Nat) (hash : BlockHash) : Nat := reverseBytes 32 work * 2 ^ 256 + hash

/-- The columns of the chain database. The chainwork column is listed in key order. -/
structure Database where
  entry : FMap BlockHash ChainEntry
  coin : FMap OutPoint CoinEntry
  hash : FMap Nat BlockHash
  height : FMap BlockHash Nat
  nextHash : FMap BlockHash BlockHash
  nextHashes : FMap BlockHash (List BlockHash)
  chainState : Option ChainState
  chainWork : List (Nat × ChainEntry)

namespace Database

def empty : Database := ⟨∅, ∅, ∅, ∅, ∅, ∅, none, []⟩

def insert (db : Database) : (key : Key) → key.Value → Database
  | .entry hash, value => { db with entry := db.entry.insert hash value }
  | .coin outpoint, value => { db with coin := db.coin.insert outpoint value }
  | .hash height, value => { db with hash := db.hash.insert height value }
  | .height hash, value => { db with height := db.height.insert hash value }
  | .nextHash hash, value => { db with nextHash := db.nextHash.insert hash value }
  | .nextHashes hash, value => { db with nextHashes := db.nextHashes.insert hash value }
  | .chainState, value => { db with chainState := some value }
  | .chainWork work hash, value =>
    let key := chainWorkKey work hash
    { db with chainWork := db.chainWork.takeWhile (·.1 < key) ++ (key, value) ::
        db.chainWork.filter (key < ·.1) }

def remove (db : Database) : Key → Database
  | .entry hash => { db with entry := db.entry.erase hash }
  | .coin outpoint => { db with coin := db.coin.erase outpoint }
  | .hash height => { db with hash := db.hash.erase height }
  | .height hash => { db with height := db.height.erase hash }
  | .nextHash hash => { db with nextHash := db.nextHash.erase hash }
  | .nextHashes hash => { db with nextHashes := db.nextHashes.erase hash }
  | .chainState => { db with chainState := none }
  | .chainWork work hash =>
    { db with chainWork := db.chainWork.filter (·.1 ≠ chainWorkKey work hash) }

end Database

inductive Operation where
  | insert (key : Key) (value : key.Value)
  | remove (key : Key)

abbrev Batch := List Operation

def Operation.apply (db : Database) : Operation → Database
  | .insert key value => db.insert key value
  | .remove key => db.remove key

/-- A batch is applied atomically and in order. -/
def Database.writeBatch (db : Database) (batch : Batch) : Database :=
  batch.foldl Operation.apply db

/-! ## Block store -/

/-- The block store as the chain uses it. -/
structure BlockStore where
  blocks : FMap BlockHash Block
  undos : FMap BlockHash UndoCoins

namespace BlockStore

def MAX_FILE_LENGTH : Nat := 128 * 1024 * 1024

def empty : BlockStore := ⟨∅, ∅⟩

/-- A record that exists is kept; a record too long for a file panics. -/
def writeBlock (env : Env) (store : BlockStore) (hash : BlockHash) (block : Block) :
    Except Panic BlockStore :=
  if hash ∈ store.blocks then .ok store
  else if env.getSize block + 8 > MAX_FILE_LENGTH then .error .recordTooLong
  else .ok { store with blocks := store.blocks.insert hash block }

def writeUndo (store : BlockStore) (hash : BlockHash) (undo : UndoCoins) :
    Except Panic BlockStore :=
  if hash ∈ store.undos then .ok store
  else if undo.encodedLen + 40 > MAX_FILE_LENGTH then .error .recordTooLong
  else .ok { store with undos := store.undos.insert hash undo }

def readBlock (store : BlockStore) (hash : BlockHash) : Option Block := store.blocks.lookup hash

def readUndo (store : BlockStore) (hash : BlockHash) : Option UndoCoins :=
  (store.undos.lookup hash).map UndoCoins.reload

end BlockStore

end BitcoinNode
