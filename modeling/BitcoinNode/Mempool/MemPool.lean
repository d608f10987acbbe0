import BitcoinNode.Blockchain.Chain

/-!
# The memory pool

`MemPool` of `mempool/mod.rs`: the transactions that wait for a block, and for each outpoint
one of them spends the id of the spender. The pool listens to the chain: a connected block
removes its transactions and what they conflict with, a disconnected one hands its
transactions back.
-/

namespace BitcoinNode

structure MemPoolEntry where
  tx : Transaction
  /-- height of the chain when the transaction was added to the pool -/
  height : Nat
  /-- one of the inputs is the output of a coinbase transaction -/
  coinbase : Bool
  deriving DecidableEq

inductive MempoolError where
  | transactionVerification (e : TransactionVerificationError)
  | coinbase | prematureWitness | prematureTxVersion | duplicate | doubleSpend | orphan
  | replaceByFee
  deriving DecidableEq, Repr

/-- A transaction check inside a pool check. -/
def MempoolError.ofTransaction {α : Type} : Except (Stop TransactionVerificationError) α →
    Except (Stop MempoolError) α
  | .ok a => .ok a
  | .error (.panic p) => .error (.panic p)
  | .error (.error e) => .error (.error (.transactionVerification e))

namespace MemPoolEntry

/-- Whether an input spends a coinbase, up to the first one that does. -/
def spendsCoinbase (view : CoinView) : List TxIn → Except Panic Bool
  | [] => .ok false
  | input :: inputs =>
    match view.getEntry input.previousOutput with
    | none => .error .poolEntryCoin
    | some coin => if coin.coinbase then .ok true else spendsCoinbase view inputs

def new (tx : Transaction) (view : CoinView) (height : Nat) : Except Panic MemPoolEntry := do
  let coinbase ← spendsCoinbase view tx.input
  return ⟨tx, height, coinbase⟩

end MemPoolEntry

structure MemPool where
  transactions : FMap Txid MemPoolEntry
  /-- map of outpoint to the id of the transaction that spent that output -/
  spents : FMap OutPoint Txid

namespace MemPool

def new : MemPool := ⟨∅, ∅⟩

/-- Double spend from the viewpoint of the pool; the chain is not asked. -/
def isDoubleSpend (pool : MemPool) (tx : Transaction) : Bool :=
  tx.input.any fun input => input.previousOutput ∈ pool.spents

def hasCoin (pool : MemPool) (outpoint : OutPoint) : Bool :=
  match pool.transactions.lookup outpoint.txid with
  | none => false
  | some entry =>
    if outpoint ∈ pool.spents then false
    else if outpoint.vout ≥ entry.tx.output.length then false
    else true

/-- The input loop of `get_coin_view`. -/
def viewInputs (pool : MemPool) (c : Chain) : List TxIn → CoinView → Except Panic CoinView
  | [], view => .ok view
  | input :: inputs, view => do
    let prevout := input.previousOutput
    let view ← match pool.transactions.lookup prevout.txid with
      | some entry =>
        if pool.hasCoin prevout then
          match entry.tx.output[prevout.vout]? with
          | none => throw .poolOutput
          | some output =>
            let coin := ⟨entry.tx.version, none, entry.tx.isCoinBase, output, false⟩
            pure { view with map := view.map.insert prevout coin }
        else pure view
      | none =>
        match c.db.readCoin prevout with
        | some coin => pure { view with map := view.map.insert prevout coin }
        | none => pure view
    viewInputs pool c inputs view

def getCoinView (pool : MemPool) (c : Chain) (tx : Transaction) : Except Panic CoinView :=
  pool.viewInputs c tx.input CoinView.empty

def verify (env : Env) (c : Chain) (entry : MemPoolEntry) (view : CoinView) :
    Except (Stop MempoolError) Unit := do
  let height := c.height + 1
  let tx := entry.tx
  MempoolError.ofTransaction (c.verifyLocks c.tip tx view LockFlags.STANDARD_LOCKTIME_FLAGS)
  let _ ← MempoolError.ofTransaction (tx.checkInputs view height)
  MempoolError.ofTransaction (tx.verifyScripts env view c.state.scriptFlags)

/-- The checks of `add_tx`, in order; none of them writes to the pool. -/
def checkTx (env : Env) (pool : MemPool) (c : Chain) (now : Nat) (tx : Transaction) :
    Except (Stop MempoolError) MemPoolEntry := do
  match tx.checkSanity with
  | .error e => throw (.error (.transactionVerification e))
  | .ok _ => pure ()
  if tx.isCoinBase then throw (.error .coinbase)
  if !c.state.hasCsv && decide (tx.version ≥ 2) then throw (.error .prematureTxVersion)
  if !c.state.hasWitness && tx.hasWitness then throw (.error .prematureWitness)
  if !c.verifyFinal now c.tip tx LockFlags.STANDARD_LOCKTIME_FLAGS then
    throw (.error (.transactionVerification .nonFinal))
  if env.txid tx ∈ pool.transactions then throw (.error .duplicate)
  if c.db.hasCoins env tx then throw (.error .duplicate)
  if pool.isDoubleSpend tx then
    throw (.error (if tx.signalsReplacement then .replaceByFee else .doubleSpend))
  let view ← match pool.getCoinView c tx with
    | .error p => throw (.panic p)
    | .ok view => pure view
  if tx.input.any fun input => (view.getEntry input.previousOutput).isNone then
    throw (.error .orphan)
  let entry ← match MemPoolEntry.new tx view c.height with
    | .error p => throw (.panic p)
    | .ok entry => pure entry
  verify env c entry view
  return entry

/-- Store an entry under its id, as the spender of its inputs. -/
def insert (pool : MemPool) (hash : Txid) (entry : MemPoolEntry) : MemPool where
  spents := entry.tx.input.foldl (fun spents input => spents.insert input.previousOutput hash)
    pool.spents
  transactions := pool.transactions.insert hash entry

/-- Add a transaction. -/
def addTx (env : Env) (pool : MemPool) (c : Chain) (now : Nat) (tx : Transaction) :
    Except Panic (MemPool × Except MempoolError Unit) :=
  match pool.checkTx env c now tx with
  | .error (.panic p) => .error p
  | .error (.error e) => .ok (pool, .error e)
  | .ok entry => .ok (pool.insert (env.txid tx) entry, .ok ())

def isEmpty (pool : MemPool) : Bool := pool.transactions.keys.card == 0

/-! ## Removal -/

def removeSpent (pool : MemPool) (outPoint : OutPoint) : MemPool × Option MemPoolEntry :=
  match pool.spents.lookup outPoint with
  | none => (pool, none)
  | some txid =>
    ({ transactions := pool.transactions.erase txid, spents := pool.spents.erase outPoint },
      pool.transactions.lookup txid)

/-- Remove the transactions that spend an output of the entry, and what spends their
outputs. Every round of the recursion has removed a transaction, so its depth is bounded by
the size of the pool. -/
def removeSpenders (env : Env) : Nat → MemPoolEntry → MemPool → Except Panic MemPool
  | 0, _, _ => .error .diverges
  | fuel + 1, entry, pool =>
    (List.range entry.tx.output.length).foldlM (fun pool i =>
      match pool.removeSpent ⟨env.txid entry.tx, i⟩ with
      | (pool, some spender) => removeSpenders env fuel spender pool
      | (pool, none) => .ok pool) pool

/-- Remove all of the inputs this transaction spends from `spents`, any transactions that
spend those inputs, and recursively any transactions that spend their outputs. -/
def removeDoubleSpends (env : Env) (pool : MemPool) (tx : Transaction) : Except Panic MemPool :=
  tx.input.foldlM (fun pool input =>
    match pool.removeSpent input.previousOutput with
    | (pool, some doubleSpend) =>
      removeSpenders env (pool.transactions.keys.card + 1) doubleSpend pool
    | (pool, none) => .ok pool) pool

/-- What a connected block does to the pool for one of its transactions. -/
def confirm (env : Env) (pool : MemPool) (tx : Transaction) : Except Panic MemPool :=
  match pool.transactions.lookup (env.txid tx) with
  | some entry => .ok {
      transactions := pool.transactions.erase (env.txid tx)
      spents := entry.tx.input.foldl (fun spents input => spents.erase input.previousOutput)
        pool.spents }
  | none => pool.removeDoubleSpends env tx

def addBlock (env : Env) (pool : MemPool) (txs : List Transaction) : Except Panic MemPool :=
  if pool.isEmpty then .ok pool else txs.foldlM (confirm env) pool

/-- Hand one transaction of a disconnected block back. -/
def restore (env : Env) (c : Chain) (now : Nat) (pool : MemPool) (tx : Transaction) :
    Except Panic MemPool :=
  if env.txid tx ∈ pool.transactions then .ok pool
  else do
    let (pool, _) ← pool.addTx env c now tx
    return pool

def removeBlock (env : Env) (pool : MemPool) (c : Chain) (now : Nat) (txs : List Transaction) :
    Except Panic MemPool :=
  if pool.isEmpty then .ok pool else (txs.drop 1).foldlM (restore env c now) pool

/-! ## Runs -/

/-- A call on the pool; the chain and the clock are what the call is given. -/
inductive Op where
  | addTx (c : Chain) (now : Nat) (tx : Transaction)
  | addBlock (txs : List Transaction)
  | removeBlock (c : Chain) (now : Nat) (txs : List Transaction)
  | removeDoubleSpends (tx : Transaction)

def step (env : Env) (pool : MemPool) : Op → Except Panic MemPool
  | .addTx c now tx => do
    let (pool, _) ← pool.addTx env c now tx
    return pool
  | .addBlock txs => pool.addBlock env txs
  | .removeBlock c now txs => pool.removeBlock env c now txs
  | .removeDoubleSpends tx => pool.removeDoubleSpends env tx

/-- The pools that calls in any order make of the empty one. -/
inductive Reachable (env : Env) : MemPool → Prop where
  | new : Reachable env new
  | step {pool pool' : MemPool} {op : Op} :
      Reachable env pool → pool.step env op = .ok pool' → Reachable env pool'

end MemPool

end BitcoinNode
