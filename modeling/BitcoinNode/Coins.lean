import BitcoinNode.Library.FiniteMap
import BitcoinNode.Protocol

/-!
# Coins, coin views and undo records

`coins/coin_entry.rs`, `coins/coin_view.rs` and `coins/undo_coins.rs`. A view holds the
coins a block touches, the spent ones included; its undo record lists the coins the block
spends, in the order in which it spends them.
-/

namespace BitcoinNode

/-- A single transaction output, unspent or marked spent inside a view. -/
structure CoinEntry where
  version : Int32
  height : Option Nat
  coinbase : Bool
  output : TxOut
  spent : Bool
  deriving DecidableEq, Repr

/-- What the decoder returns for an encoded coin: the spent flag is read and dropped. -/
def CoinEntry.reload (coin : CoinEntry) : CoinEntry := { coin with spent := false }

@[simp] theorem CoinEntry.reload_spent (coin : CoinEntry) : coin.reload.spent = false := rfl
@[simp] theorem CoinEntry.reload_output (coin : CoinEntry) : coin.reload.output = coin.output := rfl

theorem CoinEntry.reload_eq {coin : CoinEntry} (h : coin.spent = false) : coin.reload = coin := by
  cases coin
  simp_all [CoinEntry.reload]

/-- The coins spent by a block, in spending order. -/
structure UndoCoins where
  items : List CoinEntry
  deriving DecidableEq, Repr

namespace UndoCoins

def push (undo : UndoCoins) (coin : CoinEntry) : UndoCoins := ⟨undo.items ++ [coin]⟩

def isEmpty (undo : UndoCoins) : Bool := undo.items.isEmpty

/-- The length of the encoded record: a count, then version, height, coinbase flag, output
and spent flag of each coin. -/
def encodedLen (undo : UndoCoins) : Nat :=
  4 + (undo.items.map fun coin =>
    4 + 4 + 1 + (8 + varIntLen coin.output.scriptPubkey.length
      + coin.output.scriptPubkey.length) + 1).sum

/-- What `consensus_decode` returns for an encoded undo record. -/
def reload (undo : UndoCoins) : UndoCoins := ⟨undo.items.map CoinEntry.reload⟩

end UndoCoins

/-- A view of the coin set: touched coins and the undo record so far. -/
structure CoinView where
  map : FList OutPoint CoinEntry
  undo : UndoCoins
  deriving DecidableEq

namespace CoinView

/-- `CoinView::default()` -/
def empty : CoinView := ⟨∅, ⟨[]⟩⟩

def getEntry (view : CoinView) (prevout : OutPoint) : Option CoinEntry := view.map.lookup prevout

def getOutput (view : CoinView) (prevout : OutPoint) : Option TxOut :=
  (view.getEntry prevout).map CoinEntry.output

/-- The loop of `index_tx` from output number `index` on. -/
def indexOutputs (env : Env) (tx : Transaction) (height : Nat) (spent : Bool) :
    List TxOut → Nat → CoinView → CoinView
  | [], _, view => view
  | output :: outputs, index, view =>
    let view :=
      if env.isProvablyUnspendable output.scriptPubkey then view
      else { view with
        map := view.map.insert ⟨env.txid tx, index⟩
          ⟨tx.version, some height, tx.isCoinBase, output, spent⟩ }
    indexOutputs env tx height spent outputs (index + 1) view

def indexTx (env : Env) (view : CoinView) (tx : Transaction) (height : Nat) (spent : Bool) :
    CoinView :=
  indexOutputs env tx height spent tx.output 0 view

/-- Add a new transaction to the view. -/
def addTx (env : Env) (view : CoinView) (tx : Transaction) (height : Nat) : CoinView :=
  view.indexTx env tx height false

def removeTx (env : Env) (view : CoinView) (tx : Transaction) (height : Nat) : CoinView :=
  view.indexTx env tx height true

/-- Get a coin from the view, or from the coin column and then keep it in the view. -/
def readCoin (coins : FMap OutPoint CoinEntry) (view : CoinView) (prevout : OutPoint) :
    CoinView × Option CoinEntry :=
  match view.map.lookup prevout with
  | some coin => (view, some coin)
  | none =>
    match (coins.lookup prevout).map CoinEntry.reload with
    | some coin => ({ view with map := view.map.insert prevout coin }, some coin)
    | none => (view, none)

/-- Spend every input of a transaction, refusing a missing or spent one. -/
def spendInputs (coins : FMap OutPoint CoinEntry) :
    List TxIn → CoinView → Except TransactionVerificationError CoinView
  | [], view => .ok view
  | input :: inputs, view =>
    match view.readCoin coins input.previousOutput with
    | (view, some coin) =>
      if coin.spent then .error .inputsMissingOrSpent
      else
        let coin := { coin with spent := true }
        spendInputs coins inputs
          { map := view.map.insert input.previousOutput coin, undo := view.undo.push coin }
    | (_, none) => .error .inputsMissingOrSpent

end CoinView

/-- Pop the last undo coin into the view at `prevout`. -/
def UndoCoins.apply (undo : UndoCoins) (view : CoinView) (prevout : OutPoint) :
    Except Panic (UndoCoins × CoinView) :=
  match undo.items.getLast? with
  | none => .error .undoExhausted
  | some coin =>
    .ok (⟨undo.items.dropLast⟩, { view with map := view.map.insert prevout coin })

end BitcoinNode
