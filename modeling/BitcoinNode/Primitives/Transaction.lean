import BitcoinNode.Library.Word
import BitcoinNode.Primitives.Script
import BitcoinNode.Coins

/-!
# Transaction and block checks

The checks of `primitives/tx.rs` and `primitives/block.rs` that chain verification runs.
Output and input values are 64-bit words: `get_output_value` adds unchecked, the other
sums are checked.
-/

namespace BitcoinNode

namespace Transaction

/-- Does not check overflows, must be done separately. -/
def getOutputValue (tx : Transaction) : Nat :=
  tx.output.foldl (fun total output => Word.add 64 total output.value) 0

/-- The loop of `check_inputs`: the total value of the coins spent. -/
def inputTotal (view : CoinView) (height : Nat) :
    List TxIn → Nat → Except (Stop TransactionVerificationError) Nat
  | [], total => .ok total
  | input :: inputs, total =>
    match view.getEntry input.previousOutput with
    | none => .error (.error .inputsMissingOrSpent)
    | some coin => do
      if coin.coinbase then
        match coin.height with
        | none => throw (.panic .coinbaseHeight)
        | some coinHeight =>
          if height - coinHeight < COINBASE_MATURITY then
            throw (.error .prematureCoinbaseSpend)
      match Word.checkedAdd 64 total coin.output.value with
      | none => .error (.error .inputValuesOutOfRange)
      | some total =>
        if coin.output.value > MAX_MONEY || total > MAX_MONEY then
          .error (.error .inputValuesOutOfRange)
        else inputTotal view height inputs total

/-- The fee of a transaction whose coins are in the view. -/
def checkInputs (view : CoinView) (height : Nat) (tx : Transaction) :
    Except (Stop TransactionVerificationError) Nat := do
  let total ← inputTotal view height tx.input 0
  let value := tx.getOutputValue
  if total < value then throw (.error .inBelowOut)
  let fee := total - value
  if fee > MAX_MONEY then throw (.error .feeOutOfRange)
  return fee

/-- A 32-bit word read as `i32`. -/
def asI32 (n : Nat) : Int := if n % 2 ^ 32 < 2 ^ 31 then n % 2 ^ 32 else n % 2 ^ 32 - 2 ^ 32

def isFinal (tx : Transaction) (height : Nat) (time : Int) : Bool :=
  if tx.lockTime = 0 then true
  else
    let lockTime := if tx.lockTime < LOCKTIME_THRESHOLD then asI32 height else time
    if asI32 tx.lockTime < lockTime then true
    else tx.input.all fun input => input.sequence == 0xffffffff

/-- The legacy signature operation count, which is quite inaccurate. -/
def getLegacySigOpCount (env : Env) (tx : Transaction) : Nat :=
  (tx.input.map fun input => Script.getSigOpCount env input.scriptSig false).sum
    + (tx.output.map fun output => Script.getSigOpCount env output.scriptPubkey false).sum

def getP2shSigOpCount (env : Env) (view : CoinView) (tx : Transaction) : Nat :=
  if tx.isCoinBase then 0
  else (tx.input.map fun input =>
    match view.getOutput input.previousOutput with
    | some previous =>
      if env.isP2sh previous.scriptPubkey then
        Script.getP2shSigOpCount env previous.scriptPubkey input.scriptSig
      else 0
    | none => 0).sum

def getWitnessSigOpCount (env : Env) (view : CoinView) (tx : Transaction) : Nat :=
  (tx.input.map fun input =>
    match view.getOutput input.previousOutput with
    | some previous =>
      Script.getWitnessSigOpCount env previous.scriptPubkey input.scriptSig input.witness
    | none => 0).sum

def getSigopCost (env : Env) (view : CoinView) (flags : ScriptFlags) (tx : Transaction) : Nat :=
  let legacy := tx.getLegacySigOpCount env * WITNESS_SCALE_FACTOR
  if tx.isCoinBase then legacy
  else
    legacy
      + (if flags.contains ScriptFlags.VERIFY_P2SH then
          tx.getP2shSigOpCount env view * WITNESS_SCALE_FACTOR else 0)
      + (if flags.contains ScriptFlags.VERIFY_WITNESS then
          tx.getWitnessSigOpCount env view else 0)

/-- Test whether the transaction has a non-empty witness. -/
def hasWitness (tx : Transaction) : Bool := tx.input.any fun input => !input.witness.isEmpty

/-- Signals RBF. -/
def signalsReplacement (tx : Transaction) : Bool :=
  tx.input.any fun input => input.sequence < 2 ^ 32 - 1 - 1

/-- Transaction size without witness. -/
def strippedSize (tx : Transaction) : Nat :=
  4 + varIntLen tx.input.length + varIntLen tx.output.length
    + (tx.output.map fun output =>
        8 + varIntLen output.scriptPubkey.length + output.scriptPubkey.length).sum
    + 4
    + (tx.input.map fun input =>
        32 + 4 + 4 + varIntLen input.scriptSig.length + input.scriptSig.length).sum

/-- The output loop of `check_sanity`. -/
def checkOutputs : List TxOut → Nat → Except TransactionVerificationError Unit
  | [], _ => .ok ()
  | output :: outputs, valueOut =>
    if output.value > MAX_MONEY then .error .outputTooLarge
    else match Word.checkedAdd 64 valueOut output.value with
      | none => .error .outputTotalTooLarge
      | some valueOut =>
        if valueOut > MAX_MONEY then .error .outputTotalTooLarge
        else checkOutputs outputs valueOut

def checkSanity (tx : Transaction) : Except TransactionVerificationError Unit := do
  if tx.input.isEmpty then throw .inputsEmpty
  if tx.output.isEmpty then throw .outputsEmpty
  if tx.strippedSize * WITNESS_SCALE_FACTOR > MAX_BLOCK_WEIGHT then throw .oversized
  checkOutputs tx.output 0
  if tx.input.length > 1 && !decide (tx.input.map TxIn.previousOutput).Nodup then
    throw .duplicateInput
  if tx.isCoinBase then
    let scriptSigLen := (tx.input.head?.map fun input => input.scriptSig.length).getD 0
    if !(2 ≤ scriptSigLen && scriptSigLen ≤ 100) then throw .badCoinbaseLength
  else
    if tx.input.any fun input => input.previousOutput.isNull then throw .nullPreviousOutput

/-- Run the scripts of every input against the coins of the view. -/
def verifyScripts (env : Env) (view : CoinView) (flags : ScriptFlags) (tx : Transaction) :
    Except (Stop TransactionVerificationError) Unit := do
  let spent ← tx.input.mapM fun input =>
    match view.getOutput input.previousOutput with
    | some output => .ok output
    | none => .error (.panic .scriptCoin)
  let verified := (spent.zipIdx).all fun (output, index) =>
    env.verifyWithFlags output.scriptPubkey output.value tx spent index flags
  if verified then return () else throw (.error .invalidScripts)

end Transaction

namespace Block

/-- What the coinbase claims. -/
def getClaimed (block : Block) : Except Panic Nat :=
  match block.txdata with
  | [] => .error .getClaimed
  | coinbase :: _ => if coinbase.isCoinBase then .ok coinbase.getOutputValue else .error .getClaimed

/-- Block size without witness. -/
def strippedSize (block : Block) : Nat :=
  80 + varIntLen block.txdata.length + (block.txdata.map Transaction.strippedSize).sum

/-- The transaction loop of `check_body`; it returns the legacy signature operations. -/
def checkTransactions (env : Env) : List Transaction → Nat → Nat →
    Except BlockVerificationError Nat
  | [], _, sigops => .ok sigops
  | tx :: txs, index, sigops =>
    if index > 0 && tx.isCoinBase then .error .multipleCoinbase
    else match tx.checkSanity with
      | .error e => .error (.badTransaction e)
      | .ok _ => checkTransactions env txs (index + 1) (sigops + tx.getLegacySigOpCount env)

/-- Verification that needs no context. -/
def checkBody (env : Env) (block : Block) : Except BlockVerificationError Unit := do
  if !env.checkMerkleRoot block then throw .badMerkleRoot
  if block.txdata.isEmpty
      || block.txdata.length * WITNESS_SCALE_FACTOR > MAX_BLOCK_WEIGHT
      || block.strippedSize * WITNESS_SCALE_FACTOR > MAX_BLOCK_WEIGHT then
    throw .badLength
  if !(block.txdata.head?.map Transaction.isCoinBase).getD false then throw .noCoinbase
  let sigops ← checkTransactions env block.txdata 0 0
  if sigops * WITNESS_SCALE_FACTOR > MAX_BLOCK_SIGOPS_COST then throw .badSigops

def checkCoinbaseHeight (env : Env) (block : Block) (height : Nat) :
    Except BlockVerificationError Unit :=
  match env.bip34BlockHeight block with
  | none => .error .badCoinbaseHeight
  | some h => if h ≠ height then .error .badCoinbaseHeight else .ok ()

end Block

end BitcoinNode
