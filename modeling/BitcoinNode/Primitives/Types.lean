import Mathlib.Data.Nat.Basic

/-!
# Blocks, transactions and the functions taken from the `bitcoin` library

The records the node receives from its peers, and the functions it calls in the
third-party crates. A hash is the natural number its 32 bytes spell, most significant
byte first, so that comparing hashes compares their bytes; the default hash is zero.
-/

namespace BitcoinNode

abbrev BlockHash := Nat
abbrev Txid := Nat
abbrev Script := List UInt8

structure OutPoint where
  txid : Txid
  vout : Nat
  deriving DecidableEq, Repr

/-- The previous output of a coinbase input. -/
def OutPoint.isNull (o : OutPoint) : Bool := o.txid == 0 && o.vout == 0xffffffff

structure TxIn where
  previousOutput : OutPoint
  scriptSig : Script
  sequence : Nat
  witness : List (List UInt8)
  deriving DecidableEq, Repr

structure TxOut where
  value : Nat
  scriptPubkey : Script
  deriving DecidableEq, Repr

structure Transaction where
  version : Int32
  lockTime : Nat
  input : List TxIn
  output : List TxOut
  deriving DecidableEq, Repr

def Transaction.isCoinBase (tx : Transaction) : Bool :=
  match tx.input with
  | [input] => input.previousOutput.isNull
  | _ => false

structure BlockHeader where
  version : Int32
  prevBlockhash : BlockHash
  merkleRoot : Nat
  time : Nat
  bits : Nat
  nonce : Nat
  deriving DecidableEq, Repr

structure Block where
  header : BlockHeader
  txdata : List Transaction
  deriving DecidableEq, Repr

/-- One step of `Script::instructions`; a parse error is `none` in the instruction list. -/
inductive Instruction where
  | pushBytes (bytes : List UInt8)
  | op (code : UInt8)
  deriving DecidableEq, Repr

/-- The size of a `VarInt` encoding. -/
def varIntLen (n : Nat) : Nat :=
  if n < 0xfd then 1 else if n < 0x10000 then 3 else if n < 0x100000000 then 5 else 9

/-- The functions the node calls in `bitcoin` and `bitcoinconsensus`. -/
structure Bitcoin where
  blockHash : BlockHeader → BlockHash
  txid : Transaction → Txid
  /-- `header.validate_pow(&header.target()).is_ok()` -/
  validatePow : BlockHeader → Bool
  work : BlockHeader → Nat
  u256FromCompactTarget : Nat → Nat
  compactTargetFromU256 : Nat → Nat
  checkMerkleRoot : Block → Bool
  checkWitnessCommitment : Block → Bool
  getWeight : Block → Nat
  getSize : Block → Nat
  bip34BlockHeight : Block → Option Nat
  isProvablyUnspendable : Script → Bool
  isP2sh : Script → Bool
  isWitnessProgram : Script → Bool
  instructions : Script → List (Option Instruction)
  /-- Script, amount, spending transaction, spent outputs, input index and flag bits. -/
  verifyWithFlags : Script → Nat → Transaction → List TxOut → Nat → Nat → Bool
  genesisBlock : Block

end BitcoinNode
