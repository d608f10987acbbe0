import BitcoinNode.Protocol

/-!
# Signature-operation counting

The counting functions of `primitives/script.rs`, over the instruction list that the
library's script parser yields.
-/

namespace BitcoinNode.Script

def OP_PUSHNUM_1 : UInt8 := 0x51
def OP_PUSHNUM_16 : UInt8 := 0x60
def OP_CHECKSIG : UInt8 := 0xac
def OP_CHECKSIGVERIFY : UInt8 := 0xad
def OP_CHECKMULTISIG : UInt8 := 0xae
def OP_CHECKMULTISIGVERIFY : UInt8 := 0xaf
def OP_RETURN_255 : UInt8 := 0xff

/-- What one opcode adds to the count, given the opcode before it. -/
def sigOps (accurate : Bool) (lastOpcode op : UInt8) : Nat :=
  if op == OP_CHECKSIG || op == OP_CHECKSIGVERIFY then 1
  else if op == OP_CHECKMULTISIG || op == OP_CHECKMULTISIGVERIFY then
    if accurate && decide (OP_PUSHNUM_1 ≤ lastOpcode) && decide (lastOpcode ≤ OP_PUSHNUM_16) then
      lastOpcode.toNat - 0x50
    else MAX_PUBKEYS_PER_MULTISIG
  else 0

/-- The loop of `get_sig_op_count`; it stops at the first parse error. -/
def countSigOps (accurate : Bool) : List (Option Instruction) → UInt8 → Nat → Nat
  | [], _, n => n
  | none :: _, _, n => n
  | some (.pushBytes _) :: rest, lastOpcode, n => countSigOps accurate rest lastOpcode n
  | some (.op code) :: rest, lastOpcode, n =>
    countSigOps accurate rest code (n + sigOps accurate lastOpcode code)

variable (env : Env)

/-- The number of signature operations in a script. -/
def getSigOpCount (script : Script) (accurate : Bool) : Nat :=
  countSigOps accurate (env.instructions script) OP_RETURN_255 0

/-- The loop of `get_redeem_script`. -/
def lastPush : List (Option Instruction) → Option Script → Option Script
  | [], data => data
  | none :: _, _ => none
  | some (.op code) :: rest, data => if OP_PUSHNUM_16 < code then none else lastPush rest data
  | some (.pushBytes bytes) :: rest, _ => lastPush rest (some bytes)

/-- The redeem script a script signature pushes last. -/
def getRedeemScript (script : Script) : Option Script :=
  lastPush (env.instructions script) none

def getP2shSigOpCount (script scriptSig : Script) : Nat :=
  if !env.isP2sh script then getSigOpCount env script true
  else match getRedeemScript env scriptSig with
    | some redeemScript => getSigOpCount env redeemScript true
    | none => 0

def getWitnessProgram (script : Script) : Option (Nat × List UInt8) :=
  if !env.isWitnessProgram script then none
  else script.head?.map fun version => (version.toNat, script.drop 2)

def witnessSigOpCount (version : Nat) (program : List UInt8) (witness : List (List UInt8)) : Nat :=
  if version = 0 then
    if program.length = WITNESS_V0_KEYHASH_SIZE then 1
    else if program.length = WITNESS_V0_SCRIPTHASH_SIZE then
      match witness.getLast? with
      | some redeemScript => getSigOpCount env redeemScript true
      | none => 0
    else 0
  else 0

def getWitnessSigOpCount (script scriptSig : Script) (witness : List (List UInt8)) : Nat :=
  match getWitnessProgram env script with
  | some (version, program) => witnessSigOpCount env version program witness
  | none =>
    if env.isP2sh script then
      match (getRedeemScript env scriptSig).bind (getWitnessProgram env) with
      | some (version, program) => witnessSigOpCount env version program witness
      | none => 0
    else 0

end BitcoinNode.Script
