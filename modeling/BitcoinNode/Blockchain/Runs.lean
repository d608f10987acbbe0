import BitcoinNode.Blockchain.Calls
import Mathlib.Data.Nat.Pairing

/-!
# Runs of calls, and a small network

Runs as computable functions, and a network small enough to run them on: four-block
windows, injective hashes, and scripts that always succeed.
-/

namespace BitcoinNode

/-- Whether a peer can cause the call: it sends headers and blocks. -/
def Call.fromPeer : Call → Bool
  | .addHeader _ _ => true
  | .add _ _ => true
  | .attach _ => false
  | .status _ _ => false

namespace Chain

variable {env : Env} {c c' : Chain}

/-- The state after a list of calls. -/
def runFrom (env : Env) : Chain → List Call → Except Panic Chain
  | c, [] => .ok c
  | c, call :: calls => do
    let (c, _) ← c.step env call
    runFrom env c calls

/-- The state after a list of calls on a fresh chain. -/
def run (env : Env) (calls : List Call) : Except Panic Chain := do
  runFrom env (← Chain.new env) calls

theorem permitted_of_fromPeer {call : Call} (h : call.fromPeer = true) : c.Permitted env call := by
  cases call <;> trivial

theorem Reachable.runFrom (h : Reachable env c) {calls : List Call}
    (hcalls : calls.all Call.fromPeer = true) (hrun : c.runFrom env calls = .ok c') :
    Reachable env c' := by
  induction calls generalizing c with
  | nil =>
    obtain rfl := Except.ok.inj hrun
    exact h
  | cons call calls ih =>
    simp only [Chain.runFrom, bind_eq_ok] at hrun
    obtain ⟨⟨c₁, result⟩, hstep, hrun⟩ := hrun
    obtain ⟨hcall, hcalls⟩ := Bool.and_eq_true_iff.1 hcalls
    exact ih (h.step (permitted_of_fromPeer hcall) hstep) hcalls hrun

/-- A run that ends in a state with a decided property reaches such a state. -/
theorem exists_reachable (env : Env) (calls : List Call) (P : Chain → Bool)
    (hcalls : calls.all Call.fromPeer = true) (h : (match run env calls with
      | .ok c => P c
      | .error _ => false) = true) : ∃ c, Reachable env c ∧ P c = true := by
  split at h
  · rename_i c hrun
    simp only [run, bind_eq_ok] at hrun
    obtain ⟨c₀, hnew, hrun⟩ := hrun
    exact ⟨c, (Reachable.new hnew).runFrom hcalls hrun, h⟩
  · cases h

end Chain

/-! ## A small network -/

namespace Small

/-- An injective code of scripts. -/
def scriptCode (script : Script) : Nat :=
  script.foldr (fun byte code => code * 256 + byte.toNat + 1) 0

/-- An injective code of output lists. -/
def outputsCode (outputs : List TxOut) : Nat :=
  outputs.foldr (fun output code =>
    Nat.pair (Nat.pair output.value (scriptCode output.scriptPubkey)) code + 1) 0

/-- Outputs and the first script signature, so that coinbases of equal value differ. -/
def txid (tx : Transaction) : Txid :=
  Nat.pair (outputsCode tx.output)
    ((tx.input.head?.map fun input => scriptCode input.scriptSig).getD 0)

def blockHash (header : BlockHeader) : BlockHash :=
  Nat.pair (Nat.pair (Nat.pair header.version.toBitVec.toNat header.merkleRoot)
    (Nat.pair (Nat.pair header.time header.bits) header.nonce)) header.prevBlockhash + 1

theorem blockHash_injective : Function.Injective blockHash := by
  intro h h' heq
  obtain ⟨version, prev, root, time, bits, nonce⟩ := h
  obtain ⟨version', prev', root', time', bits', nonce'⟩ := h'
  simp only [blockHash, Nat.add_right_cancel_iff, Nat.pair_eq_pair, BitVec.toNat_inj,
    Int32.toBitVec_inj] at heq
  simp_all

theorem scriptCode_injective : Function.Injective scriptCode := by
  intro script
  induction script with
  | nil =>
    intro script' h
    cases script' with
    | nil => rfl
    | cons byte' script' => simp [scriptCode] at h
  | cons byte script ih =>
    intro script' h
    cases script' with
    | nil => simp [scriptCode] at h
    | cons byte' script' =>
      have hlt := byte.toNat_lt
      have hlt' := byte'.toNat_lt
      have hcode : scriptCode script * 256 + byte.toNat + 1
          = scriptCode script' * 256 + byte'.toNat + 1 := h
      rw [ih (show scriptCode script = scriptCode script' by omega),
        UInt8.toNat_inj.1 (show byte.toNat = byte'.toNat by omega)]

theorem outputsCode_injective : Function.Injective outputsCode := by
  intro outputs
  induction outputs with
  | nil =>
    intro outputs' h
    cases outputs' with
    | nil => rfl
    | cons output' outputs' => simp [outputsCode] at h
  | cons output outputs ih =>
    intro outputs' h
    cases outputs' with
    | nil => simp [outputsCode] at h
    | cons output' outputs' =>
      obtain ⟨value, script⟩ := output
      obtain ⟨value', script'⟩ := output'
      simp only [outputsCode, List.foldr_cons, Nat.add_right_cancel_iff, Nat.pair_eq_pair] at h
      obtain ⟨⟨rfl, hscript⟩, houtputs⟩ := h
      rw [scriptCode_injective hscript, ih houtputs]

/-- Transactions with one id have the same outputs. -/
theorem output_eq_of_txid {tx tx' : Transaction} (h : txid tx = txid tx') :
    tx.output = tx'.output :=
  outputsCode_injective (Nat.pair_eq_pair.1 h).1

def coinbase (height value : Nat) : Transaction where
  version := 1
  lockTime := 0
  input := [⟨⟨0, 0xffffffff⟩, [UInt8.ofNat (height / 256), UInt8.ofNat height], 0xffffffff, []⟩]
  output := [⟨value, []⟩]

def block (prev : BlockHash) (time nonce : Nat) (txdata : List Transaction) : Block where
  header := ⟨4, prev, (txdata.map txid).sum, time, 0, nonce⟩
  txdata := txdata

def network : NetworkParams where
  halvingInterval := 210000
  powLimit := 1
  powLimitBits := 0
  bip16Time := 0
  bip34Height := 100000
  bip65Height := 100000
  bip66Height := 100000
  segwitHeight := 100000
  csvHeight := 100000
  noPowRetargeting := true
  allowMinDifficultyBlocks := false
  powTargetSpacing := 600
  deployments := [⟨2, .alwaysActive, .noTimeout, .taproot, 0⟩,
    ⟨1, .startTime 20, .timeout 1000, .dummy, 12⟩]
  ruleChangeActivationThreshold := 3
  minerConfirmationWindow := 4
  bip30 := []
  halvingInterval_pos := by decide
  minerConfirmationWindow_pos := by decide
  bits_nodup := by decide

def env : Env where
  blockHash := blockHash
  txid := txid
  validatePow _ := true
  work _ := 2
  u256FromCompactTarget n := n
  compactTargetFromU256 n := n
  checkMerkleRoot block := block.header.merkleRoot == (block.txdata.map txid).sum
  checkWitnessCommitment _ := true
  getWeight _ := 1000
  getSize _ := 1000
  bip34BlockHeight _ := none
  isProvablyUnspendable script := script.head? == some 0x6a
  isP2sh _ := false
  isWitnessProgram _ := false
  instructions _ := []
  verifyWithFlags _ _ _ _ _ _ := true
  genesisBlock := block 0 10 0 [coinbase 0 5000000000]
  network := network
  verifyScripts := true

theorem lawful : env.Lawful where
  blockHash_ne_zero _ := Nat.succ_ne_zero _
  work_pos _ _ := Nat.two_pos
  genesis_prev := rfl

/-! ### Blocks -/

/-- A block on genesis. -/
def first : Block := block env.genesisEntry.hash 20 1 [coinbase 1 5000000000]

/-- The header of the first block over another transaction list. -/
def mutated : Block := { first with txdata := [coinbase 1 4000000000] }

/-- A second block, which claims more than it may. -/
def overpaid : Block := block (blockHash first.header) 30 2 [coinbase 2 5000000001]

/-- A block above it. -/
def above : Block := block (blockHash overpaid.header) 40 3 [coinbase 3 5000000000]

end Small

end BitcoinNode
