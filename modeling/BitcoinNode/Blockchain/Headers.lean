import BitcoinNode.Blockchain.ChainDB
import BitcoinNode.Primitives.Transaction
import Mathlib.Data.List.Sort

/-!
# Header rules and deployments

The parts of `blockchain/chain.rs` that read the header tree only: median time, the
difficulty target, the version-bits state machine with its cache, and the deployment flags
of a block. The functions that fill the version-bits cache return the new cache.
-/

namespace BitcoinNode

namespace ChainDB

/-! ## Median time -/

/-- The times of an entry and its ancestors, at most `n` of them. -/
def lastTimes (db : ChainDB) : Nat → ChainEntry → List Nat
  | 0, _ => []
  | n + 1, entry =>
    entry.time :: match db.getEntryByHash entry.prevBlock with
      | some prev => lastTimes db n prev
      | none => []

/-- The upper median of a list of times. -/
def median (times : List Nat) : Nat :=
  (times.insertionSort (· ≤ ·)).getD (times.length / 2) 0

def getMedianTime (db : ChainDB) (prev : ChainEntry) : Nat :=
  median (db.lastTimes MEDIAN_TIMESPAN prev)

/-! ## Difficulty -/

def retarget (env : Env) (prev first : ChainEntry) : Nat :=
  if env.network.noPowRetargeting then prev.bits
  else
    let target := env.u256FromCompactTarget prev.bits
    let timespan := Word.sub 32 prev.time first.time
    let timespan := if timespan < DIFFCHANGE_TIMESPAN / 4 then DIFFCHANGE_TIMESPAN / 4 else timespan
    let timespan := if timespan > DIFFCHANGE_TIMESPAN * 4 then DIFFCHANGE_TIMESPAN * 4 else timespan
    let target := Word.mul 256 target timespan / DIFFCHANGE_TIMESPAN
    if target > env.network.powLimit then env.network.powLimitBits
    else env.compactTargetFromU256 target

/-- The walk of `get_target` over minimum-difficulty blocks. -/
def lastRealBits (env : Env) (db : ChainDB) : Nat → ChainEntry → Except Panic Nat
  | fuel, prev =>
    if prev.height ≠ 0 ∧ prev.height % DIFFCHANGE_INTERVAL ≠ 0
        ∧ prev.bits = env.network.powLimitBits then
      match fuel with
      | 0 => .error .diverges
      | fuel + 1 =>
        match db.getEntryByHash prev.prevBlock with
        | none => .error .getTarget
        | some prev => lastRealBits env db fuel prev
    else .ok prev.bits

def getTarget (env : Env) (db : ChainDB) (time : Nat) (prev : Option ChainEntry) :
    Except Panic Nat :=
  match prev with
  | none => .ok env.network.powLimitBits
  | some prev =>
    if (prev.height + 1) % DIFFCHANGE_INTERVAL ≠ 0 then
      if env.network.allowMinDifficultyBlocks then
        if time > Word.add 32 prev.time (Word.mul 32 env.network.powTargetSpacing 2) then
          .ok env.network.powLimitBits
        else lastRealBits env db prev.height prev
      else .ok prev.bits
    else if prev.height < DIFFCHANGE_INTERVAL - 1 then .error .getTarget
    else do
      let first ← db.getAncestor prev (prev.height - (DIFFCHANGE_INTERVAL - 1))
      return retarget env prev first

/-! ## Deployment status -/

/-- The counting loop of the `Started` state: whether `threshold` of the `n` blocks that
end with `block` signal, given `count` signals so far. -/
def countSignals (db : ChainDB) (bit threshold : Nat) :
    Nat → ChainEntry → Nat → Except Panic Bool
  | 0, _, _ => .ok false
  | n + 1, block, count =>
    let count := if block.hasBit bit then count + 1 else count
    if count ≥ threshold then .ok true
    else match db.getEntryByHash block.prevBlock with
      | none => .error .earlierBlock
      | some block => countSignals db bit threshold n block count

/-- The state of the window after the boundary block `entry`, given the state of the
window that ends with it. -/
def transition (env : Env) (db : ChainDB) (deployment : Deployment) (startTime : Nat)
    (state : ThresholdState) (entry : ChainEntry) : Except Panic ThresholdState :=
  let timedOut :=
    match deployment.timeout with
    | .timeout timeout => decide (db.getMedianTime entry ≥ timeout)
    | .noTimeout => false
  match state with
  | .defined =>
    .ok (if timedOut then .failed
      else if db.getMedianTime entry ≥ startTime then .started else .defined)
  | .started =>
    if timedOut then .ok .failed
    else do
      let lockedIn ← countSignals db deployment.bit env.network.ruleChangeActivationThreshold
        env.network.minerConfirmationWindow entry 0
      return if lockedIn then .lockedIn else .started
  | .lockedIn => .ok (if entry.height ≥ deployment.minActivationHeight then .active else .lockedIn)
  | .failed => .ok .failed
  | .active => .ok .active

/-- The backward walk over window boundaries. It ends at a cached boundary, at one before
the start time or at the first one; `compute` lists the uncached boundaries met. -/
def walkWindows (env : Env) (db : ChainDB) (deployment : Deployment) (startTime : Nat) :
    Nat → ChainEntry → VersionBitsCache → List ChainEntry →
      Except Panic (VersionBitsCache × ThresholdState × List ChainEntry)
  | 0, _, _, _ => .error .diverges
  | fuel + 1, entry, cache, compute => do
    match ← cache.get deployment.bit entry.hash with
    | some cached => return (cache, cached, compute)
    | none =>
      if db.getMedianTime entry < startTime then
        let cache ← cache.set deployment.bit entry.hash .defined
        return (cache, .defined, compute)
      else
        let compute := compute ++ [entry]
        if entry.height < env.network.minerConfirmationWindow then
          return (cache, .defined, compute)
        else
          let entry ← db.getAncestor entry (entry.height - env.network.minerConfirmationWindow)
          walkWindows env db deployment startTime fuel entry cache compute

/-- The forward pass: `for entry in compute`. -/
def computeStates (env : Env) (db : ChainDB) (deployment : Deployment) (startTime : Nat) :
    List ChainEntry → VersionBitsCache → ThresholdState →
      Except Panic (VersionBitsCache × ThresholdState)
  | [], cache, state => .ok (cache, state)
  | entry :: compute, cache, state => do
    let state ← transition env db deployment startTime state entry
    let cache ← cache.set deployment.bit entry.hash state
    computeStates env db deployment startTime compute cache state

/-- The last block of the window before the one that holds the child of `prev`. -/
def windowBoundary (env : Env) (db : ChainDB) (prev : ChainEntry) :
    Except Panic (Option ChainEntry) :=
  let offset := (prev.height + 1) % env.network.minerConfirmationWindow
  if offset = 0 then .ok (some prev)
  else if prev.height < offset then .ok none
  else do
    let boundary ← db.getAncestor prev (prev.height - offset)
    if boundary.height ≠ prev.height - offset
        ∨ (boundary.height + 1) % env.network.minerConfirmationWindow ≠ 0 then
      throw .windowBoundary
    return some boundary

def getDeploymentStatus (env : Env) (db : ChainDB) (prev : Option ChainEntry)
    (deployment : Deployment) : Except Panic (VersionBitsCache × ThresholdState) :=
  match prev, deployment.startTime with
  | none, _ => .ok (db.versionBitsCache, .defined)
  | some _, .alwaysActive => .ok (db.versionBitsCache, .active)
  | some prev, .startTime startTime => do
    match ← windowBoundary env db prev with
    | none => return (db.versionBitsCache, .defined)
    | some boundary =>
      let (cache, state, compute) ←
        walkWindows env db deployment startTime (boundary.height + 1) boundary
          db.versionBitsCache []
      computeStates env db deployment startTime compute cache state

end ChainDB

/-! ## Deployment flags -/

/-- The rules in force for a block. -/
structure DeploymentState where
  scriptFlags : ScriptFlags
  lockFlags : LockFlags
  bip34 : Bool
  deriving DecidableEq, Repr

namespace DeploymentState

def default : DeploymentState := ⟨0, 0, false⟩

def hasBip34 (state : DeploymentState) : Bool := state.bip34

def hasMtp (state : DeploymentState) : Bool :=
  state.lockFlags.contains LockFlags.MEDIAN_TIME_PAST

def hasCsv (state : DeploymentState) : Bool :=
  state.scriptFlags.contains ScriptFlags.VERIFY_CHECKSEQUENCEVERIFY

def hasWitness (state : DeploymentState) : Bool :=
  state.scriptFlags.contains ScriptFlags.VERIFY_WITNESS

end DeploymentState

namespace ChainDB

def isDeploymentActive (env : Env) (db : ChainDB) (prev : ChainEntry) (deployment : Deployment) :
    Except Panic (VersionBitsCache × Bool) := do
  let (cache, state) ← db.getDeploymentStatus env (some prev) deployment
  return (cache, state == .active)

/-- The flags that depend on the time and height of the block only. -/
def heightDeployments (network : NetworkParams) (time height : Nat) : DeploymentState :=
  { scriptFlags :=
      (if time ≥ network.bip16Time then ScriptFlags.VERIFY_P2SH else 0)
      ||| (if height ≥ network.bip66Height then ScriptFlags.VERIFY_DERSIG else 0)
      ||| (if height ≥ network.bip65Height then ScriptFlags.VERIFY_CHECKLOCKTIMEVERIFY else 0)
      ||| (if height ≥ network.csvHeight then ScriptFlags.VERIFY_CHECKSEQUENCEVERIFY else 0)
      ||| (if height ≥ network.segwitHeight then
            ScriptFlags.VERIFY_WITNESS ||| ScriptFlags.VERIFY_NULLDUMMY else 0)
    lockFlags :=
      if height ≥ network.csvHeight then
        LockFlags.VERIFY_SEQUENCE ||| LockFlags.MEDIAN_TIME_PAST else 0
    bip34 := decide (height ≥ network.bip34Height) }

def getDeployments (env : Env) (db : ChainDB) (time : Nat) (prev : ChainEntry) :
    Except Panic (VersionBitsCache × DeploymentState) :=
  match env.network.deployments.find? (·.name == .taproot) with
  | none => .error .noTaproot
  | some taproot => do
    let state := heightDeployments env.network time (prev.height + 1)
    let (cache, active) ← db.isDeploymentActive env prev taproot
    return (cache, if active then
      { state with scriptFlags := state.scriptFlags ||| ScriptFlags.VERIFY_TAPROOT } else state)

end ChainDB

end BitcoinNode
