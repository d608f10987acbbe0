import BitcoinNode.Primitives.Types

/-!
# Consensus constants, network parameters and errors

The constants of `protocol/consensus.rs`, the deployments of `protocol/version_bits.rs`,
the parameters of `protocol/network.rs` that chain verification reads, and the error
enumerations of `error/mod.rs`.
-/

namespace BitcoinNode

/-! ## Consensus constants -/

/-- 1 Bitcoin is 100 million satoshis. -/
def COIN : Nat := 100000000
/-- The initial block subsidy, 50 Bitcoin. -/
def BASE_REWARD : Nat := 50 * COIN
/-- The maximum money supply, 21 million Bitcoin. -/
def MAX_MONEY : Nat := 21000000 * COIN
def COINBASE_MATURITY : Nat := 100
def LOCKTIME_THRESHOLD : Nat := 500000000
def MAX_BLOCK_SIGOPS_COST : Nat := 80000
def MAX_PUBKEYS_PER_MULTISIG : Nat := 20
def WITNESS_V0_KEYHASH_SIZE : Nat := 20
def WITNESS_V0_SCRIPTHASH_SIZE : Nat := 32
def MEDIAN_TIMESPAN : Nat := 11
def MAX_FUTURE_BLOCK_TIME : Nat := 2 * 60 * 60
def SEQUENCE_GRANULARITY : Nat := 9
def SEQUENCE_DISABLE_FLAG : Nat := 1 <<< 31
def SEQUENCE_TYPE_FLAG : Nat := 1 <<< 22
def SEQUENCE_MASK : Nat := 0x0000ffff
def BIP34_IMPLIES_BIP30_LIMIT : Nat := 1983702
def MAX_BLOCK_WEIGHT : Nat := 4000000
def WITNESS_SCALE_FACTOR : Nat := 4
def DIFFCHANGE_INTERVAL : Nat := 2016
def DIFFCHANGE_TIMESPAN : Nat := 14 * 24 * 3600
def VERSIONBITS_TOP_BITS : Int32 := 0x20000000
def VERSIONBITS_TOP_MASK : Int32 := -536870912

/-! ## Flag sets -/

abbrev ScriptFlags := Nat

namespace ScriptFlags
def VERIFY_P2SH : ScriptFlags := 1 <<< 0
def VERIFY_DERSIG : ScriptFlags := 1 <<< 2
def VERIFY_NULLDUMMY : ScriptFlags := 1 <<< 4
def VERIFY_CHECKLOCKTIMEVERIFY : ScriptFlags := 1 <<< 9
def VERIFY_CHECKSEQUENCEVERIFY : ScriptFlags := 1 <<< 10
def VERIFY_WITNESS : ScriptFlags := 1 <<< 11
def VERIFY_TAPROOT : ScriptFlags := 1 <<< 17
def contains (flags f : ScriptFlags) : Bool := flags &&& f == f
end ScriptFlags

abbrev LockFlags := Nat

namespace LockFlags
def VERIFY_SEQUENCE : LockFlags := 1 <<< 0
def MEDIAN_TIME_PAST : LockFlags := 1 <<< 1
def STANDARD_LOCKTIME_FLAGS : LockFlags := VERIFY_SEQUENCE ||| MEDIAN_TIME_PAST
def contains (flags f : LockFlags) : Bool := flags &&& f == f
end LockFlags

/-! ## Version bits -/

inductive ThresholdState where
  | defined | started | lockedIn | active | failed
  deriving DecidableEq, Repr

inductive StartTime where
  | alwaysActive
  | startTime (time : Nat)
  deriving DecidableEq, Repr

inductive Timeout where
  | noTimeout
  | timeout (time : Nat)
  deriving DecidableEq, Repr

/-- The names under which `NetworkParams::from_network` files its deployments. -/
inductive DeploymentName where
  | taproot | ctv | dummy
  deriving DecidableEq, Repr

structure Deployment where
  bit : Nat
  startTime : StartTime
  timeout : Timeout
  name : DeploymentName
  minActivationHeight : Nat
  deriving DecidableEq, Repr

/-! ## Network parameters -/

/-- The parameters chain verification reads. The two moduli are positive, and
deployments are told apart by their bits, as `VersionBitsCache::new` asserts. -/
structure NetworkParams where
  halvingInterval : Nat
  powLimit : Nat
  powLimitBits : Nat
  bip16Time : Nat
  bip34Height : Nat
  bip65Height : Nat
  bip66Height : Nat
  segwitHeight : Nat
  csvHeight : Nat
  noPowRetargeting : Bool
  allowMinDifficultyBlocks : Bool
  powTargetSpacing : Nat
  deployments : List Deployment
  ruleChangeActivationThreshold : Nat
  minerConfirmationWindow : Nat
  bip30 : List (Nat × BlockHash)
  halvingInterval_pos : 0 < halvingInterval
  minerConfirmationWindow_pos : 0 < minerConfirmationWindow
  bits_nodup : (deployments.map Deployment.bit).Nodup

/-- What a node is started with: the library it calls, its network and whether it runs
scripts. -/
structure Env extends Bitcoin where
  network : NetworkParams
  verifyScripts : Bool

/-- The miner subsidy of a block at a height. -/
def getBlockSubsidy (height : Nat) (network : NetworkParams) : Nat :=
  let halvings := height / network.halvingInterval
  if halvings ≥ 64 then 0 else BASE_REWARD >>> halvings

theorem getBlockSubsidy_le (height : Nat) (network : NetworkParams) :
    getBlockSubsidy height network ≤ BASE_REWARD := by
  unfold getBlockSubsidy
  dsimp only
  split_ifs
  · exact Nat.zero_le _
  · rw [Nat.shiftRight_eq_div_pow]
    exact Nat.div_le_self _ _

/-! ## Errors -/

inductive TransactionVerificationError where
  | inputsMissingOrSpent | inputValuesOutOfRange | inBelowOut | feeOutOfRange
  | prematureCoinbaseSpend | inputsEmpty | outputsEmpty | oversized | outputTooLarge
  | outputTotalTooLarge | duplicateInput | badCoinbaseLength | nullPreviousOutput
  | nonFinal | badSigops | duplicateTxid | invalidScripts
  deriving DecidableEq, Repr

inductive BlockHeaderVerificationError where
  | badDifficultyBits | timeTooOld | timeTooNew | obsolete | invalidPOW
  deriving DecidableEq, Repr

inductive BlockVerificationError where
  | badHeader (e : BlockHeaderVerificationError)
  | badTransaction (e : TransactionVerificationError)
  | noCoinbase | badMerkleRoot | noSegwit | nonFinalTransactions | badCoinbaseHeight
  | badWitnessCommitment | unexpectedWitness | badBlockWeight | missingCoinbase | badLength
  | multipleCoinbase | badSigops | badCoinbaseAmount
  deriving DecidableEq, Repr

/-- The `assert!`, `expect`, `unwrap` and index expressions at which a call can panic. -/
inductive Panic where
  /-- `assert!(!self.has_invalid(hash, header.prev_blockhash))` in `add_header` -/
  | addHeaderInvalid
  /-- `assert!(!self.db.has_header(&hash))` in `add_header` -/
  | addHeaderKnown
  /-- "should have previous header before adding this" -/
  | addHeaderNoPrevious
  /-- `assert_eq!(header.prev_blockhash, prev.hash)` in `contextual_check_block_header` -/
  | headerPrevious
  /-- "prev block to be added before this" -/
  | addNoPrevious
  /-- `assert!(!self.db.has_block(hash))` in `add_block` -/
  | addBlockKnown
  /-- `assert_eq!(block.header.prev_blockhash, prev.hash)` in `verify` -/
  | verifyPrevious
  /-- "prev already checked to exist before attach" -/
  | attachNoPrevious
  /-- `assert!(entry.prev_block == prev.hash)` in `connect_best` -/
  | connectBestPrevious
  /-- `self.db.get_entry_by_hash(&head.prev_block).unwrap()` in `connect_best` -/
  | connectBestNoParent
  /-- `self.db.get_block(entry.hash).unwrap().unwrap()` in `connect_best` -/
  | connectBestNoBlock
  /-- `assert_eq!(block.header.prev_blockhash, prev.hash)` in `connect` -/
  | connectHeader
  /-- `assert_eq!(prev.hash, self.tip.hash)` in `connect` -/
  | connectTip
  /-- "block not found" in `disconnect` -/
  | disconnectNoBlock
  /-- "prev not found" in `disconnect` -/
  | disconnectNoPrevious
  /-- `assert!(self.pending.is_none())` in `ChainDB::start` -/
  | startPending
  /-- `self.pending.as_mut().unwrap()` and `assert!(self.pending.is_some())` -/
  | noPending
  /-- "already checked before connect" in `connect_block` -/
  | connectBlockNoCoin
  /-- the `unwrap` of `get_undo_coins` -/
  | undoMissing
  /-- "bad code" in `UndoCoins::apply` -/
  | undoExhausted
  /-- "Block length above max file length." in `BlockStore::allocate` -/
  | recordTooLong
  /-- "just added" in `disconnect_block` -/
  | disconnectNoCoin
  /-- `assert!(undo.is_empty())` in `disconnect_block` -/
  | undoLeftOver
  /-- "always tip if chain db opened first" -/
  | noTip
  /-- `assert!(self.tip.is_genesis())` in `get_deployment_state` -/
  | tipNotGenesis
  /-- `assert!(height <= entry.height)` in `get_ancestor` -/
  | ancestorHeight
  /-- "in main chain so must exist" in `get_ancestor` -/
  | ancestorMain
  /-- "ancestor should always exist" in `get_ancestor` -/
  | ancestorMissing
  /-- "database corruption" in `get_next_entries` -/
  | nextEntryMissing
  /-- the index `self.entry_cache.hash[hash]` of `get_entry_by_height` -/
  | heightIndex
  /-- the `unwrap` of the minimum-difficulty walk and the assertion of `get_target` -/
  | getTarget
  /-- "unknown deployment bit" -/
  | unknownBit
  /-- `deployments["taproot"]` in `get_deployments` -/
  | noTaproot
  /-- the two assertions on the window boundary in `get_deployment_status` -/
  | windowBoundary
  /-- "earlier block should exist" in `get_deployment_status` -/
  | earlierBlock
  /-- "immature coinbase spend found in mempool" in `check_inputs` -/
  | coinbaseHeight
  /-- the index `view.map[&input.previous_output]` of `verify_scripts` -/
  | scriptCoin
  /-- the assertions of `get_claimed` -/
  | getClaimed
  /-- "chain db to be open" in `most_work` -/
  | notOpen
  /-- "main chain so must exist by height" in `get_locator` -/
  | locatorMain
  /-- the `unwrap` of `get_next_path` -/
  | nextPathMissing
  /-- the index `view.map[&input.previous_output]` of `MemPoolEntry::new` -/
  | poolEntryCoin
  /-- the index `tx.output[input.previous_output.vout as usize]` of `get_coin_view` -/
  | poolOutput
  /-- "Bad magic" in `BlockStore::index` -/
  | indexMagic
  /-- "bad len" in `BlockStore::index` -/
  | indexLength
  /-- `block_store.open().unwrap()` -/
  | openStore
  /-- the two assertions on the bounds of `BlockStore::read` -/
  | outOfBoundsRead
  /-- `assert!(last < 0xffff)` in `CompactBlock::new` -/
  | prefilledIndex
  /-- `assert!(last <= short_ids.len() as i64 + 1)` in `CompactBlock::new` -/
  | prefilledGap
  /-- the indexes `available[last as usize]` and `available[i + offset]` of `CompactBlock::new` -/
  | availableIndex
  /-- the `unwrap` of the conversion from `CompactBlock` -/
  | compactIncomplete
  /-- "height is at most chain height so entry must exist" in `get_next_blocks` -/
  | commonHeight
  /-- "common hash so must have that hash" in `get_next_blocks` -/
  | commonHash
  /-- "have block in common so must be an ancestor" in `get_next_blocks` -/
  | commonAncestor
  /-- `state.requested_blocks.remove(&hash).unwrap()` in `handle_block` -/
  | requestedBlock
  /-- "FIX: requested duplicate blocks" in `handle_block` -/
  | verifyingTwice
  /-- `self.chain.write().add(block).unwrap()` in `handle_block` -/
  | addBlockUnwrap
  /-- `todo!("wtxid transaction requesting")` in `handle_not_found` -/
  | notFoundWtxid
  /-- the `unwrap` of `BlockFilter::new_script_filter` in `block_connected` -/
  | scriptFilter
  /-- the `unwrap` of the previous filter header in `block_connected` -/
  | previousFilterHeader
  /-- the `unwrap` with which an indexer reads a value of its database -/
  | indexValue
  /-- the index `view.map[&input.previous_output]` of the address index -/
  | addressCoin
  /-- the `unwrap`s and slices with which `txids_for_address` reads a key -/
  | addressKey
  /-- "non standard address, should have checked" -/
  | addressType
  /-- the `unwrap` of `read_transaction` in `TxIndexer::tx` -/
  | readTransaction
  /-- the division by the number of elements in `BloomFilter::new` -/
  | bloomElements
  /-- the remainder by the number of bits in `BloomFilter::hash` -/
  | bloomHash
  /-- the index `self.data[index >> 3]` and "can this error?" of `BloomFilter` -/
  | bloomIndex
  /-- `assert!(start_height < end_height)` in `height_to_hash_range` -/
  | rangeStart
  /-- `assert!(results_len as usize <= max_results)` in `height_to_hash_range` -/
  | rangeLength
  /-- the two `unwrap`s of `height_to_hash_range` -/
  | rangeEntry
  /-- an addition or subtraction that leaves its type, in a build with overflow checks -/
  | overflow
  /-- a loop that never ends -/
  | diverges
  deriving DecidableEq, Repr

/-- A call that stops early: by a panic or by returning an error. -/
inductive Stop (ε : Type) where
  | panic (p : Panic)
  | error (e : ε)
  deriving DecidableEq, Repr

end BitcoinNode
