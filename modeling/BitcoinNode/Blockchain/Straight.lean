import BitcoinNode.Blockchain.MedianTime
import BitcoinNode.Blockchain.View

/-!
# Straight runs

A node that is given the blocks of one branch in their order, each of which passes, is in a state
that can be written down without running it: every column has one row for each block. Runs of a
hundred blocks start from there.
-/

namespace BitcoinNode

namespace ChainDB

/-- Taproot is in force from genesis on. -/
def TaprootActive (env : Env) : Prop :=
  ∃ taproot, env.network.deployments.find? (·.name == .taproot) = some taproot
    ∧ taproot.startTime = .alwaysActive

/-- The rules for a block at a height, with taproot. -/
def taprootDeployments (network : NetworkParams) (time height : Nat) : DeploymentState :=
  { heightDeployments network time height with
    scriptFlags := (heightDeployments network time height).scriptFlags
      ||| ScriptFlags.VERIFY_TAPROOT }

theorem getDeployments_taproot {env : Env} (h : TaprootActive env) (db : ChainDB) (time : Nat)
    (prev : ChainEntry) : getDeployments env db time prev
      = .ok (db.versionBitsCache, taprootDeployments env.network time (prev.height + 1)) := by
  obtain ⟨taproot, hfind, hstart⟩ := h
  unfold getDeployments
  rw [hfind]
  simp only [isDeploymentActive, getDeploymentStatus, hstart]
  rfl

/-- The times behind a median are those of stored entries. -/
theorem mem_lastTimes {db : ChainDB} {m t : Nat} {e : ChainEntry} (h : t ∈ db.lastTimes m e) :
    t = e.time ∨ ∃ hash e', db.getEntryByHash hash = some e' ∧ t = e'.time := by
  induction m generalizing e with
  | zero => cases h
  | succ m ih =>
    rcases List.mem_cons.1 h with rfl | h
    · exact .inl rfl
    · split at h
      · rename_i prev hprev
        rcases ih h with rfl | hstored
        · exact .inr ⟨_, prev, hprev, rfl⟩
        · exact .inr hstored
      · cases h

end ChainDB

namespace Chain

open ChainDB

variable {env : Env} {block : Block} {prev : ChainEntry}

/-- A block that passes the checks which need the header tree only leaves the chain as it is. -/
theorem verify_pass (htaproot : TaprootActive env) (c : Chain)
    (hprev : block.header.prevBlockhash = prev.hash) (hbody : block.checkBody env = .ok ())
    (hfinal : ∀ tx ∈ block.txdata, tx.lockTime = 0)
    (hheight : prev.height + 1 < env.network.bip34Height)
    (hwitness : env.checkWitnessCommitment block = true)
    (hweight : env.getWeight block ≤ MAX_BLOCK_WEIGHT) :
    c.verify env block prev = .ok (c, .ok ()) := by
  have hall (time : Nat) : (block.txdata.all fun tx =>
      tx.isFinal (prev.height + 1) (Transaction.asI32 time)) = true :=
    List.all_eq_true.2 fun tx htx => by rw [Transaction.isFinal, if_pos (hfinal tx htx)]
  have h34 : (taprootDeployments env.network block.header.time (prev.height + 1)).hasBip34
      = false := decide_eq_false (Nat.not_le.2 hheight)
  rw [verify, if_neg (not_not.2 hprev), hbody]
  dsimp only
  rw [getDeployments_taproot htaproot, bind_of_ok rfl]
  dsimp only
  rw [hall, h34, hwitness, if_neg (Nat.not_lt.2 hweight)]
  rfl

theorem verifyContext_pass (htaproot : TaprootActive env) (c : Chain) {view : CoinView}
    (hverify : c.verify env block prev = .ok (c, .ok ()))
    (hcoins : ∀ tx ∈ block.txdata, c.db.hasCoins env tx = false)
    (hinputs : c.verifyInputs env block prev
      (taprootDeployments env.network block.header.time (prev.height + 1)) = .ok view) :
    c.verifyContext env block prev = .ok (c, .ok (view,
      taprootDeployments env.network block.header.time (prev.height + 1))) := by
  have hduplicates : c.verifyDuplicates env block prev = .ok () := by
    rw [verifyDuplicates]
    exact if_pos (List.all_eq_true.2 fun tx htx => by rw [hcoins tx htx]; rfl)
  rw [verifyContext, getDeployments_taproot htaproot, bind_of_ok rfl]
  dsimp only
  rw [show c.withCache c.db.versionBitsCache = c from rfl, hverify, bind_of_ok rfl]
  dsimp only
  rw [hduplicates, hinputs]
  split <;> rfl

/-- A block that pays its coinbase only is connected with the view of that coinbase. -/
theorem verifyInputs_coinbase (c : Chain) (state : DeploymentState) {tx : Transaction}
    (htx : block.txdata = [tx]) (hcoinbase : tx.isCoinBase = true)
    (hsigops : tx.getLegacySigOpCount env * WITNESS_SCALE_FACTOR ≤ MAX_BLOCK_SIGOPS_COST)
    (hclaimed : tx.getOutputValue ≤ getBlockSubsidy (prev.height + 1) env.network) :
    c.verifyInputs env block prev state
      = .ok (CoinView.empty.addTx env tx (prev.height + 1)) := by
  have hlt : getBlockSubsidy (prev.height + 1) env.network < 2 ^ 64 :=
    (getBlockSubsidy_le _ _).trans_lt (by decide)
  have hsubsidy : Word.add 64 0 (getBlockSubsidy (prev.height + 1) env.network)
      = getBlockSubsidy (prev.height + 1) env.network := by
    rw [Word.add_eq (by rwa [Nat.zero_add]), Nat.zero_add]
  have htransactions : c.verifyTransactions env prev state [tx] CoinView.empty 0 0
      = .ok (CoinView.empty.addTx env tx (prev.height + 1), 0) := by
    rw [verifyTransactions, if_pos hcoinbase, pure_bind]
    dsimp only
    rw [Transaction.getSigopCost, if_pos hcoinbase, Nat.zero_add, if_neg (Nat.not_lt.2 hsigops)]
    rfl
  rw [verifyInputs, htx, htransactions, bind_of_ok rfl, Block.getClaimed, htx]
  dsimp only
  rw [if_pos hcoinbase, hsubsidy]
  dsimp only
  rw [if_neg (Nat.not_lt.2 hclaimed)]
  cases env.verifyScripts <;> rfl

end Chain

/-- Blocks that follow one another from genesis on, with the view each of them is connected with. -/
structure Straight (env : Env) where
  block : Nat → Block
  view : Nat → CoinView
  law : env.Lawful
  taproot : ChainDB.TaprootActive env
  genesis : block 0 = env.genesisBlock
  parent (k : Nat) : (block (k + 1)).header.prevBlockhash = env.blockHash (block k).header
  distinct : Function.Injective fun k => env.blockHash (block k).header

namespace Straight

open FMap

variable {env : Env} (s : Straight env) {i j k n : Nat}

def hash (k : Nat) : BlockHash := env.blockHash (s.block k).header

def entry : Nat → ChainEntry
  | 0 => env.genesisEntry
  | k + 1 => { ChainEntry.fromBlockHeader env (s.block (k + 1)).header (some (entry k)) with
      skip := s.hash (getSkipHeight (k + 1)) }

/-- The state record after a block. -/
def record : Nat → ChainState
  | 0 => (ChainState.default.connect env.genesisBlock).commit env.genesisEntry.hash
  | k + 1 =>
    match ChainDB.connectTransactions env (s.view (k + 1)) (s.block (k + 1)).txdata 0
      ((record k).connect (s.block (k + 1))) with
    | .ok state => state.commit (s.hash (k + 1))
    | .error _ => record k

/-- The coins behind a block. -/
def coin : Nat → FMap OutPoint CoinEntry
  | 0 => ∅
  | k + 1 => View.flush CoinEntry.spent (s.view (k + 1)).map (coin k)

/-- The undo records behind a block. -/
def undo : Nat → FMap BlockHash UndoCoins
  | 0 => ∅
  | k + 1 =>
    if (s.view (k + 1)).undo.isEmpty then undo k
    else (undo k).insert (s.hash (k + 1)) (s.view (k + 1)).undo

def flags (k : Nat) : DeploymentState :=
  ChainDB.taprootDeployments env.network (s.block k).header.time k

/-! ## The columns -/

theorem fresh_heights {V : Type} (f : Nat → V) : Fresh ∅ (fun k => (k, f k)) n :=
  ⟨fun _ => Finmap.notMem_empty, fun _ _ h => h⟩

theorem fresh_hashes {V : Type} (f : Nat → V) : Fresh ∅ (fun k => (s.hash k, f k)) n :=
  ⟨fun _ => Finmap.notMem_empty, fun _ _ h => s.distinct h⟩

/-- A column that has a row for each of the blocks. -/
def byHash {V : Type} (f : Nat → V) (n : Nat) : FMap BlockHash V :=
  stack ∅ (fun k => (s.hash k, f k)) n (s.fresh_hashes f)

def heights (n : Nat) : FMap Nat BlockHash :=
  stack ∅ (fun k => (k, s.hash k)) n (fresh_heights s.hash)

theorem fresh_nexts : Fresh ((∅ : FMap BlockHash (List BlockHash)).insert 0 [s.hash 0])
    (fun k => (s.hash k, [s.hash (k + 1)])) n := by
  refine ⟨fun {i} _ hmem => ?_, fun _ _ h => s.distinct h⟩
  rcases Finmap.mem_insert.1 hmem with h | h
  · exact s.law.blockHash_ne_zero _ h
  · exact Finmap.notMem_empty h

/-- The database behind the first `n` blocks on genesis. -/
def db (n : Nat) : ChainDB where
  entryCache := ⟨s.heights (n + 1), s.byHash s.entry (n + 1), []⟩
  state := s.record n
  db := {
    entry := s.byHash s.entry (n + 1)
    coin := s.coin n
    hash := s.heights (n + 1)
    height := s.byHash id (n + 1)
    nextHash := s.byHash (fun k => s.hash (k + 1)) n
    nextHashes := stack _ _ n s.fresh_nexts
    chainState := some (s.record n)
    chainWork := [(chainWorkKey (s.entry n).chainwork (s.hash n), s.entry n)] }
  pending := none
  invalid := ∅
  mostWork := some (s.entry n)
  blocks := ⟨s.byHash s.block (n + 1), s.undo n⟩
  versionBitsCache := .new env.network
  downloaded := (Finset.range (n + 1)).map ⟨s.hash, s.distinct⟩

def snapshot (k : Nat) : Snapshot := ⟨s.entry k, k, s.flags k, s.record k⟩

def told (k : Nat) : Notification :=
  .connect (s.snapshot (k + 1)) (s.entry (k + 1)) (s.block (k + 1)) (s.view (k + 1))

/-- The chain behind the first `n` blocks on genesis. -/
def chain (n : Nat) : Chain where
  db := s.db n
  tip := s.entry n
  height := n
  state := if n = 0 then .default else s.flags n
  notified := (List.range n).map s.told

/-- The chain that also has the next header. -/
def headed (n : Nat) : Chain :=
  { s.chain n with
    db := (s.db n).headerSaved (s.entry (n + 1)) (s.entry n) (some (s.entry (n + 1))) }

/-- The chain that also has the next block, which is not connected yet. -/
def stored (n : Nat) : Chain :=
  { s.headed n with
    db := { (s.headed n).db with
      blocks := ⟨(s.byHash s.block (n + 1)).insert (s.hash (n + 1)) (s.block (n + 1)), s.undo n⟩
      downloaded := insert (s.hash (n + 1)) (s.db n).downloaded } }

/-! ## Reading -/

@[simp] theorem chain_db (n : Nat) : (s.chain n).db = s.db n := rfl

@[simp] theorem stored_tip (n : Nat) : (s.stored n).tip = s.entry n := rfl

@[simp] theorem entry_hash (k : Nat) : (s.entry k).hash = s.hash k := by
  cases k with
  | zero => exact congrArg (fun b : Block => env.blockHash b.header) s.genesis.symm
  | succ k => rfl

@[simp] theorem entry_height (k : Nat) : (s.entry k).height = k := by
  induction k with
  | zero => rfl
  | succ k ih => exact congrArg (· + 1) ih

theorem entry_time (k : Nat) : (s.entry k).time = (s.block k).header.time := by
  cases k with
  | zero => rw [s.genesis]; rfl
  | succ k => rfl

@[simp] theorem entry_prevBlock (k : Nat) : (s.entry (k + 1)).prevBlock = s.hash k := s.parent k

theorem hash_ne_zero (k : Nat) : s.hash k ≠ 0 := s.law.blockHash_ne_zero _

theorem hash_inj : s.hash i = s.hash j ↔ i = j := s.distinct.eq_iff

theorem lookup_byHash {V : Type} (f : Nat → V) (h : i < n) :
    (s.byHash f n).lookup (s.hash i) = some (f i) :=
  lookup_stack (s.fresh_hashes f) h

theorem lookup_byHash_new {V : Type} (f : Nat → V) (h : n ≤ i) :
    (s.byHash f n).lookup (s.hash i) = none := by
  rw [byHash, lookup_stack_of_ne]
  · exact Finmap.lookup_empty _
  · exact fun j hj heq => (hj.trans_le h).ne (s.hash_inj.1 heq)

theorem lookup_heights (h : i < n) : (s.heights n).lookup i = some (s.hash i) :=
  lookup_stack (fresh_heights s.hash) h

theorem lookup_heights_new (h : n ≤ i) : (s.heights n).lookup i = none := by
  rw [heights, lookup_stack_of_ne]
  · exact Finmap.lookup_empty _
  · exact fun j hj heq => (hj.trans_le h).ne heq

theorem getEntryByHash_eq (h : i ≤ n) : (s.db n).getEntryByHash (s.hash i) = some (s.entry i) :=
  s.lookup_byHash s.entry (Nat.lt_succ_of_le h)

theorem getEntryByHash_new (h : n < i) : (s.db n).getEntryByHash (s.hash i) = none :=
  s.lookup_byHash_new s.entry h

theorem exists_entry {hash : BlockHash} {e : ChainEntry}
    (h : (s.db n).getEntryByHash hash = some e) : ∃ i ≤ n, e = s.entry i := by
  rcases lookup_stack_eq_some (s.fresh_hashes s.entry) h with h | ⟨i, hi, heq⟩
  · rw [Finmap.lookup_empty] at h
    cases h
  · exact ⟨i, Nat.le_of_lt_succ hi, (congrArg Prod.snd heq).symm⟩

theorem isMainChain_eq (h : i ≤ n) : (s.db n).isMainChain (s.entry i) = true := by
  rw [ChainDB.isMainChain_iff, entry_height, entry_hash]
  exact s.lookup_heights (Nat.lt_succ_of_le h)

/-- The ancestors are read off the height index. -/
theorem getAncestor_eq (hi : i ≤ n) (hj : j ≤ i) :
    (s.db n).getAncestor (s.entry i) j = .ok (s.entry j) := by
  have hheight : (s.db n).getEntryByHeight j = .ok (some (s.entry j)) := by
    have hhash := s.lookup_byHash s.entry (Nat.lt_succ_of_le (hj.trans hi))
    simp only [ChainDB.getEntryByHeight, db, s.lookup_heights (Nat.lt_succ_of_le (hj.trans hi)),
      hhash]
  rw [ChainDB.getAncestor, entry_height, if_neg (Nat.not_lt.2 hj), if_pos (s.isMainChain_eq hi),
    hheight]
  rfl

theorem chainwork_lt (hpow : env.validatePow (s.block (n + 1)).header = true) :
    (s.entry n).chainwork < (s.entry (n + 1)).chainwork :=
  Nat.lt_add_of_pos_right (s.law.work_pos _ hpow)

/-- The staged copy reads the same entries, and the new entry names its own skip entry. -/
theorem getSkip_staged : ChainDB.getSkip { s.db n with
      pending := some (s.db n).state
      entryCache := (s.db n).entryCache.insertHashBatch (s.entry (n + 1)) } (s.entry (n + 1))
    = .ok (s.entry (getSkipHeight (n + 1))) := by
  have hlt := getSkipHeight_lt (Nat.succ_pos n)
  have hmain : ¬ (s.db n).isMainChain (s.entry (n + 1)) = true := by
    rw [ChainDB.isMainChain_iff, entry_height]
    exact fun h => Option.some_ne_none _ (h.symm.trans (s.lookup_heights_new le_rfl))
  have hstep : ChainDB.ancestorStep (s.entry (n + 1)) (getSkipHeight (n + 1))
      = s.hash (getSkipHeight (n + 1)) := by
    have hne : (s.entry (n + 1)).skip ≠ 0 := s.law.blockHash_ne_zero _
    rw [ChainDB.ancestorStep, if_pos hne, entry_height]
    exact if_pos (.inl rfl)
  have hfound := s.getEntryByHash_eq (Nat.le_of_lt_succ hlt)
  rw [ChainDB.getSkip, entry_height, ChainDB.getAncestor, entry_height, if_neg hlt.not_gt]
  refine (if_neg hmain).trans ?_
  rw [ChainDB.walkAncestor, entry_height, if_neg hlt.ne', hstep]
  dsimp only
  split
  · rename_i hnone
    exact absurd (hfound.symm.trans hnone) (Option.some_ne_none _)
  · rename_i entry hentry
    obtain rfl : s.entry (getSkipHeight (n + 1)) = entry :=
      Option.some.inj (hfound.symm.trans hentry)
    cases n with
    | zero => rfl
    | succ n => exact if_pos (s.entry_height _)

/-- The header of the next block is saved on top of the others. -/
theorem saveEntry_eq (hpow : env.validatePow (s.block (n + 1)).header = true) :
    (s.db n).saveEntry (s.entry (n + 1)) (s.entry n)
      = .ok ((s.db n).headerSaved (s.entry (n + 1)) (s.entry n) (some (s.entry (n + 1)))) := by
  have hgen : (s.entry (n + 1)).isGenesis = false := by simp [ChainEntry.isGenesis]
  rw [ChainDB.saveEntry, ChainDB.start_eq ⟨rfl, rfl⟩, bind_of_ok rfl]
  dsimp only
  rw [hgen, if_neg Bool.false_ne_true, s.getSkip_staged, bind_of_ok rfl, pure_bind]
  refine (bind_of_ok (ChainDB.commit_header ⟨rfl, rfl⟩ _ _)).trans (congrArg Except.ok ?_)
  have hentry : { s.entry (n + 1) with skip := (s.entry (getSkipHeight (n + 1))).hash }
      = s.entry (n + 1) := by
    rw [entry_hash]
    rfl
  rw [hentry]
  exact ChainDB.updateMostWork_of_lt rfl (s.chainwork_lt hpow)

/-! ## The next block -/

/-- The checks that block `n + 1` passes behind the others. -/
structure Extends (now n : Nat) : Prop where
  pow : env.validatePow (s.block (n + 1)).header = true
  target : (s.db n).getTarget env (s.block (n + 1)).header.time (some (s.entry n))
    = .ok (s.block (n + 1)).header.bits
  later : ∀ k ≤ n, (s.block k).header.time < (s.block (n + 1)).header.time
  soon : (s.block (n + 1)).header.time < now + MAX_FUTURE_BLOCK_TIME
  version : 4 ≤ (s.block (n + 1)).header.version
  body : (s.block (n + 1)).checkBody env = .ok ()
  final : ∀ tx ∈ (s.block (n + 1)).txdata, tx.lockTime = 0
  height : n + 1 < env.network.bip34Height
  witness : env.checkWitnessCommitment (s.block (n + 1)) = true
  weight : env.getWeight (s.block (n + 1)) ≤ MAX_BLOCK_WEIGHT
  size : env.getSize (s.block (n + 1)) + 8 ≤ BlockStore.MAX_FILE_LENGTH
  coins : ∀ tx ∈ (s.block (n + 1)).txdata, (s.db n).hasCoins env tx = false
  inputs : (s.stored n).verifyInputs env (s.block (n + 1)) (s.entry n) (s.flags (n + 1))
    = .ok (s.view (n + 1))
  record : ∃ state, ChainDB.connectTransactions env (s.view (n + 1)) (s.block (n + 1)).txdata 0
    ((s.record n).connect (s.block (n + 1))) = .ok state
  fits : (s.view (n + 1)).undo.encodedLen + 40 ≤ BlockStore.MAX_FILE_LENGTH

variable {s} {now : Nat}

/-- The next block is later than the median time of the last ones. -/
theorem Extends.median (h : s.Extends now n) :
    (s.db n).getMedianTime (s.entry n) < (s.block (n + 1)).header.time := by
  have hall : ∀ t ∈ (s.db n).lastTimes MEDIAN_TIMESPAN (s.entry n),
      t < (s.block (n + 1)).header.time := by
    intro t ht
    rcases ChainDB.mem_lastTimes ht with rfl | ⟨hash, e, he, rfl⟩
    · rw [entry_time]
      exact h.later n le_rfl
    · obtain ⟨i, hi, rfl⟩ := s.exists_entry he
      rw [entry_time]
      exact h.later i hi
  by_contra hle
  have hcount := (ChainDB.le_median_iff ChainDB.lastTimes_ne_nil).1 (Nat.not_lt.1 hle)
  rw [List.countP_eq_length.2 fun t (ht : t ∈ (s.db n).lastTimes 11 (s.entry n)) =>
    decide_eq_true (hall t ht)] at hcount
  exact hcount.not_gt (Nat.div_lt_self (List.length_pos_iff.2 ChainDB.lastTimes_ne_nil) one_lt_two)

theorem Extends.contextual (h : s.Extends now n) :
    (s.chain n).contextualCheckBlockHeader env now (s.block (n + 1)).header (s.entry n)
      = .ok () := by
  have hversion (v : Int32) (hv : v ≤ 4) : ¬ (s.block (n + 1)).header.version < v :=
    Int32.not_lt.2 (Int32.le_trans hv h.version)
  have hprev : (s.block (n + 1)).header.prevBlockhash = (s.entry n).hash :=
    (s.parent n).trans (s.entry_hash n).symm
  rw [Chain.contextualCheckBlockHeader, if_neg (not_not.2 hprev), chain_db, h.target]
  dsimp only
  rw [if_neg (not_not.2 rfl), if_neg (Nat.not_le.2 h.median), if_neg (Nat.not_le.2 h.soon), if_neg]
  · rfl
  · rintro (⟨hlt, -⟩ | ⟨hlt, -⟩ | ⟨hlt, -⟩)
    · exact hversion 2 (by decide) hlt
    · exact hversion 3 (by decide) hlt
    · exact hversion 4 (by decide) hlt

theorem Extends.addHeader (h : s.Extends now n) :
    (s.chain n).addHeader env now (s.block (n + 1)).header
      = .ok (s.headed n, .ok (s.entry (n + 1), s.entry n)) := by
  have hinvalid : (s.chain n).hasInvalid (env.blockHash (s.block (n + 1)).header)
      (s.block (n + 1)).header.prevBlockhash = false := rfl
  have hnew : (s.db n).hasHeader (env.blockHash (s.block (n + 1)).header) = false := by
    rw [ChainDB.hasHeader]
    exact congrArg Option.isSome (s.getEntryByHash_new (Nat.lt_succ_self n))
  have hprev : (s.db n).getEntryByHash (s.block (n + 1)).header.prevBlockhash
      = some (s.entry n) := by
    rw [s.parent n]
    exact s.getEntryByHash_eq le_rfl
  have hskip : (s.db n).getAncestor (s.entry n) (getSkipHeight (ChainEntry.fromBlockHeader env
      (s.block (n + 1)).header (some (s.entry n))).height)
      = .ok (s.entry (getSkipHeight (n + 1))) := by
    rw [show (ChainEntry.fromBlockHeader env (s.block (n + 1)).header (some (s.entry n))).height
      = n + 1 from s.entry_height (n + 1)]
    exact s.getAncestor_eq le_rfl (Nat.le_of_lt_succ (getSkipHeight_lt (Nat.succ_pos n)))
  rw [Chain.addHeader, h.pow, Bool.not_true, if_neg Bool.false_ne_true]
  dsimp only
  rw [hinvalid, chain_db, hnew, hprev, if_neg Bool.false_ne_true, if_neg Bool.false_ne_true]
  dsimp only
  rw [hskip, bind_of_ok rfl, h.contextual, entry_hash]
  exact bind_of_ok (s.saveEntry_eq h.pow)

theorem byHash_succ {V : Type} (f : Nat → V) :
    s.byHash f (n + 1) = (s.byHash f n).insert (s.hash n) (f n) := stack_succ _

theorem heights_succ : s.heights (n + 1) = (s.heights n).insert n (s.hash n) := stack_succ _

theorem getNextHashes_last : (s.db n).getNextHashes (s.hash n) = [] := by
  have hnone : (stack _ _ n s.fresh_nexts).lookup (s.hash n) = none := by
    rw [lookup_stack_of_ne s.fresh_nexts fun i hi heq => hi.ne (s.hash_inj.1 heq),
      Finmap.lookup_insert_of_ne _ (s.hash_ne_zero n), Finmap.lookup_empty]
  change ((stack _ _ n s.fresh_nexts).lookup (s.hash n)).getD [] = []
  rw [hnone]
  rfl

/-- Storing the block of the last header. -/
theorem Extends.writeBlock (h : s.Extends now n) :
    (s.headed n).db.writeBlock env (s.hash (n + 1)) (s.block (n + 1)) = .ok (s.stored n).db := by
  have hnew : ¬ s.hash (n + 1) ∈ s.byHash s.block (n + 1) := by
    rw [← Finmap.lookup_eq_none]
    exact s.lookup_byHash_new s.block le_rfl
  rw [ChainDB.writeBlock, BlockStore.writeBlock]
  refine (bind_of_ok ((if_neg hnew).trans (if_neg (Nat.not_lt.2 h.size)))).trans ?_
  rfl

/-- Connecting the stored block leaves the database of the longer line. -/
theorem stored_connected : (s.stored n).db.connected (s.entry (n + 1)) (s.view (n + 1))
    (s.record (n + 1)) ⟨s.byHash s.block (n + 2), s.undo (n + 1)⟩ = s.db (n + 1) := by
  have hentries : (s.byHash s.entry (n + 1)).insert (s.hash (n + 1)) (s.entry (n + 1))
      = s.byHash s.entry (n + 2) := (s.byHash_succ s.entry).symm
  have hagain : (s.byHash s.entry (n + 2)).insert (s.hash (n + 1)) (s.entry (n + 1))
      = s.byHash s.entry (n + 2) :=
    FMap.insert_of_lookup (s.lookup_byHash s.entry (Nat.lt_succ_self (n + 1)))
  have hheights : (s.byHash id (n + 1)).insert (s.hash (n + 1)) (n + 1) = s.byHash id (n + 2) :=
    (s.byHash_succ id).symm
  have hnext : (s.byHash (fun k => s.hash (k + 1)) n).insert (s.hash n) (s.hash (n + 1))
      = s.byHash (fun k => s.hash (k + 1)) (n + 1) := (s.byHash_succ _).symm
  have hnexts : (stack _ _ n s.fresh_nexts).insert (s.hash n) [s.hash (n + 1)]
      = stack _ _ (n + 1) s.fresh_nexts := (stack_succ s.fresh_nexts).symm
  have hdownloaded : insert (s.hash (n + 1)) ((Finset.range (n + 1)).map ⟨s.hash, s.distinct⟩)
      = (Finset.range (n + 2)).map ⟨s.hash, s.distinct⟩ := by
    rw [Finset.range_add_one (n := n + 1), Finset.map_insert]
    rfl
  have hcoin : View.flush CoinEntry.spent (s.view (n + 1)).map (s.coin n) = s.coin (n + 1) := rfl
  have hcache : (VersionBitsCache.new env.network).commit.commit = .new env.network := rfl
  simp only [stored, headed, ChainDB.connected, ChainDB.headerSaved, entry_hash, entry_height,
    entry_prevBlock, getNextHashes_last, Database.writeBatch_cons, Database.writeBatch_nil,
    Operation.apply, Database.insert, Database.remove, List.nil_append]
  simp [db, hentries, hagain, hheights, hnext, hnexts, hdownloaded, ← s.heights_succ, hcoin,
    hcache]

theorem notMem_undo (h : n < i) : s.hash i ∉ s.undo n := by
  induction n with
  | zero => exact Finmap.notMem_empty
  | succ n ih =>
    have hi := ih ((Nat.lt_succ_self n).trans h)
    rw [undo]
    split_ifs
    · exact hi
    · rw [Finmap.mem_insert, not_or]
      exact ⟨fun heq => h.ne' (s.hash_inj.1 heq), hi⟩

theorem Extends.writeUndo (h : s.Extends now n) :
    (s.stored n).db.writeUndo (s.entry (n + 1)) (s.view (n + 1))
      = .ok ⟨s.byHash s.block (n + 2), s.undo (n + 1)⟩ := by
  have hblocks : (s.stored n).db.blocks = ⟨s.byHash s.block (n + 2), s.undo n⟩ :=
    congrArg (BlockStore.mk · (s.undo n)) (s.byHash_succ s.block).symm
  rw [ChainDB.writeUndo, hblocks, entry_hash, Straight.undo]
  split_ifs
  · rfl
  · rw [BlockStore.writeUndo, if_neg (s.notMem_undo (Nat.lt_succ_self n)),
      if_neg (Nat.not_lt.2 h.fits)]

theorem Extends.verify (h : s.Extends now n) (c : Chain) :
    c.verify env (s.block (n + 1)) (s.entry n) = .ok (c, .ok ()) := by
  refine Chain.verify_pass s.taproot c ?_ h.body h.final ?_ h.witness h.weight
  · rw [entry_hash]
    exact s.parent n
  · rw [entry_height]
    exact h.height

theorem Extends.connectBlock (h : s.Extends now n) :
    (s.stored n).db.connect env (s.entry (n + 1)) (s.block (n + 1)) (s.view (n + 1))
      = .ok (s.db (n + 1)) := by
  have hgen : (s.entry (n + 1)).isGenesis = false := by simp [ChainEntry.isGenesis]
  obtain ⟨state, hstate⟩ := h.record
  have hrecord : state.commit (s.hash (n + 1)) = s.record (n + 1) := by
    rw [Straight.record, hstate]
  rw [ChainDB.connect_eq ⟨rfl, rfl⟩ hgen (s.entry_hash (n + 1)).symm]
  refine (bind_of_ok hstate).trans ((bind_of_ok h.writeUndo).trans (congrArg Except.ok ?_))
  rw [entry_hash, hrecord, stored_connected]

theorem notified_succ :
    (List.range (n + 1)).map s.told = (List.range n).map s.told ++ [s.told n] := by
  rw [List.range_succ, List.map_append, List.map_singleton]

/-- The stored block becomes the tip, and the listeners are told. -/
theorem Extends.connect (h : s.Extends now n) :
    (s.stored n).connect env (s.block (n + 1)) (s.entry (n + 1)) (s.entry n)
      = .ok (s.chain (n + 1), .ok (s.entry (n + 1))) := by
  have hinputs : (s.stored n).verifyInputs env (s.block (n + 1)) (s.entry n)
      (ChainDB.taprootDeployments env.network (s.block (n + 1)).header.time
        ((s.entry n).height + 1)) = .ok (s.view (n + 1)) := by
    rw [entry_height]
    exact h.inputs
  have hcontext := Chain.verifyContext_pass s.taproot (s.stored n) (h.verify _) h.coins hinputs
  rw [Chain.connect, if_neg (not_not.2 ((s.parent n).trans (s.entry_hash n).symm)), stored_tip,
    if_neg (not_not.2 rfl), hcontext, bind_of_ok rfl]
  dsimp only
  rw [h.connectBlock, bind_of_ok rfl, chain, notified_succ, if_neg n.succ_ne_zero]
  simp only [entry_height]
  rfl

/-! ## Calls -/

theorem headed_entry :
    (s.headed n).db.getEntryByHash (s.hash (n + 1)) = some (s.entry (n + 1)) :=
  Finmap.lookup_insert _

theorem stored_entry :
    (s.stored n).db.getEntryByHash (s.hash (n + 1)) = some (s.entry (n + 1)) :=
  Finmap.lookup_insert _

theorem headed_hasBlock : (s.headed n).db.hasBlock (s.hash (n + 1)) = false := by
  refine decide_eq_false fun hmem => ?_
  have hle := (Finset.mem_map' ⟨s.hash, s.distinct⟩).1 hmem
  exact absurd (Finset.mem_range.1 hle) (Nat.lt_irrefl (n + 1))

theorem stored_isBlockReady : (s.stored n).isBlockReady (s.hash (n + 1)) = true :=
  Chain.isBlockReady_iff.2 ⟨Finset.notMem_empty _, Finset.mem_insert_self _ _⟩

theorem stored_getBlock : (s.stored n).db.getBlock (s.hash (n + 1)) = some (s.block (n + 1)) :=
  Finmap.lookup_insert _

/-- The waiting block is the only one in the queue. -/
theorem Extends.buildQueue (h : s.Extends now n) :
    (s.stored n).buildQueue (s.entry (n + 1)) (s.entry n) (some (s.block (n + 1)))
      = .ok [⟨s.entry (n + 1), s.entry n, some (s.block (n + 1))⟩] := by
  have hready : (s.stored n).isBlockReady (s.entry (n + 1)).hash = true := by
    rw [entry_hash]
    exact s.stored_isBlockReady
  have hnone : (s.stored n).db.getNextEntries (s.entry (n + 1)).hash = .ok [] := by
    have hnexts : (s.stored n).db.getNextHashes (s.hash (n + 1)) = [] := by
      rw [← s.getNextHashes_last, ← stored_connected]
      rfl
    rw [entry_hash, ChainDB.getNextEntries, hnexts]
    rfl
  have hmain : (s.stored n).db.isMainChain (s.entry n) = true := s.isMainChain_eq le_rfl
  have hancestors (queue : List Chain.Queued) :
      (s.stored n).queueAncestors (s.entry n).height (s.entry n) queue = .ok (some queue) := by
    unfold Chain.queueAncestors
    exact if_pos hmain
  have hbest : (s.stored n).getNextBest (s.entry (n + 1)) = .ok [] := by
    rw [Chain.getNextBest, Chain.bestPath, hready, Bool.not_true, if_neg Bool.false_ne_true, hnone]
    rfl
  rw [Chain.buildQueue, hready, Bool.not_true, if_neg Bool.false_ne_true, hancestors,
    bind_of_ok rfl]
  dsimp only
  rw [hbest, bind_of_ok rfl]
  exact congrArg Except.ok (if_neg (Nat.not_le.2 (s.chainwork_lt h.pow)))

/-- Adding the next block. -/
theorem Extends.add (h : s.Extends now n) :
    (s.chain n).add env now (s.block (n + 1)) = .ok (s.chain (n + 1), .ok (s.entry (n + 1))) := by
  have hnew : (s.db n).getEntryByHash (env.blockHash (s.block (n + 1)).header) = none :=
    s.getEntryByHash_new (Nat.lt_succ_self n)
  have hblock : (s.headed n).db.hasBlock (env.blockHash (s.block (n + 1)).header) = false :=
    s.headed_hasBlock
  have hadded : (s.headed n).addBlock env (s.block (n + 1)) (s.entry (n + 1)) (s.entry n)
      = .ok (s.stored n, .ok ()) := by
    rw [Chain.addBlock, hblock, if_neg Bool.false_ne_true, h.verify, bind_of_ok rfl, entry_hash]
    exact bind_of_ok h.writeBlock
  have hprev : (s.entry (n + 1)).prevBlock = (s.entry n).hash :=
    (s.entry_prevBlock n).trans (s.entry_hash n).symm
  have hbest : (s.stored n).connectBest env (s.entry (n + 1)) (s.entry n) (some (s.block (n + 1)))
      = .ok (s.chain (n + 1), .ok ()) := by
    rw [Chain.connectBest, if_neg (not_not.2 hprev), h.buildQueue, bind_of_ok rfl]
    dsimp only
    rw [Chain.disconnectTo, stored_tip, if_pos hprev.symm, bind_of_ok rfl, Chain.connectQueue]
    dsimp only [Option.some_or]
    rw [h.connect]
    rfl
  rw [Chain.add, chain_db, hnew]
  dsimp only
  rw [h.addHeader, bind_of_ok rfl]
  dsimp only
  rw [Chain.addWith, hadded, bind_of_ok rfl]
  dsimp only
  rw [hbest]
  rfl

/-! ## Runs -/

/-- The calls that add the first `n` blocks lead to the chain behind them. -/
theorem runFrom_eq (h : ∀ k < n, s.Extends now k) (calls : List Call) :
    Chain.runFrom env (s.chain 0)
      ((List.range n).map (fun k => Call.add now (s.block (k + 1))) ++ calls)
      = Chain.runFrom env (s.chain n) calls := by
  induction n generalizing calls with
  | zero => rfl
  | succ n ih =>
    have hstep : (s.chain n).step env (.add now (s.block (n + 1)))
        = .ok (s.chain (n + 1), .ok ()) := by
      rw [Chain.step, (h n (Nat.lt_succ_self n)).add]
      rfl
    rw [List.range_succ, List.map_append, List.append_assoc,
      ih fun k hk => h k (hk.trans (Nat.lt_succ_self n))]
    exact bind_of_ok hstep

theorem run_eq (hnew : Chain.new env = .ok (s.chain 0)) (h : ∀ k < n, s.Extends now k)
    (calls : List Call) :
    Chain.run env ((List.range n).map (fun k => Call.add now (s.block (k + 1))) ++ calls)
      = Chain.runFrom env (s.chain n) calls :=
  (bind_of_ok hnew).trans (runFrom_eq h calls)

/-! ## Blocks that pay a reward only -/

theorem lookup_coin_eq_none {o : OutPoint} (h : ∀ k < n, o ∉ (s.view (k + 1)).map) :
    (s.coin n).lookup o = none := by
  induction n with
  | zero => exact Finmap.lookup_empty o
  | succ n ih =>
    rw [coin, View.lookup_flush, AList.lookup_eq_none.2 (h n (Nat.lt_succ_self n))]
    exact ih fun k hk => h k (hk.trans (Nat.lt_succ_self n))

theorem hasCoins_eq_false {tx : Transaction}
    (h : ∀ k < n, ∀ o ∈ (s.view (k + 1)).map, o.txid ≠ env.txid tx) :
    (s.db n).hasCoins env tx = false := by
  rw [ChainDB.hasCoins, List.any_eq_false]
  intro vout _
  have hnone : (s.coin n).lookup ⟨env.txid tx, vout⟩ = none :=
    s.lookup_coin_eq_none fun k hk ho => h k hk _ ho rfl
  exact fun hmem => Finmap.lookup_eq_none.1 hnone (of_decide_eq_true hmem)

end Straight

namespace Small

/-- The small network with headers numbered by their nonce, whatever its ids, its scripts and the
rules of its later heights. -/
structure Plain (env : Env) : Prop where
  law : env.Lawful
  blockHash (header : BlockHeader) : env.blockHash header = header.nonce + 1
  txid (tx tx' : Transaction) : env.txid tx = env.txid tx' → txid tx = txid tx'
  genesis : env.genesisBlock = block 0 10 0 [coinbase 0 5000000000]
  pow (header : BlockHeader) : env.validatePow header = true
  merkle (block : Block) : env.checkMerkleRoot block
    = (block.header.merkleRoot == (block.txdata.map Small.txid).sum)
  witness (block : Block) : env.checkWitnessCommitment block = true
  weight (block : Block) : env.getWeight block = 1000
  size (block : Block) : env.getSize block = 1000
  instructions (script : Script) : env.instructions script = []
  unspendable (script : Script) : env.isProvablyUnspendable script = (script.head? == some 0x6a)
  minDifficulty : env.network.allowMinDifficultyBlocks = false
  halving : env.network.halvingInterval = 210000
  deployments : env.network.deployments = network.deployments

variable {env : Env} {delay label now n : Nat} {txs : Nat → List Transaction}
  {view : Nat → CoinView}

/-- Blocks with given transactions on genesis, one a second, numbered by their nonces. -/
def lineBlock (env : Env) (delay : Nat) (txs : Nat → List Transaction) : Nat → Block
  | 0 => env.genesisBlock
  | k + 1 => block (k + 1) (k + 1 + delay) (k + 1) (txs (k + 1))

theorem blockHash_lineBlock (h : Plain env) (k : Nat) :
    env.blockHash (lineBlock env delay txs k).header = k + 1 := by
  rw [h.blockHash]
  cases k with
  | zero =>
    rw [lineBlock, h.genesis]
    rfl
  | succ k => rfl

def line (h : Plain env) (delay : Nat) (txs : Nat → List Transaction) (view : Nat → CoinView) :
    Straight env where
  block := lineBlock env delay txs
  view := view
  law := h.law
  taproot := by
    rw [ChainDB.TaprootActive, h.deployments]
    exact ⟨_, rfl, rfl⟩
  genesis := rfl
  parent k := (blockHash_lineBlock h k).symm
  distinct i j hij := by
    simpa only [blockHash_lineBlock h, Nat.add_right_cancel_iff] using hij

/-- The headers pass; what is left to check are the transactions. -/
theorem line_extends (h : Plain env) (hdelay : 10 ≤ delay)
    (hinterval : n + 1 < DIFFCHANGE_INTERVAL) (hheight : n + 1 < env.network.bip34Height)
    (hsoon : n + 1 + delay < now + MAX_FUTURE_BLOCK_TIME)
    (hbody : (lineBlock env delay txs (n + 1)).checkBody env = .ok ())
    (hfinal : ∀ tx ∈ txs (n + 1), tx.lockTime = 0)
    (hcoins : ∀ tx ∈ txs (n + 1), ((line h delay txs view).db n).hasCoins env tx = false)
    (hinputs : ((line h delay txs view).stored n).verifyInputs env
      (lineBlock env delay txs (n + 1)) ((line h delay txs view).entry n)
      ((line h delay txs view).flags (n + 1)) = .ok (view (n + 1)))
    (hrecord : ∃ state, ChainDB.connectTransactions env (view (n + 1)) (txs (n + 1)) 0
      (((line h delay txs view).record n).connect (lineBlock env delay txs (n + 1))) = .ok state)
    (hfits : (view (n + 1)).undo.encodedLen + 40 ≤ BlockStore.MAX_FILE_LENGTH) :
    (line h delay txs view).Extends now n where
  pow := h.pow _
  target := by
    have hbits : ((line h delay txs view).entry n).bits = 0 := by
      cases n with
      | zero =>
        change env.genesisBlock.header.bits = 0
        rw [h.genesis]
        rfl
      | succ n => rfl
    rw [ChainDB.getTarget, Straight.entry_height, Nat.mod_eq_of_lt hinterval,
      if_pos n.succ_ne_zero, h.minDifficulty, if_neg Bool.false_ne_true, hbits]
    rfl
  later k hk := by
    cases k with
    | zero =>
      change env.genesisBlock.header.time < n + 1 + delay
      rw [h.genesis]
      exact hdelay.trans_lt (Nat.lt_add_of_pos_left n.succ_pos)
    | succ k => exact Nat.add_lt_add_right (Nat.lt_succ_of_le hk) delay
  soon := hsoon
  version := Int32.le_refl 4
  body := hbody
  final := hfinal
  height := hheight
  witness := h.witness _
  weight := by
    rw [h.weight]
    decide
  size := by
    rw [h.size]
    decide
  coins := hcoins
  inputs := hinputs
  record := hrecord
  fits := hfits

/-! ### Rewards -/

/-- The full reward, in a coinbase that names some height. -/
def rewardView (env : Env) (label height : Nat) : CoinView :=
  CoinView.empty.addTx env (coinbase label 5000000000) height

theorem txid_of_mem_rewardView {height : Nat} {o : OutPoint}
    (h : o ∈ (rewardView env label height).map) : o.txid = env.txid (coinbase label 5000000000) :=
  (CoinView.txid_of_mem_indexOutputs h).resolve_left (AList.notMem_empty _)

theorem coinbase_inj {i j value : Nat} (hi : i < 65536) (hj : j < 65536)
    (h : txid (coinbase i value) = txid (coinbase j value)) : i = j := by
  have hcode := scriptCode_injective (Nat.pair_eq_pair.1 h).2
  injection hcode with hhigh hlow
  injection hlow with hlow
  have hhigh := congrArg UInt8.toNat hhigh
  have hlow := congrArg UInt8.toNat hlow
  simp only [UInt8.toNat_ofNat'] at hhigh hlow
  omega

theorem getLegacySigOpCount_coinbase (h : Plain env) :
    (coinbase label 5000000000).getLegacySigOpCount env = 0 := by
  simp [Transaction.getLegacySigOpCount, Script.getSigOpCount, h.instructions, coinbase,
    Script.countSigOps]

theorem checkBody_coinbase (h : Plain env) (prev time nonce : Nat) :
    (block prev time nonce [coinbase label 5000000000]).checkBody env = .ok () := by
  have hmerkle : env.checkMerkleRoot (block prev time nonce [coinbase label 5000000000])
      = true := by
    rw [h.merkle]
    exact beq_self_eq_true _
  have hsanity : (coinbase label 5000000000).checkSanity = .ok () := rfl
  have hall : Block.checkTransactions env [coinbase label 5000000000] 0 0 = .ok 0 := by
    rw [Block.checkTransactions, hsanity, getLegacySigOpCount_coinbase h]
    rfl
  have hsize : (block prev time nonce [coinbase label 5000000000]).strippedSize = 143 := rfl
  rw [Block.checkBody, hmerkle, hsize]
  exact bind_of_ok hall

/-- A block that pays a reward only. -/
theorem line_extends_coinbase (h : Plain env) (hdelay : 10 ≤ delay)
    (hinterval : n + 1 < DIFFCHANGE_INTERVAL) (hheight : n + 1 < env.network.bip34Height)
    (hsoon : n + 1 + delay < now + MAX_FUTURE_BLOCK_TIME)
    (htxs : txs (n + 1) = [coinbase label 5000000000])
    (hview : view (n + 1) = rewardView env label (n + 1))
    (hcoins : ((line h delay txs view).db n).hasCoins env (coinbase label 5000000000) = false) :
    (line h delay txs view).Extends now n := by
  have hblock : lineBlock env delay txs (n + 1)
      = block (n + 1) (n + 1 + delay) (n + 1) [coinbase label 5000000000] := by
    rw [lineBlock, htxs]
  have hsubsidy : getBlockSubsidy (n + 1) env.network = 5000000000 := by
    rw [getBlockSubsidy, h.halving, Nat.div_eq_of_lt (hinterval.trans (by decide))]
    rfl
  refine line_extends h hdelay hinterval hheight hsoon ?_ ?_ ?_ ?_ ?_ ?_
  · rw [hblock]
    exact checkBody_coinbase h _ _ _
  · rw [htxs]
    exact List.forall_mem_singleton.2 rfl
  · rw [htxs]
    exact List.forall_mem_singleton.2 hcoins
  · refine (Chain.verifyInputs_coinbase _ _ (congrArg Block.txdata hblock) rfl ?_ ?_).trans ?_
    · rw [getLegacySigOpCount_coinbase h]
      decide
    · rw [Straight.entry_height, hsubsidy]
      exact le_rfl
    · rw [hview, Straight.entry_height]
      rfl
  · rw [htxs]
    exact ⟨_, rfl⟩
  · rw [hview, rewardView, CoinView.undo_addTx]
    decide

/-- Blocks that pay a reward only, in coinbases that name given heights. -/
def rewards (h : Plain env) (delay : Nat) (label : Nat → Nat) : Straight env :=
  line h delay (fun k => [coinbase (label k) 5000000000]) fun k => rewardView env (label k) k

theorem rewards_extends (h : Plain env) {label : Nat → Nat} {k : Nat} (hdelay : 10 ≤ delay)
    (hinterval : n < DIFFCHANGE_INTERVAL) (hheight : n < env.network.bip34Height)
    (hsoon : n + delay < now + MAX_FUTURE_BLOCK_TIME) (hlt : ∀ i ≤ n, label i < 65536)
    (hlabel : ∀ i j, 0 < i → i < j → j ≤ n → label i ≠ label j) (hk : k < n) :
    (rewards h delay label).Extends now k := by
  refine line_extends_coinbase h hdelay (Nat.lt_of_le_of_lt hk hinterval)
    (Nat.lt_of_le_of_lt hk hheight) (Nat.lt_of_le_of_lt (Nat.add_le_add_right hk delay) hsoon)
    rfl rfl (Straight.hasCoins_eq_false fun i hi o ho htxid => ?_)
  rw [txid_of_mem_rewardView ho] at htxid
  exact hlabel (i + 1) (k + 1) i.succ_pos (Nat.succ_lt_succ hi) hk
    (coinbase_inj (hlt _ (hi.trans hk)) (hlt _ hk) (h.txid _ _ htxid))

end Small

end BitcoinNode
