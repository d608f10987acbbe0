import BitcoinNode.Blockchain.Work
import BitcoinNode.Mempool.MemPool

/-!
# A node: the chain and the pool that listens to it

The pool is called after each block that the chain connects or disconnects, with the chain
as it is then. Runs interleave the moves of the chain with transactions added to the pool.
-/

namespace BitcoinNode

namespace MemPool

def handleConnect (env : Env) (pool : MemPool) (block : Block) : Except Panic MemPool :=
  pool.addBlock env block.txdata

def handleDisconnect (env : Env) (pool : MemPool) (c : Chain) (now : Nat) (block : Block) :
    Except Panic MemPool :=
  pool.removeBlock env c now block.txdata

theorem new_isEmpty : new.isEmpty = true := rfl

theorem addBlock_new (env : Env) (txs : List Transaction) : new.addBlock env txs = .ok .new := by
  rw [addBlock, if_pos new_isEmpty]

theorem removeBlock_new (env : Env) (c : Chain) (now : Nat) (txs : List Transaction) :
    new.removeBlock env c now txs = .ok .new := by
  rw [removeBlock, if_pos new_isEmpty]

end MemPool

structure Node where
  chain : Chain
  pool : MemPool

namespace Node

/-- A step of the node; what the chain told its listeners decides what the pool does. -/
inductive Step (env : Env) : Node → Node → Prop where
  | quiet {n : Node} {c : Chain} :
      Chain.Move env n.chain c → c.notified = n.chain.notified → Step env n ⟨c, n.pool⟩
  | connect {n : Node} {c : Chain} {s : Snapshot} {entry : ChainEntry} {block : Block}
      {view : CoinView} {pool : MemPool} :
      Chain.Move env n.chain c →
      c.notified = n.chain.notified ++ [.connect s entry block view] →
      n.pool.handleConnect env block = .ok pool → Step env n ⟨c, pool⟩
  | disconnect {n : Node} {c : Chain} {s : Snapshot} {entry : ChainEntry} {block : Block}
      {view : CoinView} {pool : MemPool} {now : Nat} :
      Chain.Move env n.chain c →
      c.notified = n.chain.notified ++ [.disconnect s entry block view] →
      n.pool.handleDisconnect env c now block = .ok pool → Step env n ⟨c, pool⟩
  | addTx {n : Node} {now : Nat} {tx : Transaction} {pool : MemPool}
      {result : Except MempoolError Unit} :
      n.pool.addTx env n.chain now tx = .ok (pool, result) → Step env n ⟨n.chain, pool⟩

/-- The states of a node that starts on a fresh database with an empty pool. -/
def Visited (env : Env) (n : Node) : Prop :=
  ∃ c₀, Chain.new env = .ok c₀ ∧ Relation.ReflTransGen (Step env) ⟨c₀, .new⟩ n

/-! ## Runs as functions -/

/-- What a run does next. -/
inductive Act where
  | header (header : BlockHeader)
  | block (hash : BlockHash) (block : Block)
  | connect (hash : BlockHash)
  | disconnect
  | addTx (tx : Transaction)

/-- One act of a run, where it is possible; the clock stands at `now`. -/
def act (env : Env) (now : Nat) (n : Node) : Act → Option Node
  | .header header =>
    match n.chain.addHeader env now header with
    | .ok (c, .ok _) => some ⟨c, n.pool⟩
    | _ => none
  | .block hash block =>
    match n.chain.db.getEntryByHash hash, n.chain.db.writeBlock env hash block with
    | some entry, .ok db =>
      if entry.hash = hash ∧ env.blockHash block.header = hash
          ∧ n.chain.db.hasBlock hash = false ∧ block.checkBody env = .ok () then
        some ⟨{ n.chain with db := db }, n.pool⟩
      else none
    | _, _ => none
  | .connect hash =>
    match n.chain.db.getEntryByHash hash, n.chain.db.getBlock hash with
    | some entry, some block =>
      if entry.hash = hash ∧ n.chain.isBlockReady hash ∧ entry.prevBlock = n.chain.tip.hash then
        match n.chain.connect env block entry n.chain.tip, n.pool.handleConnect env block with
        | .ok (c, .ok _), .ok pool => some ⟨c, pool⟩
        | _, _ => none
      else none
    | _, _ => none
  | .disconnect =>
    match n.chain.db.getBlock n.chain.tip.hash, n.chain.disconnect env n.chain.tip with
    | some block, .ok c =>
      match n.pool.handleDisconnect env c now block with
      | .ok pool => some ⟨c, pool⟩
      | .error _ => none
    | _, _ => none
  | .addTx tx =>
    match n.pool.addTx env n.chain now tx with
    | .ok (pool, _) => some ⟨n.chain, pool⟩
    | .error _ => none

def run (env : Env) (now : Nat) : Node → List Act → Option Node
  | n, [] => some n
  | n, a :: acts => (n.act env now a).bind fun n => run env now n acts

variable {env : Env} {n n' : Node} {now : Nat}

theorem act_connect {hash : BlockHash} (h : n.act env now (.connect hash) = some n') :
    ∃ entry block c pool, n.chain.db.getEntryByHash entry.hash = some entry
      ∧ entry.hash = hash ∧ n.chain.isBlockReady entry.hash = true
        ∧ n.chain.db.getBlock entry.hash = some block
      ∧ entry.prevBlock = n.chain.tip.hash
      ∧ n.chain.connect env block entry n.chain.tip = .ok (c, .ok entry)
      ∧ n.pool.handleConnect env block = .ok pool ∧ n' = ⟨c, pool⟩ := by
  simp only [act] at h
  split at h
  · rename_i entry block hentry hblock
    split at h
    · rename_i hcond
      obtain ⟨rfl, hready, hprev⟩ := hcond
      split at h
      · rename_i c result pool hconnect hpool
        obtain rfl := Option.some.inj h
        obtain ⟨-, -, _, ⟨_, hr, -⟩ | ⟨_, _, _, hr, -⟩⟩ := Chain.connect_eq_ok hconnect
        · cases hr
        · obtain rfl := Except.ok.inj hr
          exact ⟨_, block, c, pool, hentry, rfl, hready, hblock, hprev, hconnect, hpool, rfl⟩
      · cases h
    · cases h
  · cases h

theorem act_step {a : Act} (h : n.act env now a = some n') : Step env n n' := by
  cases a with
  | header header =>
    simp only [act] at h
    split at h
    · rename_i c result hadd
      obtain rfl := Option.some.inj h
      obtain ⟨_, hr, -⟩ | ⟨_, _, _, _, _, -, -, -, -, -, -, -, -, rfl⟩ :=
        Chain.addHeader_eq_ok hadd
      · cases hr
      · exact .quiet (.header hadd) rfl
    · cases h
  | block hash block =>
    simp only [act] at h
    split at h
    · rename_i entry db hentry hwrite
      split at h
      · rename_i hcond
        obtain ⟨rfl, hhash, hnew, hbody⟩ := hcond
        obtain rfl := Option.some.inj h
        exact .quiet (.block hentry hhash hnew hbody hwrite) rfl
      · cases h
    · cases h
  | connect hash =>
    obtain ⟨entry, block, c, pool, hentry, -, hready, hblock, hprev, hconnect, hpool, rfl⟩ :=
      act_connect h
    obtain ⟨-, -, cache, ⟨_, hr, -⟩ | ⟨view, state, db, -, -, -, -, -, rfl⟩⟩ :=
      Chain.connect_eq_ok hconnect
    · cases hr
    · exact .connect (.connect hentry hready hblock hprev hconnect) rfl hpool
  | disconnect =>
    simp only [act] at h
    split at h
    · rename_i block c hblock hdisconnect
      split at h
      · rename_i pool hpool
        obtain rfl := Option.some.inj h
        obtain ⟨block', prev, db, view, hblock', -, -, rfl⟩ :=
          Chain.disconnect_eq_ok hdisconnect
        obtain rfl := Option.some.inj (hblock.symm.trans hblock')
        exact .disconnect (.disconnect hdisconnect) rfl hpool
      · cases h
    · cases h
  | addTx tx =>
    simp only [act] at h
    split at h
    · rename_i pool result hadd
      obtain rfl := Option.some.inj h
      exact .addTx hadd
    · cases h

theorem run_steps {acts : List Act} (h : run env now n acts = some n') :
    Relation.ReflTransGen (Step env) n n' := by
  induction acts generalizing n with
  | nil =>
    obtain rfl := Option.some.inj h
    exact .refl
  | cons a acts ih =>
    obtain ⟨n₁, hact, hrun⟩ := Option.bind_eq_some_iff.1 h
    exact .head (act_step hact) (ih hrun)

/-- A run that ends in a state with a decided property visits such a state. -/
theorem exists_visited (env : Env) (now : Nat) (acts : List Act) (P : Node → Bool)
    (h : (match Chain.new env with
      | .ok c => ((run env now ⟨c, .new⟩ acts).map P).getD false
      | .error _ => false) = true) : ∃ n, Visited env n ∧ P n = true := by
  split at h
  · rename_i c hnew
    cases hrun : run env now ⟨c, .new⟩ acts with
    | none => simp [hrun] at h
    | some n => exact ⟨n, ⟨c, hnew, run_steps hrun⟩, by simpa [hrun] using h⟩
  · cases h

/-- The chain of a visited node is visited. -/
theorem Visited.chain (h : Visited env n) : Chain.Visited env n.chain := by
  obtain ⟨c₀, hnew, hrun⟩ := h
  refine ⟨c₀, hnew, ?_⟩
  induction hrun with
  | refl => exact .refl
  | tail _ hstep ih =>
    cases hstep with
    | quiet hmove _ => exact ih.tail hmove
    | connect hmove _ _ => exact ih.tail hmove
    | disconnect hmove _ _ => exact ih.tail hmove
    | addTx _ => exact ih

/-- The pool of a visited node is one that calls made. -/
theorem Visited.pool (h : Visited env n) : MemPool.Reachable env n.pool := by
  obtain ⟨c₀, -, hrun⟩ := h
  induction hrun with
  | refl => exact .new
  | @tail n _ _ hstep ih =>
    cases hstep with
    | quiet _ _ => exact ih
    | @connect _ _ _ block _ _ _ _ hpool =>
      exact @MemPool.Reachable.step env _ _ (.addBlock block.txdata) ih hpool
    | @disconnect c _ _ block _ _ now _ _ hpool =>
      exact @MemPool.Reachable.step env _ _ (.removeBlock c now block.txdata) ih hpool
    | @addTx now tx _ _ hadd =>
      refine @MemPool.Reachable.step env _ _ (.addTx n.chain now tx) ih ?_
      rw [MemPool.step, bind_of_ok hadd]
      rfl

/-! ## Straight runs -/

/-- What leads a node through the first `k` blocks of a straight run. -/
def straightActs (s : Straight env) (k : Nat) : List Act :=
  (List.range k).flatMap fun k => [.header (s.block (k + 1)).header,
    .block (s.hash (k + 1)) (s.block (k + 1)), .connect (s.hash (k + 1))]

variable {s : Straight env} {k : Nat}

theorem act_header_straight (h : s.Extends now k) (pool : MemPool) :
    act env now ⟨s.chain k, pool⟩ (.header (s.block (k + 1)).header)
      = some ⟨s.headed k, pool⟩ := by
  rw [act, h.addHeader]

theorem act_block_straight (h : s.Extends now k) (pool : MemPool) :
    act env now ⟨s.headed k, pool⟩ (.block (s.hash (k + 1)) (s.block (k + 1)))
      = some ⟨s.stored k, pool⟩ := by
  rw [act, h.writeBlock, s.headed_entry]
  exact if_pos ⟨s.entry_hash (k + 1), rfl, s.headed_hasBlock, h.body⟩

theorem act_connect_straight (h : s.Extends now k) :
    act env now ⟨s.stored k, .new⟩ (.connect (s.hash (k + 1))) = some ⟨s.chain (k + 1), .new⟩ := by
  have hprev : (s.entry (k + 1)).prevBlock = (s.entry k).hash :=
    (s.entry_prevBlock k).trans (s.entry_hash k).symm
  rw [act, s.stored_entry, s.stored_getBlock]
  refine (if_pos ⟨s.entry_hash (k + 1), s.stored_isBlockReady, hprev⟩).trans ?_
  dsimp only [MemPool.handleConnect]
  rw [MemPool.addBlock_new, s.stored_tip, h.connect]

/-- The pool stays empty on the way. -/
theorem run_straight (h : ∀ j < k, s.Extends now j) (acts : List Act) :
    run env now ⟨s.chain 0, .new⟩ (straightActs s k ++ acts)
      = run env now ⟨s.chain k, .new⟩ acts := by
  induction k generalizing acts with
  | zero => rfl
  | succ k ih =>
    have hk := h k (Nat.lt_succ_self k)
    rw [straightActs, List.range_succ, List.flatMap_append, List.append_assoc]
    refine (ih (fun j hj => h j (hj.trans (Nat.lt_succ_self k))) _).trans ?_
    change (act env now _ _).bind _ = _
    rw [act_header_straight hk, Option.bind_some]
    change (act env now _ _).bind _ = _
    rw [act_block_straight hk, Option.bind_some]
    change (act env now _ _).bind _ = _
    rw [act_connect_straight hk, Option.bind_some]
    rfl

/-- What a run that starts with these blocks leads to is evaluated behind them. -/
theorem map_run_straight (hnew : Chain.new env = .ok (s.chain 0)) (h : ∀ j < k, s.Extends now j)
    (acts : List Act) (P : Node → Bool) :
    (match Chain.new env with
      | .ok c => ((run env now ⟨c, .new⟩ (straightActs s k ++ acts)).map P).getD false
      | .error _ => false) = ((run env now ⟨s.chain k, .new⟩ acts).map P).getD false := by
  rw [hnew]
  dsimp only
  rw [run_straight h]

end Node

/-! ## A fork over a coinbase created twice -/

namespace Small

def prevoutsCode (inputs : List TxIn) : Nat :=
  inputs.foldr (fun input code =>
    Nat.pair (Nat.pair input.previousOutput.txid input.previousOutput.vout) code + 1) 0

theorem prevoutsCode_injective {inputs inputs' : List TxIn}
    (h : prevoutsCode inputs = prevoutsCode inputs') :
    inputs.map TxIn.previousOutput = inputs'.map TxIn.previousOutput := by
  induction inputs generalizing inputs' with
  | nil =>
    cases inputs' with
    | nil => rfl
    | cons input' inputs' => simp [prevoutsCode] at h
  | cons input inputs ih =>
    cases inputs' with
    | nil => simp [prevoutsCode] at h
    | cons input' inputs' =>
      simp only [prevoutsCode, List.foldr_cons, Nat.add_right_cancel_iff, Nat.pair_eq_pair] at h
      obtain ⟨⟨htxid, hvout⟩, hinputs⟩ := h
      have hout : input.previousOutput = input'.previousOutput := by
        cases hin : input.previousOutput
        cases hin' : input'.previousOutput
        simp_all
      rw [List.map_cons, List.map_cons, ih hinputs, hout]

/-- The numbered network with ids that cover what a transaction spends, and scripts that fail
where an output cannot be spent. -/
def paying : Env := { numbered with
  txid := fun tx => Nat.pair (prevoutsCode tx.input) (txid tx)
  verifyWithFlags := fun script _ _ _ _ _ => !(script.head? == some 0x6a) }

theorem paying_lawful : paying.Lawful where
  blockHash_ne_zero _ := Nat.succ_ne_zero _
  work_pos _ _ := Nat.two_pos
  genesis_prev := rfl

theorem paying_plain : Plain paying where
  law := paying_lawful
  blockHash _ := rfl
  txid _ _ h := (Nat.pair_eq_pair.1 h).2
  genesis := rfl
  pow _ := rfl
  merkle _ := rfl
  witness _ := rfl
  weight _ := rfl
  size _ := rfl
  instructions _ := rfl
  unspendable _ := rfl
  minDifficulty := rfl
  halving := rfl
  deployments := rfl

/-- Spends the first output of some transactions. -/
def pay (from_ : List Transaction) (value : Nat) : Transaction where
  version := 1
  lockTime := 0
  input := from_.map fun tx => ⟨⟨paying.txid tx, 0⟩, [], 0, []⟩
  output := [⟨value, []⟩]

def reward (height : Nat) : Transaction := coinbase height 5000000000

/-- Spends the first coinbase, which block 102 creates again. -/
def deposit : Transaction := pay [reward 1] 4000000000
/-- Spends the output of `deposit`. -/
def middle : Transaction := pay [deposit] 3000000000
/-- Spends the output of `middle`. -/
def last : Transaction := pay [middle] 2000000000
/-- Spends the first coinbase as well. -/
def rival : Transaction := pay [reward 1] 1000000000
/-- Spends a coinbase as soon as it may be spent on block 202. -/
def ripe : Transaction := pay [reward 103] 4000000000
/-- Spends two coinbases. -/
def joint : Transaction := pay [reward 2, reward 3] 4000000000
/-- Spends the first of them. -/
def half : Transaction := pay [reward 2] 3000000000
/-- Spends the second one. -/
def otherHalf : Transaction := pay [reward 3] 2000000000

def numberedBlock (n : Nat) (txs : List Transaction) : Block := block n (20 + n) n txs

def connectActs (b : Block) : List Node.Act :=
  [.header b.header, .block (paying.blockHash b.header) b, .connect (paying.blockHash b.header)]

theorem straightActs_eq {env : Env} (h : Plain env) (s : Straight env) (n : Nat) :
    Node.straightActs s n = ((List.range n).map fun k => s.block (k + 1)).flatMap connectActs := by
  rw [Node.straightActs, List.flatMap_map]
  simp only [Straight.hash, h.blockHash]
  rfl

def branch : List Block :=
  ((List.range 100).map fun n => numberedBlock (n + 1) [reward (n + 1)])
    ++ [numberedBlock 101 [reward 101, deposit], numberedBlock 102 [reward 1]]
    ++ ((List.range 99).map fun n => numberedBlock (n + 103) [reward (n + 103)])
    ++ [numberedBlock 202 [reward 202, middle]]

/-- The block that replaces block 202. -/
def replacement : Block := block 202 223 203 [reward 203, middle, rival]

/-- Block 202 is taken off again, with three transactions in the pool. -/
def forkActs : List Node.Act :=
  branch.flatMap connectActs ++ [Node.Act.addTx deposit, .addTx last, .addTx ripe, .disconnect,
    .header replacement.header, .block 204 replacement]

/-- What the pool holds under the id of a transaction. -/
def pooled (pool : MemPool) (tx : Transaction) : Option Transaction :=
  (pool.transactions.lookup (paying.txid tx)).map MemPoolEntry.tx

/-- The pool after it took `joint` and a block then confirmed `half`. -/
def afterHalf (n : Node) : Except Panic MemPool := do
  let pool ← MemPool.new.step paying (.addTx n.chain 1000 joint)
  pool.step paying (.addBlock [reward 203, half])

/-- What is read off the node at the fork. -/
def atFork (n : Node) : Bool :=
  decide (n.chain.height = 201 ∧ n.chain.db.getBlock 204 = some replacement
    ∧ pooled n.pool deposit = some deposit ∧ pooled n.pool middle = some middle
    ∧ pooled n.pool last = some last ∧ pooled n.pool ripe = some ripe
    ∧ pooled n.pool (reward 103) = none
    ∧ n.chain.db.db.coin.lookup ⟨paying.txid (reward 103), 0⟩
        = some ⟨1, some 103, true, ⟨5000000000, []⟩, false⟩)
  && (match afterHalf n with
    | .ok pool => pool.isDoubleSpend otherHalf && pool.isEmpty
    | .error _ => false)
  && (match n.act paying 1000 (.connect 204) with
    | some n' => decide (pooled n'.pool last = some last)
    | none => false)

structure Fork (n : Node) : Prop where
  height : n.chain.height = 201
  stored : n.chain.db.getBlock 204 = some replacement
  deposit : pooled n.pool deposit = some deposit
  middle : pooled n.pool middle = some middle
  last : pooled n.pool last = some last
  ripe : pooled n.pool ripe = some ripe
  reward : pooled n.pool (reward 103) = none
  coin : n.chain.db.db.coin.lookup ⟨paying.txid (Small.reward 103), 0⟩
    = some ⟨1, some 103, true, ⟨5000000000, []⟩, false⟩
  half : ∃ pool, afterHalf n = .ok pool ∧ pool.isDoubleSpend otherHalf = true
    ∧ pool.isEmpty = true
  replaced : ∃ n', n.act paying 1000 (.connect 204) = some n'
    ∧ pooled n'.pool Small.last = some Small.last

theorem fork_of_atFork {n : Node} (h : atFork n = true) : Fork n := by
  simp only [atFork, Bool.and_eq_true, decide_eq_true_eq] at h
  obtain ⟨⟨⟨hheight, hstored, hdeposit, hmiddle, hlast, hripe, hreward, hcoin⟩, hhalf⟩, hrep⟩ := h
  refine ⟨hheight, hstored, hdeposit, hmiddle, hlast, hripe, hreward, hcoin, ?_, ?_⟩
  · split at hhalf
    · rename_i pool hpool
      exact ⟨pool, hpool, Bool.and_eq_true_iff.1 hhalf⟩
    · cases hhalf
  · split at hrep
    · rename_i n' hn'
      exact ⟨n', hn', of_decide_eq_true hrep⟩
    · cases hrep

/-! ### The branch in closed form -/

def forkTxs (k : Nat) : List Transaction :=
  if k = 101 then [reward 101, deposit] else if k = 102 then [reward 1] else [reward k]

/-- The view of block 101, which spends the first coinbase. -/
def depositView : CoinView where
  map := (((∅ : FList OutPoint CoinEntry).insert ⟨paying.txid (reward 101), 0⟩
    ⟨1, some 101, true, ⟨5000000000, []⟩, false⟩).insert ⟨paying.txid (reward 1), 0⟩
    ⟨1, some 1, true, ⟨5000000000, []⟩, true⟩).insert ⟨paying.txid deposit, 0⟩
    ⟨1, some 101, false, ⟨4000000000, []⟩, false⟩
  undo := ⟨[⟨1, some 1, true, ⟨5000000000, []⟩, true⟩]⟩

def forkView (k : Nat) : CoinView :=
  if k = 101 then depositView else rewardView paying (if k = 102 then 1 else k) k

/-- The blocks of `branch`. -/
def forkLine : Straight paying := line paying_plain 20 forkTxs forkView

set_option maxRecDepth 20000 in
theorem verifyInputs_deposit : (forkLine.stored 100).verifyInputs paying
    (lineBlock paying 20 forkTxs 101) (forkLine.entry 100) (forkLine.flags 101)
      = .ok (forkView 101) := by
  have h : (match (forkLine.stored 100).verifyInputs paying (lineBlock paying 20 forkTxs 101)
      (forkLine.entry 100) (forkLine.flags 101) with
    | .ok view => decide (view.map.entries = depositView.map.entries
        ∧ view.undo = depositView.undo)
    | .error _ => false) = true := by decide +kernel
  split at h
  · rename_i view hview
    obtain ⟨hentries, hundo⟩ := of_decide_eq_true h
    rw [hview]
    obtain ⟨map, undo⟩ := view
    rw [show map = depositView.map from AList.ext hentries, show undo = depositView.undo from hundo]
    rfl
  · cases h

theorem txid_of_mem_forkView {j : Nat} {o : OutPoint} (h : o ∈ (forkView j).map) :
    o.txid = paying.txid deposit ∨ ∃ l ≤ j, o.txid = paying.txid (reward l) := by
  unfold forkView at h
  split_ifs at h with h₁ h₂
  · rcases (AList.mem_insert _).1 h with rfl | h
    · exact .inl rfl
    rcases (AList.mem_insert _).1 h with rfl | h
    · exact .inr ⟨1, by omega, rfl⟩
    rcases (AList.mem_insert _).1 h with rfl | h
    · exact .inr ⟨101, h₁.ge, rfl⟩
    · exact absurd h (AList.notMem_empty _)
  · exact .inr ⟨1, by omega, txid_of_mem_rewardView h⟩
  · exact .inr ⟨j, le_rfl, txid_of_mem_rewardView h⟩

set_option maxRecDepth 20000 in
/-- Block 101 spends the first coinbase, and block 102 creates it again. -/
theorem forkLine_extends (k : Nat) (hk : k < 201) : forkLine.Extends 1000 k := by
  have hinterval : k + 1 < DIFFCHANGE_INTERVAL := by
    rw [DIFFCHANGE_INTERVAL]
    omega
  have hheight : k + 1 < paying.network.bip34Height := by
    change k + 1 < 100000
    omega
  have hsoon : k + 1 + 20 < 1000 + MAX_FUTURE_BLOCK_TIME := by
    rw [MAX_FUTURE_BLOCK_TIME]
    omega
  by_cases h₁ : k = 100
  · subst h₁
    exact line_extends paying_plain (by decide) hinterval hheight hsoon (by decide +kernel)
      (by decide) (by decide +kernel) verifyInputs_deposit ⟨_, rfl⟩ (by decide)
  by_cases h₂ : k = 101
  · subst h₂
    exact line_extends_coinbase paying_plain (by decide) hinterval hheight hsoon rfl rfl
      (by decide +kernel)
  have htxs : forkTxs (k + 1) = [coinbase (k + 1) 5000000000] := by
    simp [forkTxs, h₁, h₂, reward]
  refine line_extends_coinbase paying_plain (by decide) hinterval hheight hsoon htxs
    ?_ (Straight.hasCoins_eq_false fun i hi o ho htxid => ?_)
  · simp [forkView, h₁, h₂]
  · rcases txid_of_mem_forkView ho with heq | ⟨l, hl, heq⟩
    · have hsame := output_eq_of_txid (paying_plain.txid _ _ (heq.symm.trans htxid))
      exact absurd hsame (by simp [deposit, pay, coinbase])
    · have := coinbase_inj (by omega) (by omega) (paying_plain.txid _ _ (heq.symm.trans htxid))
      omega

set_option maxRecDepth 20000 in
theorem branch_eq : branch = (List.range 201).map (fun k => forkLine.block (k + 1))
    ++ [numberedBlock 202 [reward 202, middle]] := by decide +kernel

set_option maxRecDepth 40000 in
theorem exists_fork : ∃ n, Node.Visited paying n ∧ Fork n := by
  obtain ⟨n, hn, hfork⟩ := Node.exists_visited paying 1000 forkActs atFork (by
    rw [forkActs, branch_eq, List.flatMap_append, List.append_assoc, ← straightActs_eq paying_plain]
    refine (Node.map_run_straight rfl forkLine_extends _ _).trans ?_
    decide +kernel)
  exact ⟨n, hn, fork_of_atFork hfork⟩

end Small

end BitcoinNode
