import BitcoinNode.Mempool.Spents

/-!
# What comes back from a disconnected block

`remove_block` hands the transactions of a disconnected block back to the pool, each to the pool
that the ones before it have left. It does so only when the pool holds a transaction. What else
the pool holds does not matter, as long as it has nothing to do with the block.
-/

namespace BitcoinNode

namespace MemPool

variable {env : Env} {pool pool' turn other other' : MemPool} {c : Chain} {now : Nat}
  {tx : Transaction} {txs before after : List Transaction} {t : Txid}

theorem isEmpty_iff : pool.isEmpty = true ↔ ∀ t, t ∉ pool.transactions := by
  rw [isEmpty, beq_iff_eq, Finset.card_eq_zero, Finset.eq_empty_iff_forall_notMem]
  simp only [Finmap.mem_keys]

def Accepts (env : Env) (pool : MemPool) (c : Chain) (now : Nat) (tx : Transaction) : Prop :=
  ∃ pool', pool.addTx env c now tx = .ok (pool', .ok ())

def Rejects (env : Env) (pool : MemPool) (c : Chain) (now : Nat) (tx : Transaction) : Prop :=
  ∃ pool' e, pool.addTx env c now tx = .ok (pool', .error e)

/-! ## The loop -/

theorem addTx_of_error {e : MempoolError}
    (h : pool.addTx env c now tx = .ok (pool', .error e)) : pool' = pool := by
  unfold addTx at h
  split at h
  · cases h
  · exact (Prod.mk.inj (Except.ok.inj h)).1.symm
  · cases h

/-- A transaction that is handed back and gets in is in the pool, and nothing leaves it. -/
theorem restore_eq_ok (h : pool.restore env c now tx = .ok pool') :
    (∀ t, t ∈ pool.transactions → t ∈ pool'.transactions)
      ∧ (pool.Accepts env c now tx → env.txid tx ∈ pool'.transactions)
      ∧ (pool.Accepts env c now tx ∨ pool' = pool) := by
  unfold restore at h
  by_cases hknown : env.txid tx ∈ pool.transactions
  · rw [if_pos hknown] at h
    obtain rfl := Except.ok.inj h
    exact ⟨fun _ => id, fun _ => hknown, .inr rfl⟩
  rw [if_neg hknown] at h
  obtain ⟨⟨pool₁, result⟩, hadd, h⟩ := bind_eq_ok.1 h
  obtain rfl : pool₁ = pool' := Except.ok.inj h
  cases result with
  | error e =>
    obtain rfl := addTx_of_error hadd
    refine ⟨fun _ => id, fun ⟨p, haccepts⟩ => ?_, .inr rfl⟩
    rw [hadd] at haccepts
    cases haccepts
  | ok _ =>
    have hinsert : ∃ e, pool₁ = pool.insert (env.txid tx) e := by
      unfold addTx at hadd
      split at hadd
      · cases hadd
      · cases hadd
      · rename_i e _
        exact ⟨e, (Prod.mk.inj (Except.ok.inj hadd)).1.symm⟩
    obtain ⟨e, rfl⟩ := hinsert
    exact ⟨fun _ ht => Finmap.mem_insert.2 (.inr ht), fun _ => Finmap.mem_insert.2 (.inl rfl),
      .inl ⟨_, hadd⟩⟩

theorem foldlM_restore_grows (h : txs.foldlM (restore env c now) pool = .ok pool')
    (ht : t ∈ pool.transactions) : t ∈ pool'.transactions := by
  induction txs generalizing pool with
  | nil => exact Except.ok.inj h ▸ ht
  | cons tx txs ih =>
    rw [List.foldlM_cons] at h
    obtain ⟨pool₁, hrestore, h⟩ := bind_eq_ok.1 h
    exact ih h ((restore_eq_ok hrestore).1 t ht)

/-- The pool in which a transaction of a block has its turn. -/
def Turn (env : Env) (c : Chain) (now : Nat) (pool : MemPool) (txs : List Transaction)
    (tx : Transaction) (turn : MemPool) : Prop :=
  ∃ before after, txs.drop 1 = before ++ tx :: after
    ∧ before.foldlM (restore env c now) pool = .ok turn

/-- Every transaction of the block behind the first that is accepted at its turn is in the pool in
the end. -/
def Readmits (env : Env) (c : Chain) (now : Nat) (pool : MemPool) (txs : List Transaction) :
    Prop :=
  ∀ pool', pool.removeBlock env c now txs = .ok pool' →
    ∀ tx turn, Turn env c now pool txs tx turn → turn.Accepts env c now tx →
      env.txid tx ∈ pool'.transactions

/-- The pool accepts no transaction of the block, where it rejects all before it. -/
def Quiet (env : Env) (c : Chain) (now : Nat) (pool : MemPool) (txs : List Transaction) : Prop :=
  ∀ before tx after, txs.drop 1 = before ++ tx :: after →
    (∀ t ∈ before, pool.Rejects env c now t) → ¬ pool.Accepts env c now tx

theorem mem_of_turn (hrun : (txs.drop 1).foldlM (restore env c now) pool = .ok pool')
    (hturn : Turn env c now pool txs tx turn) (haccepts : turn.Accepts env c now tx) :
    env.txid tx ∈ pool'.transactions := by
  obtain ⟨before, after, hsplit, hbefore⟩ := hturn
  rw [hsplit, List.foldlM_append, hbefore, bind_of_ok rfl, List.foldlM_cons] at hrun
  obtain ⟨pool₁, hrestore, hafter⟩ := bind_eq_ok.1 hrun
  exact foldlM_restore_grows hafter ((restore_eq_ok hrestore).2.1 haccepts)

/-- Rejected transactions leave the pool as it is. -/
theorem foldlM_rejected (hempty : pool.isEmpty = true)
    (h : ∀ t ∈ before, pool.Rejects env c now t) :
    before.foldlM (restore env c now) pool = .ok pool := by
  induction before with
  | nil => rfl
  | cons tx before ih =>
    obtain ⟨⟨pool₁, e, hadd⟩, h⟩ := List.forall_mem_cons.1 h
    have hrestore : pool.restore env c now tx = .ok pool := by
      rw [restore, if_neg (isEmpty_iff.1 hempty _), hadd, bind_of_ok rfl, addTx_of_error hadd]
      rfl
    rw [List.foldlM_cons, hrestore]
    exact ih h

/-- An empty pool that accepts nothing stays as it is. The induction keeps the transactions
already handed back. -/
theorem foldlM_quiet (hempty : pool.isEmpty = true) {done : List Transaction}
    (hquiet : ∀ before tx after, done ++ txs = before ++ tx :: after →
      (∀ t ∈ before, pool.Rejects env c now t) → ¬ pool.Accepts env c now tx)
    (hdone : ∀ t ∈ done, pool.Rejects env c now t)
    (h : txs.foldlM (restore env c now) pool = .ok pool') :
    pool' = pool ∧ ∀ t ∈ txs, pool.Rejects env c now t := by
  induction txs generalizing done with
  | nil => exact ⟨(Except.ok.inj h).symm, fun _ h => absurd h List.not_mem_nil⟩
  | cons tx txs ih =>
    rw [List.foldlM_cons] at h
    obtain ⟨pool₁, hrestore, hrest⟩ := bind_eq_ok.1 h
    have hnot := hquiet done tx txs rfl hdone
    obtain rfl := (restore_eq_ok hrestore).2.2.resolve_left hnot
    have hrejects : pool₁.Rejects env c now tx := by
      rw [restore, if_neg (isEmpty_iff.1 hempty _)] at hrestore
      obtain ⟨⟨pool₂, result⟩, hadd, -⟩ := bind_eq_ok.1 hrestore
      cases result with
      | error e => exact ⟨pool₂, e, hadd⟩
      | ok _ => exact absurd ⟨pool₂, hadd⟩ hnot
    have hdone : ∀ t ∈ done ++ [tx], pool₁.Rejects env c now t :=
      List.forall_mem_append.2 ⟨hdone, List.forall_mem_singleton.2 hrejects⟩
    obtain ⟨hsame, hall⟩ := ih (by simpa using hquiet) hdone hrest
    exact ⟨hsame, List.forall_mem_cons.2 ⟨hrejects, hall⟩⟩

theorem readmits_iff : Readmits env c now pool txs ↔
    (pool.isEmpty = true → Quiet env c now pool txs) := by
  by_cases hempty : pool.isEmpty = true
  · have hremove : pool.removeBlock env c now txs = .ok pool := if_pos hempty
    have hnone := isEmpty_iff.1 hempty
    constructor
    · intro h _ before tx after hsplit hrejects haccepts
      exact hnone _ (h pool hremove tx pool ⟨before, after, hsplit, foldlM_rejected hempty hrejects⟩
        haccepts)
    · rintro hquiet pool' - tx turn ⟨before, after, hsplit, hbefore⟩ haccepts
      have hprefix : ∀ before' tx' after', [] ++ before = before' ++ tx' :: after' →
          (∀ t ∈ before', pool.Rejects env c now t) → ¬ pool.Accepts env c now tx' := by
        intro before' tx' after' heq
        refine hquiet hempty before' tx' (after' ++ tx :: after) ?_
        rw [hsplit, ← List.nil_append before, heq, List.append_assoc, List.cons_append]
      obtain ⟨rfl, hrejects⟩ := foldlM_quiet hempty hprefix (by simp) hbefore
      exact absurd haccepts (hquiet hempty before tx after hsplit hrejects)
  · refine iff_of_true (fun pool' hremove tx turn hturn haccepts => ?_) fun h => absurd h hempty
    rw [removeBlock, if_neg hempty] at hremove
    exact mem_of_turn hremove hturn haccepts

/-! ## What a transaction asks the pool -/

/-- The ids of the transactions, and of those whose outputs they spend. -/
def involved (env : Env) (txs : List Transaction) : Set Txid :=
  {t | ∃ tx ∈ txs, t = env.txid tx ∨ ∃ o ∈ tx.prevouts, t = o.txid}

/-- The outpoints that the transactions spend. -/
def spentBy (txs : List Transaction) : Set OutPoint := {o | ∃ tx ∈ txs, o ∈ tx.prevouts}

/-- Two pools hold the same of what the transactions ask for. -/
structure Agrees (env : Env) (txs : List Transaction) (pool pool' : MemPool) : Prop where
  transactions {t : Txid} : t ∈ involved env txs →
    pool.transactions.lookup t = pool'.transactions.lookup t
  spents {o : OutPoint} : o ∈ spentBy txs → pool.spents.lookup o = pool'.spents.lookup o

/-- The pool has nothing to do with the block: it holds neither its transactions nor their
parents, and nothing that spends what they spend. -/
def Unrelated (env : Env) (txs : List Transaction) (pool : MemPool) : Prop :=
  Agrees env (txs.drop 1) new pool

namespace Agrees

variable (h : Agrees env txs pool pool')

include h

theorem txid (htx : tx ∈ txs) :
    pool.transactions.lookup (env.txid tx) = pool'.transactions.lookup (env.txid tx) :=
  h.transactions ⟨tx, htx, .inl rfl⟩

theorem mem_txid (htx : tx ∈ txs) :
    env.txid tx ∈ pool.transactions ↔ env.txid tx ∈ pool'.transactions := by
  rw [← Finmap.lookup_isSome, ← Finmap.lookup_isSome, h.txid htx]

theorem mem_spents (htx : tx ∈ txs) {o : OutPoint} (ho : o ∈ tx.prevouts) :
    o ∈ pool.spents ↔ o ∈ pool'.spents := by
  rw [← Finmap.lookup_isSome, ← Finmap.lookup_isSome, h.spents ⟨tx, htx, ho⟩]

theorem isDoubleSpend (htx : tx ∈ txs) : pool.isDoubleSpend tx = pool'.isDoubleSpend tx := by
  rw [Bool.eq_iff_iff, MemPool.isDoubleSpend, MemPool.isDoubleSpend, List.any_eq_true,
    List.any_eq_true]
  simp only [decide_eq_true_eq]
  constructor
  · rintro ⟨input, hinput, hspent⟩
    exact ⟨input, hinput, (h.mem_spents htx (List.mem_map_of_mem hinput)).1 hspent⟩
  · rintro ⟨input, hinput, hspent⟩
    exact ⟨input, hinput, (h.mem_spents htx (List.mem_map_of_mem hinput)).2 hspent⟩

theorem viewInputs (htx : tx ∈ txs) {inputs : List TxIn} (hsub : inputs ⊆ tx.input)
    (view : CoinView) : pool.viewInputs c inputs view = pool'.viewInputs c inputs view := by
  induction inputs generalizing view with
  | nil => rfl
  | cons input inputs ih =>
    obtain ⟨hinput, hsub⟩ := List.cons_subset.1 hsub
    have ho : input.previousOutput ∈ tx.prevouts := List.mem_map_of_mem hinput
    have hlookup : pool.transactions.lookup input.previousOutput.txid
        = pool'.transactions.lookup input.previousOutput.txid :=
      h.transactions ⟨tx, htx, .inr ⟨_, ho, rfl⟩⟩
    have hcoin : pool.hasCoin input.previousOutput = pool'.hasCoin input.previousOutput := by
      simp only [hasCoin, hlookup, h.mem_spents htx ho]
    simp only [MemPool.viewInputs, hlookup, hcoin, ih hsub]

/-- The checks of a transaction have the same outcome. -/
theorem checkTx (htx : tx ∈ txs) : pool.checkTx env c now tx = pool'.checkTx env c now tx := by
  have hview : pool.getCoinView c tx = pool'.getCoinView c tx :=
    h.viewInputs htx (List.Subset.refl _) _
  simp only [MemPool.checkTx, h.mem_txid htx, h.isDoubleSpend htx, hview]

theorem insert (entry : MemPoolEntry) :
    Agrees env txs (pool.insert (env.txid tx) entry) (pool'.insert (env.txid tx) entry) := by
  refine ⟨fun ht => ?_, fun ho => ?_⟩
  · rw [lookup_transactions_insert, lookup_transactions_insert, h.transactions ht]
  · rw [lookup_spents_insert, lookup_spents_insert, h.spents ho]

theorem restore (htx : tx ∈ txs) (hrestore : pool'.restore env c now tx = .ok other') :
    ∃ other, pool.restore env c now tx = .ok other ∧ Agrees env txs other other' := by
  by_cases hknown : env.txid tx ∈ pool'.transactions
  · rw [MemPool.restore, if_pos hknown] at hrestore
    obtain rfl := Except.ok.inj hrestore
    exact ⟨pool, by rw [MemPool.restore, if_pos ((h.mem_txid htx).2 hknown)], h⟩
  rw [MemPool.restore, if_neg hknown] at hrestore
  rw [MemPool.restore, if_neg fun hin => hknown ((h.mem_txid htx).1 hin)]
  unfold addTx at hrestore ⊢
  rw [h.checkTx htx]
  cases hcheck : pool'.checkTx env c now tx with
  | error stop =>
    rw [hcheck] at hrestore
    cases stop with
    | panic p => cases hrestore
    | error e =>
      obtain rfl := Except.ok.inj hrestore
      exact ⟨pool, rfl, h⟩
  | ok entry =>
    rw [hcheck] at hrestore
    obtain rfl := Except.ok.inj hrestore
    exact ⟨_, rfl, h.insert entry⟩

theorem foldlM_restore {done : List Transaction} (hsub : done ⊆ txs)
    (hrun : done.foldlM (MemPool.restore env c now) pool' = .ok other') :
    ∃ other, done.foldlM (MemPool.restore env c now) pool = .ok other
      ∧ Agrees env txs other other' := by
  induction done generalizing pool pool' with
  | nil =>
    obtain rfl := Except.ok.inj hrun
    exact ⟨pool, rfl, h⟩
  | cons tx done ih =>
    obtain ⟨htx, hsub⟩ := List.cons_subset.1 hsub
    rw [List.foldlM_cons] at hrun
    obtain ⟨pool₁', hrestore', hrun⟩ := bind_eq_ok.1 hrun
    obtain ⟨pool₁, hrestore, h₁⟩ := h.restore htx hrestore'
    obtain ⟨other, hok, hagrees⟩ := ih h₁ hsub hrun
    exact ⟨other, by rw [List.foldlM_cons, hrestore, bind_of_ok rfl, hok], hagrees⟩

end Agrees

/-! ## Unrelated pools -/

/-- The transactions of the block behind the first are in both pools or in none. -/
def SameOutcome (env : Env) (txs : List Transaction) (pool pool' : MemPool) : Prop :=
  ∀ tx ∈ txs.drop 1, env.txid tx ∈ pool.transactions ↔ env.txid tx ∈ pool'.transactions

theorem sameOutcome_iff (hunrelated : other.Unrelated env txs)
    (hremove : other.removeBlock env c now txs = .ok other') :
    SameOutcome env txs other' new ↔ other.isEmpty = true ∨ Quiet env c now new txs := by
  have hnew (t : Txid) : t ∉ new.transactions := Finmap.notMem_empty
  by_cases hempty : other.isEmpty = true
  · rw [removeBlock, if_pos hempty] at hremove
    obtain rfl := Except.ok.inj hremove
    exact iff_of_true (fun tx _ => iff_of_false (isEmpty_iff.1 hempty _) (hnew _)) (.inl hempty)
  rw [removeBlock, if_neg hempty] at hremove
  obtain ⟨q, hrun, hagrees⟩ := hunrelated.foldlM_restore (List.Subset.refl _) hremove
  have houtcome : SameOutcome env txs other' new ↔
      ∀ tx ∈ txs.drop 1, env.txid tx ∉ q.transactions :=
    forall₂_congr fun tx htx => by rw [← hagrees.mem_txid htx, iff_false_right (hnew _)]
  rw [houtcome, or_iff_right hempty]
  constructor
  · intro hnone before tx after hsplit hrejects haccepts
    exact hnone tx (hsplit ▸ List.mem_append_right _ List.mem_cons_self)
      (mem_of_turn hrun ⟨before, after, hsplit, foldlM_rejected new_isEmpty hrejects⟩ haccepts)
  · intro hquiet tx _
    rw [(@foldlM_quiet _ _ _ _ _ _ new_isEmpty [] hquiet (by simp) hrun).1]
    exact hnew _

/-- What is accepted at its turn comes back exactly when the pool holds a transaction or there is
nothing to accept; and exactly then a pool that has nothing to do with the block ends with the
same transactions of the block as an empty one. -/
theorem removeBlock_readmits_iff : (Readmits env c now pool txs ↔
      (pool.isEmpty = true → Quiet env c now pool txs))
    ∧ ∀ other other' : MemPool, other.Unrelated env txs →
      other.removeBlock env c now txs = .ok other' →
        ∀ pool', new.removeBlock env c now txs = .ok pool' →
          (SameOutcome env txs other' pool' ↔
            other.isEmpty = true ∨ Quiet env c now new txs) := by
  refine ⟨readmits_iff, fun other other' hunrelated hremove pool' hnew => ?_⟩
  rw [removeBlock, if_pos new_isEmpty] at hnew
  obtain rfl := Except.ok.inj hnew
  exact sameOutcome_iff hunrelated hremove

end MemPool

namespace Small

/-- The tip can be taken off, the pool is empty, and it then accepts what the block holds besides
its coinbase. -/
def atDeposit (n : Node) : Bool :=
  match n.chain.db.getBlock n.chain.tip.hash, n.chain.disconnect paying n.chain.tip with
  | some block, .ok c =>
    decide (n.pool.isEmpty = true ∧ block.txdata.drop 1 = [deposit])
      && (match n.pool.addTx paying c 1000 deposit with
        | .ok (_, .ok _) => true
        | _ => false)
  | _, _ => false

open MemPool

set_option maxRecDepth 40000 in
/-- A node that disconnects a block with an empty pool loses what the block paid. -/
theorem empty_pool_forgets : ∃ (n : Node) (block : Block) (c : Chain), Node.Visited paying n
    ∧ n.pool.isEmpty = true ∧ n.chain.db.getBlock n.chain.tip.hash = some block
    ∧ n.chain.disconnect paying n.chain.tip = .ok c
    ∧ ¬ Readmits paying c 1000 n.pool block.txdata := by
  have hbranch : branch.take 101 = (List.range 101).map fun k => forkLine.block (k + 1) := by
    decide +kernel
  obtain ⟨n, hn, hP⟩ := Node.exists_visited paying 1000 ((branch.take 101).flatMap connectActs)
    atDeposit (by
      rw [hbranch, ← straightActs_eq paying_plain, ← List.append_nil (Node.straightActs _ _)]
      refine (Node.map_run_straight rfl (fun k hk => forkLine_extends k (hk.trans (by decide)))
        _ _).trans ?_
      decide +kernel)
  unfold atDeposit at hP
  split at hP
  · rename_i block c hblock hdisconnect
    obtain ⟨hstate, hadd⟩ := Bool.and_eq_true_iff.1 hP
    obtain ⟨hempty, hdrop⟩ := of_decide_eq_true hstate
    refine ⟨n, block, c, hn, hempty, hblock, hdisconnect, fun hreadmits => ?_⟩
    split at hadd
    · rename_i pool' _ haccepts
      have hturn : Turn paying c 1000 n.pool block.txdata deposit n.pool :=
        ⟨[], [], hdrop, rfl⟩
      exact isEmpty_iff.1 hempty _
        (hreadmits n.pool (if_pos hempty) deposit n.pool hturn ⟨pool', haccepts⟩)
    · cases hadd
  · cases hP

end Small

end BitcoinNode
