import BitcoinNode.Library.Purge
import BitcoinNode.Library.Result
import BitcoinNode.Mempool.Node

/-!
# The two maps of the pool

The pool is a registry: its transactions are the nodes, which use the outpoints they spend
and make the outpoints they create. Removing what spends an outpoint is a sweep of it, and
connecting a block is a purge. From this follows what every call keeps: each input of a
pool transaction is listed in `spents` under that transaction.
-/

namespace BitcoinNode

open Registry

variable {env : Env}

def Transaction.prevouts (tx : Transaction) : List OutPoint := tx.input.map TxIn.previousOutput

/-- The outpoints a transaction creates. -/
def Transaction.outpoints (env : Env) (tx : Transaction) : List OutPoint :=
  (List.range tx.output.length).map fun i => ⟨env.txid tx, i⟩

/-- Transaction ids identify what a transaction spends and creates. -/
def TxidFaithful (env : Env) : Prop :=
  ∀ tx tx' : Transaction, env.txid tx = env.txid tx' →
    tx.prevouts = tx'.prevouts ∧ tx.output = tx'.output

theorem Small.paying_txidFaithful : TxidFaithful Small.paying := by
  intro tx tx' h
  obtain ⟨hprevouts, htxid⟩ := Nat.pair_eq_pair.1 h
  exact ⟨Small.prevoutsCode_injective hprevouts, Small.output_eq_of_txid htxid⟩

theorem Transaction.mem_outpoints {tx : Transaction} {o : OutPoint} :
    o ∈ tx.outpoints env ↔ o.txid = env.txid tx ∧ o.vout < tx.output.length := by
  obtain ⟨txid, vout⟩ := o
  simp only [outpoints, List.mem_map, List.mem_range, OutPoint.mk.injEq]
  constructor
  · rintro ⟨i, hi, rfl, rfl⟩
    exact ⟨rfl, hi⟩
  · rintro ⟨rfl, hi⟩
    exact ⟨vout, hi, rfl, rfl⟩

namespace MemPool

variable {pool pool' : MemPool} {c : Chain} {now : Nat} {tx : Transaction}
  {txs : List Transaction} {t : Txid} {e entry : MemPoolEntry} {o : OutPoint}

/-! ## The pool as a registry -/

def registry (pool : MemPool) : Registry Txid OutPoint MemPoolEntry :=
  ⟨pool.transactions, pool.spents⟩

/-- The outpoints an entry spends. -/
def uses (e : MemPoolEntry) : List OutPoint := e.tx.prevouts

/-- The outpoints an entry creates. -/
def makes (env : Env) (e : MemPoolEntry) : List OutPoint := e.tx.outpoints env

/-- What a block transaction is to a purge of the pool. -/
def item (env : Env) (tx : Transaction) : Txid × List OutPoint := (env.txid tx, tx.prevouts)

theorem registry_removeSpent (pool : MemPool) (o : OutPoint) :
    (pool.removeSpent o).1.registry = (pool.registry.take o).1
      ∧ (pool.removeSpent o).2 = (pool.registry.take o).2 := by
  unfold removeSpent Registry.take registry
  split <;> rename_i h <;> simp [h]

theorem card_le_of_sub (h : pool'.registry.Sub pool.registry) :
    pool'.transactions.keys.card ≤ pool.transactions.keys.card := by
  refine Finset.card_le_card fun n hn => ?_
  obtain ⟨v, hv⟩ := Finmap.mem_iff.1 (Finmap.mem_keys.1 hn)
  exact Finmap.mem_keys.2 (Finmap.mem_of_lookup_eq_some (h.nodes hv))

/-- Removing a spender makes the pool smaller. -/
theorem card_lt_of_removeSpent (h : (pool.removeSpent o).2 = some e) :
    (pool.removeSpent o).1.transactions.keys.card < pool.transactions.keys.card := by
  unfold removeSpent at h ⊢
  split at h <;> rename_i hspent
  · cases h
  · dsimp only
    rw [Finmap.keys_erase]
    exact Finset.card_erase_lt_of_mem (Finmap.mem_keys.2 (Finmap.mem_of_lookup_eq_some h))

/-- A loop that removes the spenders of outpoints is a sweep when its calls are. -/
theorem foldlM_sweep (recurse : MemPoolEntry → MemPool → Except Panic MemPool)
    (ks : List OutPoint)
    (hrec : ∀ e pool₁, pool₁.transactions.keys.card < pool.transactions.keys.card →
      ∃ pool₂, recurse e pool₁ = .ok pool₂
        ∧ Sweep (makes env) pool₁.registry (makes env e) pool₂.registry) :
    ∃ pool', ks.foldlM (fun pool o =>
        match pool.removeSpent o with
        | (pool, some e) => recurse e pool
        | (pool, none) => .ok pool) pool = .ok pool'
      ∧ Sweep (makes env) pool.registry ks pool'.registry := by
  induction ks generalizing pool with
  | nil => exact ⟨pool, rfl, .nil⟩
  | cons o ks ih =>
    obtain ⟨hreg, hsnd⟩ := registry_removeSpent pool o
    have hlt : ∀ e, (pool.removeSpent o).2 = some e → _ := fun e => card_lt_of_removeSpent
    cases hspent : pool.removeSpent o with
    | mk pool₁ spender =>
      rw [hspent] at hreg hsnd hlt
      have hle : pool₁.transactions.keys.card ≤ pool.transactions.keys.card :=
        card_le_of_sub (hreg ▸ take_sub _ _)
      rw [List.foldlM_cons, hspent]
      cases spender with
      | none =>
        obtain ⟨pool', hok, hsweep⟩ := ih fun e pool₂ h => hrec e pool₂ (h.trans_le hle)
        exact ⟨pool', hok, .free hsnd.symm (hreg ▸ hsweep)⟩
      | some e =>
        obtain ⟨pool₂, hok, hsweep⟩ := hrec e pool₁ (hlt e rfl)
        have hle₂ := (card_le_of_sub hsweep.sub).trans hle
        obtain ⟨pool', hok', hsweep'⟩ := ih fun e pool₃ h => hrec e pool₃ (h.trans_le hle₂)
        refine ⟨pool', ?_, .held hsnd.symm (hreg ▸ hsweep) hsweep'⟩
        rw [bind_of_ok hok]
        exact hok'

/-- The recursion of `remove_spenders` ends, and sweeps the outputs of its entry. -/
theorem removeSpenders_sweep {fuel : Nat} (h : pool.transactions.keys.card < fuel) :
    ∃ pool', removeSpenders env fuel e pool = .ok pool'
      ∧ Sweep (makes env) pool.registry (makes env e) pool'.registry := by
  induction fuel generalizing pool e with
  | zero => omega
  | succ fuel ih =>
    have hloop := foldlM_sweep (removeSpenders env fuel) (makes env e)
      fun e pool₁ (hlt : _ < pool.transactions.keys.card) => ih (by omega)
    rwa [makes, Transaction.outpoints, List.foldlM_map] at hloop

theorem removeDoubleSpends_sweep (env : Env) (pool : MemPool) (tx : Transaction) :
    ∃ pool', pool.removeDoubleSpends env tx = .ok pool'
      ∧ Sweep (makes env) pool.registry tx.prevouts pool'.registry := by
  have hloop := foldlM_sweep
    (fun e pool => removeSpenders env (pool.transactions.keys.card + 1) e pool) tx.prevouts
    fun _ _ (_ : _ < pool.transactions.keys.card) => removeSpenders_sweep (Nat.lt_succ_self _)
  rwa [Transaction.prevouts, List.foldlM_map] at hloop

/-- The loop of `add_block` ends, and is a purge of the block's transactions. -/
theorem foldlM_confirm_purge (env : Env) (pool : MemPool) (txs : List Transaction) :
    ∃ pool', txs.foldlM (confirm env) pool = .ok pool'
      ∧ Purge uses (makes env) pool.registry (txs.map (item env)) pool'.registry := by
  induction txs generalizing pool with
  | nil => exact ⟨pool, rfl, .nil⟩
  | cons tx txs ih =>
    rw [List.foldlM_cons, List.map_cons]
    cases hlookup : pool.transactions.lookup (env.txid tx) with
    | some e =>
      have hconfirm : pool.confirm env tx = .ok
          ⟨pool.transactions.erase (env.txid tx), FMap.eraseAll pool.spents (uses e)⟩ := by
        simp only [confirm, hlookup, uses, Transaction.prevouts, FMap.eraseAll, List.foldl_map]
      obtain ⟨pool', hok, hpurge⟩ := ih _
      rw [bind_of_ok hconfirm]
      exact ⟨pool', hok, .settle hlookup hpurge⟩
    | none =>
      obtain ⟨pool₁, hok₁, hsweep⟩ := removeDoubleSpends_sweep env pool tx
      have hconfirm : pool.confirm env tx = .ok pool₁ := by
        simp only [confirm, hlookup, hok₁]
      obtain ⟨pool', hok, hpurge⟩ := ih pool₁
      rw [bind_of_ok hconfirm]
      exact ⟨pool', hok, .evict hlookup hsweep hpurge⟩

/-! ## Adding a transaction -/

/-- What the checks of `add_tx` have found when they pass. -/
structure Accepted (env : Env) (pool : MemPool) (c : Chain) (now : Nat) (tx : Transaction)
    (entry : MemPoolEntry) (view : CoinView) : Prop where
  tx_eq : entry.tx = tx
  height_eq : entry.height = c.height
  sanity : tx.checkSanity = .ok ()
  not_coinbase : tx.isCoinBase = false
  final : c.verifyFinal now c.tip tx LockFlags.STANDARD_LOCKTIME_FLAGS = true
  new_tx : env.txid tx ∉ pool.transactions
  new_coins : c.db.hasCoins env tx = false
  unspent : pool.isDoubleSpend tx = false
  view_eq : pool.getCoinView c tx = .ok view
  coins {input : TxIn} : input ∈ tx.input → view.getEntry input.previousOutput ≠ none
  verified : verify env c entry view = .ok ()

theorem checkTx_eq_ok (h : pool.checkTx env c now tx = .ok entry) :
    ∃ view, Accepted env pool c now tx entry view := by
  unfold checkTx at h
  cases hsanity : tx.checkSanity with
  | error e => simp [hsanity] at h
  | ok u =>
  simp only [hsanity, pure_bind, throw_bind, ite_throw_eq_ok] at h
  obtain ⟨hcoinbase, -, -, hfinal, hnew, hcoins, hspent, h⟩ := h
  cases hview : pool.getCoinView c tx with
  | error p => simp [hview] at h
  | ok view =>
  simp only [hview, ite_throw_eq_ok] at h
  obtain ⟨hsome, h⟩ := h
  cases hentry : MemPoolEntry.new tx view c.height with
  | error p => simp [hentry] at h
  | ok e =>
  simp only [hentry, bind_eq_ok, pure_eq_ok] at h
  obtain ⟨u, hverify, rfl⟩ := h
  simp only [MemPoolEntry.new, bind_eq_ok, pure_eq_ok] at hentry
  obtain ⟨coinbase, -, rfl⟩ := hentry
  refine ⟨view, rfl, rfl, hsanity, by simpa using hcoinbase, by simpa using hfinal, hnew,
    by simpa using hcoins, by simpa using hspent, hview, ?_, hverify⟩
  intro input hmem hnone
  exact hsome (List.any_eq_true.2 ⟨input, hmem, by simp [hnone]⟩)

/-- Adding a transaction leaves the pool alone or stores an accepted one. -/
theorem addTx_eq_ok {result : Except MempoolError Unit}
    (h : pool.addTx env c now tx = .ok (pool', result)) :
    (∃ e, result = .error e) ∧ pool' = pool ∨ ∃ entry view,
      Accepted env pool c now tx entry view ∧ pool' = pool.insert (env.txid tx) entry := by
  unfold addTx at h
  split at h
  · cases h
  · obtain ⟨hpool, hresult⟩ := Prod.mk.inj (Except.ok.inj h)
    exact .inl ⟨⟨_, hresult.symm⟩, hpool.symm⟩
  · rename_i entry hcheck
    obtain ⟨view, haccepted⟩ := checkTx_eq_ok hcheck
    exact .inr ⟨entry, view, haccepted, (Prod.mk.inj (Except.ok.inj h)).1.symm⟩

theorem lookup_spents_insert :
    (pool.insert t e).spents.lookup o = if o ∈ uses e then some t else pool.spents.lookup o := by
  unfold insert uses Transaction.prevouts
  dsimp only
  generalize pool.spents = spents
  induction e.tx.input generalizing spents with
  | nil => simp
  | cons input inputs ih =>
    rw [List.foldl_cons, ih]
    by_cases hmem : o ∈ inputs.map TxIn.previousOutput
    · simp [hmem]
    · by_cases ho : o = input.previousOutput
      · subst ho
        simp [hmem]
      · simp [hmem, ho, Finmap.lookup_insert_of_ne]

theorem lookup_transactions_insert {t' : Txid} :
    (pool.insert t e).transactions.lookup t' =
      if t' = t then some e else pool.transactions.lookup t' := by
  unfold insert
  by_cases ht : t' = t
  · subst ht
    simp
  · simp [ht, Finmap.lookup_insert_of_ne]

/-- No input of an accepted transaction is spent in the pool. -/
theorem Accepted.lookup_spents {view : CoinView} (h : Accepted env pool c now tx entry view)
    (ho : o ∈ tx.prevouts) : pool.spents.lookup o = none := by
  obtain ⟨input, hinput, rfl⟩ := List.mem_map.1 ho
  have hnot := List.any_eq_false.1 h.unspent input hinput
  exact Finmap.lookup_eq_none.2 (by simpa using hnot)

/-! ## The invariant -/

/-- What holds of a pool between any two calls. -/
structure Inv (env : Env) (pool : MemPool) : Prop where
  key {t : Txid} {e : MemPoolEntry} : pool.transactions.lookup t = some e → env.txid e.tx = t
  sanity {t : Txid} {e : MemPoolEntry} :
    pool.transactions.lookup t = some e → e.tx.checkSanity = .ok ()
  not_coinbase {t : Txid} {e : MemPoolEntry} :
    pool.transactions.lookup t = some e → e.tx.isCoinBase = false
  indexed : pool.registry.Indexed uses
  source {o : OutPoint} {t : Txid} :
    pool.spents.lookup o = some t → ∃ tx, env.txid tx = t ∧ o ∈ tx.prevouts

theorem Inv.new : Inv env new where
  key h := by cases h
  sanity h := by cases h
  not_coinbase h := by cases h
  indexed := by
    intro n v h
    cases h
  source h := by cases h

theorem Inv.insert (inv : pool.Inv env) {view : CoinView}
    (h : Accepted env pool c now tx entry view) :
    (pool.insert (env.txid tx) entry).Inv env := by
  have hlookup : ∀ t e, (pool.insert (env.txid tx) entry).transactions.lookup t = some e →
      t = env.txid tx ∧ e = entry ∨ pool.transactions.lookup t = some e := by
    intro t e ht
    rw [lookup_transactions_insert] at ht
    split at ht <;> rename_i heq
    · exact .inl ⟨heq, (Option.some.inj ht).symm⟩
    · exact .inr ht
  refine ⟨fun ht => ?_, fun ht => ?_, fun ht => ?_, fun t e ht o ho => ?_, fun ho => ?_⟩
  · rcases hlookup _ _ ht with ⟨rfl, rfl⟩ | ht
    · rw [h.tx_eq]
    · exact inv.key ht
  · rcases hlookup _ _ ht with ⟨rfl, rfl⟩ | ht
    · rw [h.tx_eq, h.sanity]
    · exact inv.sanity ht
  · rcases hlookup _ _ ht with ⟨rfl, rfl⟩ | ht
    · rw [h.tx_eq, h.not_coinbase]
    · exact inv.not_coinbase ht
  · change (pool.insert (env.txid tx) entry).spents.lookup o = some t
    rw [lookup_spents_insert]
    rcases hlookup t e ht with ⟨rfl, rfl⟩ | ht
    · rw [if_pos ho]
    · have hspent : pool.spents.lookup o = some t := inv.indexed t e ht o ho
      rw [if_neg, hspent]
      intro hmem
      rw [uses, h.tx_eq] at hmem
      rw [h.lookup_spents hmem] at hspent
      cases hspent
  · rw [lookup_spents_insert] at ho
    split at ho <;> rename_i hmem
    · obtain rfl := Option.some.inj ho
      rw [uses, h.tx_eq] at hmem
      exact ⟨tx, rfl, hmem⟩
    · exact inv.source ho

/-- What is left of a pool keeps the invariant when its two maps still agree. -/
theorem Inv.mono (inv : pool.Inv env) (hsub : pool'.registry.Sub pool.registry)
    (hindexed : pool'.registry.Indexed uses) : pool'.Inv env where
  key h := inv.key (hsub.nodes h)
  sanity h := inv.sanity (hsub.nodes h)
  not_coinbase h := inv.not_coinbase (hsub.nodes h)
  indexed := hindexed
  source h := inv.source (hsub.holder h)

theorem Inv.addTx (inv : pool.Inv env) {result : Except MempoolError Unit}
    (h : pool.addTx env c now tx = .ok (pool', result)) : pool'.Inv env := by
  rcases addTx_eq_ok h with ⟨-, rfl⟩ | ⟨entry, view, haccepted, rfl⟩
  · exact inv
  · exact inv.insert haccepted

theorem Inv.restore (inv : pool.Inv env) (h : restore env c now pool tx = .ok pool') :
    pool'.Inv env := by
  unfold MemPool.restore at h
  split at h
  · exact Except.ok.inj h ▸ inv
  · simp only [bind_eq_ok, pure_eq_ok] at h
    obtain ⟨⟨pool₁, result⟩, hadd, rfl⟩ := h
    exact inv.addTx hadd

/-- A loop over transactions keeps what each of its rounds keeps. -/
theorem foldlM_invariant {f : MemPool → Transaction → Except Panic MemPool} {P : MemPool → Prop}
    (hf : ∀ pool tx pool', P pool → f pool tx = .ok pool' → P pool') (hp : P pool)
    (h : txs.foldlM f pool = .ok pool') : P pool' := by
  induction txs generalizing pool with
  | nil => exact Except.ok.inj h ▸ hp
  | cons tx txs ih =>
    rw [List.foldlM_cons, bind_eq_ok] at h
    obtain ⟨pool₁, hround, h⟩ := h
    exact ih (hf _ _ _ hp hround) h

theorem Inv.step (inv : pool.Inv env) {op : Op} (h : pool.step env op = .ok pool') :
    pool'.Inv env := by
  cases op with
  | addTx c now tx =>
    simp only [MemPool.step, bind_eq_ok, pure_eq_ok] at h
    obtain ⟨⟨pool₁, result⟩, hadd, rfl⟩ := h
    exact inv.addTx hadd
  | addBlock txs =>
    obtain ⟨pool₁, hok, hpurge⟩ := foldlM_confirm_purge env pool txs
    rw [MemPool.step, MemPool.addBlock, hok] at h
    split at h
    · exact Except.ok.inj h ▸ inv
    · obtain rfl := Except.ok.inj h
      exact inv.mono hpurge.sub (hpurge.indexed inv.indexed)
  | removeBlock c now txs =>
    rw [MemPool.step, MemPool.removeBlock] at h
    split at h
    · exact Except.ok.inj h ▸ inv
    · exact foldlM_invariant (fun _ _ _ inv h => inv.restore h) inv h
  | removeDoubleSpends tx =>
    obtain ⟨pool₁, hok, hsweep⟩ := removeDoubleSpends_sweep env pool tx
    rw [MemPool.step, hok] at h
    obtain rfl := Except.ok.inj h
    exact inv.mono hsweep.sub (hsweep.indexed inv.indexed)

theorem Reachable.inv (h : Reachable env pool) : pool.Inv env := by
  induction h with
  | new => exact .new
  | step _ hstep ih => exact ih.step hstep

/-! ## No double spend -/

/-- Every input of a pool transaction is listed under that transaction, so that no two of
them spend the same output. -/
theorem no_double_spend (h : Reachable env pool) :
    (∀ t e, pool.transactions.lookup t = some e → env.txid e.tx = t
      ∧ ∀ o ∈ e.tx.prevouts, pool.spents.lookup o = some (env.txid e.tx))
    ∧ ∀ t t' e e', pool.transactions.lookup t = some e →
      pool.transactions.lookup t' = some e' → t ≠ t' → ∀ o ∈ e.tx.prevouts, o ∉ e'.tx.prevouts := by
  have inv := h.inv
  refine ⟨fun t e ht => ⟨inv.key ht, fun o ho => ?_⟩, fun t t' e e' ht ht' hne o ho ho' => ?_⟩
  · rw [inv.key ht]
    exact inv.indexed t e ht o ho
  · exact hne (inv.indexed.unique ht ht' ho ho')

theorem no_double_spend_fork : ∃ pool e, Reachable Small.paying pool
    ∧ pool.transactions.lookup (Small.paying.txid Small.deposit) = some e
    ∧ ∀ o ∈ e.tx.prevouts, pool.spents.lookup o = some (Small.paying.txid e.tx) := by
  obtain ⟨n, hn, hfork⟩ := Small.exists_fork
  obtain ⟨e, he, -⟩ := Option.map_eq_some_iff.1 hfork.deposit
  exact ⟨n.pool, e, hn.pool, he, ((no_double_spend hn.pool).1 _ e he).2⟩

end MemPool

end BitcoinNode
