import BitcoinNode.Library.System
import BitcoinNode.Mempool.Spents

/-!
# Coins of evicted transactions

`remove_spent` forgets one outpoint of the transaction it evicts, so `spents` keeps the
others. Which calls leave such an entry behind is read off the pool before the call: those
that evict a transaction with an input that is neither spent by the transactions of the call
nor created by another evicted one.
-/

namespace BitcoinNode.MemPool

open Registry Relation

variable {env : Env} {pool pool' : MemPool} {c : Chain} {now : Nat} {tx : Transaction}
  {txs : List Transaction} {t : Txid} {e entry : MemPoolEntry} {op : Op}

/-- Every outpoint in `spents` is an input of the pool transaction it is listed under. -/
def Listed (pool : MemPool) : Prop :=
  ∀ o t, pool.spents.lookup o = some t →
    ∃ e, pool.transactions.lookup t = some e ∧ o ∈ e.tx.prevouts

/-- What a call evicts: the descendants of what conflicts with its transactions, along lines
without the block transactions already dealt with. -/
def Evicts (env : Env) (pool : MemPool) : Op → Txid → Prop
  | .addBlock txs, t => pool.registry.Evicted uses (makes env) (txs.map (item env)) t
  | .removeDoubleSpends tx, t => pool.registry.Line uses (makes env) tx.prevouts [] t
  | .addTx _ _ _, _ => False
  | .removeBlock _ _ _, _ => False

/-- The transactions that replace what a call evicts. -/
def Op.removes : Op → List Transaction
  | .addBlock txs => txs
  | .removeDoubleSpends tx => [tx]
  | .addTx _ _ _ => []
  | .removeBlock _ _ _ => []

/-- Every input of an evicted transaction is spent by a transaction of the call or created by
another evicted one. -/
def FreesInputs (env : Env) (pool : MemPool) (op : Op) : Prop :=
  ∀ t e, pool.Evicts env op t → pool.transactions.lookup t = some e → ∀ o ∈ e.tx.prevouts,
    (∃ tx ∈ op.removes, o ∈ tx.prevouts) ∨ ∃ t' e', pool.Evicts env op t'
      ∧ pool.transactions.lookup t' = some e' ∧ o ∈ e'.tx.outpoints env

/-- `is_double_spend` is right exactly when the outpoints in `spents` are listed. -/
theorem listed_iff (inv : pool.Inv env) : pool.Listed ↔ ∀ tx, pool.isDoubleSpend tx = true →
    ∃ t e, pool.transactions.lookup t = some e ∧ ∃ o ∈ tx.prevouts, o ∈ e.tx.prevouts := by
  constructor
  · intro h tx hspent
    obtain ⟨input, hinput, hmem⟩ := List.any_eq_true.1 hspent
    obtain ⟨t, ht⟩ := Finmap.mem_iff.1 (of_decide_eq_true hmem)
    obtain ⟨e, he, ho⟩ := h _ t ht
    exact ⟨t, e, he, _, List.mem_map_of_mem hinput, ho⟩
  · intro h o t ho
    have hspent : pool.isDoubleSpend ⟨1, 0, [⟨o, [], 0, []⟩], []⟩ = true := by
      simpa [isDoubleSpend] using Finmap.mem_of_lookup_eq_some ho
    obtain ⟨t', e, he, o', ho', hmem⟩ := h _ hspent
    obtain rfl : o' = o := by simpa [Transaction.prevouts] using ho'
    have hspents : pool.spents.lookup o' = some t' := inv.indexed t' e he o' hmem
    rw [ho] at hspents
    obtain rfl := Option.some.inj hspents
    exact ⟨e, he, hmem⟩

theorem listed_insert {view : CoinView} (h : Accepted env pool c now tx entry view)
    (hl : pool.Listed) : (pool.insert (env.txid tx) entry).Listed := by
  intro o t ho
  rw [lookup_spents_insert] at ho
  rw [lookup_transactions_insert]
  split at ho <;> rename_i hmem
  · obtain rfl := Option.some.inj ho
    exact ⟨entry, by simp, hmem⟩
  · obtain ⟨e, he, hoe⟩ := hl o t ho
    refine ⟨e, ?_, hoe⟩
    rw [if_neg, he]
    rintro rfl
    exact h.new_tx (Finmap.mem_of_lookup_eq_some he)

theorem listed_addTx {result : Except MempoolError Unit} (hl : pool.Listed)
    (h : pool.addTx env c now tx = .ok (pool', result)) : pool'.Listed := by
  rcases addTx_eq_ok h with ⟨-, rfl⟩ | ⟨entry, view, haccepted, rfl⟩
  · exact hl
  · exact listed_insert haccepted hl

theorem listed_restore (hl : pool.Listed) (h : restore env c now pool tx = .ok pool') :
    pool'.Listed := by
  unfold restore at h
  split at h
  · exact Except.ok.inj h ▸ hl
  · simp only [bind_eq_ok, pure_eq_ok] at h
    obtain ⟨⟨pool₁, result⟩, hadd, rfl⟩ := h
    exact listed_addTx hl hadd

/-- Items of a block and pool transactions of one id spend the same outpoints. -/
theorem Inv.agree (inv : pool.Inv env) (hid : TxidFaithful env) (txs : List Transaction) :
    pool.registry.Agree uses (txs.map (item env)) := by
  intro i hi e he
  obtain ⟨tx, -, rfl⟩ := List.mem_map.1 hi
  exact (hid e.tx tx (inv.key he)).1

theorem mem_flatMap_item {o : OutPoint} :
    o ∈ (txs.map (item env)).flatMap Prod.snd ↔ ∃ tx ∈ txs, o ∈ tx.prevouts := by
  simp [item]

/-- A call leaves a listed pool listed exactly when it frees the inputs of what it evicts. -/
theorem step_listed_iff (hid : TxidFaithful env) (inv : pool.Inv env) (hl : pool.Listed)
    (h : pool.step env op = .ok pool') : pool'.Listed ↔ pool.FreesInputs env op := by
  cases op with
  | addTx c now tx =>
    simp only [MemPool.step, bind_eq_ok, pure_eq_ok] at h
    obtain ⟨⟨pool₁, result⟩, hadd, rfl⟩ := h
    exact iff_of_true (listed_addTx hl hadd) fun _ _ h => False.elim h
  | removeBlock c now txs =>
    refine iff_of_true ?_ fun _ _ h => False.elim h
    rw [MemPool.step, MemPool.removeBlock] at h
    split at h
    · exact Except.ok.inj h ▸ hl
    · exact foldlM_invariant (fun _ _ _ hl h => listed_restore hl h) hl h
  | addBlock txs =>
    obtain ⟨pool₁, hok, hpurge⟩ := foldlM_confirm_purge env pool txs
    rw [MemPool.step, MemPool.addBlock, hok] at h
    split at h <;> rename_i hempty
    · obtain rfl := Except.ok.inj h
      refine iff_of_true hl fun t e _ ht => absurd (Finmap.mem_of_lookup_eq_some ht) ?_
      rw [isEmpty, beq_iff_eq, Finset.card_eq_zero] at hempty
      rw [← Finmap.mem_keys, hempty]
      exact Finset.notMem_empty t
    · obtain rfl := Except.ok.inj h
      refine (hpurge.tight_iff inv.indexed hl (inv.agree hid txs)).trans ?_
      simp only [mem_flatMap_item]
      rfl
  | removeDoubleSpends tx =>
    obtain ⟨pool₁, hok, hsweep⟩ := removeDoubleSpends_sweep env pool tx
    rw [MemPool.step, hok] at h
    obtain rfl := Except.ok.inj h
    refine (hsweep.tight_iff inv.indexed hl).trans ?_
    simp only [FreesInputs, Op.removes, List.mem_singleton, exists_eq_left]
    rfl

/-- A call that frees the inputs of what it evicts. -/
def FreeingStep (env : Env) (pool pool' : MemPool) : Prop :=
  ∃ op, pool.step env op = .ok pool' ∧ pool.FreesInputs env op

theorem listed_of_freeing (hid : TxidFaithful env) (h : ReflTransGen (FreeingStep env) new pool) :
    pool.Inv env ∧ pool.Listed := by
  refine ReflTransGen.invariant (P := fun pool => pool.Inv env ∧ pool.Listed) ?_ h
    ⟨.new, fun o t ho => by cases ho⟩
  rintro pool pool' ⟨op, hstep, hfrees⟩ ⟨inv, hl⟩
  exact ⟨inv.step hstep, (step_listed_iff hid inv hl hstep).2 hfrees⟩

end BitcoinNode.MemPool
