import BitcoinNode.Blockchain.Undo
import BitcoinNode.Mempool.Evicted

/-!
# What a connected block removes from the pool

The pool after a block is the pool before it without the transactions of the block, those
that conflict with one, and what descends from these. A line of descent ends at a
transaction of the block, whose outputs are coins of the chain from then on.
-/

namespace BitcoinNode

namespace MemPool

open Registry Relation

variable {env : Env} {pool pool' : MemPool} {txs : List Transaction} {t b : Txid}
  {e : MemPoolEntry} {o : OutPoint}

/-- The transaction is one of the block. -/
def InBlock (env : Env) (txs : List Transaction) (t : Txid) : Prop := t ∈ txs.map env.txid

instance : Decidable (InBlock env txs t) := inferInstanceAs (Decidable (t ∈ txs.map env.txid))

/-- A pool transaction that is not in the block spends what a block transaction spends. -/
def Conflicts (env : Env) (pool : MemPool) (txs : List Transaction) (t : Txid) : Prop :=
  ¬ InBlock env txs t ∧ ∃ e, pool.transactions.lookup t = some e
    ∧ ∃ tx ∈ txs, ∃ o ∈ tx.prevouts, o ∈ e.tx.prevouts

/-- A pool transaction spends what another transaction of the block spends. -/
def Displaced (env : Env) (pool : MemPool) (txs : List Transaction) (t : Txid) : Prop :=
  ∃ e, pool.transactions.lookup t = some e
    ∧ ∃ tx ∈ txs, env.txid tx ≠ t ∧ ∃ o ∈ tx.prevouts, o ∈ e.tx.prevouts

/-- The second transaction spends an output of the first one, both in the pool. -/
def Spends (env : Env) (pool : MemPool) (t t' : Txid) : Prop :=
  ∃ e e', pool.transactions.lookup t = some e ∧ pool.transactions.lookup t' = some e'
    ∧ ∃ o ∈ e.tx.outpoints env, o ∈ e'.tx.prevouts

def Descends (env : Env) (pool : MemPool) : Txid → Txid → Prop := ReflTransGen (Spends env pool)

/-- Descent through transactions that are not in the block. -/
def DescendsBeside (env : Env) (pool : MemPool) (txs : List Transaction) : Txid → Txid → Prop :=
  ReflTransGen fun t t' => pool.Spends env t t' ∧ ¬ InBlock env txs t'

/-- Every input is an unspent coin of the chain or an output of a pool transaction. -/
def Backed (c : Chain) (pool : MemPool) : Prop :=
  ∀ t e, pool.transactions.lookup t = some e → ∀ o ∈ e.tx.prevouts, o ∈ c.db.db.coin
    ∨ ∃ p, pool.transactions.lookup o.txid = some p ∧ o.vout < p.tx.output.length

/-- No input refers to a provably unspendable output of a pool transaction. -/
def SpendsSpendable (env : Env) (pool : MemPool) : Prop :=
  ∀ t e, pool.transactions.lookup t = some e → ∀ o ∈ e.tx.prevouts, ∀ p output,
    pool.transactions.lookup o.txid = some p → p.tx.output[o.vout]? = some output →
    env.isProvablyUnspendable output.scriptPubkey = false

theorem names_eq : (txs.map (item env)).map Prod.fst = txs.map env.txid := by
  rw [List.map_map]
  rfl

/-! ## The effect of `add_block` -/

/-- What `add_block` leaves of a pool. -/
structure Removal (env : Env) (pool : MemPool) (txs : List Transaction) (pool' : MemPool) :
    Prop where
  sub : pool'.registry.Sub pool.registry
  inBlock {t : Txid} : InBlock env txs t → pool'.transactions.lookup t = none
  beside {b t : Txid} : Conflicts env pool txs b → DescendsBeside env pool txs b t →
    pool'.transactions.lookup t = none
  only {t : Txid} {e : MemPoolEntry} : pool.transactions.lookup t = some e →
    pool'.transactions.lookup t = none →
    InBlock env txs t ∨ ∃ b, Displaced env pool txs b ∧ Descends env pool b t
  children {t t' : Txid} : pool.Spends env t t' →
    pool'.transactions.lookup t = none → ¬ InBlock env txs t →
    pool'.transactions.lookup t' = none
  conflicts {t : Txid} {e : MemPoolEntry} : pool'.transactions.lookup t = some e →
    ∀ tx ∈ txs, ∀ o ∈ tx.prevouts, o ∉ e.tx.prevouts

theorem removal_of_purge (hid : TxidFaithful env) (inv : pool.Inv env)
    (hheld : pool.registry.Held uses)
    (h : Purge uses (makes env) pool.registry (txs.map (item env)) pool'.registry) :
    Removal env pool txs pool' := by
  have hindexed := h.indexed inv.indexed
  have hagree := inv.agree hid txs
  have hfree : ∀ tx ∈ txs, ∀ o ∈ tx.prevouts, pool'.registry.holder.lookup o = none :=
    fun tx htx o ho => h.holder_none hagree (mem_flatMap_item.2 ⟨tx, htx, ho⟩)
  have hclosed : ∀ n w, pool.registry.Dropped pool'.registry n w → n ∉ txs.map env.txid →
      ∀ o ∈ makes env w, pool'.registry.holder.lookup o = none :=
    fun n w hd hn o ho => h.closed hd (by rwa [names_eq]) ho
  refine ⟨h.sub, fun ht => ?_, fun hb ht => ?_, fun ht ht' => ?_, fun hspends ht hn => ?_,
    fun ht tx htx o ho hmem => ?_⟩
  · exact h.nodes_none (by rwa [names_eq])
  · obtain ⟨hb, e, he, tx, htx, o, ho, hoe⟩ := hb
    have hline : pool.registry.Line uses (makes env) tx.prevouts (txs.map env.txid) _ :=
      ⟨_, ⟨e, he, o, ho, hoe⟩, hb, ht⟩
    obtain ⟨-, w, hw⟩ := hline.dropped h.sub hindexed (hfree tx htx) hclosed
    exact hw.2
  · refine ((h.dropped_iff inv.indexed hheld hagree ht).1 ht').imp (by rw [names_eq]; exact id) ?_
    rintro ⟨before, i, after, hsplit, b, ⟨v, hv, o, ho, hov⟩, hb, hbn⟩
    have hi : i ∈ txs.map (item env) := by simp [hsplit]
    obtain ⟨tx, htx, rfl⟩ := List.mem_map.1 hi
    refine ⟨b, ⟨v, hv, tx, htx, ?_, o, ho, hov⟩, ReflTransGen.mono (fun _ _ hc => hc.1) _ _ hbn⟩
    rintro rfl
    exact hb (by simp [item])
  · obtain ⟨e, e', he, he', o, ho, hoe⟩ := hspends
    exact hindexed.lookup_none h.sub he' hoe (hclosed _ e ⟨he, ht⟩ hn o ho)
  · have hspent := hindexed _ _ ht o hmem
    rw [hfree tx htx o ho] at hspent
    cases hspent

/-- `add_block` ends, also on the empty pool. -/
theorem addBlock_removal (hid : TxidFaithful env) (h : Reachable env pool)
    (txs : List Transaction) :
    ∃ pool', pool.addBlock env txs = .ok pool' ∧ Removal env pool txs pool' := by
  have inv := h.inv
  unfold addBlock
  split <;> rename_i hempty
  · have hnone : ∀ t, pool.transactions.lookup t = none := by
      intro t
      rw [isEmpty, beq_iff_eq, Finset.card_eq_zero] at hempty
      rw [Finmap.lookup_eq_none, ← Finmap.mem_keys, hempty]
      exact Finset.notMem_empty t
    refine ⟨pool, rfl, Sub.refl _, fun _ => hnone _, fun _ _ => hnone _, fun ht _ => ?_,
      fun _ _ _ => hnone _, fun ht => ?_⟩ <;> rw [hnone] at ht <;> cases ht
  · obtain ⟨pool', hok, hpurge⟩ := foldlM_confirm_purge env pool txs
    refine ⟨pool', hok, removal_of_purge hid inv ?_ hpurge⟩
    intro o t e ho ht
    obtain ⟨tx, htx, hmem⟩ := inv.source ho
    rw [uses, (hid e.tx tx ((inv.key ht).trans htx.symm)).1]
    exact hmem

namespace Removal

variable (h : Removal env pool txs pool')

include h

/-- Where no transaction of the block descends from a displaced one, the pool loses exactly
the block, what conflicts with it and what descends from that. -/
theorem lookup_eq_none_iff
    (hblock : ∀ t, InBlock env txs t → ¬ ∃ b, Displaced env pool txs b ∧ pool.Descends env b t)
    (ht : pool.transactions.lookup t = some e) : pool'.transactions.lookup t = none ↔
      InBlock env txs t ∨ ∃ b, Conflicts env pool txs b ∧ pool.Descends env b t := by
  constructor
  · intro hnone
    refine (h.only ht hnone).imp_right ?_
    rintro ⟨b, hb, hbt⟩
    have hnot : ¬ InBlock env txs b := fun hin => hblock b hin ⟨b, hb, .refl⟩
    obtain ⟨e, he, tx, htx, -, ho⟩ := hb
    exact ⟨b, ⟨hnot, e, he, tx, htx, ho⟩, hbt⟩
  · rintro (hin | ⟨b, hb, hbt⟩)
    · exact h.inBlock hin
    · have hdisplaced : Displaced env pool txs b := by
        obtain ⟨hnot, e, he, tx, htx, ho⟩ := hb
        exact ⟨e, he, tx, htx, fun heq => hnot (List.mem_map.2 ⟨tx, htx, heq⟩), ho⟩
      refine h.beside hb ?_
      clear ht
      induction hbt with
      | refl => exact .refl
      | @tail t t' hbt hspends ih =>
        obtain ⟨e₁, e₂, ht₁, ht₂, ho⟩ := hspends
        exact .tail ih ⟨⟨e₁, e₂, ht₁, ht₂, ho⟩, fun hin =>
          hblock t' hin ⟨b, hdisplaced, hbt.tail ⟨e₁, e₂, ht₁, ht₂, ho⟩⟩⟩

/-- A pool that lives on the coins of the chain and its own outputs still does after the
block. -/
theorem backed (hid : TxidFaithful env) (inv : pool.Inv env) {c c' : Chain} {block : Block}
    {height : Nat} {journal : List CoinEntry} (htxs : block.txdata = txs)
    (happly : Ledger.applyAll c.db.db.coin (block.ledgerTxs env height)
      = some (c'.db.db.coin, journal))
    (hbacked : Backed c pool) (hspendable : pool.SpendsSpendable env) : Backed c' pool' := by
  subst htxs
  intro t e ht o ho
  have ht₀ := h.sub.nodes ht
  have hspent : ∀ ltx ∈ block.ledgerTxs env height, o ∉ ltx.spends := by
    intro ltx hltx hmem
    obtain ⟨tx, htx, rfl⟩ := List.mem_map.1 hltx
    simp only [Transaction.ledgerTx] at hmem
    split at hmem
    · exact h.conflicts ht tx htx o hmem ho
    · cases hmem
  rcases hbacked t e ht₀ o ho with hcoin | ⟨p, hp, hvout⟩
  · exact .inl (Ledger.mem_applyAll happly (.inl hcoin) hspent)
  · cases hp' : pool'.transactions.lookup o.txid with
    | some p' =>
      obtain rfl := Option.some.inj (hp.symm.trans (h.sub.nodes hp'))
      exact .inr ⟨p, rfl, hvout⟩
    | none =>
      by_cases hin : InBlock env block.txdata o.txid
      · obtain ⟨tx, htx, hid_tx⟩ := List.mem_map.1 hin
        have houtput := (hid tx p.tx (hid_tx.trans (inv.key hp).symm)).2
        obtain ⟨output, hget⟩ : ∃ output, p.tx.output[o.vout]? = some output :=
          ⟨_, List.getElem?_eq_getElem hvout⟩
        have hscript := hspendable t e ht₀ o ho p _ hp hget
        rw [← houtput] at hget
        refine .inl (Ledger.mem_applyAll happly (.inr ⟨_, List.mem_map_of_mem htx, ?_⟩) hspent)
        refine List.mem_map.2 ⟨_, mem_createdCoins.2 ⟨o.vout, _, hget, hscript, rfl⟩, ?_⟩
        rw [Nat.zero_add, hid_tx]
      · have hspends : pool.Spends env o.txid t :=
          ⟨p, e, hp, ht₀, o, Transaction.mem_outpoints.2 ⟨(inv.key hp).symm, hvout⟩, ho⟩
        rw [h.children hspends hp' hin] at ht
        cases ht

end Removal

end MemPool

/-! ## Connecting a block -/

namespace Node

open MemPool

variable {env : Env} {n : Node} {block : Block} {entry : ChainEntry} {c' : Chain}

/-- A block that connects to the tip removes its transactions, what conflicts with them and
what descends from that beside the block; nothing else goes than what is in the block or
descends from a displaced transaction; and the rest of the pool keeps its coins. -/
theorem connect_removes (law : env.Lawful) (hid : TxidFaithful env) (h : Visited env n)
    (hentry : n.chain.db.getEntryByHash entry.hash = some entry)
    (hblock : n.chain.db.getBlock entry.hash = some block)
    (hprev : entry.prevBlock = n.chain.tip.hash)
    (hconnect : n.chain.connect env block entry n.chain.tip = .ok (c', .ok entry)) :
    ∃ pool', n.pool.addBlock env block.txdata = .ok pool'
      ∧ (∀ t e, pool'.transactions.lookup t = some e → n.pool.transactions.lookup t = some e)
      ∧ (∀ t, InBlock env block.txdata t → pool'.transactions.lookup t = none)
      ∧ (∀ b t, Conflicts env n.pool block.txdata b →
        DescendsBeside env n.pool block.txdata b t → pool'.transactions.lookup t = none)
      ∧ (∀ t e, n.pool.transactions.lookup t = some e → pool'.transactions.lookup t = none →
        InBlock env block.txdata t
          ∨ ∃ b, Displaced env n.pool block.txdata b ∧ n.pool.Descends env b t)
      ∧ ((∀ t, InBlock env block.txdata t →
          ¬ ∃ b, Displaced env n.pool block.txdata b ∧ n.pool.Descends env b t) →
        ∀ t e, n.pool.transactions.lookup t = some e → (pool'.transactions.lookup t = none ↔
          InBlock env block.txdata t
            ∨ ∃ b, Conflicts env n.pool block.txdata b ∧ n.pool.Descends env b t))
      ∧ (Backed n.chain n.pool → n.pool.SpendsSpendable env → Backed c' pool') := by
  obtain ⟨pool', hok, hremoval⟩ := addBlock_removal hid h.pool block.txdata
  have inv := h.chain.inv law
  obtain ⟨-, -, -, -, -, journal, -, -, happly, -⟩ :=
    Chain.connect_effect inv (h.chain.undoInv law).unspent hentry hblock hprev hconnect
  exact ⟨pool', hok, fun t e => hremoval.sub.nodes, fun t => hremoval.inBlock,
    fun b t => hremoval.beside, fun t e => hremoval.only,
    fun hin t e ht => hremoval.lookup_eq_none_iff hin ht,
    hremoval.backed hid h.pool.inv rfl happly⟩

theorem connect_removes_fork :
    ∃ (n : Node) (block : Block) (pool' : MemPool), Visited Small.paying n
    ∧ n.pool.addBlock Small.paying block.txdata = .ok pool'
    ∧ (∀ t, InBlock Small.paying block.txdata t → pool'.transactions.lookup t = none)
    ∧ InBlock Small.paying block.txdata (Small.paying.txid Small.middle) := by
  obtain ⟨n, hn, hfork⟩ := Small.exists_fork
  obtain ⟨n', hact, -⟩ := hfork.replaced
  obtain ⟨entry, block, c, pool, hentry, hhash, -, hblock, hprev, hconnect, -, -⟩ :=
    act_connect hact
  obtain ⟨pool', hok, -, hin, -⟩ := connect_removes Small.paying_lawful Small.paying_txidFaithful hn
    hentry hblock hprev hconnect
  refine ⟨n, block, pool', hn, hok, hin, ?_⟩
  rw [hhash, hfork.stored] at hblock
  obtain rfl := Option.some.inj hblock
  simp [InBlock, Small.replacement, Small.block]

/-- After a coinbase was created twice, a block transaction can descend from one that the
block displaces; what descends from it stays in the pool. -/
theorem last_stays : ∃ (n : Node) (block : Block) (entry : ChainEntry) (c' : Chain)
    (pool' : MemPool) (t : Txid), Visited Small.paying n
    ∧ n.chain.db.getEntryByHash entry.hash = some entry
    ∧ n.chain.db.getBlock entry.hash = some block ∧ entry.prevBlock = n.chain.tip.hash
    ∧ n.chain.connect Small.paying block entry n.chain.tip = .ok (c', .ok entry)
    ∧ n.pool.addBlock Small.paying block.txdata = .ok pool'
    ∧ (∃ b, Conflicts Small.paying n.pool block.txdata b ∧ n.pool.Descends Small.paying b t)
    ∧ pool'.transactions.lookup t ≠ none := by
  obtain ⟨n, hn, hfork⟩ := Small.exists_fork
  obtain ⟨n', hact, hlast⟩ := hfork.replaced
  obtain ⟨entry, block, c, pool, hentry, hhash, -, hblock, hprev, hconnect, hpool, rfl⟩ :=
    act_connect hact
  obtain ⟨e, hstays, -⟩ := Option.map_eq_some_iff.1 hlast
  obtain ⟨e₁, hdeposit, he₁⟩ := Option.map_eq_some_iff.1 hfork.deposit
  obtain ⟨e₂, hmiddle, he₂⟩ := Option.map_eq_some_iff.1 hfork.middle
  obtain ⟨e₃, hlast, he₃⟩ := Option.map_eq_some_iff.1 hfork.last
  refine ⟨n, block, entry, c, pool, Small.paying.txid Small.last, hn, hentry, hblock, hprev,
    hconnect, hpool, ⟨Small.paying.txid Small.deposit, ?_, ?_⟩, by simp [hstays]⟩
  · rw [hhash, hfork.stored] at hblock
    obtain rfl := Option.some.inj hblock
    refine ⟨by decide, e₁, hdeposit, Small.rival, by decide,
      ⟨Small.paying.txid (Small.reward 1), 0⟩, by decide, ?_⟩
    rw [he₁]
    decide
  · have hfirst : n.pool.Spends Small.paying (Small.paying.txid Small.deposit)
        (Small.paying.txid Small.middle) :=
      ⟨e₁, e₂, hdeposit, hmiddle, ⟨Small.paying.txid Small.deposit, 0⟩, by rw [he₁]; decide,
        by rw [he₂]; decide⟩
    have hsecond : n.pool.Spends Small.paying (Small.paying.txid Small.middle)
        (Small.paying.txid Small.last) :=
      ⟨e₂, e₃, hmiddle, hlast, ⟨Small.paying.txid Small.middle, 0⟩, by rw [he₂]; decide,
        by rw [he₃]; decide⟩
    exact .tail (.single hfirst) hsecond

end Node

end BitcoinNode
