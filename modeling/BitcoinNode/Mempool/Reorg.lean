import BitcoinNode.Blockchain.Origins
import BitcoinNode.Blockchain.TipCoins
import BitcoinNode.Mempool.Connected
import BitcoinNode.Mempool.Packed
import BitcoinNode.Mempool.Readmitted

/-!
# Pool transactions across reorganizations

The checks of `verify` are made once, when a transaction is added. A block that is connected leaves
them passed, unless it creates an output again. A block that is disconnected need not: a coinbase
loses depth, a relative lock is on again, and a coin goes with the block that made it, if the
transaction of the block is not taken back.
-/

namespace BitcoinNode

open Relation

variable {env : Env}

/-! ## What a pool transaction stands on -/

namespace Chain

/-- The coin may be spent by the input in a block on `prev`: a coinbase is deep enough, and the
relative lock is over. -/
structure MaySpend (c : Chain) (prev : ChainEntry) (tx : Transaction) (input : TxIn)
    (coin : CoinEntry) : Prop where
  mature : coin.Mature (prev.height + 1)
  unlocked : tx.version < 2 ∨ c.Unlocked prev (coin.height.getD (prev.height + 1)) input.sequence

variable {c c' : Chain} {prev : ChainEntry} {tx : Transaction} {input : TxIn} {coin : CoinEntry}
  {h sequence : Nat}

/-- Whether a lock is over on an entry is read off its branch. -/
theorem Unlocked.mono (law : env.Lawful) (inv : c.Inv env) (inv' : c'.Inv env) (skips : c.db.Skips)
    (skips' : c'.db.Skips)
    (hentries : ∀ hash e, c.db.getEntryByHash hash = some e → c'.db.getEntryByHash hash = some e)
    (hprev : c.db.getEntryByHash prev.hash = some prev) (hlock : c.Unlocked prev h sequence) :
    c'.Unlocked prev h sequence := by
  unfold Unlocked at hlock ⊢
  refine hlock.imp_right fun hlock => ?_
  split_ifs at hlock ⊢
  · exact hlock
  · obtain ⟨a, ha, hlt⟩ := hlock
    obtain ⟨hle, hanc, hheight⟩ := ChainDB.getAncestor_eq_ok inv.tree inv.main skips hprev ha
    have hprev' := hentries _ _ hprev
    obtain ⟨b, hb, hanc', hheight'⟩ :=
      ChainDB.getAncestor_eq inv'.tree inv'.main skips' hprev' hle
    obtain rfl := inv'.tree.rooted.ancestor_unique hprev' (Forest.Ancestor.mono hentries hanc) hanc'
      (hheight.trans hheight'.symm)
    refine ⟨a, hb, ?_⟩
    rwa [ChainDB.getMedianTime_mono law inv.tree inv'.tree hentries
        (hanc.stored inv.tree hprev),
      ChainDB.getMedianTime_mono law inv.tree inv'.tree hentries hprev]

theorem MaySpend.mono (law : env.Lawful) (inv : c.Inv env) (inv' : c'.Inv env)
    (skips : c.db.Skips) (skips' : c'.db.Skips)
    (hentries : ∀ hash e, c.db.getEntryByHash hash = some e → c'.db.getEntryByHash hash = some e)
    (hprev : c.db.getEntryByHash prev.hash = some prev) (hspend : c.MaySpend prev tx input coin) :
    c'.MaySpend prev tx input coin :=
  ⟨hspend.mature,
    hspend.unlocked.imp_right (Unlocked.mono law inv inv' skips skips' hentries hprev)⟩

/-- What may be spent on the tip may still be spent when the tip has moved up. -/
theorem Above.maySpend (law : env.Lawful) (above : Above env c c')
    (hspend : c.MaySpend c.tip tx input coin) : c'.MaySpend c'.tip tx input coin := by
  have hheight := above.height_le
  rw [above.inv.height_eq, above.inv'.height_eq] at hheight
  constructor
  · intro hcoinbase
    obtain ⟨mined, hmined, hle⟩ := hspend.mature hcoinbase
    exact ⟨mined, hmined, hle.trans (by omega)⟩
  · refine hspend.unlocked.imp_right (above.unlocked law ?_)
    cases coin.height with
    | none => exact .inr ⟨by rw [above.inv.height_eq]; rfl, by rw [above.inv'.height_eq]; rfl⟩
    | some mined => exact .inl rfl

end Chain

namespace MemPool

variable {pool pool' : MemPool} {c c' : Chain} {now : Nat} {tx : Transaction} {o : OutPoint}
  {inputs : List TxIn} {entry e p : MemPoolEntry} {coin : CoinEntry} {view : CoinView} {t : Txid}

/-- The pool without its marks of what is spent. The marks hide from `get_coin_view` what the
transactions of the pool spend themselves. -/
def unmarked (pool : MemPool) : MemPool := { pool with spents := ∅ }

/-- The checks of `verify` other than scripts pass for a transaction of the pool, on the tip as it
is: each input is an output of the pool or an unspent coin of the chain. -/
def Stands (pool : MemPool) (c : Chain) (tx : Transaction) : Prop :=
  ∃ view, pool.unmarked.getCoinView c tx = .ok view
    ∧ (∀ input ∈ tx.input, view.getEntry input.previousOutput ≠ none)
    ∧ c.verifyLocks c.tip tx view LockFlags.STANDARD_LOCKTIME_FLAGS = .ok ()
    ∧ ∃ fee, tx.checkInputs view (c.height + 1) = .ok fee

/-- The coin behind an input of a pool transaction. -/
def backing (pool : MemPool) (c : Chain) (o : OutPoint) : Option CoinEntry :=
  pool.unmarked.coinAt c o

/-- The coin of an output of the pool. -/
def pooledCoin (p : MemPoolEntry) (output : TxOut) : CoinEntry :=
  ⟨p.tx.version, none, p.tx.isCoinBase, output, false⟩

theorem backing_of_lookup (h : pool.transactions.lookup o.txid = some p) :
    pool.backing c o = p.tx.output[o.vout]?.map (pooledCoin p) := by
  have hcoin : pool.unmarked.hasCoin o = true ↔ o.vout < p.tx.output.length := by
    simp [hasCoin, unmarked, h, Finmap.notMem_empty]
  have hlookup : pool.unmarked.transactions.lookup o.txid = some p := h
  rw [backing, coinAt, hlookup]
  dsimp only
  split_ifs with hhas
  · rfl
  · rw [List.getElem?_eq_none (by simpa using mt hcoin.2 hhas)]
    rfl

theorem backing_of_none (h : pool.transactions.lookup o.txid = none) :
    pool.backing c o = c.db.readCoin o := by
  have hlookup : pool.unmarked.transactions.lookup o.txid = none := h
  rw [backing, coinAt, hlookup]

/-- What the marks leave to be seen is there without them. -/
theorem backing_of_coinAt (h : pool.coinAt c o = some coin) : pool.backing c o = some coin := by
  cases hlookup : pool.transactions.lookup o.txid with
  | none => rw [backing_of_none hlookup, ← h, coinAt, hlookup]
  | some p =>
    rw [coinAt, hlookup] at h
    dsimp only at h
    split_ifs at h
    rwa [backing_of_lookup hlookup]

/-- `get_coin_view` does not panic. -/
theorem exists_viewInputs (pool : MemPool) (c : Chain) (inputs : List TxIn) (view : CoinView) :
    ∃ view', pool.viewInputs c inputs view = .ok view' := by
  induction inputs generalizing view with
  | nil => exact ⟨view, rfl⟩
  | cons input inputs ih =>
    rw [viewInputs]
    cases hlookup : pool.transactions.lookup input.previousOutput.txid with
    | none =>
      dsimp only
      cases c.db.readCoin input.previousOutput with
      | none => exact ih _
      | some coin => exact ih _
    | some p =>
      dsimp only
      split_ifs with hcoin
      · simp only [hasCoin, hlookup] at hcoin
        split_ifs at hcoin with hspent hvout
        rw [List.getElem?_eq_getElem (Nat.lt_of_not_le hvout)]
        exact ih _
      · exact ih _

/-- Each input of the transaction has a coin behind it that may be spent in the next block, and
with the outputs of these coins the amounts are right. -/
def Rests (env : Env) (c : Chain) (pool : MemPool) (tx : Transaction) : Prop :=
  ∃ view height fee, tx.checkInputs view height = .ok fee ∧ ∀ input ∈ tx.input, ∃ old coin,
    view.getEntry input.previousOutput = some old
      ∧ pool.backing c input.previousOutput = some coin ∧ coin.output = old.output
      ∧ env.isProvablyUnspendable coin.output.scriptPubkey = false
      ∧ c.MaySpend c.tip tx input coin

theorem Rests.stands (inv : c.Inv env) (h : Rests env c pool tx) : pool.Stands c tx := by
  obtain ⟨view, height, fee, hfee, hinputs⟩ := h
  obtain ⟨view', hview'⟩ := exists_viewInputs pool.unmarked c tx.input CoinView.empty
  have hcoins : ∀ input ∈ tx.input, ∃ old coin, view.getEntry input.previousOutput = some old
      ∧ view'.getEntry input.previousOutput = some coin ∧ coin.output = old.output
      ∧ c.MaySpend c.tip tx input coin := by
    intro input hinput
    obtain ⟨old, coin, hold, hcoin, houtput, -, hspend⟩ := hinputs input hinput
    have hview := getEntry_getCoinView hview' (List.mem_map_of_mem hinput)
    exact ⟨old, coin, hold, hview.trans hcoin, houtput, hspend⟩
  refine ⟨view', hview', fun input hinput => ?_, ?_, fee, ?_⟩
  · obtain ⟨_, _, -, hcoin, -⟩ := hcoins input hinput
    rw [hcoin]
    exact Option.some_ne_none _
  · rw [Chain.verifyLocks_iff (by decide)]
    by_cases hversion : tx.version < 2
    · exact .inr (.inl hversion)
    refine .inr (.inr fun input hinput => ?_)
    obtain ⟨_, coin, -, hcoin, -, hspend⟩ := hcoins input hinput
    rw [Chain.coinHeight, hcoin, inv.height_eq]
    exact hspend.unlocked.resolve_left hversion
  · refine Transaction.checkInputs_of_outputs hfee fun input hinput old hold => ?_
    obtain ⟨old', coin, hold', hcoin, houtput, hspend⟩ := hcoins input hinput
    obtain rfl := Option.some.inj (hold.symm.trans hold')
    exact ⟨coin, hcoin, houtput, inv.height_eq ▸ hspend.mature⟩

/-- What held for the coins of the inputs on one chain and pool holds for those on another. -/
theorem Rests.mono (h : Rests env c pool tx)
    (hcoins : ∀ input ∈ tx.input, ∀ coin, pool.backing c input.previousOutput = some coin →
      env.isProvablyUnspendable coin.output.scriptPubkey = false → c.MaySpend c.tip tx input coin →
      ∃ coin', pool'.backing c' input.previousOutput = some coin' ∧ coin'.output = coin.output
        ∧ c'.MaySpend c'.tip tx input coin') : Rests env c' pool' tx := by
  obtain ⟨view, height, fee, hfee, hinputs⟩ := h
  refine ⟨view, height, fee, hfee, fun input hinput => ?_⟩
  obtain ⟨old, coin, hold, hcoin, houtput, hscript, hspend⟩ := hinputs input hinput
  obtain ⟨coin', hcoin', houtput', hspend'⟩ := hcoins input hinput coin hcoin hscript hspend
  exact ⟨old, coin', hold, hcoin', houtput'.trans houtput, houtput' ▸ hscript, hspend'⟩

/-! ## Transactions that are added -/

/-- What `add_tx` accepts passed the checks with the coins behind its inputs. -/
theorem Accepted.rests (hscripts : UnspendableFails env) (inv : c.Inv env)
    (h : Accepted env pool c now tx entry view) : Rests env c pool tx := by
  obtain ⟨hlocks, ⟨fee, hfee⟩, hverified⟩ := Node.verify_eq_ok h.verified
  rw [h.tx_eq] at hlocks hfee hverified
  refine ⟨view, c.height + 1, fee, hfee, fun input hinput => ?_⟩
  obtain ⟨coin, hcoin⟩ := Option.ne_none_iff_exists'.1 (h.coins hinput)
  have hat := getEntry_getCoinView h.view_eq (List.mem_map_of_mem hinput)
  refine ⟨coin, coin, hcoin, backing_of_coinAt (hat.symm.trans hcoin), rfl, ?_, ?_, ?_⟩
  · exact isProvablyUnspendable_of_verifyScripts hscripts hverified hinput
      (by rw [CoinView.getOutput, hcoin]; rfl)
  · have hmature := Transaction.mature_of_checkInputs hfee input hinput coin hcoin
    rwa [inv.height_eq] at hmature
  · rcases (Chain.verifyLocks_iff (by decide)).1 hlocks with hcoinbase | hversion | hunlocked
    · simp [h.not_coinbase] at hcoinbase
    · exact .inl hversion
    · have hinput := hunlocked input hinput
      rw [Chain.coinHeight, hcoin, inv.height_eq] at hinput
      exact .inr hinput

/-- No unspent coin is of a transaction that `add_tx` accepts. -/
theorem Accepted.notMem_coins (hid : TxidFaithful env) (hmade : MadeCoins env c.db.db.coin)
    (h : Accepted env pool c now tx entry view) (ho : o.txid = env.txid tx) :
    o ∉ c.db.db.coin := by
  intro hmem
  obtain ⟨coin, hcoin⟩ := Finmap.mem_iff.1 hmem
  obtain ⟨maker, hmaker, houtput⟩ := hmade o coin hcoin
  rw [(hid maker tx (hmaker.trans ho)).2] at houtput
  have hvout : o.vout < tx.output.length := (List.getElem?_eq_some_iff.1 houtput).1
  have hnone := List.any_eq_false.1 h.new_coins o.vout (List.mem_range.2 hvout)
  rw [← ho] at hnone
  exact hnone (decide_eq_true hmem)

/-- The pool accepts a transaction on the chain. -/
def Takes (env : Env) (c : Chain) (now : Nat) (pool pool' : MemPool) : Prop :=
  ∃ tx entry view, Accepted env pool c now tx entry view
    ∧ pool' = pool.insert (env.txid tx) entry

theorem addTx_takes {result : Except MempoolError Unit}
    (h : pool.addTx env c now tx = .ok (pool', result)) :
    ReflTransGen (Takes env c now) pool pool' := by
  rcases addTx_eq_ok h with ⟨-, rfl⟩ | ⟨entry, view, haccepted, rfl⟩
  · exact .refl
  · exact .single ⟨tx, entry, view, haccepted, rfl⟩

theorem removeBlock_takes {txs : List Transaction}
    (h : pool.removeBlock env c now txs = .ok pool') :
    ReflTransGen (Takes env c now) pool pool' := by
  unfold removeBlock at h
  split_ifs at h
  · obtain rfl := Except.ok.inj h
    exact .refl
  · refine foldlM_invariant (P := ReflTransGen (Takes env c now) pool) ?_ .refl h
    intro pool₁ tx pool₂ htaken hrestore
    unfold restore at hrestore
    split_ifs at hrestore
    · obtain rfl := Except.ok.inj hrestore
      exact htaken
    · obtain ⟨⟨pool₃, result⟩, hadd, hok⟩ := bind_eq_ok.1 hrestore
      obtain rfl : pool₃ = pool₂ := Except.ok.inj hok
      exact htaken.trans (addTx_takes hadd)

/-- A transaction that is added changes nothing behind the inputs of the others. -/
theorem Accepted.backing_insert (hid : TxidFaithful env) (hmade : MadeCoins env c.db.db.coin)
    (h : Accepted env pool c now tx entry view) (hcoin : pool.backing c o = some coin) :
    (pool.insert (env.txid tx) entry).backing c o = some coin := by
  have hlookup := @lookup_transactions_insert pool (env.txid tx) entry o.txid
  by_cases ho : o.txid = env.txid tx
  · have hnone : pool.transactions.lookup o.txid = none := by
      rw [ho]
      exact Finmap.lookup_eq_none.2 h.new_tx
    rw [backing_of_none hnone, ChainDB.readCoin,
      Finmap.lookup_eq_none.2 (h.notMem_coins hid hmade ho)] at hcoin
    cases hcoin
  · rw [if_neg ho] at hlookup
    cases hparent : pool.transactions.lookup o.txid with
    | none => rw [backing_of_none (hlookup.trans hparent), ← backing_of_none hparent, hcoin]
    | some p => rw [backing_of_lookup (hlookup.trans hparent), ← backing_of_lookup hparent, hcoin]

/-- What a pool has taken on a chain: nothing leaves it, and what is new rests on coins of it and
of the chain, which has no coin of the new transaction. -/
structure Taken (env : Env) (c : Chain) (pool pool' : MemPool) : Prop where
  kept {t : Txid} {e : MemPoolEntry} :
    pool.transactions.lookup t = some e → pool'.transactions.lookup t = some e
  new {t : Txid} {e : MemPoolEntry} : pool'.transactions.lookup t = some e →
    pool.transactions.lookup t = some e
      ∨ Rests env c pool' e.tx ∧ ∀ o : OutPoint, o.txid = t → o ∉ c.db.db.coin

theorem taken_of_takes (hid : TxidFaithful env) (hscripts : UnspendableFails env)
    (inv : c.Inv env) (hmade : MadeCoins env c.db.db.coin)
    (h : ReflTransGen (Takes env c now) pool pool') : Taken env c pool pool' := by
  induction h with
  | refl => exact ⟨id, .inl⟩
  | @tail pool₁ pool₂ _ htakes ih =>
    obtain ⟨tx, entry, view, haccepted, rfl⟩ := htakes
    have hrests : ∀ {tx'}, Rests env c pool₁ tx' →
        Rests env c (pool₁.insert (env.txid tx) entry) tx' := fun hrests =>
      hrests.mono fun input _ coin hcoin _ hspend =>
        ⟨coin, haccepted.backing_insert hid hmade hcoin, rfl, hspend⟩
    refine ⟨fun {t e} ht => ?_, fun {t e} ht => ?_⟩
    · rw [lookup_transactions_insert, if_neg, ih.kept ht]
      rintro rfl
      exact haccepted.new_tx (Finmap.mem_of_lookup_eq_some (ih.kept ht))
    · rw [lookup_transactions_insert] at ht
      split_ifs at ht with heq
      · obtain rfl := Option.some.inj ht
        rw [haccepted.tx_eq]
        exact .inr ⟨hrests (haccepted.rests hscripts inv), fun o ho =>
          haccepted.notMem_coins hid hmade (ho.trans heq)⟩
      · exact (ih.new ht).imp_right (And.imp_left hrests)

end MemPool

/-! ## What a step of the chain changes -/

namespace Chain

variable {c c' : Chain} {block : Block} {entry : ChainEntry} {view : CoinView} {s : Snapshot}

theorem Move.of_connect (inv : c.Inv env) (h : Move env c c')
    (hlog : c'.notified = c.notified ++ [Notification.connect s entry block view]) :
    c.db.getEntryByHash entry.hash = some entry ∧ c.db.getBlock entry.hash = some block
      ∧ entry.prevBlock = c.tip.hash ∧ c.connect env block entry c.tip = .ok (c', .ok entry) := by
  rcases h.notified_cases inv with hsame | ⟨_, _, _, _, hentry, hblock, hprev, hconnect, hlog'⟩
    | ⟨_, _, _, -, -, hlog'⟩
  · simp [hsame.notified] at hlog
  · cases List.append_cancel_left (hlog.symm.trans hlog')
    exact ⟨hentry, hblock, hprev, hconnect⟩
  · cases List.append_cancel_left (hlog.symm.trans hlog')

theorem Move.of_disconnect (inv : c.Inv env) (h : Move env c c')
    (hlog : c'.notified = c.notified ++ [Notification.disconnect s entry block view]) :
    c.db.getBlock c.tip.hash = some block ∧ c.disconnect env c.tip = .ok c' := by
  rcases h.notified_cases inv with hsame | ⟨_, _, _, _, -, -, -, -, hlog'⟩
    | ⟨_, _, _, hblock, hdisc, hlog'⟩
  · simp [hsame.notified] at hlog
  · cases List.append_cancel_left (hlog.symm.trans hlog')
  · cases List.append_cancel_left (hlog.symm.trans hlog')
    exact ⟨hblock, hdisc⟩

end Chain

/-- What a block makes of an outpoint that it does not spend: the coin is that of one of its
transactions, or it is as before and no transaction of the block could have created it. -/
theorem lookup_applyAll_block {block : Block} {height : Nat} {o : OutPoint}
    {coins : FMap OutPoint CoinEntry} {r : FMap OutPoint CoinEntry × List CoinEntry}
    (happly : Ledger.applyAll coins (block.ledgerTxs env height) = some r)
    (hspent : ∀ tx ∈ block.txdata, o ∉ tx.prevouts) :
    (∃ tx ∈ block.txdata, ∃ output, env.txid tx = o.txid ∧ tx.output[o.vout]? = some output
      ∧ r.1.lookup o = some ⟨tx.version, some height, tx.isCoinBase, output, false⟩)
    ∨ r.1.lookup o = coins.lookup o ∧ ∀ tx ∈ block.txdata, ∀ output, env.txid tx = o.txid →
      tx.output[o.vout]? = some output → env.isProvablyUnspendable output.scriptPubkey = true := by
  have hspends : ∀ ltx ∈ block.ledgerTxs env height, o ∉ ltx.spends := by
    intro ltx hltx hmem
    obtain ⟨tx, htx, rfl⟩ := List.mem_map.1 hltx
    simp only [Transaction.ledgerTx] at hmem
    split_ifs at hmem
    · exact hspent tx htx hmem
    · cases hmem
  rcases Ledger.lookup_applyAll happly hspends with
    ⟨ltx, hltx, v, hv, hlookup⟩ | ⟨hcreated, hlookup⟩
  · obtain ⟨tx, htx, rfl⟩ := List.mem_map.1 hltx
    obtain ⟨i, output, houtput, -, heq⟩ := mem_createdCoins.1 hv
    obtain ⟨rfl, rfl⟩ := Prod.mk.inj heq
    exact .inl ⟨tx, htx, output, rfl, by rwa [Nat.zero_add], hlookup⟩
  · refine .inr ⟨hlookup, fun tx htx output hid houtput => ?_⟩
    by_contra hscript
    refine hcreated _ (List.mem_map_of_mem htx) (List.mem_map.2
      ⟨_, mem_createdCoins.2 ⟨o.vout, output, houtput, Bool.eq_false_of_not_eq_true hscript, rfl⟩,
        ?_⟩)
    rw [hid, Nat.zero_add]

theorem Transaction.isCoinBase_eq {tx tx' : Transaction} (h : tx.prevouts = tx'.prevouts) :
    tx.isCoinBase = tx'.isCoinBase := by
  unfold prevouts at h
  unfold isCoinBase
  generalize tx.input = inputs at h ⊢
  generalize tx'.input = inputs' at h ⊢
  rcases inputs with - | ⟨input, - | ⟨second, inputs⟩⟩ <;>
    rcases inputs' with - | ⟨input', - | ⟨second', inputs'⟩⟩ <;> simp_all

theorem Small.paying_unspendableFails : UnspendableFails Small.paying :=
  Small.indicating_unspendableFails

namespace Node

open MemPool

variable {n n' : Node} {c' : Chain} {block : Block} {entry prev : ChainEntry} {now : Nat}
  {pool' : MemPool}

/-- Every transaction of the pool rests on coins of the pool and of the chain. -/
def Resting (env : Env) (n : Node) : Prop :=
  ∀ t e, n.pool.transactions.lookup t = some e → Rests env n.chain n.pool e.tx

theorem Resting.quiet (law : env.Lawful) (h : Resting env n) (hc : Chain.Visited env n.chain)
    (hc' : Chain.Visited env c') (hmove : Chain.Move env n.chain c')
    (hquiet : c'.notified = n.chain.notified) : Resting env ⟨c', n.pool⟩ := by
  have inv := hc.inv law
  have hkept := hmove.sameLedger inv hquiet
  have above : Chain.Above env n.chain c' := ⟨inv, hc'.inv law, hc.skips law, hc'.skips law,
    hc'.timely law, hmove.entries_mono inv, hkept.tip ▸ .refl⟩
  refine fun t e ht => (h t e ht).mono fun input _ coin hcoin _ hspend =>
    ⟨coin, ?_, rfl, above.maySpend law hspend⟩
  dsimp only
  cases hlookup : n.pool.transactions.lookup input.previousOutput.txid with
  | none =>
    rw [backing_of_none hlookup, ChainDB.readCoin] at hcoin ⊢
    rwa [hkept.coin]
  | some p =>
    rw [backing_of_lookup hlookup] at hcoin ⊢
    exact hcoin

/-- What a connected block creates again of what the pool spends is of no coinbase, and the
relative locks of the spenders are over for an output of the block. -/
def HarmlessConnect (env : Env) (n : Node) (entry : ChainEntry) (block : Block) : Prop :=
  ∀ t e, n.pool.transactions.lookup t = some e → ¬ InBlock env block.txdata t →
    (∀ tx ∈ block.txdata, ∀ o ∈ tx.prevouts, o ∉ e.tx.prevouts) → ∀ input ∈ e.tx.input,
    input.previousOutput.txid ∉ n.pool.transactions →
    ∀ tx ∈ block.txdata, env.txid tx = input.previousOutput.txid → tx.isCoinBase = false
      ∧ (e.tx.version < 2 ∨ n.chain.Unlocked entry entry.height input.sequence)

/-- What connecting a block made of the coins and of the pool. -/
structure Connected (env : Env) (n : Node) (entry : ChainEntry) (block : Block) (c' : Chain)
    (pool' : MemPool) : Prop where
  above : Chain.Above env n.chain c'
  tip : c'.tip = entry
  stored : n.chain.db.getEntryByHash entry.hash = some entry
  height : entry.height = n.chain.tip.height + 1
  coins : ∃ journal, Ledger.applyAll n.chain.db.db.coin (block.ledgerTxs env entry.height)
    = some (c'.db.db.coin, journal)
  made : MadeCoins env n.chain.db.db.coin
  inv : n.pool.Inv env
  removal : Removal env n.pool block.txdata pool'

theorem connected_of_connect (law : env.Lawful) (hid : TxidFaithful env)
    (hc : Chain.Visited env n.chain) (hc' : Chain.Visited env c')
    (hpool : MemPool.Reachable env n.pool)
    (hentry : n.chain.db.getEntryByHash entry.hash = some entry)
    (hblock : n.chain.db.getBlock entry.hash = some block)
    (hprev : entry.prevBlock = n.chain.tip.hash)
    (hconnect : n.chain.connect env block entry n.chain.tip = .ok (c', .ok entry))
    (hadd : n.pool.handleConnect env block = .ok pool') :
    Connected env n entry block c' pool' := by
  have inv := hc.inv law
  obtain ⟨hsame, htip⟩ := Chain.connect_sameStore inv hentry hblock hprev hconnect
  obtain ⟨-, -, -, -, -, journal, -, -, happly, -⟩ :=
    Chain.connect_effect inv (hc.undoInv law).unspent hentry hblock hprev hconnect
  have hparent : n.chain.db.getEntryByHash entry.prevBlock = some n.chain.tip := by
    rw [hprev, inv.tip_stored]
  have hentries : ∀ hash e, n.chain.db.getEntryByHash hash = some e →
      c'.db.getEntryByHash hash = some e := fun _ _ he => by rw [hsame.entries, he]
  obtain ⟨pool₁, hok, hremoval⟩ := addBlock_removal hid hpool block.txdata
  obtain rfl := Except.ok.inj (hok.symm.trans hadd)
  exact ⟨⟨inv, hc'.inv law, hc.skips law, hc'.skips law, hc'.timely law, hentries,
    htip ▸ .single (hentries _ _ hparent)⟩, htip, hentry, inv.tree.height_eq hentry hparent,
    ⟨journal, happly⟩, (hc.origins law).coins, hpool.inv, hremoval⟩

section Connected

variable {t : Txid} {e p : MemPoolEntry} {input : TxIn} {output : TxOut} {stored : CoinEntry}

/-- The block spends nothing that the pool still spends. -/
theorem Connected.notMem_prevouts (h : Connected env n entry block c' pool')
    (ht : pool'.transactions.lookup t = some e) (hinput : input ∈ e.tx.input) :
    ∀ tx ∈ block.txdata, input.previousOutput ∉ tx.prevouts := fun tx htx hmem =>
  h.removal.conflicts ht tx htx _ hmem (List.mem_map_of_mem hinput)

/-- An input that stands on an older coin still does, or on the one the block created again. -/
theorem Connected.of_chain (law : env.Lawful) (hid : TxidFaithful env)
    (h : Connected env n entry block c' pool') (hharmless : HarmlessConnect env n entry block)
    (ht : pool'.transactions.lookup t = some e) (hinput : input ∈ e.tx.input)
    (hparent : n.pool.transactions.lookup input.previousOutput.txid = none)
    (hstored : n.chain.db.db.coin.lookup input.previousOutput = some stored)
    (hspend : n.chain.MaySpend n.chain.tip e.tx input stored.reload) :
    ∃ coin, pool'.backing c' input.previousOutput = some coin ∧ coin.output = stored.output
      ∧ c'.MaySpend c'.tip e.tx input coin := by
  have hparent' : pool'.transactions.lookup input.previousOutput.txid = none := by
    by_contra hsome
    obtain ⟨p, hp⟩ := Option.ne_none_iff_exists'.1 hsome
    cases hparent.symm.trans (h.removal.sub.nodes hp)
  obtain ⟨journal, happly⟩ := h.coins
  rw [backing_of_none hparent', ChainDB.readCoin]
  rcases lookup_applyAll_block happly (h.notMem_prevouts ht hinput) with
    ⟨tx, htx, output, htxid, houtput, hnew⟩ | ⟨hkept, -⟩
  · obtain ⟨maker, hmaker, hmade⟩ := h.made _ _ hstored
    rw [(hid maker tx (hmaker.trans htxid.symm)).2, houtput] at hmade
    have hnot : ¬ InBlock env block.txdata t := fun hin => by
      rw [h.removal.inBlock hin] at ht
      cases ht
    obtain ⟨hcoinbase, hlock⟩ := hharmless t e (h.removal.sub.nodes ht) hnot
      (h.removal.conflicts ht) input hinput (Finmap.lookup_eq_none.1 hparent) tx htx htxid
    refine ⟨⟨tx.version, some entry.height, tx.isCoinBase, output, false⟩, by rw [hnew]; rfl,
      Option.some.inj hmade, fun hcb => ?_, ?_⟩
    · simp [hcoinbase] at hcb
    · rw [h.tip]
      exact hlock.imp_right (Chain.Unlocked.mono law h.above.inv h.above.inv' h.above.skips
        h.above.skips' h.above.entries h.stored)
  · exact ⟨stored.reload, by rw [hkept, hstored]; rfl, rfl, h.above.maySpend law hspend⟩

/-- When the parent is gone and its spender stays, the block has confirmed the parent. -/
theorem Connected.inBlock (h : Connected env n entry block c' pool')
    (ht : pool'.transactions.lookup t = some e) (hinput : input ∈ e.tx.input)
    (hparent : n.pool.transactions.lookup input.previousOutput.txid = some p)
    (houtput : p.tx.output[input.previousOutput.vout]? = some output)
    (hgone : pool'.transactions.lookup input.previousOutput.txid = none) :
    InBlock env block.txdata input.previousOutput.txid := by
  by_contra hnot
  have hvout : input.previousOutput.vout < p.tx.output.length :=
    (List.getElem?_eq_some_iff.1 houtput).1
  have hspends : n.pool.Spends env input.previousOutput.txid t :=
    ⟨p, e, hparent, h.removal.sub.nodes ht, input.previousOutput,
      Transaction.mem_outpoints.2 ⟨(h.inv.key hparent).symm, hvout⟩, List.mem_map_of_mem hinput⟩
  rw [h.removal.children hspends hgone hnot] at ht
  cases ht

/-- An input that stands on an output of the pool still does, or on the coin of its transaction. -/
theorem Connected.of_pool (law : env.Lawful) (hid : TxidFaithful env)
    (h : Connected env n entry block c' pool') (ht : pool'.transactions.lookup t = some e)
    (hinput : input ∈ e.tx.input)
    (hparent : n.pool.transactions.lookup input.previousOutput.txid = some p)
    (houtput : p.tx.output[input.previousOutput.vout]? = some output)
    (hscript : env.isProvablyUnspendable output.scriptPubkey = false)
    (hspend : n.chain.MaySpend n.chain.tip e.tx input (pooledCoin p output)) :
    ∃ coin, pool'.backing c' input.previousOutput = some coin ∧ coin.output = output
      ∧ c'.MaySpend c'.tip e.tx input coin := by
  cases hparent' : pool'.transactions.lookup input.previousOutput.txid with
  | some p' =>
    obtain rfl := Option.some.inj (hparent.symm.trans (h.removal.sub.nodes hparent'))
    exact ⟨pooledCoin p output, by rw [backing_of_lookup hparent', houtput]; rfl, rfl,
      h.above.maySpend law hspend⟩
  | none =>
    have hsame {tx : Transaction} (htxid : env.txid tx = input.previousOutput.txid) :
        tx.prevouts = p.tx.prevouts ∧ tx.output = p.tx.output :=
      hid tx p.tx (htxid.trans (h.inv.key hparent).symm)
    obtain ⟨journal, happly⟩ := h.coins
    rw [backing_of_none hparent', ChainDB.readCoin]
    rcases lookup_applyAll_block happly (h.notMem_prevouts ht hinput) with
      ⟨tx, -, output', htxid, houtput', hnew⟩ | ⟨-, hnone⟩
    · obtain ⟨hprevouts, houtputs⟩ := hsame htxid
      rw [houtputs, houtput] at houtput'
      obtain rfl := Option.some.inj houtput'
      have hcoinbase : tx.isCoinBase = false :=
        (Transaction.isCoinBase_eq hprevouts).trans (h.inv.not_coinbase hparent)
      refine ⟨⟨tx.version, some entry.height, tx.isCoinBase, output, false⟩, by rw [hnew]; rfl, rfl,
        fun hcb => ?_, ?_⟩
      · simp [hcoinbase] at hcb
      · exact hspend.unlocked.imp_right (h.above.unlocked law (.inl h.height))
    · obtain ⟨b, hb, hbid⟩ := List.mem_map.1 (h.inBlock ht hinput hparent houtput hparent')
      have hunspendable := hnone b hb output hbid ((hsame hbid).2 ▸ houtput)
      rw [hunspendable] at hscript
      cases hscript

theorem Resting.connect (law : env.Lawful) (hid : TxidFaithful env) (h : Resting env n)
    (hharmless : HarmlessConnect env n entry block)
    (hconnected : Connected env n entry block c' pool') : Resting env ⟨c', pool'⟩ := by
  intro t e ht
  refine (h t e (hconnected.removal.sub.nodes ht)).mono
    fun input hinput coin hcoin hscript hspend => ?_
  cases hparent : n.pool.transactions.lookup input.previousOutput.txid with
  | none =>
    rw [backing_of_none hparent] at hcoin
    obtain ⟨stored, hstored, rfl⟩ := Option.map_eq_some_iff.1 hcoin
    obtain ⟨coin, hbacking, houtput, hspend'⟩ :=
      hconnected.of_chain law hid hharmless ht hinput hparent hstored hspend
    exact ⟨coin, hbacking, houtput, hspend'⟩
  | some p =>
    rw [backing_of_lookup hparent] at hcoin
    obtain ⟨output, houtput, rfl⟩ := Option.map_eq_some_iff.1 hcoin
    exact hconnected.of_pool law hid ht hinput hparent houtput hscript hspend

end Connected

/-- The transaction of the block that has the id passes the checks of `add_tx` at its turn. -/
def TakenBack (env : Env) (n : Node) (c' : Chain) (now : Nat) (block : Block) (t : Txid) : Prop :=
  ∃ tx turn, env.txid tx = t ∧ Turn env c' now n.pool block.txdata tx turn
    ∧ turn.Accepts env c' now tx

/-- What the pool spends of the block at the tip and of the pool itself, it still has without the
block, with the relative locks over; and what it spends of older blocks is deep enough. -/
def HarmlessDisconnect (env : Env) (n : Node) (c' : Chain) (now : Nat) (block : Block) : Prop :=
  ∀ t e, n.pool.transactions.lookup t = some e → ∀ input ∈ e.tx.input,
    ∀ prev, n.chain.db.getEntryByHash n.chain.tip.prevBlock = some prev →
    (input.previousOutput.txid ∈ n.pool.transactions
        ∨ InBlock env block.txdata input.previousOutput.txid →
      (input.previousOutput.txid ∈ n.pool.transactions
        ∨ TakenBack env n c' now block input.previousOutput.txid)
      ∧ (e.tx.version < 2 ∨ n.chain.Unlocked prev (prev.height + 1) input.sequence))
    ∧ (input.previousOutput.txid ∉ n.pool.transactions →
      ¬ InBlock env block.txdata input.previousOutput.txid →
      ∀ coin, n.chain.db.readCoin input.previousOutput = some coin →
        n.chain.MaySpend prev e.tx input coin)

/-- A coin that the block at the tip has nothing to do with stays when the block goes. -/
theorem lookup_disconnect (law : env.Lawful) (hc : Chain.Visited env n.chain)
    (hblock : n.chain.db.getBlock n.chain.tip.hash = some block)
    (hdisc : n.chain.disconnect env n.chain.tip = .ok c') {o : OutPoint} {coin : CoinEntry}
    (hcoin : n.chain.db.db.coin.lookup o = some coin) (hnot : ¬ InBlock env block.txdata o.txid) :
    c'.db.db.coin.lookup o = some coin := by
  have inv := hc.inv law
  obtain ⟨-, hprev⟩ := Chain.disconnect_sameStore inv hdisc
  have hgen := inv.tree.isGenesis_eq_false inv.tip_stored hprev
  obtain ⟨b, _, stored, view, hb, -, -, -, heffective, hc'⟩ :=
    (hc.undoInv law).disconnected inv hdisc
  obtain rfl := Option.some.inj (hblock.symm.trans hb)
  have hcoins : c'.db.db.coin = _ := (congrArg (fun c => c.db.db.coin) hc').trans heffective
  have hcreated : ∀ tx ∈ block.ledgerTxs env n.chain.tip.height, o ∉ tx.creates.map Prod.fst := by
    intro ltx hltx hmem
    obtain ⟨tx, htx, rfl⟩ := List.mem_map.1 hltx
    exact hnot (List.mem_map.2 ⟨tx, htx, (created_txid hmem).1.symm⟩)
  rw [hcoins, Ledger.lookup_revertAll (hc.notMem_spends law hgen hblock
    (Finmap.mem_of_lookup_eq_some hcoin) hcreated) hcreated, hcoin]

/-- What stood on the pool or on the block stands on the pool, when the block's transaction is
taken back. -/
theorem exists_parent (hid : TxidFaithful env) (hmade : MadeCoins env n.chain.db.db.coin)
    (hpool' : pool'.Inv env) (htaken : Taken env c' n.pool pool')
    (hremove : n.pool.handleDisconnect env c' now block = .ok pool') {t : Txid}
    (ht : t ∈ n.pool.transactions) {o : OutPoint} {coin : CoinEntry}
    (hin : o.txid ∈ n.pool.transactions ∨ TakenBack env n c' now block o.txid)
    (hcoin : n.pool.backing n.chain o = some coin) :
    ∃ p, pool'.transactions.lookup o.txid = some p
      ∧ p.tx.output[o.vout]? = some coin.output := by
  cases hlookup : n.pool.transactions.lookup o.txid with
  | some p =>
    rw [backing_of_lookup hlookup] at hcoin
    obtain ⟨output, houtput, rfl⟩ := Option.map_eq_some_iff.1 hcoin
    exact ⟨p, htaken.kept hlookup, houtput⟩
  | none =>
    obtain ⟨tx, turn, htxid, hturn, haccepts⟩ := hin.resolve_left (Finmap.lookup_eq_none.1 hlookup)
    rw [handleDisconnect, removeBlock, if_neg fun hempty => isEmpty_iff.1 hempty t ht] at hremove
    obtain ⟨p, hp⟩ := Finmap.mem_iff.1 (mem_of_turn hremove hturn haccepts)
    rw [htxid] at hp
    rw [backing_of_none hlookup] at hcoin
    obtain ⟨stored, hstored, rfl⟩ := Option.map_eq_some_iff.1 hcoin
    obtain ⟨maker, hmaker, houtput⟩ := hmade _ _ hstored
    rw [(hid maker p.tx (hmaker.trans (hpool'.key hp).symm)).2] at houtput
    exact ⟨p, hp, houtput⟩

theorem Resting.disconnect (law : env.Lawful) (hid : TxidFaithful env)
    (hscripts : UnspendableFails env) (h : Resting env n) (hc : Chain.Visited env n.chain)
    (hc' : Chain.Visited env c') (hpool : MemPool.Reachable env n.pool)
    (hblock : n.chain.db.getBlock n.chain.tip.hash = some block)
    (hdisc : n.chain.disconnect env n.chain.tip = .ok c')
    (hharmless : HarmlessDisconnect env n c' now block)
    (hremove : n.pool.handleDisconnect env c' now block = .ok pool') :
    Resting env ⟨c', pool'⟩ := by
  have inv := hc.inv law
  have inv' := hc'.inv law
  obtain ⟨hsame, hprev⟩ := Chain.disconnect_sameStore inv hdisc
  have hpool' : pool'.Inv env :=
    (@MemPool.Reachable.step env _ _ (.removeBlock c' now block.txdata) hpool hremove).inv
  have htaken := taken_of_takes hid hscripts inv' (hc'.origins law).coins
    (removeBlock_takes hremove)
  have hspendable {tx : Transaction} {input : TxIn} {coin : CoinEntry}
      (hspend : n.chain.MaySpend c'.tip tx input coin) : c'.MaySpend c'.tip tx input coin :=
    hspend.mono law inv inv' (hc.skips law) (hc'.skips law)
      (fun _ _ he => by rw [hsame.entries, he]) (inv.tree.self hprev)
  intro t e ht
  rcases htaken.new ht with hold | ⟨hrests, -⟩
  swap
  · exact hrests
  refine (h t e hold).mono fun input hinput coin hcoin _ _ => ?_
  obtain ⟨hpooled, holder⟩ := hharmless t e hold input hinput _ hprev
  by_cases hcase : input.previousOutput.txid ∈ n.pool.transactions
      ∨ InBlock env block.txdata input.previousOutput.txid
  · -- the input stands on a transaction of the pool now
    obtain ⟨hin, hlock⟩ := hpooled hcase
    obtain ⟨p, hp, houtput⟩ := exists_parent hid (hc.origins law).coins hpool' htaken hremove
      (Finmap.mem_of_lookup_eq_some hold) hin hcoin
    refine ⟨pooledCoin p coin.output, by rw [backing_of_lookup hp, houtput]; rfl, rfl,
      hspendable ⟨fun hcoinbase => ?_, hlock⟩⟩
    simp [pooledCoin, hpool'.not_coinbase hp] at hcoinbase
  · -- the input stands on a coin of an older block
    obtain ⟨hnot, hblock'⟩ := not_or.1 hcase
    have hlookup : n.pool.transactions.lookup input.previousOutput.txid = none :=
      Finmap.lookup_eq_none.2 hnot
    rw [backing_of_none hlookup] at hcoin
    obtain ⟨stored, hstored, hreload⟩ := Option.map_eq_some_iff.1 hcoin
    have hkept := lookup_disconnect law hc hblock hdisc hstored hblock'
    have hlookup' : pool'.transactions.lookup input.previousOutput.txid = none := by
      by_contra hsome
      obtain ⟨p, hp⟩ := Option.ne_none_iff_exists'.1 hsome
      rcases htaken.new hp with hp₀ | ⟨-, hnone⟩
      · cases hlookup.symm.trans hp₀
      · exact hnone _ rfl (Finmap.mem_of_lookup_eq_some hkept)
    refine ⟨coin, ?_, rfl, hspendable (holder hnot hblock' coin hcoin)⟩
    rw [backing_of_none hlookup', ChainDB.readCoin, hkept, ← hreload]
    rfl

/-! ## Runs -/

/-- A step of the node that takes no coin from under the pool. -/
inductive HarmlessStep (env : Env) : Node → Node → Prop where
  | quiet {n : Node} {c : Chain} :
      Chain.Move env n.chain c → c.notified = n.chain.notified → HarmlessStep env n ⟨c, n.pool⟩
  | connect {n : Node} {c : Chain} {s : Snapshot} {entry : ChainEntry} {block : Block}
      {view : CoinView} {pool : MemPool} :
      Chain.Move env n.chain c →
      c.notified = n.chain.notified ++ [.connect s entry block view] →
      n.pool.handleConnect env block = .ok pool → HarmlessConnect env n entry block →
      HarmlessStep env n ⟨c, pool⟩
  | disconnect {n : Node} {c : Chain} {s : Snapshot} {entry : ChainEntry} {block : Block}
      {view : CoinView} {pool : MemPool} {now : Nat} :
      Chain.Move env n.chain c →
      c.notified = n.chain.notified ++ [.disconnect s entry block view] →
      n.pool.handleDisconnect env c now block = .ok pool → HarmlessDisconnect env n c now block →
      HarmlessStep env n ⟨c, pool⟩
  | addTx {n : Node} {now : Nat} {tx : Transaction} {pool : MemPool}
      {result : Except MempoolError Unit} :
      n.pool.addTx env n.chain now tx = .ok (pool, result) → HarmlessStep env n ⟨n.chain, pool⟩

theorem HarmlessStep.step (h : HarmlessStep env n n') : Step env n n' := by
  cases h with
  | quiet hmove hlog => exact .quiet hmove hlog
  | connect hmove hlog hpool _ => exact .connect hmove hlog hpool
  | disconnect hmove hlog hpool _ => exact .disconnect hmove hlog hpool
  | addTx hadd => exact .addTx hadd

/-- The states that harmless steps reach from a fresh database and an empty pool. -/
def HarmlesslyVisited (env : Env) (n : Node) : Prop :=
  ∃ c₀, Chain.new env = .ok c₀ ∧ ReflTransGen (HarmlessStep env) ⟨c₀, .new⟩ n

theorem HarmlesslyVisited.visited (h : HarmlesslyVisited env n) : Visited env n := by
  obtain ⟨c₀, hnew, hrun⟩ := h
  exact ⟨c₀, hnew, ReflTransGen.mono (fun _ _ hstep => hstep.step) _ _ hrun⟩

theorem Resting.step (law : env.Lawful) (hid : TxidFaithful env) (hscripts : UnspendableFails env)
    (h : Resting env n) (hn : Visited env n) (hstep : HarmlessStep env n n') :
    Resting env n' := by
  have hn' : Visited env n' := by
    obtain ⟨c₀, hnew, hrun⟩ := hn
    exact ⟨c₀, hnew, hrun.tail hstep.step⟩
  cases hstep with
  | quiet hmove hlog => exact h.quiet law hn.chain hn'.chain hmove hlog
  | connect hmove hlog hpool hharmless =>
    obtain ⟨hentry, hblock, hprev, hconnect⟩ := hmove.of_connect (hn.chain.inv law) hlog
    exact h.connect law hid hharmless
      (connected_of_connect law hid hn.chain hn'.chain hn.pool hentry hblock hprev hconnect hpool)
  | disconnect hmove hlog hpool hharmless =>
    obtain ⟨hblock, hdisc⟩ := hmove.of_disconnect (hn.chain.inv law) hlog
    exact h.disconnect law hid hscripts hn.chain hn'.chain hn.pool hblock hdisc hharmless hpool
  | addTx hadd =>
    have inv := hn.chain.inv law
    have hmade := (hn.chain.origins law).coins
    rcases addTx_eq_ok hadd with ⟨-, rfl⟩ | ⟨entry, view, haccepted, rfl⟩
    · exact h
    · have htaken := taken_of_takes hid hscripts inv hmade
        (.single ⟨_, entry, view, haccepted, rfl⟩)
      intro t e ht
      rcases htaken.new ht with hold | ⟨hrests, -⟩
      · exact (h t e hold).mono fun input _ coin hcoin _ hspend =>
          ⟨coin, haccepted.backing_insert hid hmade hcoin, rfl, hspend⟩
      · exact hrests

/-- A run of the chain is a harmless one beside an empty pool. -/
theorem harmlesslyVisited_of_chain (law : env.Lawful) {c : Chain}
    (h : Chain.Visited env c) : HarmlesslyVisited env ⟨c, .new⟩ := by
  obtain ⟨c₀, hnew, hrun⟩ := h
  refine ⟨c₀, hnew, ?_⟩
  have hnone {t : Txid} {e : MemPoolEntry} : MemPool.new.transactions.lookup t ≠ some e := by
    intro h
    cases h
  induction hrun with
  | refl => exact .refl
  | tail hrun hmove ih =>
    refine ih.tail ?_
    rcases hmove.notified_cases (Chain.Visited.inv law ⟨c₀, hnew, hrun⟩) with
      hsame | ⟨_, _, _, _, -, -, -, -, hlog⟩ | ⟨_, _, _, -, -, hlog⟩
    · exact .quiet hmove hsame.notified
    · exact .connect hmove hlog (addBlock_new _ _) fun _ _ ht => absurd ht hnone
    · exact .disconnect hmove hlog (removeBlock_new _ _ 0 _) fun _ _ ht => absurd ht hnone

end Node

end BitcoinNode
