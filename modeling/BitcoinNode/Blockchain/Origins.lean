import BitcoinNode.Blockchain.Notified

/-!
# Where coins come from

Every coin that the node stores, holds in a view or keeps in an undo record is that of an output
of a transaction with the id of its outpoint. A block that is disconnected gets its coins from its
undo record, input by input, so its view has the outputs that it was connected with.
-/

namespace BitcoinNode

variable {env : Env}

/-- The coin is of an output of a transaction with the id of the outpoint. -/
def CoinEntry.Made (env : Env) (o : OutPoint) (coin : CoinEntry) : Prop :=
  ∃ tx, env.txid tx = o.txid ∧ tx.output[o.vout]? = some coin.output

/-- Every coin of the column is of an output of a transaction. -/
def MadeCoins (env : Env) (coins : FMap OutPoint CoinEntry) : Prop :=
  ∀ o coin, coins.lookup o = some coin → coin.Made env o

namespace CoinView

/-- Every coin of the view is of an output of a transaction. -/
def Made (env : Env) (view : CoinView) : Prop :=
  ∀ o coin, view.map.lookup o = some coin → coin.Made env o

variable {coins : FMap OutPoint CoinEntry} {view view' : CoinView} {o : OutPoint}
  {coin : CoinEntry} {undo : UndoCoins}

theorem made_empty : empty.Made env := fun _ _ h => by simp [empty] at h

theorem Made.insert (h : view.Made env) (hcoin : coin.Made env o) :
    Made env ⟨view.map.insert o coin, undo⟩ := by
  intro o' coin' h'
  rcases eq_or_ne o' o with rfl | hne
  · rw [AList.lookup_insert] at h'
    exact Option.some.inj h' ▸ hcoin
  · rw [AList.lookup_insert_ne hne] at h'
    exact h o' coin' h'

theorem Made.indexOutputs {tx : Transaction} {height : Nat} {spent : Bool} {outputs : List TxOut}
    {index : Nat} (h : view.Made env) (houtputs : ∀ i, outputs[i]? = tx.output[index + i]?) :
    (indexOutputs env tx height spent outputs index view).Made env := by
  induction outputs generalizing index view with
  | nil => exact h
  | cons output outputs ih =>
    have hrest : ∀ i, outputs[i]? = tx.output[index + 1 + i]? := fun i => by
      have := houtputs (i + 1)
      rwa [List.getElem?_cons_succ, ← Nat.add_assoc, Nat.add_right_comm] at this
    rw [CoinView.indexOutputs]
    split_ifs
    · exact ih h hrest
    · exact ih (h.insert ⟨tx, rfl, (houtputs 0).symm⟩) hrest

theorem Made.indexTx {tx : Transaction} {height : Nat} {spent : Bool} (h : view.Made env) :
    (view.indexTx env tx height spent).Made env :=
  h.indexOutputs fun i => by rw [Nat.zero_add]

theorem Made.readCoin (h : view.Made env) (hcoins : MadeCoins env coins) :
    (view.readCoin coins o).1.Made env
      ∧ ∀ coin, (view.readCoin coins o).2 = some coin → coin.Made env o := by
  unfold CoinView.readCoin
  split
  · rename_i coin hcoin
    exact ⟨h, fun _ heq => Option.some.inj heq ▸ h o coin hcoin⟩
  · split
    · rename_i coin hcoin
      obtain ⟨stored, hstored, rfl⟩ := Option.map_eq_some_iff.1 hcoin
      have hmade : stored.reload.Made env o := hcoins o stored hstored
      exact ⟨h.insert hmade, fun _ heq => Option.some.inj heq ▸ hmade⟩
    · exact ⟨h, by simp⟩

theorem undo_readCoin : (view.readCoin coins o).1.undo = view.undo := by
  unfold CoinView.readCoin
  split
  · rfl
  · split <;> rfl

/-- Spending inputs puts the coin of each into the record. -/
theorem Made.spendInputs (hcoins : MadeCoins env coins) {inputs : List TxIn}
    (h : view.Made env) (hspend : view.spendInputs coins inputs = .ok view') :
    view'.Made env ∧ ∃ items, view'.undo.items = view.undo.items ++ items
      ∧ List.Forall₂ (CoinEntry.Made env) (inputs.map TxIn.previousOutput) items := by
  induction inputs generalizing view with
  | nil =>
    cases hspend
    exact ⟨h, [], by simp⟩
  | cons input inputs ih =>
    unfold CoinView.spendInputs at hspend
    split at hspend
    · rename_i view₁ coin hread
      obtain ⟨hview₁, hcoin⟩ := @Made.readCoin env coins view input.previousOutput h hcoins
      have hundo := @undo_readCoin coins view input.previousOutput
      rw [hread] at hview₁ hcoin hundo
      split at hspend
      · cases hspend
      have hmade : ({ coin with spent := true } : CoinEntry).Made env input.previousOutput :=
        hcoin coin rfl
      obtain ⟨hview', items, hitems, haligned⟩ := ih (hview₁.insert hmade) hspend
      refine ⟨hview', _ :: items, ?_, .cons hmade haligned⟩
      rw [hitems, ← hundo]
      simp [UndoCoins.push]
    · cases hspend

theorem Made.effective (h : view.Made env) (hcoins : MadeCoins env coins) :
    MadeCoins env (view.effective coins) := by
  intro o coin hcoin
  rw [CoinView.effective, View.lookup_flush] at hcoin
  split at hcoin
  · rename_i found hfound
    split_ifs at hcoin
    exact Option.some.inj hcoin ▸ h o found hfound
  · exact hcoins o coin hcoin

end CoinView

/-- What a block spends, in order: its coinbase spends nothing. -/
def Block.spends (block : Block) : List OutPoint :=
  block.txdata.flatMap fun tx => if tx.isCoinBase then [] else tx.input.map TxIn.previousOutput

/-- The view of a block, and the record of its coins in the order in which it spends them. -/
theorem blockView_made {coins : FMap OutPoint CoinEntry} (hcoins : MadeCoins env coins)
    {height : Nat} {txs : List Transaction} {view view' : CoinView} (h : view.Made env)
    (hview : blockView env coins height txs view = .ok view') :
    view'.Made env ∧ ∃ items, view'.undo.items = view.undo.items ++ items
      ∧ List.Forall₂ (CoinEntry.Made env) (txs.flatMap fun tx =>
        if tx.isCoinBase then [] else tx.input.map TxIn.previousOutput) items := by
  induction txs generalizing view with
  | nil =>
    cases hview
    exact ⟨h, [], by simp⟩
  | cons tx txs ih =>
    rw [blockView] at hview
    split at hview
    · rename_i hcoinbase
      obtain ⟨hmade, items, hitems, haligned⟩ := ih h.indexTx hview
      refine ⟨hmade, items, ?_, by simpa [hcoinbase] using haligned⟩
      rw [hitems]
      exact congrArg (·.items ++ items) (CoinView.undo_addTx view)
    · rename_i hcoinbase
      obtain ⟨view₁, hspend, hview⟩ := bind_eq_ok.1 hview
      obtain ⟨hview₁, spent, hspent, hfirst⟩ := h.spendInputs hcoins hspend
      obtain ⟨hmade, items, hitems, haligned⟩ := ih hview₁.indexTx hview
      refine ⟨hmade, spent ++ items, ?_, ?_⟩
      · rw [hitems, ← List.append_assoc, ← hspent]
        exact congrArg (·.items ++ items) (CoinView.undo_addTx view₁)
      · rw [List.flatMap_cons, if_neg hcoinbase]
        exact List.rel_append hfirst haligned

/-! ## Disconnecting -/

namespace ChainDB

variable {view view' : CoinView} {undo undo' : UndoCoins} {pending pending' : ChainState}

/-- Each input gets the coin that its place in the record has for it. -/
theorem restoreCoins_made {inputs : List TxIn} {front items : List CoinEntry}
    (h : view.Made env)
    (haligned : List.Forall₂ (CoinEntry.Made env) (inputs.map TxIn.previousOutput) items)
    (hrestore : restoreCoins inputs ⟨front ++ items.reverse⟩ view pending
      = .ok (undo', view', pending')) :
    undo'.items = front ∧ view'.Made env ∧ (∀ o ∈ view.map, o ∈ view'.map)
      ∧ ∀ input ∈ inputs, input.previousOutput ∈ view'.map := by
  induction inputs generalizing items view pending with
  | nil =>
    cases haligned
    simp only [restoreCoins] at hrestore
    cases hrestore
    exact ⟨by simp, h, fun _ ho => ho, by simp⟩
  | cons input inputs ih =>
    cases haligned with
    | @cons _ coin _ items hcoin haligned =>
    have happly : UndoCoins.apply ⟨front ++ (coin :: items).reverse⟩ view input.previousOutput
        = .ok (⟨front ++ items.reverse⟩,
          { view with map := view.map.insert input.previousOutput coin }) := by
      simp [UndoCoins.apply, ← List.append_assoc, List.dropLast_append_of_ne_nil]
    rw [restoreCoins, happly, bind_of_ok rfl] at hrestore
    dsimp only at hrestore
    split at hrestore
    · cases hrestore
    obtain ⟨hundo, hmade, hkept, hinputs⟩ := ih (h.insert hcoin) haligned hrestore
    refine ⟨hundo, hmade, fun o ho => hkept o ((AList.mem_insert _).2 (.inr ho)), ?_⟩
    exact List.forall_mem_cons.2 ⟨hkept _ ((AList.mem_insert _).2 (.inl rfl)), hinputs⟩

/-- What a numbered transaction has coins in the undo record for. -/
def spendsAt (tx : Transaction × Nat) : List OutPoint :=
  if tx.2 > 0 then tx.1.input.map TxIn.previousOutput else []

theorem disconnectTransaction_made {height : Nat} {tx : Transaction × Nat}
    {front items : List CoinEntry} (h : view.Made env)
    (haligned : List.Forall₂ (CoinEntry.Made env) (spendsAt tx) items)
    (hdisc : disconnectTransactions env height [tx] ⟨front ++ items⟩ view pending
      = .ok (undo', view', pending')) :
    undo'.items = front ∧ view'.Made env ∧ (∀ o ∈ view.map, o ∈ view'.map)
      ∧ ∀ o ∈ spendsAt tx, o ∈ view'.map := by
  obtain ⟨tx, i⟩ := tx
  rw [disconnectTransactions] at hdisc
  by_cases hi : i > 0
  · rw [spendsAt, if_pos hi] at haligned ⊢
    rw [if_pos hi, bind_eq_ok] at hdisc
    obtain ⟨⟨undo₁, view₁, pending₁⟩, hrestore, heq⟩ := hdisc
    cases heq
    have hreverse : List.Forall₂ (CoinEntry.Made env) (tx.input.reverse.map TxIn.previousOutput)
        items.reverse := by
      rw [List.map_reverse]
      exact List.rel_reverse haligned
    rw [← List.reverse_reverse items] at hrestore
    obtain ⟨hundo, hmade, hkept, hinputs⟩ := restoreCoins_made h hreverse hrestore
    refine ⟨hundo, hmade.indexTx, fun o ho => CoinView.mem_indexOutputs (hkept o ho), ?_⟩
    intro o ho
    obtain ⟨input, hinput, rfl⟩ := List.mem_map.1 ho
    exact CoinView.mem_indexOutputs (hinputs input (List.mem_reverse.2 hinput))
  · rw [spendsAt, if_neg hi] at haligned ⊢
    rw [if_neg hi, pure_bind] at hdisc
    cases hdisc
    cases haligned
    exact ⟨by simp, h.indexTx, fun o ho => CoinView.mem_indexOutputs ho, by simp⟩

/-- The transactions of a block get back the coins of the record that they put there. -/
theorem disconnectTransactions_made {height : Nat} {txs : List (Transaction × Nat)}
    {front items : List CoinEntry} (h : view.Made env)
    (haligned : List.Forall₂ (CoinEntry.Made env) (txs.flatMap spendsAt) items)
    (hdisc : disconnectTransactions env height txs.reverse ⟨front ++ items⟩ view pending
      = .ok (undo', view', pending')) :
    undo'.items = front ∧ view'.Made env ∧ (∀ o ∈ view.map, o ∈ view'.map)
      ∧ ∀ o ∈ txs.flatMap spendsAt, o ∈ view'.map := by
  induction txs generalizing front items undo' view' pending' with
  | nil =>
    cases haligned
    cases hdisc
    exact ⟨by simp, h, fun _ ho => ho, by simp⟩
  | cons tx txs ih =>
    rw [List.flatMap_cons] at haligned
    have hspent := List.forall₂_take (spendsAt tx).length haligned
    have hitems := List.forall₂_drop (spendsAt tx).length haligned
    rw [List.take_left] at hspent
    rw [List.drop_left] at hitems
    rw [← List.take_append_drop (spendsAt tx).length items] at hdisc
    rw [List.reverse_cons, disconnectTransactions_append, bind_eq_ok] at hdisc
    obtain ⟨⟨⟨rest⟩, view₁, pending₁⟩, htxs, hdisc⟩ := hdisc
    rw [← List.append_assoc] at htxs
    obtain ⟨rfl, hmade₁, hkept₁, hspends₁⟩ := ih hitems htxs
    obtain ⟨hundo, hmade, hkept, hspends⟩ := disconnectTransaction_made hmade₁ hspent hdisc
    refine ⟨hundo, hmade, fun o ho => hkept o (hkept₁ o ho), fun o ho => ?_⟩
    rcases List.mem_append.1 ho with ho | ho
    · exact hspends o ho
    · exact hkept o (hspends₁ o ho)

end ChainDB

theorem Block.WellFormed.spends_eq {block : Block} (wf : block.WellFormed) :
    block.txdata.zipIdx.flatMap ChainDB.spendsAt = block.spends := by
  have hrest : ∀ (txs : List Transaction) (i : Nat), 0 < i → (∀ tx ∈ txs, tx.isCoinBase = false) →
      (txs.zipIdx i).flatMap ChainDB.spendsAt = txs.flatMap fun tx =>
        if tx.isCoinBase then [] else tx.input.map TxIn.previousOutput := by
    intro txs
    induction txs with
    | nil => simp
    | cons tx txs ih =>
      intro i hi htxs
      obtain ⟨htx, htxs⟩ := List.forall_mem_cons.1 htxs
      simp [ChainDB.spendsAt, hi, htx, ih (i + 1) i.succ_pos htxs]
  obtain ⟨coinbase, txs, hdata, hcoinbase, htxs⟩ := wf.exists_coinbase
  rw [Block.spends, hdata, List.zipIdx_cons, List.flatMap_cons, List.flatMap_cons,
    hrest txs _ Nat.one_pos htxs]
  simp [ChainDB.spendsAt, hcoinbase]

/-! ## Along a run -/

/-- The view of the notification holds a coin for each input, of an output of a transaction. -/
def Notification.Sound (env : Env) : Notification → Prop
  | .connect _ _ block view | .disconnect _ _ block view => view.Covers block ∧ view.Made env

namespace Chain

open Relation

variable {c c' : Chain} {block : Block} {entry : ChainEntry}

/-- Every coin of a chain, of its undo records and of the views it has passed to listeners is of
an output of a transaction. -/
structure Origins (env : Env) (c : Chain) : Prop where
  coins : MadeCoins env c.db.db.coin
  record {hash : BlockHash} {undo : UndoCoins} : c.db.blocks.undos.lookup hash = some undo →
    ∃ block, c.db.getBlock hash = some block
      ∧ List.Forall₂ (CoinEntry.Made env) block.spends undo.items
  notified : ∀ n ∈ c.notified, n.Sound env

theorem Origins.mono (h : c.Origins env) (hcoins : c'.db.db.coin = c.db.db.coin)
    (hundos : c'.db.blocks.undos = c.db.blocks.undos) (hlog : c'.notified = c.notified)
    (hblocks : ∀ hash b, c.db.getBlock hash = some b → c'.db.getBlock hash = some b) :
    c'.Origins env where
  coins := hcoins ▸ h.coins
  record hundo := by
    obtain ⟨b, hb, haligned⟩ := h.record (hundos ▸ hundo)
    exact ⟨b, hblocks _ _ hb, haligned⟩
  notified := hlog ▸ h.notified

theorem Origins.connect (h : c.Origins env) (inv : c.Inv env) (undo : c.UndoInv)
    (hentry : c.db.getEntryByHash entry.hash = some entry)
    (hblock : c.db.getBlock entry.hash = some block) (hprev : entry.prevBlock = c.tip.hash)
    (hconnect : c.connect env block entry c.tip = .ok (c', .ok entry)) : c'.Origins env := by
  have hget := (connect_sameStore inv hentry hblock hprev hconnect).1.blocks
  obtain ⟨cache, view, state, record, blocks, journal, -, hinputs, -, -, -, hwrite, rfl⟩ :=
    connect_effect inv undo.unspent hentry hblock hprev hconnect
  obtain ⟨_, _, htxs, -⟩ := verifyInputs_eq_ok hinputs
  have hview := verifyTransactions_view htxs
  change blockView env c.db.db.coin _ _ _ = _ at hview
  obtain ⟨hmade, items, hitems, haligned⟩ := blockView_made h.coins CoinView.made_empty hview
  have hundos := (ChainDB.writeUndo_eq_ok hwrite).2
  refine ⟨hmade.effective h.coins, ?_, ?_⟩
  · intro hash stored hstored
    rw [hget]
    change blocks.undos.lookup hash = some stored at hstored
    rw [hundos] at hstored
    split_ifs at hstored with hkeep
    · exact h.record hstored
    rcases eq_or_ne hash entry.hash with rfl | hne
    · rw [Finmap.lookup_insert] at hstored
      obtain rfl := Option.some.inj hstored
      exact ⟨block, hblock, hitems ▸ haligned⟩
    · rw [Finmap.lookup_insert_of_ne _ hne] at hstored
      exact h.record hstored
  · intro n hn
    rcases List.mem_append.1 hn with hn | hn
    · exact h.notified n hn
    · obtain rfl := List.mem_singleton.1 hn
      exact ⟨CoinView.covers_of_blockView hview, hmade⟩

theorem Origins.disconnect (h : c.Origins env) (inv : c.Inv env)
    (hdisc : c.disconnect env c.tip = .ok c') : c'.Origins env := by
  obtain ⟨-, hprev⟩ := disconnect_sameStore inv hdisc
  have hgen := inv.tree.isGenesis_eq_false inv.tip_stored hprev
  obtain ⟨block, prev, db, view, hblock, -, hdb, rfl⟩ := disconnect_eq_ok hdisc
  obtain ⟨undo, state, hread, htxs, rfl⟩ := ChainDB.disconnect_eq_ok inv.idle hdb
  obtain ⟨stored, hstored, rfl⟩ := Option.map_eq_some_iff.1 hread
  obtain ⟨b, hb, haligned⟩ := h.record hstored
  cases hblock.symm.trans hb
  have wf := inv.tip_wellFormed hgen hblock
  have hreload : List.Forall₂ (CoinEntry.Made env)
      (block.txdata.zipIdx.flatMap ChainDB.spendsAt) stored.reload.items := by
    rw [wf.spends_eq, UndoCoins.reload, List.forall₂_map_right_iff]
    exact haligned
  obtain ⟨-, hmade, -, hspends⟩ := @ChainDB.disconnectTransactions_made env _ _ _ _ _ _ _ []
    stored.reload.items CoinView.made_empty hreload htxs
  refine ⟨hmade.effective h.coins, h.record, fun n hn => ?_⟩
  rcases List.mem_append.1 hn with hn | hn
  · exact h.notified n hn
  · obtain rfl := List.mem_singleton.1 hn
    refine ⟨fun tx htx hcoinbase input hinput => hspends _ ?_, hmade⟩
    rw [wf.spends_eq]
    refine List.mem_flatMap.2 ⟨tx, htx, ?_⟩
    rw [if_neg (by simp [hcoinbase])]
    exact List.mem_map_of_mem hinput

theorem Origins.move (h : c.Origins env) (inv : c.Inv env) (undo : c.UndoInv)
    (hmove : Move env c c') : c'.Origins env := by
  rcases hmove.sameLedger_or inv with hsame | ⟨_, _, hentry, hblock, hprev, hconnect⟩ | hdisc
  · exact h.mono hsame.coin hsame.undos hsame.notified (hmove.stored inv).2
  · exact h.connect inv undo hentry hblock hprev hconnect
  · exact h.disconnect inv hdisc

theorem Visited.origins (law : env.Lawful) (h : Visited env c) : c.Origins env := by
  obtain ⟨c₀, hnew, hrun⟩ := h
  refine ReflTransGen.invariant_with (Q := fun c => c.Inv env ∧ c.UndoInv)
    (P := fun c => c.Origins env) (fun _ _ hst hs => ⟨hs.1.move law hst, hs.2.move hs.1 hst⟩)
    (fun _ _ hst hs horigins => horigins.move hs.1 hs.2 hst) hrun
    ⟨Inv.new law hnew, UndoInv.new law hnew⟩ ?_
  obtain ⟨mostWork, rfl⟩ := new_eq_ok law hnew
  refine ⟨fun o coin hcoin => ?_, fun {hash undo} hundo => ?_, by simp⟩
  · exact absurd hcoin (by simp [ChainDB.fresh, Operation.apply, Database.insert, Database.empty])
  · exact absurd hundo (by simp [ChainDB.fresh])

end Chain

end BitcoinNode
