import BitcoinNode.Library.Ledger
import BitcoinNode.Primitives.Checks
import BitcoinNode.Blockchain.Moves

/-!
# The view of a block

What `verify_inputs` does to the view and the reward: it spends the inputs of every
transaction but the coinbase, then adds the outputs, transaction by transaction. The undo
record of the view lists one coin for each input spent.
-/

namespace BitcoinNode

/-! ## Inverting input verification -/

/-- A match that passes a result through a change of error type. -/
theorem Chain.ofTransaction_eq_ok {α : Type} {x : Except (Stop TransactionVerificationError) α}
    {a : α} : Chain.ofTransaction x = .ok a ↔ x = .ok a := by
  unfold Chain.ofTransaction
  split <;> simp_all

namespace Chain

variable {env : Env} {c : Chain} {prev : ChainEntry} {state : DeploymentState}

theorem verifySpends_eq_ok {tx : Transaction} {view view' : CoinView} {reward reward' : Nat}
    (h : c.verifySpends prev state tx view reward = .ok (view', reward')) :
    view.spendInputs c.db.db.coin tx.input = .ok view' ∧ ∃ fee,
      tx.checkInputs view' (prev.height + 1) = .ok fee ∧ reward' = reward + fee
        ∧ reward' ≤ MAX_MONEY := by
  simp only [verifySpends, throw_bind] at h
  split at h
  swap
  · cases h
  rename_i view₁ hspend
  simp only [pure_bind, bind_eq_ok] at h
  obtain ⟨fee, hfee, h⟩ := h
  split at h
  swap
  · cases h
  rename_i total hadd
  obtain ⟨-, rfl⟩ := Word.checkedAdd_eq_some.1 hadd
  simp only [ite_throw_eq_ok] at h
  obtain ⟨hmax, h⟩ := h
  obtain ⟨rfl, rfl⟩ : view₁ = view' ∧ reward + fee = reward' := by
    split at h
    · simp only [bind_eq_ok, pure_eq_ok, Prod.mk.injEq] at h
      exact h.choose_spec.2
    · simpa using h
  exact ⟨hspend, fee, hfee, rfl, Nat.le_of_not_lt hmax⟩

/-- One round of the transaction loop. -/
theorem verifyTransactions_cons {tx : Transaction} {txs : List Transaction}
    {view view' : CoinView} {sigops reward reward' : Nat}
    (h : c.verifyTransactions env prev state (tx :: txs) view sigops reward =
      .ok (view', reward')) :
    ∃ view₁ reward₁ sigops₁,
      (tx.isCoinBase = true ∧ view₁ = view ∧ reward₁ = reward
        ∨ tx.isCoinBase = false ∧ c.verifySpends prev state tx view reward = .ok (view₁, reward₁))
      ∧ c.verifyTransactions env prev state txs (view₁.addTx env tx (prev.height + 1)) sigops₁
          reward₁ = .ok (view', reward') := by
  simp only [verifyTransactions, throw_bind] at h
  split at h
  · rename_i hcoinbase
    simp only [pure_bind, ite_throw_eq_ok] at h
    exact ⟨view, reward, _, .inl ⟨hcoinbase, rfl, rfl⟩, h.2⟩
  · rename_i hcoinbase
    simp only [bind_eq_ok, ofTransaction_eq_ok, ite_throw_eq_ok] at h
    obtain ⟨⟨view₁, reward₁⟩, hspends, -, h⟩ := h
    exact ⟨view₁, reward₁, _, .inr ⟨by simpa using hcoinbase, hspends⟩, h⟩

theorem verifyInputs_eq_ok {block : Block} {view : CoinView}
    (h : c.verifyInputs env block prev state = .ok view) :
    ∃ reward claimed,
      c.verifyTransactions env prev state block.txdata CoinView.empty 0 0 = .ok (view, reward)
        ∧ block.getClaimed = .ok claimed
        ∧ claimed ≤ Word.add 64 reward (getBlockSubsidy (prev.height + 1) env.network) := by
  simp only [verifyInputs, throw_bind, bind_eq_ok] at h
  obtain ⟨⟨view₁, reward⟩, htxs, h⟩ := h
  dsimp only at h
  split at h
  · cases h
  rename_i claimed hclaimed
  simp only [ite_throw_eq_ok] at h
  obtain ⟨hle, h⟩ := h
  obtain rfl : view₁ = view := by
    split at h
    · simp only [bind_eq_ok, pure_eq_ok] at h
      exact h.choose_spec.2
    · simpa using h
  exact ⟨reward, claimed, htxs, hclaimed, Nat.le_of_not_lt hle⟩

end Chain

/-! ## Views as ledgers -/

/-- No stored coin is marked spent. -/
def Unspent (coins : FMap OutPoint CoinEntry) : Prop :=
  ∀ o coin, coins.lookup o = some coin → coin.spent = false

/-- The mark a view puts on a coin it spends. -/
def CoinEntry.markSpent (coin : CoinEntry) : CoinEntry := { coin with spent := true }

/-- The coins a transaction adds: its spendable outputs, numbered from `index` on. -/
def createdCoins (env : Env) (tx : Transaction) (height : Nat) :
    List TxOut → Nat → List (OutPoint × CoinEntry)
  | [], _ => []
  | output :: outputs, index =>
    if env.isProvablyUnspendable output.scriptPubkey then
      createdCoins env tx height outputs (index + 1)
    else
      (⟨env.txid tx, index⟩, ⟨tx.version, some height, tx.isCoinBase, output, false⟩) ::
        createdCoins env tx height outputs (index + 1)

/-- What a transaction does to the coins; the first one of a block spends none. -/
def Transaction.ledgerTx (env : Env) (height : Nat) (spends : Bool) (tx : Transaction) :
    Ledger.Tx OutPoint CoinEntry where
  spends := if spends then tx.input.map TxIn.previousOutput else []
  creates := createdCoins env tx height tx.output 0

/-- The view a block is verified with, without the checks. -/
def blockView (env : Env) (coins : FMap OutPoint CoinEntry) (height : Nat) :
    List Transaction → CoinView → Except TransactionVerificationError CoinView
  | [], view => .ok view
  | tx :: txs, view => do
    let view ← if tx.isCoinBase then pure view else view.spendInputs coins tx.input
    blockView env coins height txs (view.addTx env tx height)

namespace CoinView

variable {env : Env} {coins : FMap OutPoint CoinEntry} {tx : Transaction} {height : Nat}

/-- The coins as they will be once the view is saved. -/
def effective (coins : FMap OutPoint CoinEntry) (view : CoinView) : FMap OutPoint CoinEntry :=
  View.flush CoinEntry.spent view.map coins

@[simp] theorem effective_empty : empty.effective coins = coins := rfl

theorem unspent_effective (hcoins : Unspent coins) (view : CoinView) :
    Unspent (view.effective coins) := by
  intro o coin h
  rw [effective, View.lookup_flush] at h
  split at h
  · split_ifs at h with hspent
    rw [← Option.some.inj h]
    simpa using hspent
  · exact hcoins _ _ h

theorem effective_insert (view : CoinView) (undo : UndoCoins) (o : OutPoint) (coin : CoinEntry) :
    effective coins ⟨view.map.insert o coin, undo⟩ =
      View.write CoinEntry.spent (view.effective coins) o coin :=
  View.flush_insert CoinEntry.spent view.map coins o coin

/-- Adding outputs to the view creates their coins. -/
theorem effective_indexOutputs_false (outputs : List TxOut) (index : Nat) (view : CoinView) :
    (indexOutputs env tx height false outputs index view).effective coins =
      Ledger.create (view.effective coins) (createdCoins env tx height outputs index) := by
  induction outputs generalizing index view with
  | nil => rfl
  | cons output outputs ih =>
    simp only [indexOutputs, createdCoins]
    split_ifs with hunspendable
    · exact ih _ _
    · rw [ih, effective_insert]
      rfl

/-- Removing outputs from the view drops their coins. -/
theorem effective_indexOutputs_true (outputs : List TxOut) (index : Nat) (view : CoinView) :
    (indexOutputs env tx height true outputs index view).effective coins =
      Ledger.drop (view.effective coins)
        ((createdCoins env tx height outputs index).map Prod.fst) := by
  induction outputs generalizing index view with
  | nil => rfl
  | cons output outputs ih =>
    simp only [indexOutputs, createdCoins]
    split_ifs with hunspendable
    · exact ih _ _
    · rw [ih, effective_insert]
      rfl

@[simp] theorem undo_indexOutputs (spent : Bool) (outputs : List TxOut) (index : Nat)
    (view : CoinView) :
    (indexOutputs env tx height spent outputs index view).undo = view.undo := by
  induction outputs generalizing index view with
  | nil => rfl
  | cons output outputs ih =>
    simp only [indexOutputs]
    split_ifs <;> exact ih _ _

theorem txid_of_mem_indexOutputs {spent : Bool} {o : OutPoint} {outputs : List TxOut} {index : Nat}
    {view : CoinView} (h : o ∈ (indexOutputs env tx height spent outputs index view).map) :
    o ∈ view.map ∨ o.txid = env.txid tx := by
  induction outputs generalizing index view with
  | nil => exact .inl h
  | cons output outputs ih =>
    rw [indexOutputs] at h
    rcases ih h with hmem | htxid
    · split_ifs at hmem
      · exact .inl hmem
      · rcases (AList.mem_insert _).1 hmem with rfl | hmem
        · exact .inr rfl
        · exact .inl hmem
    · exact .inr htxid

theorem effective_addTx (view : CoinView) :
    (view.addTx env tx height).effective coins =
      Ledger.create (view.effective coins) (createdCoins env tx height tx.output 0) :=
  effective_indexOutputs_false tx.output 0 view

theorem effective_removeTx (view : CoinView) :
    (view.removeTx env tx height).effective coins =
      Ledger.drop (view.effective coins) ((createdCoins env tx height tx.output 0).map Prod.fst) :=
  effective_indexOutputs_true tx.output 0 view

@[simp] theorem undo_addTx (view : CoinView) : (view.addTx env tx height).undo = view.undo :=
  undo_indexOutputs false tx.output 0 view

@[simp] theorem undo_removeTx (view : CoinView) : (view.removeTx env tx height).undo = view.undo :=
  undo_indexOutputs true tx.output 0 view

/-- Reading a coin changes nothing, and finds the coin the saved view would hold, unless it
is spent in the view. -/
theorem readCoin_spec (hcoins : Unspent coins) (view : CoinView) (o : OutPoint) :
    (view.readCoin coins o).1.effective coins = view.effective coins
      ∧ (view.readCoin coins o).1.undo = view.undo
      ∧ (view.effective coins).lookup o =
        match (view.readCoin coins o).2 with
        | some coin => if coin.spent then none else some coin
        | none => none := by
  unfold readCoin
  cases hview : view.map.lookup o with
  | some coin =>
    refine ⟨rfl, rfl, ?_⟩
    rw [effective, View.lookup_flush, hview]
  | none =>
    cases hbase : coins.lookup o with
    | none =>
      refine ⟨rfl, rfl, ?_⟩
      rw [effective, View.lookup_flush, hview]
      exact hbase
    | some coin =>
      have hspent := hcoins o coin hbase
      have hreload := CoinEntry.reload_eq hspent
      refine ⟨?_, rfl, ?_⟩
      · simp only [Option.map_some, hreload]
        exact View.flush_insert_base CoinEntry.spent hview hbase hspent
      · rw [effective, View.lookup_flush, hview]
        simp [hbase, hreload, hspent]

/-- Spending inputs through a view spends them in the saved coins. -/
theorem spendInputs_eq_ok (hcoins : Unspent coins) {inputs : List TxIn} {view view' : CoinView}
    (h : view.spendInputs coins inputs = .ok view') :
    ∃ journal, Ledger.spend (view.effective coins) (inputs.map TxIn.previousOutput)
        = some (view'.effective coins, journal)
      ∧ view'.undo.items = view.undo.items ++ journal.map CoinEntry.markSpent := by
  induction inputs generalizing view with
  | nil =>
    cases h
    exact ⟨[], rfl, by simp⟩
  | cons input inputs ih =>
    obtain ⟨heff, hundo, hlookup⟩ := readCoin_spec hcoins view input.previousOutput
    unfold spendInputs at h
    split at h
    · rename_i view₁ coin hread
      split at h
      · cases h
      rename_i hspent
      rw [hread] at heff hundo hlookup
      simp only [hspent] at hlookup
      obtain ⟨journal, hjournal, hitems⟩ := ih h
      refine ⟨coin :: journal, Ledger.spend_cons_eq_some.2 ⟨coin, journal, hlookup, ?_, rfl⟩, ?_⟩
      · rw [← hjournal, effective_insert, heff]
        rfl
      · rw [hitems, UndoCoins.push, hundo]
        simp [CoinEntry.markSpent]
    · cases h

/-- Inputs that can be spent in the saved coins can be spent through the view. -/
theorem spendInputs_of_spend (hcoins : Unspent coins) {inputs : List TxIn} {view : CoinView}
    {r : FMap OutPoint CoinEntry × List CoinEntry}
    (h : Ledger.spend (view.effective coins) (inputs.map TxIn.previousOutput) = some r) :
    ∃ view', view.spendInputs coins inputs = .ok view' := by
  induction inputs generalizing view r with
  | nil => exact ⟨view, rfl⟩
  | cons input inputs ih =>
    obtain ⟨coin, journal, hcoin, hrest, -⟩ := Ledger.spend_cons_eq_some.1 h
    obtain ⟨heff, -, hlookup⟩ := readCoin_spec hcoins view input.previousOutput
    unfold spendInputs
    rw [hcoin] at hlookup
    split
    · rename_i view₁ found hread
      rw [hread] at heff hlookup
      dsimp only at hlookup
      split_ifs at hlookup with hspent
      rw [if_neg hspent]
      refine ih (r := (r.1, journal)) ?_
      rw [effective_insert, heff]
      exact hrest
    · rename_i view₁ hread
      rw [hread] at hlookup
      cases hlookup

end CoinView

/-! ## Blocks -/

section Blocks

variable {env : Env} {coins : FMap OutPoint CoinEntry} {height : Nat}

/-- A created coin is a spendable output of the transaction at its number. -/
theorem mem_createdCoins {tx : Transaction} {outputs : List TxOut} {index : Nat}
    {kv : OutPoint × CoinEntry} : kv ∈ createdCoins env tx height outputs index ↔
    ∃ i output, outputs[i]? = some output ∧ env.isProvablyUnspendable output.scriptPubkey = false
      ∧ kv = (⟨env.txid tx, index + i⟩,
        ⟨tx.version, some height, tx.isCoinBase, output, false⟩) := by
  induction outputs generalizing index with
  | nil => simp [createdCoins]
  | cons output outputs ih =>
    have hrest : kv ∈ createdCoins env tx height outputs (index + 1) ↔ ∃ i o,
        outputs[i]? = some o ∧ env.isProvablyUnspendable o.scriptPubkey = false
          ∧ kv = (⟨env.txid tx, index + (i + 1)⟩,
            ⟨tx.version, some height, tx.isCoinBase, o, false⟩) := by
      simp only [ih, Nat.add_assoc, Nat.add_comm 1]
    have hsplit : ∀ P : Nat → TxOut → Prop, (∃ i o, (output :: outputs)[i]? = some o ∧ P i o) ↔
        P 0 output ∨ ∃ i o, outputs[i]? = some o ∧ P (i + 1) o := by
      intro P
      constructor
      · rintro ⟨i, o, ho, hP⟩
        cases i with
        | zero => exact .inl (Option.some.inj ho ▸ hP)
        | succ i => exact .inr ⟨i, o, ho, hP⟩
      · rintro (hP | ⟨i, o, ho, hP⟩)
        · exact ⟨0, output, rfl, hP⟩
        · exact ⟨i + 1, o, ho, hP⟩
    rw [hsplit, ← hrest]
    rw [createdCoins]
    split <;> rename_i hscript
    · simp [hscript]
    · rw [List.mem_cons]
      simp [hscript]

/-- No two created coins have the same outpoint. -/
theorem nodup_createdCoins (env : Env) (tx : Transaction) (height : Nat) (outputs : List TxOut)
    (index : Nat) : ((createdCoins env tx height outputs index).map Prod.fst).Nodup := by
  induction outputs generalizing index with
  | nil => exact List.nodup_nil
  | cons output outputs ih =>
    rw [createdCoins]
    split_ifs
    · exact ih _
    · refine List.nodup_cons.2 ⟨fun hmem => ?_, ih _⟩
      obtain ⟨kv, hkv, heq⟩ := List.mem_map.1 hmem
      obtain ⟨i, o, -, -, rfl⟩ := mem_createdCoins.1 hkv
      have hvout : index + 1 + i = index := congrArg OutPoint.vout heq
      omega

/-- What the transactions of a block do to the coins. -/
def Block.ledgerTxs (env : Env) (height : Nat) (block : Block) :
    List (Ledger.Tx OutPoint CoinEntry) :=
  block.txdata.map fun tx => tx.ledgerTx env height (!tx.isCoinBase)

/-- The view of a block holds the coins the block leaves, and the journal of its spends. -/
theorem blockView_eq_ok (hcoins : Unspent coins) {txs : List Transaction} {view view' : CoinView}
    (h : blockView env coins height txs view = .ok view') :
    ∃ journal, Ledger.applyAll (view.effective coins)
        (txs.map fun tx => tx.ledgerTx env height (!tx.isCoinBase))
          = some (view'.effective coins, journal)
      ∧ view'.undo.items = view.undo.items ++ journal.map CoinEntry.markSpent := by
  induction txs generalizing view with
  | nil =>
    cases h
    exact ⟨[], rfl, by simp⟩
  | cons tx txs ih =>
    simp only [blockView] at h
    split at h
    · rename_i hcoinbase
      rw [pure_bind] at h
      obtain ⟨journal, hjournal, hitems⟩ := ih h
      refine ⟨journal, Ledger.applyAll_cons_eq_some.2 ⟨_, [], journal,
        Ledger.apply_eq_some.2 ⟨view.effective coins, ?_, rfl⟩, ?_, rfl⟩, ?_⟩
      · simp [Transaction.ledgerTx, hcoinbase, Ledger.spend]
      · rw [← hjournal, CoinView.effective_addTx]
        rfl
      · simpa using hitems
    · rename_i hcoinbase
      simp only [bind_eq_ok] at h
      obtain ⟨view₁, hspend, h⟩ := h
      obtain ⟨spent, hspent, hundo⟩ := CoinView.spendInputs_eq_ok hcoins hspend
      obtain ⟨journal, hjournal, hitems⟩ := ih h
      refine ⟨spent ++ journal, Ledger.applyAll_cons_eq_some.2 ⟨_, spent, journal,
        Ledger.apply_eq_some.2 ⟨view₁.effective coins, ?_, rfl⟩, ?_, rfl⟩, ?_⟩
      · simpa [Transaction.ledgerTx, hcoinbase] using hspent
      · rw [← hjournal, CoinView.effective_addTx]
        rfl
      · rw [hitems, CoinView.undo_addTx, hundo]
        simp

/-- The view that passed verification is the view of the block. -/
theorem verifyTransactions_view {c : Chain} {prev : ChainEntry} {state : DeploymentState}
    {txs : List Transaction} {view view' : CoinView} {sigops reward reward' : Nat}
    (h : c.verifyTransactions env prev state txs view sigops reward = .ok (view', reward')) :
    blockView env c.db.db.coin (prev.height + 1) txs view = .ok view' := by
  induction txs generalizing view sigops reward with
  | nil =>
    cases h
    rfl
  | cons tx txs ih =>
    obtain ⟨view₁, reward₁, sigops₁, hview, hrest⟩ := Chain.verifyTransactions_cons h
    simp only [blockView]
    rcases hview with ⟨hcoinbase, rfl, -⟩ | ⟨hcoinbase, hspends⟩
    · rw [if_pos hcoinbase, pure_bind]
      exact ih hrest
    · rw [if_neg (by simp [hcoinbase]), (Chain.verifySpends_eq_ok hspends).1, bind_of_ok rfl]
      exact ih hrest

end Blocks

/-! ## Disconnecting -/

namespace ChainDB

variable {env : Env} {coins : FMap OutPoint CoinEntry} {height : Nat}

/-- The counters after the journal of a transaction came back, last coin first, and its
outputs were dropped. -/
def revertState (env : Env) (pending : ChainState) (tx : Transaction) (journal : List CoinEntry) :
    ChainState :=
  dropCoins env tx.output.reverse
    (journal.reverse.foldl (fun pending coin => pending.add coin.output) pending)

/-- The number of inputs of a numbered transaction whose coins are in the undo record. -/
def undoCount (tx : Transaction × Nat) : Nat := if tx.2 > 0 then tx.1.input.length else 0

/-- The counters after numbered transactions are reverted in reverse order. -/
def revertStates (env : Env) (pending : ChainState) :
    List (Transaction × Nat) → List CoinEntry → ChainState
  | [], _ => pending
  | tx :: txs, journal =>
    revertState env (revertStates env pending txs (journal.drop (undoCount tx))) tx.1
      (journal.take (undoCount tx))

/-- Restoring inputs pops the record from its end and puts every coin back. -/
theorem restoreCoins_eq (coins : FMap OutPoint CoinEntry) (inputs : List TxIn)
    (journal front : List CoinEntry) (view : CoinView) (pending : ChainState)
    (hlen : journal.length = inputs.length) (hunspent : ∀ coin ∈ journal, coin.spent = false) :
    ∃ view', restoreCoins inputs ⟨front ++ journal.reverse⟩ view pending =
        .ok (⟨front⟩, view', journal.foldl (fun pending coin => pending.add coin.output) pending)
      ∧ view'.effective coins = Ledger.create (view.effective coins)
          ((inputs.map TxIn.previousOutput).zip journal) := by
  induction inputs generalizing journal view pending with
  | nil =>
    obtain rfl := List.length_eq_zero_iff.1 hlen
    exact ⟨view, by simp [restoreCoins], rfl⟩
  | cons input inputs ih =>
    cases journal with
    | nil => cases hlen
    | cons coin journal =>
      obtain ⟨hcoin, hjournal⟩ := List.forall_mem_cons.1 hunspent
      obtain ⟨view', hrestore, heff⟩ := ih journal
        { view with map := view.map.insert input.previousOutput coin }
        (pending.add coin.output) (Nat.succ.inj hlen) hjournal
      refine ⟨view', ?_, ?_⟩
      · have happly : UndoCoins.apply ⟨front ++ (coin :: journal).reverse⟩ view input.previousOutput
            = .ok (⟨front ++ journal.reverse⟩,
              { view with map := view.map.insert input.previousOutput coin }) := by
          simp [UndoCoins.apply, ← List.append_assoc, List.dropLast_append_of_ne_nil]
        rw [restoreCoins, happly, bind_of_ok rfl]
        simpa [CoinView.getOutput, CoinView.getEntry] using hrestore
      · rw [heff, CoinView.effective_insert]
        simp [View.write, hcoin, Ledger.create, CoinView.effective]

theorem disconnectTransactions_append {txs txs' : List (Transaction × Nat)} {undo : UndoCoins}
    {view : CoinView} {pending : ChainState} :
    disconnectTransactions env height (txs ++ txs') undo view pending = (do
      let (undo, view, pending) ← disconnectTransactions env height txs undo view pending
      disconnectTransactions env height txs' undo view pending) := by
  induction txs generalizing undo view pending with
  | nil => rfl
  | cons tx txs ih =>
    obtain ⟨tx, i⟩ := tx
    rw [List.cons_append, disconnectTransactions, disconnectTransactions]
    split
    · rw [bind_assoc]
      congr 1
      funext r
      exact ih
    · rw [pure_bind, pure_bind]
      exact ih

theorem length_spends_ledgerTx (tx : Transaction × Nat) :
    (tx.1.ledgerTx env height (decide (tx.2 > 0))).spends.length = undoCount tx := by
  unfold Transaction.ledgerTx undoCount
  by_cases h : tx.2 > 0 <;> simp [h]

/-- Reverting one numbered transaction with its part of the record. -/
theorem disconnectTransaction_eq (env : Env) (coins : FMap OutPoint CoinEntry) (height : Nat)
    (tx : Transaction × Nat) (journal front : List CoinEntry) (view : CoinView)
    (pending : ChainState)
    (hlen : journal.length = undoCount tx) (hunspent : ∀ coin ∈ journal, coin.spent = false) :
    ∃ view', disconnectTransactions env height [tx] ⟨front ++ journal⟩ view pending =
        .ok (⟨front⟩, view', revertState env pending tx.1 journal)
      ∧ view'.effective coins = Ledger.revert (view.effective coins)
          (tx.1.ledgerTx env height (decide (tx.2 > 0))) journal := by
  obtain ⟨tx, i⟩ := tx
  rw [disconnectTransactions]
  dsimp only [undoCount] at hlen
  by_cases hi : i > 0
  · rw [if_pos hi] at hlen ⊢
    obtain ⟨view', hrestore, heff⟩ := restoreCoins_eq coins tx.input.reverse
      journal.reverse front view pending (by simpa using hlen) (by simpa using hunspent)
    rw [List.reverse_reverse] at hrestore
    rw [hrestore, bind_of_ok rfl]
    refine ⟨_, rfl, ?_⟩
    have hzip : (tx.input.reverse.map TxIn.previousOutput).zip journal.reverse
        = ((tx.input.map TxIn.previousOutput).zip journal).reverse := by
      rw [List.map_reverse]
      exact (List.reverse_zipWith (by simpa using hlen.symm)).symm
    rw [CoinView.effective_removeTx, heff, hzip]
    simp [Ledger.revert, Transaction.ledgerTx, hi]
  · rw [if_neg hi] at hlen ⊢
    obtain rfl := List.length_eq_zero_iff.1 hlen
    rw [pure_bind, List.append_nil]
    refine ⟨_, rfl, ?_⟩
    rw [CoinView.effective_removeTx]
    simp [Ledger.revert, Transaction.ledgerTx, hi, Ledger.create]

/-- Reverting the numbered transactions of a block with its journal: the coins are reverted
and the record is used up. -/
theorem disconnectTransactions_eq (env : Env) (coins : FMap OutPoint CoinEntry) (height : Nat)
    (txs : List (Transaction × Nat)) (journal front : List CoinEntry) (view : CoinView)
    (pending : ChainState) (hlen : journal.length = (txs.map undoCount).sum)
    (hunspent : ∀ coin ∈ journal, coin.spent = false) :
    ∃ view', disconnectTransactions env height txs.reverse ⟨front ++ journal⟩ view pending =
        .ok (⟨front⟩, view', revertStates env pending txs journal)
      ∧ view'.effective coins = Ledger.revertAll (view.effective coins)
          (txs.map fun tx => tx.1.ledgerTx env height (decide (tx.2 > 0))) journal := by
  induction txs generalizing journal front with
  | nil =>
    obtain rfl := List.length_eq_zero_iff.1 hlen
    exact ⟨view, by simp [disconnectTransactions, revertStates], rfl⟩
  | cons tx txs ih =>
    rw [List.map_cons, List.sum_cons] at hlen
    obtain ⟨view₁, htxs, heff⟩ := ih (journal.drop (undoCount tx))
      (front ++ journal.take (undoCount tx)) (by rw [List.length_drop]; omega)
      fun coin hcoin => hunspent coin (List.mem_of_mem_drop hcoin)
    obtain ⟨view₂, htx, heff₂⟩ := disconnectTransaction_eq env coins height tx
      (journal.take (undoCount tx)) front view₁
      (revertStates env pending txs (journal.drop (undoCount tx)))
      (by rw [List.length_take]; omega) fun coin hcoin => hunspent coin (List.mem_of_mem_take hcoin)
    refine ⟨view₂, ?_, ?_⟩
    · rw [List.append_assoc, List.take_append_drop] at htxs
      rw [List.reverse_cons, disconnectTransactions_append, htxs, bind_of_ok rfl]
      exact htx
    · rw [heff₂, heff, List.map_cons, Ledger.revertAll, length_spends_ledgerTx]

end ChainDB

end BitcoinNode
