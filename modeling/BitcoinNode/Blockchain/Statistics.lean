import BitcoinNode.Blockchain.Replay
import BitcoinNode.Blockchain.Supply
import Mathlib.Algebra.Order.Monoid.Prod

/-!
# Chain statistics

The state record counts the coins of the coin column and adds up their value, exactly, when no
block recreates an unspent outpoint. `connect` and `disconnect` do in a build with overflow checks
what they do without, that is none of their subtractions goes below zero.
-/

namespace BitcoinNode

/-! ## Subtractions that are checked -/

namespace ChainState

/-- `spend` in a build with overflow checks. -/
def checkedSpend (state : ChainState) (coin : TxOut) : Except Panic ChainState :=
  if 1 ≤ state.coin ∧ coin.value ≤ state.value then .ok (state.spend coin) else .error .overflow

/-- `disconnect` in a build with overflow checks. -/
def checkedDisconnect (state : ChainState) (block : Block) : Except Panic ChainState :=
  if block.txdata.length ≤ state.tx then .ok (state.disconnect block) else .error .overflow

end ChainState

namespace ChainDB

def checkedSpendCoins (view : CoinView) : List TxIn → ChainState → Except Panic ChainState
  | [], pending => .ok pending
  | input :: inputs, pending =>
    match view.getOutput input.previousOutput with
    | none => .error .connectBlockNoCoin
    | some spent => do checkedSpendCoins view inputs (← pending.checkedSpend spent)

def checkedConnectTransactions (env : Env) (view : CoinView) :
    List Transaction → Nat → ChainState → Except Panic ChainState
  | [], _, pending => .ok pending
  | tx :: txs, i, pending => do
    let pending ← if i > 0 then checkedSpendCoins view tx.input pending else pure pending
    checkedConnectTransactions env view txs (i + 1) (addCoins env tx.output pending)

/-- `connect_block` with checked subtractions. -/
def checkedConnectBlock (env : Env) (db : ChainDB) (entry : ChainEntry) (block : Block)
    (view : CoinView) : Except Panic (ChainDB × Batch) :=
  match db.pending with
  | none => .error .noPending
  | some pending => do
    let pending := pending.connect block
    if entry.isGenesis then
      return ({ db with pending := some pending }, [])
    let pending ← checkedConnectTransactions env view block.txdata 0 pending
    let batch := saveView view
    let blocks ←
      if view.undo.isEmpty then pure db.blocks else db.blocks.writeUndo entry.hash view.undo
    return ({ db with pending := some pending, blocks := blocks }, batch)

def checkedDropCoins (env : Env) : List TxOut → ChainState → Except Panic ChainState
  | [], pending => .ok pending
  | output :: outputs, pending => do
    let pending ←
      if env.isProvablyUnspendable output.scriptPubkey then pure pending
      else pending.checkedSpend output
    checkedDropCoins env outputs pending

def checkedDisconnectTransactions (env : Env) (height : Nat) :
    List (Transaction × Nat) → UndoCoins → CoinView → ChainState →
      Except Panic (UndoCoins × CoinView × ChainState)
  | [], undo, view, pending => .ok (undo, view, pending)
  | (tx, i) :: txs, undo, view, pending => do
    let (undo, view, pending) ←
      if i > 0 then restoreCoins tx.input.reverse undo view pending
      else pure (undo, view, pending)
    let view := view.removeTx env tx height
    let pending ← checkedDropCoins env tx.output.reverse pending
    checkedDisconnectTransactions env height txs undo view pending

/-- `disconnect_block` with checked subtractions. -/
def checkedDisconnectBlock (env : Env) (db : ChainDB) (entry : ChainEntry) (block : Block) :
    Except Panic (ChainDB × Batch × CoinView) :=
  match db.blocks.readUndo entry.hash with
  | none => .error .undoMissing
  | some undo =>
    match db.pending with
    | none => .error .noPending
    | some pending => do
      let pending ← pending.checkedDisconnect block
      let (undo, view, pending) ← checkedDisconnectTransactions env entry.height
        block.txdata.zipIdx.reverse undo CoinView.empty pending
      if !undo.isEmpty then throw .undoLeftOver
      return ({ db with pending := some pending }, saveView view, view)

/-- `connect` with checked subtractions. -/
def checkedConnect (env : Env) (db : ChainDB) (entry : ChainEntry) (block : Block)
    (view : CoinView) : Except Panic ChainDB := do
  let db ← db.start
  let hash := env.blockHash block.header
  let next : Batch := if entry.isGenesis then [] else [.insert (.nextHash entry.prevBlock) hash]
  let cache := (db.entryCache.insertHeightBatch entry).insertHashBatch entry
  let (db, coins) ← checkedConnectBlock env { db with entryCache := cache } entry block view
  match db.pending with
  | none => throw .noPending
  | some pending =>
    let chainState := pending.commit hash
    let index : Batch := [.insert (.hash entry.height) hash]
    let state : Batch := [.insert .chainState chainState]
    { db with pending := some chainState }.commit (next ++ index ++ coins ++ state)

/-- `disconnect` with checked subtractions. -/
def checkedDisconnect (env : Env) (db : ChainDB) (entry : ChainEntry) (block : Block) :
    Except Panic (ChainDB × CoinView) := do
  let db ← db.start
  let cache := db.entryCache.removeHeightBatch entry
  let (db, coins, view) ← checkedDisconnectBlock env { db with entryCache := cache } entry block
  match db.pending with
  | none => throw .noPending
  | some pending =>
    let chainState := pending.commit entry.prevBlock
    let index : Batch := [.remove (.nextHash entry.prevBlock), .remove (.hash entry.height)]
    let state : Batch := [.insert .chainState chainState]
    let db ← { db with pending := some chainState }.commit (index ++ coins ++ state)
    return (db, view)

end ChainDB

/-! ## Counts -/

/-- What a coin adds to the statistics: itself, and its value. -/
def TxOut.weight (output : TxOut) : Nat × Nat := (1, output.value)

/-- The statistics of a state record. -/
def ChainState.counts (state : ChainState) : Nat × Nat := (state.coin, state.value)

/-- Both numbers fit into 64 bits. -/
def Fits64 (counts : Nat × Nat) : Prop := counts.1 < 2 ^ 64 ∧ counts.2 < 2 ^ 64

theorem Fits64.mono {a b : Nat × Nat} (h : Fits64 b) (hle : a ≤ b) : Fits64 a :=
  ⟨hle.1.trans_lt h.1, hle.2.trans_lt h.2⟩

namespace ChainState

variable {state : ChainState} {output : TxOut}

theorem counts_add (h : Fits64 (state.counts + output.weight)) :
    (state.add output).counts = state.counts + output.weight :=
  Prod.ext (Word.add_eq h.1) (Word.add_eq h.2)

theorem counts_spend (hle : output.weight ≤ state.counts) (h : Fits64 state.counts) :
    (state.spend output).counts + output.weight = state.counts := by
  refine Prod.ext ?_ ?_
  · exact (congrArg (· + 1) (Word.sub_eq hle.1 h.1)).trans (Nat.sub_add_cancel hle.1)
  · exact (congrArg (· + output.value) (Word.sub_eq hle.2 h.2)).trans (Nat.sub_add_cancel hle.2)

theorem checkedSpend_eq (hle : output.weight ≤ state.counts) :
    state.checkedSpend output = .ok (state.spend output) := if_pos ⟨hle.1, hle.2⟩

end ChainState

namespace ChainDB

variable {env : Env} {view view' : CoinView} {pending record : ChainState}

/-- What outputs add to the statistics. -/
def weights (env : Env) (outputs : List TxOut) : Nat × Nat :=
  ((outputs.filter fun output => !env.isProvablyUnspendable output.scriptPubkey).map
    TxOut.weight).sum

theorem weights_cons (output : TxOut) (outputs : List TxOut) : weights env (output :: outputs)
    = (if env.isProvablyUnspendable output.scriptPubkey then 0 else output.weight)
      + weights env outputs := by
  unfold weights
  by_cases h : env.isProvablyUnspendable output.scriptPubkey <;> simp [h]

theorem weights_reverse (outputs : List TxOut) :
    weights env outputs.reverse = weights env outputs := by
  unfold weights
  rw [List.filter_reverse, List.map_reverse, List.sum_reverse]

/-- The output loop of `connect_block` adds what the outputs weigh. -/
theorem counts_addCoins {outputs : List TxOut}
    (h : Fits64 (pending.counts + weights env outputs)) :
    (addCoins env outputs pending).counts = pending.counts + weights env outputs := by
  induction outputs generalizing pending with
  | nil => rfl
  | cons output outputs ih =>
    rw [weights_cons] at h ⊢
    rw [addCoins, List.foldl_cons]
    split_ifs at h ⊢ with hscript
    · rw [zero_add] at h ⊢
      exact ih h
    · rw [← add_assoc] at h ⊢
      have hadd := ChainState.counts_add (h.mono le_self_add)
      rw [← hadd] at h ⊢
      exact ih h

/-- The output loop of `disconnect_block` takes it off again, if it is there. -/
theorem checkedDropCoins_eq {outputs : List TxOut} (hle : weights env outputs ≤ pending.counts)
    (h : Fits64 pending.counts) :
    checkedDropCoins env outputs pending = .ok (dropCoins env outputs pending)
      ∧ (dropCoins env outputs pending).counts + weights env outputs = pending.counts := by
  induction outputs generalizing pending with
  | nil => exact ⟨rfl, rfl⟩
  | cons output outputs ih =>
    rw [weights_cons] at hle ⊢
    rw [checkedDropCoins, dropCoins, List.foldl_cons]
    split_ifs at hle ⊢ with hscript
    · rw [zero_add] at hle ⊢
      exact ih hle h
    · have hfirst := le_self_add.trans hle
      have hspend := ChainState.counts_spend hfirst h
      have hrest : weights env outputs ≤ (pending.spend output).counts := by
        rw [← hspend, add_comm] at hle
        exact le_of_add_le_add_right hle
      obtain ⟨hchecked, hcounts⟩ := ih hrest (h.mono (le_self_add.trans_eq hspend))
      rw [ChainState.checkedSpend_eq hfirst, bind_of_ok rfl]
      refine ⟨hchecked, ?_⟩
      rw [add_comm output.weight, ← add_assoc]
      exact (congrArg (· + output.weight) hcounts).trans hspend

end ChainDB

/-! ## Coins and their statistics -/

theorem sum_map_pair {α : Type} (f g : α → Nat) (xs : List α) :
    (xs.map fun x => (f x, g x)).sum = ((xs.map f).sum, (xs.map g).sum) := by
  induction xs with
  | nil => rfl
  | cons x xs ih => rw [List.map_cons, List.sum_cons, ih, List.map_cons, List.map_cons,
      List.sum_cons, List.sum_cons, Prod.mk_add_mk]

/-- The number of the coins of a column, and their value. -/
def tally (coins : FMap OutPoint CoinEntry) : Nat × Nat :=
  (FMap.total (CoinEntry.weigh fun _ => 1) coins, FMap.total (CoinEntry.weigh TxOut.value) coins)

/-- What coins that were spent come to. -/
def spentWeight (coins : List CoinEntry) : Nat × Nat :=
  ((coins.map CoinEntry.output).map TxOut.weight).sum

theorem spentWeight_eq (coins : List CoinEntry) : spentWeight coins
    = ((coins.map (CoinEntry.weigh fun _ => 1)).sum,
      (coins.map (CoinEntry.weigh TxOut.value)).sum) := by
  rw [spentWeight, List.map_map]
  exact sum_map_pair _ _ _

theorem tally_erase {m : FMap OutPoint CoinEntry} {o : OutPoint} {coin : CoinEntry}
    (h : m.lookup o = some coin) : tally (m.erase o) + coin.output.weight = tally m :=
  Prod.ext (FMap.total_erase _ h) (FMap.total_erase _ h)

theorem tally_spend {m m' : FMap OutPoint CoinEntry} {keys : List OutPoint}
    {coins : List CoinEntry} (h : Ledger.spend m keys = some (m', coins)) :
    tally m' + spentWeight coins = tally m := by
  rw [spentWeight_eq]
  exact Prod.ext (Ledger.total_spend _ h) (Ledger.total_spend _ h)

theorem weights_eq (env : Env) (outputs : List TxOut) : ChainDB.weights env outputs
    = (ChainDB.weightOf env (fun _ => 1) outputs, ChainDB.weightOf env TxOut.value outputs) :=
  sum_map_pair _ _ _

/-- A transaction that recreates nothing moves the tally by what it creates and what it spends. -/
theorem tally_apply {env : Env} {tx : Transaction} {height : Nat} {spends : Bool}
    {m : FMap OutPoint CoinEntry} {r : FMap OutPoint CoinEntry × List CoinEntry}
    (hfresh : Ledger.Fresh m (tx.ledgerTx env height spends))
    (h : Ledger.apply m (tx.ledgerTx env height spends) = some r) :
    tally r.1 + spentWeight r.2 = tally m + ChainDB.weights env tx.output := by
  have hnd : ((tx.ledgerTx env height spends).creates.map Prod.fst).Nodup :=
    nodup_createdCoins env tx height tx.output 0
  have hcreated (weight : TxOut → Nat) : ((tx.ledgerTx env height spends).creates.map fun kv =>
      CoinEntry.weigh weight kv.2).sum = ChainDB.weightOf env weight tx.output :=
    ChainDB.sum_createdCoins tx height tx.output 0
  rw [weights_eq, spentWeight_eq]
  refine Prod.ext ?_ ?_
  · exact (Ledger.total_apply _ hnd hfresh h).trans (congrArg _ (hcreated _))
  · exact (Ledger.total_apply _ hnd hfresh h).trans (congrArg _ (hcreated _))

namespace ChainDB

variable {env : Env} {view view' : CoinView} {pending record : ChainState} {height : Nat}

/-- The ledger transactions of numbered transactions. -/
def numbered (env : Env) (height : Nat) (txs : List (Transaction × Nat)) :
    List (Ledger.Tx OutPoint CoinEntry) :=
  txs.map fun tx => tx.1.ledgerTx env height (decide (tx.2 > 0))

/-- The statistics fit into 64 bits before each transaction, with its outputs besides. -/
def FitsAll (env : Env) (height : Nat) :
    FMap OutPoint CoinEntry → List (Transaction × Nat) → Prop
  | _, [] => True
  | m, tx :: txs => Fits64 (tally m + weights env tx.1.output)
    ∧ ∀ r, Ledger.apply m (tx.1.ledgerTx env height (decide (tx.2 > 0))) = some r →
      FitsAll env height r.1 txs

/-- The input loop of `connect_block` spends what the ledger spends, and never goes below zero. -/
theorem checkedSpendCoins_eq (hid : OutputsFaithful env) (hview : view.Made env)
    {inputs : List TxIn} {m m' : FMap OutPoint CoinEntry} {coins : List CoinEntry}
    (hm : MadeCoins env m)
    (hspend : Ledger.spend m (inputs.map TxIn.previousOutput) = some (m', coins))
    (hcounts : pending.counts = tally m) (hfits : Fits64 (tally m)) :
    checkedSpendCoins view inputs pending = spendCoins view inputs pending
      ∧ ∀ record, spendCoins view inputs pending = .ok record → record.counts = tally m' := by
  induction inputs generalizing m coins pending with
  | nil =>
    cases hspend
    exact ⟨rfl, fun record h => Except.ok.inj h ▸ hcounts⟩
  | cons input inputs ih =>
    obtain ⟨coin, rest, hcoin, hrest, -⟩ := Ledger.spend_cons_eq_some.1 hspend
    rw [checkedSpendCoins, spendCoins]
    cases houtput : view.getOutput input.previousOutput with
    | none => exact ⟨rfl, fun record h => by cases h⟩
    | some output =>
      obtain rfl : output = coin.output := (hview.getOutput houtput).unique hid (hm _ _ hcoin)
      have herase : tally (m.erase input.previousOutput) + coin.output.weight = tally m :=
        tally_erase hcoin
      have hle : coin.output.weight ≤ pending.counts := hcounts ▸ herase ▸ le_add_self
      have hspent := ChainState.counts_spend hle (hcounts ▸ hfits)
      dsimp only
      rw [ChainState.checkedSpend_eq hle, bind_of_ok rfl]
      refine ih (fun o c hc => hm o c (FMap.lookup_erase_eq_some.1 hc).2) hrest ?_
        (hfits.mono (le_self_add.trans_eq herase))
      exact add_right_cancel (hspent.trans (hcounts.trans herase.symm))

/-- Nothing is spent by the first transaction of a block. -/
theorem checkedInputs_eq (hid : OutputsFaithful env) (hview : view.Made env) {tx : Transaction}
    {i : Nat} {m m' : FMap OutPoint CoinEntry} {coins : List CoinEntry} (hm : MadeCoins env m)
    (hspend : Ledger.spend m (tx.ledgerTx env height (decide (i > 0))).spends = some (m', coins))
    (hcounts : pending.counts = tally m) (hfits : Fits64 (tally m)) :
    (if i > 0 then checkedSpendCoins view tx.input pending else pure pending)
        = (if i > 0 then spendCoins view tx.input pending else pure pending)
      ∧ ∀ record, (if i > 0 then spendCoins view tx.input pending else pure pending) = .ok record →
        record.counts = tally m' := by
  by_cases hi : i > 0
  · simp only [if_pos hi]
    have hkeys : Ledger.spend m (tx.input.map TxIn.previousOutput) = some (m', coins) := by
      simpa [Transaction.ledgerTx, hi] using hspend
    exact checkedSpendCoins_eq hid hview hm hkeys hcounts hfits
  · simp only [if_neg hi]
    have hkeys : some (m, ([] : List CoinEntry)) = some (m', coins) := by
      simpa [Transaction.ledgerTx, hi, Ledger.spend] using hspend
    cases hkeys
    exact ⟨trivial, fun record h => Except.ok.inj h ▸ hcounts⟩

theorem made_apply {m : FMap OutPoint CoinEntry} {tx : Transaction} {spends : Bool}
    {r : FMap OutPoint CoinEntry × List CoinEntry} (hm : MadeCoins env m)
    (h : Ledger.apply m (tx.ledgerTx env height spends) = some r) : MadeCoins env r.1 := by
  obtain ⟨m', hspend, hr⟩ := Ledger.apply_eq_some.1 h
  rw [hr]
  refine Ledger.create_values (Ledger.spend_values hm hspend).2 fun kv hkv => ?_
  obtain ⟨i, output, houtput, -, rfl⟩ := mem_createdCoins.1 hkv
  exact ⟨tx, rfl, by simpa using houtput⟩

theorem connectTransactions_cons (env : Env) (view : CoinView) (tx : Transaction)
    (txs : List Transaction) (i : Nat) (pending : ChainState) :
    connectTransactions env view (tx :: txs) i pending
      = (if i > 0 then spendCoins view tx.input pending else pure pending) >>= fun spent =>
        connectTransactions env view txs (i + 1) (addCoins env tx.output spent) := by
  rw [connectTransactions]
  split_ifs <;> rfl

theorem checkedConnectTransactions_cons (env : Env) (view : CoinView) (tx : Transaction)
    (txs : List Transaction) (i : Nat) (pending : ChainState) :
    checkedConnectTransactions env view (tx :: txs) i pending
      = (if i > 0 then checkedSpendCoins view tx.input pending else pure pending) >>= fun spent =>
        checkedConnectTransactions env view txs (i + 1) (addCoins env tx.output spent) := by
  rw [checkedConnectTransactions]
  split_ifs <;> rfl

/-- The transaction loop of `connect_block` never goes below zero, and counts the coins that the
block leaves. -/
theorem checkedConnectTransactions_eq (hid : OutputsFaithful env) (hview : view.Made env)
    {txs : List Transaction} {i : Nat} {m : FMap OutPoint CoinEntry}
    {r : FMap OutPoint CoinEntry × List CoinEntry} (hm : MadeCoins env m)
    (happly : Ledger.applyAll m (numbered env height (txs.zipIdx i)) = some r)
    (hfresh : Ledger.FreshAll m (numbered env height (txs.zipIdx i)))
    (hcounts : pending.counts = tally m) (hfits : FitsAll env height m (txs.zipIdx i)) :
    checkedConnectTransactions env view txs i pending = connectTransactions env view txs i pending
      ∧ ∀ record, connectTransactions env view txs i pending = .ok record →
        record.counts = tally r.1 := by
  -- the ledger says what is there before each transaction, and that is what is counted
  induction txs generalizing i m r pending with
  | nil =>
    cases happly
    exact ⟨rfl, fun record h => Except.ok.inj h ▸ hcounts⟩
  | cons tx txs ih =>
    rw [List.zipIdx_cons] at happly hfresh hfits
    obtain ⟨m₁, vs, js, htx, htxs, -⟩ := Ledger.applyAll_cons_eq_some.1 happly
    obtain ⟨m₂, hspend, -⟩ := Ledger.apply_eq_some.1 htx
    obtain ⟨hfirst, hfits⟩ := hfits
    have hmoved := tally_apply hfresh.1 htx
    have hspent : tally m₂ + spentWeight vs = tally m := tally_spend hspend
    have hcreated : tally m₁ = tally m₂ + weights env tx.output := by
      refine add_right_cancel (hmoved.trans ?_)
      rw [← hspent, add_right_comm]
    have hle : tally m₁ ≤ tally m + weights env tx.output := le_self_add.trans_eq hmoved
    obtain ⟨hchecked, hafter⟩ :=
      checkedInputs_eq hid hview hm hspend hcounts (hfirst.mono le_self_add)
    rw [connectTransactions_cons, checkedConnectTransactions_cons, hchecked]
    cases hinputs : if i > 0 then spendCoins view tx.input pending else pure pending with
    | error p => exact ⟨rfl, nofun⟩
    | ok spent =>
      have hadd : (addCoins env tx.output spent).counts = tally m₁ := by
        rw [hcreated, ← hafter spent hinputs]
        refine counts_addCoins (hfirst.mono ?_)
        rw [hafter spent hinputs, ← hcreated]
        exact hle
      exact ih (r := (r.1, js)) (made_apply hm htx) htxs (hfresh.2 _ htx) hadd (hfits _ htx)

theorem checkedDisconnectTransactions_append {txs txs' : List (Transaction × Nat)}
    {undo : UndoCoins} :
    checkedDisconnectTransactions env height (txs ++ txs') undo view pending = (do
      let (undo, view, pending) ← checkedDisconnectTransactions env height txs undo view pending
      checkedDisconnectTransactions env height txs' undo view pending) := by
  induction txs generalizing undo view pending with
  | nil => rfl
  | cons tx txs ih =>
    obtain ⟨tx, i⟩ := tx
    rw [List.cons_append, checkedDisconnectTransactions, checkedDisconnectTransactions]
    simp only [ih]
    split_ifs <;> simp only [bind_assoc, pure_bind]

/-- Coins that come back add what they weigh. -/
theorem counts_foldl_add {coins : List CoinEntry}
    (h : Fits64 (pending.counts + spentWeight coins)) :
    (coins.foldl (fun pending coin => pending.add coin.output) pending).counts
      = pending.counts + spentWeight coins := by
  induction coins generalizing pending with
  | nil => rfl
  | cons coin coins ih =>
    have hcons : spentWeight (coin :: coins) = coin.output.weight + spentWeight coins := rfl
    rw [hcons, ← add_assoc] at h ⊢
    have hadd := ChainState.counts_add (h.mono le_self_add)
    rw [← hadd] at h ⊢
    exact ih h

theorem spentWeight_reverse (coins : List CoinEntry) :
    spentWeight coins.reverse = spentWeight coins := by
  rw [spentWeight, spentWeight, List.map_reverse, List.map_reverse, List.sum_reverse]

/-- One transaction is disconnected with its part of the record. -/
theorem checkedDisconnectTransaction_eq (height : Nat) (view : CoinView) (front : List CoinEntry)
    {tx : Transaction × Nat} {journal : List CoinEntry} (hlen : journal.length = undoCount tx)
    (hunspent : ∀ coin ∈ journal, coin.spent = false)
    (hle : weights env tx.1.output ≤ pending.counts + spentWeight journal)
    (hfits : Fits64 (pending.counts + spentWeight journal)) :
    ∃ view' after, checkedDisconnectTransactions env height [tx] ⟨front ++ journal⟩ view pending
        = .ok (⟨front⟩, view', after)
      ∧ disconnectTransactions env height [tx] ⟨front ++ journal⟩ view pending
        = .ok (⟨front⟩, view', after)
      ∧ after.counts + weights env tx.1.output = pending.counts + spentWeight journal := by
  obtain ⟨view', hplain, -⟩ :=
    disconnectTransaction_eq env ∅ height tx journal front view pending hlen hunspent
  rw [← spentWeight_reverse] at hle hfits ⊢
  have hback := counts_foldl_add hfits
  rw [← hback, ← weights_reverse] at hle
  rw [← hback] at hfits
  obtain ⟨hdrop, hcounts⟩ := checkedDropCoins_eq hle hfits
  rw [weights_reverse] at hcounts
  refine ⟨view', revertState env pending tx.1 journal, ?_, hplain, hcounts.trans hback⟩
  obtain ⟨tx, i⟩ := tx
  rw [checkedDisconnectTransactions]
  rw [disconnectTransactions] at hplain
  by_cases hi : i > 0
  · rw [if_pos hi] at hplain ⊢
    obtain ⟨view₁, hrestore, -⟩ := restoreCoins_eq ∅ tx.input.reverse journal.reverse front view
      pending (by simpa [undoCount, hi] using hlen) (by simpa using hunspent)
    rw [List.reverse_reverse] at hrestore
    rw [hrestore, bind_of_ok rfl] at hplain ⊢
    dsimp only at hplain ⊢
    rw [hdrop, bind_of_ok rfl]
    exact hplain
  · obtain rfl : journal = [] := List.length_eq_zero_iff.1 (by simpa [undoCount, hi] using hlen)
    rw [if_neg hi, pure_bind] at hplain ⊢
    dsimp only at hplain ⊢
    rw [show checkedDropCoins env tx.output.reverse pending = _ from hdrop, bind_of_ok rfl]
    exact hplain

/-- The transaction loop of `disconnect_block` never goes below zero, and counts the coins there
were before the block. -/
theorem checkedDisconnectTransactions_eq (view : CoinView) (front : List CoinEntry)
    {txs : List (Transaction × Nat)} {journal : List CoinEntry} {m : FMap OutPoint CoinEntry}
    {r : FMap OutPoint CoinEntry × List CoinEntry}
    (hunspent : ∀ coin ∈ journal, coin.spent = false)
    (happly : Ledger.applyAll m (numbered env height txs) = some r)
    (hfresh : Ledger.FreshAll m (numbered env height txs))
    (hjournal : journal.map CoinEntry.output = r.2.map CoinEntry.output)
    (hcounts : pending.counts = tally r.1) (hfits : FitsAll env height m txs) :
    ∃ view' after, checkedDisconnectTransactions env height txs.reverse ⟨front ++ journal⟩ view
        pending = .ok (⟨front⟩, view', after)
      ∧ disconnectTransactions env height txs.reverse ⟨front ++ journal⟩ view pending
        = .ok (⟨front⟩, view', after)
      ∧ after.counts = tally m := by
  induction txs generalizing m journal front r with
  | nil =>
    cases happly
    obtain rfl := List.map_eq_nil_iff.1 hjournal
    exact ⟨view, pending, by simp [checkedDisconnectTransactions],
      by simp [disconnectTransactions], hcounts⟩
  | cons tx txs ih =>
    obtain ⟨m₁, vs, js, htx, htxs, hr⟩ := Ledger.applyAll_cons_eq_some.1 happly
    obtain ⟨hfirst, hfits⟩ := hfits
    rw [hr, List.map_append] at hjournal
    have hlen : vs.length = undoCount tx :=
      (Ledger.length_apply htx).trans (length_spends_ledgerTx tx)
    have htake : (journal.take vs.length).map CoinEntry.output = vs.map CoinEntry.output := by
      rw [List.map_take, hjournal, List.take_left' (List.length_map ..)]
    have hdrop : (journal.drop vs.length).map CoinEntry.output = js.map CoinEntry.output := by
      rw [List.map_drop, hjournal, List.drop_left' (List.length_map ..)]
    have hmoved : tally m₁ + spentWeight (journal.take vs.length)
        = tally m + weights env tx.1.output := by
      rw [spentWeight, htake]
      exact tally_apply hfresh.1 htx
    have hlenTake : (journal.take vs.length).length = undoCount tx := by
      rw [← hlen, ← List.length_map CoinEntry.output, htake, List.length_map]
    obtain ⟨view₁, pending₁, hchecked, hplain, hcounts₁⟩ := ih (front ++ journal.take vs.length)
      (fun coin hcoin => hunspent coin (List.mem_of_mem_drop hcoin)) htxs (hfresh.2 _ htx) hdrop
      hcounts (hfits _ htx)
    have hback : pending₁.counts + spentWeight (journal.take vs.length)
        = tally m + weights env tx.1.output := hcounts₁ ▸ hmoved
    have hle : weights env tx.1.output
        ≤ pending₁.counts + spentWeight (journal.take vs.length) := hback ▸ le_add_self
    obtain ⟨view₂, after, hcheckedTx, hplainTx, hafter⟩ :=
      checkedDisconnectTransaction_eq height view₁ front hlenTake
        (fun coin hcoin => hunspent coin (List.mem_of_mem_take hcoin)) hle
        (hback ▸ hfirst)
    refine ⟨view₂, after, ?_, ?_, ?_⟩
    · rw [List.append_assoc, List.take_append_drop] at hchecked
      rw [List.reverse_cons, checkedDisconnectTransactions_append, hchecked, bind_of_ok rfl]
      exact hcheckedTx
    · rw [List.append_assoc, List.take_append_drop] at hplain
      rw [List.reverse_cons, disconnectTransactions_append, hplain, bind_of_ok rfl]
      exact hplainTx
    · exact add_right_cancel (hafter.trans hback)

end ChainDB

namespace ChainDB

variable {env : Env} {db : ChainDB} {entry : ChainEntry} {block : Block} {view : CoinView}

theorem checkedConnectBlock_eq {pending : ChainState} (hpending : db.pending = some pending)
    (h : checkedConnectTransactions env view block.txdata 0 (pending.connect block)
      = connectTransactions env view block.txdata 0 (pending.connect block)) :
    checkedConnectBlock env db entry block view = connectBlock env db entry block view := by
  unfold checkedConnectBlock connectBlock
  rw [hpending]
  dsimp only
  rw [h]

theorem checkedConnect_eq (hidle : db.Idle)
    (h : checkedConnectTransactions env view block.txdata 0 (db.state.connect block)
      = connectTransactions env view block.txdata 0 (db.state.connect block)) :
    db.checkedConnect env entry block view = db.connect env entry block view := by
  rw [checkedConnect, connect, start_eq hidle, bind_of_ok rfl, bind_of_ok rfl]
  exact congrArg (· >>= _) (checkedConnectBlock_eq rfl h)

theorem checkedDisconnect_eq (hidle : db.Idle) (htx : block.txdata.length ≤ db.state.tx)
    (h : ∀ undo, db.blocks.readUndo entry.hash = some undo →
      checkedDisconnectTransactions env entry.height block.txdata.zipIdx.reverse undo
          CoinView.empty (db.state.disconnect block)
        = disconnectTransactions env entry.height block.txdata.zipIdx.reverse undo
          CoinView.empty (db.state.disconnect block)) :
    db.checkedDisconnect env entry block = db.disconnect env entry block := by
  rw [checkedDisconnect, disconnect, start_eq hidle, bind_of_ok rfl, bind_of_ok rfl]
  simp only [checkedDisconnectBlock, disconnectBlock]
  cases hundo : db.blocks.readUndo entry.hash with
  | none => rfl
  | some undo =>
    dsimp only
    rw [ChainState.checkedDisconnect, if_pos htx, bind_of_ok rfl]
    exact congrArg (· >>= _) (congrArg (· >>= _) (h undo hundo))

end ChainDB

/-! ## What keeps the statistics small -/

/-- Every output takes more than one byte, and so does the rest of a transaction. -/
theorem Transaction.length_output_lt (tx : Transaction) : tx.output.length < tx.strippedSize := by
  have hle := List.card_nsmul_le_sum (tx.output.map fun output =>
    8 + varIntLen output.scriptPubkey.length + output.scriptPubkey.length) 1 (by
      intro n hn
      obtain ⟨output, -, rfl⟩ := List.mem_map.1 hn
      omega)
  rw [List.length_map, smul_eq_mul, Nat.mul_one] at hle
  unfold strippedSize
  omega

theorem Block.WellFormed.length_le {block : Block} (wf : block.WellFormed) :
    block.txdata.length + (block.txdata.map fun tx => tx.output.length).sum ≤ 1000000 := by
  have hsize : (block.txdata.map fun tx => 1 + tx.output.length).sum
      ≤ (block.txdata.map Transaction.strippedSize).sum :=
    List.sum_le_sum fun tx _ => by
      have := tx.length_output_lt
      omega
  have hle := wf.strippedSize_le
  rw [List.sum_map_add, List.map_const', List.sum_replicate, smul_eq_mul, Nat.mul_one] at hsize
  unfold Block.strippedSize at hle
  omega

/-- The outputs of a transaction are worth no more than the outputs it spends. -/
def Transaction.Funded (env : Env) (tx : Transaction) : Prop :=
  ∀ outputs, List.Forall₂ (OutputOf env) (tx.input.map TxIn.previousOutput) outputs →
    tx.outputTotal ≤ (outputs.map TxOut.value).sum

/-- All transactions but the coinbase are funded. -/
def Block.Funded (env : Env) (block : Block) : Prop :=
  ∀ tx ∈ block.txdata, tx.isCoinBase = false → tx.Funded env

theorem weightOf_one_le (env : Env) (outputs : List TxOut) :
    ChainDB.weightOf env (fun _ => 1) outputs ≤ outputs.length := by
  have hle := @ChainDB.weightOf_le env (fun _ => 1) outputs
  simpa using hle

theorem weights_le (env : Env) (tx : Transaction) :
    ChainDB.weights env tx.output ≤ (tx.output.length, tx.outputTotal) := by
  rw [weights_eq]
  exact ⟨weightOf_one_le env tx.output, ChainDB.weightOf_le tx.output⟩

namespace ChainDB

variable {env : Env} {height : Nat} {m : FMap OutPoint CoinEntry}

theorem fitsAll_rest {txs : List Transaction} {i : Nat} (hi : 0 < i)
    (hm : MadeCoins env m) (hsane : ∀ tx ∈ txs, tx.Sane) (hfunded : ∀ tx ∈ txs, tx.Funded env)
    (hfresh : Ledger.FreshAll m (numbered env height (txs.zipIdx i)))
    (hcount : (tally m).1 + (txs.map fun tx => tx.output.length).sum < 2 ^ 64)
    (hvalue : (tally m).2 ≤ 2 * MAX_MONEY) : FitsAll env height m (txs.zipIdx i) := by
  induction txs generalizing i m with
  | nil => trivial
  | cons tx txs ih =>
    obtain ⟨htx, hsane⟩ := List.forall_mem_cons.1 hsane
    obtain ⟨hpaid, hfunded⟩ := List.forall_mem_cons.1 hfunded
    rw [List.map_cons, List.sum_cons] at hcount
    have hweights := weights_le env tx
    have hmoney := htx.outputTotal_le
    have hmax : 3 * MAX_MONEY < 2 ^ 64 := by decide
    refine ⟨⟨?_, ?_⟩, fun r hr => ?_⟩
    · have := hweights.1
      simp only [Prod.fst_add]
      omega
    · have := hweights.2
      simp only [Prod.snd_add]
      omega
    · have hmoved := tally_apply hfresh.1 hr
      obtain ⟨m', hspend, -⟩ := Ledger.apply_eq_some.1 hr
      have hkeys : Ledger.spend m (tx.input.map TxIn.previousOutput) = some (m', r.2) := by
        simpa [Transaction.ledgerTx, hi] using hspend
      have hspent : tx.outputTotal ≤ (spentWeight r.2).2 := by
        have hle := hpaid _ (outputs_of_made (Ledger.spend_forall₂ hm hkeys))
        rw [← map_weigh] at hle
        rw [spentWeight_eq]
        exact hle
      have hcount' := congrArg Prod.fst hmoved
      have hvalue' := congrArg Prod.snd hmoved
      have hlength := hweights.1
      have htotal := hweights.2
      simp only [Prod.fst_add, Prod.snd_add] at hcount' hvalue' hlength htotal
      refine ih (Nat.succ_pos i) (made_apply hm hr) hsane hfunded (hfresh.2 r hr) ?_ ?_
      · omega
      · omega

/-- The statistics of a block that is well-formed and funded fit. -/
theorem fitsAll_block {block : Block} (wf : block.WellFormed)
    (hfunded : block.Funded env) (hm : MadeCoins env m)
    (hfresh : Ledger.FreshAll m (numbered env height block.txdata.zipIdx))
    (hcount : (tally m).1 < 2 ^ 63) (hvalue : (tally m).2 ≤ MAX_MONEY) :
    FitsAll env height m block.txdata.zipIdx := by
  obtain ⟨coinbase, rest, hdata, -, hrest⟩ := wf.exists_coinbase
  have hlength := wf.length_le
  have hsane := wf.sane
  unfold Block.Funded at hfunded
  rw [hdata] at hlength hsane hfunded hfresh ⊢
  rw [List.map_cons, List.sum_cons] at hlength
  obtain ⟨htx, hsane⟩ := List.forall_mem_cons.1 hsane
  have hweights := weights_le env coinbase
  have hcoins := hweights.1
  have htotal := hweights.2
  have hmoney := htx.outputTotal_le
  have hmax : 2 * MAX_MONEY < 2 ^ 64 := by decide
  simp only at hcoins htotal
  rw [List.zipIdx_cons] at hfresh ⊢
  refine ⟨⟨?_, ?_⟩, fun r hr => ?_⟩
  · simp only [Prod.fst_add]
    omega
  · simp only [Prod.snd_add]
    omega
  · have hmoved := tally_apply hfresh.1 hr
    have hcount' := congrArg Prod.fst hmoved
    have hvalue' := congrArg Prod.snd hmoved
    simp only [Prod.fst_add, Prod.snd_add] at hcount' hvalue'
    refine fitsAll_rest (Nat.succ_pos 0) (made_apply hm hr)
      hsane (fun tx htx => hfunded tx (List.mem_cons_of_mem _ htx) (hrest tx htx))
      (hfresh.2 r hr) ?_ ?_
    · omega
    · omega

end ChainDB

/-- When nothing is recreated, a line of blocks is worth what its coins are. -/
theorem Worth.total_eq {env : Env} {weight : TxOut → Nat} {limit : Nat → Nat}
    {line : List (ChainEntry × Block)} {coins : FMap OutPoint CoinEntry} {worth : Nat}
    {books : Books} (h : Worth env weight limit line coins worth)
    (hbooks : Books.ofLine env line = some books)
    (hfresh : ∀ before item after books, line = before ++ item :: after →
      Books.ofLine env before = some books →
        Ledger.FreshAll books.coin (item.2.ledgerTxs env item.1.height)) :
    FMap.total (CoinEntry.weigh weight) coins = worth := by
  induction h generalizing books with
  | genesis => exact FMap.total_empty _
  | @block line e b coins coins' journal worth worth' hbefore happly _ hworth ih =>
    rw [Books.ofLine_append_singleton] at hbooks
    obtain ⟨before, hline, -⟩ := Option.bind_eq_some_iff.1 hbooks
    have htotal := ih hline fun before' item after books hsplit =>
      hfresh before' item (after ++ [(e, b)]) books (by rw [hsplit]; simp)
    have hnew : Ledger.FreshAll coins (b.ledgerTxs env e.height) :=
      hbefore.books hline ▸ hfresh line (e, b) [] before rfl hline
    have hnd : ∀ tx ∈ b.ledgerTxs env e.height, (tx.creates.map Prod.fst).Nodup := by
      intro tx htx
      obtain ⟨tx, -, rfl⟩ := List.mem_map.1 htx
      exact nodup_createdCoins env tx e.height tx.output 0
    have hmoved := Ledger.total_applyAll (CoinEntry.weigh weight) hnew hnd happly
    dsimp only at hmoved
    omega

/-! ## Along a run -/

namespace Chain

open Relation

variable {env : Env} {c c' : Chain} {block : Block} {entry : ChainEntry}

/-- A block whose inputs were verified is funded. -/
theorem Balanced.funded (hid : OutputsFaithful env) {height : Nat} (wf : block.WellFormed)
    (hcoins : MadeCoins env c.db.db.coin) (h : c.Balanced env block height) :
    block.Funded env := by
  obtain ⟨coinbase, rest, fees, hdata, hmap, hfees, -⟩ := h
  obtain ⟨_, _, hdata', hcoinbase, -⟩ := wf.exists_coinbase
  cases hdata.symm.trans hdata'
  intro tx htx hspends outputs houtputs
  have hrest : tx ∈ rest := by
    rw [hdata] at htx
    refine (List.mem_cons.1 htx).resolve_left ?_
    rintro rfl
    cases hcoinbase.symm.trans hspends
  rw [← hmap] at hrest
  obtain ⟨item, hitem, rfl⟩ := List.mem_map.1 hrest
  obtain ⟨i, hi, rfl⟩ := List.getElem_of_mem hitem
  obtain ⟨-, hexact⟩ := hfees.get hi (hfees.length_eq ▸ hi)
  obtain ⟨coins, hfinds, hfee, -⟩ := hexact.exists_coins
  have hmade := checkedWith_made hcoins CoinView.made_empty _ hitem
  have hoften := outputs_of_made (List.forall₂_map_left_iff.2
    (hfinds.imp fun input coin hcoin => hmade input.previousOutput coin hcoin))
  obtain rfl := outputs_unique hid houtputs hoften
  rw [← map_weigh]
  exact (Nat.le_add_left _ _).trans_eq hfee

/-- The blocks of the main chain are funded. -/
theorem Visited.funded (law : env.Lawful) (hid : OutputsFaithful env) (h : Visited env c) :
    ∀ item ∈ stackOf c.notified, item.2.Funded env := by
  obtain ⟨c₀, hnew, hrun⟩ := h
  refine ReflTransGen.invariant_with (Q := Visited env)
    (P := fun c => ∀ item ∈ stackOf c.notified, item.2.Funded env)
    (fun _ _ hst ⟨c₀, hnew, hrun⟩ => ⟨c₀, hnew, hrun.tail hst⟩) ?_ hrun ⟨c₀, hnew, .refl⟩ ?_
  · intro c c' hmove hvisited hfunded
    have inv := hvisited.inv law
    cases hmove with
    | cache cache => exact hfunded
    | header hadd =>
      rcases addHeader_eq_ok hadd with ⟨_, -, rfl⟩ | ⟨_, _, _, _, -, -, -, -, -, -, -, -, -, rfl⟩
      · exact hfunded
      · exact hfunded
    | invalid _ _ => exact hfunded
    | block _ _ _ _ _ => exact hfunded
    | @connect _ block entry hentry _ hblock hprev hconnect =>
      obtain ⟨cache, view, state, record, blocks, journal, wf, hinputs, -, -, -, -, hc'⟩ :=
        connect_effect inv (hvisited.undoInv law).unspent hentry hblock hprev hconnect
      have hstack : stackOf c'.notified = stackOf c.notified ++ [(entry, block)] := by
        rw [hc']
        exact stackOf_connect _ _ _ _ _
      intro item hitem
      rw [hstack] at hitem
      rcases List.mem_append.1 hitem with hitem | hitem
      · exact hfunded item hitem
      · obtain rfl := List.mem_singleton.1 hitem
        exact (balanced_of_verifyInputs wf hinputs).funded hid wf (hvisited.origins law).coins
    | disconnect hdisc =>
      obtain ⟨block, prev, db, view, -, -, -, hc'⟩ := disconnect_eq_ok hdisc
      have hstack : stackOf c'.notified = (stackOf c.notified).dropLast := by
        rw [hc']
        exact stackOf_disconnect _ _ _ _ _
      intro item hitem
      rw [hstack] at hitem
      exact hfunded item (List.dropLast_subset _ hitem)
  · obtain ⟨mostWork, rfl⟩ := new_eq_ok law hnew
    exact nofun

/-- No block has more than a million outputs. -/
theorem limits_count (law : env.Lawful) : Limits env (fun _ => 1) fun _ => 1000000 := by
  intro c c' block entry hvisited hentry hblock hprev hconnect journal happly
  obtain ⟨-, -, -, -, -, -, wf, -⟩ := connect_effect (hvisited.inv law)
    (hvisited.undoInv law).unspent hentry hblock hprev hconnect
  have hlength := wf.length_le
  have hle : (block.txdata.map fun tx => ChainDB.weightOf env (fun _ => 1) tx.output).sum
      ≤ (block.txdata.map fun tx => tx.output.length).sum :=
    List.sum_le_sum fun tx _ => weightOf_one_le env tx.output
  rw [ChainDB.created_ledgerTxs]
  dsimp only
  omega

/-- The statistics of a chain are those of its coins. -/
theorem Visited.counts_eq (law : env.Lawful) (hid : OutputsFaithful env)
    (hhalving : env.network.halvingInterval = 210000) (h : Visited env c)
    (hfresh : NoRecreate env c.notified) (hheight : c.tip.height < 2 ^ 32) :
    c.db.state.counts = tally c.db.db.coin ∧ (tally c.db.db.coin).1 < 2 ^ 63
      ∧ (tally c.db.db.coin).2 ≤ MAX_MONEY := by
  have replay := h.replayInv law hfresh
  have hmoney := (h.value_le law hid).1.trans (issued_le_maxMoney hhalving _)
  have hmax : MAX_MONEY < 2 ^ 64 := by decide
  have htotal : ∀ {stat weight limit}, c.Counted env stat weight limit →
      stat c.db.state = FMap.total (CoinEntry.weigh weight) c.db.db.coin % 2 ^ 64
        ∧ FMap.total (CoinEntry.weigh weight) c.db.db.coin
          ≤ ((stackOf c.notified).map fun item => limit item.1.height).sum := by
    rintro stat weight limit ⟨coins, worth, hworth, -, hstat⟩
    obtain rfl : c.db.db.coin = coins := hworth.books replay.books
    have heq := hworth.total_eq replay.books fun _ _ _ _ => replay.fresh
    exact ⟨heq ▸ hstat, heq ▸ hworth.worth_le⟩
  obtain ⟨hcoin, hcount⟩ := htotal (h.counted law hid ChainState.counts_coin (limits_count law))
  obtain ⟨hvalue, -⟩ := htotal (h.counted law hid ChainState.counts_value (limits_value law hid))
  have hlength := h.length_stackOf law
  rw [List.map_const', List.sum_replicate, hlength, smul_eq_mul] at hcount
  have hsmall : FMap.total (CoinEntry.weigh fun _ => 1) c.db.db.coin < 2 ^ 63 := by omega
  refine ⟨Prod.ext ?_ ?_, hsmall, hmoney⟩
  · exact hcoin.trans (Nat.mod_eq_of_lt (by omega))
  · exact hvalue.trans (Nat.mod_eq_of_lt (by omega))

theorem Visited.checkedConnect_eq (law : env.Lawful) (hid : OutputsFaithful env)
    (hhalving : env.network.halvingInterval = 210000) (h : Visited env c)
    (hfresh : NoRecreate env c.notified) (hheight : c.tip.height < 2 ^ 32)
    (hentry : c.db.getEntryByHash entry.hash = some entry) (hprev : entry.prevBlock = c.tip.hash)
    (hnew : Ledger.FreshAll c.db.db.coin (block.ledgerTxs env entry.height)) {view : CoinView}
    {state : DeploymentState}
    (hverify : c.verifyContext env block c.tip = .ok (c', .ok (view, state))) :
    c'.db.checkedConnect env entry block view = c'.db.connect env entry block view := by
  have inv := h.inv law
  have hcoins := (h.origins law).coins
  obtain ⟨hcounts, hcount, hvalue⟩ := h.counts_eq law hid hhalving hfresh hheight
  obtain ⟨⟨cache, rfl⟩, -, hpassed⟩ := verifyContext_eq_ok hverify
  obtain ⟨hbody, hinputs⟩ := hpassed view state rfl
  have wf := Block.checkBody_eq_ok hbody
  have hfunded : block.Funded env :=
    (balanced_of_verifyInputs wf hinputs).of_withCache.funded hid wf hcoins
  obtain ⟨_, _, htxs, -⟩ := verifyInputs_eq_ok hinputs
  have hview := verifyTransactions_view htxs
  have hheight' : entry.height = c.tip.height + 1 :=
    inv.tree.height_eq hentry (by rw [hprev, inv.tip_stored])
  obtain ⟨journal, happly, -⟩ := blockView_eq_ok (h.undoInv law).unspent hview
  rw [← hheight'] at happly
  change Ledger.applyAll c.db.db.coin (block.ledgerTxs env entry.height) = _ at happly
  rw [wf.ledgerTxs_eq] at hnew happly
  have hstart : (c.db.state.connect block).counts = tally c.db.db.coin := hcounts
  refine ChainDB.checkedConnect_eq (inv.withCache cache).idle ?_
  exact (ChainDB.checkedConnectTransactions_eq hid
    (blockView_made hcoins CoinView.made_empty hview).1 hcoins happly hnew hstart
    (ChainDB.fitsAll_block wf hfunded hcoins hnew hcount hvalue)).1

/-- The books count the genesis transaction and those of the line. -/
theorem books_tx_le {line : List (ChainEntry × Block)} {books : Books}
    (h : Books.ofLine env line = some books) : books.tx
      ≤ env.genesisBlock.txdata.length + (line.map fun item => item.2.txdata.length).sum := by
  induction line using List.reverseRecOn generalizing books with
  | nil =>
    cases h
    exact (Nat.mod_le _ _).trans_eq (by simp)
  | append_singleton line item ih =>
    rw [Books.ofLine_append_singleton] at h
    obtain ⟨before, hbefore, hconnect⟩ := Option.bind_eq_some_iff.1 h
    obtain ⟨-, -, -, htx, -⟩ := Books.connect_eq_some.1 hconnect
    have hle : Word.add 64 before.tx item.2.txdata.length ≤ before.tx + item.2.txdata.length :=
      Nat.mod_le _ _
    have := ih hbefore
    rw [List.map_append, List.sum_append, List.map_singleton, List.sum_singleton, htx]
    omega

/-- The books under the tip. -/
theorem Visited.exists_booksBelow (law : env.Lawful) (h : Visited env c)
    (hfresh : NoRecreate env c.notified) (hgen : c.tip.isGenesis = false)
    (hblock : c.db.getBlock c.tip.hash = some block) :
    ∃ line before, stackOf c.notified = line ++ [(c.tip, block)]
      ∧ Books.ofLine env line = some before
      ∧ before.connect env (c.tip, block) = some c.db.books := by
  obtain ⟨line, hstack⟩ := exists_below (h.inv law) (h.told law) hgen hblock
  have hbooks := (h.replayInv law hfresh).books
  rw [hstack, Books.ofLine_append_singleton] at hbooks
  obtain ⟨before, hbefore, hconnect⟩ := Option.bind_eq_some_iff.1 hbooks
  exact ⟨line, before, hstack, hbefore, hconnect⟩

/-- The blocks of the main chain above the genesis block are well-formed. -/
theorem ReplayInv.wellFormed (replay : c.ReplayInv env) (inv : c.Inv env) :
    ∀ item ∈ stackOf c.notified, item.2.WellFormed := by
  intro item hitem
  obtain ⟨hgen, hentry, hblock⟩ := replay.line.mem inv.tree inv.tip_stored item hitem
  refine Block.checkBody_eq_ok (inv.block_body hblock ?_)
  rintro heq
  rw [heq, inv.tree.genesis] at hentry
  rw [← Option.some.inj hentry] at hgen
  cases hgen

/-- The tip is not more transactions than are counted. -/
theorem Visited.length_le_tx (law : env.Lawful) (h : Visited env c)
    (hfresh : NoRecreate env c.notified) (hgenesis : env.genesisBlock.txdata.length = 1)
    (hheight : c.tip.height < 2 ^ 32) (hgen : c.tip.isGenesis = false)
    (hblock : c.db.getBlock c.tip.hash = some block) : block.txdata.length ≤ c.db.state.tx := by
  have inv := h.inv law
  have replay := h.replayInv law hfresh
  obtain ⟨line, before, hstack, hbefore, hconnect⟩ := h.exists_booksBelow law hfresh hgen hblock
  obtain ⟨-, -, -, htx, -⟩ := Books.connect_eq_some.1 hconnect
  have hwf := replay.wellFormed inv
  have hsum : ((stackOf c.notified).map fun item => item.2.txdata.length).sum
      ≤ (stackOf c.notified).length * 1000000 := by
    refine (List.sum_le_card_nsmul _ 1000000 fun n hn => ?_).trans_eq (by simp)
    obtain ⟨item, hitem, rfl⟩ := List.mem_map.1 hn
    exact (Nat.le_add_right _ _).trans (hwf item hitem).length_le
  have hlength := h.length_stackOf law
  have hle := books_tx_le hbefore
  rw [hlength, hstack, List.map_append, List.sum_append, List.map_singleton, List.sum_singleton]
    at hsum
  dsimp only at hsum
  change c.db.state.tx = _ at htx
  rw [htx, Word.add_eq (by dsimp only; omega)]
  exact Nat.le_add_left _ _

/-- The coins there were before the tip. -/
theorem Visited.exists_before (law : env.Lawful) (hid : OutputsFaithful env)
    (hhalving : env.network.halvingInterval = 210000) (h : Visited env c)
    (hfresh : NoRecreate env c.notified) (hheight : c.tip.height < 2 ^ 32)
    (hgen : c.tip.isGenesis = false) (hblock : c.db.getBlock c.tip.hash = some block) :
    ∃ m journal, Ledger.applyAll m (block.ledgerTxs env c.tip.height)
        = some (c.db.db.coin, journal)
      ∧ MadeCoins env m ∧ Ledger.FreshAll m (block.ledgerTxs env c.tip.height)
      ∧ (tally m).1 < 2 ^ 63 ∧ (tally m).2 ≤ MAX_MONEY := by
  have replay := h.replayInv law hfresh
  obtain ⟨line, before, hstack, hbefore, hconnect⟩ := h.exists_booksBelow law hfresh hgen hblock
  obtain ⟨journal, happly, -⟩ := Books.connect_eq_some.1 hconnect
  -- the line below is worth no more than the whole
  have hworth : ∀ {stat weight limit}, c.Counted env stat weight limit →
      MadeCoins env before.coin ∧ FMap.total (CoinEntry.weigh weight) before.coin
        ≤ ((stackOf c.notified).map fun item => limit item.1.height).sum := by
    rintro stat weight limit ⟨coins, worth, hworth, -, -⟩
    rw [hstack] at hworth ⊢
    obtain ⟨below, _, worth₀, hbelow, -, -⟩ := hworth.exists_last
    obtain rfl := hbelow.books hbefore
    refine ⟨hbelow.made, hbelow.total_le.trans (hbelow.worth_le.trans ?_)⟩
    rw [List.map_append, List.sum_append]
    exact Nat.le_add_right _ _
  obtain ⟨hmade, hcount⟩ := hworth (h.counted law hid ChainState.counts_coin (limits_count law))
  obtain ⟨-, hvalue⟩ :=
    hworth (h.counted law hid ChainState.counts_value (limits_value law hid))
  rw [h.sum_subsidies law] at hvalue
  have hlength := h.length_stackOf law
  rw [List.map_const', List.sum_replicate, hlength, smul_eq_mul] at hcount
  refine ⟨before.coin, journal, happly, hmade, replay.fresh hstack hbefore, ?_,
    hvalue.trans (issued_le_maxMoney hhalving _)⟩
  change FMap.total (CoinEntry.weigh fun _ => 1) before.coin < 2 ^ 63
  omega

/-- None of the subtractions of `disconnect` goes below zero. -/
theorem Visited.checkedDisconnect_eq (law : env.Lawful) (hid : OutputsFaithful env)
    (hhalving : env.network.halvingInterval = 210000)
    (hgenesis : env.genesisBlock.txdata.length = 1) (h : Visited env c)
    (hfresh : NoRecreate env c.notified) (hheight : c.tip.height < 2 ^ 32)
    (hgen : c.tip.isGenesis = false) (hblock : c.db.getBlock c.tip.hash = some block) :
    c.db.checkedDisconnect env c.tip block = c.db.disconnect env c.tip block := by
  have inv := h.inv law
  have wf := inv.tip_wellFormed hgen hblock
  obtain ⟨hcounts, -⟩ := h.counts_eq law hid hhalving hfresh hheight
  obtain ⟨m, journal, happly, hm, hnew, hcount, hvalue⟩ :=
    h.exists_before law hid hhalving hfresh hheight hgen hblock
  have hfunded : block.Funded env := by
    obtain ⟨line, hstack⟩ := exists_below (h.inv law) (h.told law) hgen hblock
    exact h.funded law hid (c.tip, block) (hstack ▸ List.mem_append_right _ List.mem_cons_self)
  refine ChainDB.checkedDisconnect_eq inv.idle
    (h.length_le_tx law hfresh hgenesis hheight hgen hblock) fun undo hundo => ?_
  obtain ⟨stored, hstored, rfl⟩ := Option.map_eq_some_iff.1 hundo
  obtain ⟨b, hb, haligned⟩ := (h.origins law).record hstored
  cases hblock.symm.trans hb
  have hitems : stored.reload.items.map CoinEntry.output = journal.map CoinEntry.output := by
    rw [stored.map_output_reload]
    exact outputs_unique hid (outputs_of_made haligned) (outputs_of_made
      (@spends_ledgerTxs env c.tip.height block ▸
        Ledger.applyAll_forall₂ hm (Worth.made_ledgerTxs c.tip.height block) happly))
  have hunspent : ∀ coin ∈ stored.reload.items, coin.spent = false := by simp [UndoCoins.reload]
  rw [wf.ledgerTxs_eq] at happly hnew
  have hstart : (c.db.state.disconnect block).counts = tally c.db.db.coin := hcounts
  obtain ⟨view, after, hchecked, hplain, -⟩ := ChainDB.checkedDisconnectTransactions_eq
    CoinView.empty [] hunspent happly hnew hitems hstart
    (ChainDB.fitsAll_block wf hfunded hm hnew hcount hvalue)
  rw [List.nil_append] at hchecked hplain
  exact hchecked.trans hplain.symm

/-- The statistics match the coins in every state of a run in which nothing is recreated, and no
subtraction goes below zero when a verified block is connected or the tip is disconnected. -/
theorem Visited.statistics (law : env.Lawful) (hid : OutputsFaithful env)
    (hhalving : env.network.halvingInterval = 210000)
    (hgenesis : env.genesisBlock.txdata.length = 1) (h : Visited env c)
    (hfresh : NoRecreate env c.notified) (hheight : c.tip.height < 2 ^ 32) :
    c.db.state.coin = c.db.db.coin.keys.card
      ∧ c.db.state.value = FMap.total (CoinEntry.weigh TxOut.value) c.db.db.coin
      ∧ (∀ block entry c' view state, c.db.getEntryByHash entry.hash = some entry →
        entry.prevBlock = c.tip.hash →
        c.verifyContext env block c.tip = .ok (c', .ok (view, state)) →
        Ledger.FreshAll c.db.db.coin (block.ledgerTxs env entry.height) →
        c'.db.checkedConnect env entry block view = c'.db.connect env entry block view)
      ∧ (c.tip.isGenesis = false → ∀ block, c.db.getBlock c.tip.hash = some block →
        c.db.checkedDisconnect env c.tip block = c.db.disconnect env c.tip block) := by
  obtain ⟨hcounts, -⟩ := h.counts_eq law hid hhalving hfresh hheight
  refine ⟨?_, congrArg Prod.snd hcounts, ?_, ?_⟩
  · exact (congrArg Prod.fst hcounts).trans (FMap.count_eq _)
  · intro block entry c' view state hentry hprev hverify hnew
    exact h.checkedConnect_eq law hid hhalving hfresh hheight hentry hprev hnew hverify
  · intro hgen block hblock
    exact h.checkedDisconnect_eq law hid hhalving hgenesis hfresh hheight hgen hblock

/-- The statistics after the first block. -/
theorem statistics_first : ∃ c, Reachable Small.env c ∧ c.tip.height = 1
    ∧ c.db.state.coin = c.db.db.coin.keys.card
    ∧ c.db.state.value = FMap.total (CoinEntry.weigh TxOut.value) c.db.db.coin := by
  obtain ⟨c, hc, hP⟩ := exists_reachable Small.env [.add 100 Small.first] oneConnected (by decide)
    (by decide +kernel)
  have hheight := eq_of_beq (Bool.and_eq_true_iff.1 hP).1
  obtain ⟨hcoin, hvalue, -⟩ := Visited.statistics Small.lawful (fun _ _ => Small.output_eq_of_txid)
    rfl rfl (hc.visited Small.lawful) (NoRecreate.of_oneConnected hP) (by rw [hheight]; decide)
  exact ⟨c, hc, hheight, hcoin, hvalue⟩

end Chain

end BitcoinNode
