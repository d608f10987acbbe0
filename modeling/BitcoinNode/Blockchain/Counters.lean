import BitcoinNode.Blockchain.Origins
import BitcoinNode.Library.Accounts

/-!
# Counters and coins

The chain state counts the unspent coins and adds up their value in 64-bit words, one output at a
time. Modulo `2 ^ 64` a counter is what the blocks of the main chain have created less what they
have spent, whatever was connected and disconnected in between.
-/

namespace BitcoinNode

/-! ## Outputs by outpoints -/

variable {env : Env}

/-- The output is that of a transaction with the id of the outpoint. -/
def OutputOf (env : Env) (o : OutPoint) (output : TxOut) : Prop :=
  ∃ tx, env.txid tx = o.txid ∧ tx.output[o.vout]? = some output

/-- Transaction ids determine outputs. -/
def OutputsFaithful (env : Env) : Prop :=
  ∀ tx tx' : Transaction, env.txid tx = env.txid tx' → tx.output = tx'.output

theorem OutputOf.unique (hid : OutputsFaithful env) {o : OutPoint} {output output' : TxOut}
    (h : OutputOf env o output) (h' : OutputOf env o output') : output = output' := by
  obtain ⟨tx, htx, houtput⟩ := h
  obtain ⟨tx', htx', houtput'⟩ := h'
  rw [hid tx tx' (htx.trans htx'.symm), houtput'] at houtput
  exact (Option.some.inj houtput).symm

theorem outputs_unique (hid : OutputsFaithful env) {os : List OutPoint}
    {outputs outputs' : List TxOut}
    (h : List.Forall₂ (OutputOf env) os outputs) (h' : List.Forall₂ (OutputOf env) os outputs') :
    outputs = outputs' := by
  induction h generalizing outputs' with
  | nil =>
    cases h'
    rfl
  | cons ho _ ih =>
    cases h' with
    | cons ho' hrest => rw [ho.unique hid ho', ih hrest]

theorem outputs_of_made {os : List OutPoint} {coins : List CoinEntry}
    (h : List.Forall₂ (CoinEntry.Made env) os coins) :
    List.Forall₂ (OutputOf env) os (coins.map CoinEntry.output) :=
  List.forall₂_map_right_iff.2 h

theorem UndoCoins.map_output_reload (undo : UndoCoins) :
    undo.reload.items.map CoinEntry.output = undo.items.map CoinEntry.output := by
  simp [reload]

theorem CoinView.Made.getOutput {view : CoinView} (h : view.Made env) {o : OutPoint}
    {output : TxOut} (houtput : view.getOutput o = some output) : OutputOf env o output := by
  obtain ⟨coin, hcoin, rfl⟩ := Option.map_eq_some_iff.1 houtput
  exact h o coin hcoin

/-! ## One counter -/

namespace ChainState

/-- A number of the chain state to which each coin adds a weight, modulo `2 ^ 64`. -/
structure Counts (stat : ChainState → Nat) (weight : TxOut → Nat) : Prop where
  add (state : ChainState) (coin : TxOut) :
    stat (state.add coin) = Word.add 64 (stat state) (weight coin)
  spend (state : ChainState) (coin : TxOut) :
    stat (state.spend coin) = Word.sub 64 (stat state) (weight coin)
  connect (state : ChainState) (block : Block) : stat (state.connect block) = stat state
  disconnect (state : ChainState) (block : Block) : stat (state.disconnect block) = stat state
  commit (state : ChainState) (hash : BlockHash) : stat (state.commit hash) = stat state
  default : stat default = 0

theorem counts_coin : Counts coin fun _ => 1 where
  add _ _ := rfl
  spend _ _ := rfl
  connect _ _ := rfl
  disconnect _ _ := rfl
  commit _ _ := rfl
  default := rfl

theorem counts_value : Counts value TxOut.value where
  add _ _ := rfl
  spend _ _ := rfl
  connect _ _ := rfl
  disconnect _ _ := rfl
  commit _ _ := rfl
  default := rfl

end ChainState

/-- The weight of a stored coin. -/
def CoinEntry.weigh (weight : TxOut → Nat) (coin : CoinEntry) : Nat := weight coin.output

theorem map_weigh {weight : TxOut → Nat} (coins : List CoinEntry) :
    coins.map (CoinEntry.weigh weight) = (coins.map CoinEntry.output).map weight := by
  rw [List.map_map]
  rfl

namespace ChainDB

variable {stat : ChainState → Nat} {weight : TxOut → Nat} {view view' : CoinView}
  {pending pending' : ChainState}

/-- What outputs add to a counter. -/
def weightOf (env : Env) (weight : TxOut → Nat) (outputs : List TxOut) : Nat :=
  ((outputs.filter fun output => !env.isProvablyUnspendable output.scriptPubkey).map weight).sum

theorem weightOf_cons (output : TxOut) (outputs : List TxOut) :
    weightOf env weight (output :: outputs)
      = (if env.isProvablyUnspendable output.scriptPubkey then 0 else weight output)
        + weightOf env weight outputs := by
  unfold weightOf
  by_cases h : env.isProvablyUnspendable output.scriptPubkey <;> simp [h]

theorem weightOf_reverse (outputs : List TxOut) :
    weightOf env weight outputs.reverse = weightOf env weight outputs := by
  unfold weightOf
  rw [List.filter_reverse, List.map_reverse, List.sum_reverse]

theorem weightOf_le (outputs : List TxOut) :
    weightOf env weight outputs ≤ (outputs.map weight).sum :=
  (List.filter_sublist.map _).sum_le_sum fun _ _ => Nat.zero_le _

/-- The created coins weigh what the outputs weigh. -/
theorem sum_createdCoins (tx : Transaction) (height : Nat) (outputs : List TxOut) (index : Nat) :
    ((createdCoins env tx height outputs index).map fun kv => weight kv.2.output).sum
      = weightOf env weight outputs := by
  induction outputs generalizing index with
  | nil => rfl
  | cons output outputs ih =>
    rw [weightOf_cons, createdCoins]
    split <;> simp [ih]

theorem created_ledgerTxs (height : Nat) (block : Block) :
    Ledger.created (CoinEntry.weigh weight) (block.ledgerTxs env height)
      = (block.txdata.map fun tx => weightOf env weight tx.output).sum := by
  unfold Ledger.created Block.ledgerTxs
  rw [List.map_map]
  congr 2
  funext tx
  exact sum_createdCoins tx height tx.output 0

/-- What a disconnected block takes away, in its order. -/
theorem created_ledgerTxs_reverse (height : Nat) (block : Block) :
    Ledger.created (CoinEntry.weigh weight) (block.ledgerTxs env height)
      = (block.txdata.zipIdx.reverse.map fun tx => weightOf env weight tx.1.output).sum := by
  have hmap : block.txdata.zipIdx.map (fun tx => weightOf env weight tx.1.output)
      = block.txdata.map fun tx => weightOf env weight tx.output := by
    conv_rhs => rw [← List.zipIdx_map_fst 0 block.txdata, List.map_map]
    rfl
  rw [List.map_reverse, List.sum_reverse, hmap, created_ledgerTxs]

section Keeps

/-! ### What adding and spending keep -/

variable {P : ChainState → Prop} (hadd : ∀ s o, P s → P (s.add o))
  (hspend : ∀ s o, P s → P (s.spend o))

include hadd in
theorem addCoins_keeps {outputs : List TxOut} (h : P pending) :
    P (addCoins env outputs pending) := by
  induction outputs generalizing pending with
  | nil => exact h
  | cons output outputs ih =>
    rw [addCoins, List.foldl_cons]
    split_ifs
    · exact ih h
    · exact ih (hadd _ _ h)

include hspend in
theorem dropCoins_keeps {outputs : List TxOut} (h : P pending) :
    P (dropCoins env outputs pending) := by
  induction outputs generalizing pending with
  | nil => exact h
  | cons output outputs ih =>
    rw [dropCoins, List.foldl_cons]
    split_ifs
    · exact ih h
    · exact ih (hspend _ _ h)

include hspend in
theorem spendCoins_keeps {inputs : List TxIn} (h : P pending)
    (hrun : spendCoins view inputs pending = .ok pending') : P pending' := by
  induction inputs generalizing pending with
  | nil =>
    cases hrun
    exact h
  | cons input inputs ih =>
    rw [spendCoins] at hrun
    split at hrun
    · cases hrun
    · exact ih (hspend _ _ h) hrun

include hadd hspend in
theorem connectTransactions_keeps {txs : List Transaction} {i : Nat} (h : P pending)
    (hrun : connectTransactions env view txs i pending = .ok pending') : P pending' := by
  induction txs generalizing i pending with
  | nil =>
    cases hrun
    exact h
  | cons tx txs ih =>
    rw [connectTransactions] at hrun
    split_ifs at hrun
    · obtain ⟨spent, hspent, hrun⟩ := bind_eq_ok.1 hrun
      exact ih (addCoins_keeps hadd (spendCoins_keeps hspend h hspent)) hrun
    · exact ih (addCoins_keeps hadd h) hrun

include hadd in
theorem restoreCoins_keeps {inputs : List TxIn} {undo undo' : UndoCoins} (h : P pending)
    (hrun : restoreCoins inputs undo view pending = .ok (undo', view', pending')) : P pending' := by
  induction inputs generalizing undo view pending with
  | nil =>
    cases hrun
    exact h
  | cons input inputs ih =>
    rw [restoreCoins, bind_eq_ok] at hrun
    obtain ⟨⟨undo₁, view₁⟩, -, hrun⟩ := hrun
    dsimp only at hrun
    split at hrun
    · cases hrun
    · exact ih (hadd _ _ h) hrun

include hadd hspend in
theorem disconnectTransactions_keeps {txs : List (Transaction × Nat)} {height : Nat}
    {undo undo' : UndoCoins} (h : P pending)
    (hrun : disconnectTransactions env height txs undo view pending =
      .ok (undo', view', pending')) :
    P pending' := by
  induction txs generalizing undo view pending with
  | nil =>
    cases hrun
    exact h
  | cons tx txs ih =>
    obtain ⟨tx, i⟩ := tx
    rw [disconnectTransactions] at hrun
    split_ifs at hrun
    · obtain ⟨⟨undo₁, view₁, pending₁⟩, hrestore, hrun⟩ := bind_eq_ok.1 hrun
      exact ih (dropCoins_keeps hspend (restoreCoins_keeps hadd h hrestore)) hrun
    · exact ih (dropCoins_keeps hspend h) hrun

end Keeps

/-! ### What the loops do to a counter -/

variable (hstat : ChainState.Counts stat weight)

include hstat

theorem addCoins_modEq (outputs : List TxOut) (pending : ChainState) :
    stat (addCoins env outputs pending) ≡
      stat pending + weightOf env weight outputs [MOD 2 ^ 64] := by
  induction outputs generalizing pending with
  | nil => exact Nat.ModEq.rfl
  | cons output outputs ih =>
    rw [addCoins, List.foldl_cons, weightOf_cons]
    split_ifs with hunspendable
    · simpa [addCoins] using ih pending
    · have hrest := ih (pending.add output)
      rw [hstat.add] at hrest
      rw [← Nat.add_assoc]
      exact hrest.trans ((Nat.mod_modEq _ _).add_right _)

theorem spend_modEq (output : TxOut) (pending : ChainState) :
    stat (pending.spend output) + weight output ≡ stat pending [MOD 2 ^ 64] := by
  rw [hstat.spend]
  exact Word.sub_add_modEq _ _ _

theorem dropCoins_modEq (outputs : List TxOut) (pending : ChainState) :
    stat (dropCoins env outputs pending) + weightOf env weight outputs ≡
      stat pending [MOD 2 ^ 64] := by
  induction outputs generalizing pending with
  | nil => exact Nat.ModEq.rfl
  | cons output outputs ih =>
    rw [dropCoins, List.foldl_cons, weightOf_cons]
    split_ifs with hunspendable
    · simpa [dropCoins] using ih pending
    · have hrest := ih (pending.spend output)
      rw [Nat.add_left_comm, Nat.add_comm (weight output)]
      exact (hrest.add_right _).trans (spend_modEq hstat output pending)

theorem spendCoins_modEq {inputs : List TxIn} (hmade : view.Made env)
    (h : spendCoins view inputs pending = .ok pending') :
    ∃ outputs, List.Forall₂ (OutputOf env) (inputs.map TxIn.previousOutput) outputs
      ∧ stat pending' + (outputs.map weight).sum ≡ stat pending [MOD 2 ^ 64] := by
  induction inputs generalizing pending with
  | nil =>
    cases h
    exact ⟨[], .nil, Nat.ModEq.rfl⟩
  | cons input inputs ih =>
    rw [spendCoins] at h
    split at h
    · cases h
    rename_i output houtput
    obtain ⟨outputs, houtputs, hrest⟩ := ih h
    refine ⟨output :: outputs, .cons (hmade.getOutput houtput) houtputs, ?_⟩
    rw [List.map_cons, List.sum_cons, Nat.add_left_comm, Nat.add_comm (weight output)]
    exact (hrest.add_right _).trans (spend_modEq hstat output pending)

/-- Connecting transactions changes a counter by what they create and what they spend. -/
theorem connectTransactions_modEq {txs : List Transaction} {i : Nat} (hmade : view.Made env)
    (h : connectTransactions env view txs i pending = .ok pending') :
    ∃ outputs, List.Forall₂ (OutputOf env) ((txs.zipIdx i).flatMap spendsAt) outputs
      ∧ stat pending' + (outputs.map weight).sum
        ≡ stat pending + (txs.map fun tx => weightOf env weight tx.output).sum [MOD 2 ^ 64] := by
  induction txs generalizing i pending with
  | nil =>
    cases h
    exact ⟨[], .nil, Nat.ModEq.rfl⟩
  | cons tx txs ih =>
    rw [connectTransactions] at h
    obtain ⟨spent, hspent, h⟩ : ∃ spent, (if i > 0 then spendCoins view tx.input pending
        else pure pending) = .ok spent
        ∧ connectTransactions env view txs (i + 1) (addCoins env tx.output spent)
          = .ok pending' := by
      split_ifs at h ⊢
      · exact bind_eq_ok.1 h
      · exact ⟨pending, rfl, h⟩
    have hfirst : ∃ outputs, List.Forall₂ (OutputOf env) (spendsAt (tx, i)) outputs
        ∧ stat spent + (outputs.map weight).sum ≡ stat pending [MOD 2 ^ 64] := by
      unfold spendsAt
      split_ifs at hspent ⊢
      · exact spendCoins_modEq hstat hmade hspent
      · cases hspent
        exact ⟨[], .nil, Nat.ModEq.rfl⟩
    obtain ⟨outputs, houtputs, hspends⟩ := hfirst
    obtain ⟨rest, hrest, htxs⟩ := ih h
    refine ⟨outputs ++ rest, ?_, ?_⟩
    · rw [List.zipIdx_cons, List.flatMap_cons]
      exact List.rel_append houtputs hrest
    · rw [List.map_append, List.sum_append, List.map_cons, List.sum_cons]
      have hadd := @addCoins_modEq env _ _ hstat tx.output spent
      generalize (txs.map fun tx => weightOf env weight tx.output).sum = created at htxs ⊢
      calc stat pending' + ((outputs.map weight).sum + (rest.map weight).sum)
          = stat pending' + (rest.map weight).sum + (outputs.map weight).sum := by omega
        _ ≡ stat (addCoins env tx.output spent) + created + (outputs.map weight).sum [MOD 2 ^ 64] :=
          htxs.add_right _
        _ ≡ stat spent + weightOf env weight tx.output + created + (outputs.map weight).sum
            [MOD 2 ^ 64] := (hadd.add_right _).add_right _
        _ = stat spent + (outputs.map weight).sum + (weightOf env weight tx.output + created) := by
          omega
        _ ≡ stat pending + (weightOf env weight tx.output + created) [MOD 2 ^ 64] :=
          hspends.add_right _

/-- Restoring inputs adds the coins that come from the end of the record. -/
theorem restoreCoins_modEq {inputs : List TxIn} {undo undo' : UndoCoins}
    (h : restoreCoins inputs undo view pending = .ok (undo', view', pending')) :
    ∃ coins : List CoinEntry, undo.items = undo'.items ++ coins
      ∧ stat pending' ≡ stat pending + (coins.map fun coin => weight coin.output).sum
        [MOD 2 ^ 64] := by
  induction inputs generalizing undo view pending with
  | nil =>
    cases h
    exact ⟨[], by simp, Nat.ModEq.rfl⟩
  | cons input inputs ih =>
    rw [restoreCoins, bind_eq_ok] at h
    obtain ⟨⟨undo₁, view₁⟩, happly, h⟩ := h
    unfold UndoCoins.apply at happly
    split at happly
    · cases happly
    rename_i coin hlast
    cases happly
    dsimp only at h
    have houtput : CoinView.getOutput ⟨view.map.insert input.previousOutput coin, view.undo⟩
        input.previousOutput = some coin.output := by
      simp [CoinView.getOutput, CoinView.getEntry]
    rw [houtput] at h
    obtain ⟨coins, hcoins, hrest⟩ := ih h
    refine ⟨coins ++ [coin], ?_, ?_⟩
    · obtain ⟨front, hfront⟩ := List.getLast?_eq_some_iff.1 hlast
      rw [hfront, List.dropLast_concat] at hcoins
      have hfront' : front = undo'.items ++ coins := hcoins
      rw [hfront, hfront', List.append_assoc]
    · rw [hstat.add] at hrest
      rw [List.map_append, List.sum_append, List.map_singleton, List.sum_singleton]
      calc stat pending'
          ≡ Word.add 64 (stat pending) (weight coin.output)
            + (coins.map fun coin => weight coin.output).sum [MOD 2 ^ 64] := hrest
        _ ≡ stat pending + weight coin.output
            + (coins.map fun coin => weight coin.output).sum [MOD 2 ^ 64] :=
          (Nat.mod_modEq _ _).add_right _
        _ = _ := by omega

/-- Disconnecting transactions undoes what connecting them did to a counter. -/
theorem disconnectTransactions_modEq {txs : List (Transaction × Nat)} {height : Nat}
    {undo undo' : UndoCoins}
    (h : disconnectTransactions env height txs undo view pending = .ok (undo', view', pending')) :
    ∃ coins : List CoinEntry, undo.items = undo'.items ++ coins
      ∧ stat pending' + (txs.map fun tx => weightOf env weight tx.1.output).sum
        ≡ stat pending + (coins.map fun coin => weight coin.output).sum [MOD 2 ^ 64] := by
  induction txs generalizing undo view pending with
  | nil =>
    cases h
    exact ⟨[], by simp, Nat.ModEq.rfl⟩
  | cons tx txs ih =>
    obtain ⟨tx, i⟩ := tx
    obtain ⟨⟨undo₁, view₁, pending₁⟩, hrestore, h⟩ : ∃ r : UndoCoins × CoinView × ChainState,
        (if i > 0 then restoreCoins tx.input.reverse undo view pending
          else pure (undo, view, pending)) = .ok r
        ∧ disconnectTransactions env height txs r.1 (r.2.1.removeTx env tx height)
          (dropCoins env tx.output.reverse r.2.2) = .ok (undo', view', pending') := by
      rw [disconnectTransactions] at h
      split_ifs at h ⊢
      · exact bind_eq_ok.1 h
      · exact ⟨_, rfl, h⟩
    have hfirst : ∃ coins : List CoinEntry, undo.items = undo₁.items ++ coins
        ∧ stat pending₁ ≡ stat pending + (coins.map fun coin => weight coin.output).sum
          [MOD 2 ^ 64] := by
      split_ifs at hrestore
      · exact restoreCoins_modEq hstat hrestore
      · cases hrestore
        exact ⟨[], by simp, Nat.ModEq.rfl⟩
    obtain ⟨coins, hcoins, hadd⟩ := hfirst
    obtain ⟨rest, hrest, htxs⟩ := ih h
    refine ⟨rest ++ coins, by rw [hcoins, hrest, List.append_assoc], ?_⟩
    rw [List.map_append, List.sum_append, List.map_cons, List.sum_cons]
    have hdrop := @dropCoins_modEq env _ _ hstat tx.output.reverse pending₁
    rw [weightOf_reverse] at hdrop
    dsimp only at htxs ⊢
    generalize (txs.map fun tx => weightOf env weight tx.1.output).sum = created at htxs ⊢
    generalize (rest.map fun coin => weight coin.output).sum = restWeight at htxs ⊢
    calc stat pending' + (weightOf env weight tx.output + created)
        = stat pending' + created + weightOf env weight tx.output := by omega
      _ ≡ stat (dropCoins env tx.output.reverse pending₁) + restWeight
          + weightOf env weight tx.output [MOD 2 ^ 64] := htxs.add_right _
      _ = stat (dropCoins env tx.output.reverse pending₁) + weightOf env weight tx.output
          + restWeight := by omega
      _ ≡ stat pending₁ + restWeight [MOD 2 ^ 64] := hdrop.add_right _
      _ ≡ stat pending + (coins.map fun coin => weight coin.output).sum + restWeight
          [MOD 2 ^ 64] := hadd.add_right _
      _ = _ := by omega

end ChainDB

/-! ## What a line of blocks is worth -/

variable {weight : TxOut → Nat} {limit : Nat → Nat} {line : List (ChainEntry × Block)}
  {coins : FMap OutPoint CoinEntry} {worth : Nat}

/-- The coins that a line of blocks leaves, and what it has created less what it has spent; each
block creates at most a limit more than it spends. -/
inductive Worth (env : Env) (weight : TxOut → Nat) (limit : Nat → Nat) :
    List (ChainEntry × Block) → FMap OutPoint CoinEntry → Nat → Prop where
  | genesis : Worth env weight limit [] ∅ 0
  | block {line : List (ChainEntry × Block)} {e : ChainEntry} {b : Block}
      {coins coins' : FMap OutPoint CoinEntry} {journal : List CoinEntry} {worth worth' : Nat} :
      Worth env weight limit line coins worth →
      Ledger.applyAll coins (b.ledgerTxs env e.height) = some (coins', journal) →
      Ledger.created (CoinEntry.weigh weight) (b.ledgerTxs env e.height)
        ≤ (journal.map (CoinEntry.weigh weight)).sum + limit e.height →
      worth' + (journal.map (CoinEntry.weigh weight)).sum
        = worth + Ledger.created (CoinEntry.weigh weight) (b.ledgerTxs env e.height) →
      Worth env weight limit (line ++ [(e, b)]) coins' worth'

namespace Worth

theorem exists_last {e : ChainEntry} {b : Block}
    (h : Worth env weight limit (line ++ [(e, b)]) coins worth) :
    ∃ before journal worth₀, Worth env weight limit line before worth₀
      ∧ Ledger.applyAll before (b.ledgerTxs env e.height) = some (coins, journal)
      ∧ worth + (journal.map (CoinEntry.weigh weight)).sum
        = worth₀ + Ledger.created (CoinEntry.weigh weight) (b.ledgerTxs env e.height) := by
  generalize hline : line ++ [(e, b)] = whole at h
  cases h with
  | genesis => simp at hline
  | block hbefore happly _ hworth =>
    obtain ⟨rfl, hlast⟩ := List.append_inj' hline rfl
    cases hlast
    exact ⟨_, _, _, hbefore, happly, hworth⟩

/-- The coins are worth no more than the line. -/
theorem total_le (h : Worth env weight limit line coins worth) :
    FMap.total (CoinEntry.weigh weight) coins ≤ worth := by
  induction h with
  | genesis => exact (FMap.total_empty _).le
  | block _ happly _ hworth ih =>
    have := Ledger.total_applyAll_le (CoinEntry.weigh weight) happly
    dsimp only at this
    omega

theorem worth_le (h : Worth env weight limit line coins worth) :
    worth ≤ (line.map fun item => limit item.1.height).sum := by
  induction h with
  | genesis => exact Nat.zero_le _
  | block _ _ hlimit hworth ih =>
    rw [List.map_append, List.sum_append, List.map_singleton, List.sum_singleton]
    dsimp only
    omega

theorem made_ledgerTxs (height : Nat) (b : Block) :
    ∀ tx ∈ b.ledgerTxs env height, ∀ kv ∈ tx.creates, kv.2.Made env kv.1 := by
  intro tx htx kv hkv
  obtain ⟨tx, -, rfl⟩ := List.mem_map.1 htx
  obtain ⟨i, output, houtput, -, rfl⟩ := mem_createdCoins.1 hkv
  exact ⟨tx, rfl, by simpa using houtput⟩

theorem made (h : Worth env weight limit line coins worth) : MadeCoins env coins := by
  induction h with
  | genesis => exact fun _ _ hcoin => by simp at hcoin
  | block _ happly _ _ ih => exact (Ledger.applyAll_values ih (made_ledgerTxs _ _) happly).2

theorem books (h : Worth env weight limit line coins worth) {books : Books}
    (hbooks : Books.ofLine env line = some books) : books.coin = coins := by
  induction h generalizing books with
  | genesis =>
    cases hbooks
    rfl
  | block _ happly _ _ ih =>
    rw [Books.ofLine_append_singleton] at hbooks
    obtain ⟨before, hbefore, hconnect⟩ := Option.bind_eq_some_iff.1 hbooks
    obtain ⟨journal, happly', -⟩ := Books.connect_eq_some.1 hconnect
    rw [ih hbefore, happly] at happly'
    exact (Prod.mk.inj (Option.some.inj happly')).1.symm

end Worth

/-- What a block spends, as the ledger has it. -/
theorem spends_ledgerTxs (height : Nat) (b : Block) :
    (b.ledgerTxs env height).flatMap Ledger.Tx.spends = b.spends := by
  rw [Block.ledgerTxs, Block.spends, List.flatMap_map]
  congr 1
  funext tx
  by_cases h : tx.isCoinBase <;> simp [Transaction.ledgerTx, h]

/-! ## Along a run -/

namespace Chain

open Relation

variable {stat : ChainState → Nat} {c c' : Chain} {block : Block} {entry : ChainEntry}

theorem stackOf_eq_map (log : List Notification) :
    stackOf log = (linksOf log).map fun link => (link.entry, link.block) := by
  induction log using List.reverseRecOn with
  | nil => rfl
  | append_singleton log n ih =>
    cases n with
    | connect s e b v => simp [ih]
    | disconnect s e b v => simp [ih, List.map_dropLast]

theorem Visited.length_stackOf (law : env.Lawful) (h : Visited env c) :
    (stackOf c.notified).length = c.tip.height := by
  rw [stackOf_eq_map, List.length_map, (h.told law).height_eq (h.inv law).tree]

/-- The stack under the tip. -/
theorem exists_below (inv : c.Inv env) (told : c.db.Told env.genesisEntry c.notified c.tip)
    (hgen : c.tip.isGenesis = false) (hblock : c.db.getBlock c.tip.hash = some block) :
    ∃ line, stackOf c.notified = line ++ [(c.tip, block)] := by
  have htip : c.tip ≠ env.genesisEntry := by
    rintro heq
    rw [heq] at hgen
    exact absurd hgen (by simp [ChainEntry.isGenesis])
  obtain ⟨rest, b, v, p, hlinks, hb, -, -⟩ :=
    (told.branch inv.tree.genesis).exists_last inv.tree.genesis htip
  cases hblock.symm.trans hb
  exact ⟨rest.map fun link => (link.entry, link.block), by simp [stackOf_eq_map, hlinks]⟩

/-- The coins of a chain are within those of its line of blocks, and the counter is what the line
is worth. -/
def Counted (env : Env) (stat : ChainState → Nat) (weight : TxOut → Nat) (limit : Nat → Nat)
    (c : Chain) : Prop :=
  ∃ coins worth, Worth env weight limit (stackOf c.notified) coins worth
    ∧ Ledger.Within c.db.db.coin coins ∧ stat c.db.state = worth % 2 ^ 64

/-- A connected block creates at most a limit more than it spends. -/
def Limited (env : Env) (weight : TxOut → Nat) (limit : Nat → Nat) (c c' : Chain) (block : Block)
    (entry : ChainEntry) : Prop :=
  ∀ journal, Ledger.applyAll c.db.db.coin (block.ledgerTxs env entry.height)
      = some (c'.db.db.coin, journal) →
    Ledger.created (CoinEntry.weigh weight) (block.ledgerTxs env entry.height)
      ≤ (journal.map (CoinEntry.weigh weight)).sum + limit entry.height

theorem Counted.connect (hid : OutputsFaithful env) (hstat : ChainState.Counts stat weight)
    (h : c.Counted env stat weight limit) (inv : c.Inv env) (undo : c.UndoInv)
    (origins : c.Origins env) (hentry : c.db.getEntryByHash entry.hash = some entry)
    (hblock : c.db.getBlock entry.hash = some block) (hprev : entry.prevBlock = c.tip.hash)
    (hlimit : c.Limited env weight limit c' block entry)
    (hconnect : c.connect env block entry c.tip = .ok (c', .ok entry)) :
    c'.Counted env stat weight limit := by
  obtain ⟨coins, worth, hworth, hwithin, hvalue⟩ := h
  obtain ⟨cache, view, state, record, blocks, journal, wf, hinputs, happly, -, hrecord, -, hc'⟩ :=
    connect_effect inv undo.unspent hentry hblock hprev hconnect
  have hmade : view.Made env := by
    obtain ⟨_, _, htxs, -⟩ := verifyInputs_eq_ok hinputs
    have hview := verifyTransactions_view htxs
    exact (blockView_made origins.coins CoinView.made_empty hview).1
  have hlog : stackOf c'.notified = stackOf c.notified ++ [(entry, block)] := by
    rw [hc']
    exact stackOf_connect _ _ _ _ _
  have hstate : stat c'.db.state = stat record := by
    rw [hc']
    exact hstat.commit record entry.hash
  obtain ⟨⟨coins', journal'⟩, happly', hwithin'⟩ := hwithin.applyAll happly
  -- all that spend here spend the same outputs
  have hoften : ∀ {coins : FMap OutPoint CoinEntry} {r : FMap OutPoint CoinEntry × List CoinEntry},
      MadeCoins env coins → Ledger.applyAll coins (block.ledgerTxs env entry.height) = some r →
      List.Forall₂ (OutputOf env) block.spends (r.2.map CoinEntry.output) := fun hcoins hr =>
    outputs_of_made (@spends_ledgerTxs env entry.height block ▸
      Ledger.applyAll_forall₂ hcoins (Worth.made_ledgerTxs entry.height block) hr)
  have hjournal := hoften origins.coins happly
  have hjournal' := hoften hworth.made happly'
  obtain ⟨outputs, houtputs, hcount⟩ := ChainDB.connectTransactions_modEq hstat hmade hrecord
  rw [wf.spends_eq] at houtputs
  have hsame := outputs_unique hid hjournal' hjournal
  have hsame' := outputs_unique hid houtputs hjournal'
  have hbound := hlimit journal happly
  rw [map_weigh, ← hsame, ← map_weigh] at hbound
  have htotal := Ledger.total_applyAll_le (CoinEntry.weigh weight) happly'
  have hle := hworth.total_le
  dsimp only at htotal
  refine ⟨coins', worth + Ledger.created (CoinEntry.weigh weight) (block.ledgerTxs env entry.height)
    - (journal'.map (CoinEntry.weigh weight)).sum, ?_, hwithin', ?_⟩
  · rw [hlog]
    exact hworth.block happly' hbound (Nat.sub_add_cancel (by omega))
  · have hlt : stat record < 2 ^ 64 := by
      refine ChainDB.connectTransactions_keeps (P := fun s => stat s < 2 ^ 64)
        (fun s o _ => hstat.add s o ▸ Word.add_lt _ _ _)
        (fun s o _ => hstat.spend s o ▸ Word.sub_lt _ _ _) ?_ hrecord
      rw [hstat.connect, hvalue]
      exact Nat.mod_lt _ (Nat.two_pow_pos 64)
    rw [hstat.connect, ← ChainDB.created_ledgerTxs entry.height, hsame', ← map_weigh, hvalue]
      at hcount
    rw [hstate]
    refine (Nat.mod_eq_of_modEq
      (Nat.ModEq.add_right_cancel' (journal'.map (CoinEntry.weigh weight)).sum ?_) hlt).symm
    rw [Nat.sub_add_cancel (by omega)]
    exact ((Nat.mod_modEq _ _).add_right _).symm.trans hcount.symm

theorem Counted.disconnect (hid : OutputsFaithful env) (hstat : ChainState.Counts stat weight)
    (h : c.Counted env stat weight limit) (inv : c.Inv env) (undo : c.UndoInv)
    (origins : c.Origins env) (told : c.db.Told env.genesisEntry c.notified c.tip)
    (hdisc : c.disconnect env c.tip = .ok c') : c'.Counted env stat weight limit := by
  obtain ⟨coins, worth, hworth, hwithin, hvalue⟩ := h
  obtain ⟨-, hprev⟩ := disconnect_sameStore inv hdisc
  have hgen := inv.tree.isGenesis_eq_false inv.tip_stored hprev
  obtain ⟨block, prev, db, view, hblock, -, hdb, rfl⟩ := disconnect_eq_ok hdisc
  obtain ⟨_, state, hread, htxs, rfl⟩ := ChainDB.disconnect_eq_ok inv.idle hdb
  obtain ⟨stored, hstored, rfl⟩ := Option.map_eq_some_iff.1 hread
  obtain ⟨b, hb, haligned⟩ := origins.record hstored
  cases hblock.symm.trans hb
  -- the stack is that of the blocks below with the tip on top
  obtain ⟨rest, hstack⟩ := exists_below inv told hgen hblock
  rw [hstack] at hworth
  obtain ⟨before, journal, worth₀, hbefore, happly, hsum⟩ := hworth.exists_last
  have hcoin : ∃ items, view.effective c.db.db.coin
      = Ledger.revertAll c.db.db.coin (block.ledgerTxs env c.tip.height) items := by
    obtain ⟨b, _, record, _, hb, -, -, -, heffective, hsame⟩ := undo.disconnected inv hdisc
    cases hblock.symm.trans hb
    exact ⟨_, (congrArg (fun c => c.db.db.coin) hsame).trans heffective⟩
  obtain ⟨items, hcoin⟩ := hcoin
  have hlog : stackOf (c.disconnected (c.db.disconnected c.tip view
      (state.commit c.tip.prevBlock)) block c.tip prev view).notified
      = rest := by
    change stackOf (c.notified ++ _) = _
    rw [stackOf_disconnect, hstack, List.dropLast_concat]
  refine ⟨before, worth₀, hlog ▸ hbefore, ?_, ?_⟩
  · change Ledger.Within (view.effective c.db.db.coin) before
    rw [hcoin]
    exact hwithin.revertAll happly _
  · obtain ⟨items, hitems, hcount⟩ := ChainDB.disconnectTransactions_modEq hstat htxs
    have houtputs : items.map CoinEntry.output = journal.map CoinEntry.output := by
      refine outputs_unique hid ?_ (outputs_of_made (@spends_ledgerTxs env c.tip.height block ▸
        Ledger.applyAll_forall₂ hbefore.made (Worth.made_ledgerTxs c.tip.height block) happly))
      rw [show items = stored.reload.items from hitems.symm, stored.map_output_reload]
      exact outputs_of_made haligned
    have hlt : stat state < 2 ^ 64 := by
      refine ChainDB.disconnectTransactions_keeps (P := fun s => stat s < 2 ^ 64)
        (fun s o _ => hstat.add s o ▸ Word.add_lt _ _ _)
        (fun s o _ => hstat.spend s o ▸ Word.sub_lt _ _ _) ?_ htxs
      rw [hstat.disconnect, hvalue]
      exact Nat.mod_lt _ (Nat.two_pow_pos 64)
    change stat (state.commit c.tip.prevBlock) = _
    rw [hstat.commit]
    rw [← ChainDB.created_ledgerTxs_reverse c.tip.height, hstat.disconnect, hvalue,
      show (items.map fun coin => weight coin.output) = items.map (CoinEntry.weigh weight) from rfl,
      map_weigh, houtputs, ← map_weigh] at hcount
    refine (Nat.mod_eq_of_modEq (Nat.ModEq.add_right_cancel'
      (Ledger.created (CoinEntry.weigh weight) (block.ledgerTxs env c.tip.height)) ?_) hlt).symm
    rw [← hsum]
    exact ((Nat.mod_modEq _ _).add_right _).symm.trans hcount.symm

theorem Counted.mono (h : c.Counted env stat weight limit) (hcoin : c'.db.db.coin = c.db.db.coin)
    (hstate : c'.db.state = c.db.state) (hlog : c'.notified = c.notified) :
    c'.Counted env stat weight limit := by
  unfold Counted
  rwa [hcoin, hstate, hlog]

/-- No connect of a run creates more than a limit beyond what it spends. -/
def Limits (env : Env) (weight : TxOut → Nat) (limit : Nat → Nat) : Prop :=
  ∀ (c c' : Chain) (block : Block) (entry : ChainEntry), Visited env c →
    c.db.getEntryByHash entry.hash = some entry → c.db.getBlock entry.hash = some block →
    entry.prevBlock = c.tip.hash → c.connect env block entry c.tip = .ok (c', .ok entry) →
    c.Limited env weight limit c' block entry

theorem Counted.move (law : env.Lawful) (hid : OutputsFaithful env)
    (hstat : ChainState.Counts stat weight) (hlimits : Limits env weight limit)
    (h : c.Counted env stat weight limit) (hvisited : Visited env c) (hmove : Move env c c') :
    c'.Counted env stat weight limit := by
  have inv := hvisited.inv law
  have undo := hvisited.undoInv law
  have origins := hvisited.origins law
  rcases hmove.sameLedger_or inv with hsame | ⟨_, _, hentry, hblock, hprev, hconnect⟩ | hdisc
  · exact h.mono hsame.coin hsame.state hsame.notified
  · exact h.connect hid hstat inv undo origins hentry hblock hprev
      (hlimits c c' _ _ hvisited hentry hblock hprev hconnect) hconnect
  · exact h.disconnect hid hstat inv undo origins (hvisited.told law) hdisc

/-- Along every run a counter is what the main chain is worth, modulo `2 ^ 64`. -/
theorem Visited.counted (law : env.Lawful) (hid : OutputsFaithful env)
    (hstat : ChainState.Counts stat weight) (hlimits : Limits env weight limit)
    (h : Visited env c) : c.Counted env stat weight limit := by
  obtain ⟨c₀, hnew, hrun⟩ := h
  refine ReflTransGen.invariant_with (Q := Visited env)
    (P := fun c => c.Counted env stat weight limit)
    (fun _ _ hst ⟨c₀, hnew, hrun⟩ => ⟨c₀, hnew, hrun.tail hst⟩)
    (fun _ _ hst hs hcounted => hcounted.move law hid hstat hlimits hs hst) hrun
    ⟨c₀, hnew, .refl⟩ ?_
  obtain ⟨mostWork, rfl⟩ := new_eq_ok law hnew
  refine ⟨∅, 0, .genesis, fun o ho => ho, ?_⟩
  change stat ((ChainState.default.connect _).commit _) = _
  rw [hstat.commit, hstat.connect, hstat.default, Nat.zero_mod]

end Chain

end BitcoinNode
