import BitcoinNode.Blockchain.Counters

/-!
# The supply

A block whose inputs were verified creates no more than it spends and the subsidy: every fee is
exact, and the coinbase claims no more than the fees and the subsidy. Over a run, the coins are
worth at most the subsidies of the heights up to the tip.
-/

namespace BitcoinNode

/-! ## Subsidies -/

section Halving

theorem sum_range_div (f : Nat → Nat) {n : Nat} (hn : 0 < n) (K : Nat) :
    ∑ h ∈ Finset.range (n * K), f (h / n) = n * ∑ k ∈ Finset.range K, f k := by
  induction K with
  | zero => simp
  | succ K ih =>
    have hlast : ∑ x ∈ Finset.range n, f ((n * K + x) / n) = ∑ _x ∈ Finset.range n, f K := by
      refine Finset.sum_congr rfl fun x hx => ?_
      rw [Nat.mul_add_div hn, Nat.div_eq_of_lt (Finset.mem_range.1 hx), Nat.add_zero]
    rw [Nat.mul_succ, Finset.sum_range_add, ih, hlast, Finset.sum_range_succ, Nat.mul_add]
    simp

theorem sum_halvings_le (b K : Nat) :
    ∑ k ∈ Finset.range K, b / 2 ^ k + 2 * (b / 2 ^ K) ≤ 2 * b := by
  induction K with
  | zero => simp
  | succ K ih =>
    have hhalf : 2 * (b / 2 ^ (K + 1)) ≤ b / 2 ^ K := by
      rw [Nat.pow_succ, ← Nat.div_div_eq_div_mul]
      exact Nat.mul_div_le _ _
    rw [Finset.sum_range_succ]
    omega

end Halving

/-- What blocks up to a height may issue. -/
def issued (network : NetworkParams) (height : Nat) : Nat :=
  ∑ h ∈ Finset.Icc 1 height, getBlockSubsidy h network

theorem sum_map_range (network : NetworkParams) (height : Nat) :
    ((List.range height).map fun i => getBlockSubsidy (i + 1) network).sum =
      issued network height := by
  induction height with
  | zero => rfl
  | succ height ih =>
    rw [List.range_succ, List.map_append, List.sum_append, ih]
    unfold issued
    rw [Finset.sum_Icc_succ_top (Nat.succ_pos height)]
    simp

theorem issued_le_maxMoney {network : NetworkParams} (h : network.halvingInterval = 210000)
    (height : Nat) : issued network height ≤ MAX_MONEY := by
  have hsubsidy : ∀ n, getBlockSubsidy n network ≤ BASE_REWARD / 2 ^ (n / 210000) := by
    intro n
    unfold getBlockSubsidy
    dsimp only
    rw [h, Nat.shiftRight_eq_div_pow]
    split_ifs
    · exact Nat.zero_le _
    · exact le_rfl
  have hsub : Finset.Icc 1 height ⊆ Finset.range (210000 * (height / 210000 + 1)) := by
    intro n hn
    rw [Finset.mem_Icc] at hn
    rw [Finset.mem_range]
    omega
  have hhalvings := sum_halvings_le BASE_REWARD (height / 210000 + 1)
  calc issued network height
      ≤ ∑ n ∈ Finset.range (210000 * (height / 210000 + 1)), BASE_REWARD / 2 ^ (n / 210000) :=
        (Finset.sum_le_sum fun n _ => hsubsidy n).trans (Finset.sum_le_sum_of_subset hsub)
    _ = 210000 * ∑ k ∈ Finset.range (height / 210000 + 1), BASE_REWARD / 2 ^ k :=
        sum_range_div (fun k => BASE_REWARD / 2 ^ k) (by omega) _
    _ ≤ 210000 * (2 * BASE_REWARD) := Nat.mul_le_mul_left _ (by omega)
    _ = MAX_MONEY := rfl

/-! ## Fees -/

namespace Transaction

variable {view : CoinView} {height : Nat} {tx : Transaction} {fee : Nat}

/-- The coins that a view has for inputs. -/
def Finds (view : CoinView) (inputs : List TxIn) (coins : List CoinEntry) : Prop :=
  List.Forall₂ (fun input coin => view.getEntry input.previousOutput = some coin) inputs coins

/-- What the coins are worth in all. -/
def valueOf (coins : List CoinEntry) : Nat := (coins.map (CoinEntry.weigh TxOut.value)).sum

theorem inputTotal_cons {input : TxIn} {inputs : List TxIn} {total total' : Nat}
    (h : inputTotal view height (input :: inputs) total = .ok total') :
    ∃ coin, view.getEntry input.previousOutput = some coin ∧ total + coin.output.value ≤ MAX_MONEY
      ∧ inputTotal view height inputs (total + coin.output.value) = .ok total' := by
  rw [inputTotal] at h
  split at h
  · cases h
  rename_i coin hcoin
  refine ⟨coin, hcoin, ?_⟩
  have hsum : ∃ next, Word.checkedAdd 64 total coin.output.value = some next ∧ next ≤ MAX_MONEY
      ∧ inputTotal view height inputs next = .ok total' := by
    simp only [throw_bind] at h
    repeat' split at h
    all_goals first | cases h | exact ⟨_, ‹_›, by grind, h⟩
  obtain ⟨next, hadd, hmax, hrest⟩ := hsum
  obtain ⟨-, rfl⟩ := Word.checkedAdd_eq_some.1 hadd
  exact ⟨hmax, hrest⟩

theorem inputTotal_eq_ok {inputs : List TxIn} {total total' : Nat}
    (h : inputTotal view height inputs total = .ok total') :
    ∃ coins, Finds view inputs coins ∧ total' = total + valueOf coins
      ∧ (total ≤ MAX_MONEY → total' ≤ MAX_MONEY) := by
  induction inputs generalizing total with
  | nil =>
    cases h
    exact ⟨[], .nil, rfl, id⟩
  | cons input inputs ih =>
    obtain ⟨coin, hcoin, hmax, hrest⟩ := inputTotal_cons h
    obtain ⟨coins, hcoins, rfl, hle⟩ := ih hrest
    refine ⟨coin :: coins, .cons hcoin hcoins, ?_, fun _ => hle hmax⟩
    simp only [valueOf, List.map_cons, List.sum_cons, CoinEntry.weigh]
    omega

/-- The fee is the exact difference of input and output values. -/
structure ExactFee (tx : Transaction) (view : CoinView) (fee : Nat) : Prop where
  exists_coins : ∃ coins, Finds view tx.input coins ∧ fee + tx.outputTotal = valueOf coins
    ∧ Word.NoWrap 64 (coins.map (CoinEntry.weigh TxOut.value))
  getOutputValue_eq : tx.getOutputValue = tx.outputTotal
  noWrap : Word.NoWrap 64 (tx.output.map TxOut.value)

theorem Sane.noWrap (h : tx.Sane) : Word.NoWrap 64 (tx.output.map TxOut.value) :=
  Word.noWrap_of_sum_lt (h.outputTotal_le.trans_lt (by decide))

theorem Sane.exactFee (sane : tx.Sane) (h : tx.checkInputs view height = .ok fee) :
    tx.ExactFee view fee := by
  simp only [checkInputs, bind_eq_ok, throw_bind, ite_throw_eq_ok, pure_eq_ok] at h
  obtain ⟨total, htotal, hbelow, -, rfl⟩ := h
  obtain ⟨coins, hcoins, rfl, hle⟩ := inputTotal_eq_ok htotal
  have hmax := hle (Nat.zero_le _)
  have hvalue := sane.getOutputValue_eq
  refine ⟨⟨coins, hcoins, by omega, Word.noWrap_of_sum_lt ?_⟩, hvalue, sane.noWrap⟩
  refine (show valueOf coins ≤ MAX_MONEY by omega).trans_lt (by decide)

end Transaction

namespace Chain

variable {env : Env} {c c' : Chain} {prev : ChainEntry} {state : DeploymentState}

/-- The transactions whose inputs `verify_inputs` checks, each with the view it checks them in. -/
def checkedWith (env : Env) (coins : FMap OutPoint CoinEntry) (height : Nat) :
    List Transaction → CoinView → List (Transaction × CoinView)
  | [], _ => []
  | tx :: txs, view =>
    if tx.isCoinBase then checkedWith env coins height txs (view.addTx env tx height)
    else match view.spendInputs coins tx.input with
      | .error _ => []
      | .ok view => (tx, view) :: checkedWith env coins height txs (view.addTx env tx height)

/-- A checked transaction and its fee. -/
def Charged (height : Nat) (item : Transaction × CoinView) (fee : Nat) : Prop :=
  item.1.checkInputs item.2 height = .ok fee ∧ item.1.ExactFee item.2 fee

theorem verifyTransactions_fees {txs : List Transaction} {view view' : CoinView}
    {sigops reward reward' : Nat} (sane : ∀ tx ∈ txs, tx.Sane)
    (h : c.verifyTransactions env prev state txs view sigops reward = .ok (view', reward')) :
    ∃ fees, List.Forall₂ (Charged (prev.height + 1))
        (checkedWith env c.db.db.coin (prev.height + 1) txs view) fees
      ∧ (checkedWith env c.db.db.coin (prev.height + 1) txs view).map Prod.fst
        = txs.filter (fun tx => !tx.isCoinBase)
      ∧ reward' = reward + fees.sum ∧ (reward ≤ MAX_MONEY → reward' ≤ MAX_MONEY) := by
  induction txs generalizing view sigops reward with
  | nil =>
    cases h
    exact ⟨[], .nil, rfl, rfl, id⟩
  | cons tx txs ih =>
    obtain ⟨htx, htxs⟩ := List.forall_mem_cons.1 sane
    obtain ⟨view₁, reward₁, sigops₁, hround, hrest⟩ := verifyTransactions_cons h
    obtain ⟨fees, hfees, hmap, rfl, hle⟩ := ih htxs hrest
    rcases hround with ⟨hcoinbase, rfl, rfl⟩ | ⟨hcoinbase, hspends⟩
    · rw [checkedWith, if_pos hcoinbase]
      exact ⟨fees, hfees, by simpa [hcoinbase] using hmap, rfl, hle⟩
    · obtain ⟨hview, fee, hfee, rfl, hmax⟩ := verifySpends_eq_ok hspends
      rw [checkedWith, if_neg (by simp [hcoinbase]), hview]
      refine ⟨fee :: fees, .cons ⟨hfee, htx.exactFee hfee⟩ hfees, ?_, ?_, fun _ => hle hmax⟩
      · simpa [hcoinbase] using hmap
      · rw [List.sum_cons, Nat.add_assoc]

theorem checkedWith_made {coins : FMap OutPoint CoinEntry} (hcoins : MadeCoins env coins)
    {height : Nat} {txs : List Transaction} {view : CoinView} (h : view.Made env) :
    ∀ item ∈ checkedWith env coins height txs view, item.2.Made env := by
  induction txs generalizing view with
  | nil => exact nofun
  | cons tx txs ih =>
    rw [checkedWith]
    split_ifs
    · exact ih h.indexTx
    · split
      · exact nofun
      · rename_i hspend
        have hview := (h.spendInputs hcoins hspend).1
        exact List.forall_mem_cons.2 ⟨hview, ih hview.indexTx⟩

/-- What checked transactions spend comes to what they create and the fees. -/
theorem exists_outputs {height : Nat} {items : List (Transaction × CoinView)} {fees : List Nat}
    (hmade : ∀ item ∈ items, item.2.Made env) (h : List.Forall₂ (Charged height) items fees) :
    ∃ outputs, List.Forall₂ (OutputOf env)
        (items.flatMap fun item => item.1.input.map TxIn.previousOutput) outputs
      ∧ (outputs.map TxOut.value).sum
        = fees.sum + (items.map fun item => item.1.outputTotal).sum := by
  induction h with
  | nil => exact ⟨[], .nil, rfl⟩
  | @cons item fee items fees hitem _ ih =>
    obtain ⟨hview, hmade⟩ := List.forall_mem_cons.1 hmade
    obtain ⟨outputs, houtputs, hsum⟩ := ih hmade
    obtain ⟨coins, hcoins, hfee, -⟩ := hitem.2.exists_coins
    have hmadeCoins :
      List.Forall₂ (CoinEntry.Made env) (item.1.input.map TxIn.previousOutput) coins :=
      List.forall₂_map_left_iff.2 (hcoins.imp fun input coin hcoin => hview _ _ hcoin)
    refine ⟨coins.map CoinEntry.output ++ outputs, ?_, ?_⟩
    · rw [List.flatMap_cons]
      exact List.rel_append (outputs_of_made hmadeCoins) houtputs
    · have hvalue :
        ((coins.map CoinEntry.output).map TxOut.value).sum = Transaction.valueOf coins := by
        rw [← map_weigh]
        rfl
      rw [List.map_append, List.sum_append, hvalue, hsum, List.sum_cons, List.map_cons,
        List.sum_cons]
      omega

/-- What verification establishes about the money of a block: every fee is exact, no sum wraps,
and the coinbase claims no more than the fees and the subsidy. -/
def Balanced (env : Env) (c : Chain) (block : Block) (height : Nat) : Prop :=
  ∃ coinbase rest fees, block.txdata = coinbase :: rest
    ∧ (checkedWith env c.db.db.coin height block.txdata CoinView.empty).map Prod.fst = rest
    ∧ List.Forall₂ (Charged height)
      (checkedWith env c.db.db.coin height block.txdata CoinView.empty) fees
    ∧ fees.sum + getBlockSubsidy height env.network < 2 ^ 64
    ∧ block.getClaimed = .ok coinbase.outputTotal
    ∧ Word.NoWrap 64 (coinbase.output.map TxOut.value)
    ∧ coinbase.outputTotal ≤ fees.sum + getBlockSubsidy height env.network

theorem balanced_of_verifyInputs {block : Block} {view : CoinView} (wf : block.WellFormed)
    (h : c.verifyInputs env block prev state = .ok view) :
    c.Balanced env block (prev.height + 1) := by
  obtain ⟨reward, claimed, htxs, hclaimed, hle⟩ := verifyInputs_eq_ok h
  obtain ⟨fees, hfees, hmap, hreward, hmax⟩ := verifyTransactions_fees wf.sane htxs
  obtain ⟨coinbase, rest, hdata, hcoinbase, hrest⟩ := wf.exists_coinbase
  have hsane : coinbase.Sane := wf.sane coinbase (by simp [hdata])
  have hbound : fees.sum + getBlockSubsidy (prev.height + 1) env.network < 2 ^ 64 := by
    have := getBlockSubsidy_le (prev.height + 1) env.network
    have hreward' := hmax (Nat.zero_le _)
    have hmoney : MAX_MONEY + BASE_REWARD < 2 ^ 64 := by decide
    omega
  rw [hreward, Nat.zero_add, Word.add_eq hbound] at hle
  have hget : block.getClaimed = .ok coinbase.outputTotal := by
    rw [Block.getClaimed, hdata, ← hsane.getOutputValue_eq]
    exact if_pos hcoinbase
  cases hclaimed.symm.trans hget
  refine ⟨coinbase, rest, fees, hdata, ?_, hfees, hbound, hget, hsane.noWrap, hle⟩
  rw [hmap, hdata, List.filter_cons_of_neg (by simp [hcoinbase])]
  exact List.filter_eq_self.2 fun tx htx => by simp [hrest tx htx]

theorem Balanced.of_withCache {block : Block} {height : Nat} {cache : VersionBitsCache}
    (h : (c.withCache cache).Balanced env block height) : c.Balanced env block height := h

/-- What a balanced block creates is at most what it spends and the subsidy. -/
theorem Balanced.outputs_le {block : Block} {height : Nat} (h : c.Balanced env block height)
    (wf : block.WellFormed) (hcoins : MadeCoins env c.db.db.coin) :
    ∃ outputs, List.Forall₂ (OutputOf env) block.spends outputs
      ∧ (block.txdata.map Transaction.outputTotal).sum
        ≤ (outputs.map TxOut.value).sum + getBlockSubsidy height env.network := by
  obtain ⟨coinbase, rest, fees, hdata, hmap, hfees, -, -, -, hclaim⟩ := h
  obtain ⟨outputs, houtputs, hsum⟩ :=
    exists_outputs (checkedWith_made hcoins CoinView.made_empty) hfees
  obtain ⟨_, _, hdata', hcoinbase, hrest⟩ := wf.exists_coinbase
  cases hdata.symm.trans hdata'
  have hspends : (checkedWith env c.db.db.coin height block.txdata CoinView.empty).flatMap
      (fun item => item.1.input.map TxIn.previousOutput) = block.spends := by
    calc _ = rest.flatMap fun tx => tx.input.map TxIn.previousOutput := by
          rw [← hmap, List.flatMap_map]
      _ = rest.flatMap fun tx => if tx.isCoinBase then [] else tx.input.map TxIn.previousOutput :=
          List.flatMap_congr fun tx htx => by simp [hrest tx htx]
      _ = block.spends := by simp [Block.spends, hdata, hcoinbase]
  have htotal : ((checkedWith env c.db.db.coin height block.txdata CoinView.empty).map
      fun item => item.1.outputTotal) = rest.map Transaction.outputTotal := by
    rw [← hmap, List.map_map]
    rfl
  rw [htotal] at hsum
  refine ⟨outputs, hspends ▸ houtputs, ?_⟩
  rw [hdata, List.map_cons, List.sum_cons]
  omega

/-- A connected block creates at most the subsidy more than it spends. -/
theorem limits_value (law : env.Lawful) (hid : OutputsFaithful env) :
    Limits env TxOut.value fun height => getBlockSubsidy height env.network := by
  intro c c' block entry hvisited hentry hblock hprev hconnect journal happly
  have inv := hvisited.inv law
  have origins := hvisited.origins law
  obtain ⟨cache, view, state, -, -, -, wf, hinputs, -⟩ :=
    connect_effect inv (hvisited.undoInv law).unspent hentry hblock hprev hconnect
  have hheight : entry.height = c.tip.height + 1 :=
    inv.tree.height_eq hentry (by rw [hprev, inv.tip_stored])
  obtain ⟨outputs, houtputs, hle⟩ :=
    (balanced_of_verifyInputs wf hinputs).of_withCache.outputs_le wf origins.coins
  have hjournal := outputs_of_made (@spends_ledgerTxs env entry.height block ▸
    Ledger.applyAll_forall₂ origins.coins (Worth.made_ledgerTxs entry.height block) happly)
  rw [map_weigh, outputs_unique hid hjournal houtputs, hheight, ChainDB.created_ledgerTxs]
  refine le_trans (List.sum_le_sum fun tx _ => ?_) hle
  exact ChainDB.weightOf_le tx.output

/-- The blocks of the main chain may issue what their heights may. -/
theorem Visited.sum_subsidies (law : env.Lawful) (h : Visited env c) :
    ((stackOf c.notified).map fun item => getBlockSubsidy item.1.height env.network).sum
      = issued env.network c.tip.height := by
  rw [← sum_map_range, (h.told law).height_eq (h.inv law).tree, stackOf_eq_map, List.map_map]
  refine congrArg List.sum (List.ext_getElem? fun i => ?_)
  cases hi : (linksOf c.notified)[i]? with
  | none =>
    have hlen := List.getElem?_eq_none_iff.1 hi
    rw [List.getElem?_eq_none (by simpa using hlen), List.getElem?_eq_none (by simpa using hlen)]
  | some link =>
    have hheight := (h.getElem_linksOf law hi).1
    have hlt := (List.getElem?_eq_some_iff.1 hi).choose
    rw [List.getElem?_map, List.getElem?_map, hi, List.getElem?_range hlt]
    simp [hheight]

/-- The coins and the counter of a chain are worth at most what its heights may issue. -/
theorem Visited.value_le (law : env.Lawful) (hid : OutputsFaithful env) (h : Visited env c) :
    FMap.total (CoinEntry.weigh TxOut.value) c.db.db.coin ≤ issued env.network c.tip.height
      ∧ c.db.state.value ≤ issued env.network c.tip.height := by
  obtain ⟨coins, worth, hworth, hwithin, hvalue⟩ :=
    h.counted law hid ChainState.counts_value (limits_value law hid)
  have hlimit : worth ≤ issued env.network c.tip.height :=
    hworth.worth_le.trans_eq (h.sum_subsidies law)
  refine ⟨?_, ?_⟩
  · refine (Ledger.total_le_total (M := coins) _ fun o coin hcoin => ?_).trans
      (hworth.total_le.trans hlimit)
    obtain ⟨coin', hcoin'⟩ := Finmap.mem_iff.1 (hwithin o (Finmap.mem_of_lookup_eq_some hcoin))
    refine ⟨coin', hcoin', le_of_eq ?_⟩
    have hsame : coin.output = coin'.output :=
      OutputOf.unique hid ((h.origins law).coins o coin hcoin) (hworth.made o coin' hcoin')
    rw [CoinEntry.weigh, CoinEntry.weigh, hsame]
  · rw [hvalue]
    exact (Nat.mod_le _ _).trans hlimit

/-- No inflation: the coins and the counted value of a chain are at most the subsidies of its
heights, and every block that passes contextual verification is balanced. -/
theorem Visited.no_inflation (law : env.Lawful) (hid : OutputsFaithful env) (h : Visited env c) :
    FMap.total (CoinEntry.weigh TxOut.value) c.db.db.coin ≤ issued env.network c.tip.height
      ∧ c.db.state.value ≤ issued env.network c.tip.height
      ∧ (env.network.halvingInterval = 210000 → issued env.network c.tip.height ≤ MAX_MONEY)
      ∧ ∀ block prev c' view state, c.verifyContext env block prev = .ok (c', .ok (view, state)) →
        c.Balanced env block (prev.height + 1) := by
  obtain ⟨hcoins, hvalue⟩ := h.value_le law hid
  refine ⟨hcoins, hvalue, fun hhalving => issued_le_maxMoney hhalving _, ?_⟩
  intro block prev c' view state hverify
  obtain ⟨⟨cache, rfl⟩, -, hpassed⟩ := verifyContext_eq_ok hverify
  obtain ⟨hbody, hinputs⟩ := hpassed view state rfl
  exact (balanced_of_verifyInputs (Block.checkBody_eq_ok hbody) hinputs).of_withCache

/-- The coins after one block. -/
theorem no_inflation_first : ∃ c, Reachable Small.env c ∧ c.db.state.value = 5000000000
    ∧ FMap.total (CoinEntry.weigh TxOut.value) c.db.db.coin ≤ issued Small.network 1 := by
  obtain ⟨c, hc, hP⟩ := exists_reachable Small.env [.add 100 Small.first]
    (fun c => c.tip.height == 1 && c.db.state.value == 5000000000) (by decide) (by decide +kernel)
  obtain ⟨hheight, hvalue⟩ := Bool.and_eq_true_iff.1 hP
  have hcoins := (Visited.no_inflation Small.lawful (fun _ _ => Small.output_eq_of_txid)
    (hc.visited Small.lawful)).1
  rw [eq_of_beq hheight] at hcoins
  exact ⟨c, hc, eq_of_beq hvalue, hcoins⟩

end Chain

end BitcoinNode
