import BitcoinNode.Blockchain.Locks
import BitcoinNode.Blockchain.Replay
import BitcoinNode.Mempool.Spents

/-!
# Blocks made of pool transactions

A transaction that the pool accepts on a tip passes the checks of a block on that tip, in a block
that holds the transactions it depends on before it. The pool checks a transaction against the
coins of the chain and of the pool, a block against the view that the transactions before it have
left; the two agree on what the transaction spends.
-/

namespace BitcoinNode

open Registry

/-- The script check refuses outputs that can never be spent. -/
def UnspendableFails (env : Env) : Prop :=
  ∀ script value tx spent index flags,
    env.verifyWithFlags script value tx spent index flags = true →
      env.isProvablyUnspendable script = false

/-! ## Ledgers -/

namespace Ledger

variable {K V : Type} [DecidableEq K] {m : FMap K V} {ks : List K}

/-- Different keys that are there can be spent. -/
theorem exists_spend (hnd : ks.Nodup) (hmem : ∀ k ∈ ks, k ∈ m) : ∃ r, spend m ks = some r := by
  induction ks generalizing m with
  | nil => exact ⟨_, rfl⟩
  | cons k ks ih =>
    obtain ⟨hk, hks⟩ := List.forall_mem_cons.1 hmem
    obtain ⟨hnot, hnd⟩ := List.nodup_cons.1 hnd
    obtain ⟨v, hv⟩ := Finmap.mem_iff.1 hk
    obtain ⟨r, hr⟩ := ih (m := m.erase k) hnd fun x hx =>
      Finmap.mem_erase.2 ⟨fun heq => hnot (heq ▸ hx), hks x hx⟩
    exact ⟨(r.1, v :: r.2), spend_cons_eq_some.2 ⟨v, r.2, hv, hr, rfl⟩⟩

end Ledger

/-! ## Views -/

namespace CoinView

variable {env : Env} {coins : FMap OutPoint CoinEntry} {inputs : List TxIn} {view view' : CoinView}
  {o : OutPoint} {coin : CoinEntry}

theorem getEntry_readCoin_of_ne {prevout : OutPoint} (hne : o ≠ prevout) :
    (view.readCoin coins prevout).1.getEntry o = view.getEntry o := by
  unfold readCoin
  split
  · rfl
  · split
    · exact AList.lookup_insert_ne hne
    · rfl

theorem getEntry_spendInputs_of_notMem (h : view.spendInputs coins inputs = .ok view')
    (ho : o ∉ inputs.map TxIn.previousOutput) : view'.getEntry o = view.getEntry o := by
  induction inputs generalizing view with
  | nil => cases h; rfl
  | cons input inputs ih =>
    rw [List.map_cons, List.mem_cons, not_or] at ho
    have hread := @getEntry_readCoin_of_ne coins view o input.previousOutput ho.1
    unfold spendInputs at h
    split at h
    · rename_i view₁ coin heq
      split at h
      · cases h
      · rw [ih h ho.2, ← hread, heq]
        exact AList.lookup_insert_ne ho.1
    · cases h

/-- A spent input is marked in the view. -/
theorem getEntry_spendInputs (hcoins : Unspent coins)
    (h : view.spendInputs coins inputs = .ok view')
    (hnd : (inputs.map TxIn.previousOutput).Nodup) (ho : o ∈ inputs.map TxIn.previousOutput)
    (hcoin : (view.effective coins).lookup o = some coin) :
    view'.getEntry o = some coin.markSpent := by
  induction inputs generalizing view with
  | nil => cases ho
  | cons input inputs ih =>
    rw [List.map_cons, List.nodup_cons] at hnd
    obtain ⟨heff, -, hlookup⟩ := readCoin_spec hcoins view input.previousOutput
    unfold spendInputs at h
    split at h
    swap
    · cases h
    rename_i view₁ found hread
    split at h
    · cases h
    rename_i hspent
    rw [hread] at heff hlookup
    rcases List.mem_cons.1 ho with rfl | ho
    · simp only [hspent] at hlookup
      obtain rfl := Option.some.inj (hcoin.symm.trans hlookup)
      rw [getEntry_spendInputs_of_notMem h hnd.1]
      exact AList.lookup_insert _
    · refine ih h hnd.2 ho ?_
      have hne : o ≠ input.previousOutput := fun heq => hnd.1 (heq ▸ ho)
      rw [effective_insert, heff, View.write]
      simp [hne, Finmap.lookup_erase_ne, hcoin]

end CoinView
/-! ## What the pool and a block see of a coin -/

/-- The coin of a block is that of the pool, or the pool's had no height yet. -/
structure CoinEntry.Settles (height : Nat) (pooled coin : CoinEntry) : Prop where
  output : coin.output = pooled.output
  coinbase : coin.coinbase = pooled.coinbase
  height : coin.height = pooled.height ∨ pooled.height = none ∧ coin.height = some height

/-- A coinbase is so deep that a block at the height may spend it. -/
def CoinEntry.Mature (height : Nat) (coin : CoinEntry) : Prop :=
  coin.coinbase = true → ∃ mined, coin.height = some mined ∧ COINBASE_MATURITY ≤ height - mined

namespace Transaction

variable {tx : Transaction} {view view' : CoinView} {inputs : List TxIn} {height total fee : Nat}

/-- One round of the loop over the inputs. -/
theorem inputTotal_cons_iff {input : TxIn} {coin : CoinEntry}
    (hcoin : view.getEntry input.previousOutput = some coin) :
    inputTotal view height (input :: inputs) total = .ok fee ↔ coin.Mature height
      ∧ ∃ sum, Word.checkedAdd 64 total coin.output.value = some sum
        ∧ coin.output.value ≤ MAX_MONEY ∧ sum ≤ MAX_MONEY
        ∧ inputTotal view height inputs sum = .ok fee := by
  have hmax (sum : Nat) : (if coin.output.value > MAX_MONEY || sum > MAX_MONEY then
        .error (.error .inputValuesOutOfRange)
      else inputTotal view height inputs sum) = .ok fee ↔
      coin.output.value ≤ MAX_MONEY ∧ sum ≤ MAX_MONEY
        ∧ inputTotal view height inputs sum = .ok fee := by
    split_ifs <;> simp_all
    omega
  rw [inputTotal, hcoin, CoinEntry.Mature]
  dsimp only
  cases hadd : Word.checkedAdd 64 total coin.output.value with
  | none =>
    cases coin.coinbase <;> cases coin.height <;> simp [throw_bind, ite_throw_eq_ok]
  | some sum =>
    cases coin.coinbase with
    | false => simpa using hmax sum
    | true =>
      cases coin.height with
      | none => simp [throw_bind]
      | some mined => simpa [throw_bind, ite_throw_eq_ok] using fun _ => hmax sum

/-- Every coinbase that passes is deep enough. -/
theorem mature_of_inputTotal (h : inputTotal view height inputs total = .ok fee) :
    ∀ input ∈ inputs, ∀ coin, view.getEntry input.previousOutput = some coin →
      coin.Mature height := by
  induction inputs generalizing total with
  | nil => simp
  | cons input inputs ih =>
    cases hfirst : view.getEntry input.previousOutput with
    | none => simp [inputTotal, hfirst] at h
    | some first =>
      obtain ⟨hmature, sum, -, -, -, hrest⟩ := (inputTotal_cons_iff hfirst).1 h
      refine List.forall_mem_cons.2 ⟨fun coin hcoin => ?_, ih hrest⟩
      rwa [Option.some.inj (hcoin.symm.trans hfirst)]

/-- The total of the inputs depends on the outputs they spend, as long as coinbases are deep. -/
theorem inputTotal_of_outputs {height' : Nat} (h : inputTotal view height inputs total = .ok fee)
    (hcoins : ∀ input ∈ inputs, ∀ old, view.getEntry input.previousOutput = some old →
      ∃ coin, view'.getEntry input.previousOutput = some coin ∧ coin.output = old.output
        ∧ coin.Mature height') :
    inputTotal view' height' inputs total = .ok fee := by
  induction inputs generalizing total with
  | nil => exact h
  | cons input inputs ih =>
    obtain ⟨hinput, hinputs⟩ := List.forall_mem_cons.1 hcoins
    cases hold : view.getEntry input.previousOutput with
    | none => simp [inputTotal, hold] at h
    | some old =>
      obtain ⟨coin, hcoin, houtput, hmature⟩ := hinput old hold
      obtain ⟨-, sum, hsum, hvalue, hmax, hrest⟩ := (inputTotal_cons_iff hold).1 h
      rw [← houtput] at hsum hvalue
      exact (inputTotal_cons_iff hcoin).2 ⟨hmature, sum, hsum, hvalue, hmax, ih hrest hinputs⟩

theorem mature_of_checkInputs (h : tx.checkInputs view height = .ok fee) :
    ∀ input ∈ tx.input, ∀ coin, view.getEntry input.previousOutput = some coin →
      coin.Mature height := by
  obtain ⟨total, htotal, -⟩ := bind_eq_ok.1 h
  exact mature_of_inputTotal htotal

theorem checkInputs_of_outputs {height' : Nat} (h : tx.checkInputs view height = .ok fee)
    (hcoins : ∀ input ∈ tx.input, ∀ old, view.getEntry input.previousOutput = some old →
      ∃ coin, view'.getEntry input.previousOutput = some coin ∧ coin.output = old.output
        ∧ coin.Mature height') :
    tx.checkInputs view' height' = .ok fee := by
  unfold checkInputs at h ⊢
  obtain ⟨total, htotal, h⟩ := bind_eq_ok.1 h
  rw [inputTotal_of_outputs htotal hcoins]
  exact h

theorem checkInputs_of_settles (h : tx.checkInputs view height = .ok fee)
    (hcoins : ∀ input ∈ tx.input, ∀ pooled, view.getEntry input.previousOutput = some pooled →
      ∃ coin, view'.getEntry input.previousOutput = some coin ∧ pooled.Settles height coin) :
    tx.checkInputs view' height = .ok fee := by
  refine checkInputs_of_outputs h fun input hinput pooled hpooled => ?_
  obtain ⟨coin, hcoin, hsettles⟩ := hcoins input hinput pooled hpooled
  refine ⟨coin, hcoin, hsettles.output, fun hcoinbase => ?_⟩
  -- a coinbase is never a coin of the pool, so the height is that of the chain
  obtain ⟨mined, hmined, hle⟩ :=
    mature_of_checkInputs h input hinput pooled hpooled (hsettles.coinbase ▸ hcoinbase)
  have hheight := hsettles.height.resolve_right fun hnone => by simp [hmined] at hnone
  exact ⟨mined, hheight.trans hmined, hle⟩

/-- Once final at the median time, final at every later time. -/
theorem isFinal_mono {t time : Nat} (h : tx.isFinal height (asI32 t) = true) (hle : t ≤ time)
    (htime : time < 2 ^ 31) : tx.isFinal height (asI32 time) = true := by
  have hmono : asI32 t ≤ asI32 time := by
    unfold asI32
    split_ifs <;> omega
  unfold isFinal at h ⊢
  dsimp only at h ⊢
  split_ifs at h ⊢ <;> first | rfl | assumption | omega

end Transaction

namespace Chain

variable {env : Env} {c₁ c : Chain} {tx : Transaction} {view view' : CoinView} {now time : Nat}

/-- What is final for the pool is final in a block, whichever of the two clocks the block uses. -/
theorem isFinal_of_verifyFinal
    (h : c.verifyFinal now c.tip tx LockFlags.STANDARD_LOCKTIME_FLAGS = true)
    (hle : c.db.getMedianTime c.tip ≤ time) (htime : time < 2 ^ 31) :
    tx.isFinal (c.tip.height + 1) (Transaction.asI32 time) = true := by
  unfold verifyFinal at h
  dsimp only at h
  split_ifs at h with hlock hflag
  · unfold Transaction.isFinal at h ⊢
    simpa [hlock] using h
  · exact Transaction.isFinal_mono h hle htime
  · exact absurd (by decide) hflag

/-- The relative locks of a transaction are over in a block for any flags, once they are for the
standard ones. -/
theorem verifyLocks_of_settles (law : env.Lawful) (above : Above env c₁ c)
    (h : c₁.verifyLocks c₁.tip tx view LockFlags.STANDARD_LOCKTIME_FLAGS = .ok ())
    (hview : ∀ input ∈ tx.input, view.getEntry input.previousOutput ≠ none)
    (hcoins : ∀ input ∈ tx.input, ∀ pooled, view.getEntry input.previousOutput = some pooled →
      ∃ coin, view'.getEntry input.previousOutput = some coin ∧ pooled.Settles (c.height + 1) coin)
    (flags : LockFlags) : c.verifyLocks c.tip tx view' flags = .ok () := by
  by_cases hflag : flags.contains LockFlags.VERIFY_SEQUENCE = true
  swap
  · simp [verifyLocks, getLocks, hflag]
  rw [verifyLocks_iff hflag]
  refine ((verifyLocks_iff (by decide)).1 h).imp_right (Or.imp_right fun hlocks input hinput => ?_)
  obtain ⟨pooled, hpooled⟩ := Option.ne_none_iff_exists'.1 (hview input hinput)
  obtain ⟨coin, hcoin, hsettles⟩ := hcoins input hinput pooled hpooled
  refine above.unlocked law ?_ (hlocks input hinput)
  rw [coinHeight, coinHeight, hpooled, hcoin, Option.bind_some, Option.bind_some]
  rcases hsettles.height with hheight | ⟨hnone, hheight⟩
  · rw [hheight]
    cases pooled.height with
    | none => exact .inr ⟨rfl, rfl⟩
    | some mined => exact .inl rfl
  · rw [hnone, hheight]
    exact .inr ⟨rfl, rfl⟩

end Chain

namespace MemPool

variable {env : Env} {pool : MemPool} {c : Chain} {tx : Transaction} {inputs : List TxIn}
  {view view' : CoinView} {o : OutPoint}

/-- The coin that the pool sees at an outpoint. -/
def coinAt (pool : MemPool) (c : Chain) (o : OutPoint) : Option CoinEntry :=
  match pool.transactions.lookup o.txid with
  | some entry =>
    if pool.hasCoin o then
      entry.tx.output[o.vout]?.map fun output =>
        ⟨entry.tx.version, none, entry.tx.isCoinBase, output, false⟩
    else none
  | none => c.db.readCoin o

/-- One round of the loop puts the coin of the input into the view, where there is one. -/
theorem viewInputs_cons {input : TxIn} (h : pool.viewInputs c (input :: inputs) view = .ok view') :
    match pool.coinAt c input.previousOutput with
    | some coin => pool.viewInputs c inputs
        { view with map := view.map.insert input.previousOutput coin } = .ok view'
    | none => pool.viewInputs c inputs view = .ok view' := by
  rw [viewInputs] at h
  rw [coinAt]
  cases hentry : pool.transactions.lookup input.previousOutput.txid with
  | none =>
    rw [hentry] at h
    dsimp only at h ⊢
    cases hcoin : c.db.readCoin input.previousOutput with
    | none =>
      rw [hcoin] at h
      exact h
    | some coin =>
      rw [hcoin] at h
      exact h
  | some entry =>
    rw [hentry] at h
    dsimp only at h ⊢
    split_ifs at h ⊢
    · split at h
      · cases h
      · rename_i output houtput
        rw [houtput]
        exact h
    · exact h

theorem getEntry_viewInputs (h : pool.viewInputs c inputs view = .ok view') :
    view'.getEntry o = if o ∈ inputs.map TxIn.previousOutput then
      (pool.coinAt c o).or (view.getEntry o) else view.getEntry o := by
  induction inputs generalizing view with
  | nil => cases h; rfl
  | cons input inputs ih =>
    have hround := viewInputs_cons h
    simp only [List.map_cons, List.mem_cons]
    cases hcoin : pool.coinAt c input.previousOutput with
    | none =>
      rw [hcoin] at hround
      rw [ih hround]
      grind
    | some coin =>
      rw [hcoin] at hround
      rw [ih hround]
      by_cases ho : o = input.previousOutput
      · subst ho
        simp [CoinView.getEntry, hcoin]
      · simp [CoinView.getEntry, ho, AList.lookup_insert_ne]

theorem getEntry_getCoinView (h : pool.getCoinView c tx = .ok view) (ho : o ∈ tx.prevouts) :
    view.getEntry o = pool.coinAt c o := by
  exact (getEntry_viewInputs h).trans ((if_pos ho).trans Option.or_none)

/-- What scripts can spend is no unspendable output. -/
theorem isProvablyUnspendable_of_verifyScripts (hscripts : UnspendableFails env)
    {flags : ScriptFlags} {input : TxIn} {output : TxOut}
    (h : tx.verifyScripts env view flags = .ok ()) (hinput : input ∈ tx.input)
    (houtput : view.getOutput input.previousOutput = some output) :
    env.isProvablyUnspendable output.scriptPubkey = false := by
  obtain ⟨spent, hspent, h⟩ := bind_eq_ok.1 h
  have hmem : output ∈ spent := (mem_mapM_eq_ok hspent).2 ⟨input, hinput, by rw [houtput]⟩
  dsimp only at h
  split_ifs at h with hall
  · obtain ⟨i, hi⟩ := List.mem_iff_getElem?.1 hmem
    have hzip : (output, i) ∈ spent.zipIdx := by simp [List.mem_zipIdx_iff_getElem?, hi]
    exact hscripts _ _ _ _ _ _ (List.all_eq_true.1 hall _ hzip)

end MemPool

/-! ## Runs on one tip -/

/-- Runs during which nothing is connected or disconnected, with the transactions that the pool
accepts. -/
inductive Node.Grows (env : Env) (n₀ : Node) : Node → List Transaction → Prop where
  | refl : Grows env n₀ n₀ []
  | quiet {n : Node} {txs : List Transaction} {c : Chain} : Grows env n₀ n txs →
      Chain.Move env n.chain c → c.notified = n.chain.notified → Grows env n₀ ⟨c, n.pool⟩ txs
  | addTx {n : Node} {txs : List Transaction} {now : Nat} {tx : Transaction} {pool : MemPool} :
      Grows env n₀ n txs → n.pool.addTx env n.chain now tx = .ok (pool, .ok ()) →
      Grows env n₀ ⟨n.chain, pool⟩ (txs ++ [tx])

namespace Node

open MemPool

variable {env : Env} {n₀ n : Node} {txs : List Transaction}

/-- An earlier chain and pool of such a run. -/
structure OnTip (env : Env) (n : Node) (c : Chain) (pool : MemPool) : Prop where
  visited : Chain.Visited env c
  reachable : MemPool.Reachable env pool
  entries : ∀ hash e, c.db.getEntryByHash hash = some e → n.chain.db.getEntryByHash hash = some e
  tip : n.chain.tip = c.tip
  coins : n.chain.db.db.coin = c.db.db.coin
  grown : ∀ t e, pool.transactions.lookup t = some e → n.pool.transactions.lookup t = some e

theorem OnTip.above {c : Chain} {pool : MemPool} (law : env.Lawful) (h : OnTip env n c pool)
    (hc : Chain.Visited env n.chain) : Chain.Above env c n.chain where
  inv := h.visited.inv law
  inv' := hc.inv law
  skips := h.visited.skips law
  skips' := hc.skips law
  timely := hc.timely law
  entries := h.entries
  tip := h.tip ▸ .refl

/-- What the pool has accepted it accepted on the tip, and still holds. -/
theorem Grows.accepted (law : env.Lawful) (hc : Chain.Visited env n₀.chain)
    (hpool : MemPool.Reachable env n₀.pool) (h : Grows env n₀ n txs) :
    Chain.Visited env n.chain ∧ MemPool.Reachable env n.pool ∧ ∀ tx ∈ txs, ∃ c pool now entry view,
      OnTip env n c pool ∧ Accepted env pool c now tx entry view
        ∧ n.pool.transactions.lookup (env.txid tx) = some entry := by
  induction h with
  | refl => exact ⟨hc, hpool, nofun⟩
  | @quiet n txs c _ hmove hquiet ih =>
    obtain ⟨hvisited, hreachable, hacc⟩ := ih
    have inv := hvisited.inv law
    have hkept := hmove.sameLedger inv hquiet
    obtain ⟨c₀, hnew, hrun⟩ := hvisited
    refine ⟨⟨c₀, hnew, hrun.tail hmove⟩, hreachable, fun tx htx => ?_⟩
    obtain ⟨c₁, pool₁, now, entry, view, hon, haccepted, hlookup⟩ := hacc tx htx
    exact ⟨c₁, pool₁, now, entry, view, ⟨hon.visited, hon.reachable,
      fun hash e he => hmove.entries_mono inv hash e (hon.entries hash e he),
      hkept.tip.trans hon.tip, hkept.coin.trans hon.coins, hon.grown⟩, haccepted, hlookup⟩
  | @addTx n txs now tx pool _ hadd ih =>
    obtain ⟨hvisited, hreachable, hacc⟩ := ih
    have hstep : MemPool.Reachable env pool := by
      refine @MemPool.Reachable.step env _ _ (.addTx n.chain now tx) hreachable ?_
      rw [MemPool.step, bind_of_ok hadd]
      rfl
    obtain ⟨⟨e, he⟩, -⟩ | ⟨entry, view, haccepted, rfl⟩ := addTx_eq_ok hadd
    · cases he
    have hgrown : ∀ t e, n.pool.transactions.lookup t = some e →
        (n.pool.insert (env.txid tx) entry).transactions.lookup t = some e := by
      intro t e ht
      rw [lookup_transactions_insert, if_neg, ht]
      rintro rfl
      exact haccepted.new_tx (Finmap.mem_of_lookup_eq_some ht)
    refine ⟨hvisited, hstep, fun tx' htx' => ?_⟩
    rcases List.mem_append.1 htx' with htx' | htx'
    · obtain ⟨c₁, pool₁, now, entry', view, hon, hacc', hlookup⟩ := hacc tx' htx'
      exact ⟨c₁, pool₁, now, entry', view,
        ⟨hon.visited, hon.reachable, hon.entries, hon.tip, hon.coins,
        fun t e ht => hgrown t e (hon.grown t e ht)⟩, hacc', hgrown _ _ hlookup⟩
    · obtain rfl := List.mem_singleton.1 htx'
      exact ⟨n.chain, n.pool, now, entry, view,
        ⟨hvisited, hreachable, fun _ _ he => he, rfl, rfl, hgrown⟩,
        haccepted, by rw [lookup_transactions_insert, if_pos rfl]⟩

/-! ## Blocks on that tip -/

/-- Accepted transactions, each behind those of the pool that it depends on. -/
structure Packed (env : Env) (pool : MemPool) (accepted txs : List Transaction) : Prop where
  accepted {tx : Transaction} : tx ∈ txs → tx ∈ accepted
  nodup : (txs.map env.txid).Nodup
  parents {before after : List Transaction} {tx : Transaction} : txs = before ++ tx :: after →
    ∀ o ∈ tx.prevouts, o.txid ∈ pool.transactions → o.txid ∈ before.map env.txid

/-- The checks that a block on the tip with the header time makes of a transaction, scripts
apart, whatever deployments are in force. -/
structure Passes (c : Chain) (time : Nat) (tx : Transaction) (view : CoinView) : Prop where
  final (state : DeploymentState) : tx.isFinal (c.tip.height + 1) (Transaction.asI32
    (if state.hasMtp then c.db.getMedianTime c.tip else time)) = true
  spends : ∃ view', view.spendInputs c.db.db.coin tx.input = .ok view'
    ∧ (∃ fee, tx.checkInputs view' (c.tip.height + 1) = .ok fee)
    ∧ ∀ flags, c.verifyLocks c.tip tx view' flags = .ok ()

/-- What the view of a block holds: the coins of the chain and of the transactions so far that
none of these spends. -/
structure Carries (env : Env) (coins : FMap OutPoint CoinEntry) (height : Nat)
    (before : List Transaction) (view : CoinView) : Prop where
  chain {o : OutPoint} {coin : CoinEntry} : coins.lookup o = some coin →
    (∀ tx ∈ before, o ∉ tx.prevouts) → (view.effective coins).lookup o = some coin
  block {tx : Transaction} {i : Nat} {output : TxOut} : tx ∈ before →
    tx.output[i]? = some output → env.isProvablyUnspendable output.scriptPubkey = false →
    (∀ tx' ∈ before, ⟨env.txid tx, i⟩ ∉ tx'.prevouts) →
    (view.effective coins).lookup ⟨env.txid tx, i⟩
      = some ⟨tx.version, some height, tx.isCoinBase, output, false⟩

section Carries

variable {coins : FMap OutPoint CoinEntry} {height : Nat} {before : List Transaction}
  {view view' : CoinView} {tx : Transaction} {db : ChainDB}

theorem created_txid {k : OutPoint}
    (h : k ∈ (createdCoins env tx height tx.output 0).map Prod.fst) :
    k.txid = env.txid tx ∧ k.vout < tx.output.length := by
  obtain ⟨kv, hkv, rfl⟩ := List.mem_map.1 h
  obtain ⟨i, output, hi, -, rfl⟩ := mem_createdCoins.1 hkv
  exact ⟨rfl, by simpa using (List.getElem?_eq_some_iff.1 hi).1⟩

/-- A transaction without coins in the coin column writes over none. -/
theorem created_notMem (h : db.hasCoins env tx = false) {o : OutPoint} {coin : CoinEntry}
    (ho : db.db.coin.lookup o = some coin) :
    o ∉ (createdCoins env tx height tx.output 0).map Prod.fst := by
  intro hmem
  obtain ⟨htxid, hvout⟩ := created_txid hmem
  have hnone := List.any_eq_false.1 h o.vout (List.mem_range.2 hvout)
  rw [← htxid] at hnone
  exact hnone (decide_eq_true (Finmap.mem_of_lookup_eq_some ho))

theorem Carries.coinbase (hnew : db.hasCoins env tx = false) :
    Carries env db.db.coin height [] (CoinView.empty.addTx env tx height) where
  chain ho _ := by
    rw [CoinView.effective_addTx, CoinView.effective_empty,
      Ledger.lookup_create_of_notMem (created_notMem hnew ho), ho]
  block htx := nomatch htx

/-- A transaction of the block takes its inputs out and puts its outputs in. -/
theorem Carries.addTx (hcoins : Unspent db.db.coin) (h : Carries env db.db.coin height before view)
    (hspend : view.spendInputs db.db.coin tx.input = .ok view') (hnew : db.hasCoins env tx = false)
    (htxid : env.txid tx ∉ before.map env.txid) :
    Carries env db.db.coin height (before ++ [tx]) (view'.addTx env tx height) := by
  obtain ⟨journal, hjournal, -⟩ := CoinView.spendInputs_eq_ok hcoins hspend
  have hkept : ∀ {o coin}, (view.effective db.db.coin).lookup o = some coin → o ∉ tx.prevouts →
      o ∉ (createdCoins env tx height tx.output 0).map Prod.fst →
      ((view'.addTx env tx height).effective db.db.coin).lookup o = some coin := by
    intro o coin ho hspent hcreated
    rw [CoinView.effective_addTx, Ledger.lookup_create_of_notMem hcreated,
      Ledger.lookup_spend hjournal]
    exact (if_neg hspent).trans ho
  constructor
  · intro o coin ho hspent
    simp only [List.forall_mem_append, List.forall_mem_singleton] at hspent
    exact hkept (h.chain ho hspent.1) hspent.2 (created_notMem hnew ho)
  · intro tx' i output htx' hi hscript hspent
    simp only [List.forall_mem_append, List.forall_mem_singleton] at hspent
    rcases List.mem_append.1 htx' with htx' | htx'
    · refine hkept (h.block htx' hi hscript hspent.1) hspent.2 fun hmem => htxid ?_
      exact List.mem_map.2 ⟨tx', htx', (created_txid hmem).1⟩
    · obtain rfl := List.mem_singleton.1 htx'
      rw [CoinView.effective_addTx, Ledger.lookup_create_eq_some
        (nodup_createdCoins env tx' height tx'.output 0)]
      exact .inl (mem_createdCoins.2 ⟨i, output, hi, hscript, by rw [Nat.zero_add]⟩)

end Carries

section Packed

variable {accepted before after : List Transaction} {tx : Transaction} {view : CoinView}
  {time : Nat}

/-- Two transactions of the block spend different coins. -/
theorem prevouts_disjoint (hreachable : MemPool.Reachable env n.pool) {tx tx' : Transaction}
    {entry entry' : MemPoolEntry} (h : n.pool.transactions.lookup (env.txid tx) = some entry)
    (h' : n.pool.transactions.lookup (env.txid tx') = some entry') (htx : entry.tx = tx)
    (htx' : entry'.tx = tx') (hne : env.txid tx ≠ env.txid tx') {o : OutPoint}
    (ho : o ∈ tx.prevouts) : o ∉ tx'.prevouts := by
  subst htx htx'
  exact fun ho' => hne (hreachable.inv.indexed.unique h h' ho ho')

/-- What the checks of the pool have shown. -/
theorem verify_eq_ok {c : Chain} {entry : MemPoolEntry}
    (h : MemPool.verify env c entry view = .ok ()) :
    c.verifyLocks c.tip entry.tx view LockFlags.STANDARD_LOCKTIME_FLAGS = .ok ()
      ∧ (∃ fee, entry.tx.checkInputs view (c.height + 1) = .ok fee)
      ∧ entry.tx.verifyScripts env view c.state.scriptFlags = .ok () := by
  have hok : ∀ {α : Type} {x : Except (Stop TransactionVerificationError) α} {a : α},
      MempoolError.ofTransaction x = .ok a ↔ x = .ok a := by
    intro α x a
    unfold MempoolError.ofTransaction
    split <;> simp_all
  simp only [MemPool.verify, bind_eq_ok, hok] at h
  obtain ⟨_, hlocks, fee, hfee, hscripts⟩ := h
  exact ⟨hlocks, ⟨fee, hfee⟩, hscripts⟩

/-- What the pool saw of a coin agrees with what the view of the block holds. -/
theorem exists_settled (hid : TxidFaithful env) (hscripts : UnspendableFails env) {c : Chain}
    {pool : MemPool} {now : Nat} {entry : MemPoolEntry} {pooledView : CoinView}
    (hon : OnTip env n c pool)
    (haccepted : Accepted env pool c now tx entry pooledView) {height : Nat}
    (hview : Carries env n.chain.db.db.coin height before view)
    (hbefore : ∀ b ∈ before, b.isCoinBase = false ∧ ∀ o ∈ tx.prevouts, o ∉ b.prevouts)
    (hparents : ∀ o ∈ tx.prevouts, o.txid ∈ n.pool.transactions → o.txid ∈ before.map env.txid)
    {input : TxIn} (hinput : input ∈ tx.input) {pooled : CoinEntry}
    (hpooled : pooledView.getEntry input.previousOutput = some pooled) :
    ∃ coin, (view.effective n.chain.db.db.coin).lookup input.previousOutput = some coin
      ∧ pooled.Settles height coin := by
  have ho : input.previousOutput ∈ tx.prevouts := List.mem_map_of_mem hinput
  have hoff : ∀ b ∈ before, input.previousOutput ∉ b.prevouts := fun b hb => (hbefore b hb).2 _ ho
  obtain ⟨-, -, hverified⟩ := verify_eq_ok haccepted.verified
  rw [haccepted.tx_eq] at hverified
  have hscript : env.isProvablyUnspendable pooled.output.scriptPubkey = false :=
    isProvablyUnspendable_of_verifyScripts hscripts hverified hinput
      (by rw [CoinView.getOutput, hpooled]; rfl)
  rw [getEntry_getCoinView haccepted.view_eq ho, coinAt] at hpooled
  cases hlookup : pool.transactions.lookup input.previousOutput.txid with
  | none =>
    simp only [hlookup, ChainDB.readCoin, ← hon.coins] at hpooled
    obtain ⟨coin, hcoin, rfl⟩ := Option.map_eq_some_iff.1 hpooled
    exact ⟨coin, hview.chain hcoin hoff, rfl, rfl, .inl rfl⟩
  | some parent =>
    simp only [hlookup] at hpooled
    split_ifs at hpooled
    obtain ⟨output, houtput, rfl⟩ := Option.map_eq_some_iff.1 hpooled
    have hheld := hon.grown _ _ hlookup
    obtain ⟨b, hb, htxid⟩ := List.mem_map.1 (hparents _ ho (Finmap.mem_of_lookup_eq_some hheld))
    have inv := hon.reachable.inv
    obtain ⟨-, hout⟩ := hid b parent.tx (htxid.trans (inv.key hlookup).symm)
    have hblock := @hview.block b input.previousOutput.vout output hb (hout ▸ houtput) hscript
    rw [htxid] at hblock
    refine ⟨_, hblock hoff, rfl, ?_, .inr ⟨rfl, rfl⟩⟩
    rw [inv.not_coinbase hlookup, (hbefore b hb).1]

/-- A transaction accepted on the tip passes against a view that carries what it depends on. -/
theorem passes_of_carries (law : env.Lawful) (hid : TxidFaithful env)
    (hscripts : UnspendableFails env) (hc : Chain.Visited env n.chain) {c : Chain} {pool : MemPool}
    {now : Nat} {entry : MemPoolEntry} {pooledView : CoinView} (hon : OnTip env n c pool)
    (haccepted : Accepted env pool c now tx entry pooledView)
    (hview : Carries env n.chain.db.db.coin (n.chain.tip.height + 1) before view)
    (hbefore : ∀ b ∈ before, b.isCoinBase = false ∧ ∀ o ∈ tx.prevouts, o ∉ b.prevouts)
    (hparents : ∀ o ∈ tx.prevouts, o.txid ∈ n.pool.transactions → o.txid ∈ before.map env.txid)
    (hmtp : n.chain.db.getMedianTime n.chain.tip < time) (htime : time < 2 ^ 31) :
    Passes n.chain time tx view := by
  have above := hon.above law hc
  have hcoins := (hc.undoInv law).unspent
  obtain ⟨hlocks, ⟨fee, hfee⟩, -⟩ := verify_eq_ok haccepted.verified
  rw [haccepted.tx_eq] at hlocks hfee
  rw [above.inv.height_eq, ← hon.tip] at hfee
  have hnd := (Transaction.checkSanity_eq_ok haccepted.sanity).nodup
  -- every input is there to be spent, and is then in the view, marked
  have hsettled := fun input (hinput : input ∈ tx.input) pooled hpooled =>
    @exists_settled env n before tx view hid hscripts c pool now entry pooledView hon
      haccepted _ hview
      hbefore hparents input hinput pooled hpooled
  obtain ⟨_, hspend⟩ := @Ledger.exists_spend _ _ _ (view.effective n.chain.db.db.coin) _ hnd
    fun o ho => by
      obtain ⟨input, hinput, rfl⟩ := List.mem_map.1 ho
      obtain ⟨pooled, hpooled⟩ := Option.ne_none_iff_exists'.1 (haccepted.coins hinput)
      obtain ⟨coin, hcoin, -⟩ := hsettled input hinput pooled hpooled
      exact Finmap.mem_of_lookup_eq_some hcoin
  obtain ⟨view', hview'⟩ := CoinView.spendInputs_of_spend hcoins hspend
  have hmarked : ∀ input ∈ tx.input, ∀ pooled,
      pooledView.getEntry input.previousOutput = some pooled → ∃ coin,
        view'.getEntry input.previousOutput = some coin
          ∧ pooled.Settles (n.chain.tip.height + 1) coin := by
    intro input hinput pooled hpooled
    obtain ⟨coin, hcoin, hsettles⟩ := hsettled input hinput pooled hpooled
    exact ⟨coin.markSpent, CoinView.getEntry_spendInputs hcoins hview' hnd
      (List.mem_map_of_mem hinput) hcoin, hsettles.output, hsettles.coinbase, hsettles.height⟩
  refine ⟨fun state => ?_, view', hview', ⟨fee, Transaction.checkInputs_of_settles hfee hmarked⟩,
    fun flags => ?_⟩
  · have hmedian := above.getMedianTime_le law
    have hclock : ∀ b : Bool, n.chain.db.getMedianTime n.chain.tip
        ≤ (if b then n.chain.db.getMedianTime n.chain.tip else time)
        ∧ (if b then n.chain.db.getMedianTime n.chain.tip else time) < 2 ^ 31 := by
      intro b
      split_ifs <;> omega
    have hfinal := Chain.isFinal_of_verifyFinal haccepted.final
      (hmedian.trans (hclock state.hasMtp).1) (hclock state.hasMtp).2
    rwa [← hon.tip] at hfinal
  · exact Chain.verifyLocks_of_settles law above hlocks (fun input hinput => haccepted.coins hinput)
      (above.inv'.height_eq ▸ hmarked) flags

/-- A transaction that the pool accepts on a tip passes the checks of every block on it that holds
a coinbase, which creates no coin anew, and then the transaction behind all it depends on. -/
theorem accepted_passes (law : env.Lawful) (hid : TxidFaithful env)
    (hscripts : UnspendableFails env)
    (hc : Chain.Visited env n₀.chain) (hpool : MemPool.Reachable env n₀.pool)
    (hgrow : Grows env n₀ n accepted) {coinbase : Transaction}
    (hnew : n.chain.db.hasCoins env coinbase = false)
    (hcoinbase : coinbase.isCoinBase = true) (hpacked : Packed env n.pool accepted txs)
    (hmtp : n.chain.db.getMedianTime n.chain.tip < time) (htime : time < 2 ^ 31)
    (htxs : txs = before ++ tx :: after) :
    ∃ view, blockView env n.chain.db.db.coin (n.chain.tip.height + 1) (coinbase :: before)
        CoinView.empty = .ok view ∧ Passes n.chain time tx view := by
  obtain ⟨hvisited, hreachable, hacc⟩ := hgrow.accepted law hc hpool
  have hcoins := (hvisited.undoInv law).unspent
  have hpass : ∀ {before after tx view}, txs = before ++ tx :: after →
      Carries env n.chain.db.db.coin (n.chain.tip.height + 1) before view →
      Passes n.chain time tx view ∧ tx.isCoinBase = false ∧ n.chain.db.hasCoins env tx = false
        ∧ env.txid tx ∉ before.map env.txid := by
    intro before after tx view htxs hview
    obtain ⟨c, pool, now, entry, pooledView, hon, haccepted, hlookup⟩ :=
      hacc tx (hpacked.accepted (htxs ▸ List.mem_append_right _ List.mem_cons_self))
    have hnot : env.txid tx ∉ before.map env.txid := by
      have hnd := hpacked.nodup
      rw [htxs, List.map_append, List.map_cons, List.nodup_append] at hnd
      exact fun hmem => hnd.2.2 _ hmem _ List.mem_cons_self rfl
    refine ⟨passes_of_carries law hid hscripts hvisited hon haccepted hview (fun b hb => ?_)
      (hpacked.parents htxs) hmtp htime, haccepted.not_coinbase, ?_, hnot⟩
    · obtain ⟨_, _, _, entry', _, _, haccepted', hlookup'⟩ :=
        hacc b (hpacked.accepted (htxs ▸ List.mem_append_left _ hb))
      refine ⟨haccepted'.not_coinbase, fun o ho => ?_⟩
      exact prevouts_disjoint hreachable hlookup hlookup' haccepted.tx_eq haccepted'.tx_eq
        (fun heq => hnot (heq ▸ List.mem_map_of_mem hb)) ho
    · have hnew := haccepted.new_coins
      rwa [ChainDB.hasCoins, ← hon.coins] at hnew
  -- forward along the block, with the view that the transactions so far have left
  have hrun : ∀ mid done view, txs = done ++ mid ++ tx :: after →
      Carries env n.chain.db.db.coin (n.chain.tip.height + 1) done view →
      ∃ view', blockView env n.chain.db.db.coin (n.chain.tip.height + 1) mid view = .ok view'
        ∧ Passes n.chain time tx view' := by
    intro mid
    induction mid with
    | nil =>
      intro done view htxs hview
      exact ⟨view, rfl, (hpass (by simpa using htxs) hview).1⟩
    | cons t mid ih =>
      intro done view htxs hview
      obtain ⟨hpasses, hnotbase, hnewt, htxid⟩ := hpass (by simpa using htxs) hview
      obtain ⟨view₁, hspend, -⟩ := hpasses.spends
      obtain ⟨view', hview', hlast⟩ := ih (done ++ [t]) _ (by simpa using htxs)
        (hview.addTx hcoins hspend hnewt htxid)
      refine ⟨view', ?_, hlast⟩
      rw [blockView, if_neg (by simp [hnotbase]), hspend]
      exact hview'
  obtain ⟨view, hview, hpasses⟩ := hrun before [] _ htxs (.coinbase hnew)
  refine ⟨view, ?_, hpasses⟩
  rw [blockView, if_pos hcoinbase]
  exact hview

end Packed

end Node

/-! ## A coinbase that comes back -/

namespace Small

/-- The paying network, where a coinbase names its height from height 101 on. -/
def indicating : Env :=
  { paying with
    bip34BlockHeight := fun block =>
      match block.txdata.head?.map Transaction.input with
      | some [⟨_, [high, low], _, _⟩] => some (high.toNat * 256 + low.toNat)
      | _ => none
    network := { paying.network with bip34Height := 101 } }

theorem indicating_lawful : indicating.Lawful where
  blockHash_ne_zero _ := Nat.succ_ne_zero _
  work_pos _ _ := Nat.two_pos
  genesis_prev := rfl

/-- A hundred blocks, the first with the coinbase of block 101. -/
def indicatedBranch : List Block :=
  numberedBlock 1 [reward 101] ::
    (List.range 99).map fun n => numberedBlock (n + 2) [reward (n + 2)]

/-- Spends the coinbase of the first block. -/
def renewedSpend : Transaction := pay [reward 101] 4000000000

/-- Spends the output of that transaction. -/
def renewedChild : Transaction := pay [renewedSpend] 3000000000

/-- Block 101, whose coinbase is that of the first block. -/
def renewing : Block := numberedBlock 101 [reward 101, renewedSpend]

/-- The node behind the hundred blocks, with the pools after each of the two transactions. -/
structure Renewed (n : Node) (pool pool' : MemPool) : Prop where
  first : n.pool.addTx indicating n.chain 1000 renewedSpend = .ok (pool, .ok ())
  second : pool.addTx indicating n.chain 1000 renewedChild = .ok (pool', .ok ())
  parent : indicating.txid (reward 101) ∉ pool.transactions
    ∧ indicating.txid (reward 101) ∉ pool'.transactions
  fresh : n.chain.db.hasCoins indicating (reward 102) = false
  median : n.chain.db.getMedianTime n.chain.tip < renewing.header.time
  refused : ∃ c, n.chain.verifyContext indicating renewing n.chain.tip
    = .ok (c, .error (.badTransaction .prematureCoinbaseSpend))

def isRenewed (n : Node) : Bool :=
  (match n.pool.addTx indicating n.chain 1000 renewedSpend with
    | .ok (pool, .ok ()) =>
      match pool.addTx indicating n.chain 1000 renewedChild with
      | .ok (pool', .ok ()) => decide (indicating.txid (reward 101) ∉ pool.transactions
        ∧ indicating.txid (reward 101) ∉ pool'.transactions)
      | _ => false
    | _ => false)
  && (decide (n.chain.db.hasCoins indicating (reward 102) = false
      ∧ n.chain.db.getMedianTime n.chain.tip < renewing.header.time)
    && match n.chain.verifyContext indicating renewing n.chain.tip with
      | .ok (_, .error (.badTransaction .prematureCoinbaseSpend)) => true
      | _ => false)

theorem renewed_of_isRenewed {n : Node} (h : isRenewed n = true) :
    ∃ pool pool', Renewed n pool pool' := by
  unfold isRenewed at h
  rw [Bool.and_eq_true_iff, Bool.and_eq_true_iff, decide_eq_true_eq] at h
  obtain ⟨hpools, ⟨hfresh, hmedian⟩, hrefused⟩ := h
  split at hpools
  · rename_i pool hfirst
    split at hpools
    · rename_i pool' hsecond
      refine ⟨pool, pool', hfirst, hsecond, of_decide_eq_true hpools, hfresh, hmedian, ?_⟩
      split at hrefused
      · rename_i c heq
        exact ⟨c, heq⟩
      · cases hrefused
    · cases hpools
  · cases hpools

theorem indicating_plain : Plain indicating := { paying_plain with law := indicating_lawful }

/-- The blocks of `indicatedBranch`. -/
def indicatedLine : Straight indicating :=
  rewards indicating_plain 20 fun k => if k = 1 then 101 else k

theorem indicatedLine_extends (k : Nat) (hk : k < 100) : indicatedLine.Extends 1000 k := by
  refine rewards_extends indicating_plain (by decide) (by decide) (by decide) (by decide)
    (fun i hi => ?_) (fun i j hpos hij hj => ?_) hk
  · split_ifs <;> omega
  · split_ifs <;> omega

set_option maxRecDepth 40000 in
theorem exists_renewed : ∃ n pool pool', Node.Visited indicating n ∧ Renewed n pool pool' := by
  have hbranch : indicatedBranch = (List.range 100).map fun k => indicatedLine.block (k + 1) := by
    decide +kernel
  obtain ⟨n, hn, hrenewed⟩ := Node.exists_visited indicating 1000
    (indicatedBranch.flatMap connectActs) isRenewed (by
      rw [hbranch, ← straightActs_eq indicating_plain, ← List.append_nil (Node.straightActs _ _)]
      refine (Node.map_run_straight rfl indicatedLine_extends _ _).trans ?_
      decide +kernel)
  obtain ⟨pool, pool', h⟩ := renewed_of_isRenewed hrenewed
  exact ⟨n, pool, pool', hn, h⟩

theorem indicating_txidFaithful : TxidFaithful indicating := paying_txidFaithful

theorem indicating_unspendableFails : UnspendableFails indicating := by
  intro script value tx spent index flags h
  exact (Bool.not_eq_true' (script.head? == some 0x6a)).mp h

/-- The first transaction spends a coin of the chain, the second one the output of the first. -/
theorem packed_renewed {n : Node} {pool pool' : MemPool} (h : Renewed n pool pool') :
    Node.Packed indicating pool [renewedSpend] [renewedSpend]
      ∧ Node.Packed indicating pool' [renewedSpend, renewedChild] [renewedSpend, renewedChild] := by
  have hfirst : ∀ o ∈ renewedSpend.prevouts, o.txid = indicating.txid (reward 101) := fun o ho => by
    rw [List.mem_singleton.1 ho]
    rfl
  have hsecond : ∀ o ∈ renewedChild.prevouts,
      o.txid = indicating.txid renewedSpend := fun o ho => by
    rw [List.mem_singleton.1 ho]
    rfl
  refine ⟨⟨id, List.nodup_singleton _, fun {before after tx} htxs o ho hpool => ?_⟩,
    ⟨id, by decide +kernel, fun {before after tx} htxs o ho hpool => ?_⟩⟩
  · match before, htxs with
    | [], htxs =>
      obtain ⟨rfl, -⟩ := List.cons.inj htxs
      exact absurd (hfirst o ho ▸ hpool) h.parent.1
    | [_], htxs => cases (List.cons.inj htxs).2
    | _ :: _ :: _, htxs => cases (List.cons.inj htxs).2
  · match before, htxs with
    | [], htxs =>
      obtain ⟨rfl, -⟩ := List.cons.inj htxs
      exact absurd (hfirst o ho ▸ hpool) h.parent.2
    | [first], htxs =>
      obtain ⟨rfl, -⟩ := List.cons.inj (List.cons.inj htxs).2
      obtain rfl := (List.cons.inj htxs).1
      exact List.mem_singleton.2 (hsecond o ho)
    | [_, _], htxs => cases (List.cons.inj (List.cons.inj htxs).2).2
    | _ :: _ :: _ :: _, htxs => cases (List.cons.inj (List.cons.inj htxs).2).2

end Small

namespace Node

/-- The block brings the coinbase of the first block back, and with it a fresh coin in the place of
the ripe one that the transaction spends. -/
theorem accepted_fails : ∃ n pool, Visited Small.indicating n
    ∧ Grows Small.indicating n ⟨n.chain, pool⟩ [Small.renewedSpend]
    ∧ Packed Small.indicating pool [Small.renewedSpend] [Small.renewedSpend]
    ∧ Small.renewing.txdata = [Small.reward 101, Small.renewedSpend]
    ∧ (Small.reward 101).isCoinBase = true
    ∧ n.chain.db.getMedianTime n.chain.tip < Small.renewing.header.time
    ∧ ∃ c, n.chain.verifyContext Small.indicating Small.renewing n.chain.tip
      = .ok (c, .error (.badTransaction .prematureCoinbaseSpend)) := by
  obtain ⟨n, pool, pool', hn, h⟩ := Small.exists_renewed
  exact ⟨n, pool, hn, .addTx .refl h.first, (Small.packed_renewed h).1, rfl, by decide, h.median,
    h.refused⟩

/-- The second of two transactions passes behind the first, in a block with a new coinbase. -/
theorem accepted_passes_second : ∃ n view, Visited Small.indicating n
    ∧ blockView Small.indicating n.chain.db.db.coin (n.chain.tip.height + 1)
      [Small.reward 102, Small.renewedSpend] CoinView.empty = .ok view
    ∧ Passes n.chain 121 Small.renewedChild view := by
  obtain ⟨n, pool, pool', hn, h⟩ := Small.exists_renewed
  obtain ⟨view, hview, hpasses⟩ := @accepted_passes Small.indicating n ⟨n.chain, pool'⟩ _
    [Small.renewedSpend, Small.renewedChild] [Small.renewedSpend] [] Small.renewedChild 121
    Small.indicating_lawful Small.indicating_txidFaithful Small.indicating_unspendableFails hn.chain
    hn.pool (.addTx (.addTx .refl h.first) h.second) (Small.reward 102) h.fresh (by decide)
    (Small.packed_renewed h).2 h.median (by decide) rfl
  exact ⟨n, view, hn, hview, hpasses⟩

end Node

end BitcoinNode
