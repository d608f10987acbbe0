import BitcoinNode.Blockchain.Undo

/-!
# The books of a line of blocks

What the database should say of a main chain, computed from the blocks of that chain alone:
the coins, the tip, the number of transactions and the two indexes. Connecting a block in
the database is connecting it in the books.
-/

namespace BitcoinNode

/-- What the database keeps of the blocks of the main chain. -/
@[ext]
structure Books where
  coin : FMap OutPoint CoinEntry
  tip : BlockHash
  tx : Nat
  hash : FMap Nat BlockHash
  nextHash : FMap BlockHash BlockHash

namespace Books

/-- The books of the genesis block, which adds no coins. -/
def genesis (env : Env) : Books where
  coin := ∅
  tip := env.genesisEntry.hash
  tx := Word.add 64 0 env.genesisBlock.txdata.length
  hash := (∅ : FMap Nat BlockHash).insert 0 env.genesisEntry.hash
  nextHash := ∅

/-- The books after one more block; `none` when it spends a coin that is not there. -/
def connect (env : Env) (books : Books) (item : ChainEntry × Block) : Option Books :=
  (Ledger.applyAll books.coin (item.2.ledgerTxs env item.1.height)).map fun r =>
    { coin := r.1
      tip := item.1.hash
      tx := Word.add 64 books.tx item.2.txdata.length
      hash := books.hash.insert item.1.height item.1.hash
      nextHash := books.nextHash.insert item.1.prevBlock item.1.hash }

/-- The books of a line of blocks from the first one after genesis on. -/
def ofLine (env : Env) (line : List (ChainEntry × Block)) : Option Books :=
  line.foldlM (connect env) (genesis env)

variable {env : Env} {books books' : Books} {line : List (ChainEntry × Block)}
  {item : ChainEntry × Block}

theorem connect_eq_some : books.connect env item = some books' ↔ ∃ journal,
    Ledger.applyAll books.coin (item.2.ledgerTxs env item.1.height) = some (books'.coin, journal)
      ∧ books'.tip = item.1.hash ∧ books'.tx = Word.add 64 books.tx item.2.txdata.length
      ∧ books'.hash = books.hash.insert item.1.height item.1.hash
      ∧ books'.nextHash = books.nextHash.insert item.1.prevBlock item.1.hash := by
  constructor
  · intro h
    obtain ⟨⟨coin, journal⟩, hr, rfl⟩ := Option.map_eq_some_iff.1 h
    exact ⟨journal, hr, rfl, rfl, rfl, rfl⟩
  · rintro ⟨journal, hr, htip, htx, hhash, hnext⟩
    rw [connect, hr, Option.map_some]
    exact congrArg some (Books.ext rfl htip.symm htx.symm hhash.symm hnext.symm)

@[simp] theorem ofLine_nil : ofLine env [] = some (genesis env) := rfl

theorem ofLine_append_singleton :
    ofLine env (line ++ [item]) = (ofLine env line).bind (connect env · item) := by
  simp [ofLine, List.foldlM_append]

theorem connect_unspent (hbooks : Unspent books.coin) (h : books.connect env item = some books') :
    Unspent books'.coin ∧ ∀ journal, Ledger.applyAll books.coin
      (item.2.ledgerTxs env item.1.height) = some (books'.coin, journal) →
        ∀ coin ∈ journal, coin.spent = false := by
  have hcreates : ∀ tx ∈ item.2.ledgerTxs env item.1.height, ∀ kv ∈ tx.creates,
      kv.2.spent = false := by
    intro tx htx kv hkv
    obtain ⟨tx', -, rfl⟩ := List.mem_map.1 htx
    obtain ⟨_, _, -, -, rfl⟩ := mem_createdCoins.1 hkv
    rfl
  obtain ⟨journal, happly, -⟩ := connect_eq_some.1 h
  refine ⟨(Ledger.applyAll_values hbooks hcreates happly).2, fun journal happly coin hcoin => ?_⟩
  obtain ⟨-, hspent⟩ := (Ledger.applyAll_values hbooks hcreates happly).1 coin hcoin
  exact hspent

/-- The books hold no coin that is marked spent. -/
theorem ofLine_unspent (h : ofLine env line = some books) : Unspent books.coin := by
  induction line using List.reverseRecOn generalizing books with
  | nil =>
    obtain rfl := Option.some.inj h
    exact fun _ _ hcoin => absurd hcoin (by simp [genesis])
  | append_singleton line item ih =>
    rw [ofLine_append_singleton] at h
    obtain ⟨before, hbefore, hconnect⟩ := Option.bind_eq_some_iff.1 h
    exact (connect_unspent (ih hbefore) hconnect).1

end Books

namespace ChainDB

/-- What a database says. -/
def books (db : ChainDB) : Books where
  coin := db.db.coin
  tip := db.state.tip
  tx := db.state.tx
  hash := db.db.hash
  nextHash := db.db.nextHash

/-- The blocks of the branch that ends with an entry, in order, without the genesis block. -/
inductive Line (db : ChainDB) : ChainEntry → List (ChainEntry × Block) → Prop where
  | genesis {e : ChainEntry} : e.isGenesis = true → Line db e []
  | child {e p : ChainEntry} {block : Block} {line : List (ChainEntry × Block)} :
      e.isGenesis = false → db.getEntryByHash e.prevBlock = some p →
      db.getBlock e.hash = some block → Line db p line → Line db e (line ++ [(e, block)])

variable {env : Env} {db db' : ChainDB} {e : ChainEntry} {line line' : List (ChainEntry × Block)}

theorem Line.mono (h : db.Line e line)
    (hentries : ∀ hash e, db.getEntryByHash hash = some e → db'.getEntryByHash hash = some e)
    (hblocks : ∀ hash b, db.getBlock hash = some b → db'.getBlock hash = some b) :
    db'.Line e line := by
  induction h with
  | genesis hgen => exact .genesis hgen
  | child hgen hp hb _ ih => exact .child hgen (hentries _ _ hp) (hblocks _ _ hb) ih

theorem Line.unique (h : db.Line e line) (h' : db.Line e line') : line = line' := by
  induction h generalizing line' with
  | genesis hgen =>
    cases h' with
    | genesis => rfl
    | child hgen' => simp [hgen] at hgen'
  | child hgen hp hb _ ih =>
    cases h' with
    | genesis hgen' => simp [hgen] at hgen'
    | child _ hp' hb' hline' =>
      cases hp.symm.trans hp'
      cases hb.symm.trans hb'
      rw [ih hline']

/-- The blocks of a line are stored, with their entries. -/
theorem Line.mem (tree : db.Tree env) (h : db.Line e line)
    (he : db.getEntryByHash e.hash = some e) : ∀ item ∈ line,
      item.1.isGenesis = false ∧ db.getEntryByHash item.1.hash = some item.1
        ∧ db.getBlock item.1.hash = some item.2 := by
  induction h with
  | genesis => simp
  | child hgen hp hb _ ih =>
    intro item hitem
    rcases List.mem_append.1 hitem with hitem | hitem
    · exact ih (tree.self hp) item hitem
    · obtain rfl := List.mem_singleton.1 hitem
      exact ⟨hgen, he, hb⟩

/-- The books of a line are about its entry and the heights up to it. -/
theorem Line.books (tree : db.Tree env) (h : db.Line e line)
    (he : db.getEntryByHash e.hash = some e) {books : Books}
    (hbooks : Books.ofLine env line = some books) :
    books.tip = e.hash ∧ books.tx < 2 ^ 64 ∧ (∀ n ∈ books.hash, n ≤ e.height)
      ∧ ∀ hash ∈ books.nextHash, ∃ a, db.getEntryByHash hash = some a ∧ a.height < e.height := by
  induction h generalizing books with
  | @genesis e hgen =>
    obtain rfl := Option.some.inj hbooks
    have hheight : e.height = 0 := by simpa [ChainEntry.isGenesis] using hgen
    obtain rfl := tree.rooted.eq_root_of_rank he hheight
    refine ⟨rfl, Word.add_lt _ _ _, ?_, fun hash hmem => absurd hmem Finmap.notMem_empty⟩
    intro n hn
    simpa [Books.genesis, Finmap.mem_insert, Finmap.notMem_empty] using hn
  | @child e p block line hgen hp hb _ ih =>
    rw [Books.ofLine_append_singleton] at hbooks
    obtain ⟨before, hbefore, hconnect⟩ := Option.bind_eq_some_iff.1 hbooks
    obtain ⟨-, -, htip, htx, hhash, hnext⟩ := Books.connect_eq_some.1 hconnect
    obtain ⟨-, -, hheights, hnexts⟩ := ih (tree.self hp) hbefore
    have hheight := tree.height_eq he hp
    refine ⟨htip, htx ▸ Word.add_lt _ _ _, ?_, ?_⟩
    · intro n hn
      rw [hhash, Finmap.mem_insert] at hn
      rcases hn with rfl | hn
      · exact le_rfl
      · exact (hheights n hn).trans (by omega)
    · intro hash hmem
      rw [hnext, Finmap.mem_insert] at hmem
      rcases hmem with rfl | hmem
      · exact ⟨p, hp, by omega⟩
      · obtain ⟨a, ha, hlt⟩ := hnexts hash hmem
        exact ⟨a, ha, by omega⟩

/-! ## Counters and blocks -/

theorem spendCoins_tx {view : CoinView} {inputs : List TxIn} {pending record : ChainState}
    (h : spendCoins view inputs pending = .ok record) :
    record.tx = pending.tx := by
  induction inputs generalizing pending with
  | nil =>
    cases h
    rfl
  | cons input inputs ih =>
    rw [spendCoins] at h
    split at h
    · cases h
    · rw [ih h, ChainState.spend_tx]

theorem addCoins_tx (env : Env) (outputs : List TxOut) (pending : ChainState) :
    (addCoins env outputs pending).tx = pending.tx := by
  induction outputs generalizing pending with
  | nil => rfl
  | cons output outputs ih =>
    rw [addCoins, List.foldl_cons]
    split
    · exact ih pending
    · exact (ih _).trans (ChainState.add_tx pending output)

/-- The transaction loop leaves the number of transactions alone. -/
theorem connectTransactions_tx {view : CoinView} {txs : List Transaction} {i : Nat}
    {pending record : ChainState} (h : connectTransactions env view txs i pending = .ok record) :
    record.tx = pending.tx := by
  induction txs generalizing i pending with
  | nil =>
    cases h
    rfl
  | cons tx txs ih =>
    rw [connectTransactions] at h
    dsimp only at h
    split at h
    · simp only [bind_eq_ok] at h
      obtain ⟨spent, hspent, h⟩ := h
      rw [ih h, addCoins_tx, spendCoins_tx hspent]
    · rw [pure_bind] at h
      rw [ih h, addCoins_tx]

theorem dropCoins_tx (env : Env) (outputs : List TxOut) (pending : ChainState) :
    (dropCoins env outputs pending).tx = pending.tx := by
  induction outputs generalizing pending with
  | nil => rfl
  | cons output outputs ih =>
    rw [dropCoins, List.foldl_cons]
    split
    · exact ih pending
    · exact (ih _).trans (ChainState.spend_tx pending output)

theorem revertState_tx (env : Env) (pending : ChainState) (tx : Transaction)
    (journal : List CoinEntry) : (revertState env pending tx journal).tx = pending.tx := by
  rw [revertState, dropCoins_tx]
  generalize journal.reverse = coins
  induction coins generalizing pending with
  | nil => rfl
  | cons coin coins ih =>
    rw [List.foldl_cons, ih, ChainState.add_tx]

theorem revertStates_tx (env : Env) (pending : ChainState) (txs : List (Transaction × Nat))
    (journal : List CoinEntry) : (revertStates env pending txs journal).tx = pending.tx := by
  induction txs generalizing journal with
  | nil => rfl
  | cons tx txs ih => rw [revertStates, revertState_tx, ih]

end ChainDB

end BitcoinNode
