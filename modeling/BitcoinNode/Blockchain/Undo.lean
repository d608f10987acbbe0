import BitcoinNode.Blockchain.Runs
import BitcoinNode.Blockchain.View

/-!
# Undo records

What connecting and disconnecting a block do to the coins, and which blocks have an undo
record: those with a transaction besides the coinbase. Only these can be disconnected.
-/

namespace BitcoinNode

variable {env : Env}

/-! ## Positions and coinbases -/

theorem map_ledgerTx_zipIdx {txs : List Transaction} {height i : Nat} (hi : 0 < i)
    (h : ∀ tx ∈ txs, tx.isCoinBase = false) :
    (txs.map fun tx => tx.ledgerTx env height (!tx.isCoinBase)) =
      (txs.zipIdx i).map fun tx => tx.1.ledgerTx env height (decide (tx.2 > 0)) := by
  induction txs generalizing i with
  | nil => rfl
  | cons tx txs ih =>
    obtain ⟨htx, htxs⟩ := List.forall_mem_cons.1 h
    simp [htx, hi, ih (Nat.succ_pos i) htxs]

theorem map_undoCount_zipIdx {txs : List Transaction} {i : Nat} (hi : 0 < i) :
    (txs.zipIdx i).map ChainDB.undoCount = txs.map fun tx => tx.input.length := by
  induction txs generalizing i with
  | nil => rfl
  | cons tx txs ih => simp [ChainDB.undoCount, hi, ih (Nat.succ_pos i)]

namespace Block.WellFormed

variable {block : Block}

/-- The coinbase check of verification and the position check of connecting agree. -/
theorem ledgerTxs_eq (wf : block.WellFormed) (height : Nat) :
    block.ledgerTxs env height =
      block.txdata.zipIdx.map fun tx => tx.1.ledgerTx env height (decide (tx.2 > 0)) := by
  obtain ⟨coinbase, rest, hdata, hcoinbase, hrest⟩ := wf.exists_coinbase
  rw [Block.ledgerTxs, hdata]
  simp [hcoinbase, map_ledgerTx_zipIdx (Nat.one_pos) hrest]

/-- The number of coins a block spends, counted either way. -/
theorem sum_spends_eq (wf : block.WellFormed) (height : Nat) :
    ((block.ledgerTxs env height).map fun tx => tx.spends.length).sum =
      (block.txdata.zipIdx.map ChainDB.undoCount).sum := by
  rw [wf.ledgerTxs_eq, List.map_map]
  congr 2
  funext tx
  exact ChainDB.length_spends_ledgerTx tx

/-- One coin for each input of the transactions besides the coinbase. -/
theorem sum_undoCount (wf : block.WellFormed) :
    (block.txdata.zipIdx.map ChainDB.undoCount).sum =
      (block.txdata.tail.map fun tx => tx.input.length).sum := by
  obtain ⟨coinbase, rest, hdata, -, -⟩ := wf.exists_coinbase
  rw [hdata, List.tail_cons, List.zipIdx_cons, List.map_cons, List.sum_cons]
  rw [map_undoCount_zipIdx (i := 0 + 1) (Nat.succ_pos 0)]
  simp [ChainDB.undoCount]

/-- A block spends a coin exactly when it has a transaction besides the coinbase. -/
theorem sum_undoCount_eq_zero (wf : block.WellFormed) :
    (block.txdata.zipIdx.map ChainDB.undoCount).sum = 0 ↔ block.txdata.length = 1 := by
  obtain ⟨coinbase, rest, hdata, -, -⟩ := wf.exists_coinbase
  have hsane := wf.sane
  rw [hdata] at hsane ⊢
  cases rest with
  | nil => simp [ChainDB.undoCount]
  | cons tx rest =>
    have hne : tx.input ≠ [] := (hsane tx (by simp)).input_ne_nil
    simp [ChainDB.undoCount, hne]

end Block.WellFormed

/-! ## Effects on the coins -/

namespace Chain

variable {c c' : Chain} {block : Block} {entry prev : ChainEntry}

/-- What connecting a block did to the coins and the records. -/
theorem connect_effect (inv : c.Inv env) (hcoins : Unspent c.db.db.coin)
    (hentry : c.db.getEntryByHash entry.hash = some entry)
    (hblock : c.db.getBlock entry.hash = some block) (hprev : entry.prevBlock = c.tip.hash)
    (h : c.connect env block entry c.tip = .ok (c', .ok entry)) :
    ∃ cache view state record blocks journal, block.WellFormed
      ∧ (c.withCache cache).verifyInputs env block c.tip state = .ok view
      ∧ Ledger.applyAll c.db.db.coin (block.ledgerTxs env entry.height)
          = some (c'.db.db.coin, journal)
      ∧ view.undo.items = journal.map CoinEntry.markSpent
      ∧ ChainDB.connectTransactions env view block.txdata 0 (c.db.state.connect block) = .ok record
      ∧ c.db.writeUndo entry view = .ok blocks
      ∧ c' = (c.withCache cache).connected
          ((c.withCache cache).db.connected entry view (record.commit entry.hash) blocks)
          block entry view state := by
  obtain ⟨-, -, cache, ⟨e, he, -⟩ | ⟨view, state, db, -, -, hbody, hinputs, hdb, rfl⟩⟩ :=
    connect_eq_ok h
  · cases he
  have htip : c.db.getEntryByHash entry.prevBlock = some c.tip := by rw [hprev, inv.tip_stored]
  obtain ⟨record, blocks, hrecord, hundo, rfl⟩ := ChainDB.connect_eq_ok (inv.withCache cache).idle
    (inv.tree.isGenesis_eq_false hentry htip) (inv.block_hash hblock) hdb
  obtain ⟨reward, claimed, htxs, -, -⟩ := verifyInputs_eq_ok hinputs
  have hview := verifyTransactions_view htxs
  change blockView env c.db.db.coin _ _ _ = _ at hview
  obtain ⟨journal, hjournal, hitems⟩ := blockView_eq_ok hcoins hview
  rw [← inv.tree.height_eq hentry htip] at hjournal
  exact ⟨cache, view, state, record, blocks, journal, Block.checkBody_eq_ok hbody, hinputs,
    hjournal, by simpa [CoinView.empty] using hitems, hrecord, hundo, rfl⟩

/-- What disconnecting the tip did, when its undo record has the right length. -/
theorem disconnect_effect (inv : c.Inv env) {undo : UndoCoins} (wf : block.WellFormed)
    (hblock : c.db.getBlock c.tip.hash = some block)
    (hundo : c.db.blocks.undos.lookup c.tip.hash = some undo)
    (hlen : undo.items.length = (block.txdata.zipIdx.map ChainDB.undoCount).sum)
    (hprev : c.db.getEntryByHash c.tip.prevBlock = some prev) :
    ∃ view, c.disconnect env c.tip = .ok (c.disconnected
        (c.db.disconnected c.tip view ((ChainDB.revertStates env (c.db.state.disconnect block)
          block.txdata.zipIdx undo.reload.items).commit c.tip.prevBlock)) block c.tip prev view)
      ∧ view.effective c.db.db.coin = Ledger.revertAll c.db.db.coin
          (block.ledgerTxs env c.tip.height) undo.reload.items := by
  obtain ⟨view, htxs, heff⟩ := ChainDB.disconnectTransactions_eq env c.db.db.coin c.tip.height
    block.txdata.zipIdx undo.reload.items [] CoinView.empty (c.db.state.disconnect block)
      (by simpa [UndoCoins.reload] using hlen)
    (by simp [UndoCoins.reload])
  refine ⟨view, ?_, by rw [wf.ledgerTxs_eq]; exact heff⟩
  have hread : c.db.blocks.readUndo c.tip.hash = some undo.reload := by
    simp [BlockStore.readUndo, hundo]
  rw [List.nil_append] at htxs
  rw [disconnect, hblock]
  dsimp only
  rw [hprev]
  dsimp only
  rw [ChainDB.disconnect_eq inv.idle, hread]
  dsimp only
  rw [htxs, bind_of_ok rfl]
  rfl

/-! ## Which blocks have a record -/

/-- The undo records are those of blocks that spend something, each with one coin for each
input, and every such block of the main chain has one. -/
structure UndoInv (c : Chain) : Prop where
  unspent : Unspent c.db.db.coin
  record {hash : BlockHash} {undo : UndoCoins} : c.db.blocks.undos.lookup hash = some undo →
    ∃ block, c.db.getBlock hash = some block
      ∧ undo.items.length = (block.txdata.zipIdx.map ChainDB.undoCount).sum
      ∧ 0 < undo.items.length
  main {h : Nat} {hash : BlockHash} {block : Block} :
    c.db.entryCache.height.lookup (h + 1) = some hash → c.db.getBlock hash = some block →
      0 < (block.txdata.zipIdx.map ChainDB.undoCount).sum → hash ∈ c.db.blocks.undos

theorem UndoInv.new (law : env.Lawful) (h : Chain.new env = .ok c) : c.UndoInv := by
  obtain ⟨mostWork, rfl⟩ := new_eq_ok law h
  refine ⟨?_, ?_, ?_⟩
  · intro o coin hcoin
    exact absurd hcoin (by simp [ChainDB.fresh, Operation.apply, Database.insert, Database.empty])
  · intro hash undo hundo
    exact absurd hundo (by simp [ChainDB.fresh])
  · intro h hash block hh
    exact absurd (lookup_height_fresh.1 hh).1 (Nat.succ_ne_zero h)

/-- Connecting a block adds its record if it spends something. -/
theorem UndoInv.connect (inv : c.Inv env) (undo : c.UndoInv)
    (hentry : c.db.getEntryByHash entry.hash = some entry)
    (hblock : c.db.getBlock entry.hash = some block) (hprev : entry.prevBlock = c.tip.hash)
    (h : c.connect env block entry c.tip = .ok (c', .ok entry)) : c'.UndoInv := by
  have hget := (connect_sameStore inv hentry hblock hprev h).1.blocks
  obtain ⟨cache, view, state, record, blocks, journal, wf, -, happly, hitems, -, hwrite, rfl⟩ :=
    connect_effect inv undo.unspent hentry hblock hprev h
  have hundos := (ChainDB.writeUndo_eq_ok hwrite).2
  have hcount : view.undo.items.length = (block.txdata.zipIdx.map ChainDB.undoCount).sum := by
    rw [hitems, List.length_map, Ledger.length_applyAll happly, wf.sum_spends_eq]
  refine ⟨?_, ?_, ?_⟩
  · exact CoinView.unspent_effective undo.unspent view
  · intro hash undo' hlookup
    rw [hget]
    change blocks.undos.lookup hash = some undo' at hlookup
    rw [hundos] at hlookup
    split_ifs at hlookup with hkeep
    · exact undo.record hlookup
    rcases eq_or_ne hash entry.hash with rfl | hne
    · rw [Finmap.lookup_insert] at hlookup
      obtain rfl := Option.some.inj hlookup
      refine ⟨block, hblock, hcount, List.length_pos_iff.2 ?_⟩
      rintro hnil
      simp [UndoCoins.isEmpty, hnil] at hkeep
    · rw [Finmap.lookup_insert_of_ne _ hne] at hlookup
      exact undo.record hlookup
  · intro height hash b hh hb hpos
    rw [hget] at hb
    change hash ∈ blocks.undos
    have hmono : hash ∈ c.db.blocks.undos → hash ∈ blocks.undos := by
      intro hmem
      rw [hundos]
      split_ifs
      · exact hmem
      · exact Finmap.mem_insert.2 (.inr hmem)
    rcases eq_or_ne (height + 1) entry.height with heq | hne
    · obtain rfl : entry.hash = hash := Option.some.inj
        ((Finmap.lookup_insert _).symm.trans (heq ▸ hh))
      obtain rfl := Option.some.inj (hblock.symm.trans hb)
      by_cases hmem : entry.hash ∈ c.db.blocks.undos
      · exact hmono hmem
      · have hne : view.undo.isEmpty = false := by
          have : view.undo.items ≠ [] := List.length_pos_iff.1 (hcount ▸ hpos)
          simpa [UndoCoins.isEmpty] using this
        rw [hundos]
        simp [hne, hmem]
    · exact hmono (undo.main ((Finmap.lookup_insert_of_ne _ hne).symm.trans hh) hb hpos)

/-- The undo record of the tip, when the tip spends something. -/
theorem UndoInv.exists_record (inv : c.Inv env) (undo : c.UndoInv)
    (hgen : c.tip.isGenesis = false) (hblock : c.db.getBlock c.tip.hash = some block)
    (hpos : 0 < (block.txdata.zipIdx.map ChainDB.undoCount).sum) :
    ∃ record, c.db.blocks.undos.lookup c.tip.hash = some record
      ∧ record.items.length = (block.txdata.zipIdx.map ChainDB.undoCount).sum := by
  obtain ⟨n, hn⟩ : ∃ n, c.tip.height = n + 1 :=
    Nat.exists_eq_succ_of_ne_zero (by simpa [ChainEntry.isGenesis] using hgen)
  have hmem := undo.main (hn ▸ inv.main.top) hblock hpos
  obtain ⟨record, hrecord⟩ := Finmap.mem_iff.1 hmem
  obtain ⟨b, hb, hlen, -⟩ := undo.record hrecord
  obtain rfl := Option.some.inj (hblock.symm.trans hb)
  exact ⟨record, hrecord, hlen⟩

theorem Inv.tip_block (inv : c.Inv env) : ∃ block, c.db.getBlock c.tip.hash = some block := by
  have hready := (isBlockReady_iff.1 (inv.ready_of_main inv.isMainChain_tip)).2
  obtain ⟨block, hblock⟩ := Finmap.mem_iff.1 (inv.downloaded_iff.1 hready)
  exact ⟨block, hblock⟩

theorem Inv.tip_wellFormed (inv : c.Inv env) (hgen : c.tip.isGenesis = false)
    (hblock : c.db.getBlock c.tip.hash = some block) : block.WellFormed := by
  refine Block.checkBody_eq_ok (inv.block_body hblock ?_)
  intro heq
  have hstored := inv.tip_stored
  rw [heq, inv.tree.genesis] at hstored
  rw [← Option.some.inj hstored] at hgen
  cases hgen

/-- What disconnecting the tip did. -/
theorem UndoInv.disconnected (undo : c.UndoInv) (inv : c.Inv env)
    (h : c.disconnect env c.tip = .ok c') :
    ∃ block prev stored view, c.db.getBlock c.tip.hash = some block ∧ block.WellFormed
      ∧ c.db.getEntryByHash c.tip.prevBlock = some prev
      ∧ c.db.blocks.undos.lookup c.tip.hash = some stored
      ∧ view.effective c.db.db.coin = Ledger.revertAll c.db.db.coin
        (block.ledgerTxs env c.tip.height) stored.reload.items
      ∧ c' = c.disconnected (c.db.disconnected c.tip view ((ChainDB.revertStates env
        (c.db.state.disconnect block) block.txdata.zipIdx stored.reload.items).commit
          c.tip.prevBlock)) block c.tip prev view := by
  obtain ⟨block, prev, db, view, hblock, hprev, hdb, -⟩ := disconnect_eq_ok h
  obtain ⟨_, _, hread, -, -⟩ := ChainDB.disconnect_eq_ok inv.idle hdb
  obtain ⟨stored, hstored, -⟩ := Option.map_eq_some_iff.1 hread
  obtain ⟨b, hb, hlen, -⟩ := undo.record hstored
  cases hblock.symm.trans hb
  have wf := inv.tip_wellFormed (inv.tree.isGenesis_eq_false inv.tip_stored hprev) hblock
  obtain ⟨view, hdisc, heffective⟩ := disconnect_effect inv wf hblock hstored hlen hprev
  exact ⟨block, prev, stored, view, hblock, wf, hprev, hstored, heffective,
    Except.ok.inj (h.symm.trans hdisc)⟩

/-- Disconnecting the tip keeps every record. -/
theorem UndoInv.disconnect (inv : c.Inv env) (undo : c.UndoInv)
    (h : c.disconnect env c.tip = .ok c') : c'.UndoInv := by
  obtain ⟨b, p, db, view, -, hprev, hdb, rfl⟩ := disconnect_eq_ok h
  obtain ⟨_, _, -, -, rfl⟩ := ChainDB.disconnect_eq_ok inv.idle hdb
  refine ⟨CoinView.unspent_effective undo.unspent view, undo.record, ?_⟩
  intro h hash b hh hb hpos
  refine undo.main (h := h) ?_ hb hpos
  rcases eq_or_ne (h + 1) c.tip.height with heq | hne
  · rw [heq] at hh
    exact absurd ((Finmap.lookup_erase _ _).symm.trans hh) (by simp)
  · exact (Finmap.lookup_erase_ne hne).symm.trans hh

theorem UndoInv.move (undo : c.UndoInv) (inv : c.Inv env)
    (h : Move env c c') : c'.UndoInv := by
  cases h with
  | cache cache => exact ⟨undo.unspent, undo.record, undo.main⟩
  | header h =>
    rcases addHeader_eq_ok h with ⟨_, hr, -⟩ | ⟨_, _, _, _, -, -, -, -, -, -, -, -, hsave, rfl⟩
    · cases hr
    · obtain ⟨mostWork, rfl⟩ := ChainDB.saveEntry_eq_ok inv.idle hsave
      exact ⟨undo.unspent, undo.record, undo.main⟩
  | invalid _ _ => exact ⟨undo.unspent, undo.record, undo.main⟩
  | block hentry hhash hnew hbody hwrite =>
    obtain ⟨hget, hdb, hundos⟩ := getBlock_writeBlock inv hnew hwrite
    refine ⟨by rw [hdb]; exact undo.unspent, ?_, ?_⟩
    · intro hash record hrecord
      rw [hundos] at hrecord
      obtain ⟨b, hb, hlen⟩ := undo.record hrecord
      refine ⟨b, ?_, hlen⟩
      rw [hget, if_neg, hb]
      rintro rfl
      have hstored := inv.downloaded_iff.2 (Finmap.mem_of_lookup_eq_some hb)
      simp [ChainDB.hasBlock, hstored] at hnew
    · intro h hash b hh hb hpos
      rw [hdb] at hh
      rw [hundos]
      rw [hget] at hb
      split_ifs at hb with heq
      · have hready := (isBlockReady_iff.1 (inv.main_ready hh)).2
        rw [heq] at hready
        simp [ChainDB.hasBlock, hready] at hnew
      · exact undo.main hh hb hpos
  | connect hentry _ hblock hprev h => exact undo.connect inv hentry hblock hprev h
  | disconnect h => exact undo.disconnect inv h

theorem Visited.undoInv (law : env.Lawful) (h : Visited env c) : c.UndoInv := by
  obtain ⟨c₀, hnew, hrun⟩ := h
  exact ReflTransGen.invariant_with (Q := Inv env) (fun _ _ hst hs => hs.move law hst)
    (fun _ _ hst hs hu => hu.move hs hst) hrun (Inv.new law hnew) (UndoInv.new law hnew)

/-- The tip can be disconnected: its undo record has one coin for each input of the
transactions that are not the coinbase, and `disconnect` uses it up. -/
def Disconnectable (env : Env) (c : Chain) : Prop :=
  ∃ block undo, c.db.getBlock c.tip.hash = some block
    ∧ c.db.blocks.readUndo c.tip.hash = some undo
    ∧ undo.items.length = (block.txdata.tail.map fun tx => tx.input.length).sum
    ∧ ∃ c', c.disconnect env c.tip = .ok c'

/-- The tip can be disconnected exactly when it has a transaction besides the coinbase. -/
theorem disconnectable_iff (law : env.Lawful) (h : Reachable env c)
    (hgen : c.tip.isGenesis = false) :
    c.Disconnectable env ↔ ∃ block, c.db.getBlock c.tip.hash = some block
      ∧ 1 < block.txdata.length := by
  have inv := h.inv law
  have undo := (h.visited law).undoInv law
  constructor
  · rintro ⟨block, record, hblock, hread, -, -⟩
    refine ⟨block, hblock, ?_⟩
    have wf := inv.tip_wellFormed hgen hblock
    obtain ⟨stored, hstored, -⟩ := Option.map_eq_some_iff.1 hread
    obtain ⟨b, hb, hlen, hpos⟩ := undo.record hstored
    obtain rfl := Option.some.inj (hblock.symm.trans hb)
    have hne := mt wf.sum_undoCount_eq_zero.2 (by omega)
    obtain ⟨coinbase, rest, hdata, -, -⟩ := wf.exists_coinbase
    rw [hdata] at hne ⊢
    simp only [List.length_cons] at hne ⊢
    omega
  · rintro ⟨block, hblock, hlen⟩
    have wf := inv.tip_wellFormed hgen hblock
    have hpos : 0 < (block.txdata.zipIdx.map ChainDB.undoCount).sum :=
      Nat.pos_of_ne_zero (mt wf.sum_undoCount_eq_zero.1 (by omega))
    obtain ⟨record, hrecord, hcount⟩ := undo.exists_record inv hgen hblock hpos
    obtain ⟨prev, hprev⟩ := inv.tree.exists_parent inv.tip_stored hgen
    obtain ⟨view, hdisc, -⟩ := disconnect_effect inv wf hblock hrecord hcount hprev
    refine ⟨block, record.reload, hblock, by simp [BlockStore.readUndo, hrecord], ?_, _, hdisc⟩
    rw [← wf.sum_undoCount, ← hcount]
    simp [UndoCoins.reload]

/-- Whether disconnecting the tip, which is not genesis, panics for want of its record. -/
def lacksRecord (c : Chain) : Bool :=
  !c.tip.isGenesis && match c.disconnect Small.env c.tip with
    | .error .undoMissing => true
    | _ => false

theorem exists_lacksRecord : ∃ c, Reachable Small.env c ∧ lacksRecord c = true :=
  exists_reachable Small.env [.add 100 Small.first] lacksRecord (by decide) (by decide +kernel)

/-- The characterization at a tip whose only transaction is the coinbase. -/
theorem disconnectable_iff_first : ∃ c, Reachable Small.env c ∧ c.tip.isGenesis = false
    ∧ (c.Disconnectable Small.env ↔ ∃ block, c.db.getBlock c.tip.hash = some block
      ∧ 1 < block.txdata.length) := by
  obtain ⟨c, hc, hP⟩ := exists_lacksRecord
  have hgen : c.tip.isGenesis = false := by simpa using (Bool.and_eq_true_iff.1 hP).1
  exact ⟨c, hc, hgen, disconnectable_iff Small.lawful hc hgen⟩

/-- A block with only a coinbase is accepted and becomes a tip that cannot be disconnected. -/
theorem first_not_disconnectable : ∃ c, Reachable Small.env c ∧ c.tip.isGenesis = false
    ∧ ¬ c.Disconnectable Small.env := by
  obtain ⟨c, hc, hP⟩ := exists_lacksRecord
  obtain ⟨hgen, hpanic⟩ := Bool.and_eq_true_iff.1 hP
  refine ⟨c, hc, by simpa using hgen, ?_⟩
  rintro ⟨-, -, -, -, -, c', hdisc⟩
  simp [hdisc] at hpanic

end Chain

end BitcoinNode
