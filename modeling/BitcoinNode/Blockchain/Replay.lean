import BitcoinNode.Blockchain.Ancestors
import BitcoinNode.Blockchain.Books

/-!
# Reorganizations leave no trace

The coins, the indexes and the counter of transactions of a chain are those of a fresh
database to which the blocks of its main chain are connected in order, whatever was
connected and disconnected before.
-/

namespace BitcoinNode

/-! ## Connecting a line in order -/

namespace ChainDB

/-- Connect a block in the database, with the view it is verified with. -/
def connectItem (env : Env) (db : ChainDB) (item : ChainEntry × Block) : Option ChainDB :=
  match blockView env db.db.coin item.1.height item.2.txdata CoinView.empty with
  | .error _ => none
  | .ok view => (db.connect env item.1 item.2 view).toOption

/-- Connect blocks in order. -/
def connectLine (env : Env) (db : ChainDB) (line : List (ChainEntry × Block)) : Option ChainDB :=
  line.foldlM (connectItem env) db

variable {env : Env} {db db' : ChainDB} {line : List (ChainEntry × Block)}
  {item : ChainEntry × Block}

theorem connectLine_append_singleton :
    db.connectLine env (line ++ [item]) =
      (db.connectLine env line).bind (connectItem env · item) := by
  simp [connectLine, List.foldlM_append]

/-- Nothing is staged and no coin is marked spent, as in a database between operations. -/
structure Settled (db : ChainDB) : Prop where
  idle : db.Idle
  unspent : Unspent db.db.coin
  chainState : db.db.chainState = some db.state
  height : db.entryCache.height = db.db.hash

/-- Connecting a block is connecting it in the books. -/
theorem books_connected {entry : ChainEntry} {block : Block} {view : CoinView}
    {record : ChainState} {blocks : BlockStore} (hcoins : Unspent db.db.coin)
    (hview : blockView env db.db.coin entry.height block.txdata CoinView.empty = .ok view)
    (hrecord : connectTransactions env view block.txdata 0 (db.state.connect block) = .ok record) :
    db.books.connect env (entry, block)
      = some (db.connected entry view (record.commit entry.hash) blocks).books := by
  obtain ⟨journal, hjournal, -⟩ := blockView_eq_ok hcoins hview
  refine Books.connect_eq_some.2 ⟨journal, hjournal, rfl, ?_, rfl, rfl⟩
  change record.tx = (db.state.connect block).tx
  exact connectTransactions_tx hrecord

theorem connectItem_eq_some (hdb : db.Settled) (hgen : item.1.isGenesis = false)
    (hhash : env.blockHash item.2.header = item.1.hash) (h : db.connectItem env item = some db') :
    db'.Settled ∧ db.books.connect env item = some db'.books := by
  unfold connectItem at h
  split at h
  · cases h
  rename_i view hview
  cases hconnect : db.connect env item.1 item.2 view with
  | error p => simp [hconnect, Except.toOption] at h
  | ok db'' =>
    obtain rfl : db'' = db' := by simpa [hconnect, Except.toOption] using h
    obtain ⟨record, blocks, hrecord, -, rfl⟩ := connect_eq_ok hdb.idle hgen hhash hconnect
    refine ⟨⟨⟨rfl, rfl⟩, CoinView.unspent_effective hdb.unspent view, rfl, ?_⟩,
      books_connected hdb.unspent hview hrecord⟩
    exact congrArg (Finmap.insert item.1.height item.1.hash) hdb.height

theorem connectLine_eq_some (hdb : db.Settled)
    (hline : ∀ item ∈ line, item.1.isGenesis = false ∧ env.blockHash item.2.header = item.1.hash)
    (h : db.connectLine env line = some db') :
    db'.Settled ∧ line.foldlM (Books.connect env) db.books = some db'.books := by
  induction line using List.reverseRecOn generalizing db' with
  | nil =>
    obtain rfl := Option.some.inj h
    exact ⟨hdb, rfl⟩
  | append_singleton line item ih =>
    rw [connectLine_append_singleton] at h
    obtain ⟨db₁, hbefore, hitem⟩ := Option.bind_eq_some_iff.1 h
    obtain ⟨hdb₁, hbooks₁⟩ := ih (fun item hmem => hline item (List.mem_append_left _ hmem)) hbefore
    obtain ⟨hgen, hhash⟩ := hline item (by simp)
    obtain ⟨hdb', hconnect⟩ := connectItem_eq_some hdb₁ hgen hhash hitem
    exact ⟨hdb', by simp [List.foldlM_append, hbooks₁, hconnect]⟩

theorem settled_fresh (env : Env) (mostWork : Option ChainEntry) : (fresh env mostWork).Settled :=
  ⟨⟨rfl, rfl⟩, fun _ _ h => absurd h (by
    simp [fresh, Operation.apply, Database.insert, Database.empty]), rfl, rfl⟩

/-- Whether the loop over the transactions succeeds does not depend on the counters. -/
theorem connectTransactions_of {view : CoinView} {txs : List Transaction} {i : Nat}
    {pending record : ChainState} (h : connectTransactions env view txs i pending = .ok record)
    (pending' : ChainState) :
    ∃ record', connectTransactions env view txs i pending' = .ok record' := by
  have hspend : ∀ {inputs : List TxIn} {pending record : ChainState},
      spendCoins view inputs pending = .ok record → ∀ pending', ∃ record',
        spendCoins view inputs pending' = .ok record' := by
    intro inputs
    induction inputs with
    | nil => exact fun _ pending' => ⟨pending', rfl⟩
    | cons input inputs ih =>
      intro pending record h pending'
      rw [spendCoins] at h ⊢
      split at h
      · cases h
      · exact ih h _
  induction txs generalizing i pending pending' with
  | nil => exact ⟨pending', rfl⟩
  | cons tx txs ih =>
    rw [connectTransactions] at h ⊢
    dsimp only at h ⊢
    split at h
    · rename_i hi
      simp only [bind_eq_ok] at h
      obtain ⟨spent, hspent, h⟩ := h
      obtain ⟨spent', hspent'⟩ := hspend hspent pending'
      rw [if_pos hi, hspent', bind_of_ok rfl]
      exact ih h _
    · rename_i hi
      rw [if_neg hi]
      exact ih h _

end ChainDB

namespace Chain

open Relation

variable {env : Env} {c c' : Chain} {block : Block} {entry : ChainEntry}

theorem SameStore.line {line : List (ChainEntry × Block)} (hsame : SameStore c c')
    (h : c.db.Line entry line) : c'.db.Line entry line :=
  h.mono (fun _ _ he => by rw [hsame.entries, he]) (fun _ _ hb => by rw [hsame.blocks, hb])

/-! ## The log and the stack of connected blocks -/

/-- The blocks connected and not disconnected, in order, as the listeners are told. -/
def stackOf (log : List Notification) : List (ChainEntry × Block) :=
  log.foldl (fun stack notification =>
    match notification with
    | .connect _ entry block _ => stack ++ [(entry, block)]
    | .disconnect _ _ _ _ => stack.dropLast) []

@[simp] theorem stackOf_connect (log : List Notification) (s : Snapshot) (e : ChainEntry)
    (b : Block) (v : CoinView) :
    stackOf (log ++ [Notification.connect s e b v]) = stackOf log ++ [(e, b)] := by
  simp [stackOf]

@[simp] theorem stackOf_disconnect (log : List Notification) (s : Snapshot) (e : ChainEntry)
    (b : Block) (v : CoinView) :
    stackOf (log ++ [Notification.disconnect s e b v]) = (stackOf log).dropLast := by
  simp [stackOf]

/-- No block that was connected created an outpoint that was unspent at the time. -/
def NoRecreate (env : Env) (log : List Notification) : Prop :=
  ∀ before s e b v after, log = before ++ .connect s e b v :: after →
    ∀ books, Books.ofLine env (stackOf before) = some books →
      Ledger.FreshAll books.coin (b.ledgerTxs env e.height)

theorem NoRecreate.of_append {log log' : List Notification} (h : NoRecreate env (log ++ log')) :
    NoRecreate env log := by
  rintro before s e b v after rfl
  exact h before s e b v (after ++ log') (by simp)

/-- What the state of a chain says about the blocks connected so far. -/
structure ReplayInv (env : Env) (c : Chain) : Prop where
  line : c.db.Line c.tip (stackOf c.notified)
  books : Books.ofLine env (stackOf c.notified) = some c.db.books
  replay {db₀ : ChainDB} : ChainDB.openFresh env = .ok db₀ →
    ∃ db, db₀.connectLine env (stackOf c.notified) = some db
  fresh {before after : List (ChainEntry × Block)} {item : ChainEntry × Block} {books : Books} :
    stackOf c.notified = before ++ item :: after → Books.ofLine env before = some books →
      Ledger.FreshAll books.coin (item.2.ledgerTxs env item.1.height)
  record {hash : BlockHash} {undo : UndoCoins} : c.db.blocks.undos.lookup hash = some undo →
    undo.encodedLen + 40 ≤ BlockStore.MAX_FILE_LENGTH ∧ ∃ e p b line books r,
      c.db.getEntryByHash hash = some e ∧ c.db.getEntryByHash e.prevBlock = some p
        ∧ c.db.getBlock hash = some b ∧ c.db.Line p line ∧ Books.ofLine env line = some books
        ∧ Ledger.applyAll books.coin (b.ledgerTxs env e.height) = some r
        ∧ undo.items = r.2.map CoinEntry.markSpent

/-- The moves that connect and disconnect nothing keep the books. -/
theorem ReplayInv.mono (h : c.ReplayInv env) (hlog : c'.notified = c.notified)
    (htip : c'.tip = c.tip) (hbooks : c'.db.books = c.db.books)
    (hundos : c'.db.blocks.undos = c.db.blocks.undos)
    (hentries : ∀ hash e, c.db.getEntryByHash hash = some e → c'.db.getEntryByHash hash = some e)
    (hblocks : ∀ hash b, c.db.getBlock hash = some b → c'.db.getBlock hash = some b) :
    c'.ReplayInv env := by
  refine ⟨?_, ?_, ?_, ?_, ?_⟩
  · rw [hlog, htip]
    exact h.line.mono hentries hblocks
  · rw [hlog, hbooks]
    exact h.books
  · rw [hlog]
    exact h.replay
  · rw [hlog]
    exact h.fresh
  · intro hash undo hundo
    rw [hundos] at hundo
    obtain ⟨hlen, e, p, b, line, books, r, he, hp, hb, hline, hrest⟩ := h.record hundo
    exact ⟨hlen, e, p, b, line, books, r, hentries _ _ he, hentries _ _ hp, hblocks _ _ hb,
      hline.mono hentries hblocks, hrest⟩

/-! ## Connecting and disconnecting -/

/-- The undo record of a block that connects again is the one it already has. -/
theorem ReplayInv.undo_eq (replay : c.ReplayInv env) (inv : c.Inv env) {undo : UndoCoins}
    (hentry : c.db.getEntryByHash entry.hash = some entry)
    (hblock : c.db.getBlock entry.hash = some block) (hprev : entry.prevBlock = c.tip.hash)
    {r : FMap OutPoint CoinEntry × List CoinEntry}
    (happly : Ledger.applyAll c.db.db.coin (block.ledgerTxs env entry.height) = some r)
    (hundo : c.db.blocks.undos.lookup entry.hash = some undo) :
    undo.items = r.2.map CoinEntry.markSpent
      ∧ undo.encodedLen + 40 ≤ BlockStore.MAX_FILE_LENGTH := by
  obtain ⟨hlen, e, p, b, line, books, r', he, hp, hb, hline, hbooks, happly', hitems⟩ :=
    replay.record hundo
  cases hentry.symm.trans he
  cases hblock.symm.trans hb
  rw [hprev, inv.tip_stored] at hp
  cases hp
  obtain rfl := hline.unique replay.line
  cases hbooks.symm.trans replay.books
  cases happly.symm.trans happly'
  exact ⟨hitems, hlen⟩

theorem ReplayInv.connect (replay : c.ReplayInv env) (inv : c.Inv env) (undo : c.UndoInv)
    (hfresh : NoRecreate env c'.notified)
    (hentry : c.db.getEntryByHash entry.hash = some entry)
    (hblock : c.db.getBlock entry.hash = some block) (hprev : entry.prevBlock = c.tip.hash)
    (h : c.connect env block entry c.tip = .ok (c', .ok entry)) : c'.ReplayInv env := by
  have htip : c.db.getEntryByHash entry.prevBlock = some c.tip := by rw [hprev, inv.tip_stored]
  have hgen := inv.tree.isGenesis_eq_false hentry htip
  obtain ⟨hsame, htip'⟩ := connect_sameStore inv hentry hblock hprev h
  obtain ⟨cache, view, state, record, blocks, journal, -, hinputs, happly, hitems, hrecord, hwrite,
    hc'⟩ := connect_effect inv undo.unspent hentry hblock hprev h
  have hview : blockView env c.db.db.coin entry.height block.txdata CoinView.empty = .ok view := by
    obtain ⟨_, _, htxs, -⟩ := verifyInputs_eq_ok hinputs
    rw [inv.tree.height_eq hentry htip]
    exact verifyTransactions_view (c := c.withCache cache) htxs
  have hlog : c'.notified = c.notified ++ [.connect
      (({ c.withCache cache with
          db := (c.withCache cache).db.connected entry view (record.commit entry.hash) blocks
          height := entry.height, tip := entry, state := state } : Chain).snapshot)
      entry block view] := by
    rw [hc']
    rfl
  have hbooks : c.db.books.connect env (entry, block) = some c'.db.books := by
    rw [hc']
    exact @ChainDB.books_connected env (c.withCache cache).db _ _ _ _ blocks undo.unspent
      hview hrecord
  have hstack : stackOf c'.notified = stackOf c.notified ++ [(entry, block)] := by
    rw [hlog, stackOf_connect]
  have hline : c'.db.Line c.tip (stackOf c.notified) := hsame.line replay.line
  have hlen : view.undo.isEmpty = true ∨
      view.undo.encodedLen + 40 ≤ BlockStore.MAX_FILE_LENGTH := by
    rw [or_iff_not_imp_left]
    intro hempty
    by_cases hmem : entry.hash ∈ c.db.blocks.undos
    · obtain ⟨stored, hstored⟩ := Finmap.mem_iff.1 hmem
      obtain ⟨hitems', hlen⟩ := replay.undo_eq inv hentry hblock hprev happly hstored
      have heq : stored = view.undo := congrArg UndoCoins.mk (hitems'.trans hitems.symm)
      exact heq ▸ hlen
    · simp only [ChainDB.writeUndo, hempty, Bool.false_eq_true, if_false, BlockStore.writeUndo,
        if_neg hmem] at hwrite
      split_ifs at hwrite with hlong
      omega
  refine ⟨?_, ?_, ?_, ?_, ?_⟩
  · rw [hstack, htip']
    exact .child hgen (by rw [hsame.entries, htip]) (by rw [hsame.blocks, hblock]) hline
  · rw [hstack, Books.ofLine_append_singleton, replay.books]
    exact hbooks
  · intro db₀ hdb₀
    obtain ⟨db, hdb⟩ := replay.replay hdb₀
    obtain ⟨mostWork, rfl⟩ := ChainDB.openFresh_eq_ok hdb₀
    have hmem : ∀ item ∈ stackOf c.notified, item.1.isGenesis = false
        ∧ env.blockHash item.2.header = item.1.hash := by
      intro item hitem
      obtain ⟨hgen, -, hb⟩ := replay.line.mem inv.tree inv.tip_stored item hitem
      exact ⟨hgen, inv.block_hash hb⟩
    obtain ⟨hsettled, hfold⟩ :=
      ChainDB.connectLine_eq_some (ChainDB.settled_fresh env mostWork) hmem hdb
    have hcoin : db.db.coin = c.db.db.coin :=
      congrArg Books.coin (Option.some.inj (hfold.symm.trans replay.books))
    obtain ⟨record', hrecord'⟩ :=
      ChainDB.connectTransactions_of hrecord (db.state.connect block)
    obtain ⟨blocks', hwrite'⟩ : ∃ blocks', db.writeUndo entry view = .ok blocks' := by
      unfold ChainDB.writeUndo BlockStore.writeUndo
      rcases hlen with hempty | hle
      · exact ⟨_, by rw [if_pos hempty]⟩
      · split_ifs
        · exact ⟨_, rfl⟩
        · exact ⟨_, rfl⟩
        · omega
        · exact ⟨_, rfl⟩
    refine ⟨db.connected entry view (record'.commit entry.hash) blocks', ?_⟩
    rw [hstack, ChainDB.connectLine_append_singleton, hdb, Option.bind_some,
      ChainDB.connectItem, hcoin, hview]
    dsimp only
    rw [ChainDB.connect_eq hsettled.idle hgen (inv.block_hash hblock), hrecord', bind_of_ok rfl,
      hwrite', bind_of_ok rfl]
    rfl
  · intro before after item books hsplit hbefore
    rw [hstack] at hsplit
    rcases List.eq_nil_or_concat after with rfl | ⟨after, last, rfl⟩
    · obtain ⟨hstack', hitem⟩ := List.append_inj' hsplit rfl
      cases hitem
      exact hfresh c.notified _ entry block view [] hlog books (hstack' ▸ hbefore)
    · rw [List.concat_eq_append, ← List.cons_append, ← List.append_assoc] at hsplit
      obtain ⟨hstack', -⟩ := List.append_inj' hsplit rfl
      exact replay.fresh hstack' hbefore
  · intro hash stored hstored
    have hundos : c'.db.blocks.undos = blocks.undos := by
      rw [hc']
      rfl
    rw [hundos, (ChainDB.writeUndo_eq_ok hwrite).2] at hstored
    rw [hsame.entries, hsame.blocks]
    have hold : c.db.blocks.undos.lookup hash = some stored →
        stored.encodedLen + 40 ≤ BlockStore.MAX_FILE_LENGTH ∧ ∃ e p b line books r,
          c.db.getEntryByHash hash = some e ∧ c.db.getEntryByHash e.prevBlock = some p
            ∧ c.db.getBlock hash = some b ∧ c'.db.Line p line ∧ Books.ofLine env line = some books
            ∧ Ledger.applyAll books.coin (b.ledgerTxs env e.height) = some r
            ∧ stored.items = r.2.map CoinEntry.markSpent := by
      intro hstored
      obtain ⟨hle, e, p, b, line, books, r, he, hp, hb, hl, hrest⟩ := replay.record hstored
      exact ⟨hle, e, p, b, line, books, r, he, hp, hb, hsame.line hl, hrest⟩
    split_ifs at hstored with hkeep
    · exact hold hstored
    rcases eq_or_ne hash entry.hash with rfl | hne
    · rw [Finmap.lookup_insert] at hstored
      obtain rfl := Option.some.inj hstored
      have hempty : view.undo.isEmpty ≠ true := fun hempty => hkeep (by simp [hempty])
      exact ⟨hlen.resolve_left hempty, entry, c.tip, block, _, _, _, hentry, htip, hblock, hline,
        replay.books, happly, hitems⟩
    · rw [Finmap.lookup_insert_of_ne _ hne] at hstored
      exact hold hstored

/-- Disconnecting the tip goes back to the books of the line before it. -/
theorem ReplayInv.disconnect (replay : c.ReplayInv env) (inv : c.Inv env) (undo : c.UndoInv)
    (h : c.disconnect env c.tip = .ok c') : c'.ReplayInv env := by
  obtain ⟨hsame, hprev⟩ := disconnect_sameStore inv h
  have hgen := inv.tree.isGenesis_eq_false inv.tip_stored hprev
  obtain ⟨block, prev, stored, view, hblock, -, hprev', hstored, heff, hc'⟩ :=
    undo.disconnected inv h
  cases hprev.symm.trans hprev'
  obtain ⟨-, e, p, b, line, before, r, he, hp, hb, hline, hbefore, happly, hitems⟩ :=
    replay.record hstored
  cases inv.tip_stored.symm.trans he
  cases hprev.symm.trans hp
  cases hblock.symm.trans hb
  -- the stack is the line of the parent with the tip on top
  have hstack : stackOf c.notified = line ++ [(c.tip, block)] :=
    replay.line.unique (.child hgen hprev hblock hline)
  have hbooks := replay.books
  rw [hstack, Books.ofLine_append_singleton, hbefore] at hbooks
  obtain ⟨journal, happly', -, htx, hhash, hnext⟩ := Books.connect_eq_some.1 hbooks
  have hfresh := replay.fresh hstack hbefore
  cases happly.symm.trans happly'
  -- the record that is read back is the journal of the block
  have hreload : stored.reload.items = journal := by
    have hunspent := (Books.connect_unspent (Books.ofLine_unspent hbefore) hbooks).2 journal happly
    rw [UndoCoins.reload, hitems, List.map_map]
    refine List.map_congr_left (fun coin hcoin => ?_) |>.trans (List.map_id journal)
    cases coin
    simpa [CoinEntry.markSpent, CoinEntry.reload] using (hunspent _ hcoin).symm
  obtain ⟨htip, htx', hheights, hnexts⟩ := hline.books inv.tree (inv.tree.self hprev) hbefore
  have hheight := inv.tree.height_eq inv.tip_stored hprev
  have hbooks' : c'.db.books = before := by
    rw [hreload, ← show c.db.books.coin = c.db.db.coin from rfl] at heff
    rw [hc']
    refine Books.ext ?_ ?_ ?_ ?_ ?_
    · exact heff.trans (Ledger.revertAll_applyAll hfresh happly)
    · rw [htip]
      exact (inv.tree.hash_eq hprev).symm
    · change (ChainDB.revertStates env (c.db.state.disconnect block) block.txdata.zipIdx _).tx = _
      rw [ChainDB.revertStates_tx]
      change Word.sub 64 c.db.books.tx _ = _
      rw [htx, Word.sub_add_cancel htx']
    · change c.db.books.hash.erase c.tip.height = _
      rw [hhash, FMap.insert_erase_cancel]
      exact fun hmem => absurd (hheights _ hmem) (by omega)
    · change c.db.books.nextHash.erase c.tip.prevBlock = _
      rw [hnext, FMap.insert_erase_cancel]
      intro hmem
      obtain ⟨a, ha, hlt⟩ := hnexts _ hmem
      cases ha.symm.trans hprev
      omega
  have hlog : stackOf c'.notified = line := by
    rw [hc']
    change stackOf (c.notified ++ _) = _
    rw [stackOf_disconnect, hstack, List.dropLast_concat]
  refine ⟨?_, ?_, ?_, ?_, ?_⟩
  · rw [hlog]
    exact hsame.line hline
  · rw [hlog, hbefore, hbooks']
  · intro db₀ hdb₀
    obtain ⟨db, hdb⟩ := replay.replay hdb₀
    rw [hstack, ChainDB.connectLine_append_singleton] at hdb
    obtain ⟨db₁, hdb₁, -⟩ := Option.bind_eq_some_iff.1 hdb
    rw [hlog]
    exact ⟨db₁, hdb₁⟩
  · intro front back item books hsplit hfront
    rw [hlog] at hsplit
    refine @replay.fresh front (back ++ [(c.tip, block)]) _ _ ?_ hfront
    rw [hstack, hsplit, List.append_assoc, List.cons_append]
  · intro hash record hrecord
    have hundos : c'.db.blocks.undos = c.db.blocks.undos := by
      rw [hc']
      rfl
    rw [hundos] at hrecord
    obtain ⟨hle, e, p, b, line, books, r, he, hp, hb, hl, hrest⟩ := replay.record hrecord
    rw [hsame.entries, hsame.blocks]
    exact ⟨hle, e, p, b, line, books, r, he, hp, hb, hsame.line hl, hrest⟩

/-! ## Runs -/

theorem ReplayInv.new (law : env.Lawful) (h : Chain.new env = .ok c) : c.ReplayInv env := by
  obtain ⟨mostWork, rfl⟩ := new_eq_ok law h
  refine ⟨.genesis rfl, rfl, fun _ => ⟨_, rfl⟩, ?_, ?_⟩
  · intro before after item books hsplit
    simp [stackOf] at hsplit
  · intro hash undo hundo
    exact absurd hundo (by simp [ChainDB.fresh])

/-- A move keeps the entries and the blocks that are stored. -/
theorem Move.stored (inv : c.Inv env) (h : Move env c c') :
    (∀ hash e, c.db.getEntryByHash hash = some e → c'.db.getEntryByHash hash = some e)
      ∧ ∀ hash b, c.db.getBlock hash = some b → c'.db.getBlock hash = some b := by
  refine ⟨h.entries_mono inv, ?_⟩
  cases h with
  | cache cache => exact fun _ _ hb => hb
  | header h =>
    rcases addHeader_eq_ok h with ⟨_, hr, -⟩ | ⟨_, _, _, _, -, -, -, -, -, -, -, -, hsave, rfl⟩
    · cases hr
    · obtain ⟨mostWork, rfl⟩ := ChainDB.saveEntry_eq_ok inv.idle hsave
      exact fun _ _ hb => hb
  | invalid _ _ => exact fun _ _ hb => hb
  | block _ _ hnew _ hwrite =>
    obtain ⟨hget, -, -⟩ := getBlock_writeBlock inv hnew hwrite
    intro hash b hb
    rw [hget, if_neg, hb]
    rintro rfl
    have hstored := inv.downloaded_iff.2 (Finmap.mem_of_lookup_eq_some hb)
    simp [ChainDB.hasBlock, hstored] at hnew
  | connect hentry _ hblock hprev h =>
    exact fun _ _ hb => by rw [(connect_sameStore inv hentry hblock hprev h).1.blocks, hb]
  | disconnect h => exact fun _ _ hb => by rw [(disconnect_sameStore inv h).1.blocks, hb]

/-- What stays when nothing is connected or disconnected. -/
structure SameLedger (c c' : Chain) : Prop where
  notified : c'.notified = c.notified
  tip : c'.tip = c.tip
  books : c'.db.books = c.db.books
  state : c'.db.state = c.db.state
  undos : c'.db.blocks.undos = c.db.blocks.undos

theorem SameLedger.coin (h : SameLedger c c') : c'.db.db.coin = c.db.db.coin :=
  congrArg Books.coin h.books

/-- A move connects a block on the tip, disconnects the tip, or does neither. -/
theorem Move.sameLedger_or (inv : c.Inv env) (h : Move env c c') : SameLedger c c'
    ∨ (∃ block entry, c.db.getEntryByHash entry.hash = some entry
      ∧ c.db.getBlock entry.hash = some block ∧ entry.prevBlock = c.tip.hash
      ∧ c.connect env block entry c.tip = .ok (c', .ok entry))
    ∨ c.disconnect env c.tip = .ok c' := by
  cases h with
  | cache cache => exact .inl ⟨rfl, rfl, rfl, rfl, rfl⟩
  | header h =>
    rcases addHeader_eq_ok h with ⟨_, hr, -⟩ | ⟨_, _, _, _, -, -, -, -, -, -, -, -, hsave, rfl⟩
    · cases hr
    · obtain ⟨mostWork, rfl⟩ := ChainDB.saveEntry_eq_ok inv.idle hsave
      exact .inl ⟨rfl, rfl, rfl, rfl, rfl⟩
  | invalid _ _ => exact .inl ⟨rfl, rfl, rfl, rfl, rfl⟩
  | block _ _ hnew _ hwrite =>
    obtain ⟨-, hdb, hundos⟩ := getBlock_writeBlock inv hnew hwrite
    have hbooks := congrArg ChainDB.books hdb
    have hstate := congrArg (·.state) hdb
    exact .inl ⟨rfl, rfl, hbooks, hstate, hundos⟩
  | connect hentry _ hblock hprev h => exact .inr (.inl ⟨_, _, hentry, hblock, hprev, h⟩)
  | disconnect h => exact .inr (.inr h)

/-- What a move tells the listeners, if anything. -/
theorem Move.notified_cases (inv : c.Inv env) (h : Move env c c') : SameLedger c c'
    ∨ (∃ s entry block view, c.db.getEntryByHash entry.hash = some entry
      ∧ c.db.getBlock entry.hash = some block ∧ entry.prevBlock = c.tip.hash
      ∧ c.connect env block entry c.tip = .ok (c', .ok entry)
      ∧ c'.notified = c.notified ++ [Notification.connect s entry block view])
    ∨ ∃ s block view, c.db.getBlock c.tip.hash = some block
      ∧ c.disconnect env c.tip = .ok c'
      ∧ c'.notified = c.notified ++ [Notification.disconnect s c.tip block view] := by
  rcases h.sameLedger_or inv with hsame | ⟨block, entry, hentry, hblock, hprev, hconnect⟩ | hdisc
  · exact .inl hsame
  · obtain ⟨-, -, _, ⟨_, hr, -⟩ | ⟨view, _, _, -, -, -, -, -, hc'⟩⟩ := connect_eq_ok hconnect
    · cases hr
    · exact .inr (.inl ⟨_, entry, block, view, hentry, hblock, hprev, hconnect, by rw [hc']; rfl⟩)
  · obtain ⟨block, _, _, view, hblock, -, -, hc'⟩ := disconnect_eq_ok hdisc
    exact .inr (.inr ⟨_, block, view, hblock, hdisc, by rw [hc']; rfl⟩)

/-- A move appends at most one notification. -/
theorem Move.notified (inv : c.Inv env) (h : Move env c c') :
    ∃ log, c'.notified = c.notified ++ log := by
  rcases h.notified_cases inv with hsame | ⟨_, _, _, _, -, -, -, -, hlog⟩ | ⟨_, _, _, -, -, hlog⟩
  · exact ⟨[], by rw [hsame.notified, List.append_nil]⟩
  · exact ⟨_, hlog⟩
  · exact ⟨_, hlog⟩

theorem Move.sameLedger (inv : c.Inv env) (h : Move env c c') (hquiet : c'.notified = c.notified) :
    SameLedger c c' := by
  rcases h.notified_cases inv with h | ⟨_, _, _, _, -, -, -, -, hlog⟩ | ⟨_, _, _, -, -, hlog⟩
  · exact h
  · simp [hquiet] at hlog
  · simp [hquiet] at hlog

theorem ReplayInv.move (replay : c.ReplayInv env) (inv : c.Inv env)
    (undo : c.UndoInv) (hfresh : NoRecreate env c'.notified) (h : Move env c c') :
    c'.ReplayInv env := by
  obtain ⟨hentries, hblocks⟩ := h.stored inv
  rcases h.sameLedger_or inv with hsame | ⟨_, _, hentry, hblock, hprev, h⟩ | h
  · exact replay.mono hsame.notified hsame.tip hsame.books hsame.undos hentries hblocks
  · exact replay.connect inv undo hfresh hentry hblock hprev h
  · exact replay.disconnect inv undo h

theorem Visited.replayInv (law : env.Lawful) (h : Visited env c)
    (hfresh : NoRecreate env c.notified) : c.ReplayInv env := by
  obtain ⟨c₀, hnew, hrun⟩ := h
  refine ReflTransGen.invariant_with (Q := fun c => c.Inv env ∧ c.UndoInv)
    (P := fun c => NoRecreate env c.notified → c.ReplayInv env) ?_ ?_ hrun
    ⟨Inv.new law hnew, UndoInv.new law hnew⟩ (fun _ => ReplayInv.new law hnew) hfresh
  · exact fun _ _ hst hs => ⟨hs.1.move law hst, hs.2.move hs.1 hst⟩
  · intro s t hst hs hreplay hfresh
    obtain ⟨log, hlog⟩ := hst.notified hs.1
    exact (hreplay (NoRecreate.of_append (hlog ▸ hfresh))).move hs.1 hs.2 hfresh hst

/-- Reorganizations leave no trace: a fresh database to which the blocks of the main chain
are connected in order holds the same coins, indexes, tip and number of transactions. -/
theorem reorg_leaves_no_trace (law : env.Lawful) (h : Reachable env c)
    (hfresh : NoRecreate env c.notified) :
    ∃ line, c.db.Line c.tip line ∧ ∃ db₀ db, ChainDB.openFresh env = .ok db₀
      ∧ db₀.connectLine env line = some db
      ∧ c.db.db.coin = db.db.coin
      ∧ c.db.state.tip = db.state.tip ∧ c.db.state.tx = db.state.tx
      ∧ c.db.db.hash = db.db.hash ∧ c.db.entryCache.height = db.entryCache.height
      ∧ c.db.db.nextHash = db.db.nextHash
      ∧ c.db.db.chainState = some c.db.state ∧ db.db.chainState = some db.state := by
  have hvisited := h.visited law
  have inv := hvisited.inv law
  have hreplay := hvisited.replayInv law hfresh
  obtain ⟨c₀, hnew, -⟩ := hvisited
  simp only [Chain.new, bind_eq_ok] at hnew
  obtain ⟨db₀, hopen, -⟩ := hnew
  obtain ⟨db, hdb⟩ := hreplay.replay hopen
  obtain ⟨mostWork, rfl⟩ := ChainDB.openFresh_eq_ok hopen
  have hmem : ∀ item ∈ stackOf c.notified, item.1.isGenesis = false
      ∧ env.blockHash item.2.header = item.1.hash := by
    intro item hitem
    obtain ⟨hgen, -, hb⟩ := hreplay.line.mem inv.tree inv.tip_stored item hitem
    exact ⟨hgen, inv.block_hash hb⟩
  obtain ⟨hsettled, hfold⟩ :=
    ChainDB.connectLine_eq_some (ChainDB.settled_fresh env mostWork) hmem hdb
  have hbooks : c.db.books = db.books := Option.some.inj (hreplay.books.symm.trans hfold)
  refine ⟨_, hreplay.line, _, db, hopen, hdb, congrArg Books.coin hbooks,
    congrArg Books.tip hbooks, congrArg Books.tx hbooks, congrArg Books.hash hbooks, ?_,
    congrArg Books.nextHash hbooks, inv.state_column, hsettled.chainState⟩
  rw [hsettled.height, ← inv.hash_column]
  exact congrArg Books.hash hbooks

/-- One block with one transaction was connected, and it is the tip. -/
def oneConnected (c : Chain) : Bool :=
  c.tip.height == 1 && match c.notified with
    | [.connect _ _ block _] => block.txdata.length == 1
    | _ => false

theorem NoRecreate.of_oneConnected (h : oneConnected c = true) : NoRecreate env c.notified := by
  obtain ⟨-, h⟩ := Bool.and_eq_true_iff.1 h
  split at h
  · rename_i s e b v hlog
    rw [hlog]
    intro before s' e' b' v' after hsplit books hbooks
    obtain ⟨rfl, hcons⟩ : before = [] ∧ _ := by
      have hlen := congrArg List.length hsplit
      simp only [List.length_cons, List.length_nil, List.length_append] at hlen
      have hnil : before = [] := List.length_eq_zero_iff.1 (by omega)
      exact ⟨hnil, hnil ▸ hsplit⟩
    cases hcons
    obtain rfl := Option.some.inj hbooks
    obtain ⟨tx, htx⟩ := List.length_eq_one_iff.1 (eq_of_beq h)
    rw [Block.ledgerTxs, htx]
    exact ⟨fun k _ => Finmap.notMem_empty, fun _ _ => trivial⟩
  · cases h

/-- The rule after the first block. -/
theorem reorg_leaves_no_trace_first : ∃ c, Reachable Small.env c ∧ c.tip.height = 1
    ∧ ∃ line, c.db.Line c.tip line ∧ ∃ db₀ db, ChainDB.openFresh Small.env = .ok db₀
      ∧ db₀.connectLine Small.env line = some db ∧ c.db.db.coin = db.db.coin := by
  obtain ⟨c, hc, hP⟩ := exists_reachable Small.env [.add 100 Small.first] oneConnected (by decide)
    (by decide +kernel)
  obtain ⟨line, hline, db₀, db, hopen, hdb, hcoin, -⟩ :=
    reorg_leaves_no_trace Small.lawful hc (NoRecreate.of_oneConnected hP)
  exact ⟨c, hc, eq_of_beq (Bool.and_eq_true_iff.1 hP).1, line, hline, db₀, db, hopen, hdb, hcoin⟩

end Chain

end BitcoinNode
