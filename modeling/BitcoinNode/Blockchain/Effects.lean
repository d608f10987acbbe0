import BitcoinNode.Library.Result
import BitcoinNode.Blockchain.ChainDB

/-!
# What the database operations do

One equation for each operation of the chain database that started with nothing pending:
which columns, caches and records it changes, and how. Later proofs cite these equations
and never look inside the batches.
-/

namespace BitcoinNode

/-! ## Batches -/

namespace Database

@[simp] theorem writeBatch_nil (db : Database) : db.writeBatch [] = db := rfl

@[simp] theorem writeBatch_cons (db : Database) (op : Operation) (batch : Batch) :
    db.writeBatch (op :: batch) = (op.apply db).writeBatch batch := rfl

@[simp] theorem writeBatch_append (db : Database) (batch batch' : Batch) :
    db.writeBatch (batch ++ batch') = (db.writeBatch batch).writeBatch batch' :=
  List.foldl_append

/-- Saving a view flushes it to the coin column, whatever the order of its entries. -/
theorem writeBatch_saveView (db : Database) (view : CoinView) :
    db.writeBatch (ChainDB.saveView view) =
      { db with coin := View.flush CoinEntry.spent view.map db.coin } := by
  unfold ChainDB.saveView View.flush
  generalize view.map.entries = entries
  induction entries generalizing db with
  | nil => rfl
  | cons e entries ih =>
    rw [List.map_cons, writeBatch_cons, ih, List.foldl_cons]
    by_cases h : e.2.spent <;> simp [h, View.write, Operation.apply, insert, remove]

end Database

theorem ChainEntryCache.clearBatch_eq {cache : ChainEntryCache} (h : cache.batch = []) :
    cache.clearBatch = cache := by
  cases cache
  simp_all [clearBatch]

namespace ChainDB

/-- Nothing is staged, as between any two operations. -/
structure Idle (db : ChainDB) : Prop where
  pending : db.pending = none
  batch : db.entryCache.batch = []

theorem start_eq {db : ChainDB} (h : db.Idle) :
    db.start = .ok { db with pending := some db.state } := by
  simp [start, h.pending, ChainEntryCache.clearBatch_eq h.batch]

/-! ## Headers -/

/-- The database after a header is saved. -/
def headerSaved (db : ChainDB) (entry prev : ChainEntry) (mostWork : Option ChainEntry) :
    ChainDB :=
  { db with
    entryCache := { db.entryCache with hash := db.entryCache.hash.insert entry.hash entry }
    db := db.db.writeBatch [
      .insert (.height entry.hash) entry.height,
      .insert (.entry entry.hash) entry,
      .remove (.chainWork prev.chainwork prev.hash),
      .insert (.chainWork entry.chainwork entry.hash) entry,
      .insert (.nextHashes prev.hash) (db.getNextHashes prev.hash ++ [entry.hash])]
    mostWork := mostWork
    versionBitsCache := db.versionBitsCache.commit }

theorem updateMostWork_eq (db : ChainDB) (entry : ChainEntry) :
    ∃ mostWork, db.updateMostWork entry = { db with mostWork := mostWork } := by
  unfold updateMostWork
  split
  · exact ⟨_, rfl⟩
  · split_ifs <;> exact ⟨_, rfl⟩

theorem updateMostWork_of_lt {db : ChainDB} {entry best : ChainEntry}
    (h : db.mostWork = some best) (hlt : best.chainwork < entry.chainwork) :
    db.updateMostWork entry = { db with mostWork := some entry } := by
  rw [updateMostWork, h]
  exact if_pos hlt

/-- The commit that ends `save_entry`. -/
theorem commit_header {db : ChainDB} (hidle : db.Idle) (entry prev : ChainEntry) :
    { db with
        pending := some db.state
        entryCache := db.entryCache.insertHashBatch entry : ChainDB }.commit
      ([Operation.insert (.height entry.hash) entry.height,
        .insert (.entry entry.hash) entry,
        .remove (.chainWork prev.chainwork prev.hash),
        .insert (.chainWork entry.chainwork entry.hash) entry] ++
       [Operation.insert (.nextHashes prev.hash) (db.getNextHashes prev.hash ++ [entry.hash])])
      = .ok (db.headerSaved entry prev db.mostWork) := by
  simp [commit, headerSaved, ChainEntryCache.writeBatch, ChainEntryCache.insertHashBatch,
    hidle.batch, ChainEntryCache.applyOperation, hidle.pending]

/-- The end of `save_entry`, whatever entry the skip search returns. -/
theorem headerSaved_of_commit {db db₁ db' : ChainDB} {entry prev saved : ChainEntry}
    (hidle : db.Idle)
    (hcommit : { db with
        pending := some db.state
        entryCache := db.entryCache.insertHashBatch entry : ChainDB }.commit
      ([Operation.insert (.height entry.hash) entry.height,
        .insert (.entry entry.hash) entry,
        .remove (.chainWork prev.chainwork prev.hash),
        .insert (.chainWork entry.chainwork entry.hash) entry] ++
       [Operation.insert (.nextHashes prev.hash)
         (db.getNextHashes prev.hash ++ [entry.hash])]) = .ok db₁)
    (hmost : db₁.updateMostWork saved = db') :
    ∃ mostWork, db' = db.headerSaved entry prev mostWork := by
  obtain ⟨mostWork, hmostWork⟩ := updateMostWork_eq db₁ saved
  obtain rfl := Except.ok.inj ((commit_header hidle entry prev).symm.trans hcommit)
  exact ⟨mostWork, hmost.symm.trans hmostWork⟩

theorem saveEntry_eq_ok {db db' : ChainDB} {entry prev : ChainEntry} (hidle : db.Idle)
    (h : db.saveEntry entry prev = .ok db') :
    ∃ mostWork, db' = db.headerSaved entry prev mostWork := by
  rw [saveEntry, start_eq hidle, bind_of_ok rfl] at h
  dsimp only at h
  split at h
  · simp only [bind_eq_ok, pure_eq_ok] at h
    obtain ⟨_, -, _, hcommit, hmost⟩ := h
    exact headerSaved_of_commit hidle hcommit hmost
  · simp only [bind_eq_ok, pure_eq_ok] at h
    obtain ⟨_, -, _, -, _, hcommit, hmost⟩ := h
    exact headerSaved_of_commit hidle hcommit hmost

/-! ## Blocks -/

/-- The database after a block is connected, given the new state record and store. -/
def connected (db : ChainDB) (entry : ChainEntry) (view : CoinView) (state : ChainState)
    (blocks : BlockStore) : ChainDB :=
  { db with
    entryCache := {
      height := db.entryCache.height.insert entry.height entry.hash
      hash := db.entryCache.hash.insert entry.hash entry
      batch := [] }
    state := state
    db := { db.db with
      nextHash := db.db.nextHash.insert entry.prevBlock entry.hash
      hash := db.db.hash.insert entry.height entry.hash
      coin := View.flush CoinEntry.spent view.map db.db.coin
      chainState := some state }
    pending := none
    blocks := blocks
    versionBitsCache := db.versionBitsCache.commit }

/-- The database after a block is disconnected, given the new state record. -/
def disconnected (db : ChainDB) (entry : ChainEntry) (view : CoinView) (state : ChainState) :
    ChainDB :=
  { db with
    entryCache := {
      height := db.entryCache.height.erase entry.height
      hash := db.entryCache.hash
      batch := [] }
    state := state
    db := { db.db with
      nextHash := db.db.nextHash.erase entry.prevBlock
      hash := db.db.hash.erase entry.height
      coin := View.flush CoinEntry.spent view.map db.db.coin
      chainState := some state }
    pending := none
    versionBitsCache := db.versionBitsCache.commit }

/-- The block store after the undo record of a view is written, if it is written. -/
def writeUndo (db : ChainDB) (entry : ChainEntry) (view : CoinView) : Except Panic BlockStore :=
  if view.undo.isEmpty then .ok db.blocks else db.blocks.writeUndo entry.hash view.undo

/-- Writing an undo record keeps the stored blocks and the records that exist. -/
theorem writeUndo_eq_ok {db : ChainDB} {entry : ChainEntry} {view : CoinView}
    {blocks : BlockStore} (h : db.writeUndo entry view = .ok blocks) :
    blocks.blocks = db.blocks.blocks ∧ blocks.undos =
      if view.undo.isEmpty || decide (entry.hash ∈ db.blocks.undos) then db.blocks.undos
      else db.blocks.undos.insert entry.hash view.undo := by
  unfold writeUndo BlockStore.writeUndo at h
  cases hundo : view.undo.isEmpty with
  | true =>
    rw [hundo] at h
    cases h
    simp
  | false =>
    rw [hundo] at h
    simp only [Bool.false_eq_true, if_false] at h
    by_cases hmem : entry.hash ∈ db.blocks.undos
    · rw [if_pos hmem] at h
      cases h
      simp [hmem]
    · rw [if_neg hmem] at h
      split at h
      · cases h
      · cases h
        simp [hmem]

theorem writeBlock_eq_ok {env : Env} {db db' : ChainDB} {hash : BlockHash} {block : Block}
    (h : db.writeBlock env hash block = .ok db') :
    ∃ blocks, db.blocks.writeBlock env hash block = .ok blocks
      ∧ db' = { db with blocks := blocks, downloaded := insert hash db.downloaded } := by
  simp only [writeBlock, bind_eq_ok, pure_eq_ok] at h
  obtain ⟨blocks, hwrite, rfl⟩ := h
  exact ⟨blocks, hwrite, rfl⟩

/-- The commit that ends `connect`. -/
theorem connected_of_commit {db : ChainDB} (hidle : db.Idle) (entry : ChainEntry)
    (view : CoinView) (state : ChainState) (hash : BlockHash) (blocks : BlockStore) :
    { db with
        pending := some (state.commit hash)
        entryCache := (db.entryCache.insertHeightBatch entry).insertHashBatch entry
        blocks := blocks : ChainDB }.commit
      ([Operation.insert (.nextHash entry.prevBlock) entry.hash] ++
        [Operation.insert (.hash entry.height) entry.hash] ++ saveView view ++
        [Operation.insert .chainState (state.commit hash)]) =
      .ok (db.connected entry view (state.commit hash) blocks) := by
  simp [commit, connected, ChainEntryCache.writeBatch, ChainEntryCache.insertHeightBatch,
    ChainEntryCache.insertHashBatch, ChainEntryCache.applyOperation, hidle.batch,
    Database.writeBatch_saveView, Operation.apply, Database.insert, ChainState.commit]

/-- Connecting a block that is not the genesis block. -/
theorem connect_eq {env : Env} {db : ChainDB} {entry : ChainEntry} {block : Block}
    {view : CoinView} (hidle : db.Idle) (hgen : entry.isGenesis = false)
    (hhash : env.blockHash block.header = entry.hash) :
    db.connect env entry block view = (do
      let state ← connectTransactions env view block.txdata 0 (db.state.connect block)
      let blocks ← db.writeUndo entry view
      return db.connected entry view (state.commit entry.hash) blocks) := by
  rw [connect, start_eq hidle, bind_of_ok rfl]
  simp only [connectBlock, hgen, hhash, writeUndo, Bool.false_eq_true, if_false]
  cases connectTransactions env view block.txdata 0 (db.state.connect block) with
  | error p => rfl
  | ok state =>
    rw [bind_of_ok rfl, bind_of_ok rfl]
    cases view.undo.isEmpty with
    | true => exact connected_of_commit hidle entry view state entry.hash db.blocks
    | false =>
      simp only [Bool.false_eq_true, if_false]
      cases db.blocks.writeUndo entry.hash view.undo with
      | error p => rfl
      | ok blocks => exact connected_of_commit hidle entry view state entry.hash blocks

theorem connect_eq_ok {env : Env} {db db' : ChainDB} {entry : ChainEntry} {block : Block}
    {view : CoinView} (hidle : db.Idle) (hgen : entry.isGenesis = false)
    (hhash : env.blockHash block.header = entry.hash)
    (h : db.connect env entry block view = .ok db') :
    ∃ state blocks,
      connectTransactions env view block.txdata 0 (db.state.connect block) = .ok state
        ∧ db.writeUndo entry view = .ok blocks
        ∧ db' = db.connected entry view (state.commit entry.hash) blocks := by
  simp only [connect_eq hidle hgen hhash, bind_eq_ok, pure_eq_ok] at h
  obtain ⟨state, hstate, blocks, hblocks, rfl⟩ := h
  exact ⟨state, blocks, hstate, hblocks, rfl⟩

/-- The commit that ends `disconnect`. -/
theorem disconnected_of_commit {db : ChainDB} (hidle : db.Idle) (entry : ChainEntry)
    (view : CoinView) (state : ChainState) (hash : BlockHash) :
    { db with
        pending := some (state.commit hash)
        entryCache := db.entryCache.removeHeightBatch entry : ChainDB }.commit
      ([Operation.remove (.nextHash entry.prevBlock), .remove (.hash entry.height)] ++
        saveView view ++ [Operation.insert .chainState (state.commit hash)]) =
      .ok (db.disconnected entry view (state.commit hash)) := by
  simp [commit, disconnected, ChainEntryCache.writeBatch, ChainEntryCache.removeHeightBatch,
    ChainEntryCache.applyOperation, hidle.batch, Database.writeBatch_saveView, Operation.apply,
    Database.insert, Database.remove, ChainState.commit]

/-- Disconnecting a block; nothing is written when a step panics. -/
theorem disconnect_eq {env : Env} {db : ChainDB} {entry : ChainEntry} {block : Block}
    (hidle : db.Idle) :
    db.disconnect env entry block = (
      match db.blocks.readUndo entry.hash with
      | none => .error .undoMissing
      | some undo => do
        let (undo, view, state) ← disconnectTransactions env entry.height
          block.txdata.zipIdx.reverse undo CoinView.empty (db.state.disconnect block)
        if undo.isEmpty then
          return (db.disconnected entry view (state.commit entry.prevBlock), view)
        else throw .undoLeftOver) := by
  rw [disconnect, start_eq hidle, bind_of_ok rfl]
  simp only [disconnectBlock]
  cases db.blocks.readUndo entry.hash with
  | none => rfl
  | some undo =>
    dsimp only
    cases disconnectTransactions env entry.height block.txdata.zipIdx.reverse undo
        CoinView.empty (db.state.disconnect block) with
    | error p => rfl
    | ok result =>
      obtain ⟨rest, view, state⟩ := result
      rw [bind_of_ok rfl, bind_of_ok rfl]
      dsimp only
      cases rest.isEmpty with
      | false => rfl
      | true =>
        simp only [Bool.not_true, Bool.false_eq_true, if_false, if_true]
        rw [pure_bind]
        dsimp only
        rw [disconnected_of_commit hidle, bind_of_ok rfl]

theorem disconnect_eq_ok {env : Env} {db db' : ChainDB} {entry : ChainEntry} {block : Block}
    {view : CoinView} (hidle : db.Idle) (h : db.disconnect env entry block = .ok (db', view)) :
    ∃ undo state, db.blocks.readUndo entry.hash = some undo
      ∧ disconnectTransactions env entry.height block.txdata.zipIdx.reverse undo
          CoinView.empty (db.state.disconnect block) = .ok (⟨[]⟩, view, state)
      ∧ db' = db.disconnected entry view (state.commit entry.prevBlock) := by
  rw [disconnect_eq hidle] at h
  split at h
  · cases h
  · rename_i undo hundo
    simp only [bind_eq_ok] at h
    obtain ⟨⟨⟨rest⟩, view', state⟩, htxs, h⟩ := h
    dsimp only at h
    split at h
    · rename_i hrest
      cases h
      obtain rfl : rest = [] := List.isEmpty_iff.1 hrest
      exact ⟨undo, state, hundo, htxs, rfl⟩
    · cases h

/-! ## Opening -/

/-- The database after the genesis block is saved and connected. -/
def fresh (env : Env) (mostWork : Option ChainEntry) : ChainDB where
  entryCache := {
    height := (∅ : FMap Nat BlockHash).insert 0 env.genesisEntry.hash
    hash := (∅ : FMap BlockHash ChainEntry).insert env.genesisEntry.hash env.genesisEntry
    batch := [] }
  state := (ChainState.default.connect env.genesisBlock).commit env.genesisEntry.hash
  db := Database.empty.writeBatch [
    .insert (.height env.genesisEntry.hash) 0,
    .insert (.entry env.genesisEntry.hash) env.genesisEntry,
    .insert (.chainWork env.genesisEntry.chainwork env.genesisEntry.hash) env.genesisEntry,
    .insert (.nextHashes 0) [env.genesisEntry.hash],
    .insert (.hash 0) env.genesisEntry.hash,
    .insert .chainState
      ((ChainState.default.connect env.genesisBlock).commit env.genesisEntry.hash)]
  pending := none
  invalid := ∅
  mostWork := mostWork
  blocks := ⟨(∅ : FMap BlockHash Block).insert env.genesisEntry.hash env.genesisBlock, ∅⟩
  versionBitsCache := .new env.network
  downloaded := {env.genesisEntry.hash}

/-- Connecting the genesis block adds no coins. -/
theorem connect_genesis {env : Env} {db : ChainDB} {block : Block} {entry : ChainEntry}
    (hidle : db.Idle) (hgen : entry.isGenesis = true)
    (hhash : env.blockHash block.header = entry.hash) :
    db.connect env entry block CoinView.empty = .ok { db with
      entryCache := {
        height := db.entryCache.height.insert entry.height entry.hash
        hash := db.entryCache.hash.insert entry.hash entry
        batch := [] }
      state := (db.state.connect block).commit entry.hash
      db := db.db.writeBatch [.insert (.hash entry.height) entry.hash,
        .insert .chainState ((db.state.connect block).commit entry.hash)]
      versionBitsCache := db.versionBitsCache.commit } := by
  rw [connect, start_eq hidle, bind_of_ok rfl]
  simp only [connectBlock, hgen, if_true, hhash]
  rw [pure_bind]
  simp [commit, ChainState.commit, ChainEntryCache.writeBatch,
    ChainEntryCache.insertHeightBatch, ChainEntryCache.insertHashBatch,
    ChainEntryCache.applyOperation, hidle.batch, hidle.pending]

theorem openFresh_eq_ok {env : Env} {db : ChainDB} (h : openFresh env = .ok db) :
    ∃ mostWork, db = fresh env mostWork := by
  have hgen : env.genesisEntry.isGenesis = true := rfl
  have hhash : env.blockHash env.genesisBlock.header = env.genesisEntry.hash := rfl
  have hidle : (new env).Idle := ⟨rfl, rfl⟩
  simp only [openFresh, saveGenesis, bind_eq_ok, pure_eq_ok] at h
  obtain ⟨db₃, ⟨db₁, hsave, db₂, hwrite, hconnect⟩, rfl⟩ := h
  obtain ⟨mostWork, rfl⟩ := saveEntry_eq_ok hidle hsave
  obtain ⟨blocks, hblocks, rfl⟩ := writeBlock_eq_ok hwrite
  rw [connect_genesis ⟨rfl, rfl⟩ hgen hhash] at hconnect
  have hstore : blocks = ⟨(∅ : FMap BlockHash Block).insert env.genesisEntry.hash
      env.genesisBlock, ∅⟩ := by
    unfold BlockStore.writeBlock at hblocks
    split_ifs at hblocks with hmem
    · exact absurd hmem Finmap.notMem_empty
    · exact (Except.ok.inj hblocks).symm
  refine ⟨db₃.getMostWorkEntry, ?_⟩
  rw [← Except.ok.inj hconnect, hstore]
  simp [fresh, headerSaved, new, Operation.apply, Database.insert, Database.remove,
    Database.empty, ChainEntryCache.empty, VersionBitsCache.new, VersionBitsCache.commit,
    getNextHashes, ChainEntry.default]

end ChainDB

end BitcoinNode
