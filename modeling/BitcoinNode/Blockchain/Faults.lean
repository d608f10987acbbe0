import BitcoinNode.Blockchain.Effects
import BitcoinNode.Blockchain.Runs
import BitcoinNode.Blockstore.FileBlockStore

/-!
# Operations of the chain database that fail

`save_entry`, `connect` and `disconnect` where a read or a write returns an error. An error before
the commit is answered with `drop`, one of the batch by `commit` itself. A failed batch writes
nothing, and a failed write to a file may have written a part.
-/

namespace BitcoinNode

/-- Which of the reads and writes of an operation fail, and with what. -/
structure Faults where
  nextHashes : Option DBError
  readUndo : Option DBError
  writeUndo : Option DBError
  writeBatch : Option DBError

def Faults.none : Faults := ⟨.none, .none, .none, .none⟩

/-- Forget what was remembered since the last commit. -/
def VersionBitsCache.drop (cache : VersionBitsCache) : Except Panic VersionBitsCache := do
  let bits ← cache.updates.foldlM (fun bits update =>
    match bits.lookup update.1 with
    | none => .error .unknownBit
    | some states => .ok (bits.insert update.1 (states.erase update.2))) cache.bits
  return ⟨bits, []⟩

namespace ChainDB

/-- What an operation returns, next to the database that it leaves behind. -/
abbrev Outcome (α : Type) := ChainDB × Except DBError α

def drop (db : ChainDB) : Except Panic ChainDB :=
  match db.pending with
  | none => .error .noPending
  | some _ => do
    let cache ← db.versionBitsCache.drop
    return { db with
      pending := none, entryCache := db.entryCache.clearBatch, versionBitsCache := cache }

def commitWith (faults : Faults) (db : ChainDB) (batch : Batch) : Except Panic (Outcome Unit) :=
  match db.pending, faults.writeBatch with
  | none, _ => .error .noPending
  | some _, some e =>
    .ok ({ db with pending := none, entryCache := db.entryCache.clearBatch }, .error e)
  | some _, none => do return (← db.commit batch, .ok ())

/-- The entry with the skip pointer that is searched for it. -/
def withSkip (db : ChainDB) (entry : ChainEntry) : Except Panic ChainEntry :=
  if entry.isGenesis then pure entry
  else do
    let skip ← db.getSkip entry
    pure { entry with skip := skip.hash }

def saveEntryWith (faults : Faults) (db : ChainDB) (entry prev : ChainEntry) :
    Except Panic (Outcome Unit) := do
  let db ← db.start
  let hash := entry.hash
  let batch : Batch := [
    .insert (.height hash) entry.height,
    .insert (.entry hash) entry,
    .remove (.chainWork prev.chainwork prev.hash),
    .insert (.chainWork entry.chainwork hash) entry]
  let db := { db with entryCache := db.entryCache.insertHashBatch entry }
  let entry ← db.withSkip entry
  match faults.nextHashes with
  | some e => return (← db.drop, .error e)
  | none =>
    let nexts := db.getNextHashes prev.hash ++ [hash]
    let (db, committed) ← db.commitWith faults (batch ++ [.insert (.nextHashes prev.hash) nexts])
    match committed with
    | .error e => return (db, .error e)
    | .ok _ => return (db.updateMostWork entry, .ok ())

def connectBlockWith (faults : Faults) (env : Env) (db : ChainDB) (entry : ChainEntry)
    (block : Block) (view : CoinView) : Except Panic (Outcome Batch) :=
  match db.pending with
  | none => .error .noPending
  | some pending => do
    let pending := pending.connect block
    if entry.isGenesis then
      return ({ db with pending := some pending }, .ok [])
    let pending ← connectTransactions env view block.txdata 0 pending
    let batch := saveView view
    let db := { db with pending := some pending }
    if view.undo.isEmpty then return (db, .ok batch)
    match faults.writeUndo with
    | some e => return (db, .error e)
    | none =>
      let blocks ← db.blocks.writeUndo entry.hash view.undo
      return ({ db with blocks := blocks }, .ok batch)

def connectWith (faults : Faults) (env : Env) (db : ChainDB) (entry : ChainEntry) (block : Block)
    (view : CoinView) : Except Panic (Outcome Unit) := do
  let db ← db.start
  let hash := env.blockHash block.header
  let next : Batch := if entry.isGenesis then [] else [.insert (.nextHash entry.prevBlock) hash]
  let cache := (db.entryCache.insertHeightBatch entry).insertHashBatch entry
  let (db, coins) ← connectBlockWith faults env { db with entryCache := cache } entry block view
  match coins with
  | .error e => return (← db.drop, .error e)
  | .ok coins =>
    match db.pending with
    | none => throw .noPending
    | some pending =>
      let chainState := pending.commit hash
      let index : Batch := [.insert (.hash entry.height) hash]
      let state : Batch := [.insert .chainState chainState]
      commitWith faults { db with pending := some chainState } (next ++ index ++ coins ++ state)

def disconnectBlockWith (faults : Faults) (env : Env) (db : ChainDB) (entry : ChainEntry)
    (block : Block) : Except Panic (Outcome (Batch × CoinView)) :=
  match faults.readUndo with
  | some e => .ok (db, .error e)
  | none => do
    let (db, coins, view) ← disconnectBlock env db entry block
    return (db, .ok (coins, view))

def disconnectWith (faults : Faults) (env : Env) (db : ChainDB) (entry : ChainEntry)
    (block : Block) : Except Panic (Outcome CoinView) := do
  let db ← db.start
  let cache := db.entryCache.removeHeightBatch entry
  let (db, disconnected) ←
    disconnectBlockWith faults env { db with entryCache := cache } entry block
  match disconnected with
  | .error e => return (← db.drop, .error e)
  | .ok (coins, view) =>
    match db.pending with
    | none => throw .noPending
    | some pending =>
      let chainState := pending.commit entry.prevBlock
      let index : Batch := [.remove (.nextHash entry.prevBlock), .remove (.hash entry.height)]
      let state : Batch := [.insert .chainState chainState]
      let (db, committed) ←
        commitWith faults { db with pending := some chainState } (index ++ coins ++ state)
      return (db, committed.map fun _ => view)

variable {env : Env} {db db' : ChainDB} {faults : Faults} {entry prev : ChainEntry} {block : Block}
  {view : CoinView} {e : DBError}

/-! ## Without faults -/

theorem commitWith_none (db : ChainDB) (batch : Batch) :
    db.commitWith .none batch = (db.commit batch).map (·, .ok ()) := by
  unfold commitWith commit Faults.none
  cases db.pending <;> rfl

theorem saveEntry_eq (db : ChainDB) (entry prev : ChainEntry) : db.saveEntry entry prev = (do
    let db ← db.start
    let staged := { db with entryCache := db.entryCache.insertHashBatch entry }
    let saved ← staged.withSkip entry
    let db ← staged.commit ([
      Operation.insert (.height entry.hash) entry.height,
      .insert (.entry entry.hash) entry,
      .remove (.chainWork prev.chainwork prev.hash),
      .insert (.chainWork entry.chainwork entry.hash) entry]
      ++ [Operation.insert (.nextHashes prev.hash)
        (staged.getNextHashes prev.hash ++ [entry.hash])])
    return db.updateMostWork saved) := by
  unfold saveEntry withSkip
  cases db.start with
  | error p => rfl
  | ok db => cases hgen : entry.isGenesis <;> simp

theorem saveEntryWith_none (db : ChainDB) (entry prev : ChainEntry) :
    db.saveEntryWith .none entry prev = (db.saveEntry entry prev).map (·, .ok ()) := by
  rw [saveEntry_eq]
  unfold saveEntryWith
  cases db.start with
  | error p => rfl
  | ok db =>
    simp only [bind_of_ok rfl, commitWith_none]
    cases withSkip _ entry with
    | error p => rfl
    | ok saved =>
      simp only [bind_of_ok rfl]
      cases commit _ _ <;> rfl

theorem connectBlockWith_none (env : Env) (db : ChainDB) (entry : ChainEntry) (block : Block)
    (view : CoinView) : db.connectBlockWith .none env entry block view
      = (connectBlock env db entry block view).map fun (db, batch) => (db, .ok batch) := by
  unfold connectBlockWith connectBlock
  cases db.pending with
  | none => rfl
  | some pending =>
    by_cases hgen : entry.isGenesis = true
    · simp only [if_pos hgen]
      rfl
    simp only [if_neg hgen]
    cases connectTransactions env view block.txdata 0 (pending.connect block) with
    | error p => rfl
    | ok pending =>
      by_cases hundo : view.undo.isEmpty = true
      · simp only [if_pos hundo]
        rfl
      · simp only [if_neg hundo]
        cases db.blocks.writeUndo entry.hash view.undo <;> rfl

theorem connectWith_none (env : Env) (db : ChainDB) (entry : ChainEntry) (block : Block)
    (view : CoinView) :
    db.connectWith .none env entry block view
      = (db.connect env entry block view).map (·, .ok ()) := by
  unfold connectWith connect
  cases db.start with
  | error p => rfl
  | ok db =>
    simp only [bind_of_ok rfl, connectBlockWith_none, commitWith_none]
    cases connectBlock env _ entry block view with
    | error p => rfl
    | ok result =>
      obtain ⟨⟨_, _, _, pending, _, _, _, _, _⟩, batch⟩ := result
      cases pending <;> rfl

theorem disconnectWith_none (env : Env) (db : ChainDB) (entry : ChainEntry) (block : Block) :
    db.disconnectWith .none env entry block
      = (db.disconnect env entry block).map fun (db, view) => (db, .ok view) := by
  unfold disconnectWith disconnect disconnectBlockWith
  cases db.start with
  | error p => rfl
  | ok db =>
    simp only [bind_of_ok rfl, commitWith_none]
    cases disconnectBlock env _ entry block with
    | error p => rfl
    | ok result =>
      obtain ⟨⟨_, _, _, pending, _, _, _, _, _⟩, batch, view⟩ := result
      cases pending <;> rfl

/-! ## What a failed operation leaves behind -/

/-- The database after an operation is given up: nothing is staged. -/
def abandoned (db : ChainDB) (cache : VersionBitsCache) (blocks : BlockStore) : ChainDB :=
  { db with
    pending := none, entryCache := db.entryCache.clearBatch, versionBitsCache := cache
    blocks := blocks }

/-- The version-bits cache is as it was, or the operation failed with the fault `early`, before the
commit, and what was remembered since the last commit is forgotten. -/
def Kept (db : ChainDB) (early : Option DBError) (cache : VersionBitsCache) : Prop :=
  cache = db.versionBitsCache ∨ early.isSome = true ∧ db.versionBitsCache.drop = .ok cache

theorem start_eq_ok {db₁ : ChainDB} (h : db.start = .ok db₁) : db.pending = none
    ∧ db₁ = { db with pending := some db.state, entryCache := db.entryCache.clearBatch } := by
  unfold start at h
  cases hpending : db.pending with
  | none =>
    rw [hpending] at h
    exact ⟨rfl, (Except.ok.inj h).symm⟩
  | some _ =>
    rw [hpending] at h
    cases h

/-- A database in which an operation has staged something is given up as the one before. -/
structure Staged (db db₁ : ChainDB) (blocks : BlockStore) : Prop where
  abandoned (cache : VersionBitsCache) : db₁.abandoned cache db₁.blocks = db.abandoned cache blocks
  cache : db₁.versionBitsCache = db.versionBitsCache

theorem drop_eq_ok {db₁ : ChainDB} {blocks : BlockStore} {early : Option DBError}
    (hearly : early.isSome = true) (h : db₁.drop = .ok db') (hstaged : Staged db db₁ blocks) :
    ∃ cache, Kept db early cache ∧ db' = db.abandoned cache blocks := by
  unfold drop at h
  cases hpending : db₁.pending with
  | none =>
    rw [hpending] at h
    cases h
  | some _ =>
    rw [hpending] at h
    obtain ⟨cache, hcache, h⟩ := bind_eq_ok.1 h
    rw [hstaged.cache] at hcache
    exact ⟨cache, .inr ⟨hearly, hcache⟩, (Except.ok.inj h).symm.trans (hstaged.abandoned cache)⟩

theorem commitWith_eq_error {db₁ : ChainDB} {blocks : BlockStore} {batch : Batch}
    (h : db₁.commitWith faults batch = .ok (db', .error e)) (hstaged : Staged db db₁ blocks) :
    db' = db.abandoned db.versionBitsCache blocks := by
  unfold commitWith at h
  cases hpending : db₁.pending with
  | none =>
    rw [hpending] at h
    cases h
  | some _ =>
    cases hfault : faults.writeBatch with
    | none =>
      rw [hpending, hfault] at h
      obtain ⟨_, -, h⟩ := bind_eq_ok.1 h
      cases h
    | some e' =>
      rw [hpending, hfault] at h
      cases h
      exact hstaged.cache ▸ hstaged.abandoned _

theorem saveEntryWith_eq_error (h : db.saveEntryWith faults entry prev = .ok (db', .error e)) :
    db.pending = none
      ∧ ∃ cache, Kept db faults.nextHashes cache ∧ db' = db.abandoned cache db.blocks := by
  unfold saveEntryWith at h
  obtain ⟨db₁, hstart, h⟩ := bind_eq_ok.1 h
  obtain ⟨hpending, rfl⟩ := start_eq_ok hstart
  refine ⟨hpending, ?_⟩
  obtain ⟨skipped, -, h⟩ := bind_eq_ok.1 h
  cases hfault : faults.nextHashes with
  | some e' =>
    rw [hfault] at h
    obtain ⟨db₂, hdrop, h⟩ := bind_eq_ok.1 h
    cases h
    exact drop_eq_ok rfl hdrop ⟨fun _ => rfl, rfl⟩
  | none =>
    rw [hfault] at h
    obtain ⟨⟨db₂, committed⟩, hcommit, h⟩ := bind_eq_ok.1 h
    cases committed with
    | error e' =>
      cases h
      exact ⟨_, .inl rfl, commitWith_eq_error hcommit ⟨fun _ => rfl, rfl⟩⟩
    | ok _ => cases h

/-- The undo record is not written, or it is written now. -/
def UndoWritten (db : ChainDB) (entry : ChainEntry) (view : CoinView) (blocks : BlockStore) :
    Prop :=
  blocks = db.blocks ∨ entry.isGenesis = false ∧ view.undo.isEmpty = false
    ∧ db.blocks.writeUndo entry.hash view.undo = .ok blocks

/-- What the loop over the transactions leaves staged, whatever becomes of the undo record. -/
theorem connectBlockWith_eq_ok {r : Except DBError Batch}
    (h : db.connectBlockWith faults env entry block view = .ok (db', r)) :
    ∃ pending blocks, db' = { db with pending := some pending, blocks := blocks }
      ∧ UndoWritten db entry view blocks
      ∧ ((∃ e, r = .error e) → faults.writeUndo.isSome = true) := by
  unfold connectBlockWith at h
  cases hpending : db.pending with
  | none =>
    rw [hpending] at h
    cases h
  | some pending =>
    rw [hpending] at h
    dsimp only at h
    by_cases hgen : entry.isGenesis = true
    · rw [if_pos hgen] at h
      cases h
      exact ⟨_, _, rfl, .inl rfl, nofun⟩
    rw [if_neg hgen] at h
    obtain ⟨record, -, h⟩ := bind_eq_ok.1 h
    by_cases hundo : view.undo.isEmpty = true
    · rw [if_pos hundo] at h
      cases h
      exact ⟨_, _, rfl, .inl rfl, nofun⟩
    rw [if_neg hundo] at h
    cases hfault : faults.writeUndo with
    | some e' =>
      rw [hfault] at h
      cases h
      exact ⟨_, _, rfl, .inl rfl, fun _ => rfl⟩
    | none =>
      rw [hfault] at h
      obtain ⟨blocks, hblocks, h⟩ := bind_eq_ok.1 h
      cases h
      exact ⟨_, _, rfl, .inr ⟨Bool.eq_false_of_not_eq_true hgen,
        Bool.eq_false_of_not_eq_true hundo, hblocks⟩, nofun⟩

theorem connectWith_eq_error
    (h : db.connectWith faults env entry block view = .ok (db', .error e)) :
    db.pending = none ∧ ∃ cache blocks, Kept db faults.writeUndo cache
      ∧ UndoWritten db entry view blocks ∧ db' = db.abandoned cache blocks := by
  unfold connectWith at h
  obtain ⟨db₁, hstart, h⟩ := bind_eq_ok.1 h
  obtain ⟨hpending, rfl⟩ := start_eq_ok hstart
  refine ⟨hpending, ?_⟩
  obtain ⟨⟨db₂, coins⟩, hblock, h⟩ := bind_eq_ok.1 h
  obtain ⟨pending, blocks, rfl, hundo, hearly⟩ := connectBlockWith_eq_ok hblock
  cases coins with
  | error e' =>
    obtain ⟨db₃, hdrop, h⟩ := bind_eq_ok.1 h
    cases h
    obtain ⟨cache, hkept, rfl⟩ := drop_eq_ok (hearly ⟨e, rfl⟩) hdrop ⟨fun _ => rfl, rfl⟩
    exact ⟨cache, blocks, hkept, hundo, rfl⟩
  | ok coins =>
    exact ⟨_, blocks, .inl rfl, hundo, commitWith_eq_error h ⟨fun _ => rfl, rfl⟩⟩

theorem disconnectBlock_eq_ok {result : ChainDB × Batch × CoinView}
    (h : disconnectBlock env db entry block = .ok result) :
    ∃ pending, result.1 = { db with pending := some pending } := by
  unfold disconnectBlock at h
  split at h
  · cases h
  split at h
  · cases h
  obtain ⟨⟨undo, view, pending⟩, -, h⟩ := bind_eq_ok.1 h
  dsimp only at h
  split at h
  · cases h
  · cases h
    exact ⟨pending, rfl⟩

theorem disconnectWith_eq_error
    (h : db.disconnectWith faults env entry block = .ok (db', .error e)) :
    db.pending = none
      ∧ ∃ cache, Kept db faults.readUndo cache ∧ db' = db.abandoned cache db.blocks := by
  unfold disconnectWith at h
  obtain ⟨db₁, hstart, h⟩ := bind_eq_ok.1 h
  obtain ⟨hpending, rfl⟩ := start_eq_ok hstart
  refine ⟨hpending, ?_⟩
  obtain ⟨⟨db₂, disconnected⟩, hblock, h⟩ := bind_eq_ok.1 h
  unfold disconnectBlockWith at hblock
  cases hfault : faults.readUndo with
  | some e' =>
    rw [hfault] at hblock
    cases hblock
    obtain ⟨db₃, hdrop, h⟩ := bind_eq_ok.1 h
    cases h
    exact drop_eq_ok rfl hdrop ⟨fun _ => rfl, rfl⟩
  | none =>
    rw [hfault] at hblock
    obtain ⟨⟨db₃, coins, view⟩, hok, hblock⟩ := bind_eq_ok.1 hblock
    obtain ⟨pending, hdb₃⟩ := disconnectBlock_eq_ok hok
    cases hdb₃
    cases hblock
    obtain ⟨⟨db₄, committed⟩, hcommit, h⟩ := bind_eq_ok.1 h
    cases committed with
    | error e' =>
      cases h
      exact ⟨_, .inl rfl, commitWith_eq_error hcommit ⟨fun _ => rfl, rfl⟩⟩
    | ok _ => cases h

/-! ## The operation is repeated -/

def withAnswers (db : ChainDB) (cache : VersionBitsCache) : ChainDB :=
  { db with versionBitsCache := cache }

theorem start_of_pending (h : db.pending = none) : db.start
    = .ok { db with pending := some db.state, entryCache := db.entryCache.clearBatch } := by
  rw [start, h]
  rfl

theorem start_abandoned (db : ChainDB) (cache : VersionBitsCache) (blocks : BlockStore) :
    (db.abandoned cache blocks).start = .ok { db with
      pending := some db.state, entryCache := db.entryCache.clearBatch, versionBitsCache := cache
      blocks := blocks } := rfl

theorem updateMostWork_withAnswers (db : ChainDB) (cache : VersionBitsCache) (entry : ChainEntry) :
    (db.withAnswers cache).updateMostWork entry = (db.updateMostWork entry).withAnswers cache := by
  unfold updateMostWork
  rw [show (db.withAnswers cache).mostWork = db.mostWork from rfl]
  cases db.mostWork with
  | none => rfl
  | some mostWork =>
    dsimp only
    split_ifs <;> rfl

theorem commit_withAnswers (db : ChainDB) (cache : VersionBitsCache) (batch : Batch) :
    (db.withAnswers cache).commit batch = (db.commit batch).map (·.withAnswers cache.commit) := by
  unfold commit
  rw [show (db.withAnswers cache).pending = db.pending from rfl]
  cases db.pending <;> rfl

theorem walkAncestor_withAnswers (db : ChainDB) (cache : VersionBitsCache) (height fuel : Nat)
    (entry : ChainEntry) :
    (db.withAnswers cache).walkAncestor height fuel entry = db.walkAncestor height fuel entry := by
  induction fuel generalizing entry with
  | zero => rfl
  | succ fuel ih =>
    unfold walkAncestor
    rw [show (db.withAnswers cache).getEntryByHash = db.getEntryByHash from rfl]
    split_ifs
    · rfl
    · cases db.getEntryByHash (ancestorStep entry height) with
      | none => rfl
      | some entry => exact ih entry

theorem withSkip_withAnswers (db : ChainDB) (cache : VersionBitsCache) (entry : ChainEntry) :
    (db.withAnswers cache).withSkip entry = db.withSkip entry := by
  have hancestor (height : Nat) :
      (db.withAnswers cache).getAncestor entry height = db.getAncestor entry height := by
    unfold getAncestor
    rw [walkAncestor_withAnswers]
    rfl
  rw [withSkip, withSkip, getSkip, getSkip, hancestor]

/-- The database while a header is saved. -/
def saving (db : ChainDB) (entry : ChainEntry) : ChainDB :=
  { db with
    pending := some db.state, entryCache := db.entryCache.clearBatch.insertHashBatch entry }

theorem saveEntry_of_pending (h : db.pending = none) : db.saveEntry entry prev = (do
    let saved ← (db.saving entry).withSkip entry
    let db ← (db.saving entry).commit ([
      Operation.insert (.height entry.hash) entry.height,
      .insert (.entry entry.hash) entry,
      .remove (.chainWork prev.chainwork prev.hash),
      .insert (.chainWork entry.chainwork entry.hash) entry]
      ++ [Operation.insert (.nextHashes prev.hash) (db.getNextHashes prev.hash ++ [entry.hash])])
    return db.updateMostWork saved) := by
  rw [saveEntry_eq, start_of_pending h]
  rfl

/-- A header is saved as it would have been the first time. -/
theorem saveEntry_abandoned (h : db.pending = none) (cache : VersionBitsCache) :
    (db.abandoned cache db.blocks).saveEntry entry prev
      = (db.saveEntry entry prev).map (·.withAnswers cache.commit) := by
  rw [saveEntry_of_pending h,
    saveEntry_of_pending (show (db.abandoned cache db.blocks).pending = none from rfl),
    show (db.abandoned cache db.blocks).saving entry
      = (db.saving entry).withAnswers cache from rfl,
    show (db.abandoned cache db.blocks).getNextHashes = db.getNextHashes from rfl,
    withSkip_withAnswers, commit_withAnswers]
  cases (db.saving entry).withSkip entry with
  | error p => rfl
  | ok saved =>
    cases (db.saving entry).commit _ with
    | error p => rfl
    | ok db₁ => exact congrArg Except.ok (updateMostWork_withAnswers db₁ cache.commit saved)

/-- A record that was written is not written again. -/
theorem UndoWritten.again {blocks : BlockStore} (h : UndoWritten db entry view blocks) :
    blocks.writeUndo entry.hash view.undo = db.blocks.writeUndo entry.hash view.undo := by
  obtain rfl | ⟨-, -, hwrite⟩ := h
  · rfl
  have hlisted : entry.hash ∈ blocks.undos := by
    unfold BlockStore.writeUndo at hwrite
    split_ifs at hwrite with hknown
    · exact Except.ok.inj hwrite ▸ hknown
    · rw [← Except.ok.inj hwrite]
      exact Finmap.mem_insert.2 (.inl rfl)
  rw [hwrite, BlockStore.writeUndo, if_pos hlisted]

/-- A block is connected as it would have been the first time, also when its undo record has been
written already. -/
theorem connect_abandoned {blocks : BlockStore} (h : db.pending = none) (cache : VersionBitsCache)
    (hundo : UndoWritten db entry view blocks) :
    (db.abandoned cache blocks).connect env entry block view
      = (db.connect env entry block view).map (·.withAnswers cache.commit) := by
  unfold connect connectBlock
  rw [start_abandoned, start_of_pending h, bind_of_ok rfl, bind_of_ok rfl]
  dsimp only
  cases hgen : entry.isGenesis with
  | true =>
    obtain rfl | ⟨hother, -⟩ := hundo
    · rfl
    · cases hgen.symm.trans hother
  | false =>
    simp only [Bool.false_eq_true, if_false]
    cases connectTransactions env view block.txdata 0 (db.state.connect block) with
    | error p => rfl
    | ok pending =>
      cases hempty : view.undo.isEmpty with
      | true =>
        obtain rfl | ⟨-, hother, -⟩ := hundo
        · rfl
        · cases hempty.symm.trans hother
      | false =>
        simp only [Bool.false_eq_true, if_false, hundo.again]
        cases db.blocks.writeUndo entry.hash view.undo <;> rfl

theorem disconnectBlock_withAnswers (db : ChainDB) (cache : VersionBitsCache) :
    disconnectBlock env (db.withAnswers cache) entry block
      = (disconnectBlock env db entry block).map fun (db, result) =>
        (db.withAnswers cache, result) := by
  unfold disconnectBlock
  rw [show (db.withAnswers cache).blocks = db.blocks from rfl,
    show (db.withAnswers cache).pending = db.pending from rfl]
  cases db.blocks.readUndo entry.hash with
  | none => rfl
  | some undo =>
    cases db.pending with
    | none => rfl
    | some pending =>
      dsimp only
      cases disconnectTransactions env entry.height block.txdata.zipIdx.reverse undo CoinView.empty
        (pending.disconnect block) with
      | error p => rfl
      | ok result =>
        rw [bind_of_ok rfl, bind_of_ok rfl]
        cases result.1.isEmpty <;> rfl

/-- The database while a block is disconnected. -/
def removing (db : ChainDB) (entry : ChainEntry) : ChainDB :=
  { db with
    pending := some db.state, entryCache := db.entryCache.clearBatch.removeHeightBatch entry }

theorem disconnect_of_pending (h : db.pending = none) : db.disconnect env entry block = (do
    let (db, coins, view) ← disconnectBlock env (db.removing entry) entry block
    match db.pending with
    | none => throw .noPending
    | some pending =>
      let chainState := pending.commit entry.prevBlock
      let db ← { db with pending := some chainState }.commit
        ([Operation.remove (.nextHash entry.prevBlock), .remove (.hash entry.height)] ++ coins
          ++ [Operation.insert .chainState chainState])
      return (db, view)) := by
  rw [disconnect, start_of_pending h]
  rfl

theorem disconnect_abandoned (h : db.pending = none) (cache : VersionBitsCache) :
    (db.abandoned cache db.blocks).disconnect env entry block = (db.disconnect env entry block).map
      fun (db, view) => (db.withAnswers cache.commit, view) := by
  rw [disconnect_of_pending h,
    disconnect_of_pending (show (db.abandoned cache db.blocks).pending = none from rfl),
    show (db.abandoned cache db.blocks).removing entry
      = (db.removing entry).withAnswers cache from rfl,
    disconnectBlock_withAnswers]
  cases disconnectBlock env (db.removing entry) entry block with
  | error p => rfl
  | ok result =>
    obtain ⟨⟨_, _, _, pending, _, _, _, _, _⟩, coins, view⟩ := result
    cases pending <;> rfl

end ChainDB

/-! ## The file of undo records -/

namespace FileBlockStore

/-- Where a write to the block store fails: at a read of the index, when the file is opened, or
after some bytes of the record reached the file, with all of them when it is the index that cannot
be written. -/
inductive WriteFault where
  | lookup
  | opening
  | writing (n : Nat)
  deriving DecidableEq, Repr

/-- `write` with a fault. A record that the index lists is not written again. -/
def writeWith (fault : WriteFault) (store : FileBlockStore) (recordType : RecordType)
    (hash : BlockHash) (data : List UInt8) :
    Except Panic (FileBlockStore × Except DBError Unit) :=
  if fault = .lookup then .ok (store, .error .io)
  else if (recordType, hash) ∈ store.db.blockRecord then .ok (store, .ok ())
  else
    match store.allocate recordType (data.length + magicLength recordType) with
    | .error (.panic p) => .error p
    | .error (.error e) => .ok (store, .error e)
    | .ok (fileno, filerecord, files) =>
      match fault, files.lookup (recordType, fileno) with
      | .writing n, some bytes =>
        let record := magicBytes store.options recordType hash data.length ++ data
        let bytes := Bytes.writeAt bytes filerecord.used (record.take (n + 1))
        .ok ({ store with files := files.insert (recordType, fileno) bytes }, .error .io)
      | _, _ => .ok ({ store with files := files }, .error .io)

variable {store store' : FileBlockStore} {fault : WriteFault} {recordType : RecordType}
  {hash : BlockHash} {data : List UInt8} {n fileno : Nat} {filerecord : FileRecord}
  {files : FMap (RecordType × Nat) (List UInt8)} {e : DBError}

/-- What the data files hold has no part in the choice of a file. -/
theorem allocate_withFiles (h : store.allocate recordType n = .ok (fileno, filerecord, files)) :
    (files = store.files ∧ ∀ others, { store with files := others }.allocate recordType n
      = .ok (fileno, filerecord, others))
    ∨ files = store.files.insert (recordType, fileno) []
      ∧ ∀ others, { store with files := others }.allocate recordType n
        = .ok (fileno, filerecord, others.insert (recordType, fileno) []) := by
  unfold allocate at h ⊢
  dsimp only
  by_cases hlong : n > store.options.maxFileLength
  · rw [if_pos hlong] at h
    cases h
  rw [if_neg hlong] at h
  simp only [if_neg hlong]
  generalize (store.db.lastFile.lookup recordType).getD 0 = last at h ⊢
  cases hfile : store.db.file.lookup (recordType, last) with
  | none =>
    simp only [hfile, FileRecord.empty, Nat.zero_add, hlong, if_false, if_true] at h ⊢
    cases h
    exact .inr ⟨rfl, fun _ => rfl⟩
  | some full =>
    by_cases hroom : full.used + n > full.length
    · simp only [hfile, hroom, if_true] at h ⊢
      cases h
      exact .inr ⟨rfl, fun _ => rfl⟩
    · simp only [hfile, hroom, if_false, Bool.false_eq_true] at h ⊢
      cases h
      exact .inl ⟨rfl, fun _ => rfl⟩

/-- A record is written over a part of it as over what was there before. -/
theorem write_withFiles {others : FMap (RecordType × Nat) (List UInt8)}
    (hlisted : (recordType, hash) ∉ store.db.blockRecord)
    (halloc : store.allocate recordType (data.length + magicLength recordType)
      = .ok (fileno, filerecord, files))
    (hothers : others = files ∨ ∃ bytes n, files.lookup (recordType, fileno) = some bytes
      ∧ others = files.insert (recordType, fileno) (Bytes.writeAt bytes filerecord.used
        ((magicBytes store.options recordType hash data.length ++ data).take n))) :
    { store with files := others }.write recordType hash data
      = store.write recordType hash data := by
  rw [write, write, if_neg hlisted, if_neg hlisted]
  dsimp only
  rw [halloc, bind_of_ok rfl]
  obtain ⟨rfl, hagain⟩ | ⟨rfl, hagain⟩ := allocate_withFiles halloc
  · rw [hagain, bind_of_ok rfl]
    obtain rfl | ⟨bytes, n, hbytes, rfl⟩ := hothers
    · rfl
    · simp only [hbytes, Finmap.lookup_insert, Bytes.writeAt_take, Finmap.insert_insert]
  · have hemptied : others.insert (recordType, fileno) []
        = store.files.insert (recordType, fileno) [] := by
      obtain rfl | ⟨bytes, n, -, rfl⟩ := hothers
      · rw [Finmap.insert_insert]
      · rw [Finmap.insert_insert, Finmap.insert_insert]
    rw [hagain, hemptied, bind_of_ok rfl]

/-- A failed write leaves the index alone, and the same write afterwards does what it would have
done before: it goes to the same place, over what is there of the record. -/
theorem writeWith_eq_error
    (h : store.writeWith fault recordType hash data = .ok (store', .error e)) :
    store'.db = store.db ∧ store'.options = store.options
      ∧ store'.write recordType hash data = store.write recordType hash data := by
  unfold writeWith at h
  split_ifs at h with hlookup hlisted
  · cases h
    exact ⟨rfl, rfl, rfl⟩
  · cases h
  · cases halloc : store.allocate recordType (data.length + magicLength recordType) with
    | error stop =>
      rw [halloc] at h
      cases stop with
      | panic p => cases h
      | error e' =>
        cases h
        exact ⟨rfl, rfl, rfl⟩
    | ok result =>
      obtain ⟨fileno, filerecord, files⟩ := result
      rw [halloc] at h
      dsimp only at h
      split at h
      · rename_i n bytes hbytes
        cases h
        exact ⟨rfl, rfl, write_withFiles hlisted halloc (.inr ⟨bytes, n + 1, hbytes, rfl⟩)⟩
      · cases h
        exact ⟨rfl, rfl, write_withFiles hlisted halloc (.inl rfl)⟩

end FileBlockStore

/-! ## What the caller finds -/

theorem VersionBitsCache.drop_of_updates {cache : VersionBitsCache} (h : cache.updates = []) :
    cache.drop = .ok cache := by
  obtain ⟨bits, updates⟩ := cache
  obtain rfl : updates = [] := h
  rfl

namespace ChainDB

/-- After a failed operation nothing is staged, and of what is not staged only the answers in the
version-bits cache may be fewer, when a fault `early` before the commit is what it failed with. -/
structure LeftAsItWas (db db' : ChainDB) (early : Option DBError) : Prop where
  state : db'.state = db.state
  hash : db'.entryCache.hash = db.entryCache.hash
  height : db'.entryCache.height = db.entryCache.height
  mostWork : db'.mostWork = db.mostWork
  columns : db'.db = db.db
  invalid : db'.invalid = db.invalid
  downloaded : db'.downloaded = db.downloaded
  pending : db'.pending = none
  batch : db'.entryCache.batch = []
  starts : ∃ started, db'.start = .ok started
  answers : db'.versionBitsCache = db.versionBitsCache
    ∨ early.isSome = true ∧ db.versionBitsCache.drop = .ok db'.versionBitsCache

/-- A failed operation is repeated with the result it would have had, up to the answers in the
version-bits cache, and with these too when none were forgotten. -/
structure Retries {α : Type} (db db' : ChainDB) (early : Option DBError)
    (retry first : Except Panic (Outcome α)) : Prop where
  repeated : retry = first.map fun (db₁, result) =>
    (db₁.withAnswers db'.versionBitsCache.commit, result)
  same : early = none ∨ db.versionBitsCache.updates = [] → retry = first

variable {env : Env} {db db' : ChainDB} {faults : Faults} {entry prev : ChainEntry} {block : Block}
  {view : CoinView} {early : Option DBError} {cache : VersionBitsCache} {blocks : BlockStore}

theorem LeftAsItWas.of_abandoned (hkept : Kept db early cache) :
    LeftAsItWas db (db.abandoned cache blocks) early :=
  ⟨rfl, rfl, rfl, rfl, rfl, rfl, rfl, rfl, rfl, ⟨_, rfl⟩, hkept⟩

theorem Kept.eq_of_same (h : Kept db early cache)
    (hsame : early = none ∨ db.versionBitsCache.updates = []) : cache = db.versionBitsCache := by
  obtain rfl | ⟨hearly, hdrop⟩ := h
  · rfl
  obtain rfl | hupdates := hsame
  · cases hearly
  · rw [VersionBitsCache.drop_of_updates hupdates] at hdrop
    exact (Except.ok.inj hdrop).symm

/-- What is repeated starts from the same database when no answer was forgotten. -/
theorem start_abandoned_self (h : db.pending = none) :
    (db.abandoned db.versionBitsCache db.blocks).start = db.start := by
  rw [start_abandoned, start_of_pending h]

theorem Retries.of_abandoned {α : Type} {retry first : Except Panic (Outcome α)}
    (hkept : Kept db early cache)
    (hretry : retry = first.map fun (db₁, result) => (db₁.withAnswers cache.commit, result))
    (hself : first = first.map fun (db₁, result) =>
      (db₁.withAnswers db.versionBitsCache.commit, result)) :
    Retries db (db.abandoned cache blocks) early retry first where
  repeated := hretry
  same hsame := by
    obtain rfl := hkept.eq_of_same hsame
    exact hretry.trans hself.symm

theorem saveEntryWith_abandoned (h : db.pending = none) (cache : VersionBitsCache) :
    (db.abandoned cache db.blocks).saveEntryWith .none entry prev
      = (db.saveEntryWith .none entry prev).map fun (db₁, result) =>
        (db₁.withAnswers cache.commit, result) := by
  rw [saveEntryWith_none, saveEntryWith_none, saveEntry_abandoned h]
  cases db.saveEntry entry prev <;> rfl

theorem connectWith_abandoned (h : db.pending = none) (cache : VersionBitsCache)
    (hundo : UndoWritten db entry view blocks) :
    (db.abandoned cache blocks).connectWith .none env entry block view
      = (db.connectWith .none env entry block view).map fun (db₁, result) =>
        (db₁.withAnswers cache.commit, result) := by
  rw [connectWith_none, connectWith_none, connect_abandoned h cache hundo]
  cases db.connect env entry block view <;> rfl

theorem disconnectWith_abandoned (h : db.pending = none) (cache : VersionBitsCache) :
    (db.abandoned cache db.blocks).disconnectWith .none env entry block
      = (db.disconnectWith .none env entry block).map fun (db₁, result) =>
        (db₁.withAnswers cache.commit, result) := by
  rw [disconnectWith_none, disconnectWith_none, disconnect_abandoned h]
  cases db.disconnect env entry block <;> rfl

/-- Whatever fails in an operation of the chain database, the database is as it was, and the
operation does what it would have done when it is repeated; also when the undo record is in its file
already, or a part of it. -/
theorem failed_operation_retries (env : Env) (faults : Faults) (db db' : ChainDB) (e : DBError) :
    (∀ entry prev, db.saveEntryWith faults entry prev = .ok (db', .error e) →
      LeftAsItWas db db' faults.nextHashes ∧ Retries db db' faults.nextHashes
        (db'.saveEntryWith .none entry prev) (db.saveEntryWith .none entry prev))
    ∧ (∀ entry block view, db.connectWith faults env entry block view = .ok (db', .error e) →
      LeftAsItWas db db' faults.writeUndo ∧ Retries db db' faults.writeUndo
        (db'.connectWith .none env entry block view) (db.connectWith .none env entry block view))
    ∧ (∀ entry block, db.disconnectWith faults env entry block = .ok (db', .error e) →
      LeftAsItWas db db' faults.readUndo ∧ Retries db db' faults.readUndo
        (db'.disconnectWith .none env entry block) (db.disconnectWith .none env entry block))
    ∧ ∀ fault (store store' : FileBlockStore) hash undo,
      store.writeWith fault .undo hash undo = .ok (store', .error e) →
      store'.db = store.db ∧ store'.writeUndo hash undo = store.writeUndo hash undo := by
  refine ⟨fun entry prev hfail => ?_, fun entry block view hfail => ?_,
    fun entry block hfail => ?_, fun fault store store' hash undo hfail => ?_⟩
  · obtain ⟨hpending, cache, hkept, rfl⟩ := saveEntryWith_eq_error hfail
    refine ⟨.of_abandoned hkept, .of_abandoned hkept (saveEntryWith_abandoned hpending cache) ?_⟩
    rw [← saveEntryWith_abandoned hpending, saveEntryWith, saveEntryWith,
      start_abandoned_self hpending]
  · obtain ⟨hpending, cache, blocks, hkept, hundo, rfl⟩ := connectWith_eq_error hfail
    refine ⟨.of_abandoned hkept,
      .of_abandoned hkept (connectWith_abandoned hpending cache hundo) ?_⟩
    rw [← connectWith_abandoned hpending _ (.inl rfl), connectWith, connectWith,
      start_abandoned_self hpending]
  · obtain ⟨hpending, cache, hkept, rfl⟩ := disconnectWith_eq_error hfail
    refine ⟨.of_abandoned hkept, .of_abandoned hkept (disconnectWith_abandoned hpending cache) ?_⟩
    rw [← disconnectWith_abandoned hpending, disconnectWith, disconnectWith,
      start_abandoned_self hpending]
  · obtain ⟨hdb, -, hwrite⟩ := FileBlockStore.writeWith_eq_error hfail
    exact ⟨hdb, hwrite⟩

end ChainDB

/-! ## Answers that are forgotten -/

namespace Small

/-- A deployment of one-block windows, such that the first block has an answer noted. -/
def eager : Env := { env with
  network := { network with
    minerConfirmationWindow := 1
    deployments := [⟨2, .startTime 0, .noTimeout, .taproot, 0⟩]
    minerConfirmationWindow_pos := Nat.one_pos
    bits_nodup := by decide } }

/-- A first block that claims too much. -/
def greedy : Block := block env.genesisEntry.hash 20 1 [coinbase 1 5000000001]

/-- The entry of an honest first block. -/
def honest : ChainEntry := .fromBlockHeader eager first.header (some eager.genesisEntry)

def undecodable : Faults := ⟨some .io, none, none, none⟩

end Small

namespace Chain

/-- Whether an entry is saved with other answers in the cache when the first attempt fails. -/
def forgets (entry prev : ChainEntry) (c : Chain) : Bool :=
  match c.db.saveEntryWith Small.undecodable entry prev, c.db.saveEntryWith .none entry prev with
  | .ok (db', .error .io), .ok (db₁, .ok ()) =>
    match db'.saveEntryWith .none entry prev with
    | .ok (db₂, .ok ()) => decide (db₂.versionBitsCache.bits ≠ db₁.versionBitsCache.bits)
    | _ => false
  | _, _ => false

theorem forgets_eq_true {entry prev : ChainEntry} {c : Chain} (h : c.forgets entry prev = true) :
    ∃ db' db₁ db₂, c.db.saveEntryWith Small.undecodable entry prev = .ok (db', .error .io)
      ∧ c.db.saveEntryWith .none entry prev = .ok (db₁, .ok ())
      ∧ db'.saveEntryWith .none entry prev = .ok (db₂, .ok ()) ∧ db₂ ≠ db₁ := by
  unfold forgets at h
  split at h
  · rename_i db' db₁ hfail hfirst
    split at h
    · rename_i db₂ hretry
      refine ⟨db', db₁, db₂, hfail, hfirst, hretry, ?_⟩
      rintro rfl
      exact of_decide_eq_true h rfl
    · cases h
  · cases h

theorem exists_forgets : ∃ c, Reachable Small.eager c
    ∧ c.forgets Small.honest Small.eager.genesisEntry = true :=
  exists_reachable Small.eager [.add 100 Small.greedy]
    (fun c => c.forgets Small.honest Small.eager.genesisEntry) (by decide) (by decide +kernel)

/-- After a block that was found invalid, an entry is saved at the second attempt with the answer
forgotten that is kept when the first one succeeds. -/
theorem retry_forgets_answers : ∃ c, Reachable Small.eager c ∧ ∃ db' db₁ db₂,
    c.db.saveEntryWith Small.undecodable Small.honest Small.eager.genesisEntry
      = .ok (db', .error .io)
    ∧ c.db.saveEntryWith .none Small.honest Small.eager.genesisEntry = .ok (db₁, .ok ())
    ∧ db'.saveEntryWith .none Small.honest Small.eager.genesisEntry = .ok (db₂, .ok ())
    ∧ db₂ ≠ db₁ := by
  obtain ⟨c, hc, hforgets⟩ := exists_forgets
  exact ⟨c, hc, forgets_eq_true hforgets⟩

/-- The failed attempt on that chain. -/
theorem failed_operation_retries_saving : ∃ c, Reachable Small.eager c ∧ ∃ db',
    c.db.saveEntryWith Small.undecodable Small.honest Small.eager.genesisEntry
      = .ok (db', .error .io)
    ∧ ChainDB.LeftAsItWas c.db db' (some .io) ∧ ChainDB.Retries c.db db' (some .io)
      (db'.saveEntryWith .none Small.honest Small.eager.genesisEntry)
      (c.db.saveEntryWith .none Small.honest Small.eager.genesisEntry) := by
  obtain ⟨c, hc, hforgets⟩ := exists_forgets
  obtain ⟨db', -, -, hfail, -⟩ := forgets_eq_true hforgets
  obtain ⟨hsave, -⟩ :=
    ChainDB.failed_operation_retries Small.eager Small.undecodable c.db db' .io
  exact ⟨c, hc, db', hfail, hsave _ _ hfail⟩

end Chain

end BitcoinNode
