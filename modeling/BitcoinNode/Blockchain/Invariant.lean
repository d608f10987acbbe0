import BitcoinNode.Blockchain.Moves

/-!
# The invariant of the chain

What holds of a chain between any two moves: nothing is staged, the headers form a tree,
the height index is the branch of the tip, and every block of that branch is stored and
not marked invalid.
-/

namespace BitcoinNode.Chain

/-- One move of the chain, as the callers of the moved function make it. -/
inductive Move (env : Env) : Chain → Chain → Prop where
  | cache {c : Chain} (cache : VersionBitsCache) : Move env c (c.withCache cache)
  | header {c c' : Chain} {now : Nat} {header : BlockHeader} {result : ChainEntry × ChainEntry} :
      c.addHeader env now header = .ok (c', .ok result) → Move env c c'
  | invalid {c : Chain} {hash : BlockHash} {entry : ChainEntry} :
      c.db.getEntryByHash hash = some entry → c.db.isMainHash hash = false →
      Move env c (c.setInvalid hash)
  | block {c : Chain} {block : Block} {entry : ChainEntry} {db : ChainDB} :
      c.db.getEntryByHash entry.hash = some entry →
      env.blockHash block.header = entry.hash →
      c.db.hasBlock entry.hash = false →
      block.checkBody env = .ok () →
      c.db.writeBlock env entry.hash block = .ok db → Move env c { c with db := db }
  | connect {c c' : Chain} {block : Block} {entry : ChainEntry} :
      c.db.getEntryByHash entry.hash = some entry →
      c.isBlockReady entry.hash = true →
      c.db.getBlock entry.hash = some block →
      entry.prevBlock = c.tip.hash →
      c.connect env block entry c.tip = .ok (c', .ok entry) → Move env c c'
  | disconnect {c c' : Chain} : c.disconnect env c.tip = .ok c' → Move env c c'

/-- The states that a chain started on a fresh database passes through, those in the middle
of a call included. -/
def Visited (env : Env) (c : Chain) : Prop :=
  ∃ c₀, Chain.new env = .ok c₀ ∧ Relation.ReflTransGen (Move env) c₀ c

/-- What holds between any two moves. -/
structure Inv (env : Env) (c : Chain) : Prop where
  idle : c.db.Idle
  tree : c.db.Tree env
  main : c.db.Main c.tip
  tip_stored : c.db.getEntryByHash c.tip.hash = some c.tip
  height_eq : c.height = c.tip.height
  state_tip : c.db.state.tip = c.tip.hash
  hash_column : c.db.db.hash = c.db.entryCache.height
  state_column : c.db.db.chainState = some c.db.state
  children {hash child : BlockHash} : child ∈ c.db.getNextHashes hash ↔
    ∃ e, c.db.getEntryByHash child = some e ∧ e.prevBlock = hash
  downloaded_iff {hash : BlockHash} : hash ∈ c.db.downloaded ↔ hash ∈ c.db.blocks.blocks
  block_hash {hash : BlockHash} {block : Block} :
    c.db.getBlock hash = some block → env.blockHash block.header = hash
  block_entry {hash : BlockHash} : hash ∈ c.db.downloaded → ∃ e, c.db.getEntryByHash hash = some e
  block_body {hash : BlockHash} {block : Block} : c.db.getBlock hash = some block →
    hash ≠ env.genesisEntry.hash → block.checkBody env = .ok ()
  main_ready {h : Nat} {hash : BlockHash} :
    c.db.entryCache.height.lookup h = some hash → c.isBlockReady hash = true

variable {env : Env} {c c' : Chain} {block : Block} {entry prev : ChainEntry}

theorem isBlockReady_iff {hash : BlockHash} :
    c.isBlockReady hash = true ↔ hash ∉ c.db.invalid ∧ hash ∈ c.db.downloaded := by
  simp [isBlockReady, ChainDB.hasInvalid, ChainDB.hasBlock]

/-! ## The start -/

section Fresh

variable {mostWork : Option ChainEntry}

theorem getEntryByHash_fresh {hash : BlockHash} {e : ChainEntry} :
    (ChainDB.fresh env mostWork).getEntryByHash hash = some e ↔
      hash = env.genesisEntry.hash ∧ e = env.genesisEntry := by
  unfold ChainDB.getEntryByHash ChainDB.fresh
  rcases eq_or_ne hash env.genesisEntry.hash with rfl | h
  · simp [eq_comm]
  · simp [Finmap.lookup_insert_of_ne _ h, h]

theorem lookup_height_fresh {h : Nat} {hash : BlockHash} :
    (ChainDB.fresh env mostWork).entryCache.height.lookup h = some hash ↔
      h = 0 ∧ hash = env.genesisEntry.hash := by
  unfold ChainDB.fresh
  rcases eq_or_ne h 0 with rfl | h
  · simp [eq_comm]
  · simp [Finmap.lookup_insert_of_ne _ h, h]

theorem getEntryByHash_fresh_prev (law : env.Lawful) :
    (ChainDB.fresh env mostWork).getEntryByHash env.genesisEntry.prevBlock = none := by
  rw [show env.genesisEntry.prevBlock = 0 from law.genesis_prev]
  cases h : (ChainDB.fresh env mostWork).getEntryByHash 0 with
  | none => rfl
  | some e => exact absurd (getEntryByHash_fresh.1 h).1.symm (law.blockHash_ne_zero _)

theorem getNextHashes_fresh (law : env.Lawful) {hash child : BlockHash} :
    child ∈ (ChainDB.fresh env mostWork).getNextHashes hash ↔
      hash = env.genesisEntry.prevBlock ∧ child = env.genesisEntry.hash := by
  rw [show env.genesisEntry.prevBlock = 0 from law.genesis_prev]
  unfold ChainDB.getNextHashes
  simp only [ChainDB.fresh, Database.writeBatch_cons, Database.writeBatch_nil, Operation.apply,
    Database.insert, Database.empty]
  rcases eq_or_ne hash 0 with rfl | h
  · simp
  · simp [Finmap.lookup_insert_of_ne _ h, h]

/-- Opening a fresh database leaves the chain at genesis. -/
theorem new_eq_ok (law : env.Lawful) (h : Chain.new env = .ok c) :
    ∃ mostWork, c = ⟨ChainDB.fresh env mostWork, env.genesisEntry, 0, .default, []⟩ := by
  simp only [Chain.new, bind_eq_ok] at h
  obtain ⟨db, hdb, h⟩ := h
  obtain ⟨mostWork, rfl⟩ := ChainDB.openFresh_eq_ok hdb
  have htip : (ChainDB.fresh env mostWork).getTip = some env.genesisEntry :=
    getEntryByHash_fresh.2 ⟨rfl, rfl⟩
  rw [htip] at h
  dsimp only at h
  rw [getEntryByHash_fresh_prev law] at h
  cases h
  exact ⟨mostWork, rfl⟩

theorem tree_fresh (law : env.Lawful) : (ChainDB.fresh env mostWork).Tree env := by
  refine ⟨?_, ?_, getEntryByHash_fresh.2 ⟨rfl, rfl⟩, ?_, ?_⟩
  · intro hash e he
    obtain ⟨rfl, rfl⟩ := getEntryByHash_fresh.1 he
    rfl
  · intro hash e he
    obtain ⟨rfl, rfl⟩ := getEntryByHash_fresh.1 he
    rfl
  · refine ⟨rfl, getEntryByHash_fresh_prev law, ?_, ?_⟩
    · intro hash e he hne
      exact absurd (getEntryByHash_fresh.1 he).2 hne
    · intro hash e p he hp
      rw [(getEntryByHash_fresh.1 he).2, getEntryByHash_fresh_prev law] at hp
      cases hp
  · intro hash e p he hp
    rw [(getEntryByHash_fresh.1 he).2, getEntryByHash_fresh_prev law] at hp
    cases hp

theorem main_fresh : (ChainDB.fresh env mostWork).Main env.genesisEntry := by
  refine ⟨lookup_height_fresh.2 ⟨rfl, rfl⟩, ?_, ?_, ?_⟩
  · intro h hlt
    cases hh : (ChainDB.fresh env mostWork).entryCache.height.lookup h with
    | none => rfl
    | some hash =>
      obtain ⟨rfl, -⟩ := lookup_height_fresh.1 hh
      exact absurd hlt (Nat.lt_irrefl 0)
  · intro h hash hh
    obtain ⟨rfl, rfl⟩ := lookup_height_fresh.1 hh
    exact ⟨env.genesisEntry, getEntryByHash_fresh.2 ⟨rfl, rfl⟩, rfl⟩
  · intro h hash e hh he
    exact absurd (lookup_height_fresh.1 hh).1 (Nat.succ_ne_zero h)

end Fresh

theorem Inv.new (law : env.Lawful) (h : Chain.new env = .ok c) : c.Inv env := by
  obtain ⟨mostWork, rfl⟩ := new_eq_ok law h
  have hblock : ∀ {hash block}, (ChainDB.fresh env mostWork).getBlock hash = some block →
      hash = env.genesisEntry.hash ∧ block = env.genesisBlock := by
    intro hash block hb
    unfold ChainDB.getBlock ChainDB.fresh BlockStore.readBlock at hb
    rcases eq_or_ne hash env.genesisEntry.hash with rfl | hne
    · simpa [eq_comm] using hb
    · simp [Finmap.lookup_insert_of_ne _ hne] at hb
  exact {
    idle := ⟨rfl, rfl⟩
    tree := tree_fresh law
    main := main_fresh
    tip_stored := getEntryByHash_fresh.2 ⟨rfl, rfl⟩
    height_eq := rfl
    state_tip := rfl
    hash_column := rfl
    state_column := rfl
    children := by
      intro hash child
      rw [getNextHashes_fresh law]
      simp only [getEntryByHash_fresh]
      constructor
      · rintro ⟨rfl, rfl⟩
        exact ⟨env.genesisEntry, ⟨rfl, rfl⟩, rfl⟩
      · rintro ⟨e, ⟨rfl, rfl⟩, rfl⟩
        exact ⟨rfl, rfl⟩
    downloaded_iff := by
      intro hash
      simp [ChainDB.fresh, Finmap.mem_insert, Finmap.notMem_empty]
    block_hash := by
      intro hash block hb
      obtain ⟨rfl, rfl⟩ := hblock hb
      rfl
    block_entry := by
      intro hash hd
      exact ⟨env.genesisEntry, getEntryByHash_fresh.2 ⟨by simpa [ChainDB.fresh] using hd, rfl⟩⟩
    block_body := by
      intro hash block hb hne
      exact absurd (hblock hb).1 hne
    main_ready := by
      intro h hash hh
      obtain ⟨-, rfl⟩ := lookup_height_fresh.1 hh
      simp [isBlockReady_iff, ChainDB.fresh] }

/-! ## The moves -/

namespace Inv

theorem isMainChain_tip (inv : c.Inv env) : c.db.isMainChain c.tip = true :=
  inv.main.isMainChain_tip

theorem isMainHash_iff (inv : c.Inv env) {hash : BlockHash} {e : ChainEntry}
    (he : c.db.getEntryByHash hash = some e) :
    c.db.isMainHash hash = true ↔ c.db.entryCache.height.lookup e.height = some hash := by
  rw [ChainDB.isMainHash, he, ChainDB.isMainChain_iff, inv.tree.hash_eq he]

theorem ready_of_main (inv : c.Inv env) {e : ChainEntry} (h : c.db.isMainChain e = true) :
    c.isBlockReady e.hash = true :=
  inv.main_ready (ChainDB.isMainChain_iff.1 h)

theorem withCache (inv : c.Inv env) (cache : VersionBitsCache) : (c.withCache cache).Inv env :=
  ⟨⟨inv.idle.pending, inv.idle.batch⟩, inv.tree.congr rfl, ⟨inv.main.top, inv.main.above,
    inv.main.stored, inv.main.prev⟩, inv.tip_stored, inv.height_eq, inv.state_tip,
    inv.hash_column, inv.state_column, inv.children, inv.downloaded_iff, inv.block_hash,
      inv.block_entry,
    inv.block_body, inv.main_ready⟩

theorem setInvalid (inv : c.Inv env) {hash : BlockHash} (hmain : c.db.isMainHash hash = false) :
    (c.setInvalid hash).Inv env := by
  refine ⟨⟨inv.idle.pending, inv.idle.batch⟩, inv.tree.congr rfl, ⟨inv.main.top, inv.main.above,
    inv.main.stored, inv.main.prev⟩, inv.tip_stored, inv.height_eq, inv.state_tip,
    inv.hash_column, inv.state_column, inv.children, inv.downloaded_iff, inv.block_hash,
      inv.block_entry,
    inv.block_body, ?_⟩
  intro h hash' hh
  obtain ⟨e, he, rfl⟩ := inv.main.stored hh
  obtain ⟨hinvalid, hdown⟩ := isBlockReady_iff.1 (inv.main_ready hh)
  have hne : hash' ≠ hash := by
    rintro rfl
    rw [(inv.isMainHash_iff he).2 hh] at hmain
    cases hmain
  exact isBlockReady_iff.2 ⟨by simp [Chain.setInvalid, ChainDB.setInvalid, hne, hinvalid], hdown⟩

theorem writeBlock (inv : c.Inv env) {db : ChainDB}
    (hentry : c.db.getEntryByHash entry.hash = some entry)
    (hhash : env.blockHash block.header = entry.hash) (hnew : c.db.hasBlock entry.hash = false)
    (hbody : block.checkBody env = .ok ())
    (hwrite : c.db.writeBlock env entry.hash block = .ok db) :
    ({ c with db := db } : Chain).Inv env := by
  obtain ⟨blocks, hblocks, rfl⟩ := ChainDB.writeBlock_eq_ok hwrite
  have hnot : entry.hash ∉ c.db.blocks.blocks := by
    rw [← inv.downloaded_iff]
    simpa [ChainDB.hasBlock] using hnew
  have hstore : blocks =
      { c.db.blocks with blocks := c.db.blocks.blocks.insert entry.hash block } := by
    unfold BlockStore.writeBlock at hblocks
    rw [if_neg hnot] at hblocks
    split_ifs at hblocks
    exact (Except.ok.inj hblocks).symm
  have hget : ∀ hash b, blocks.readBlock hash = some b →
      hash = entry.hash ∧ b = block ∨ c.db.getBlock hash = some b := by
    intro hash b hb
    rw [hstore, BlockStore.readBlock] at hb
    rcases eq_or_ne hash entry.hash with rfl | hne
    · rw [Finmap.lookup_insert] at hb
      exact .inl ⟨rfl, (Option.some.inj hb).symm⟩
    · rw [Finmap.lookup_insert_of_ne _ hne] at hb
      exact .inr hb
  refine ⟨⟨inv.idle.pending, inv.idle.batch⟩, inv.tree.congr rfl, ⟨inv.main.top, inv.main.above,
    inv.main.stored, inv.main.prev⟩, inv.tip_stored, inv.height_eq, inv.state_tip,
    inv.hash_column, inv.state_column, inv.children, ?_, ?_, ?_, ?_, ?_⟩
  · intro hash
    rw [hstore]
    simp [Finmap.mem_insert, inv.downloaded_iff]
  · intro hash b hb
    rcases hget hash b hb with ⟨rfl, rfl⟩ | hb
    · exact hhash
    · exact inv.block_hash hb
  · intro hash hd
    rcases Finset.mem_insert.1 hd with rfl | hd
    · exact ⟨entry, hentry⟩
    · exact inv.block_entry hd
  · intro hash b hb hne
    rcases hget hash b hb with ⟨rfl, rfl⟩ | hb
    · exact hbody
    · exact inv.block_body hb hne
  · intro h hash hh
    obtain ⟨hinvalid, hdown⟩ := isBlockReady_iff.1 (inv.main_ready hh)
    exact isBlockReady_iff.2 ⟨hinvalid, Finset.mem_insert_of_mem hdown⟩

/-- A saved header is listed once more among the children of its parent. -/
theorem children_headerSaved (inv : c.Inv env) {mostWork : Option ChainEntry}
    (hnew : c.db.getEntryByHash entry.hash = none)
    (hprev : c.db.getEntryByHash entry.prevBlock = some prev) {hash child : BlockHash} :
    child ∈ (c.db.headerSaved entry prev mostWork).getNextHashes hash ↔
      ∃ e, (c.db.headerSaved entry prev mostWork).getEntryByHash child = some e
        ∧ e.prevBlock = hash := by
  have hmem : child ∈ (c.db.headerSaved entry prev mostWork).getNextHashes hash ↔
      child ∈ c.db.getNextHashes hash ∨ hash = prev.hash ∧ child = entry.hash := by
    unfold ChainDB.getNextHashes
    simp only [ChainDB.headerSaved, Database.writeBatch_cons, Database.writeBatch_nil,
      Operation.apply, Database.insert, Database.remove, ChainDB.getNextHashes]
    rcases eq_or_ne hash prev.hash with rfl | h
    · simp
    · simp [Finmap.lookup_insert_of_ne _ h, h]
  rw [hmem, inv.children]
  simp only [ChainDB.getEntryByHash_headerSaved]
  rcases eq_or_ne child entry.hash with rfl | h
  · simp [hnew, inv.tree.hash_eq hprev, eq_comm]
  · simp [h]

/-- Saving a header changes the entries and leaves the main chain as it was. -/
theorem headerSaved (law : env.Lawful) (inv : c.Inv env) {mostWork : Option ChainEntry}
    (hnew : c.db.getEntryByHash entry.hash = none)
    (hprev : c.db.getEntryByHash entry.prevBlock = some prev)
    (hhash : env.blockHash entry.header = entry.hash) (hheight : entry.height = prev.height + 1)
    (hpos : 0 < env.work entry.header)
    (hwork : entry.chainwork = prev.chainwork + env.work entry.header) :
    ({ c with db := c.db.headerSaved entry prev mostWork } : Chain).Inv env := by
  have hmono : ∀ hash e, c.db.getEntryByHash hash = some e →
      (c.db.headerSaved entry prev mostWork).getEntryByHash hash = some e := by
    intro hash e he
    rw [ChainDB.getEntryByHash_headerSaved, if_neg, he]
    rintro rfl
    rw [hnew] at he
    cases he
  refine ⟨⟨inv.idle.pending, inv.idle.batch⟩,
    inv.tree.headerSaved law hnew hprev hhash hheight hpos hwork,
    ⟨inv.main.top, inv.main.above, ?_, ?_⟩, hmono _ _ inv.tip_stored, inv.height_eq, inv.state_tip,
    inv.hash_column, inv.state_column, ?_, inv.downloaded_iff, inv.block_hash, ?_,
    inv.block_body, inv.main_ready⟩
  · intro h hash hh
    obtain ⟨e, he, heq⟩ := inv.main.stored hh
    exact ⟨e, hmono _ _ he, heq⟩
  · intro h hash e hh he
    obtain ⟨e', he', -⟩ := inv.main.stored hh
    have heq := hmono _ _ he'
    rw [show e = e' from Option.some.inj (he.symm.trans heq)]
    exact inv.main.prev hh he'
  · exact inv.children_headerSaved hnew hprev
  · intro hash hd
    obtain ⟨e, he⟩ := inv.block_entry hd
    exact ⟨e, hmono _ _ he⟩

theorem addHeader (law : env.Lawful) (inv : c.Inv env) {now : Nat} {header : BlockHeader}
    {result : ChainEntry × ChainEntry} (h : c.addHeader env now header = .ok (c', .ok result)) :
    c'.Inv env := by
  rcases addHeader_eq_ok h with ⟨e, he, -⟩ | ⟨entry, prev, skip, db, -, hpow, -, hnew, hprev, -,
    rfl, -, hsave, rfl⟩
  · cases he
  · obtain ⟨mostWork, rfl⟩ := ChainDB.saveEntry_eq_ok inv.idle hsave
    exact inv.headerSaved law hnew hprev rfl rfl (law.work_pos _ hpow) rfl

/-- The child of the tip is not on the main chain yet. -/
theorem isMainHash_child (inv : c.Inv env) (hentry : c.db.getEntryByHash entry.hash = some entry)
    (hprev : entry.prevBlock = c.tip.hash) : c.db.isMainHash entry.hash = false := by
  have hheight := inv.tree.height_eq hentry (by rw [hprev, inv.tip_stored])
  rw [← Bool.not_eq_true, inv.isMainHash_iff hentry, inv.main.above (by omega)]
  simp

/-- Connecting a ready child of the tip in the database. -/
theorem connected (inv : c.Inv env) {view : CoinView} {record : ChainState} {blocks : BlockStore}
    {state : DeploymentState} (hentry : c.db.getEntryByHash entry.hash = some entry)
    (hready : c.isBlockReady entry.hash = true) (hprev : entry.prevBlock = c.tip.hash)
    (hundo : c.db.writeUndo entry view = .ok blocks) :
    (c.connected (c.db.connected entry view (record.commit entry.hash) blocks) block entry view
      state).Inv env := by
  have hblocks := (ChainDB.writeUndo_eq_ok hundo).1
  have hstored := ChainDB.getEntryByHash_connected view (record.commit entry.hash) blocks hentry
  have hget : (c.db.connected entry view (record.commit entry.hash) blocks).getBlock
      = c.db.getBlock := by
    funext hash
    simp [ChainDB.getBlock, BlockStore.readBlock, ChainDB.connected, hblocks]
  refine ⟨⟨rfl, rfl⟩, inv.tree.congr hstored,
    inv.main.connected inv.tree inv.tip_stored hentry hprev, ?_, rfl, rfl, ?_, rfl, ?_,
    ?_, ?_, ?_, ?_, ?_⟩
  · exact (congrFun hstored _).trans hentry
  · simp only [Chain.connected, notifyConnect, ChainDB.connected, inv.hash_column]
  · intro hash child
    exact inv.children.trans (by rw [← hstored]; rfl)
  · intro hash
    exact inv.downloaded_iff.trans (by rw [← hblocks]; rfl)
  · intro hash b hb
    exact inv.block_hash ((congrFun hget hash).symm.trans hb)
  · intro hash hd
    obtain ⟨e, he⟩ := inv.block_entry hd
    exact ⟨e, (congrFun hstored hash).trans he⟩
  · intro hash b hb
    exact inv.block_body ((congrFun hget hash).symm.trans hb)
  · intro h hash hh
    rcases eq_or_ne h entry.height with rfl | hne
    · obtain rfl := Option.some.inj ((Finmap.lookup_insert _).symm.trans hh)
      exact hready
    · exact inv.main_ready ((Finmap.lookup_insert_of_ne _ hne).symm.trans hh)

theorem connect (inv : c.Inv env) (hentry : c.db.getEntryByHash entry.hash = some entry)
    (hready : c.isBlockReady entry.hash = true) (hblock : c.db.getBlock entry.hash = some block)
    (hprev : entry.prevBlock = c.tip.hash)
    (h : c.connect env block entry c.tip = .ok (c', .ok entry)) : c'.Inv env := by
  obtain ⟨-, -, cache, ⟨e, he, -⟩ | ⟨view, state, db, -, -, -, -, hdb, rfl⟩⟩ := connect_eq_ok h
  · cases he
  have htip : c.db.getEntryByHash entry.prevBlock = some c.tip := by rw [hprev, inv.tip_stored]
  have inv' := inv.withCache cache
  obtain ⟨record, blocks, -, hundo, rfl⟩ := ChainDB.connect_eq_ok inv'.idle
    (inv.tree.isGenesis_eq_false hentry htip) (inv.block_hash hblock) hdb
  exact inv'.connected hentry hready hprev hundo

/-- Disconnecting the tip in the database leaves its parent as the tip. -/
theorem disconnected (inv : c.Inv env) {view : CoinView} {record : ChainState}
    (hprev : c.db.getEntryByHash c.tip.prevBlock = some prev) :
    (c.disconnected (c.db.disconnected c.tip view (record.commit c.tip.prevBlock)) block c.tip prev
      view).Inv env := by
  refine ⟨⟨rfl, rfl⟩, inv.tree.congr rfl, inv.main.disconnected inv.tree inv.tip_stored hprev,
    inv.tree.self hprev, rfl, (inv.tree.hash_eq hprev).symm, ?_, rfl, inv.children,
    inv.downloaded_iff, inv.block_hash, inv.block_entry, inv.block_body, ?_⟩
  · simp only [Chain.disconnected, notifyDisconnect, ChainDB.disconnected, inv.hash_column]
  intro h hash hh
  refine inv.main_ready (h := h) ?_
  rcases eq_or_ne h c.tip.height with rfl | hne
  · exact absurd ((Finmap.lookup_erase _ _).symm.trans hh) (by simp)
  · exact (Finmap.lookup_erase_ne hne).symm.trans hh

theorem disconnect (inv : c.Inv env) (h : c.disconnect env c.tip = .ok c') : c'.Inv env := by
  obtain ⟨block, prev, db, view, -, hprev, hdb, rfl⟩ := disconnect_eq_ok h
  obtain ⟨undo, record, -, -, rfl⟩ := ChainDB.disconnect_eq_ok inv.idle hdb
  exact inv.disconnected hprev

/-- Every move keeps the invariant. -/
theorem move (law : env.Lawful) (inv : c.Inv env) (h : Move env c c') : c'.Inv env := by
  cases h with
  | cache cache => exact inv.withCache cache
  | header h => exact inv.addHeader law h
  | invalid _ h => exact inv.setInvalid h
  | block hentry hhash hnew hbody hwrite => exact inv.writeBlock hentry hhash hnew hbody hwrite
  | connect hentry hready hblock hprev h => exact inv.connect hentry hready hblock hprev h
  | disconnect h => exact inv.disconnect h

end Inv

/-- Every state passed through satisfies the invariant. -/
theorem Visited.inv (law : env.Lawful) (h : Visited env c) : c.Inv env := by
  obtain ⟨c₀, hnew, hrun⟩ := h
  exact ReflTransGen.invariant (fun s t hst hs => hs.move law hst) hrun (Inv.new law hnew)

end BitcoinNode.Chain
