import BitcoinNode.Blockchain.BlockAgreement
import BitcoinNode.Blockchain.Notified

/-!
# A node's lives

A node is stopped and started again any number of times, between any two commits to its files.
What a restart forgets (the blocks marked invalid, the cached deployment states, the flags of the
tip, and which of the headers with the most work came first) is not in the files, and no move needs
it: every life is one run without restarts, as far as the headers, the main chain, the coins, the
blocks and the listeners are concerned.
-/

namespace BitcoinNode

/-- The state record as it is on the disk, without its flag. -/
def ChainState.reload (state : ChainState) : ChainState := { state with commited := false }

/-- What a notification is about. -/
def Notification.told : Notification → Bool × Link
  | .connect _ entry block view => (true, ⟨entry, block, view⟩)
  | .disconnect _ entry block view => (false, ⟨entry, block, view⟩)

/-- What `ChainDB::new` and `open` make of the files of a database. -/
def ChainDB.restarted (env : Env) (db : ChainDB) : ChainDB :=
  { db.reopen env with
    db := { db.db with chainState := db.db.chainState.map ChainState.reload } }

namespace Chain

open ChainDB Relation

/-- `Chain::new` on the files of a node that was stopped. The listeners have files of their own, so
what they have been told stays. -/
def restart (env : Env) (c : Chain) : Except Panic Chain :=
  let db := c.db.restarted env
  match db.getTip with
  | none => .error .noTip
  | some tip =>
    match db.getEntryByHash tip.prevBlock with
    | none =>
      if tip.isGenesis then .ok ⟨db, tip, tip.height, .default, c.notified⟩
      else .error .tipNotGenesis
    | some prev => do
      let (cache, state) ← db.getDeployments env tip.time prev
      return ⟨{ db with versionBitsCache := cache }, tip, tip.height, state, c.notified⟩

/-- The states of a node that is stopped and started again at any time. -/
inductive Lived (env : Env) : Chain → Prop where
  | start {c : Chain} : Chain.new env = .ok c → Lived env c
  | move {c c' : Chain} : Lived env c → Move env c c' → Lived env c'
  | restart {c c' : Chain} : Lived env c → c.restart env = .ok c' → Lived env c'

/-- Two chains with the same files, tip and listeners. -/
structure Twin (d c : Chain) : Prop where
  entryCache : c.db.entryCache = d.db.entryCache
  columns : c.db.db = { d.db.db with chainState := some c.db.state }
  record : c.db.state.reload = d.db.state.reload
  blocks : c.db.blocks = d.db.blocks
  downloaded : c.db.downloaded = d.db.downloaded
  tip : c.tip = d.tip
  height : c.height = d.height
  told : c.notified.map Notification.told = d.notified.map Notification.told

variable {env : Env} {c c' d : Chain} {block : Block} {entry prev : ChainEntry}

/-! ## The same answers -/

section Congr

variable {db db' : ChainDB} (hcache : db'.entryCache = db.entryCache) {d : Deployment}
  {startTime : Nat}

include hcache

theorem countSignals_congr {bit threshold n count : Nat} {e : ChainEntry} :
    db'.countSignals bit threshold n e count = db.countSignals bit threshold n e count := by
  induction n generalizing e count with
  | zero => rfl
  | succ n ih => simp only [countSignals, ih, getEntryByHash_congr hcache]

theorem walkWindows_congr {fuel : Nat} {e : ChainEntry} {cache : VersionBitsCache}
    {compute : List ChainEntry} : walkWindows env db' d startTime fuel e cache compute
      = walkWindows env db d startTime fuel e cache compute := by
  induction fuel generalizing e cache compute with
  | zero => rfl
  | succ fuel ih =>
    simp only [walkWindows, ih, getMedianTime_congr hcache, getAncestor_congr hcache]

theorem computeStates_congr {compute : List ChainEntry} {cache : VersionBitsCache}
    {state : ThresholdState} : computeStates env db' d startTime compute cache state
      = computeStates env db d startTime compute cache state := by
  induction compute generalizing cache state with
  | nil => rfl
  | cons e compute ih =>
    simp only [computeStates, ih, transition, getMedianTime_congr hcache,
      countSignals_congr hcache]

/-- The flags for a block depend on the entries and the cached states. -/
theorem getDeployments_congr (hbits : db'.versionBitsCache = db.versionBitsCache) (time : Nat)
    (prev : ChainEntry) : db'.getDeployments env time prev = db.getDeployments env time prev := by
  simp only [getDeployments, isDeploymentActive, getDeploymentStatus, windowBoundary, hbits,
    getAncestor_congr hcache, walkWindows_congr hcache, computeStates_congr hcache]

end Congr

end Chain

/-! ## Counting without the flag -/

namespace ChainState

variable {state state' : ChainState} {commited : Bool}

def flagged (state : ChainState) (commited : Bool) : ChainState :=
  { state with commited := commited }

@[simp] theorem add_flagged (coin : TxOut) :
    (state.flagged commited).add coin = (state.add coin).flagged commited := rfl

@[simp] theorem spend_flagged (coin : TxOut) :
    (state.flagged commited).spend coin = (state.spend coin).flagged commited := rfl

@[simp] theorem connect_flagged (block : Block) :
    (state.flagged commited).connect block = (state.connect block).flagged commited := rfl

@[simp] theorem disconnect_flagged (block : Block) :
    (state.flagged commited).disconnect block = (state.disconnect block).flagged commited := rfl

@[simp] theorem commit_flagged (hash : BlockHash) :
    (state.flagged commited).commit hash = state.commit hash := rfl

theorem eq_flagged (h : state'.reload = state.reload) : state' = state.flagged state'.commited := by
  cases state
  cases state'
  simp_all [reload, flagged]

end ChainState

namespace ChainDB

variable {env : Env} {state : ChainState} {commited : Bool} {view : CoinView}

theorem spendCoins_flagged {inputs : List TxIn} : spendCoins view inputs (state.flagged commited)
    = (spendCoins view inputs state).map fun state => state.flagged commited := by
  induction inputs generalizing state with
  | nil => rfl
  | cons input inputs ih =>
    rw [spendCoins, spendCoins]
    cases view.getOutput input.previousOutput with
    | none => rfl
    | some spent =>
      dsimp only
      rw [ChainState.spend_flagged]
      exact ih

theorem addCoins_flagged {outputs : List TxOut} :
    addCoins env outputs (state.flagged commited)
      = (addCoins env outputs state).flagged commited := by
  refine List.foldl_hom (ChainState.flagged · commited) fun state output => ?_
  split_ifs <;> rfl

theorem dropCoins_flagged {outputs : List TxOut} : dropCoins env outputs (state.flagged commited)
    = (dropCoins env outputs state).flagged commited := by
  refine List.foldl_hom (ChainState.flagged · commited) fun state output => ?_
  split_ifs <;> rfl

theorem connectTransactions_flagged {txs : List Transaction} {i : Nat} :
    connectTransactions env view txs i (state.flagged commited)
      = (connectTransactions env view txs i state).map fun state => state.flagged commited := by
  induction txs generalizing state i with
  | nil => rfl
  | cons tx txs ih =>
    rw [connectTransactions, connectTransactions, spendCoins_flagged]
    split_ifs
    · cases spendCoins view tx.input state with
      | error p => rfl
      | ok state =>
        dsimp only [Except.map]
        rw [bind_of_ok rfl, bind_of_ok rfl, addCoins_flagged]
        exact ih
    · rw [pure_bind, pure_bind]
      dsimp only
      rw [addCoins_flagged]
      exact ih

theorem restoreCoins_flagged {inputs : List TxIn} {undo : UndoCoins} :
    restoreCoins inputs undo view (state.flagged commited)
      = (restoreCoins inputs undo view state).map fun r =>
        (r.1, r.2.1, r.2.2.flagged commited) := by
  induction inputs generalizing state undo view with
  | nil => rfl
  | cons input inputs ih =>
    rw [restoreCoins, restoreCoins]
    cases undo.apply view input.previousOutput with
    | error p => rfl
    | ok applied =>
      obtain ⟨undo, view⟩ := applied
      rw [bind_of_ok rfl, bind_of_ok rfl]
      dsimp only
      cases view.getOutput input.previousOutput with
      | none => rfl
      | some output =>
        dsimp only
        rw [ChainState.add_flagged]
        exact ih

theorem disconnectTransactions_flagged {height : Nat} {txs : List (Transaction × Nat)}
    {undo : UndoCoins} :
    disconnectTransactions env height txs undo view (state.flagged commited)
      = (disconnectTransactions env height txs undo view state).map fun r =>
          (r.1, r.2.1, r.2.2.flagged commited) := by
  induction txs generalizing state undo view with
  | nil => rfl
  | cons tx txs ih =>
    obtain ⟨tx, i⟩ := tx
    rw [disconnectTransactions, disconnectTransactions, restoreCoins_flagged]
    split_ifs
    · cases restoreCoins tx.input.reverse undo view state with
      | error p => rfl
      | ok restored =>
        obtain ⟨undo, view, state⟩ := restored
        dsimp only [Except.map]
        rw [bind_of_ok rfl, bind_of_ok rfl]
        dsimp only
        rw [dropCoins_flagged]
        exact ih
    · rw [pure_bind, pure_bind]
      dsimp only
      rw [dropCoins_flagged]
      exact ih

end ChainDB

namespace Chain

open ChainDB Relation

variable {env : Env} {c c' d : Chain} {block : Block} {entry prev : ChainEntry}

/-! ## Chains with the same files -/

namespace Twin

theorem refl (inv : c.Inv env) : Twin c c where
  entryCache := rfl
  columns := by rw [← inv.state_column]
  record := rfl
  blocks := rfl
  downloaded := rfl
  tip := rfl
  height := rfl
  told := rfl

variable (twin : Twin d c)

include twin

theorem entries : c.db.getEntryByHash = d.db.getEntryByHash := getEntryByHash_congr twin.entryCache

theorem getBlock : c.db.getBlock = d.db.getBlock := by
  funext hash
  rw [ChainDB.getBlock, ChainDB.getBlock, twin.blocks]

theorem nextHashes : c.db.getNextHashes = d.db.getNextHashes := by
  funext hash
  rw [getNextHashes, getNextHashes, twin.columns]

theorem state_eq : d.db.state = c.db.state.flagged d.db.state.commited :=
  ChainState.eq_flagged twin.record.symm

/-- What holds between moves holds of both, if no block of the main chain is marked. -/
theorem inv (hd : d.Inv env) (hpending : c.db.pending = none)
    (hmarked : ∀ h hash, c.db.entryCache.height.lookup h = some hash → hash ∉ c.db.invalid) :
    c.Inv env where
  idle := ⟨hpending, twin.entryCache ▸ hd.idle.batch⟩
  tree := hd.tree.congr twin.entries
  main := by
    obtain ⟨htop, habove, hstored, hprev⟩ := hd.main
    rw [← twin.entries] at hstored hprev
    rw [← twin.entryCache, ← twin.tip] at htop habove
    rw [← twin.entryCache] at hstored hprev
    exact ⟨htop, habove, hstored, hprev⟩
  tip_stored := by rw [twin.entries, twin.tip, hd.tip_stored]
  height_eq := by rw [twin.height, twin.tip, hd.height_eq]
  state_tip := by
    rw [twin.tip, ← hd.state_tip, twin.state_eq]
    rfl
  hash_column := by rw [twin.columns, twin.entryCache, ← hd.hash_column]
  state_column := by rw [twin.columns]
  children := by
    rw [twin.nextHashes, twin.entries]
    exact hd.children
  downloaded_iff := by
    rw [twin.downloaded, twin.blocks]
    exact hd.downloaded_iff
  block_hash := by
    rw [twin.getBlock]
    exact hd.block_hash
  block_entry := by
    rw [twin.downloaded, twin.entries]
    exact hd.block_entry
  block_body := by
    rw [twin.getBlock]
    exact hd.block_body
  main_ready {h hash} hlookup := by
    rw [twin.entryCache] at hlookup
    have hready := hd.main_ready hlookup
    refine isBlockReady_iff.2 ⟨hmarked h hash (by rw [twin.entryCache, hlookup]), ?_⟩
    rw [twin.downloaded]
    exact (isBlockReady_iff.1 hready).2

end Twin

/-! ## Moves of both -/

theorem Twin.agrees (twin : Twin d c) : c.db.Agrees d.db := by
  refine ⟨fun he he' => ?_, fun he _ => ?_, fun he _ hanc => ?_⟩
  · rw [← twin.entries, he] at he'
    exact (Option.some.inj he').symm
  · rw [twin.entries]
  · unfold ChainDB.Ancestor at hanc ⊢
    rw [← twin.entries]
    exact hanc

theorem Twin.header (law : env.Lawful) (twin : Twin d c) (hc : c.Inv env) (hd : Visited env d)
    (hunmarked : d.db.invalid = ∅) {now : Nat} {header : BlockHeader}
    {result : ChainEntry × ChainEntry} (h : c.addHeader env now header = .ok (c', .ok result)) :
    ∃ d', Move env d d' ∧ Twin d' c' ∧ d'.db.invalid = ∅ := by
  have inv := hd.inv law
  have skips := hd.skips law
  rcases addHeader_eq_ok h with ⟨_, hr, -⟩ | ⟨_, prev, skip, _, hr, hpow, -, hnew, hprev, hskip,
    rfl, hcheck, hsave, rfl⟩
  · cases hr
  cases hr
  obtain ⟨mostWork, rfl⟩ := saveEntry_eq_ok hc.idle hsave
  have hprev' : d.db.getEntryByHash header.prevBlockhash = some prev := by
    rw [← twin.entries, hprev]
  have hnew' : d.db.getEntryByHash (env.blockHash header) = none := by rw [← twin.entries, hnew]
  have hcheck' := contextualCheck_agree (twin.agrees.getTarget_eq hprev hprev' hc.tree hc.main
    (skips.congr twin.entries) inv.tree inv.main skips) (twin.agrees.getMedianTime_eq hprev hprev')
    (contextualCheckBlockHeader_eq_ok hcheck).2.2.1 hcheck
  obtain ⟨d', _, hadd⟩ := hd.exists_addHeader law hpow
    (by simp [hasInvalid, ChainDB.hasInvalid, hunmarked]) hnew' hprev' hcheck'
  refine ⟨d', .header hadd, ?_⟩
  rcases addHeader_eq_ok hadd with ⟨_, hr, -⟩ | ⟨_, _, skip', _, -, -, -, -, hstored, hskip', rfl,
    -, hsave', rfl⟩
  · cases hr
  cases hprev'.symm.trans hstored
  rw [getAncestor_congr twin.entryCache] at hskip
  cases hskip.symm.trans hskip'
  obtain ⟨mostWork', rfl⟩ := saveEntry_eq_ok inv.idle hsave'
  refine ⟨⟨?_, ?_, twin.record, twin.blocks, twin.downloaded, twin.tip, twin.height, twin.told⟩,
    hunmarked⟩
  · simp only [headerSaved, twin.entryCache]
  · simp only [headerSaved, twin.nextHashes]
    rw [twin.columns]
    rfl

theorem Twin.writeBlock (twin : Twin d c) (hunmarked : d.db.invalid = ∅)
    (hentry : c.db.getEntryByHash entry.hash = some entry)
    (hhash : env.blockHash block.header = entry.hash) (hnew : c.db.hasBlock entry.hash = false)
    (hbody : block.checkBody env = .ok ()) {db : ChainDB}
    (h : c.db.writeBlock env entry.hash block = .ok db) :
    ∃ d', Move env d d' ∧ Twin d' { c with db := db } ∧ d'.db.invalid = ∅ := by
  obtain ⟨blocks, hwrite, rfl⟩ := writeBlock_eq_ok h
  have hwrite' : d.db.writeBlock env entry.hash block
      = .ok { d.db with blocks := blocks, downloaded := insert entry.hash d.db.downloaded } := by
    rw [ChainDB.writeBlock, ← twin.blocks, hwrite]
    rfl
  rw [twin.entries] at hentry
  rw [ChainDB.hasBlock, twin.downloaded] at hnew
  refine ⟨_, .block hentry hhash hnew hbody hwrite',
    ⟨twin.entryCache, twin.columns, twin.record, rfl, ?_, twin.tip, twin.height, twin.told⟩,
    hunmarked⟩
  dsimp only
  rw [twin.downloaded]

theorem Twin.disconnect (twin : Twin d c) (hc : c.Inv env) (hd : d.Inv env)
    (hunmarked : d.db.invalid = ∅) (h : c.disconnect env c.tip = .ok c') :
    ∃ d', Move env d d' ∧ Twin d' c' ∧ d'.db.invalid = ∅ := by
  obtain ⟨block, prev, db, view, hblock, hprev, hdb, rfl⟩ := disconnect_eq_ok h
  obtain ⟨undo, state, hundo, htxs, rfl⟩ := ChainDB.disconnect_eq_ok hc.idle hdb
  rw [twin.getBlock, twin.tip] at hblock
  rw [twin.entries, twin.tip] at hprev
  have hdb' : d.db.disconnect env d.tip block = .ok (d.db.disconnected d.tip view
      (state.commit d.tip.prevBlock), view) := by
    rw [ChainDB.disconnect_eq hd.idle, ← twin.blocks, ← twin.tip, hundo]
    dsimp only
    rw [twin.state_eq, ChainState.disconnect_flagged, disconnectTransactions_flagged, htxs]
    rfl
  have hdisc : d.disconnect env d.tip = .ok (d.disconnected (d.db.disconnected d.tip view
      (state.commit d.tip.prevBlock)) block d.tip prev view) := by
    rw [Chain.disconnect, hblock]
    dsimp only
    rw [hprev]
    dsimp only
    rw [hdb']
    rfl
  refine ⟨_, .disconnect hdisc,
    ⟨?_, ?_, ?_, twin.blocks, twin.downloaded, rfl, rfl, ?_⟩, hunmarked⟩
  · simp only [Chain.disconnected, notifyDisconnect, ChainDB.disconnected, twin.entryCache,
      twin.tip]
  · simp only [Chain.disconnected, notifyDisconnect, ChainDB.disconnected, twin.tip]
    rw [twin.columns]
  · simp only [Chain.disconnected, notifyDisconnect, ChainDB.disconnected, twin.tip]
  · simp only [Chain.disconnected, notifyDisconnect, List.map_append, twin.told, List.map_cons,
      List.map_nil, Notification.told, twin.tip]

/-- The twin with the same cached deployment states. -/
theorem Twin.withCache (twin : Twin d c) (cache : VersionBitsCache) : Twin (d.withCache cache) c :=
  ⟨twin.entryCache, twin.columns, twin.record, twin.blocks, twin.downloaded, twin.tip, twin.height,
    twin.told⟩

/-- Verification finds the same in both. -/
theorem Twin.verdict_eq (law : env.Lawful) (twin : Twin d c) (hc : c.Inv env) (hd : Visited env d)
    (hbits : c.db.versionBitsCache = d.db.versionBitsCache) :
    d.verdict env block = c.verdict env block := by
  have inv := hd.inv law
  have skips := hd.skips law
  have hancestor := getAncestor_congr twin.entryCache
  have hmedian := getMedianTime_congr twin.entryCache
  have alike : Alike c d c.tip := ⟨by rw [twin.columns], twin.height.symm,
    fun height => (hancestor c.tip height).symm, (hmedian c.tip).symm,
    fun {_ a} _ => (hmedian a).symm⟩
  refine alike.verdict_eq twin.tip.symm hc inv (skips.congr twin.entries) skips ?_
  rw [flagsAt, flagsAt, twin.tip, getDeployments_congr twin.entryCache hbits]

theorem Twin.connect (law : env.Lawful) (twin : Twin d c) (hc : c.Inv env) (hd : Visited env d)
    (hbits : c.db.versionBitsCache = d.db.versionBitsCache)
    (hunmarked : d.db.invalid = ∅) (hentry : c.db.getEntryByHash entry.hash = some entry)
    (hready : c.isBlockReady entry.hash = true) (hblock : c.db.getBlock entry.hash = some block)
    (hprev : entry.prevBlock = c.tip.hash)
    (h : c.connect env block entry c.tip = .ok (c', .ok entry)) :
    ∃ d', Move env d d' ∧ Twin d' c' ∧ d'.db.invalid = ∅ := by
  have inv := hd.inv law
  obtain ⟨hheader, -, cache, ⟨e, he, -⟩ | ⟨view, flags, db, -, hverify, -, -, hdb, rfl⟩⟩ :=
    connect_eq_ok h
  · cases he
  have htip : c.db.getEntryByHash entry.prevBlock = some c.tip := by rw [hprev, hc.tip_stored]
  have hgen := hc.tree.isGenesis_eq_false hentry htip
  have hhash := hc.block_hash hblock
  obtain ⟨state, blocks, htxs, hundo, rfl⟩ :=
    ChainDB.connect_eq_ok (hc.withCache cache).idle hgen hhash hdb
  -- the twin finds the same view and flags
  have hverdict : d.verdict env block = c.verdict env block := twin.verdict_eq law hc hd hbits
  rw [verdict, verdict, hverify] at hverdict
  obtain ⟨_, hcase, -⟩ | ⟨_, d₁, _, hcase, hverify'⟩ := map_snd_cases hverdict
  · cases hcase
  cases hcase
  obtain ⟨⟨cache', rfl⟩, -⟩ := verifyContext_eq_ok hverify'
  have hdb' : (d.withCache cache').db.connect env entry block view
      = .ok ((d.withCache cache').db.connected entry view (state.commit entry.hash) blocks) := by
    have hundo' : (d.withCache cache').db.writeUndo entry view = .ok blocks := by
      rw [← hundo, ChainDB.writeUndo, ChainDB.writeUndo]
      exact congrArg (fun blocks => if view.undo.isEmpty then Except.ok blocks
        else blocks.writeUndo entry.hash view.undo) twin.blocks.symm
    rw [ChainDB.connect_eq (inv.withCache cache').idle hgen hhash, hundo',
      show (d.withCache cache').db.state = c.db.state.flagged d.db.state.commited
        from twin.state_eq,
      ChainState.connect_flagged, connectTransactions_flagged,
      show connectTransactions env view block.txdata 0 (c.db.state.connect block) = .ok state
        from htxs]
    rfl
  have hconnect : d.connect env block entry d.tip = .ok (d.connected
      ((d.withCache cache').db.connected entry view (state.commit entry.hash) blocks) block entry
        view flags, .ok entry) := by
    rw [Chain.connect, if_neg (by rw [← twin.tip]; exact not_not.2 hheader), if_neg (not_not.2 rfl),
      hverify', bind_of_ok rfl]
    dsimp only
    rw [hdb']
    rfl
  rw [twin.entries] at hentry
  rw [twin.getBlock] at hblock
  have hready' : d.isBlockReady entry.hash = true := by
    rw [isBlockReady_iff, hunmarked, ← twin.downloaded]
    exact ⟨Finset.notMem_empty _, (isBlockReady_iff.1 hready).2⟩
  refine ⟨_, .connect hentry hready' hblock (twin.tip ▸ hprev) hconnect,
    ⟨?_, ?_, rfl, rfl, twin.downloaded, rfl, rfl, ?_⟩, hunmarked⟩
  · simp only [Chain.connected, notifyConnect, ChainDB.connected, Chain.withCache, twin.entryCache]
  · simp only [Chain.connected, notifyConnect, ChainDB.connected, Chain.withCache]
    rw [twin.columns]
  · simp only [Chain.connected, notifyConnect, List.map_append, twin.told, List.map_cons,
      List.map_nil, Notification.told]

/-! ## Restarts -/

/-- The database comes back but for what is not in the files. -/
theorem restarted_eq (hc : c.Inv env) (saved : c.db.EntriesSaved) : c.db.restarted env = { c.db with
    state := c.db.state.reload
    db := { c.db.db with chainState := some c.db.state.reload }
    invalid := ∅
    mostWork := c.db.getMostWorkEntry
    versionBitsCache := .new env.network } := by
  have hcache := entryCache_new hc.tree hc.idle.batch saved hc.hash_column
  have hdownloaded : c.db.blocks.blocks.keys = c.db.downloaded :=
    Finset.ext fun hash => by rw [Finmap.mem_keys, hc.downloaded_iff]
  simp only [restarted, reopen, hcache, hdownloaded, hc.state_column, hc.idle.pending,
    Option.map_some, Option.getD_some, ChainState.reload]

/-- A restart finds the tip, and queries the flags for it if it is not the genesis block. -/
theorem restart_eq (hc : c.Inv env) (saved : c.db.EntriesSaved) : c.restart env =
    match c.db.getEntryByHash c.tip.prevBlock with
    | none =>
      if c.tip.isGenesis then
        .ok ⟨c.db.restarted env, c.tip, c.tip.height, .default, c.notified⟩
      else .error .tipNotGenesis
    | some prev => do
      let (cache, state) ← (c.db.restarted env).getDeployments env c.tip.time prev
      return ⟨{ c.db.restarted env with versionBitsCache := cache }, c.tip, c.tip.height, state,
        c.notified⟩ := by
  have hrestarted := restarted_eq hc saved
  have hentries : (c.db.restarted env).getEntryByHash = c.db.getEntryByHash :=
    getEntryByHash_congr (by rw [hrestarted])
  have htip : (c.db.restarted env).getTip = some c.tip := by
    rw [getTip, hentries, ← hc.tip_stored, ← hc.state_tip, hrestarted]
    rfl
  rw [restart, htip]
  dsimp only
  rw [hentries]

theorem restart_eq_ok (hc : c.Inv env) (saved : c.db.EntriesSaved) (h : c.restart env = .ok c') :
    ∃ cache state, c' = ⟨{ c.db.restarted env with versionBitsCache := cache }, c.tip, c.tip.height,
      state, c.notified⟩ := by
  rw [restart_eq hc saved] at h
  split at h
  · split_ifs at h
    cases h
    exact ⟨_, _, rfl⟩
  · simp only [bind_eq_ok, pure_eq_ok] at h
    obtain ⟨⟨cache, state⟩, -, rfl⟩ := h
    exact ⟨cache, state, rfl⟩

theorem Twin.restart (twin : Twin d c) (hc : c.Inv env) (saved : c.db.EntriesSaved)
    (h : c.restart env = .ok c') : Twin d c' := by
  obtain ⟨cache, state, rfl⟩ := restart_eq_ok hc saved h
  rw [restarted_eq hc saved]
  refine ⟨twin.entryCache, ?_, twin.record, twin.blocks, twin.downloaded, twin.tip, ?_, twin.told⟩
  · dsimp only
    rw [twin.columns]
  · rw [← twin.height, hc.height_eq]

theorem Inv.restart (hc : c.Inv env) (saved : c.db.EntriesSaved) (h : c.restart env = .ok c') :
    c'.Inv env := by
  obtain ⟨cache, state, rfl⟩ := restart_eq_ok hc saved h
  have twin := (Twin.refl hc).restart hc saved h
  refine twin.inv hc ?_ fun _ _ _ => ?_
  · rw [restarted_eq hc saved]
    exact hc.idle.pending
  · rw [restarted_eq hc saved]
    exact Finset.notMem_empty _

/-! ## A life as one run -/

theorem Visited.move (h : Visited env c) (hmove : Move env c c') : Visited env c' := by
  obtain ⟨c₀, hnew, hrun⟩ := h
  exact ⟨c₀, hnew, hrun.tail hmove⟩

/-- A move of a chain is one of its twin, or none. -/
theorem Twin.step (law : env.Lawful) (twin : Twin d c) (hc : c.Inv env) (hd : Visited env d)
    (hunmarked : d.db.invalid = ∅) (h : Move env c c') :
    ∃ d', Visited env d' ∧ Twin d' c' ∧ d'.db.invalid = ∅ := by
  have inv := hd.inv law
  cases h with
  | cache cache => exact ⟨d, hd, ⟨twin.entryCache, twin.columns, twin.record, twin.blocks,
      twin.downloaded, twin.tip, twin.height, twin.told⟩, hunmarked⟩
  | header h =>
    obtain ⟨d', hmove, twin', hunmarked'⟩ := twin.header law hc hd hunmarked h
    exact ⟨d', hd.move hmove, twin', hunmarked'⟩
  | invalid _ _ => exact ⟨d, hd, ⟨twin.entryCache, twin.columns, twin.record, twin.blocks,
      twin.downloaded, twin.tip, twin.height, twin.told⟩, hunmarked⟩
  | block hentry hhash hnew hbody hwrite =>
    obtain ⟨d', hmove, twin', hunmarked'⟩ :=
      twin.writeBlock hunmarked hentry hhash hnew hbody hwrite
    exact ⟨d', hd.move hmove, twin', hunmarked'⟩
  | connect hentry hready hblock hprev hconnect =>
    -- the twin gets the cached deployment states first
    obtain ⟨d', hmove, twin', hunmarked'⟩ := (twin.withCache c.db.versionBitsCache).connect law hc
      (hd.move (.cache _)) rfl hunmarked hentry hready hblock hprev hconnect
    exact ⟨d', (hd.move (.cache _)).move hmove, twin', hunmarked'⟩
  | disconnect hdisc =>
    obtain ⟨d', hmove, twin', hunmarked'⟩ := twin.disconnect hc inv hunmarked hdisc
    exact ⟨d', hd.move hmove, twin', hunmarked'⟩

theorem Twin.entriesSaved (twin : Twin d c) (h : d.db.EntriesSaved) : c.db.EntriesSaved := by
  rw [EntriesSaved, twin.columns, twin.entryCache]
  exact h

theorem Lived.exists_twin (law : env.Lawful) (h : Lived env c) :
    c.Inv env ∧ ∃ d, Visited env d ∧ Twin d c ∧ d.db.invalid = ∅ := by
  induction h with
  | @start c hnew =>
    have inv := Inv.new law hnew
    refine ⟨inv, c, ⟨c, hnew, .refl⟩, .refl inv, ?_⟩
    obtain ⟨mostWork, rfl⟩ := new_eq_ok law hnew
    rfl
  | move _ hmove ih =>
    obtain ⟨inv, d, hd, twin, hunmarked⟩ := ih
    exact ⟨inv.move law hmove, twin.step law inv hd hunmarked hmove⟩
  | restart _ hrestart ih =>
    obtain ⟨inv, d, hd, twin, hunmarked⟩ := ih
    have saved := twin.entriesSaved (hd.entriesSaved law)
    exact ⟨inv.restart saved hrestart, d, hd, twin.restart inv saved hrestart, hunmarked⟩

theorem Visited.lived (h : Visited env c) : Lived env c := by
  obtain ⟨c₀, hnew, hrun⟩ := h
  induction hrun with
  | refl => exact .start hnew
  | tail _ hmove ih => exact .move ih hmove

/-- With taproot in force from the start no query can fail. -/
theorem exists_restart (hactive : TaprootActive env) (hc : c.Inv env) (saved : c.db.EntriesSaved) :
    ∃ c', c.restart env = .ok c' ∧ (0 < c.tip.height →
      c'.state = flagsWith env.network c.tip.time c.tip.height .active) := by
  rw [restart_eq hc saved]
  rcases eq_or_ne c.tip env.genesisEntry with hgen | hgen
  · have hnone : c.db.getEntryByHash c.tip.prevBlock = none := by rw [hgen, hc.tree.rooted.up_root]
    rw [hnone, if_pos (by rw [hgen]; rfl)]
    exact ⟨_, rfl, fun hheight => by rw [hgen] at hheight; cases hheight⟩
  · obtain ⟨prev, hprev⟩ := hc.tree.rooted.exists_parent hc.tip_stored hgen
    rw [hprev]
    dsimp only
    obtain ⟨d, hd, hstart⟩ := hactive
    rw [getDeployments_eq hd]
    simp only [getDeploymentStatus, hstart]
    refine ⟨_, rfl, fun _ => ?_⟩
    rw [hc.tree.height_eq hc.tip_stored hprev]
    rfl

/-- A node that was stopped and started again once. -/
theorem Reachable.exists_restarted (law : env.Lawful) (hactive : TaprootActive env)
    (h : Reachable env c) : ∃ c', Lived env c' ∧ Twin c c' := by
  have hvisited := h.visited law
  have inv := hvisited.inv law
  have saved := hvisited.entriesSaved law
  obtain ⟨c', hrestart, -⟩ := exists_restart hactive inv saved
  exact ⟨c', .restart hvisited.lived hrestart, (Twin.refl inv).restart inv saved hrestart⟩

theorem Twin.getMostWorkEntry (law : env.Lawful)
    (hbound : ∀ header, env.blockHash header < 2 ^ 256) (twin : Twin d c) (hd : Visited env d) :
    ∃ m, c.db.getMostWorkEntry = some m ∧ c.db.Heaviest m
      ∧ ∀ e, c.db.Heaviest e → m.hash ≤ e.hash := by
  obtain ⟨m, -, hmax, -⟩ := hd.mostWorkKept law
  have hbest := (hd.tipIndex law hbound).getMostWorkEntry (hd.inv law).tree ⟨m, hmax⟩
  unfold Heaviest at hbest ⊢
  rw [twin.entries, ChainDB.getMostWorkEntry, twin.columns]
  exact hbest

/-- Whenever a node is stopped, a restart that returns goes on where it was, with no block marked
invalid and with a most-work header, the one with the least hash of several, so that the assertion
in `set_most_work` holds. With taproot in force from the start every restart returns. -/
theorem restart_resumes (law : env.Lawful) (hbound : ∀ header, env.blockHash header < 2 ^ 256)
    (h : Lived env c) :
    (∀ c', c.restart env = .ok c' → Twin c c' ∧ c'.Inv env ∧ c'.db.invalid = ∅
      ∧ ∃ m, c'.db.mostWork = some m ∧ c'.db.Heaviest m ∧ ∀ e, c'.db.Heaviest e → m.hash ≤ e.hash)
    ∧ (TaprootActive env → ∃ c', c.restart env = .ok c' ∧ (0 < c.tip.height →
      c'.state = flagsWith env.network c.tip.time c.tip.height .active)) := by
  obtain ⟨inv, d, hd, twin, -⟩ := h.exists_twin law
  have saved := twin.entriesSaved (hd.entriesSaved law)
  refine ⟨fun c' hrestart => ?_, fun hactive => exists_restart hactive inv saved⟩
  have twin' := (Twin.refl inv).restart inv saved hrestart
  have inv' := inv.restart saved hrestart
  obtain ⟨m, hm, hmax, hleast⟩ := twin.getMostWorkEntry law hbound hd
  obtain ⟨cache, state, rfl⟩ := restart_eq_ok inv saved hrestart
  refine ⟨twin', inv', rfl, m, hm, ?_⟩
  unfold Heaviest at hmax hleast ⊢
  rw [twin'.entries]
  exact ⟨hmax, hleast⟩

/-- The second start of the node with one header above the genesis block. -/
theorem restart_resumes_child : ∃ c c', Reachable Small.shortEnv c
    ∧ c.restart Small.shortEnv = .ok c' ∧ ∃ m, c'.db.mostWork = some m ∧ c'.db.Heaviest m := by
  obtain ⟨c, hc, -⟩ := exists_reachable Small.shortEnv [.addHeader 100 (Small.child 1)]
    (fun _ => true) (by decide) (by decide +kernel)
  obtain ⟨hresumes, hreturns⟩ := restart_resumes Small.shortEnv_lawful Small.shortEnv_bound
    (hc.visited Small.shortEnv_lawful).lived
  obtain ⟨c', hrestart, -⟩ := hreturns ⟨_, rfl, rfl⟩
  obtain ⟨-, -, -, m, hm, hmax, -⟩ := hresumes c' hrestart
  exact ⟨c, c', hc, hrestart, m, hm, hmax⟩

/-! ## Two nodes that were stopped -/

theorem stackOf_told {log log' : List Notification}
    (h : log.map Notification.told = log'.map Notification.told) : stackOf log = stackOf log' := by
  have hfold (log : List Notification) : stackOf log
      = (log.map Notification.told).foldl (fun stack told =>
        if told.1 then stack ++ [(told.2.entry, told.2.block)] else stack.dropLast) [] := by
    rw [stackOf, List.foldl_map]
    congr 1
    funext stack notification
    cases notification <;> rfl
  rw [hfold, hfold, h]

theorem NoRecreate.of_told {log log' : List Notification} (h : NoRecreate env log)
    (htold : log.map Notification.told = log'.map Notification.told) : NoRecreate env log' := by
  rintro before s e b v after rfl books hbooks
  rw [List.map_append, List.map_cons] at htold
  obtain ⟨before', rest, rfl, hbefore, hrest⟩ := List.map_eq_append_iff.1 htold
  obtain ⟨n, after', rfl, hn, -⟩ := List.map_eq_cons_iff.1 hrest
  cases n with
  | disconnect => cases hn
  | connect s' e' b' v' =>
    cases hn
    exact h before' s' e b v after' rfl books (by rw [stackOf_told hbefore, hbooks])

/-- Two nodes with one tip hold the same coins, heights and children, and count the same
transactions, however often each was stopped and started again on the way. -/
theorem lives_agree (law : env.Lawful) (hinj : Function.Injective env.blockHash)
    (h : Lived env c) (h' : Lived env c') (hfresh : NoRecreate env c.notified)
    (hfresh' : NoRecreate env c'.notified) (htip : c'.tip.hash = c.tip.hash)
    (hsame : ∀ a, c.db.Ancestor c.tip a → c'.db.getBlock a.hash = c.db.getBlock a.hash) :
    c'.tip = c.tip ∧ c'.db.db.coin = c.db.db.coin ∧ c'.db.state.tx = c.db.state.tx
      ∧ c'.db.db.hash = c.db.db.hash ∧ c'.db.db.nextHash = c.db.db.nextHash := by
  obtain ⟨-, d, hd, twin, -⟩ := h.exists_twin law
  obtain ⟨-, d', hd', twin', -⟩ := h'.exists_twin law
  have hsame' : ∀ a, d.db.Ancestor d.tip a → d'.db.getBlock a.hash = d.db.getBlock a.hash := by
    intro a ha
    rw [← twin.getBlock, ← twin'.getBlock]
    refine hsame a ?_
    unfold ChainDB.Ancestor at ha ⊢
    rw [twin.entries, twin.tip]
    exact ha
  obtain ⟨heq, -, hbooks⟩ := hd.same_books law hinj hd' (hfresh.of_told twin.told)
    (hfresh'.of_told twin'.told) (by rw [← twin.tip, ← twin'.tip, htip]) hsame'
  refine ⟨by rw [twin.tip, twin'.tip, heq], ?_, ?_, ?_, ?_⟩
  · rw [twin.columns, twin'.columns]
    exact congrArg Books.coin hbooks
  · have hcount := congrArg Books.tx hbooks
    have hd₁ : d.db.state.tx = c.db.state.tx := by rw [twin.state_eq]; rfl
    have hd₂ : d'.db.state.tx = c'.db.state.tx := by rw [twin'.state_eq]; rfl
    rw [← hd₁, ← hd₂]
    exact hcount
  · rw [twin.columns, twin'.columns]
    exact congrArg Books.hash hbooks
  · rw [twin.columns, twin'.columns]
    exact congrArg Books.nextHash hbooks

/-- One of two nodes with the first block was restarted, and both hold one set of coins. -/
theorem lives_agree_first : ∃ c c', Lived Small.env c ∧ Lived Small.env c'
    ∧ c.tip.hash = Small.blockHash Small.first.header ∧ c'.db.db.coin = c.db.db.coin := by
  obtain ⟨c, d, hc, hd, hP, hP'⟩ := Small.exists_pair
  have hsame := Small.sameBlocks_of_holdsFirst hP hP'
  simp only [Small.holdsFirst, Bool.and_eq_true, beq_iff_eq] at hP hP'
  obtain ⟨c', hlived, twin⟩ := hd.exists_restarted Small.lawful ⟨_, rfl, rfl⟩
  have hfresh : NoRecreate Small.env d.notified := .of_oneConnected hP'.2
  exact ⟨c, c', (hc.visited Small.lawful).lived, hlived, hP.1.1.1.1.1,
    (lives_agree Small.lawful Small.blockHash_injective (hc.visited Small.lawful).lived hlived
      (.of_oneConnected hP.2) (hfresh.of_told twin.told.symm)
      (by rw [twin.tip, hP'.1.1.1.1.1, hP.1.1.1.1.1])
      fun a _ => (congrFun twin.getBlock a.hash).trans (hsame a.hash)).2.1⟩

end Chain

end BitcoinNode
