import BitcoinNode.Library.Shares
import BitcoinNode.Library.System
import BitcoinNode.Net.PeerRequests

/-!
# The sets of requests

The three sets of the peer manager against those of its peers, over runs of the handlers.
-/

namespace BitcoinNode

namespace PeerManager

variable {env : Env} {m m' : PeerManager} {peer : PeerId} {now : Nat}

/-- The blocks that were asked of a peer. -/
def blocks (m : PeerManager) (peer : PeerId) : Finset BlockHash := (m.peers peer).blockMap

/-- The set of requested blocks is the disjoint union of those of the listed peers. -/
abbrev BlocksShared (m : PeerManager) : Prop := Shared m.blockMap m.blocks m.listed.toFinset

/-- What `get_next_blocks` and `handle_headers` do not break. -/
structure Kept (env : Env) (m m' : PeerManager) : Prop where
  listed : m'.listed = m.listed
  others {peer : PeerId} : peer ∉ m.listed → m'.blocks peer = m.blocks peer
  shared : m.BlocksShared → m'.BlocksShared
  visited : Chain.Visited env m.chain → Chain.Visited env m'.chain

theorem Kept.trans {m'' : PeerManager} (h : m.Kept env m') (h' : m'.Kept env m'') :
    m.Kept env m'' where
  listed := h'.listed.trans h.listed
  others hpeer := (h'.others (h.listed ▸ hpeer)).trans (h.others hpeer)
  shared hs := h'.shared (h.shared hs)
  visited hv := h'.visited (h.visited hv)

/-- Nothing happens to the sets when the blocks of every peer stay. -/
theorem Kept.of_eq (hlisted : m'.listed = m.listed) (hblockMap : m'.blockMap = m.blockMap)
    (hblocks : m'.blocks = m.blocks)
    (hvisited : Chain.Visited env m.chain → Chain.Visited env m'.chain) : m.Kept env m' where
  listed := hlisted
  others _ := congrFun hblocks _
  shared hs := by rwa [BlocksShared, hlisted, hblockMap, hblocks]
  visited := hvisited

theorem Kept.refl : m.Kept env m := .of_eq rfl rfl rfl id

theorem send_kept (message : NetworkMessage) : m.Kept env (m.send peer message).1 := by
  unfold send
  split <;> exact .of_eq rfl rfl rfl id

theorem sendGetHeaders_kept (locator : List BlockHash) (stop : Option BlockHash) :
    m.Kept env (m.sendGetHeaders peer locator stop).1 := by
  unfold sendGetHeaders
  split
  · exact .refl
  · exact send_kept _

theorem blocks_update {state : Peer.State}
    (hpeers : m'.peers = Function.update m.peers peer state) :
    m'.blocks = Function.update m.blocks peer state.blockMap := by
  funext q
  rw [blocks, hpeers, Function.update_apply, Function.update_apply]
  split <;> rfl

/-- Blocks are asked for that were not. -/
theorem nextHashes_fresh {mostWork : ChainEntry} {fuel height : Nat} {hashes found : List BlockHash}
    (hfresh : ∀ hash ∈ hashes, hash ∉ m.blockMap)
    (h : m.nextHashes mostWork fuel height hashes = .ok found) :
    ∀ hash ∈ found, hash ∉ m.blockMap := by
  induction fuel generalizing height hashes with
  | zero =>
    rw [nextHashes] at h
    split at h <;> cases h
    exact hfresh
  | succ fuel ih =>
    rw [nextHashes] at h
    split at h
    · obtain ⟨path, -, h⟩ := bind_eq_ok.1 h
      refine ih (fun hash hmem => ?_) h
      rcases List.mem_append.1 hmem with hmem | hmem
      · exact hfresh hash hmem
      · obtain ⟨e, he, rfl⟩ := List.mem_map.1 hmem
        have := (List.mem_filter.1 he).2
        simp_all
    · cases h
      exact hfresh

theorem requestBlocks_kept {r : Except HandleError Unit} (hpeer : peer ∈ m.listed)
    (h : m.requestBlocks now peer = .ok (m', r)) : m.Kept env m' := by
  unfold requestBlocks at h
  split at h
  · cases h
    exact .refl
  obtain ⟨recent, -, h⟩ := bind_eq_ok.1 h
  split at h
  · obtain ⟨mostWork, -, h⟩ := bind_eq_ok.1 h
    obtain ⟨hashes, hhashes, h⟩ := bind_eq_ok.1 h
    have hfresh := nextHashes_fresh (by simp) hhashes
    have hdisjoint : Disjoint hashes.toFinset m.blockMap :=
      Finset.disjoint_left.2 fun hash hmem => hfresh hash (List.mem_toFinset.1 hmem)
    have htaken : m.Kept env { m with
        blockMap := m.blockMap ∪ hashes.toFinset
        peers := Function.update m.peers peer { m.peers peer with
          blockMap := (m.peers peer).blockMap ∪ hashes.toFinset } } := by
      refine ⟨rfl, fun {q} hq => ?_, fun hs => ?_, id⟩
      · rw [blocks_update rfl]
        exact Function.update_of_ne (ne_of_mem_of_not_mem hpeer hq).symm _ m.blocks
      · have htaken := hs.takeAll (List.mem_toFinset.2 hpeer) hdisjoint
        rwa [BlocksShared, blocks_update rfl]
    obtain rfl := congrArg Prod.fst (Except.ok.inj h)
    exact htaken.trans (send_kept _)
  · cases h
    exact .refl

theorem requestAll_kept {peers : List PeerId} {r : Except HandleError Unit}
    (hpeers : ∀ peer ∈ peers, peer ∈ m.listed) (h : requestAll now peers m = .ok (m', r)) :
    m.Kept env m' := by
  induction peers generalizing m with
  | nil =>
    cases h
    exact .refl
  | cons peer peers ih =>
    obtain ⟨hpeer, hpeers⟩ := List.forall_mem_cons.1 hpeers
    rw [requestAll] at h
    obtain ⟨⟨m₁, sent⟩, hrequest, h⟩ := bind_eq_ok.1 h
    have hkept : m.Kept env m₁ := requestBlocks_kept hpeer hrequest
    cases sent with
    | error e =>
      cases h
      exact hkept
    | ok u => exact hkept.trans (ih (fun q hq => hkept.listed ▸ hpeers q hq) h)

theorem getNextBlocks_kept {r : Except HandleError Unit}
    (h : m.getNextBlocks now = .ok (m', r)) : m.Kept env m' :=
  requestAll_kept (fun _ hpeer => hpeer) h

/-- Headers change nothing in the blocks that were asked of the peer. -/
theorem addHeaders_blockMap {clock : Nat → Nat} {headers : List BlockHeader} {c c' : Chain}
    {state state' : Peer.State} {r : Except HandleError Unit}
    (h : addHeaders env Peer.writes clock headers c state = .ok (c', state', r)) :
    state'.blockMap = state.blockMap := by
  induction headers generalizing c state with
  | nil =>
    cases h
    rfl
  | cons header headers ih =>
    simp only [addHeaders] at h
    split at h
    · exact (ih h).trans rfl
    · obtain ⟨⟨c₁, added⟩, -, h⟩ := bind_eq_ok.1 h
      cases added with
      | error e =>
        cases h
        rfl
      | ok result => exact (ih h).trans rfl

theorem handleHeaders_kept {clock : Nat → Nat} {headers : List BlockHeader}
    {r : Except HandleError Unit} (h : m.handleHeaders env clock peer headers = .ok (m', r)) :
    m.Kept env m' := by
  unfold handleHeaders at h
  split at h
  · cases h
    exact .refl
  split at h
  · cases h
    exact .refl
  obtain ⟨⟨c, state, added⟩, hadd, h⟩ := bind_eq_ok.1 h
  have hnoted : m.Kept env { m with chain := c, peers := Function.update m.peers peer state } := by
    refine .of_eq rfl rfl ?_ fun hvisited => Chain.addHeaders_visited hvisited hadd
    refine (blocks_update rfl).trans ?_
    rw [addHeaders_blockMap hadd]
    exact Function.update_eq_self peer m.blocks
  cases added with
  | error e =>
    cases h
    exact hnoted
  | ok u =>
    dsimp only at h
    split at h
    · obtain ⟨locator, -, h⟩ := bind_eq_ok.1 h
      rw [pure_bind] at h
      split at h
      · cases h
        exact hnoted.trans (sendGetHeaders_kept _ _)
      · exact (hnoted.trans (sendGetHeaders_kept _ _)).trans (getNextBlocks_kept h)
    · exact hnoted.trans (getNextBlocks_kept h)

end PeerManager

namespace RequestManager

open PeerManager (blocks_update)

variable {env : Env} {lib : Bip152} {m m' : RequestManager} {peer : PeerId} {now : Nat}

/-! ## What is to hold -/

/-- The transactions that were asked of a peer. -/
def txs (m : RequestManager) (peer : PeerId) : Finset GenericTxid := (m.requests peer).txMap

/-- The compact blocks of a peer that wait for transactions. -/
def compacts (m : RequestManager) (peer : PeerId) : Finset BlockHash :=
  (m.requests peer).compactBlocks.keys

/-- The connected peers. -/
abbrev live (m : RequestManager) : Finset PeerId := m.listed.toFinset

/-- The three sets are the disjoint unions of those of the connected peers. -/
structure Consistent (m : RequestManager) : Prop where
  blocks : m.BlocksShared
  txs : Shared m.txMap m.txs m.live
  compacts : Shared m.compactBlocks m.compacts m.live

/-- No assertion on the sets failed, and neither did those of `add_header`. -/
def Upheld (r : Result) : Prop :=
  (∀ a, r ≠ .error (.assertion a)) ∧ r ≠ .error (.addHeader .addHeaderInvalid)
    ∧ r ≠ .error (.addHeader .addHeaderKnown)

theorem upheld_ok : Upheld (.ok ()) := ⟨nofun, nofun, nofun⟩

theorem upheld_error {e : HandleError} : Upheld (.error (.error e)) := ⟨nofun, nofun, nofun⟩

theorem upheld_panic {p : Panic} : Upheld (.error (.panic p)) := ⟨nofun, nofun, nofun⟩

def OwesNothing (m : RequestManager) (peer : PeerId) : Prop :=
  m.txs peer = ∅ ∧ m.blocks peer = ∅ ∧ m.compacts peer = ∅

/-- Peers that are not connected owe nothing, and are not connected twice. -/
structure Orderly (env : Env) (m : RequestManager) : Prop where
  idle {peer : PeerId} : peer ∉ m.listed → m.OwesNothing peer
  joining {peer : PeerId} : peer ∈ m.joining → peer ∈ m.created ∧ peer ∉ m.listed
  listed {peer : PeerId} : peer ∈ m.listed → peer ∈ m.created
  visited : Chain.Visited env m.chain

/-- What every state of a run has in which nothing went wrong. -/
structure Good (env : Env) (m : RequestManager) : Prop extends Consistent m, Orderly env m

/-! ## Changes of the state -/

theorem txs_setRequests {r : Peer.Requests}
    (hrequests : m'.requests = Function.update m.requests peer r) :
    m'.txs = Function.update m.txs peer r.txMap := by
  funext q
  rw [txs, hrequests, Function.update_apply, Function.update_apply]
  split <;> rfl

theorem compacts_setRequests {r : Peer.Requests}
    (hrequests : m'.requests = Function.update m.requests peer r) :
    m'.compacts = Function.update m.compacts peer r.compactBlocks.keys := by
  funext q
  rw [compacts, hrequests, Function.update_apply, Function.update_apply]
  split <;> rfl

/-- The peers are the same, and so is what was asked of them besides blocks. -/
structure Same (m m' : RequestManager) : Prop where
  txs : m'.txs = m.txs := by rfl
  compacts : m'.compacts = m.compacts := by rfl
  txMap : m'.txMap = m.txMap := by rfl
  compactBlocks : m'.compactBlocks = m.compactBlocks := by rfl
  created : m'.created = m.created := by rfl
  joining : m'.joining = m.joining := by rfl

namespace Good

variable (h : m.Good env)

include h

theorem mem_live (hpeer : ¬ m.OwesNothing peer) : peer ∈ m.listed := by
  by_contra hnot
  exact hpeer (h.idle hnot)

theorem live_of_txs {gtxid : GenericTxid} (hmem : gtxid ∈ m.txs peer) : peer ∈ m.live :=
  List.mem_toFinset.2 (h.mem_live fun howes => by simp [howes.1] at hmem)

theorem live_of_blocks {hash : BlockHash} (hmem : hash ∈ m.blocks peer) : peer ∈ m.live :=
  List.mem_toFinset.2 (h.mem_live fun howes => by simp [howes.2.1] at hmem)

theorem live_of_compacts {hash : BlockHash} (hmem : hash ∈ m.compacts peer) : peer ∈ m.live :=
  List.mem_toFinset.2 (h.mem_live fun howes => by simp [howes.2.2] at hmem)

/-- A change in the manager without the other requests. -/
theorem preserved (hsame : m.Same m') (hkept : m.Kept env m'.toPeerManager) : m'.Good env := by
  have hlive : m'.live = m.live := by rw [live, hkept.listed]
  refine ⟨⟨hkept.shared h.blocks, ?_, ?_⟩, fun {q} hq => ?_, fun {q} hq => ?_, fun {q} hq => ?_,
    hkept.visited h.visited⟩
  · rw [hlive, hsame.txs, hsame.txMap]
    exact h.txs
  · rw [hlive, hsame.compacts, hsame.compactBlocks]
    exact h.compacts
  · rw [hkept.listed] at hq
    obtain ⟨h₁, h₂, h₃⟩ := h.idle hq
    exact ⟨by rw [hsame.txs, h₁], (hkept.others hq).trans h₂, by rw [hsame.compacts, h₃]⟩
  · rw [hsame.created, hkept.listed]
    exact h.joining (hsame.joining ▸ hq)
  · rw [hkept.listed] at hq
    rw [hsame.created]
    exact h.listed hq

/-- Another chain, pool or set of blocks that are verified. -/
theorem withChain {chain : Chain} {mempool : Option MemPool} {verifying : Finset Nat}
    (hvisited : Chain.Visited env chain) :
    Good env { m with chain := chain, mempool := mempool, verifying := verifying } :=
  h.preserved {} (.of_eq rfl rfl rfl fun _ => hvisited)

theorem lift {x : Except Panic (PeerManager × Except HandleError Unit)}
    (hkept : ∀ manager r, x = .ok (manager, r) → m.Kept env manager) :
    (m.lift x).1.Good env ∧ Upheld (m.lift x).2 := by
  match x with
  | .error p => exact ⟨h, upheld_panic⟩
  | .ok (manager, .error e) => exact ⟨h.preserved {} (hkept manager _ rfl), upheld_error⟩
  | .ok (manager, .ok _) => exact ⟨h.preserved {} (hkept manager _ rfl), upheld_ok⟩

/-- Blocks are asked of a connected peer, or not any more. -/
theorem setBlocks {blockMap blocks : Finset BlockHash} (hpeer : peer ∈ m.live)
    (hshared : Shared blockMap (Function.update m.blocks peer blocks) m.live) :
    Good env { m.setBlockMap peer blocks with blockMap := blockMap } := by
  refine h.preserved {} ⟨rfl, fun {q} hq => ?_, fun _ => ?_, id⟩
  · rw [blocks_update rfl]
    exact Function.update_of_ne
      (ne_of_mem_of_not_mem (List.mem_toFinset.1 hpeer) hq).symm _ m.blocks
  · rwa [PeerManager.BlocksShared, blocks_update rfl]

/-- Other requests are made to a connected peer, or not any more. -/
theorem setRequests {requests : Peer.Requests} {txMap : Finset GenericTxid}
    {compactBlocks : Finset BlockHash} (hpeer : peer ∈ m.live)
    (htxs : Shared txMap (Function.update m.txs peer requests.txMap) m.live)
    (hcompacts : Shared compactBlocks
      (Function.update m.compacts peer requests.compactBlocks.keys) m.live) :
    Good env { m.setRequests peer requests with
      txMap := txMap, compactBlocks := compactBlocks } := by
  refine ⟨⟨h.blocks, ?_, ?_⟩, fun {q} hq => ?_, h.joining, h.listed, h.visited⟩
  · rwa [txs_setRequests rfl]
  · rwa [compacts_setRequests rfl]
  · have hne : q ≠ peer := (ne_of_mem_of_not_mem (List.mem_toFinset.1 hpeer) hq).symm
    obtain ⟨h₁, h₂, h₃⟩ := h.idle hq
    refine ⟨?_, h₂, ?_⟩
    · rw [txs_setRequests rfl, Function.update_of_ne hne]
      exact h₁
    · rw [compacts_setRequests rfl, Function.update_of_ne hne]
      exact h₃

/-! ## Handlers -/

theorem getNextBlocks : (m.getNextBlocks now).1.Good env ∧ Upheld (m.getNextBlocks now).2 :=
  h.lift fun _ _ hnext => PeerManager.getNextBlocks_kept hnext

theorem handleHeaders {clock : Nat → Nat} {headers : List BlockHeader} :
    (m.handleHeaders env clock peer headers).1.Good env
      ∧ Upheld (m.handleHeaders env clock peer headers).2 :=
  h.lift fun _ _ hheaders => PeerManager.handleHeaders_kept hheaders

theorem invLoop {items : List Inventory} {gtxids : List GenericTxid} (hpeer : peer ∈ m.live) :
    (RequestManager.invLoop peer items m gtxids).1.Good env := by
  induction items generalizing m gtxids with
  | nil => exact h
  | cons item items ih =>
    rw [RequestManager.invLoop]
    split
    · exact ih h hpeer
    split
    · exact ih h hpeer
    · rename_i gtxid _ hnew
      refine ih ?_ hpeer
      have hnoted : Good env { m with
          peers := Function.update m.peers peer { m.peers peer with
            invFilter := insert gtxid.hash (m.peers peer).invFilter } } := by
        refine h.preserved {} (.of_eq rfl rfl ?_ id)
        rw [blocks_update rfl]
        exact Function.update_eq_self peer m.blocks
      refine hnoted.setRequests hpeer (h.txs.take hpeer hnew) ?_
      refine h.compacts.congr fun q _ => ?_
      exact congrFun (Function.update_eq_self peer m.compacts) q

theorem handleInv {items : List Inventory} (hpeer : peer ∈ m.live) :
    (m.handleInv now peer items).1.Good env ∧ Upheld (m.handleInv now peer items).2 := by
  unfold RequestManager.handleInv
  split
  · exact ⟨h, upheld_ok⟩
  · have hloop : (RequestManager.invLoop peer items m []).1.Good env := h.invLoop hpeer
    dsimp only
    split
    · exact ⟨hloop, upheld_ok⟩
    · refine hloop.lift fun manager r hsend => ?_
      obtain rfl := congrArg Prod.fst (Except.ok.inj hsend)
      exact PeerManager.send_kept _

/-- A block that was asked of the peer is taken out of both sets. -/
theorem releaseBlock {hash : BlockHash} (hmem : hash ∈ m.blocks peer) :
    Good env { m.setBlockMap peer ((m.blocks peer).erase hash) with
      blockMap := m.blockMap.erase hash } :=
  h.setBlocks (h.live_of_blocks hmem) (h.blocks.release (h.live_of_blocks hmem) hmem)

theorem verifyBlock (law : env.Lawful) {block : Block} :
    (m.verifyBlock env now block).1.Good env ∧ Upheld (m.verifyBlock env now block).2 := by
  have hverifying : Good env { m with
      verifying := insert (env.blockHash block.header) m.verifying } := h.withChain h.visited
  have hadded : ∀ {chain : Chain} {r : Except BlockVerificationError ChainEntry},
      m.chain.add env now block = .ok (chain, r) → Chain.Visited env chain :=
    fun hadd => h.visited.moves (Chain.add_moves law (h.visited.inv law) hadd)
  unfold RequestManager.verifyBlock
  dsimp only
  split
  · exact ⟨hverifying, upheld_panic⟩
  · rename_i hadd
    exact ⟨hverifying.withChain (hadded hadd), upheld_panic⟩
  · rename_i hadd
    rw [if_neg (by simp)]
    exact Good.getNextBlocks (hverifying.withChain (hadded hadd))

theorem handleBlock (law : env.Lawful) {block : Block} :
    (m.handleBlock env now peer block).1.Good env
      ∧ Upheld (m.handleBlock env now peer block).2 := by
  unfold RequestManager.handleBlock
  dsimp only
  split
  · exact ⟨h, upheld_error⟩
  · rename_i hmem
    have hmem : env.blockHash block.header ∈ m.blocks peer := not_not.1 hmem
    rw [if_neg (by simpa using h.blocks.mem (h.live_of_blocks hmem) hmem)]
    exact (h.releaseBlock hmem).verifyBlock law

theorem handleFull (law : env.Lawful) {c : CompactBlock} :
    (m.handleFull env now peer c).1.Good env ∧ Upheld (m.handleFull env now peer c).2 := by
  unfold RequestManager.handleFull
  split
  · exact ⟨h, upheld_panic⟩
  · exact h.handleBlock law

theorem openCompactBlock (law : env.Lawful) {compact : HeaderAndShortIds} {txs : List Transaction}
    (hpeer : peer ∈ m.live) (hnew : env.blockHash compact.header ∉ m.compactBlocks) :
    (m.openCompactBlock env lib now peer compact txs).1.Good env
      ∧ Upheld (m.openCompactBlock env lib now peer compact txs).2 := by
  have hfree : env.blockHash compact.header ∉ m.compacts peer :=
    fun hmem => hnew (h.compacts.mem hpeer hmem)
  unfold RequestManager.openCompactBlock
  dsimp only
  split
  · exact ⟨h, upheld_panic⟩
  · exact ⟨h, upheld_error⟩
  split
  · exact h.handleFull law
  split
  · exact ⟨h, upheld_error⟩
  · rename_i block _ _ _ _
    have hfree' : env.blockHash compact.header ∉ (m.requests peer).compactBlocks :=
      fun hmem => hfree (Finmap.mem_keys.2 hmem)
    rw [if_neg (by simpa using hfree')]
    refine Good.lift ?_ fun manager r hsend => ?_
    · refine h.setRequests hpeer ?_ ?_
      · exact h.txs.congr fun q _ => congrFun (Function.update_eq_self peer m.txs) q
      · rw [FMap.keys_insert]
        exact h.compacts.take hpeer hnew
    · obtain rfl := congrArg Prod.fst (Except.ok.inj hsend)
      exact PeerManager.send_kept _

theorem handleBlockTxn (law : env.Lawful) {transactions : List Transaction} {hash : BlockHash} :
    (m.handleBlockTxn env now peer transactions hash).1.Good env
      ∧ Upheld (m.handleBlockTxn env now peer transactions hash).2 := by
  unfold RequestManager.handleBlockTxn
  dsimp only
  split
  · exact ⟨h, upheld_ok⟩
  · rename_i block hlookup
    have hmem : hash ∈ m.compacts peer :=
      Finmap.mem_keys.2 (Finmap.mem_of_lookup_eq_some hlookup)
    have hpeer := h.live_of_compacts hmem
    have hall : hash ∈ m.compactBlocks := h.compacts.mem hpeer hmem
    rw [if_neg (by simpa [RequestManager.setRequests] using hall)]
    have hreleased : Good env { m.setRequests peer { m.requests peer with
        compactBlocks := (m.requests peer).compactBlocks.erase hash } with
          compactBlocks := m.compactBlocks.erase hash } := by
      refine h.setRequests hpeer ?_ ?_
      · exact h.txs.congr fun q _ => congrFun (Function.update_eq_self peer m.txs) q
      · rw [Finmap.keys_erase]
        exact h.compacts.release hpeer hmem
    split
    · exact ⟨hreleased, upheld_error⟩
    · exact hreleased.handleFull law

theorem resolveBlock {hash : BlockHash} : (m.resolveBlock peer hash).1.Good env
    ∧ ∃ found, (m.resolveBlock peer hash).2 = .ok found := by
  unfold RequestManager.resolveBlock
  dsimp only
  split
  · exact ⟨h, false, rfl⟩
  · rename_i hmem
    have hmem : hash ∈ m.blocks peer := not_not.1 hmem
    rw [if_neg (by simpa using h.blocks.mem (h.live_of_blocks hmem) hmem)]
    exact ⟨h.releaseBlock hmem, true, rfl⟩

theorem resolveTx {gtxid : GenericTxid} : (m.resolveTx peer gtxid).1.Good env
    ∧ ∃ found, (m.resolveTx peer gtxid).2 = .ok found := by
  unfold RequestManager.resolveTx
  dsimp only
  split
  · exact ⟨h, false, rfl⟩
  · rename_i hmem
    have hmem : gtxid ∈ m.txs peer := not_not.1 hmem
    have hpeer := h.live_of_txs hmem
    have hall : gtxid ∈ m.txMap := h.txs.mem hpeer hmem
    rw [if_neg (by simpa [RequestManager.setRequests] using hall)]
    refine ⟨h.setRequests hpeer (h.txs.release hpeer hmem) ?_, true, rfl⟩
    exact h.compacts.congr fun q _ => congrFun (Function.update_eq_self peer m.compacts) q

theorem resolveItem {item : Inventory} : (m.resolveItem peer item).1.Good env
    ∧ ∃ found, (m.resolveItem peer item).2 = .ok found := by
  cases item with
  | error | unknown => exact ⟨h, false, rfl⟩
  | transaction | witnessTransaction | wTx => exact h.resolveTx
  | block | filteredBlock | compactBlock | witnessBlock | witnessFilteredBlock =>
    exact h.resolveBlock

theorem handleNotFound {items : List Inventory} :
    (RequestManager.handleNotFound peer items m).1.Good env
      ∧ Upheld (RequestManager.handleNotFound peer items m).2 := by
  induction items generalizing m with
  | nil => exact ⟨h, upheld_ok⟩
  | cons item items ih =>
    obtain ⟨hresolved, found, hfound⟩ := @resolveItem _ _ peer h item
    rw [RequestManager.handleNotFound]
    split
    · rename_i heq
      simp [heq] at hfound
    · rename_i heq
      rw [heq] at hresolved
      exact ih hresolved
    · rename_i heq
      rw [heq] at hresolved
      split
      · exact ih hresolved
      · exact ih hresolved
      · exact ⟨hresolved, upheld_panic⟩
      · exact ⟨hresolved, upheld_ok⟩

end Good

/-! ## A compact block -/

/-- The pool has all of the compact block, so that it is handled as a block at once. -/
def PutTogether (env : Env) (lib : Bip152) (now : Nat) (m : RequestManager)
    (compact : HeaderAndShortIds) (txs : List Transaction) : Prop :=
  (∃ chain r, m.chain.addHeader env now compact.header = .ok (chain, .ok r))
    ∧ ∃ c block, m.openBlock lib compact txs = .ok (some (c, true)) ∧ c.toBlock = .ok block

/-- The block of the header may be asked of the peer: it was, or it is not asked of anybody and
the peer is connected, unless the block is complete at once. -/
def MayAsk (env : Env) (lib : Bip152) (now : Nat) (m : RequestManager) (peer : PeerId)
    (compact : HeaderAndShortIds) (txs : List Transaction) : Prop :=
  env.blockHash compact.header ∈ m.blocks peer ∨ env.blockHash compact.header ∉ m.blockMap
    ∧ (peer ∈ m.listed ∨ m.PutTogether env lib now compact txs)

/-- The assertions of `add_header` hold for the header. -/
def MayAdd (env : Env) (m : RequestManager) (header : BlockHeader) : Prop :=
  env.validatePow header = true →
    m.chain.hasInvalid (env.blockHash header) header.prevBlockhash = false
      ∧ m.chain.db.hasHeader (env.blockHash header) = false

theorem addHeader_upheld {header : BlockHeader} {p : Panic} (law : env.Lawful)
    (hvisited : Chain.Visited env m.chain) (h : m.chain.addHeader env now header = .error p) :
    Upheld (.error (.addHeader p)) ↔ m.MayAdd env header := by
  obtain ⟨hpow, hpanics⟩ := (Chain.addHeader_panics_iff law hvisited).1 ⟨p, h⟩
  unfold Chain.addHeader at h
  rw [if_neg (by simp [hpow])] at h
  dsimp only at h
  split at h
  · cases h
    simp_all [Upheld, MayAdd]
  split at h
  · cases h
    simp_all [Upheld, MayAdd]
  · rename_i hinvalid hknown
    have hnone : m.chain.db.getEntryByHash header.prevBlockhash = none := by simp_all
    rw [hnone] at h
    cases h
    simp_all [Upheld, MayAdd]

theorem fillLoop_header {c : CompactBlock} {set : Finset Nat} {txs : List Transaction} :
    (CompactBlock.fillLoop lib txs c set).1.header = c.header := by
  fun_induction CompactBlock.fillLoop lib txs c set <;> first | rfl | assumption

theorem openBlock_header {compact : HeaderAndShortIds} {txs : List Transaction}
    {c : CompactBlock} {full : Bool} (h : m.openBlock lib compact txs = .ok (some (c, full))) :
    c.header = compact.header := by
  obtain ⟨opened, hnew, h⟩ := bind_eq_ok.1 h
  obtain ⟨block, rfl, hfilled⟩ := Option.map_eq_some_iff.1 (Except.ok.inj h)
  have hheader : block.header = compact.header := by
    obtain ⟨header, nonce, prefilled, ids⟩ := compact
    obtain ⟨⟨available, count⟩, -, hnew⟩ := bind_eq_ok.1 hnew
    obtain ⟨idMap, -, hnew⟩ := bind_eq_ok.1 hnew
    obtain ⟨idMap, -, rfl⟩ := Option.map_eq_some_iff.1 (Except.ok.inj hnew)
    rfl
  rw [← hheader]
  split at hfilled
  · unfold CompactBlock.fillMempool at hfilled
    split at hfilled
    · cases hfilled
      rfl
    · obtain rfl := congrArg Prod.fst hfilled
      exact fillLoop_header
  · cases hfilled
    rfl

theorem toBlock_header {c : CompactBlock} {block : Block} (h : c.toBlock = .ok block) :
    block.header = c.header := by
  obtain ⟨txdata, -, h⟩ := bind_eq_ok.1 h
  cases h
  rfl

theorem addCompactBlock_of_full {compact : HeaderAndShortIds} {txs : List Transaction}
    {chain : Chain} {r : ChainEntry × ChainEntry} {c : CompactBlock} {block : Block}
    (hadd : m.chain.addHeader env now compact.header = .ok (chain, .ok r))
    (hopen : m.openBlock lib compact txs = .ok (some (c, true))) (hblock : c.toBlock = .ok block) :
    m.addCompactBlock env lib now peer compact txs
      = { m with chain := chain }.handleBlock env now peer block := by
  have hopen' : openBlock lib { m with chain := chain } compact txs = .ok (some (c, true)) := hopen
  rw [addCompactBlock, hadd]
  dsimp only
  rw [openCompactBlock, hopen']
  dsimp only
  rw [if_pos rfl, handleFull, hblock]

theorem handleBlock_of_mem {block : Block}
    (hasked : env.blockHash block.header ∈ (m.peers peer).blockMap)
    (hall : env.blockHash block.header ∈ m.blockMap) : m.handleBlock env now peer block
      = { m.setBlockMap peer ((m.peers peer).blockMap.erase (env.blockHash block.header)) with
          blockMap :=
            m.blockMap.erase (env.blockHash block.header) }.verifyBlock env now block := by
  rw [handleBlock, if_neg (not_not.2 hasked)]
  dsimp only
  rw [if_neg (by simpa using hall)]
  rfl

/-- The state after a block was noted that nobody was asked for. -/
theorem askBlock_of_notMem {hash : BlockHash} (hasked : hash ∉ m.blocks peer)
    (hfree : hash ∉ m.blockMap) : m.askBlock peer hash
      = ({ m.setBlockMap peer (insert hash (m.blocks peer)) with
          blockMap := insert hash m.blockMap }, .ok ()) := by
  have hasked' : hash ∉ (m.peers peer).blockMap := hasked
  rw [askBlock, if_neg hasked']
  dsimp only
  rw [if_neg (by simpa using hfree)]
  rfl

namespace Good

variable (h : m.Good env) {compact : HeaderAndShortIds} {txs : List Transaction}

include h

/-- A block that is put together at once is taken out of both sets again. -/
theorem addCompactBlock_of_putTogether (law : env.Lawful)
    (htogether : m.PutTogether env lib now compact txs)
    (hasked : env.blockHash compact.header ∉ m.blocks peer)
    (hfree : env.blockHash compact.header ∉ m.blockMap)
    (hm' : m' = { m.setBlockMap peer (insert (env.blockHash compact.header) (m.blocks peer)) with
      blockMap := insert (env.blockHash compact.header) m.blockMap }) :
    (m'.addCompactBlock env lib now peer compact txs).1.Good env
      ∧ Upheld (m'.addCompactBlock env lib now peer compact txs).2 := by
  obtain ⟨⟨chain, r, hadd⟩, c, block, hopen, hblock⟩ := htogether
  have hhash : env.blockHash block.header = env.blockHash compact.header := by
    rw [toBlock_header hblock, openBlock_header hopen]
  have hadd' : m'.chain.addHeader env now compact.header = .ok (chain, .ok r) := by
    rw [hm']
    exact hadd
  have hopen' : m'.openBlock lib compact txs = .ok (some (c, true)) := by
    rw [hm']
    exact hopen
  rw [addCompactBlock_of_full hadd' hopen' hblock, hm', handleBlock_of_mem (by
    simp [hhash, setBlockMap]) (by simp [hhash])]
  refine Good.verifyBlock ?_ law
  refine h.preserved {} (.of_eq rfl ?_ ?_ fun _ => h.visited.moves (Chain.addHeader_moves hadd))
  · rw [hhash]
    exact Finset.erase_insert hfree
  · refine (blocks_update (Function.update_idem _ _ _)).trans ?_
    simp only [hhash, setBlockMap, Function.update_self]
    rw [Finset.erase_insert hasked]
    exact Function.update_eq_self peer m.blocks

/-- The block of the peer goes on. -/
theorem addCompactBlock (law : env.Lawful) (hpeer : peer ∈ m.live)
    (hwaits : env.blockHash compact.header ∉ m.compactBlocks)
    (hadd : m.MayAdd env compact.header) :
    (m.addCompactBlock env lib now peer compact txs).1.Good env
      ∧ Upheld (m.addCompactBlock env lib now peer compact txs).2 := by
  have hadded : ∀ {chain : Chain}
      {r : Except BlockHeaderVerificationError (ChainEntry × ChainEntry)},
      m.chain.addHeader env now compact.header = .ok (chain, r) → Chain.Visited env chain :=
    fun hadd => h.visited.moves (Chain.addHeader_moves hadd)
  unfold RequestManager.addCompactBlock
  split
  · rename_i hpanic
    exact ⟨h, (addHeader_upheld law h.visited hpanic).2 hadd⟩
  · rename_i hrefused
    exact ⟨h.withChain (hadded hrefused), upheld_error⟩
  · rename_i hsaved
    exact Good.openCompactBlock (h.withChain (hadded hsaved)) law hpeer hwaits

theorem handleCompactBlock (law : env.Lawful)
    (hproper : env.blockHash compact.header ∈ m.compacts peer
      ∨ env.blockHash compact.header ∈ m.compactBlocks
      ∨ m.MayAsk env lib now peer compact txs ∧ m.MayAdd env compact.header) :
    (m.handleCompactBlock env lib now peer compact txs).1.Good env
      ∧ Upheld (m.handleCompactBlock env lib now peer compact txs).2 := by
  unfold RequestManager.handleCompactBlock
  dsimp only
  split
  · exact ⟨h, upheld_ok⟩
  split
  · exact ⟨h, upheld_ok⟩
  rename_i hdup hwaits
  obtain hdup' | hwaits' | ⟨hask, hadd⟩ := hproper
  · exact absurd (Finmap.mem_keys.1 hdup') hdup
  · exact absurd hwaits' hwaits
  by_cases hasked : env.blockHash compact.header ∈ m.blocks peer
  · have hsame : m.askBlock peer (env.blockHash compact.header) = (m, .ok ()) := if_pos hasked
    rw [hsame]
    exact h.addCompactBlock law (h.live_of_blocks hasked) hwaits hadd
  obtain ⟨hfree, hpeer⟩ := hask.resolve_left hasked
  rw [askBlock_of_notMem hasked hfree]
  rcases hpeer with hpeer | htogether
  · have hpeer := List.mem_toFinset.2 hpeer
    exact Good.addCompactBlock (h.setBlocks hpeer (h.blocks.take hpeer hfree)) law hpeer hwaits hadd
  · exact h.addCompactBlock_of_putTogether law htogether hasked hfree rfl

end Good

/-! ## Peers that come and go -/

theorem Good.create (h : m.Good env) (hnew : peer ∉ m.created) :
    Good env ({ m with
      created := insert peer m.created
      joining := insert peer m.joining
      peers := Function.update m.peers peer .new }.setRequests peer .new) := by
  have hlisted : peer ∉ m.listed := fun hmem => hnew (h.listed hmem)
  have hne : ∀ q ∈ m.live, q ≠ peer :=
    fun q hq => ne_of_mem_of_not_mem (List.mem_toFinset.1 hq) hlisted
  refine ⟨⟨?_, ?_, ?_⟩, fun {q} hq => ?_, fun {q} hq => ?_,
    fun hq => Finset.mem_insert_of_mem (h.listed hq), h.visited⟩
  · refine h.blocks.congr fun q hq => ?_
    rw [blocks_update rfl, Function.update_of_ne (hne q hq)]
  · refine h.txs.congr fun q hq => ?_
    rw [txs_setRequests rfl, Function.update_of_ne (hne q hq)]
    rfl
  · refine h.compacts.congr fun q hq => ?_
    rw [compacts_setRequests rfl, Function.update_of_ne (hne q hq)]
    rfl
  · rw [OwesNothing, txs_setRequests rfl, compacts_setRequests rfl, blocks_update rfl]
    by_cases hpeer : q = peer
    · subst hpeer
      simp [Peer.Requests.new, Peer.State.new]
    · simp only [Function.update_of_ne hpeer]
      exact h.idle hq
  · rcases Finset.mem_insert.1 hq with rfl | hq
    · exact ⟨Finset.mem_insert_self _ _, hlisted⟩
    · exact ⟨Finset.mem_insert_of_mem (h.joining hq).1, (h.joining hq).2⟩

section InsertPeer

variable {old : Option PeerId} {order : List PeerId}
  (hperm : order.Perm (peer :: m.listed.filter fun p => old ≠ some p))

include hperm

theorem live_insertPeer :
    (m.insertPeer peer order).live = insert peer (m.live.filter fun p => ¬ old = some p) := by
  ext q
  simp [live, insertPeer, hperm.mem_iff]

/-- A peer takes the place of one that owes nothing. -/
theorem Good.insertPeer_iff (h : m.Good env) (hpeer : peer ∈ m.joining) :
    (m.insertPeer peer order).Consistent ↔ ∀ p ∈ m.live, old = some p → m.OwesNothing p := by
  obtain ⟨htxs, hblocks, hcompacts⟩ := h.idle (h.joining hpeer).2
  have hlive := live_insertPeer hperm
  have hiff : (m.insertPeer peer order).Consistent
      ↔ Shared m.blockMap m.blocks (m.live.filter fun p => ¬ old = some p)
        ∧ Shared m.txMap m.txs (m.live.filter fun p => ¬ old = some p)
        ∧ Shared m.compactBlocks m.compacts (m.live.filter fun p => ¬ old = some p) := by
    rw [← Shared.join_iff hblocks, ← Shared.join_iff htxs, ← Shared.join_iff hcompacts, ← hlive]
    exact ⟨fun hc => ⟨hc.blocks, hc.txs, hc.compacts⟩, fun hc => ⟨hc.1, hc.2.1, hc.2.2⟩⟩
  rw [hiff, h.blocks.leaveAll_iff, h.txs.leaveAll_iff, h.compacts.leaveAll_iff]
  constructor
  · exact fun hall p hp hold => ⟨hall.2.1 p hp hold, hall.1 p hp hold, hall.2.2 p hp hold⟩
  · exact fun hall => ⟨fun p hp hold => (hall p hp hold).2.1, fun p hp hold => (hall p hp hold).1,
      fun p hp hold => (hall p hp hold).2.2⟩

theorem Good.insertPeer (h : m.Good env) (hpeer : peer ∈ m.joining)
    (howes : ∀ p ∈ m.live, old = some p → m.OwesNothing p) :
    (m.insertPeer peer order).Good env := by
  have hmem : ∀ q, q ∈ order ↔ q = peer ∨ q ∈ m.listed ∧ ¬ old = some q := by
    intro q
    simp [hperm.mem_iff]
  refine ⟨(h.insertPeer_iff hperm hpeer).2 howes, fun {q} hq => ?_, fun {q} hq => ?_,
    fun {q} hq => ?_, h.visited⟩
  · change q ∉ order at hq
    rw [hmem, not_or, not_and, not_not] at hq
    by_cases hlisted : q ∈ m.listed
    · exact howes q (List.mem_toFinset.2 hlisted) (hq.2 hlisted)
    · exact h.idle hlisted
  · obtain ⟨hne, hq⟩ := Finset.mem_erase.1 hq
    refine ⟨(h.joining hq).1, fun horder => ?_⟩
    rcases (hmem q).1 horder with heq | ⟨hlisted, -⟩
    · exact hne heq
    · exact (h.joining hq).2 hlisted
  · rcases (hmem q).1 hq with rfl | ⟨hlisted, -⟩
    · exact (h.joining hpeer).1
    · exact h.listed hlisted

end InsertPeer

theorem live_removePeers :
    m.removePeers.live = m.live.filter fun p => ¬ (m.requests p).disconnect = true := by
  ext q
  simp [live, removePeers]

theorem blocks_removePeers {q : PeerId} : m.removePeers.blocks q
    = if q ∈ m.listed ∧ (m.requests q).disconnect = true then ∅ else m.blocks q := by
  rw [PeerManager.blocks, removePeers]
  simp only [List.mem_filter]
  split <;> rfl

/-- Peers are removed that owe no transaction and no compact block; blocks are drained. -/
theorem Good.removePeers_iff (h : m.Good env) : m.removePeers.Consistent
    ↔ ∀ p ∈ m.live, (m.requests p).disconnect = true → m.txs p = ∅ ∧ m.compacts p = ∅ := by
  have hblocks : m.removePeers.BlocksShared := by
    have hdrained : Shared m.removePeers.blockMap m.blocks
        (m.live.filter fun p => ¬ (m.requests p).disconnect = true) :=
      h.blocks.leaveAll fun hash => by simp [removePeers, PeerManager.blocks]
    rw [PeerManager.BlocksShared, show m.removePeers.listed.toFinset = _ from live_removePeers]
    refine hdrained.congr fun q hq => ?_
    rw [blocks_removePeers, if_neg fun hgone => (Finset.mem_filter.1 hq).2 hgone.2]
  have hiff : m.removePeers.Consistent
      ↔ Shared m.txMap m.txs (m.live.filter fun p => ¬ (m.requests p).disconnect = true)
        ∧ Shared m.compactBlocks m.compacts
          (m.live.filter fun p => ¬ (m.requests p).disconnect = true) := by
    rw [← live_removePeers]
    exact ⟨fun hc => ⟨hc.txs, hc.compacts⟩, fun hc => ⟨hblocks, hc.1, hc.2⟩⟩
  rw [hiff, h.txs.leaveAll_iff, h.compacts.leaveAll_iff]
  exact ⟨fun hall p hp hgone => ⟨hall.1 p hp hgone, hall.2 p hp hgone⟩,
    fun hall => ⟨fun p hp hgone => (hall p hp hgone).1, fun p hp hgone => (hall p hp hgone).2⟩⟩

theorem Good.removePeers (h : m.Good env)
    (howes : ∀ p ∈ m.live, (m.requests p).disconnect = true → m.txs p = ∅ ∧ m.compacts p = ∅) :
    m.removePeers.Good env := by
  have hmem : ∀ q, q ∈ m.removePeers.listed ↔
      q ∈ m.listed ∧ ¬ (m.requests q).disconnect = true := by
    intro q
    simp [RequestManager.removePeers]
  refine ⟨h.removePeers_iff.2 howes, fun {q} hq => ?_, fun {q} hq => ?_,
    fun {q} hq => ?_, h.visited⟩
  · rw [hmem, not_and, not_not] at hq
    rw [OwesNothing, blocks_removePeers]
    by_cases hlisted : q ∈ m.listed
    · obtain ⟨htxs, hcompacts⟩ := howes q (List.mem_toFinset.2 hlisted) (hq hlisted)
      exact ⟨htxs, if_pos ⟨hlisted, hq hlisted⟩, hcompacts⟩
    · rw [if_neg fun hgone => hlisted hgone.1]
      exact h.idle hlisted
  · exact ⟨(h.joining hq).1, fun hlisted => (h.joining hq).2 ((hmem q).1 hlisted).1⟩
  · exact h.listed ((hmem q).1 hq).1

theorem Good.other (h : m.Good env) {o : Other} (hvisited : Chain.Visited env o.chain) :
    (m.other peer o).Good env := by
  refine h.preserved ⟨?_, ?_, rfl, rfl, rfl, rfl⟩ (.of_eq rfl rfl ?_ fun _ => hvisited)
  · refine (txs_setRequests rfl).trans ?_
    exact Function.update_eq_self peer m.txs
  · refine (compacts_setRequests rfl).trans ?_
    exact Function.update_eq_self peer m.compacts
  · refine (blocks_update rfl).trans ?_
    exact Function.update_eq_self peer m.blocks

end RequestManager

end BitcoinNode
