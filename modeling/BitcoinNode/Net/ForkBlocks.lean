import BitcoinNode.Blockchain.Work
import BitcoinNode.Net.Proper
import BitcoinNode.Net.Window

/-!
# Blocks of a branch

`get_next_blocks` of `net/peer_manager.rs` looks for blocks of the branch with the most work from
the height of the tip on. What is missing of that branch at lower heights it does not see.
-/

namespace BitcoinNode

/-! ## The chain of a run -/

namespace RequestManager

variable {env : Env} {lib : Bip152} {m m' : RequestManager} {peer : PeerId} {now : Nat}

/-- The chain of the manager is one that calls reach. -/
def OnChain (env : Env) (m : RequestManager) : Prop := Chain.Visited env m.chain

namespace OnChain

variable (h : m.OnChain env)

include h

theorem lift {x : Except Panic (PeerManager × Except HandleError Unit)}
    (hkept : ∀ manager r, x = .ok (manager, r) → m.Kept env manager) :
    (m.lift x).1.OnChain env := by
  match x with
  | .error p => exact h
  | .ok (manager, .error e) => exact (hkept manager _ rfl).visited h
  | .ok (manager, .ok _) => exact (hkept manager _ rfl).visited h

theorem send (message : NetworkMessage) : (m.lift (.ok (m.send peer message))).1.OnChain env := by
  refine h.lift fun manager r hsend => ?_
  obtain rfl := congrArg Prod.fst (Except.ok.inj hsend)
  exact PeerManager.send_kept _

theorem invLoop {items : List Inventory} {gtxids : List GenericTxid} :
    (RequestManager.invLoop peer items m gtxids).1.OnChain env := by
  induction items generalizing m gtxids with
  | nil => exact h
  | cons item items ih =>
    rw [RequestManager.invLoop]
    split
    · exact ih h
    split
    · exact ih h
    · dsimp only
      refine ih ?_
      exact h

theorem handleInv {items : List Inventory} : (m.handleInv now peer items).1.OnChain env := by
  unfold RequestManager.handleInv
  split
  · exact h
  dsimp only
  split
  · exact h.invLoop
  · exact h.invLoop.send _

theorem handleTx {tx : Transaction} : (m.handleTx env lib now peer tx).1.OnChain env := by
  unfold RequestManager.handleTx
  dsimp only
  split
  · exact h
  split
  · exact h
  split <;> exact h

theorem verifyBlock (law : env.Lawful) {block : Block} :
    (m.verifyBlock env now block).1.OnChain env := by
  have hadded : ∀ {chain : Chain} {r : Except BlockVerificationError ChainEntry},
      m.chain.add env now block = .ok (chain, r) → Chain.Visited env chain :=
    fun hadd => h.moves (Chain.add_moves law (h.inv law) hadd)
  unfold RequestManager.verifyBlock
  dsimp only
  split
  · exact h
  · rename_i hadd
    exact hadded hadd
  · rename_i hadd
    split
    · exact hadded hadd
    · exact lift (hadded hadd) fun _ _ hnext => PeerManager.getNextBlocks_kept hnext

theorem handleBlock (law : env.Lawful) {block : Block} :
    (m.handleBlock env now peer block).1.OnChain env := by
  unfold RequestManager.handleBlock
  dsimp only
  split
  · exact h
  split
  · exact h
  · refine verifyBlock ?_ law
    exact h

theorem handleFull (law : env.Lawful) {c : CompactBlock} :
    (m.handleFull env now peer c).1.OnChain env := by
  unfold RequestManager.handleFull
  split
  · exact h
  · exact h.handleBlock law

theorem openCompactBlock (law : env.Lawful) {compact : HeaderAndShortIds}
    {txs : List Transaction} : (m.openCompactBlock env lib now peer compact txs).1.OnChain env := by
  unfold RequestManager.openCompactBlock
  dsimp only
  split
  · exact h
  · exact h
  split
  · exact h.handleFull law
  split
  · exact h
  split
  · exact h
  · refine send ?_ _
    exact h

theorem askBlock {hash : BlockHash} : (m.askBlock peer hash).1.OnChain env := by
  unfold RequestManager.askBlock
  dsimp only
  split
  · exact h
  split <;> exact h

theorem handleCompactBlock (law : env.Lawful) {compact : HeaderAndShortIds}
    {txs : List Transaction} :
    (m.handleCompactBlock env lib now peer compact txs).1.OnChain env := by
  have hasked := @askBlock _ _ peer h (env.blockHash compact.header)
  unfold RequestManager.handleCompactBlock
  dsimp only
  split
  · exact h
  split
  · exact h
  split
  · rename_i heq
    rwa [heq] at hasked
  · rename_i m₁ _ heq
    rw [heq] at hasked
    have hadded : ∀ {chain : Chain}
        {r : Except BlockHeaderVerificationError (ChainEntry × ChainEntry)},
        m₁.chain.addHeader env now compact.header = .ok (chain, r) → Chain.Visited env chain :=
      fun hadd => Chain.Visited.moves hasked (Chain.addHeader_moves hadd)
    unfold RequestManager.addCompactBlock
    split
    · exact hasked
    · rename_i hrefused
      exact hadded hrefused
    · rename_i hsaved
      refine openCompactBlock ?_ law
      exact hadded hsaved

theorem handleBlockTxn (law : env.Lawful) {transactions : List Transaction} {hash : BlockHash} :
    (m.handleBlockTxn env now peer transactions hash).1.OnChain env := by
  unfold RequestManager.handleBlockTxn
  dsimp only
  split
  · exact h
  split
  · exact h
  split
  · exact h
  · refine handleFull ?_ law
    exact h

theorem resolveItem {item : Inventory} : (m.resolveItem peer item).1.OnChain env := by
  have hblock (hash : BlockHash) : (m.resolveBlock peer hash).1.OnChain env := by
    unfold RequestManager.resolveBlock
    dsimp only
    split
    · exact h
    split <;> exact h
  have htx (gtxid : GenericTxid) : (m.resolveTx peer gtxid).1.OnChain env := by
    unfold RequestManager.resolveTx
    dsimp only
    split
    · exact h
    split <;> exact h
  cases item with
  | error | unknown => exact h
  | transaction | witnessTransaction | wTx => exact htx _
  | block | filteredBlock | compactBlock | witnessBlock | witnessFilteredBlock => exact hblock _

theorem handleNotFound {items : List Inventory} :
    (RequestManager.handleNotFound peer items m).1.OnChain env := by
  induction items generalizing m with
  | nil => exact h
  | cons item items ih =>
    have hresolved := @resolveItem _ _ peer h item
    rw [RequestManager.handleNotFound]
    split
    · rename_i heq
      rwa [heq] at hresolved
    · rename_i heq
      rw [heq] at hresolved
      exact ih hresolved
    · rename_i heq
      rw [heq] at hresolved
      split
      · exact ih hresolved
      · exact ih hresolved
      · exact hresolved
      · exact hresolved

end OnChain

/-- Whatever a handler does, and however it ends, the chain stays one that calls reach. -/
theorem OnChain.step {a : Act} {r : Result} (h : m.OnChain env) (law : env.Lawful)
    (hstep : m.ActStep env lib (a, r) m') : m'.OnChain env := by
  obtain ⟨hpermitted, hact⟩ := hstep
  have hresult : ∀ {x : RequestManager × Result}, x.1.OnChain env → some x = some (m', r) →
      m'.OnChain env := by
    rintro _ hx ⟨⟩
    exact hx
  cases a <;> simp only [act, Option.ite_none_left_eq_some, Option.ite_none_right_eq_some] at hact
  case create | insertPeer => exact hresult h hact.2
  case handleInv => exact hresult h.handleInv hact.2
  case handleTx => exact hresult h.handleTx hact.2
  case handleHeaders =>
    exact hresult (h.lift fun _ _ hheaders => PeerManager.handleHeaders_kept hheaders) hact.2
  case handleBlock => exact hresult (h.handleBlock law) hact.2
  case handleCompactBlock => exact hresult (h.handleCompactBlock law) hact.2
  case handleBlockTxn => exact hresult (h.handleBlockTxn law) hact.2
  case handleNotFound => exact hresult h.handleNotFound hact.2
  case getNextBlocks =>
    exact hresult (h.lift fun _ _ hnext => PeerManager.getNextBlocks_kept hnext) hact
  case removePeers => exact hresult h hact
  case other =>
    obtain ⟨⟩ := hact
    exact hpermitted

/-- A state of some run of the handlers. -/
def Reached (env : Env) (lib : Bip152) (m : RequestManager) : Prop :=
  ∃ chain mempool maxTipAge, Chain.Reachable env chain
    ∧ Relation.ReflTransGen (fun m m' => ∃ e, ActStep env lib m e m')
      (.new chain mempool maxTipAge) m

theorem Reached.onChain (law : env.Lawful) (h : m.Reached env lib) : m.OnChain env := by
  obtain ⟨chain, mempool, maxTipAge, hchain, hrun⟩ := h
  refine ReflTransGen.invariant (fun _ _ ⟨⟨a, r⟩, hstep⟩ hm => ?_) hrun (hchain.visited law)
  exact OnChain.step hm law hstep

end RequestManager

/-! ## The scan -/

namespace PeerManager

variable {env : Env} {m m' : PeerManager} {peer : PeerId} {now : Nat} {best e : ChainEntry}

/-- Neither stored, nor being verified, nor asked for. -/
def Wants (m : PeerManager) (e : ChainEntry) : Prop :=
  e.hash ∉ m.verifying ∧ m.chain.db.hasBlock e.hash = false ∧ e.hash ∉ m.blockMap

theorem mem_wanted {path : List ChainEntry} {hash : BlockHash} :
    hash ∈ m.wanted path ↔ ∃ e ∈ path, m.Wants e ∧ e.hash = hash := by
  simp [wanted, Wants, and_assoc]

/-- The lowest block of the branch that is not stored. -/
structure Lowest (m : PeerManager) (best e : ChainEntry) : Prop where
  ancestor : m.chain.db.Ancestor best e
  missing : m.chain.db.hasBlock e.hash = false
  least {e' : ChainEntry} : m.chain.db.Ancestor best e' → m.chain.db.hasBlock e'.hash = false →
    e.height ≤ e'.height

theorem nextHashes_of_ne_nil {fuel height : Nat} {hashes : List BlockHash} (h : hashes ≠ []) :
    m.nextHashes best fuel height hashes = .ok hashes := by
  have hstop : ¬ (hashes.isEmpty = true ∧ height ≤ best.height) := by simp [h]
  cases fuel <;> rw [nextHashes, if_neg hstop]

section Scan

variable (law : env.Lawful) (h : Chain.Visited env m.chain)
  (hbest : m.chain.db.getEntryByHash best.hash = some best)

include law h hbest

/-- What is found lies on the branch, above the height the scan starts from. -/
theorem nextHashes_above {fuel height : Nat} {hashes found : List BlockHash}
    (hscan : m.nextHashes best fuel height hashes = .ok found) {hash : BlockHash}
    (hmem : hash ∈ found) : hash ∈ hashes
      ∨ ∃ e, m.chain.db.Ancestor best e ∧ height < e.height ∧ e.hash = hash := by
  induction fuel generalizing height hashes with
  | zero =>
    rw [nextHashes] at hscan
    split at hscan <;> cases hscan
    exact .inl hmem
  | succ fuel ih =>
    rw [nextHashes] at hscan
    split at hscan
    · obtain ⟨path, hpath, hscan⟩ := bind_eq_ok.1 hscan
      rw [ChainDB.getNextPath_eq (h.inv law).tree (h.inv law).main (h.skips law) hbest
        (by decide)] at hpath
      obtain rfl := Except.ok.inj hpath
      rcases ih hscan with hmem | ⟨e, hanc, habove, rfl⟩
      · rcases List.mem_append.1 hmem with hmem | hmem
        · exact .inl hmem
        · obtain ⟨e, hpath, -, rfl⟩ := mem_wanted.1 hmem
          obtain ⟨hanc, habove, -⟩ :=
            (ChainDB.mem_path_iff (h.inv law).tree hbest (Nat.min_le_left _ _)).1 hpath
          exact .inr ⟨e, hanc, habove, rfl⟩
      · exact .inr ⟨e, hanc, by omega, rfl⟩
    · cases hscan
      exact .inl hmem

/-- A scan from below the lowest missing block finds it: the windows before hold nothing that is
wanted. -/
theorem nextHashes_lowest (hlowest : m.Lowest best e) (hwants : m.Wants e) {fuel height : Nat}
    {found : List BlockHash} (hheight : height < e.height)
    (hscan : m.nextHashes best fuel height [] = .ok found) : e.hash ∈ found := by
  have hle : e.height ≤ best.height := 
    (h.inv law).tree.rooted.rank_le_of_ancestor hbest hlowest.ancestor
  induction fuel generalizing height with
  | zero =>
    rw [nextHashes, if_pos ⟨rfl, by omega⟩] at hscan
    cases hscan
  | succ fuel ih =>
    rw [nextHashes, if_pos ⟨rfl, by omega⟩] at hscan
    obtain ⟨path, hpath, hscan⟩ := bind_eq_ok.1 hscan
    rw [ChainDB.getNextPath_eq (h.inv law).tree (h.inv law).main (h.skips law) hbest
      (by decide)] at hpath
    obtain rfl := Except.ok.inj hpath
    have hmem {e' : ChainEntry} := @ChainDB.mem_path_iff env m.chain.db best e' height
      (min best.height (height + 16)) (h.inv law).tree hbest (Nat.min_le_left _ _)
    rw [List.nil_append] at hscan
    by_cases hin : e.height ≤ height + 16
    · have hfound : e.hash ∈
          m.wanted (m.chain.db.path best height (min best.height (height + 16))) :=
        mem_wanted.2 ⟨e, hmem.2 ⟨hlowest.ancestor, hheight, le_min hle hin⟩, hwants, rfl⟩
      rw [nextHashes_of_ne_nil (List.ne_nil_of_mem hfound)] at hscan
      cases hscan
      exact hfound
    · have hnone : m.wanted (m.chain.db.path best height (min best.height (height + 16))) = [] := by
        rw [List.eq_nil_iff_forall_not_mem]
        intro hash hash_mem
        obtain ⟨e', hpath, hwants', -⟩ := mem_wanted.1 hash_mem
        obtain ⟨hanc, -, hbound⟩ := hmem.1 hpath
        have := hlowest.least hanc hwants'.2.1
        have := le_min_iff.1 hbound
        omega
      rw [hnone] at hscan
      exact ih (by omega) hscan

end Scan

/-! ## The rounds -/

/-- Whether a round asks the peer for blocks. -/
def Idle (m : PeerManager) (peer : PeerId) : Prop :=
  (m.peers peer).ack = true ∧ (m.peers peer).blockMap = ∅

/-- What a round of `get_next_blocks` does: it adds the hashes that a scan from the tip finds, for
a peer that waits for nothing. -/
theorem requestBlocks_effect {r : Except HandleError Unit}
    (hrecent : m.chain.isRecent now m.maxTipAge = .ok true) (hbest : m.chain.mostWork = .ok best)
    (h : m.requestBlocks now peer = .ok (m', r)) :
    (¬ m.Idle peer ∧ m' = m ∧ r = .ok ())
      ∨ ∃ hashes, m.Idle peer
        ∧ m.nextHashes best (best.height + 1) m.chain.tip.height [] = .ok hashes
        ∧ m'.chain = m.chain ∧ m'.maxTipAge = m.maxTipAge
        ∧ m'.blockMap = m.blockMap ∪ hashes.toFinset := by
  unfold requestBlocks at h
  split at h
  · rename_i hack
    obtain ⟨rfl, rfl⟩ := Prod.mk.inj (Except.ok.inj h)
    exact .inl ⟨fun hidle => by simp [hidle.1] at hack, rfl, rfl⟩
  rename_i hack
  rw [hrecent, bind_of_ok rfl] at h
  split at h
  · rename_i hidle
    rw [hbest, bind_of_ok rfl] at h
    obtain ⟨hashes, hhashes, h⟩ := bind_eq_ok.1 h
    obtain rfl := congrArg Prod.fst (Except.ok.inj h)
    refine .inr ⟨hashes, ⟨by simpa using hack, hidle.2⟩, hhashes, send_chain peer _, ?_, ?_⟩
    all_goals
      unfold getBlocks send
      split <;> rfl
  · rename_i hbusy
    obtain ⟨rfl, rfl⟩ := Prod.mk.inj (Except.ok.inj h)
    exact .inl ⟨fun hidle => hbusy ⟨rfl, hidle.2⟩, rfl, rfl⟩

section Rounds

variable (law : env.Lawful) (h : Chain.Visited env m.chain)
  (hrecent : m.chain.isRecent now m.maxTipAge = .ok true) (hbest : m.chain.mostWork = .ok best)
  (hstored : m.chain.db.getEntryByHash best.hash = some best)

include law h hrecent hbest hstored

/-- The rounds only add blocks, all of them above the tip. -/
theorem requestAll_effect {peers : List PeerId} {r : Except HandleError Unit}
    (hall : requestAll now peers m = .ok (m', r)) : m.blockMap ⊆ m'.blockMap
      ∧ ∀ hash ∈ m'.blockMap, hash ∈ m.blockMap
        ∨ ∃ e, m.chain.db.Ancestor best e ∧ m.chain.tip.height < e.height ∧ e.hash = hash := by
  induction peers generalizing m with
  | nil =>
    obtain rfl := congrArg Prod.fst (Except.ok.inj hall)
    exact ⟨subset_rfl, fun _ hmem => .inl hmem⟩
  | cons peer peers ih =>
    rw [requestAll] at hall
    obtain ⟨⟨m₁, sent⟩, hround, hall⟩ := bind_eq_ok.1 hall
    have hrest : m₁.chain = m.chain → m₁.maxTipAge = m.maxTipAge → m₁.blockMap ⊆ m'.blockMap
        ∧ ∀ hash ∈ m'.blockMap, hash ∈ m₁.blockMap
          ∨ ∃ e, m.chain.db.Ancestor best e ∧ m.chain.tip.height < e.height ∧ e.hash = hash := by
      intro hchain hage
      cases sent with
      | error e =>
        obtain rfl := congrArg Prod.fst (Except.ok.inj hall)
        exact ⟨subset_rfl, fun _ hmem => .inl hmem⟩
      | ok u =>
        have := ih (hchain ▸ h) (by rw [hchain, hage, hrecent]) (hchain ▸ hbest) (hchain ▸ hstored)
          hall
        rwa [hchain] at this
    obtain ⟨-, rfl, -⟩ | ⟨hashes, -, hscan, hchain, hage, hmap⟩ :=
      requestBlocks_effect hrecent hbest hround
    · exact hrest rfl rfl
    · obtain ⟨hsub, habove⟩ := hrest hchain hage
      rw [hmap] at hsub
      refine ⟨Finset.union_subset_left hsub, fun hash hmem => ?_⟩
      rcases habove hash hmem with hmem | habove
      · rw [hmap, Finset.mem_union, List.mem_toFinset] at hmem
        refine hmem.imp_right fun hmem => ?_
        exact (nextHashes_above law h hstored hscan hmem).resolve_left List.not_mem_nil
      · exact .inr habove

/-- The first peer that waits for nothing is asked for the lowest missing block. -/
theorem requestAll_lowest (hlowest : m.Lowest best e) (hwants : m.Wants e)
    (hheight : m.chain.tip.height < e.height) {peers : List PeerId} {r : Except HandleError Unit}
    (hidle : ∃ peer ∈ peers, m.Idle peer) (hall : requestAll now peers m = .ok (m', r)) :
    e.hash ∈ m'.blockMap := by
  induction peers generalizing m with
  | nil =>
    obtain ⟨_, hpeer, -⟩ := hidle
    cases hpeer
  | cons peer peers ih =>
    rw [requestAll] at hall
    obtain ⟨⟨m₁, sent⟩, hround, hall⟩ := bind_eq_ok.1 hall
    obtain ⟨hbusy, rfl, rfl⟩ | ⟨hashes, -, hscan, hchain, hage, hmap⟩ :=
      requestBlocks_effect hrecent hbest hround
    · obtain ⟨peer', hpeer', hidle'⟩ := hidle
      have hmem := (List.mem_cons.1 hpeer').resolve_left fun heq => hbusy (heq ▸ hidle')
      exact ih h hrecent hbest hstored hlowest hwants hheight ⟨peer', hmem, hidle'⟩ hall
    · have hmem : e.hash ∈ m₁.blockMap := by
        rw [hmap, Finset.mem_union, List.mem_toFinset]
        exact .inr (nextHashes_lowest law h hstored hlowest hwants hheight hscan)
      cases sent with
      | error e =>
        obtain rfl := congrArg Prod.fst (Except.ok.inj hall)
        exact hmem
      | ok u =>
        exact (requestAll_effect law (hchain ▸ h) (by rw [hchain, hage, hrecent]) (hchain ▸ hbest)
          (hchain ▸ hstored) hall).1 hmem

end Rounds

end PeerManager

namespace RequestManager

open PeerManager (Lowest Idle)

variable {env : Env} {lib : Bip152} {m : RequestManager} {peer : PeerId} {now : Nat}
  {best e : ChainEntry}

/-- In a state of a run in which nothing is asked for or verified, a peer waits for nothing and
the chain is recent, the lowest missing block of the branch with the most work is asked for
exactly when it is higher than the tip. -/
theorem lowest_requested_iff (law : env.Lawful) (h : m.Reached env lib)
    (hrecent : m.chain.isRecent now m.maxTipAge = .ok true) (hblocks : m.blockMap = ∅)
    (hverifying : m.verifying = ∅) (hbest : m.chain.mostWork = .ok best)
    (hlowest : m.Lowest best e) (hpeer : peer ∈ m.listed) (hidle : m.Idle peer) :
    (∀ p, (m.getNextBlocks now).2 ≠ .error (.panic p))
      ∧ (e.hash ∈ (m.getNextBlocks now).1.blockMap ↔ m.chain.tip.height < e.height) := by
  have hvisited : Chain.Visited env m.chain := h.onChain law
  have tree := (hvisited.inv law).tree
  obtain ⟨_, hsame, hstored⟩ := Chain.exists_mostWork law hvisited
  obtain rfl := Except.ok.inj (hbest.symm.trans hsame)
  obtain ⟨⟨m', r⟩, hall⟩ := @PeerManager.exists_requestAll _ _ now law m.listed hvisited
  have hmap : (m.getNextBlocks now).1.blockMap = m'.blockMap := by
    rw [getNextBlocks, PeerManager.getNextBlocks, hall]
    cases r <;> rfl
  refine ⟨fun p => ?_, ?_⟩
  · rw [getNextBlocks, PeerManager.getNextBlocks, hall]
    cases r <;> exact nofun
  rw [hmap]
  constructor
  · intro hmem
    obtain ⟨-, habove⟩ := PeerManager.requestAll_effect law hvisited hrecent hbest hstored hall
    obtain hmem | ⟨e', hanc, habove, heq⟩ := habove _ hmem
    · simp [hblocks] at hmem
    · have he' := ChainDB.Ancestor.stored tree hstored hanc
      have he := ChainDB.Ancestor.stored tree hstored hlowest.ancestor
      rw [heq, he] at he'
      exact Option.some.inj he' ▸ habove
  · intro habove
    have hwants : m.Wants e := ⟨by simp [hverifying], hlowest.missing, by simp [hblocks]⟩
    exact PeerManager.requestAll_lowest law hvisited hrecent hbest hstored hlowest hwants habove
      ⟨peer, hpeer, hidle⟩ hall

end RequestManager

namespace Small

/-- A manager with one peer, which has finished its handshake. -/
def acked (c : Chain) : RequestManager :=
  let m := RequestManager.new c none 3600
  let created := { m with
    created := {0}
    joining := {0}
    peers := Function.update m.peers 0 .new }.setRequests 0 .new
  (created.insertPeer 0 [0]).other 0 ⟨c, none, true, none, true, .txid, false⟩

theorem acked_reached {env : Env} {lib : Bip152} {c : Chain} (law : env.Lawful)
    (h : Chain.Reachable env c) : (acked c).Reached env lib := by
  refine ⟨c, none, 3600, h, .tail (.tail (.tail .refl ⟨(.create 0, .ok ()), trivial, rfl⟩)
    ⟨(.insertPeer 0 none [0], .ok ()), trivial, ?_⟩) ⟨(.other 0 ⟨c, none, true, none, true, .txid,
      false⟩, .ok ()), h.visited law, rfl⟩⟩
  simp [RequestManager.act, RequestManager.setRequests, RequestManager.new]

theorem acked_idle (c : Chain) : (acked c).Idle 0 := by
  simp [PeerManager.Idle, acked, RequestManager.other, RequestManager.setRequests,
    RequestManager.insertPeer, Peer.State.new]

/-- Headers of a branch of three blocks. -/
def branchHeaders : List Call :=
  [.addHeader 100 (block 1 22 11 []).header, .addHeader 100 (block 12 23 12 []).header,
    .addHeader 100 (block 13 24 13 []).header]

/-- A main chain of two blocks and the branch. -/
def branchCalls : List Call :=
  [Call.add 100 (block 1 20 1 [coinbase 1 5000000000]),
    .add 100 (block 2 21 2 [coinbase 2 5000000000])]
    ++ branchHeaders

/-- What is read off a chain with the branch: the first block of the branch is missing, and whether
it is asked for. -/
def branchAsked (asked : Bool) (c : Chain) : Bool :=
  match c.mostWork with
  | .ok best => match c.db.parentWalk 2 best with
    | some e =>
      decide (c.isRecent 100 3600 = .ok true ∧ c.tip.chainwork < best.chainwork
        ∧ c.db.hasBlock e.hash = false ∧ e.height = 1
        ∧ c.db.hasBlock numbered.genesisEntry.hash = true
        ∧ (e.hash ∈ ((acked c).getNextBlocks 100).1.blockMap ↔ asked = true))
    | none => false
  | .error _ => false

theorem branchAsked_lowest {asked : Bool} {c : Chain} (h : Chain.Visited numbered c)
    (hP : branchAsked asked c = true) : ∃ best e, c.mostWork = .ok best
      ∧ c.isRecent 100 3600 = .ok true ∧ c.tip.chainwork < best.chainwork
      ∧ (acked c).Lowest best e
      ∧ (e.hash ∈ ((acked c).getNextBlocks 100).1.blockMap ↔ asked = true) := by
  unfold branchAsked at hP
  split at hP
  · rename_i best hbest
    split at hP
    · rename_i e hwalk
      obtain ⟨hrecent, hwork, hmissing, hheight, hgenesis, hasked⟩ := of_decide_eq_true hP
      refine ⟨best, e, hbest, hrecent, hwork,
        ⟨Forest.ancestor_of_climb hwalk, hmissing, fun {e'} hanc hmissing' => ?_⟩, hasked⟩
      obtain ⟨_, hsame, hstored⟩ := Chain.exists_mostWork numbered_lawful h
      obtain rfl := Except.ok.inj (hbest.symm.trans hsame)
      have tree := (h.inv numbered_lawful).tree
      by_contra hlt
      have hroot : e' = numbered.genesisEntry :=
        tree.rooted.eq_root_of_rank (ChainDB.Ancestor.stored tree hstored hanc) (by omega)
      rw [hroot] at hmissing'
      exact absurd (hgenesis.symm.trans hmissing') (by decide)
    · cases hP
  · cases hP

end Small

namespace RequestManager

theorem lowest_requested_iff_first : ∃ (c : Chain) (best e : ChainEntry),
    ∀ lib, (Small.acked c).Reached Small.numbered lib ∧ (Small.acked c).Lowest best e
      ∧ (e.hash ∈ ((Small.acked c).getNextBlocks 100).1.blockMap ↔ c.tip.height < e.height) := by
  obtain ⟨c, hc, hP⟩ := Chain.exists_reachable Small.numbered Small.branchHeaders
    (Small.branchAsked true) (by decide) (by decide +kernel)
  obtain ⟨best, e, hbest, hrecent, -, hlowest, -⟩ :=
    Small.branchAsked_lowest (hc.visited Small.numbered_lawful) hP
  refine ⟨c, best, e, fun lib => ⟨Small.acked_reached Small.numbered_lawful hc, hlowest, ?_⟩⟩
  have hreached : (Small.acked c).Reached Small.numbered lib :=
    Small.acked_reached Small.numbered_lawful hc
  exact (lowest_requested_iff Small.numbered_lawful hreached hrecent rfl rfl hbest hlowest
    (List.mem_singleton_self 0) (Small.acked_idle c)).2

/-- The first block of a heavier branch is not asked for when the main chain is longer than the
part they share. -/
theorem branch_not_requested : ∃ (c : Chain) (best e : ChainEntry), ∀ lib,
    (Small.acked c).Reached Small.numbered lib ∧ c.isRecent 100 3600 = .ok true
      ∧ (Small.acked c).blockMap = ∅ ∧ (Small.acked c).verifying = ∅
      ∧ c.mostWork = .ok best ∧ c.tip.chainwork < best.chainwork
      ∧ (Small.acked c).Lowest best e ∧ 0 ∈ (Small.acked c).listed ∧ (Small.acked c).Idle 0
      ∧ e.hash ∉ ((Small.acked c).getNextBlocks 100).1.blockMap := by
  obtain ⟨c, hc, hP⟩ := Chain.exists_reachable Small.numbered Small.branchCalls
    (Small.branchAsked false) (by decide) (by decide +kernel)
  obtain ⟨best, e, hbest, hrecent, hwork, hlowest, hasked⟩ :=
    Small.branchAsked_lowest (hc.visited Small.numbered_lawful) hP
  exact ⟨c, best, e, fun lib => ⟨Small.acked_reached Small.numbered_lawful hc, hrecent, rfl, rfl,
    hbest, hwork, hlowest, List.mem_singleton_self 0, Small.acked_idle c, by simpa using hasked⟩⟩

end RequestManager

end BitcoinNode
