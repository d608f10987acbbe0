import BitcoinNode.Net.NewPeerManager

/-!
# Headers in the peer manager

`handle_headers` and `get_next_blocks` of `net/peer_manager.rs`, and when a list of headers
makes either manager panic.
-/

namespace BitcoinNode

namespace Peer

/-- The state of a peer that headers and block requests read and change. Sending fails when
the writer of the connection has ended. -/
structure State where
  ack : Bool
  sendCompact : Option Bool
  invFilter : Finset BlockHash
  blockMap : Finset BlockHash
  bestHash : Option BlockHash
  bestHeight : Option Nat
  connected : Bool

def writes : PeerWrites State where
  note hash state := { state with invFilter := insert hash state.invFilter }
  setBestHash hash state := { state with bestHash := some hash }
  setBestHeight height state := { state with bestHeight := some height }

def State.blockInv (state : State) (hash : BlockHash) : Inventory :=
  if state.sendCompact.getD false then .compactBlock hash else .witnessBlock hash

end Peer

/-- The manager with the states of its peers; `listed` are the peers of `state.peers` in the
order of iteration. -/
structure PeerManager where
  chain : Chain
  peers : PeerId → Peer.State
  listed : List PeerId
  blockMap : Finset BlockHash
  verifying : Finset Nat
  maxTipAge : Nat
  sent : List (PeerId × NetworkMessage)

namespace PeerManager

/-- `send` and `send_and_wait` of a peer. -/
def send (m : PeerManager) (peer : PeerId) (message : NetworkMessage) :
    PeerManager × Except HandleError Unit :=
  if (m.peers peer).connected then ({ m with sent := m.sent ++ [(peer, message)] }, .ok ())
  else (m, .error .sendFailed)

def sendGetHeaders (m : PeerManager) (peer : PeerId) (locator : List BlockHash)
    (stop : Option BlockHash) : PeerManager × Except HandleError Unit :=
  if locator.isEmpty then (m, .ok ())
  else m.send peer (.getHeaders locator (stop.getD 0))

def getBlocks (m : PeerManager) (peer : PeerId) (hashes : List BlockHash) :
    PeerManager × Except HandleError Unit :=
  m.send peer (.getData (hashes.map (m.peers peer).blockInv))

/-- The blocks of a path that are neither stored, nor being verified, nor asked for. -/
def wanted (m : PeerManager) (path : List ChainEntry) : List BlockHash :=
  (path.filter fun e =>
    !(decide (e.hash ∈ m.verifying) || m.chain.db.hasBlock e.hash
      || decide (e.hash ∈ m.blockMap))).map
    ChainEntry.hash

/-- The loop of `get_next_blocks` over windows of sixteen heights. -/
def nextHashes (m : PeerManager) (mostWork : ChainEntry) :
    Nat → Nat → List BlockHash → Except Panic (List BlockHash)
  | fuel, height, hashes =>
    if hashes.isEmpty ∧ height ≤ mostWork.height then
      match fuel with
      | 0 => .error .diverges
      | fuel + 1 => do
        let path ← m.chain.db.getNextPath mostWork height 16
        nextHashes m mostWork fuel (height + 16) (hashes ++ m.wanted path)
    else .ok hashes

/-- One round of `get_next_blocks`; `now` is the clock reading. -/
def requestBlocks (now : Nat) (m : PeerManager) (peer : PeerId) :
    Except Panic (PeerManager × Except HandleError Unit) :=
  if !(m.peers peer).ack then .ok (m, .ok ())
  else do
    let recent ← m.chain.isRecent now m.maxTipAge
    if recent ∧ (m.peers peer).blockMap = ∅ then
      let mostWork ← m.chain.mostWork
      let hashes ← m.nextHashes mostWork (mostWork.height + 1) m.chain.tip.height []
      let state := { m.peers peer with blockMap := (m.peers peer).blockMap ∪ hashes.toFinset }
      let m := { m with
        blockMap := m.blockMap ∪ hashes.toFinset
        peers := Function.update m.peers peer state }
      return m.getBlocks peer hashes
    else return (m, .ok ())

/-- `get_next_blocks` from a peer on; it returns on the first failed send. -/
def requestAll (now : Nat) : List PeerId → PeerManager →
    Except Panic (PeerManager × Except HandleError Unit)
  | [], m => .ok (m, .ok ())
  | peer :: peers, m => do
    let (m, sent) ← m.requestBlocks now peer
    match sent with
    | .error e => return (m, .error e)
    | .ok _ => requestAll now peers m

def getNextBlocks (now : Nat) (m : PeerManager) :
    Except Panic (PeerManager × Except HandleError Unit) :=
  requestAll now m.listed m

def handleHeaders (env : Env) (clock : Nat → Nat) (m : PeerManager) (peer : PeerId)
    (headers : List BlockHeader) : Except Panic (PeerManager × Except HandleError Unit) :=
  match headers.getLast? with
  | none => .ok (m, .ok ())
  | some last =>
    if !linked env none headers then .ok (m, .error .badHeaderChain)
    else do
      let (chain, state, added) ← addHeaders env Peer.writes clock headers m.chain (m.peers peer)
      let m := { m with chain := chain, peers := Function.update m.peers peer state }
      match added with
      | .error e => return (m, .error e)
      | .ok _ =>
        let (m, sent) ←
          if headers.length = 2000 then do
            let locator ← chain.getLocator (some (env.blockHash last))
            pure (m.sendGetHeaders peer locator none)
          else pure (m, .ok ())
        match sent with
        | .error e => return (m, .error e)
        | .ok _ => m.getNextBlocks (clock 0)

variable {env : Env} {m : PeerManager} {clock : Nat → Nat} {peer : PeerId} {now : Nat}
  {headers : List BlockHeader}

@[simp] theorem send_chain (peer : PeerId) (message : NetworkMessage) :
    (m.send peer message).1.chain = m.chain := by
  unfold send
  split <;> rfl

@[simp] theorem sendGetHeaders_chain (peer : PeerId) (locator : List BlockHash)
    (stop : Option BlockHash) : (m.sendGetHeaders peer locator stop).1.chain = m.chain := by
  unfold sendGetHeaders
  split
  · rfl
  · exact send_chain peer _

/-- The search for blocks to ask for ends: each window is higher than the one before. -/
theorem exists_nextHashes (law : env.Lawful) (h : Chain.Visited env m.chain) {mostWork : ChainEntry}
    (hstored : m.chain.db.getEntryByHash mostWork.hash = some mostWork) {fuel height : Nat}
    (hfuel : mostWork.height < height + fuel) (hashes : List BlockHash) :
    ∃ found, m.nextHashes mostWork fuel height hashes = .ok found := by
  induction fuel generalizing height hashes with
  | zero => exact ⟨hashes, by rw [nextHashes, if_neg (by omega)]⟩
  | succ fuel ih =>
    rw [nextHashes]
    split
    · obtain ⟨path, hpath⟩ := ChainDB.exists_getNextPath (h.inv law).tree (h.inv law).main
        (h.skips law) hstored height 16
      rw [hpath]
      exact ih (by omega) _
    · exact ⟨hashes, rfl⟩

theorem exists_requestBlocks (law : env.Lawful) (h : Chain.Visited env m.chain) (now : Nat)
    (peer : PeerId) : ∃ m' r, m.requestBlocks now peer = .ok (m', r) ∧ m'.chain = m.chain := by
  obtain ⟨best, hbest, hstored⟩ := Chain.exists_mostWork law h
  unfold requestBlocks Chain.isRecent
  split
  · exact ⟨m, _, rfl, rfl⟩
  rw [hbest, bind_of_ok rfl, pure_bind]
  dsimp only
  split
  · obtain ⟨hashes, hhashes⟩ := exists_nextHashes law h hstored
      (show best.height < m.chain.tip.height + (best.height + 1) by omega) []
    rw [bind_of_ok rfl, hhashes]
    exact ⟨_, _, rfl, send_chain peer _⟩
  · exact ⟨m, _, rfl, rfl⟩

theorem exists_requestAll (law : env.Lawful) {peers : List PeerId}
    (h : Chain.Visited env m.chain) : ∃ r, requestAll now peers m = .ok r := by
  induction peers generalizing m with
  | nil => exact ⟨_, rfl⟩
  | cons peer peers ih =>
    obtain ⟨m', r, hrequest, hchain⟩ := exists_requestBlocks law h now peer
    rw [requestAll, hrequest, bind_of_ok rfl]
    cases r with
    | error e => exact ⟨_, rfl⟩
    | ok u => exact ih (hchain ▸ h)

theorem handleHeaders_total_iff (law : env.Lawful) (hinj : Function.Injective env.blockHash)
    (h : Chain.Visited env m.chain) :
    (∃ r, m.handleHeaders env clock peer headers = .ok r)
      ↔ (linked env none headers = true → FirstAttaches env m.chain headers) := by
  unfold handleHeaders
  split
  · rename_i hnil
    obtain rfl := List.getLast?_eq_none_iff.1 hnil
    exact ⟨fun _ _ => by simp [FirstAttaches], fun _ => ⟨_, rfl⟩⟩
  cases hlinked : linked env none headers with
  | false => simp
  | true =>
    rw [if_neg (by simp), forall_prop_of_true rfl]
    refine Chain.bind_addHeaders_total_iff law hinj h hlinked fun chain state added hvisited => ?_
    cases added with
    | error e => exact ⟨_, rfl⟩
    | ok u =>
      dsimp only
      -- whatever was sent, the chain is the one the loop left
      have hnext : ∀ m' : PeerManager, m'.chain = chain →
          ∃ r, m'.getNextBlocks (clock 0) = .ok r :=
        fun m' hchain => exists_requestAll law (hchain ▸ hvisited)
      split
      · obtain ⟨locator, hlocator⟩ := Chain.exists_getLocator law hvisited (some (env.blockHash _))
        rw [hlocator, bind_of_ok rfl, pure_bind]
        split
        · exact ⟨_, rfl⟩
        · exact hnext _ (sendGetHeaders_chain peer locator none)
      · exact hnext _ rfl

end PeerManager

/-- A list of headers makes `handle_headers` of either manager panic exactly when it is linked
and its first header that is not stored passes its proof-of-work check without having a
stored parent that is not marked invalid. -/
theorem handleHeaders_returns_iff {env : Env} {c : Chain} (law : env.Lawful)
    (hinj : Function.Injective env.blockHash) (h : Chain.Reachable env c)
    (headers : List BlockHeader) (clock : Nat → Nat) (peer : PeerId) :
    (∀ m : NewPeerManager, m.chain = c →
      ((∃ r, m.handleHeaders env clock peer headers = .ok r)
        ↔ (linked env none headers = true → FirstAttaches env c headers)))
    ∧ ∀ m : PeerManager, m.chain = c →
      ((∃ r, m.handleHeaders env clock peer headers = .ok r)
        ↔ (linked env none headers = true → FirstAttaches env c headers)) := by
  have hvisited := h.visited law
  constructor
  · rintro m rfl
    exact NewPeerManager.handleHeaders_total_iff law hinj hvisited
  · rintro m rfl
    exact PeerManager.handleHeaders_total_iff law hinj hvisited

namespace Small

/-- The managers of a chain without peers or requests. -/
def newManager (c : Chain) : NewPeerManager := ⟨c, fun _ => ⟨none, none⟩, [], false⟩

def manager (c : Chain) : PeerManager :=
  ⟨c, fun _ => ⟨true, none, ∅, ∅, none, none, true⟩, [0], ∅, ∅, 3600, []⟩

/-- A header on a block nobody knows. -/
def orphan : BlockHeader := ⟨4, 1, 0, 20, 0, 1⟩

end Small

/-- The first block's header on a fresh chain: both managers return. -/
theorem handleHeaders_returns_iff_first : ∃ c, Chain.Reachable Small.env c
    ∧ (∃ r, (Small.newManager c).handleHeaders Small.env (fun _ => 100) 0 [Small.first.header]
      = .ok r)
    ∧ ∃ r, (Small.manager c).handleHeaders Small.env (fun _ => 100) 0 [Small.first.header]
      = .ok r := by
  obtain ⟨c, hc, hP⟩ := Chain.exists_reachable Small.env []
    (fun c => !decide (Small.first.header.prevBlockhash ∈ c.db.invalid)
      && (c.db.getEntryByHash Small.first.header.prevBlockhash).isSome) (by decide)
    (by decide +kernel)
  obtain ⟨hvalid, hsome⟩ := Bool.and_eq_true_iff.1 hP
  obtain ⟨hnew, hold⟩ := handleHeaders_returns_iff Small.lawful Small.blockHash_injective hc
    [Small.first.header] (fun _ => 100) 0
  have hattaches : FirstAttaches Small.env c [Small.first.header] := by
    intro header hmem _
    obtain rfl := List.mem_singleton.1 (List.mem_of_find?_eq_some hmem)
    exact ⟨by simpa using hvalid, hsome⟩
  exact ⟨c, hc, (hnew (Small.newManager c) rfl).2 fun _ => hattaches,
    (hold (Small.manager c) rfl).2 fun _ => hattaches⟩

/-- A header without a known parent makes both managers panic. -/
theorem orphan_header_panics : ∃ c, Chain.Reachable Small.env c
    ∧ ¬ (∃ r, (Small.newManager c).handleHeaders Small.env (fun _ => 100) 0 [Small.orphan] = .ok r)
    ∧ ¬ ∃ r, (Small.manager c).handleHeaders Small.env (fun _ => 100) 0 [Small.orphan] = .ok r := by
  obtain ⟨c, hc, hP⟩ := Chain.exists_reachable Small.env []
    (fun c =>
      (match (Small.newManager c).handleHeaders Small.env (fun _ => 100) 0 [Small.orphan] with
        | .ok _ => false
        | .error _ => true)
      && match (Small.manager c).handleHeaders Small.env (fun _ => 100) 0 [Small.orphan] with
        | .ok _ => false
        | .error _ => true) (by decide) (by decide +kernel)
  obtain ⟨hnew, hold⟩ := Bool.and_eq_true_iff.1 hP
  refine ⟨c, hc, ?_, ?_⟩
  · rintro ⟨r, hr⟩
    simp [hr] at hnew
  · rintro ⟨r, hr⟩
    simp [hr] at hold

end BitcoinNode
