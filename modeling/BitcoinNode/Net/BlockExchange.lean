import BitcoinNode.Net.BlockSync
import BitcoinNode.Net.ForkBlocks
import BitcoinNode.Net.ServeData

/-!
# The download of blocks

A client and a server of `net/peer_manager.rs`: the client has the headers of the server's main
chain and asks for the blocks, a window at a time, and the server answers from its disk. The client
ends with the tip and the coins of the server, unless blocks are asked for in compact form.
-/

namespace BitcoinNode

open Relation

namespace ChainDB

variable {env : Env} {db db' : ChainDB} {best : ChainEntry}

/-- Two nodes find the same path to an entry that both have. -/
theorem path_agrees (agrees : db.Agrees db') (tree : db.Tree env) (tree' : db'.Tree env)
    (hbest : db.getEntryByHash best.hash = some best)
    (hbest' : db'.getEntryByHash best.hash = some best) (lo hi : Nat) :
    db'.path best lo hi = db.path best lo hi := by
  refine List.filterMap_congr fun height _ => ?_
  obtain ⟨a, ha⟩ := tree.rooted.exists_climb hbest (Nat.sub_le best.height height)
  have hheight := tree.rooted.rank_climb hbest ha
  have hanc := agrees.ancestor hbest hbest' (Forest.ancestor_of_climb ha)
  have hfound := tree'.rooted.climb_of_ancestor hbest' hanc
  rw [show best.height - a.height = best.height - height by omega] at hfound
  exact hfound.trans ha.symm

end ChainDB

/-! ## Rounds of a client with one peer -/

namespace PeerManager

variable {env : Env} {m : PeerManager} {peer : PeerId} {s : Chain} {now : Nat}
  {hashes : List BlockHash}

/-- The peer is the only one, and owes the blocks. -/
structure Waits (m : PeerManager) (peer : PeerId) (hashes : List BlockHash) : Prop where
  listed : m.listed = [peer]
  ack : (m.peers peer).ack = true
  connected : (m.peers peer).connected = true
  verifying : m.verifying = ∅
  owed : (m.peers peer).blockMap = hashes.toFinset
  blockMap : m.blockMap = hashes.toFinset

/-- A peer that owes blocks is not asked for more. -/
theorem Waits.getNextBlocks_busy (h : m.Waits peer hashes) (hne : hashes ≠ [])
    (hrecent : m.chain.isRecent now m.maxTipAge = .ok true) :
    m.getNextBlocks now = .ok (m, .ok ()) := by
  have howed : (m.peers peer).blockMap ≠ ∅ := by
    rw [h.owed, Ne, List.toFinset_eq_empty_iff]
    exact hne
  rw [getNextBlocks, h.listed, requestAll, requestBlocks, h.ack, hrecent, bind_of_ok rfl]
  simp only [howed, and_false, if_false]
  rfl

/-- The next blocks of the server's main chain, sixteen or all that are left. -/
def window (s c : Chain) : List ChainEntry :=
  s.db.path s.tip c.tip.height (min s.tip.height (c.tip.height + 16))

theorem window_length_le (c : Chain) : (window s c).length ≤ 16 := by
  refine (List.length_filterMap_le ..).trans ?_
  rw [List.length_range']
  omega

/-- There are next blocks unless the client has them all. -/
theorem height_eq_of_window_nil {c : Chain} (law : env.Lawful) (trails : Chain.Trails env s c)
    (hnil : window s c = []) : c.tip.height = s.tip.height := by
  have inv := trails.server.inv law
  refine le_antisymm (inv.tree.rooted.rank_le_of_ancestor inv.tip_stored trails.main) ?_
  by_contra hlt
  obtain ⟨e, b, -, hcons⟩ := trails.exists_next law (by omega)
  have := hcons (min s.tip.height (c.tip.height + 16)) (by omega)
  rw [show s.db.path _ _ _ = window s c from rfl, hnil] at this
  cases this

/-- The state in which the peer was asked for blocks. -/
def asked (m : PeerManager) (peer : PeerId) (hashes : List BlockHash) : PeerManager :=
  { m with
    blockMap := m.blockMap ∪ hashes.toFinset
    peers := Function.update m.peers peer
      { m.peers peer with blockMap := (m.peers peer).blockMap ∪ hashes.toFinset }
    sent := m.sent ++ [(peer, .getData (hashes.map (m.peers peer).blockInv))] }

section Idle

variable (law : env.Lawful) (hinj : Function.Injective env.blockHash)
  (trails : Chain.Trails env s m.chain)

include law hinj trails

/-- A search finds the next blocks of the server, or nothing when there are none. -/
theorem nextHashes_eq (h : m.Waits peer []) :
    m.nextHashes s.tip (s.tip.height + 1) m.chain.tip.height []
      = .ok ((window s m.chain).map ChainEntry.hash) := by
  have inv := trails.server.inv law
  have inv' := trails.client.inv law
  have hle := inv.tree.rooted.rank_le_of_ancestor inv.tip_stored trails.main
  have agrees := trails.server.agrees law hinj trails.client
  have hstored := trails.stored_of_known law hinj .refl
  have hpath := ChainDB.path_agrees agrees inv.tree inv'.tree inv.tip_stored hstored
  have hfirst : m.chain.db.getNextPath s.tip m.chain.tip.height 16
      = .ok (window s m.chain) := by
    rw [ChainDB.getNextPath_eq inv'.tree inv'.main (trails.client.skips law) hstored (by decide),
      hpath]
    rfl
  have hwanted : m.wanted (window s m.chain) = (window s m.chain).map ChainEntry.hash := by
    refine congrArg (List.map ChainEntry.hash) (List.filter_eq_self.2 fun e he => ?_)
    obtain ⟨hanc, hlt, -⟩ :=
      (ChainDB.mem_path_iff inv.tree inv.tip_stored (Nat.min_le_left _ _)).1 he
    have hmissing : m.chain.db.hasBlock e.hash = false := by
      by_contra hbody
      have := trails.top (trails.stored_of_known law hinj hanc) (by simpa using hbody)
      omega
    simp [h.verifying, h.blockMap, hmissing]
  have hround : m.nextHashes s.tip (s.tip.height + 1) m.chain.tip.height []
      = m.nextHashes s.tip s.tip.height (m.chain.tip.height + 16)
        ((window s m.chain).map ChainEntry.hash) := by
    rw [nextHashes, if_pos ⟨rfl, hle⟩, hfirst, bind_of_ok rfl, List.nil_append]
    exact congrArg _ hwanted
  rw [hround]
  by_cases hnil : window s m.chain = []
  · -- behind the last block the search ends with its second round
    have hend := height_eq_of_window_nil law trails hnil
    rw [hnil]
    have hstop : ¬ m.chain.tip.height + 16 ≤ s.tip.height := by omega
    cases s.tip.height <;> rw [nextHashes, if_neg (fun h => hstop h.2), List.map_nil]
  · exact nextHashes_of_ne_nil (by simpa using hnil)

/-- A peer that owes nothing is asked for the next blocks. -/
theorem Waits.getNextBlocks_idle (h : m.Waits peer [])
    (hbest : m.chain.db.mostWork = some s.tip)
    (hrecent : m.chain.isRecent now m.maxTipAge = .ok true) :
    ∃ m', m.getNextBlocks now = .ok (m', .ok ())
      ∧ m'.Waits peer ((window s m.chain).map ChainEntry.hash) ∧ m'.chain = m.chain
      ∧ m'.maxTipAge = m.maxTipAge ∧ (m'.peers peer).sendCompact = (m.peers peer).sendCompact
      ∧ m'.sent = m.sent ++ [(peer,
        .getData ((window s m.chain).map fun e => (m.peers peer).blockInv e.hash))] := by
  have howed : (m.peers peer).blockMap = ∅ := h.owed
  have hmost : m.chain.mostWork = .ok s.tip := by rw [Chain.mostWork, hbest]
  refine ⟨m.asked peer ((window s m.chain).map ChainEntry.hash), ?_, ?_, rfl, rfl, ?_, ?_⟩
  · rw [getNextBlocks, h.listed, requestAll, requestBlocks, h.ack, hrecent, bind_of_ok rfl]
    simp only [howed, Bool.not_true, Bool.false_eq_true, if_false, and_self, if_true]
    rw [hmost, bind_of_ok rfl, nextHashes_eq law hinj trails h, bind_of_ok rfl]
    simp [getBlocks, send, asked, h.connected, requestAll, howed, Peer.State.blockInv]
  · constructor
    all_goals simp [asked, h.listed, h.ack, h.connected, h.verifying, h.owed, h.blockMap]
  · simp [asked]
  · simp [asked]

end Idle

end PeerManager

/-! ## One block -/

namespace RequestManager

variable {env : Env} {m m' : RequestManager} {peer : PeerId} {s c' : Chain} {now : Nat}
  {e : ChainEntry} {b : Block} {hashes : List BlockHash}

/-- What handling a block leaves alone. -/
structure Steady (m m' : RequestManager) (peer : PeerId) : Prop where
  maxTipAge : m'.maxTipAge = m.maxTipAge
  sendCompact : (m'.peers peer).sendCompact = (m.peers peer).sendCompact
  requests : m'.requests = m.requests
  compactBlocks : m'.compactBlocks = m.compactBlocks

/-- A block that the peer owes and that is accepted leaves the sets, and the next round follows. -/
theorem handleBlock_owed (h : m.Waits peer (e.hash :: hashes)) (hnew : e.hash ∉ hashes)
    (hhash : env.blockHash b.header = e.hash) (hadd : m.chain.add env now b = .ok (c', .ok e)) :
    ∃ m' : RequestManager, m.handleBlock env now peer b = m'.getNextBlocks now
      ∧ m'.Waits peer hashes ∧ m'.chain = c' ∧ m'.sent = m.sent ∧ m.Steady m' peer := by
  have howed : e.hash ∈ (m.peers peer).blockMap := by simp [h.owed]
  have hmap : e.hash ∈ m.blockMap := by simp [h.blockMap]
  refine ⟨{ (m.setBlockMap peer ((m.peers peer).blockMap.erase e.hash)) with
    blockMap := m.blockMap.erase e.hash, chain := c', verifying := ∅ }, ?_, ?_, rfl, rfl, ?_⟩
  · rw [handleBlock]
    simp only [hhash, howed, hmap, not_true, if_false, decide_true, Bool.not_true]
    rw [verifyBlock]
    simp only [hhash, setBlockMap, hadd, h.verifying, Finset.mem_insert_self, not_true, if_false]
    rw [if_neg Bool.false_ne_true, Finset.erase_insert (Finset.notMem_empty _)]
  · constructor
    all_goals simp [setBlockMap, h.listed, h.ack, h.connected, h.owed, h.blockMap, hnew]
  · constructor
    all_goals simp [setBlockMap]

theorem Steady.blockInv (h : m.Steady m' peer) :
    (m'.peers peer).blockInv = (m.peers peer).blockInv := by
  funext hash
  rw [Peer.State.blockInv, Peer.State.blockInv, h.sendCompact]

theorem Steady.trans {m₁ m₂ m₃ : RequestManager} (h : m₁.Steady m₂ peer) (h' : m₂.Steady m₃ peer) :
    m₁.Steady m₃ peer :=
  ⟨h'.maxTipAge.trans h.maxTipAge, h'.sendCompact.trans h.sendCompact,
    h'.requests.trans h.requests, h'.compactBlocks.trans h.compactBlocks⟩

/-- The requests for data among the messages to a peer. -/
def dataRequests (peer : PeerId) (sent : List (PeerId × NetworkMessage)) : List (List Inventory) :=
  sent.filterMap fun message =>
    match message.2 with
    | .getData items => if message.1 = peer then some items else none
    | _ => none

section Next

variable (law : env.Lawful) (hinj : Function.Injective env.blockHash)

include law hinj

/-- A round: the next blocks are asked for if none are owed. -/
theorem getNextBlocks_spec (trails : Chain.Trails env s m.chain)
    (hbest : m.chain.db.mostWork = some s.tip)
    (hrecent : m.chain.isRecent now m.maxTipAge = .ok true) {left : List ChainEntry}
    (h : m.Waits peer (left.map ChainEntry.hash)) :
    ∃ m' more, m.getNextBlocks now = (m', .ok ()) ∧ m'.chain = m.chain ∧ m.Steady m' peer
      ∧ m'.Waits peer ((left ++ more).map ChainEntry.hash)
      ∧ (dataRequests peer (m'.sent.drop m.sent.length)).length ≤ 1
      ∧ (dataRequests peer (m'.sent.drop m.sent.length)).flatten
        = more.map (fun e => (m.peers peer).blockInv e.hash)
      ∧ more = if left = [] then PeerManager.window s m.chain else [] := by
  by_cases hnil : left = []
  · subst hnil
    obtain ⟨manager, hround, hwaits, hchain, hage, hcompact, hsent⟩ :=
      h.getNextBlocks_idle law hinj trails hbest hrecent
    have hrequests : dataRequests peer ((m.withManager manager).sent.drop m.sent.length)
        = [(PeerManager.window s m.chain).map fun e => (m.peers peer).blockInv e.hash] := by
      rw [show (m.withManager manager).sent = manager.sent from rfl, hsent, List.drop_left]
      simp [dataRequests]
    refine ⟨m.withManager manager, PeerManager.window s m.chain, by rw [getNextBlocks, hround]; rfl,
      hchain, ⟨hage, hcompact, rfl, rfl⟩, hwaits, ?_, ?_, by simp⟩
    all_goals rw [hrequests]; simp
  · refine ⟨m, [], ?_, rfl, ⟨rfl, rfl, rfl, rfl⟩, by simpa using h, by simp [dataRequests],
      by simp [dataRequests], by simp [hnil]⟩
    rw [getNextBlocks, h.getNextBlocks_busy (by simpa using hnil) hrecent]
    rfl

/-- The next block of the server is accepted, and the round behind it fails neither. -/
theorem handleBlock_next (hactive : Chain.TaprootActive env)
    (trails : Chain.Trails env s m.chain) (hbest : m.chain.db.mostWork = some s.tip)
    (hnext : Chain.Next s m.chain e b) {left : List ChainEntry}
    (h : m.Waits peer ((e :: left).map ChainEntry.hash)) (hnew : e.hash ∉ left.map ChainEntry.hash)
    (hrecent : m.chain.isRecent now m.maxTipAge = .ok true) :
    ∃ m' more, m.handleBlock env now peer b = (m', .ok ()) ∧ Chain.Trails env s m'.chain
      ∧ m'.chain.tip = e ∧ m'.chain.db.mostWork = some s.tip ∧ m.Steady m' peer
      ∧ m'.Waits peer ((left ++ more).map ChainEntry.hash)
      ∧ (dataRequests peer (m'.sent.drop m.sent.length)).length ≤ 1
      ∧ (dataRequests peer (m'.sent.drop m.sent.length)).flatten
        = more.map (fun e => (m.peers peer).blockInv e.hash)
      ∧ more = if left = [] then PeerManager.window s m'.chain else [] := by
  obtain ⟨c', hadd, htip, hwritten, hvisited, hfresh⟩ :=
    trails.exists_add law hinj hactive hnext now
  have trails' := trails.next law hinj hnext htip hwritten hvisited hfresh
  have hhash := (trails.server.inv law).block_hash hnext.block
  obtain ⟨m₁, hhandle, hwaits, rfl, hsent, hsteady⟩ := handleBlock_owed h hnew hhash hadd
  have hbest' : m₁.chain.db.mostWork = some s.tip := hwritten.mostWork.trans hbest
  have hrecent' : m₁.chain.isRecent now m₁.maxTipAge = .ok true := by
    rw [hsteady.maxTipAge, ← hrecent, Chain.isRecent, Chain.isRecent, Chain.mostWork,
      Chain.mostWork, hbest, hbest']
  obtain ⟨m', more, hround, hchain, hsteady', hrest⟩ :=
    getNextBlocks_spec law hinj trails' hbest' hrecent' hwaits
  rw [hsent, hsteady.blockInv, ← hchain] at hrest
  rw [← hchain] at trails' hbest' htip
  exact ⟨m', more, hhandle.trans hround, trails', htip, hbest', hsteady.trans hsteady', hrest⟩

end Next

end RequestManager

/-! ## The exchange -/

namespace RequestManager

/-- What a client does with an answer; `txs` are the transactions of its pool in the order of
iteration. -/
def handleServed (env : Env) (bip152 : Bip152) (now : Nat) (m : RequestManager) (peer : PeerId)
    (txs : List Transaction) : Served → RequestManager × Result
  | .tx tx => m.handleTx env bip152 now peer tx
  | .block block => m.handleBlock env now peer block
  | .cmpctBlock compact => m.handleCompactBlock env bip152 now peer compact txs
  | .merkleBlock _ _ => (m, .ok ())
  | .notFound items => handleNotFound peer items m

end RequestManager

/-- A client, a server, and what is under way. -/
structure BlockExchange where
  client : RequestManager
  server : RequestManager
  requests : List (List Inventory)
  answers : List Served

namespace BlockExchange

section Runs

variable (env : Env) (lib : Bip37) (bip152 : Bip152) (peer : PeerId)

/-- One step. The best header of the client is recent when it takes an answer, and it goes on only
as long as handling returns no error. -/
inductive Step (x : BlockExchange) : BlockExchange → Prop where
  | serve {spvFilter : Option BloomFilter} {nonces : Nat → Nat} {items : List Inventory}
      {rest : List (List Inventory)} {served : List Served} : x.requests = items :: rest →
      x.server.handleGetData env lib bip152 spvFilter nonces items = .ok served →
      Step x { x with requests := rest, answers := x.answers ++ served }
  | accept {now : Nat} {txs : List Transaction} {m : RequestManager} {reply : Served}
      {rest : List Served} : x.answers = reply :: rest →
      x.client.chain.isRecent now x.client.maxTipAge = .ok true →
      x.client.handleServed env bip152 now peer txs reply = (m, .ok ()) →
      Step x { x with
        client := m
        requests := x.requests ++ RequestManager.dataRequests peer
          (m.sent.drop x.client.sent.length)
        answers := rest }

inductive Run (x : BlockExchange) : Nat → BlockExchange → Prop where
  | refl : Run x 0 x
  | tail {n : Nat} {y z : BlockExchange} :
      Run x n y → Step env lib bip152 peer y z → Run x (n + 1) z

/-- The client knows the headers of the server's main chain and asks its only peer for blocks. -/
structure Starts (m : RequestManager) (x : BlockExchange) : Prop where
  trails : Chain.Trails env x.server.chain m.chain
  best : m.chain.db.mostWork = some x.server.chain.tip
  waits : m.Waits peer []
  compacts : (m.requests peer).compactBlocks = ∅ ∧ m.compactBlocks = ∅
  asked : ∃ now, m.chain.isRecent now m.maxTipAge = .ok true
    ∧ m.getNextBlocks now = (x.client, .ok ())
  requests : x.requests = RequestManager.dataRequests peer (x.client.sent.drop m.sent.length)
  answers : x.answers = []

end Runs

variable {env : Env} {lib : Bip37} {bip152 : Bip152} {peer : PeerId} {x y z : BlockExchange}
  {n : Nat} {e : ChainEntry} {answered asked : List ChainEntry}

/-- The answer to a request for a block: in compact form near the tip, if it is asked for so. -/
inductive Reply (bip152 : Bip152) (s : Chain) (compact : Bool) (e : ChainEntry) :
    Served → Prop where
  | block {b : Block} : s.db.getBlock e.hash = some b →
      (compact = true → e.height < s.tip.height - 10) → Reply bip152 s compact e (.block b)
  | cmpctBlock {b : Block} (nonce : Nat) : s.db.getBlock e.hash = some b → compact = true →
      ¬ e.height < s.tip.height - 10 →
      Reply bip152 s compact e (.cmpctBlock (.fromBlock bip152 b nonce))

/-- Whether the client asks for blocks in compact form. -/
def compact (x : BlockExchange) (peer : PeerId) : Bool :=
  (x.client.peers peer).sendCompact.getD false

/-- What holds throughout an exchange: the blocks that were answered, and behind them those that
were asked for, follow on the tip of the client. -/
structure Sync (env : Env) (bip152 : Bip152) (peer : PeerId) (x : BlockExchange)
    (answered asked : List ChainEntry) : Prop where
  trails : Chain.Trails env x.server.chain x.client.chain
  best : x.client.chain.db.mostWork = some x.server.chain.tip
  waits : x.client.Waits peer ((answered ++ asked).map ChainEntry.hash)
  path : ∃ hi ≤ x.server.chain.tip.height, answered ++ asked
    = x.server.chain.db.path x.server.chain.tip x.client.chain.tip.height hi
  few : (answered ++ asked).length ≤ 16
  done : answered ++ asked = [] → x.client.chain.tip.height = x.server.chain.tip.height
  answers : List.Forall₂ (Reply bip152 x.server.chain (x.compact peer)) answered x.answers
  requests : x.requests.flatten = asked.map fun e => (x.client.peers peer).blockInv e.hash

/-! ## The server -/

/-- Blocks of the main chain are served. -/
theorem exists_serveItem (law : env.Lawful) {m : RequestManager}
    (h : Chain.Visited env m.chain) (state : Peer.State)
    (he : m.chain.db.Ancestor m.chain.tip e) (spvFilter : Option BloomFilter) (nonce : Nat) :
    ∃ reply, m.serveItem env lib bip152 spvFilter nonce (state.blockInv e.hash)
        = .ok (some [reply])
      ∧ Reply bip152 m.chain (state.sendCompact.getD false) e reply := by
  have inv := h.inv law
  have hstored := he.stored inv.tree inv.tip_stored
  obtain ⟨b, hb⟩ := h.exists_block law he
  unfold Peer.State.blockInv
  cases hcompact : state.sendCompact.getD false with
  | false => exact ⟨.block b, by simp [RequestManager.serveItem, hb], .block hb (by simp)⟩
  | true =>
    simp only [if_true, RequestManager.serveItem, hstored, hb, Option.map_some]
    by_cases hdeep : e.height < m.chain.tip.height - 10
    · exact ⟨.block b, by rw [if_pos hdeep], .block hb fun _ => hdeep⟩
    · exact ⟨_, by rw [if_neg hdeep], .cmpctBlock nonce hb rfl hdeep⟩

/-- So is a list of them, in order and without a gap. -/
theorem exists_serveLoop (law : env.Lawful) {m : RequestManager}
    (h : Chain.Visited env m.chain) (state : Peer.State) {es : List ChainEntry}
    (hes : ∀ e ∈ es, m.chain.db.Ancestor m.chain.tip e) (spvFilter : Option BloomFilter)
    (nonces : Nat → Nat) (sent : List Served) (notFound : List Inventory) :
    ∃ replies, m.serveLoop env lib bip152 spvFilter nonces
        (es.map fun e => state.blockInv e.hash) sent notFound = .ok (sent ++ replies, notFound)
      ∧ List.Forall₂ (Reply bip152 m.chain (state.sendCompact.getD false)) es replies := by
  induction es generalizing sent with
  | nil => exact ⟨[], by rw [List.append_nil]; rfl, .nil⟩
  | cons e es ih =>
    obtain ⟨he, hes⟩ := List.forall_mem_cons.1 hes
    obtain ⟨reply, hitem, hreply⟩ := exists_serveItem law h state he spvFilter
      (nonces (es.map fun e => state.blockInv e.hash).length)
    obtain ⟨replies, hloop, hreplies⟩ := ih hes (sent ++ [reply])
    refine ⟨reply :: replies, ?_, .cons hreply hreplies⟩
    rw [List.map_cons, RequestManager.serveLoop, hitem, bind_of_ok rfl]
    dsimp only
    rw [hloop, List.append_assoc, List.singleton_append]

/-- A request is answered, with a block for each item. -/
theorem Sync.served (law : env.Lawful) (h : Sync env bip152 peer x answered asked)
    {items : List Inventory} {rest : List (List Inventory)} (hrequests : x.requests = items :: rest)
    (lib : Bip37) (spvFilter : Option BloomFilter) (nonces : Nat → Nat) :
    ∃ first later replies, asked = first ++ later
      ∧ x.server.handleGetData env lib bip152 spvFilter nonces items = .ok replies
      ∧ List.Forall₂ (Reply bip152 x.server.chain (x.compact peer)) first replies
      ∧ rest.flatten = later.map fun e => (x.client.peers peer).blockInv e.hash := by
  have inv := h.trails.server.inv law
  have hflat := h.requests
  rw [hrequests, List.flatten_cons] at hflat
  obtain ⟨first, later, rfl, hfirst, hlater⟩ := List.map_eq_append_iff.1 hflat.symm
  obtain ⟨hi, hhi, hpath⟩ := h.path
  have hanc : ∀ e ∈ first, x.server.chain.db.Ancestor x.server.chain.tip e := by
    intro e he
    have hmem : e ∈ answered ++ (first ++ later) := by simp [he]
    rw [hpath] at hmem
    exact ((ChainDB.mem_path_iff inv.tree inv.tip_stored hhi).1 hmem).1
  obtain ⟨replies, hloop, hreplies⟩ := @exists_serveLoop env lib bip152 law x.server
    h.trails.server (x.client.peers peer) first hanc spvFilter nonces [] []
  refine ⟨first, later, replies, rfl, ?_, hreplies, hlater.symm⟩
  have hfew : ¬ items.length > 50000 := by
    have := h.few
    rw [← hfirst, List.length_map]
    simp only [List.length_append] at this
    omega
  rw [RequestManager.handleGetData, if_neg hfew, ← hfirst, hloop]
  rfl

theorem Sync.serve (law : env.Lawful) (h : Sync env bip152 peer x answered asked)
    {items : List Inventory} {rest : List (List Inventory)} (hrequests : x.requests = items :: rest)
    {spvFilter : Option BloomFilter} {nonces : Nat → Nat} {served : List Served}
    (hserve : x.server.handleGetData env lib bip152 spvFilter nonces items = .ok served) :
    ∃ answered' asked', Sync env bip152 peer
      { x with requests := rest, answers := x.answers ++ served } answered' asked' := by
  obtain ⟨first, later, replies, rfl, hreplies, hanswers, hrest⟩ :=
    h.served law hrequests lib spvFilter nonces
  obtain rfl := Except.ok.inj (hserve.symm.trans hreplies)
  have hassoc : (answered ++ first) ++ later = answered ++ (first ++ later) :=
    List.append_assoc ..
  exact ⟨answered ++ first, later, h.trails, h.best, hassoc ▸ h.waits, hassoc ▸ h.path,
    hassoc ▸ h.few, hassoc ▸ h.done, List.rel_append h.answers hanswers, hrest⟩

/-! ## The client -/

section Client

variable (law : env.Lawful) (hinj : Function.Injective env.blockHash)

include law hinj

/-- The first block under way is the next one, and the others come behind it. -/
theorem Sync.exists_next (h : Sync env bip152 peer x (e :: answered) asked) :
    ∃ b hi, Chain.Next x.server.chain x.client.chain e b ∧ hi ≤ x.server.chain.tip.height
      ∧ answered ++ asked
        = x.server.chain.db.path x.server.chain.tip e.height hi
      ∧ e.height = x.client.chain.tip.height + 1
      ∧ e.hash ∉ (answered ++ asked).map ChainEntry.hash := by
  have inv := h.trails.server.inv law
  obtain ⟨hi, hhi, hpath⟩ := h.path
  have hlt : x.client.chain.tip.height < hi := by
    by_contra hge
    rw [ChainDB.path_eq_nil (by omega)] at hpath
    cases hpath
  obtain ⟨e', b, hnext, hcons⟩ := h.trails.exists_next law (by omega)
  rw [hcons hi hlt, List.cons_append] at hpath
  obtain ⟨rfl, hrest⟩ := List.cons.inj hpath
  obtain ⟨-, -, hheight⟩ := hnext.spec law hinj h.trails
  rw [← hheight] at hrest
  refine ⟨b, hi, hnext, hhi, hrest, hheight, fun hmem => ?_⟩
  obtain ⟨a, ha, heq⟩ := List.mem_map.1 hmem
  rw [hrest, ChainDB.mem_path_iff inv.tree inv.tip_stored hhi] at ha
  have hself := ha.1.stored inv.tree inv.tip_stored
  rw [heq, hnext.stored law h.trails] at hself
  obtain rfl := Option.some.inj hself
  omega

/-- A block that is the next answer is accepted. -/
theorem Sync.accept_block (hactive : Chain.TaprootActive env)
    (h : Sync env bip152 peer x (e :: answered) asked) {b : Block} {rest : List Served}
    (hanswers : x.answers = .block b :: rest) {now : Nat}
    (hrecent : x.client.chain.isRecent now x.client.maxTipAge = .ok true) :
    ∃ m more, x.client.handleBlock env now peer b = (m, .ok ())
      ∧ x.client.Steady m peer ∧ m.chain.tip = e
      ∧ (RequestManager.dataRequests peer (m.sent.drop x.client.sent.length)).length ≤ 1
      ∧ Sync env bip152 peer { x with
        client := m
        requests := x.requests ++ RequestManager.dataRequests peer
          (m.sent.drop x.client.sent.length)
        answers := rest } answered (asked ++ more) := by
  obtain ⟨b', hi, hnext, hhi, hpath, hheight, hnew⟩ := h.exists_next law hinj
  have hreplies := h.answers
  rw [hanswers] at hreplies
  obtain ⟨hreply, hlater⟩ := List.forall₂_cons.1 hreplies
  obtain rfl : b' = b := by
    cases hreply with
    | block hb _ => exact Option.some.inj (hnext.block.symm.trans hb)
  have howed : x.client.Waits peer ((e :: (answered ++ asked)).map ChainEntry.hash) := h.waits
  obtain ⟨m, more, hhandle, trails, htip, hbest, hsteady, hwaits, hone, hmore, hwindow⟩ :=
    RequestManager.handleBlock_next law hinj hactive h.trails h.best hnext howed hnew hrecent
  have hassoc : answered ++ (asked ++ more) = (answered ++ asked) ++ more :=
    (List.append_assoc ..).symm
  refine ⟨m, more, hhandle, hsteady, htip, hone, trails, hbest, ?_, ?_, ?_, ?_, ?_, ?_⟩
  · rw [hassoc]
    exact hwaits
  · rw [hassoc, hwindow]
    split_ifs with hnil
    · rw [hnil]
      exact ⟨_, min_le_left _ _, rfl⟩
    · rw [List.append_nil, htip]
      exact ⟨hi, hhi, hpath⟩
  · rw [hassoc, hwindow]
    split_ifs with hnil
    · rw [hnil]
      exact PeerManager.window_length_le _
    · have := h.few
      rw [List.cons_append, List.length_cons] at this
      rw [List.append_nil]
      omega
  · rw [hassoc, hwindow]
    split_ifs with hnil
    · rw [hnil]
      exact PeerManager.height_eq_of_window_nil law trails
    · rw [List.append_nil]
      exact fun h => absurd h hnil
  · have hcompact : BlockExchange.compact ⟨m, x.server, [], []⟩ peer = x.compact peer := by
      rw [compact, compact, hsteady.sendCompact]
    exact hcompact ▸ hlater
  · rw [List.flatten_append, h.requests, hmore, hsteady.blockInv, List.map_append]

/-- An exchange starts with the first window under way. -/
theorem Starts.spec {m : RequestManager} (h : Starts env peer m x) (bip152 : Bip152) :
    x.client.chain = m.chain ∧ m.Steady x.client peer ∧ x.requests.length ≤ 1
      ∧ Sync env bip152 peer x [] (PeerManager.window x.server.chain m.chain) := by
  have inv := h.trails.server.inv law
  obtain ⟨now, hrecent, hasked⟩ := h.asked
  have hwaits : m.Waits peer (([] : List ChainEntry).map ChainEntry.hash) := h.waits
  obtain ⟨m', more, hround, hchain, hsteady, howed, hone, hmore, hwindow⟩ :=
    RequestManager.getNextBlocks_spec law hinj h.trails h.best hrecent hwaits
  obtain rfl : m' = x.client := congrArg Prod.fst (hround.symm.trans hasked)
  rw [if_pos rfl] at hwindow
  subst hwindow
  refine ⟨hchain, hsteady, h.requests ▸ hone, hchain ▸ h.trails, hchain ▸ h.best, howed,
    ⟨_, min_le_left _ _, by rw [hchain]; rfl⟩, PeerManager.window_length_le _, fun hnil => ?_,
    h.answers ▸ .nil, ?_⟩
  · rw [hchain]
    exact PeerManager.height_eq_of_window_nil law h.trails hnil
  · rw [h.requests, hmore, hsteady.blockInv]

/-- A compact block that is the next answer makes the client panic: its header is known. -/
theorem Sync.refuse_compact (h : Sync env bip152 peer x (e :: answered) asked)
    (hcompacts : (x.client.requests peer).compactBlocks = ∅ ∧ x.client.compactBlocks = ∅)
    {sent : HeaderAndShortIds} {rest : List Served}
    (hanswers : x.answers = .cmpctBlock sent :: rest) (now : Nat) (txs : List Transaction) :
    x.client.handleCompactBlock env bip152 now peer sent txs
      = (x.client, .error (.addHeader .addHeaderKnown)) := by
  have inv := h.trails.server.inv law
  have inv' := h.trails.client.inv law
  obtain ⟨b, hi, hnext, -⟩ := h.exists_next law hinj
  have hstored := hnext.stored law h.trails
  have hhash := inv.block_hash hnext.block
  have hheader : sent.header = b.header := by
    have hreplies := h.answers
    rw [hanswers] at hreplies
    obtain ⟨hreply, -⟩ := List.forall₂_cons.1 hreplies
    cases hreply with
    | cmpctBlock nonce hb _ _ => rw [← Option.some.inj (hnext.block.symm.trans hb)]; rfl
  have hsame : b.header = e.header := hinj (hhash.trans (inv.tree.header_hash hstored).symm)
  have howed : e.hash ∈ (x.client.peers peer).blockMap := by simp [h.waits.owed]
  obtain ⟨-, hgen, -⟩ := hnext.spec law hinj h.trails
  have hpow : env.validatePow b.header = true :=
    hsame ▸ h.trails.server.validatePow_eq law hstored fun heq => hgen (heq ▸ rfl)
  have hprev : b.header.prevBlockhash = x.client.chain.tip.hash := hsame ▸ hnext.prev
  have hvalid : x.client.chain.hasInvalid e.hash b.header.prevBlockhash = false := by
    rw [hprev, Chain.hasInvalid, ChainDB.hasInvalid, ChainDB.hasInvalid]
    simp [(h.trails.known hnext.main).2, (h.trails.known h.trails.main).2]
  have hadd : x.client.chain.addHeader env now b.header = .error .addHeaderKnown := by
    rw [Chain.addHeader, hpow]
    simp only [hhash, hvalid, (h.trails.known hnext.main).1]
    rfl
  rw [RequestManager.handleCompactBlock, hheader, hhash, hcompacts.1, hcompacts.2]
  simp only [Finmap.notMem_empty, Finset.notMem_empty, if_false]
  rw [RequestManager.askBlock, if_pos howed]
  dsimp only
  rw [RequestManager.addCompactBlock, hheader, hadd]

/-- What holds after a number of steps: each step takes a block or a request off. -/
structure Progress (env : Env) (bip152 : Bip152) (peer : PeerId) (m : RequestManager)
    (x : BlockExchange) (n : Nat) (y : BlockExchange) : Prop where
  sync : ∃ answered asked, Sync env bip152 peer y answered asked
  server : y.server = x.server
  steady : m.Steady y.client peer
  steps : n + y.requests.length + 2 * (x.server.chain.tip.height - y.client.chain.tip.height)
    ≤ 2 * (x.server.chain.tip.height - m.chain.tip.height) + 1
  grows : m.chain.tip.height ≤ y.client.chain.tip.height
  deep : (m.peers peer).sendCompact.getD false = true → y.client.chain.tip.height
    ≤ max m.chain.tip.height (x.server.chain.tip.height - 11)

theorem Starts.progress {m : RequestManager} (h : Starts env peer m x) :
    Progress env bip152 peer m x 0 x := by
  obtain ⟨hchain, hsteady, hone, hsync⟩ := h.spec law hinj bip152
  refine ⟨⟨_, _, hsync⟩, rfl, hsteady, ?_, hchain ▸ le_rfl, fun _ => hchain ▸ le_max_left _ _⟩
  rw [hchain]
  omega

theorem Run.progress (hactive : Chain.TaprootActive env) {m : RequestManager}
    (h : Starts env peer m x) (hrun : Run env lib bip152 peer x n y) :
    Progress env bip152 peer m x n y := by
  induction hrun with
  | refl => exact h.progress law hinj
  | @tail n y z _ hstep ih =>
    obtain ⟨⟨answered, asked, hsync⟩, hserver, hsteady, hsteps, hgrows, hdeep⟩ := ih
    cases hstep with
    | serve hrequests hserve =>
      refine ⟨hsync.serve law hrequests hserve, hserver, hsteady, ?_, hgrows, hdeep⟩
      rw [hrequests, List.length_cons] at hsteps
      dsimp only
      omega
    | @accept now txs m' reply rest hanswers hrecent hhandle =>
      cases answered with
      | nil =>
        have hreplies := hsync.answers
        rw [hanswers] at hreplies
        cases hreplies
      | cons e answered =>
        have hreplies := hsync.answers
        rw [hanswers] at hreplies
        obtain ⟨hreply, -⟩ := List.forall₂_cons.1 hreplies
        obtain ⟨_, _, hnext, -, -, hheight, -⟩ := hsync.exists_next law hinj
        cases hreply with
        | cmpctBlock nonce _ _ _ =>
          have hrefused := hsync.refuse_compact law hinj
            (by rw [hsteady.requests, hsteady.compactBlocks]; exact h.compacts) hanswers now txs
          rw [RequestManager.handleServed, hrefused] at hhandle
          cases hhandle
        | @block b hb hdepth =>
          obtain ⟨m'', more, haccept, hsteady', htip, hone, hsync'⟩ :=
            hsync.accept_block law hinj hactive hanswers hrecent
          obtain rfl : m'' = m' := congrArg Prod.fst (haccept.symm.trans hhandle)
          have hle := (hsync.trails.server.inv law).tree.rooted.rank_le_of_ancestor
            (hsync.trails.server.inv law).tip_stored hnext.main
          rw [hserver] at hle
          refine ⟨⟨_, _, hsync'⟩, hserver, hsteady.trans hsteady', ?_, ?_, fun hcompact => ?_⟩
          · rw [List.length_append]
            dsimp only
            rw [htip]
            omega
          · dsimp only
            rw [htip]
            omega
          · rw [compact, hsteady.sendCompact, hserver] at hdepth
            dsimp only
            rw [htip]
            exact le_max_of_le_right (by have := hdepth hcompact; omega)

/-- Every request is answered and every block accepted, and there are only blocks to accept if none
is asked for in compact form. -/
theorem Sync.goes_on (hactive : Chain.TaprootActive env)
    (h : Sync env bip152 peer x answered asked) :
    (∀ items rest, x.requests = items :: rest → ∀ lib spvFilter nonces, ∃ served,
      x.server.handleGetData env lib bip152 spvFilter nonces items = .ok served)
    ∧ (∀ b rest, x.answers = .block b :: rest → ∀ now,
      x.client.chain.isRecent now x.client.maxTipAge = .ok true →
      ∃ m, x.client.handleBlock env now peer b = (m, .ok ()))
    ∧ (x.compact peer = false → ∀ reply rest, x.answers = reply :: rest →
      ∃ b, reply = .block b) := by
  refine ⟨fun items rest hrequests lib spvFilter nonces => ?_,
    fun b rest hanswers now hrecent => ?_, fun hplain reply rest hanswers => ?_⟩
  · obtain ⟨_, _, replies, -, hserve, -⟩ := h.served law hrequests lib spvFilter nonces
    exact ⟨replies, hserve⟩
  · have hreplies := h.answers
    rw [hanswers] at hreplies
    cases answered with
    | nil => cases hreplies
    | cons e answered =>
      obtain ⟨m, -, hhandle, -⟩ := h.accept_block law hinj hactive hanswers hrecent
      exact ⟨m, hhandle⟩
  · have hreplies := h.answers
    rw [hanswers] at hreplies
    obtain ⟨e, _, hreply, -, -⟩ := List.forall₂_cons_right_iff.1 hreplies
    cases hreply with
    | @block b _ _ => exact ⟨b, rfl⟩
    | cmpctBlock nonce _ hcompact _ =>
      rw [hplain] at hcompact
      cases hcompact

/-- An exchange can be run until the client has handled every block and only compact blocks are left
to handle. -/
theorem Starts.exists_end (hactive : Chain.TaprootActive env) {m : RequestManager}
    (h : Starts env peer m x) (lib : Bip37) (bip152 : Bip152) :
    ∃ n y, Run env lib bip152 peer x n y ∧ y.requests = []
      ∧ ∀ b rest, y.answers ≠ .block b :: rest := by
  obtain ⟨now, hrecent, -⟩ := h.asked
  suffices hend : ∀ k n y, Run env lib bip152 peer x n y →
      2 * (x.server.chain.tip.height - m.chain.tip.height) + 1 < n + k →
      ∃ n y, Run env lib bip152 peer x n y ∧ y.requests = []
        ∧ ∀ b rest, y.answers ≠ .block b :: rest from
    hend (2 * (x.server.chain.tip.height - m.chain.tip.height) + 2) 0 x .refl (by omega)
  intro k
  induction k with
  | zero =>
    intro n y hrun hlt
    have := (hrun.progress law hinj hactive h).steps
    omega
  | succ k ih =>
    intro n y hrun hlt
    obtain ⟨⟨answered, asked, hsync⟩, hserver, hsteady, -⟩ := hrun.progress law hinj hactive h
    obtain ⟨hserves, haccepts, -⟩ := hsync.goes_on law hinj hactive
    by_cases hblock : ∃ b rest, y.answers = .block b :: rest
    · obtain ⟨b, rest, hanswers⟩ := hblock
      have hrecent' : y.client.chain.isRecent now y.client.maxTipAge = .ok true := by
        rw [hsteady.maxTipAge, ← hrecent, Chain.isRecent, Chain.isRecent, Chain.mostWork,
          Chain.mostWork, hsync.best, h.best, hserver]
      obtain ⟨m', hhandle⟩ := haccepts b rest hanswers now hrecent'
      have hstep : Step env lib bip152 peer y _ :=
        .accept hanswers hrecent'
          (show y.client.handleServed env bip152 now peer [] _ = _ from hhandle)
      exact ih _ _ (hrun.tail hstep) (by omega)
    · cases hrequests : y.requests with
      | nil => exact ⟨n, y, hrun, hrequests, fun b rest hanswers => hblock ⟨b, rest, hanswers⟩⟩
      | cons items rest =>
        obtain ⟨served, hserve⟩ := hserves items rest hrequests lib none fun _ => 0
        exact ih _ _ (hrun.tail (.serve hrequests hserve)) (by omega)

end Client

end BlockExchange

namespace Small

/-- The manager of a node with one peer, which has said whether it sends compact blocks. -/
def asking (sendCompact : Option Bool) (c : Chain) : RequestManager :=
  (acked c).other 0 ⟨c, none, true, sendCompact, true, .txid, false⟩

/-- A node with the first header asks a node with the first block. -/
theorem exists_download (sendCompact : Option Bool) : ∃ (m : RequestManager) (x : BlockExchange),
    BlockExchange.Starts env 0 m x ∧ m.chain.tip.height = 0 ∧ x.server.chain.tip.height = 1
      ∧ (m.peers 0).sendCompact = sendCompact := by
  obtain ⟨s, c, trails, hs, hc, -, -, htime, hbest⟩ := exists_trailing
  have hwaits : (asking sendCompact c).Waits 0 (([] : List ChainEntry).map ChainEntry.hash) := by
    constructor
    all_goals simp [asking, acked, RequestManager.other, RequestManager.setRequests,
      RequestManager.insertPeer, RequestManager.new, Peer.State.new]
  have hrecent : c.isRecent 0 (asking sendCompact c).maxTipAge = .ok true := by
    rw [Chain.isRecent, Chain.mostWork, hbest]
    simp [htime]
  obtain ⟨m', -, hround, -⟩ := RequestManager.getNextBlocks_spec (m := asking sendCompact c)
    lawful blockHash_injective trails hbest hrecent hwaits
  let requests := RequestManager.dataRequests 0 (m'.sent.drop (asking sendCompact c).sent.length)
  refine ⟨asking sendCompact c, ⟨m', asking none s, requests, []⟩,
    ⟨trails, hbest, hwaits, ⟨?_, rfl⟩, ⟨0, hrecent, hround⟩, rfl, rfl⟩, hc, hs, ?_⟩
  all_goals simp [asking, acked, RequestManager.other, RequestManager.setRequests,
    RequestManager.insertPeer, RequestManager.new, Peer.Requests.new]

end Small

namespace BlockExchange

end BlockExchange

end BitcoinNode
