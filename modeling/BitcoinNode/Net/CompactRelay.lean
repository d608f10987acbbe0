import BitcoinNode.Blockchain.Runs
import BitcoinNode.Net.ServeData

/-!
# Relaying a block in compact form

A node that announces a block in compact form and is asked for what is missing of it ends up
handing over the block. With the header added, both messages together do what the block itself
would have done, whatever the pool of the other node holds.
-/

namespace BitcoinNode

namespace RequestManager

/-- The answer of `handle_get_block_txn`: nothing if the block is not there or an index is not that
of one of its transactions. -/
def handleGetBlockTxn (m : RequestManager) (hash : BlockHash) (indexes : List Nat) :
    Option (List Transaction) :=
  (m.chain.db.getBlock hash).bind (BlockTransactions.fromRequest ⟨hash, indexes⟩)

variable {env : Env} {lib : Bip152} {m m₁ server : RequestManager} {peer : PeerId} {block : Block}
  {nonce now : Nat} {txs : List Transaction} {c : CompactBlock} {hash : BlockHash} {chain : Chain}

/-- Short ids tell the transactions of a block apart, also from what is in the pool, which holds
each of them once. -/
structure Distinct (lib : Bip152) (block : Block) (nonce : Nat) (txs : List Transaction) :
    Prop where
  nonempty : block.txdata ≠ []
  distinct : (block.txdata.map (lib.shortId block.header nonce)).Nodup
  once : (txs.filter (· ∈ block.txdata)).Nodup
  foreign {tx tx' : Transaction} : tx ∈ txs → tx ∉ block.txdata → tx' ∈ block.txdata →
    lib.shortId block.header nonce tx ≠ lib.shortId block.header nonce tx'

/-- What is made of a compact block is the block already, or it is with what it asks for. -/
theorem exists_openBlock (m : RequestManager) (h : Distinct lib block nonce txs) : ∃ c full set,
    m.openBlock lib (.fromBlock lib block nonce) txs = .ok (some (c, full))
      ∧ c.Filling lib block nonce set ∧ (full = true → c.toBlock = .ok block) := by
  obtain ⟨c, hnew, hfilling⟩ := CompactBlock.exists_new h.nonempty h.distinct
  rw [openBlock, hnew]
  cases m.mempool with
  | none => exact ⟨c, false, ∅, rfl, hfilling, fun hfull => absurd hfull Bool.false_ne_true⟩
  | some mempool =>
    obtain ⟨set, hfilled, hcount⟩ := CompactBlock.fillMempool_spec h.distinct hfilling h.once
      fun tx htx hout tx' htx' => h.foreign htx hout htx'
    exact ⟨_, _, set, rfl, hfilled, fun hfull => hfilled.toBlock_ok (hcount hfull)⟩

/-- Noting a block as asked for changes the requests for blocks only. -/
theorem askBlock_frame (h : m.askBlock peer hash = (m₁, .ok ())) :
    m₁.chain = m.chain ∧ m₁.requests = m.requests ∧ m₁.compactBlocks = m.compactBlocks
      ∧ m₁.sent = m.sent ∧ (m₁.peers peer).connected = (m.peers peer).connected := by
  unfold askBlock at h
  dsimp only at h
  split_ifs at h
  · cases h
    exact ⟨rfl, rfl, rfl, rfl, rfl⟩
  · cases h
  · cases h
    refine ⟨rfl, rfl, rfl, rfl, ?_⟩
    simp [setBlockMap]

/-- A compact block that is not full waits for what is sent of the block. -/
theorem handleBlockTxn_waiting {transactions : List Transaction} {c' : CompactBlock}
    (hfresh : hash ∉ (m.requests peer).compactBlocks) (hfresh' : hash ∉ m.compactBlocks)
    (hfill : c.fillMissing transactions = (c', true)) (hblock : c'.toBlock = .ok block) :
    handleBlockTxn env now { m.setRequests peer { m.requests peer with
        compactBlocks := (m.requests peer).compactBlocks.insert hash c } with
      compactBlocks := insert hash m.compactBlocks } peer transactions hash
      = m.handleBlock env now peer block := by
  have hrequests : ((m.requests peer).compactBlocks.insert hash c).erase hash
      = (m.requests peer).compactBlocks := FMap.insert_erase_cancel c hfresh
  simp only [handleBlockTxn, setRequests, Function.update_self, Finmap.lookup_insert,
    Finset.mem_insert_self, not_true_eq_false, if_false, Function.update_idem, hrequests,
    Function.update_eq_self, Finset.erase_insert hfresh', hfill, Bool.not_true, Bool.false_eq_true,
    handleFull, hblock]

/-- A new compact block with a good header is opened. -/
theorem handleCompactBlock_eq {compact : HeaderAndShortIds} {r : ChainEntry × ChainEntry}
    (hfresh : env.blockHash compact.header ∉ (m.requests peer).compactBlocks)
    (hfresh' : env.blockHash compact.header ∉ m.compactBlocks)
    (hask : m.askBlock peer (env.blockHash compact.header) = (m₁, .ok ()))
    (hadd : m.chain.addHeader env now compact.header = .ok (chain, .ok r)) :
    m.handleCompactBlock env lib now peer compact txs
      = openCompactBlock env lib now { m₁ with chain := chain } peer compact txs := by
  rw [handleCompactBlock, if_neg hfresh, if_neg hfresh', hask]
  dsimp only
  rw [addCompactBlock, (askBlock_frame hask).1, hadd]

/-- One that is not full is kept, and the sender is asked for what is missing. -/
theorem openCompactBlock_waiting {compact : HeaderAndShortIds}
    (hopen : m.openBlock lib compact txs = .ok (some (c, false)))
    (hfresh : env.blockHash compact.header ∉ (m.requests peer).compactBlocks)
    (hroom : (m.requests peer).compactBlocks.keys.card < 15)
    (hconnected : (m.peers peer).connected = true) :
    m.openCompactBlock env lib now peer compact txs = ({ m.setRequests peer { m.requests peer with
        compactBlocks :=
          (m.requests peer).compactBlocks.insert (env.blockHash compact.header) c } with
      compactBlocks := insert (env.blockHash compact.header) m.compactBlocks
      sent := m.sent ++ [(peer, .getBlockTxn (c.intoBlockTransactionsRequest lib).blockHash
        (c.intoBlockTransactionsRequest lib).indexes)] }, .ok ()) := by
  rw [openCompactBlock, hopen]
  dsimp only
  rw [if_neg Bool.false_ne_true, if_neg (Nat.not_le.2 hroom), decide_eq_false hfresh,
    if_neg Bool.false_ne_true, PeerManager.send, if_pos]
  · rfl
  · exact hconnected

/-- What a compact block comes to at a node that would handle the block itself in the state `m'`:
the node handles the block at once, or it asks the sender for transactions, and handles the block
when it gets what the sender answers. -/
def Relays (env : Env) (lib : Bip152) (now : Nat) (m m' server : RequestManager) (peer : PeerId)
    (block : Block) (nonce : Nat) (txs : List Transaction) : Prop :=
  m.handleCompactBlock env lib now peer (.fromBlock lib block nonce) txs
      = m'.handleBlock env now peer block
    ∨ ∃ m₂ indexes transactions,
      m.handleCompactBlock env lib now peer (.fromBlock lib block nonce) txs = (m₂, .ok ())
      ∧ m₂.sent = m.sent ++ [(peer, .getBlockTxn (env.blockHash block.header) indexes)]
      ∧ server.handleGetBlockTxn (env.blockHash block.header) indexes = some transactions
      ∧ ∀ now', m₂.handleBlockTxn env now' peer transactions (env.blockHash block.header)
        = handleBlock env now' { m' with sent := m₂.sent } peer block

/-- Compact relay is as good as the block, once its header is added: for a new block that the sender
has, with short ids that tell its transactions apart. -/
theorem compact_relays
    (hstored : server.chain.db.getBlock (env.blockHash block.header) = some block)
    (hlib : lib.blockHash block.header = env.blockHash block.header)
    (hdistinct : Distinct lib block nonce txs)
    (hfresh : env.blockHash block.header ∉ (m.requests peer).compactBlocks)
    (hfresh' : env.blockHash block.header ∉ m.compactBlocks)
    (hroom : (m.requests peer).compactBlocks.keys.card < 15)
    (hconnected : (m.peers peer).connected = true)
    (hask : m.askBlock peer (env.blockHash block.header) = (m₁, .ok ()))
    {r : ChainEntry × ChainEntry}
    (hadd : m.chain.addHeader env now block.header = .ok (chain, .ok r)) :
    Relays env lib now m { m₁ with chain := chain } server peer block nonce txs := by
  obtain ⟨-, hrequests, hcompacts, hsent, hconn⟩ := askBlock_frame hask
  rw [Relays, handleCompactBlock_eq hfresh hfresh' hask hadd]
  rw [← hrequests] at hfresh hroom
  rw [← hcompacts] at hfresh'
  rw [← hconn] at hconnected
  obtain ⟨c, full, set, hopen, hfilling, hfull⟩ :=
    exists_openBlock { m₁ with chain := chain } hdistinct
  cases full with
  | true =>
    refine .inl ?_
    rw [openCompactBlock, hopen]
    dsimp only
    rw [if_pos rfl, handleFull, hfull rfl]
  | false =>
    obtain ⟨transactions, c', hrequest, hfill, hblock⟩ := hfilling.completed
    have hhash : (c.intoBlockTransactionsRequest lib).blockHash = env.blockHash block.header := by
      rw [CompactBlock.intoBlockTransactionsRequest, hfilling.header, hlib]
    have hwaits : openCompactBlock env lib now { m₁ with chain := chain } peer
      (.fromBlock lib block nonce) txs = _ := openCompactBlock_waiting hopen hfresh hroom hconnected
    rw [hhash] at hwaits
    refine .inr ⟨_, (c.intoBlockTransactionsRequest lib).indexes, transactions, hwaits,
      congrArg (· ++ _) hsent, ?_, fun now' => ?_⟩
    · rw [handleGetBlockTxn, hstored]
      exact hrequest
    · exact handleBlockTxn_waiting (m := { m₁ with chain := chain, sent := _ }) hfresh hfresh'
        hfill hblock

end RequestManager

/-! ### Relaying the first block -/

namespace Small

def relayLib : Bip152 := { bip152 with blockHash := blockHash }

/-- The node takes the header of the first block. -/
def takesFirst (c : Chain) : Bool :=
  match c.addHeader Small.env 100 first.header with
  | .ok (_, .ok _) => c.tip.height == 0
  | _ => false

theorem exists_addFirst {c : Chain} (h : takesFirst c = true) : c.tip.height = 0
    ∧ ∃ chain r, c.addHeader Small.env 100 first.header = .ok (chain, .ok r) := by
  unfold takesFirst at h
  split at h
  · rename_i chain r hadd
    exact ⟨beq_iff_eq.1 h, chain, r, hadd⟩
  · cases h

end Small

namespace RequestManager

/-- A node without a pool gets the first block in compact form. -/
theorem compact_relays_first : ∃ m m' server : RequestManager, m.chain.tip.height = 0
    ∧ server.chain.tip.height = 1
    ∧ Relays Small.env Small.relayLib 100 m m' server 0 Small.first 5 [] := by
  obtain ⟨c, -, hP⟩ := Chain.exists_reachable Small.env [] Small.takesFirst (by decide)
    (by decide +kernel)
  obtain ⟨s, -, hP'⟩ := Chain.exists_reachable Small.env [.add 100 Small.first]
    (fun s => s.tip.height == 1
      && decide (s.db.getBlock (Small.blockHash Small.first.header) = some Small.first))
    (by decide) (by decide +kernel)
  obtain ⟨hheight, chain, r, hadd⟩ := Small.exists_addFirst hP
  rw [Bool.and_eq_true, beq_iff_eq, decide_eq_true_eq] at hP'
  obtain ⟨m₁, hask⟩ : ∃ m₁, (RequestManager.new c none 0).askBlock 0
      (Small.env.blockHash Small.first.header) = (m₁, .ok ()) := by
    simp [askBlock, RequestManager.new, Peer.State.new, setBlockMap]
  refine ⟨.new c none 0, _, .new s none 0, hheight, hP'.1, compact_relays hP'.2 rfl
    ⟨by decide, by decide, by decide, fun htx => absurd htx List.not_mem_nil⟩ ?_ ?_ ?_ rfl hask
    hadd⟩
  · exact Finmap.notMem_empty
  · exact Finset.notMem_empty _
  · simp [RequestManager.new, Peer.Requests.new]

end RequestManager

end BitcoinNode
