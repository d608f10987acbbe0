import BitcoinNode.Net.Unions

/-!
# Runs of the peer manager

When the sets of requests stay those of the connected peers and the assertions on them hold.
-/

namespace BitcoinNode

namespace RequestManager

open PeerManager (blocks_update)

variable {env : Env} {lib : Bip152} {m m' : RequestManager} {peer : PeerId} {now : Nat}

/-! ## The condition -/

/-- What keeps the sets in step: a peer that is removed or replaced owes nothing that stays
behind, a peer that is not connected is not asked for anything, a transaction that was asked
for does not come, and a compact block is that of a header to be added and of a block that is
not asked of another peer. -/
def Proper (env : Env) (lib : Bip152) (m : RequestManager) : Act → Prop
  | .insertPeer _ old _ => ∀ p ∈ m.live, old = some p → m.OwesNothing p
  | .handleInv peer now items => peer ∈ m.listed ∨ m.chain.synced now m.maxTipAge = false
    ∨ ∀ item ∈ items, ∀ gtxid ∈ item.gtxid, gtxid ∈ m.txMap
  | .handleTx peer _ tx => (m.requests peer).txRelay.gtxid env lib tx ∉ m.txs peer
  | .handleCompactBlock peer now compact txs => env.blockHash compact.header ∈ m.compacts peer
    ∨ env.blockHash compact.header ∈ m.compactBlocks
    ∨ m.MayAsk env lib now peer compact txs ∧ m.MayAdd env compact.header
  | .removePeers =>
    ∀ p ∈ m.live, (m.requests p).disconnect = true → m.txs p = ∅ ∧ m.compacts p = ∅
  | _ => True

/-- The chain that other threads leave behind is one that calls reach. -/
def Act.Permitted (env : Env) : Act → Prop
  | .other _ o => Chain.Visited env o.chain
  | _ => True

/-- An act of a run, with how it ends. -/
def ActStep (env : Env) (lib : Bip152) (m : RequestManager) (e : Act × Result)
    (m' : RequestManager) : Prop :=
  e.1.Permitted env ∧ m.act env lib e.1 = some (m', e.2)

theorem invLoop_of_known {items : List Inventory} {gtxids : List GenericTxid}
    (hknown : ∀ item ∈ items, ∀ gtxid ∈ item.gtxid, gtxid ∈ m.txMap) :
    invLoop peer items m gtxids = (m, gtxids) := by
  induction items with
  | nil => rfl
  | cons item items ih =>
    obtain ⟨hitem, hknown⟩ := List.forall_mem_cons.1 hknown
    rw [invLoop]
    split
    · exact ih hknown
    · rename_i gtxid hgtxid
      rw [if_pos (hitem gtxid hgtxid)]
      exact ih hknown

theorem Good.step {a : Act} {r : Result} (h : m.Good env) (law : env.Lawful)
    (hstep : m.ActStep env lib (a, r) m') (hproper : m.Proper env lib a) :
    m'.Good env ∧ Upheld r := by
  obtain ⟨hpermitted, hact⟩ := hstep
  have hresult : ∀ {x : RequestManager × Result}, x.1.Good env ∧ Upheld x.2 →
      some x = some (m', r) → m'.Good env ∧ Upheld r := by
    rintro _ hx ⟨⟩
    exact hx
  cases a <;> simp only [act, Option.ite_none_left_eq_some, Option.ite_none_right_eq_some] at hact
  case create peer => exact hresult ⟨h.create hact.1, upheld_ok⟩ hact.2
  case insertPeer peer old order =>
    exact hresult ⟨h.insertPeer hact.1.2.2 hact.1.1 hproper, upheld_ok⟩ hact.2
  case handleInv peer now items =>
    refine hresult ?_ hact.2
    rcases hproper with hpeer | hsynced | hknown
    · exact h.handleInv (List.mem_toFinset.2 hpeer)
    · rw [RequestManager.handleInv, if_pos (by simp [hsynced])]
      exact ⟨h, upheld_ok⟩
    · rw [RequestManager.handleInv, invLoop_of_known hknown]
      simp only [List.isEmpty_nil, if_true, ite_self]
      exact ⟨h, upheld_ok⟩
  case handleTx peer now tx =>
    refine hresult ?_ hact.2
    rw [RequestManager.handleTx, if_pos (show _ ∉ (m.requests peer).txMap from hproper)]
    exact ⟨h, upheld_ok⟩
  case handleHeaders => exact hresult h.handleHeaders hact.2
  case handleBlock => exact hresult (h.handleBlock law) hact.2
  case handleCompactBlock => exact hresult (h.handleCompactBlock law hproper) hact.2
  case handleBlockTxn => exact hresult (h.handleBlockTxn law) hact.2
  case handleNotFound => exact hresult h.handleNotFound hact.2
  case getNextBlocks => exact hresult h.getNextBlocks hact
  case removePeers => exact hresult ⟨h.removePeers hproper, upheld_ok⟩ hact
  case other => exact hresult ⟨h.other hpermitted, upheld_ok⟩ hact

/-! ## The condition is needed -/

theorem lift_send (message : NetworkMessage) :
    ∃ sent r, m.lift (.ok (m.send peer message)) = ({ m with sent := sent }, r) := by
  unfold PeerManager.send
  split
  · exact ⟨_, _, rfl⟩
  · exact ⟨_, _, rfl⟩

/-- What an inventory does to the sets, whoever sends it. -/
theorem invLoop_effect {items : List Inventory} {gtxids : List GenericTxid} :
    (invLoop peer items m gtxids).1.listed = m.listed
      ∧ (∀ q, q ≠ peer → (invLoop peer items m gtxids).1.txs q = m.txs q)
      ∧ m.txMap ⊆ (invLoop peer items m gtxids).1.txMap
      ∧ ∀ item ∈ items, ∀ gtxid ∈ item.gtxid, gtxid ∈ (invLoop peer items m gtxids).1.txMap := by
  induction items generalizing m gtxids with
  | nil => exact ⟨rfl, fun _ _ => rfl, fun _ hmem => hmem, by simp⟩
  | cons item items ih =>
    rw [invLoop, List.forall_mem_cons]
    split
    · rename_i hnone
      obtain ⟨hlisted, htxs, hsubset, hall⟩ := @ih m gtxids
      exact ⟨hlisted, htxs, hsubset, by simp [hnone], hall⟩
    split
    · rename_i gtxid hgtxid hmem
      obtain ⟨hlisted, htxs, hsubset, hall⟩ := @ih m gtxids
      refine ⟨hlisted, htxs, hsubset, ?_, hall⟩
      rw [hgtxid]
      rintro _ ⟨⟩
      exact hsubset hmem
    · rename_i gtxid hgtxid hnew
      dsimp only
      generalize hm₁ : RequestManager.setRequests _ peer _ = m₁
      obtain ⟨hlisted, htxs, hsubset, hall⟩ := @ih m₁ (gtxids ++ [gtxid])
      have htxMap : m₁.txMap = insert gtxid m.txMap := by rw [← hm₁]; rfl
      rw [htxMap] at hsubset
      refine ⟨?_, fun q hq => ?_, fun x hx => hsubset (Finset.mem_insert_of_mem hx), ?_, hall⟩
      · rw [hlisted, ← hm₁]
        rfl
      · rw [htxs q hq, ← hm₁, txs_setRequests rfl, Function.update_of_ne hq]
        rfl
      · rw [hgtxid]
        rintro _ ⟨⟩
        exact hsubset (Finset.mem_insert_self _ _)

theorem Good.handleInv_proper (h : m.Good env) {items : List Inventory}
    (hshared : (m.handleInv now peer items).1.Consistent) :
    m.Proper env lib (.handleInv peer now items) := by
  by_contra hnot
  simp only [Proper, not_or, Bool.not_eq_false] at hnot
  obtain ⟨hpeer, hsynced, hnew⟩ := hnot
  refine hnew fun item hitem gtxid hgtxid => ?_
  obtain ⟨hlisted, htxs, -, hall⟩ := @invLoop_effect m peer items []
  rw [RequestManager.handleInv, if_neg (by simp [hsynced])] at hshared
  generalize RequestManager.invLoop peer items m [] = result at hlisted htxs hall hshared
  obtain ⟨m₁, gtxids⟩ := result
  dsimp only at hlisted htxs hall hshared
  have hshared : Shared m₁.txMap m₁.txs m₁.live := by
    split at hshared
    · exact hshared.txs
    · obtain ⟨sent, r, hsend⟩ := @lift_send m₁ peer (.getData (gtxids.map GenericTxid.item))
      rw [hsend] at hshared
      exact hshared.txs
  rw [live, hlisted] at hshared
  rw [← h.txs.all_eq hshared fun q hq =>
    htxs q (ne_of_mem_of_not_mem (List.mem_toFinset.1 hq) hpeer)]
  exact hall item hitem gtxid hgtxid

theorem Good.handleTx_proper (h : m.Good env) {tx : Transaction}
    (hshared : (m.handleTx env lib now peer tx).1.Consistent) :
    m.Proper env lib (.handleTx peer now tx) := by
  intro hmem
  have hmem' : _ ∈ (m.requests peer).txMap := hmem
  have hforgot : ∀ m' : RequestManager, m'.Consistent → m'.txMap = m.txMap → m'.listed = m.listed →
      m'.requests ≠ Function.update m.requests peer { m.requests peer with
        txMap := (m.txs peer).erase ((m.requests peer).txRelay.gtxid env lib tx) } := by
    intro m' hm' htxMap hlisted hrequests
    have htxs := hm'.txs
    rw [txs_setRequests hrequests, htxMap, live, hlisted] at htxs
    exact (h.txs.forget_iff (h.live_of_txs hmem)).1 htxs hmem
  rw [RequestManager.handleTx, if_neg (not_not.2 hmem')] at hshared
  dsimp only at hshared
  split at hshared
  · exact hforgot _ hshared rfl rfl rfl
  split at hshared
  · exact hforgot _ hshared rfl rfl rfl
  · exact hforgot _ hshared rfl rfl rfl

/-- A compact block that is not put together leaves the requested blocks as they were. -/
theorem addCompactBlock_blocks {compact : HeaderAndShortIds} {txs : List Transaction}
    (hnot : ¬ m.PutTogether env lib now compact txs) :
    (m.addCompactBlock env lib now peer compact txs).1.blockMap = m.blockMap
      ∧ (m.addCompactBlock env lib now peer compact txs).1.peers = m.peers
      ∧ (m.addCompactBlock env lib now peer compact txs).1.listed = m.listed := by
  unfold addCompactBlock
  split
  · exact ⟨rfl, rfl, rfl⟩
  · exact ⟨rfl, rfl, rfl⟩
  rename_i chain r hadd
  unfold openCompactBlock
  dsimp only
  split
  · exact ⟨rfl, rfl, rfl⟩
  · exact ⟨rfl, rfl, rfl⟩
  rename_i c full hopen
  split
  · rename_i hfull
    unfold handleFull
    split
    · exact ⟨rfl, rfl, rfl⟩
    · rename_i block hblock
      subst hfull
      exact absurd ⟨⟨chain, r, hadd⟩, c, block, hopen, hblock⟩ hnot
  split
  · exact ⟨rfl, rfl, rfl⟩
  split
  · exact ⟨rfl, rfl, rfl⟩
  · obtain ⟨sent, r, hsend⟩ := lift_send _
    rw [hsend]
    exact ⟨rfl, rfl, rfl⟩

/-- A header that fails an assertion of `add_header` shows in the result. -/
theorem addCompactBlock_upheld {compact : HeaderAndShortIds} {txs : List Transaction}
    (hupheld : Upheld (m.addCompactBlock env lib now peer compact txs).2) :
    m.MayAdd env compact.header := by
  intro hpow
  unfold addCompactBlock Chain.addHeader at hupheld
  rw [if_neg (by simp [hpow])] at hupheld
  dsimp only at hupheld
  split at hupheld
  · rename_i hadd
    split at hadd
    · cases hadd
      exact absurd rfl hupheld.2.1
    split at hadd
    · cases hadd
      exact absurd rfl hupheld.2.2
    · simp_all
  all_goals
    rename_i hadd
    split at hadd
    · cases hadd
    split at hadd
    · cases hadd
    · simp_all

theorem Good.handleCompactBlock_proper (h : m.Good env) {compact : HeaderAndShortIds}
    {txs : List Transaction}
    (hshared : (m.handleCompactBlock env lib now peer compact txs).1.Consistent)
    (hupheld : Upheld (m.handleCompactBlock env lib now peer compact txs).2) :
    m.Proper env lib (.handleCompactBlock peer now compact txs) := by
  rw [Proper, or_iff_not_imp_left, or_iff_not_imp_left]
  intro hdup hwaits
  have hdup' : env.blockHash compact.header ∉ (m.requests peer).compactBlocks :=
    fun hmem => hdup (Finmap.mem_keys.2 hmem)
  rw [RequestManager.handleCompactBlock] at hshared hupheld
  rw [if_neg hdup', if_neg hwaits] at hshared hupheld
  by_cases hasked : env.blockHash compact.header ∈ m.blocks peer
  · have hsame : m.askBlock peer (env.blockHash compact.header) = (m, .ok ()) := if_pos hasked
    rw [hsame] at hupheld
    exact ⟨.inl hasked, addCompactBlock_upheld hupheld⟩
  by_cases hfree : env.blockHash compact.header ∉ m.blockMap
  · rw [askBlock_of_notMem hasked hfree] at hshared hupheld
    dsimp only at hshared hupheld
    have hadd := addCompactBlock_upheld hupheld
    refine ⟨.inr ⟨hfree, ?_⟩, hadd⟩
    by_contra hnot
    obtain ⟨hpeer, htogether⟩ := not_or.1 hnot
    have hnone : ¬ PutTogether env lib now
        { m.setBlockMap peer (insert (env.blockHash compact.header) (m.blocks peer)) with
          blockMap := insert (env.blockHash compact.header) m.blockMap } compact txs := htogether
    obtain ⟨hblockMap, hpeers, hlisted⟩ := addCompactBlock_blocks hnone
    have hblocks := hshared.blocks
    rw [PeerManager.BlocksShared, hlisted, blocks_update hpeers, hblockMap] at hblocks
    have hall := h.blocks.all_eq hblocks fun q hq => Function.update_of_ne
      (ne_of_mem_of_not_mem (List.mem_toFinset.1 hq) hpeer) _ m.blocks
    exact hfree (hall ▸ Finset.mem_insert_self _ _)
  · have hasked' : env.blockHash compact.header ∉ (m.peers peer).blockMap := hasked
    rw [askBlock, if_neg hasked'] at hupheld
    dsimp only at hupheld
    rw [if_pos (by simpa using hfree)] at hupheld
    exact absurd rfl (hupheld.1 .blockMapPresent)

theorem Good.proper {a : Act} {r : Result} (h : m.Good env) (hstep : m.ActStep env lib (a, r) m')
    (hshared : m'.Consistent) (hupheld : Upheld r) : m.Proper env lib a := by
  obtain ⟨-, hact⟩ := hstep
  cases a <;> try exact trivial
  all_goals simp only [act, Option.ite_none_right_eq_some] at hact
  case insertPeer peer old order =>
    obtain ⟨hguard, ⟨⟩⟩ := hact
    exact (h.insertPeer_iff hguard.2.2 hguard.1).1 hshared
  case handleInv peer now items =>
    obtain rfl := congrArg Prod.fst (Option.some.inj hact.2)
    exact h.handleInv_proper hshared
  case handleTx peer now tx =>
    obtain rfl := congrArg Prod.fst (Option.some.inj hact.2)
    exact h.handleTx_proper hshared
  case handleCompactBlock peer now compact txs =>
    obtain rfl := congrArg Prod.fst (Option.some.inj hact.2)
    obtain rfl := congrArg Prod.snd (Option.some.inj hact.2)
    exact h.handleCompactBlock_proper hshared hupheld
  case removePeers =>
    obtain ⟨⟩ := hact
    exact h.removePeers_iff.1 hshared

/-! ## Runs -/

theorem Good.new {chain : Chain} (hvisited : Chain.Visited env chain) (mempool : Option MemPool)
    (maxTipAge : Nat) : (RequestManager.new chain mempool maxTipAge).Good env where
  blocks := .empty _
  txs := .empty _
  compacts := .empty _
  idle _ := ⟨rfl, rfl, Finmap.keys_empty⟩
  joining := nofun
  listed := nofun
  visited := hvisited

/-- In a run of the handlers and the removal of peers, in any order, with any messages, the
three sets are the disjoint unions of those of the connected peers in every state and no
assertion fails in any act, exactly when every act is proper. -/
theorem requests_disjoint (law : env.Lawful) {chain : Chain} (hchain : Chain.Reachable env chain)
    (mempool : Option MemPool) (maxTipAge : Nat) {trace : List ((Act × Result) × RequestManager)}
    (h : Trace (ActStep env lib) (.new chain mempool maxTipAge) trace) :
    (∀ e ∈ trace, e.2.Consistent ∧ Upheld e.1.2)
      ↔ Meets (fun m e => m.Proper env lib e.1) (.new chain mempool maxTipAge) trace := by
  have hnew := Good.new (hchain.visited law) mempool maxTipAge
  refine h.forall_and_iff (P := Consistent) (I := Orderly env) (Q := fun e => Upheld e.2)
    (C := fun m e => m.Proper env lib e.1) (fun m e m' hstep hm hgood _ hproper => ?_)
    (fun m e m' hstep hm hgood => ⟨fun hend => ?_, fun hproper => ?_⟩) hnew.toOrderly
    hnew.toConsistent
  · exact (Good.step ⟨hgood, hm⟩ law hstep hproper).1.toOrderly
  · exact Good.proper ⟨hgood, hm⟩ hstep hend.1 hend.2
  · obtain ⟨hgood', hupheld⟩ := Good.step ⟨hgood, hm⟩ law hstep hproper
    exact ⟨hgood'.toConsistent, hupheld⟩

/-- The run of a list of acts. -/
def run (env : Env) (lib : Bip152) :
    RequestManager → List Act → Option (List ((Act × Result) × RequestManager))
  | _, [] => some []
  | m, a :: acts => do
    let (m, r) ← m.act env lib a
    let trace ← run env lib m acts
    return ((a, r), m) :: trace

theorem run_trace {acts : List Act} {trace : List ((Act × Result) × RequestManager)}
    (hacts : ∀ a ∈ acts, a.Permitted env) (h : m.run env lib acts = some trace) :
    Trace (ActStep env lib) m trace := by
  induction acts generalizing m trace with
  | nil =>
    cases h
    exact .nil
  | cons a acts ih =>
    obtain ⟨ha, hacts⟩ := List.forall_mem_cons.1 hacts
    simp only [run, Option.bind_eq_bind, Option.bind_eq_some_iff] at h
    obtain ⟨⟨m₁, r⟩, hact, rest, hrest, h⟩ := h
    cases h
    exact .cons ⟨ha, hact⟩ (ih hacts hrest)

end RequestManager

namespace Small

/-- A peer is connected and announces a transaction. -/
def announceActs : List RequestManager.Act :=
  [.create 0, .insertPeer 0 none [0], .handleInv 0 100 [.transaction (env.txid (relayed 2))]]

/-- The peer sends it. -/
def sendActs : List RequestManager.Act :=
  announceActs ++ [RequestManager.Act.handleTx 0 100 (relayed 2)]

end Small

namespace RequestManager

/-- A transaction is asked for. -/
theorem requests_disjoint_small : ∃ (c : Chain) (trace : List ((Act × Result) × RequestManager)),
    (∃ e ∈ trace, e.2.txMap ≠ ∅)
    ∧ ((∀ e ∈ trace, e.2.Consistent ∧ Upheld e.1.2)
      ↔ Meets (fun m e => m.Proper Small.env Small.bip152 e.1) (.new c none 3600) trace) := by
  obtain ⟨c, hc, hP⟩ := Chain.exists_reachable Small.env []
    (fun c => ((RequestManager.new c none 3600).run Small.env Small.bip152 Small.announceActs).any
      fun trace : List ((Act × Result) × RequestManager) =>
        trace.any fun e => decide (e.2.txMap ≠ ∅)) (by decide) (by decide +kernel)
  obtain ⟨trace, hrun, hP⟩ := (Option.any_eq_true _ _).1 hP
  obtain ⟨e, he, hasked⟩ := List.any_eq_true.1 hP
  refine ⟨c, trace, ⟨e, he, of_decide_eq_true hasked⟩, requests_disjoint Small.lawful hc none 3600
    (run_trace (fun a ha => ?_) hrun)⟩
  fin_cases ha <;> trivial

/-- A transaction that comes stays in the set of the manager. -/
theorem sent_stays_requested : ∃ (c : Chain) (trace : List ((Act × Result) × RequestManager)),
    Chain.Reachable Small.env c
    ∧ Trace (ActStep Small.env Small.bip152) (.new c none 3600) trace
    ∧ ¬ ∀ e ∈ trace, e.2.Consistent ∧ Upheld e.1.2 := by
  obtain ⟨c, hc, hP⟩ := Chain.exists_reachable Small.env []
    (fun c => ((RequestManager.new c none 3600).run Small.env Small.bip152 Small.sendActs).any
      fun trace : List ((Act × Result) × RequestManager) =>
        trace.any fun e => decide (e.2.txMap ≠ ∅ ∧ e.2.listed = [0] ∧ e.2.txs 0 = ∅))
    (by decide) (by decide +kernel)
  obtain ⟨trace, hrun, hP⟩ := (Option.any_eq_true _ _).1 hP
  obtain ⟨e, he, hleft⟩ := List.any_eq_true.1 hP
  obtain ⟨hasked, hlisted, howes⟩ := of_decide_eq_true hleft
  refine ⟨c, trace, hc, run_trace (fun a ha => ?_) hrun, fun hall => ?_⟩
  · fin_cases ha <;> trivial
  · obtain ⟨gtxid, hmem⟩ := Finset.nonempty_iff_ne_empty.2 hasked
    obtain ⟨peer, hpeer, hmem⟩ := (hall e he).1.txs.mem_iff.1 hmem
    obtain rfl : peer = 0 := by simpa [live, hlisted] using hpeer
    simp [howes] at hmem

end RequestManager

end BitcoinNode
