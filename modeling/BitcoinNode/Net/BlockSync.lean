import BitcoinNode.Blockchain.BlockAgreement
import BitcoinNode.Blockchain.Notified
import BitcoinNode.Net.Window

/-!
# Blocks of another node

A node that is handed the main chain of another one, block after block: each block is accepted
and becomes the tip, so that the node ends with the tip and the coins of the other one.
-/

namespace BitcoinNode

namespace Chain

open ChainDB Relation

variable {env : Env} {c c' s : Chain} {e prev : ChainEntry} {b : Block}

/-! ## How a main chain came about -/

theorem eq_or_exists_of_concat {α : Type} {xs front back : List α} {x a : α}
    (h : xs ++ [x] = front ++ a :: back) :
    (xs = front ∧ x = a) ∨ ∃ back', xs = front ++ a :: back' := by
  rcases List.eq_nil_or_concat back with rfl | ⟨back', last, rfl⟩
  · obtain ⟨hfront, hlast⟩ := List.append_inj' h rfl
    exact .inl ⟨hfront, List.singleton_inj.1 hlast⟩
  · rw [List.concat_eq_append, ← List.cons_append, ← List.append_assoc] at h
    exact .inr ⟨back', (List.append_inj' h rfl).1⟩

/-- A state in which the chain connected a block on its tip. -/
structure Connected (env : Env) (before : List Notification) (e : ChainEntry) (b : Block)
    (c₁ c₂ c : Chain) : Prop where
  visited : Visited env c₁
  notified : c₁.notified = before
  stored : c₁.db.getEntryByHash e.hash = some e
  block : c₁.db.getBlock e.hash = some b
  prev : e.prevBlock = c₁.tip.hash
  connect : c₁.connect env b e c₁.tip = .ok (c₂, .ok e)
  moves : ReflTransGen (Move env) c₁ c

/-- A block that listeners were told of was connected in a state that the chain went through. -/
theorem Visited.exists_connect (law : env.Lawful) (h : Visited env c)
    {before after : List Notification} {snapshot : Snapshot} {view : CoinView}
    (hlog : c.notified = before ++ Notification.connect snapshot e b view :: after) :
    ∃ c₁ c₂, Connected env before e b c₁ c₂ c := by
  obtain ⟨c₀, hnew, hrun⟩ := h
  induction hrun generalizing after with
  | refl =>
    obtain ⟨mostWork, rfl⟩ := new_eq_ok law hnew
    exact absurd hlog (by simp)
  | @tail c₃ c₄ hrun hmove ih =>
    have hvisited : Visited env c₃ := ⟨c₀, hnew, hrun⟩
    have hearlier : ∀ {after},
        c₃.notified = before ++ Notification.connect snapshot e b view :: after →
        ∃ c₁ c₂, Connected env before e b c₁ c₂ c₄ := by
      intro after hlog
      obtain ⟨c₁, c₂, h⟩ := ih hlog
      exact ⟨c₁, c₂, { h with moves := h.moves.tail hmove }⟩
    rcases hmove.notified_cases (hvisited.inv law) with hsame |
      ⟨_, entry, block, _, hentry, hblock, hprev, hconnect, htold⟩ | ⟨_, _, _, -, -, htold⟩
    · exact hearlier (hsame.notified ▸ hlog)
    · rcases eq_or_exists_of_concat (htold.symm.trans hlog) with ⟨hbefore, hlast⟩ | ⟨_, hlog⟩
      · cases hlast
        exact ⟨c₃, c₄, hvisited, hbefore, hentry, hblock, hprev, hconnect, .single hmove⟩
      · exact hearlier hlog
    · rcases eq_or_exists_of_concat (htold.symm.trans hlog) with ⟨-, hlast⟩ | ⟨_, hlog⟩
      · cases hlast
      · exact hearlier hlog

/-- Every main-chain block above genesis was connected to the one before it, and nothing it
created was unspent at the time. -/
theorem Visited.exists_connected (law : env.Lawful) (h : Visited env s)
    (hfresh : NoRecreate env s.notified) (he : s.db.getEntryByHash e.hash = some e)
    (hmain : s.db.isMainChain e = true) (hgen : e ≠ env.genesisEntry) :
    ∃ before snapshot b view after c₁ c₂,
      s.notified = before ++ Notification.connect snapshot e b view :: after
        ∧ Connected env before e b c₁ c₂ s ∧ NoRecreate env c₁.notified := by
  have inv := h.inv law
  obtain ⟨p, hp⟩ := inv.tree.rooted.exists_parent he hgen
  have hheight := inv.tree.height_eq he hp
  have hlookup := isMainChain_iff.1 hmain
  have hlength := (h.told law).height_eq inv.tree
  have hle := inv.main.lookup_le hlookup
  obtain ⟨link, hlink⟩ : ∃ link, (linksOf s.notified)[p.height]? = some link :=
    ⟨_, List.getElem?_eq_getElem (by omega)⟩
  obtain ⟨-, hat, -⟩ := h.getElem_linksOf law hlink
  rw [← hheight] at hat
  have hentry : link.entry = e := by
    unfold getEntryByHeight at hat
    rw [hlookup] at hat
    dsimp only at hat
    rw [show s.db.entryCache.hash.lookup e.hash = some e from he] at hat
    exact (Option.some.inj (Except.ok.inj hat)).symm
  obtain ⟨snapshot, hmem⟩ := mem_of_mem_linksOf (List.mem_of_getElem? hlink)
  obtain ⟨before, after, hlog⟩ := List.append_of_mem hmem
  rw [hentry] at hlog
  obtain ⟨c₁, c₂, hconnected⟩ := h.exists_connect law hlog
  refine ⟨before, snapshot, link.block, link.view, after, c₁, c₂, hlog, hconnected, ?_⟩
  rw [hconnected.notified]
  exact NoRecreate.of_append (hlog ▸ hfresh)

/-! ## Connecting what another node connected -/

/-- A block that was connected passed the checks, its inputs are in its view, and its undo record
fits a file. -/
theorem Connected.spec (law : env.Lawful) {before : List Notification} {c₁ c₂ : Chain}
    (h : Connected env before e b c₁ c₂ c) (hfresh : NoRecreate env c₁.notified) :
    ∃ view state record, c₁.verdict env b = .ok (.ok (view, state))
      ∧ connectTransactions env view b.txdata 0 (c₁.db.state.connect b) = .ok record
      ∧ (view.undo.isEmpty = true ∨ view.undo.encodedLen + 40 ≤ BlockStore.MAX_FILE_LENGTH) := by
  have inv := h.visited.inv law
  have replay := h.visited.replayInv law hfresh
  have htip : c₁.db.getEntryByHash e.prevBlock = some c₁.tip := by rw [h.prev, inv.tip_stored]
  obtain ⟨-, -, cache, ⟨_, hr, -⟩ | ⟨view, state, db, -, hverify, -, hinputs, hdb, -⟩⟩ :=
    connect_eq_ok h.connect
  · cases hr
  obtain ⟨record, blocks, hrecord, hwrite, -⟩ := ChainDB.connect_eq_ok (inv.withCache cache).idle
    (inv.tree.isGenesis_eq_false h.stored htip) (inv.block_hash h.block) hdb
  obtain ⟨_, _, htxs, -⟩ := verifyInputs_eq_ok hinputs
  have hview := verifyTransactions_view htxs
  change blockView env c₁.db.db.coin _ _ _ = _ at hview
  obtain ⟨journal, hjournal, hitems⟩ := blockView_eq_ok (h.visited.undoInv law).unspent hview
  rw [← inv.tree.height_eq h.stored htip] at hjournal
  have hitems : view.undo.items = journal.map CoinEntry.markSpent := by
    simpa [CoinView.empty] using hitems
  refine ⟨view, state, record, ?_, hrecord, ?_⟩
  · rw [verdict, hverify]
    rfl
  · -- a record that was there before is the same one
    rw [or_iff_not_imp_left]
    intro hempty
    change c₁.db.writeUndo e view = .ok blocks at hwrite
    by_cases hmem : e.hash ∈ c₁.db.blocks.undos
    · obtain ⟨stored, hstored⟩ := Finmap.mem_iff.1 hmem
      obtain ⟨hitems', hlen⟩ := replay.undo_eq inv h.stored h.block h.prev hjournal hstored
      have heq : stored = view.undo := congrArg UndoCoins.mk (hitems'.trans hitems.symm)
      exact heq ▸ hlen
    · simp only [ChainDB.writeUndo, hempty, Bool.false_eq_true, if_false, BlockStore.writeUndo,
        if_neg hmem] at hwrite
      split_ifs at hwrite with hlong
      omega

/-- A node with the same tip and coins connects the block too. -/
theorem exists_connect_of_verdict (inv : c.Inv env) {view : CoinView} {state : DeploymentState}
    {record pending : ChainState} (he : c.db.getEntryByHash e.hash = some e)
    (hb : c.db.getBlock e.hash = some b) (hprev : e.prevBlock = c.tip.hash)
    (hverdict : c.verdict env b = .ok (.ok (view, state)))
    (hrecord : connectTransactions env view b.txdata 0 pending = .ok record)
    (hfits : view.undo.isEmpty = true ∨ view.undo.encodedLen + 40 ≤ BlockStore.MAX_FILE_LENGTH) :
    ∃ c', c.connect env b e c.tip = .ok (c', .ok e) := by
  have htip : c.db.getEntryByHash e.prevBlock = some c.tip := by rw [hprev, inv.tip_stored]
  rw [verdict] at hverdict
  cases hverify : c.verifyContext env b c.tip with
  | error p =>
    rw [hverify] at hverdict
    cases hverdict
  | ok r =>
    obtain ⟨c₁, verified⟩ := r
    rw [hverify] at hverdict
    obtain rfl : verified = .ok (view, state) := Except.ok.inj hverdict
    obtain ⟨⟨cache, rfl⟩, hheader, -⟩ := verifyContext_eq_ok hverify
    have inv₁ := inv.withCache cache
    obtain ⟨record', hrecord'⟩ := connectTransactions_of hrecord (c.db.state.connect b)
    obtain ⟨blocks, hwrite⟩ : ∃ blocks, (c.withCache cache).db.writeUndo e view = .ok blocks := by
      unfold ChainDB.writeUndo BlockStore.writeUndo
      rcases hfits with hempty | hle
      · exact ⟨_, by rw [if_pos hempty]⟩
      · split_ifs
        · exact ⟨_, rfl⟩
        · exact ⟨_, rfl⟩
        · omega
        · exact ⟨_, rfl⟩
    have hdb := @ChainDB.connect_eq env _ e b view inv₁.idle (inv.tree.isGenesis_eq_false he htip)
      (inv.block_hash hb)
    rw [show connectTransactions env view b.txdata 0 ((c.withCache cache).db.state.connect b)
      = .ok record' from hrecord', bind_of_ok rfl, hwrite, bind_of_ok rfl] at hdb
    refine ⟨c.connected ((c.withCache cache).db.connected e view (record'.commit e.hash) blocks)
      b e view state, ?_⟩
    rw [connect, if_neg (not_not.2 hheader), if_neg (not_not.2 rfl), hverify, bind_of_ok rfl]
    dsimp only
    rw [hdb]
    rfl

/-! ## One block -/

/-- The client has connected a part of the main chain of the server, knows the rest of it by the
headers, and has no block above its tip. -/
structure Trails (env : Env) (s c : Chain) : Prop where
  server : Visited env s
  client : Visited env c
  freshServer : NoRecreate env s.notified
  freshClient : NoRecreate env c.notified
  main : s.db.Ancestor s.tip c.tip
  known {a : ChainEntry} : s.db.Ancestor s.tip a →
    c.db.hasHeader a.hash = true ∧ a.hash ∉ c.db.invalid
  same {a : ChainEntry} : s.db.Ancestor c.tip a → c.db.getBlock a.hash = s.db.getBlock a.hash
  top {a : ChainEntry} : c.db.getEntryByHash a.hash = some a → c.db.hasBlock a.hash = true →
    a.height ≤ c.tip.height

/-- The next block of the server's main chain. -/
structure Next (s c : Chain) (e : ChainEntry) (b : Block) : Prop where
  main : s.db.Ancestor s.tip e
  prev : e.prevBlock = c.tip.hash
  block : s.db.getBlock e.hash = some b

/-- The queue of a block on the tip is the block alone, when none of its children is there. -/
theorem connectBest_next (inv : c.Inv env) (he : c.db.getEntryByHash e.hash = some e)
    (hprev : e.prevBlock = c.tip.hash) (hready : c.isBlockReady e.hash = true)
    (hnone : ∀ a, c.db.getEntryByHash a.hash = some a → a.prevBlock = e.hash →
      c.isBlockReady a.hash = false)
    (hconnect : c.connect env b e c.tip = .ok (c', .ok e)) :
    c.connectBest env e c.tip (some b) = .ok (c', .ok ()) := by
  have hnext : c.getNextBest e = .ok [] := by
    obtain ⟨path, hpath⟩ := getNextBest_exists inv he
    obtain ⟨hlinked, -⟩ := getNextBest_eq_ok inv hpath hready
    cases path with
    | nil => exact hpath
    | cons a path =>
      obtain ⟨⟨hstored, hparent, ha⟩, -⟩ := hlinked
      rw [hnone a hstored hparent] at ha
      cases ha
  have hlt := inv.tree.chainwork_lt he (by rw [hprev, inv.tip_stored])
  have hancestors : c.queueAncestors c.tip.height c.tip [⟨e, c.tip, some b⟩]
      = .ok (some [⟨e, c.tip, some b⟩]) := by
    unfold queueAncestors
    rw [if_pos inv.isMainChain_tip]
  have hqueue : c.buildQueue e c.tip (some b) = .ok [⟨e, c.tip, some b⟩] := by
    rw [buildQueue, hready, hancestors]
    simp only [Bool.not_true, Bool.false_eq_true, if_false]
    rw [bind_of_ok rfl]
    dsimp only
    rw [hnext, bind_of_ok rfl]
    exact congrArg Except.ok (if_neg (not_le.2 hlt))
  rw [connectBest, if_neg (not_not.2 hprev), hqueue, bind_of_ok rfl]
  dsimp only
  rw [disconnectTo, if_pos hprev.symm, bind_of_ok rfl, connectQueue]
  dsimp only [Option.or]
  rw [hconnect]
  rfl

/-- A block on the tip that is delivered is connected at once: its header is known, its body is
not, and none of its children is there. -/
theorem addWith_next (inv : c.Inv env) (he : c.db.getEntryByHash e.hash = some e)
    (hprev : e.prevBlock = c.tip.hash) (hnew : c.db.hasBlock e.hash = false)
    (hvalid : e.hash ∉ c.db.invalid) (hhash : env.blockHash b.header = e.hash)
    (hsize : env.getSize b + 8 ≤ BlockStore.MAX_FILE_LENGTH)
    (hnone : ∀ a, c.db.getEntryByHash a.hash = some a → a.prevBlock = e.hash →
      c.isBlockReady a.hash = false)
    {cache : VersionBitsCache} (hverify : c.verify env b c.tip = .ok (c.withCache cache, .ok ())) :
    ∃ db, (c.withCache cache).db.writeBlock env e.hash b = .ok db
      ∧ ∀ c', Chain.connect env { c.withCache cache with db := db } b e c.tip = .ok (c', .ok e) →
        c.addWith env b e c.tip = .ok (c', .ok e) := by
  have inv₁ := inv.withCache cache
  obtain ⟨blocks, hblocks⟩ : ∃ blocks, c.db.blocks.writeBlock env e.hash b = .ok blocks := by
    unfold BlockStore.writeBlock
    split_ifs
    · exact ⟨_, rfl⟩
    · omega
    · exact ⟨_, rfl⟩
  have hwrite : (c.withCache cache).db.writeBlock env e.hash b = .ok
      { (c.withCache cache).db with
        blocks := blocks, downloaded := insert e.hash c.db.downloaded } := by
    rw [ChainDB.writeBlock]
    change (c.db.blocks.writeBlock env e.hash b >>= _) = _
    rw [hblocks]
    rfl
  refine ⟨_, hwrite, fun c' hconnect => ?_⟩
  have hbody := (verify_eq_ok hverify).2.2 rfl
  have inv₂ := inv₁.writeBlock he hhash hnew hbody hwrite
  have hadd : c.addBlock env b e c.tip = .ok ({ c.withCache cache with
      db := { (c.withCache cache).db with
        blocks := blocks, downloaded := insert e.hash c.db.downloaded } }, .ok ()) := by
    rw [addBlock, hhash, hnew, hverify]
    simp only [Bool.false_eq_true, if_false]
    rw [bind_of_ok rfl]
    dsimp only
    rw [hwrite]
    rfl
  have hbest := connectBest_next inv₂ he hprev
    (isBlockReady_iff.2 ⟨hvalid, Finset.mem_insert_self ..⟩) (fun a ha hparent => ?_) hconnect
  · rw [addWith, hadd, bind_of_ok rfl]
    dsimp only
    rw [show c.tip = Chain.tip { c.withCache cache with db := _ } from rfl, hbest]
    rfl
  · -- a child is another block, and was not there before
    have hne : a.hash ≠ e.hash := by
      rintro heq
      have hself : a = e := by
        rw [heq] at ha
        exact Option.some.inj (ha.symm.trans he)
      have hlt := inv.tree.chainwork_lt he (by rw [← hself, hparent]; exact he)
      exact lt_irrefl _ hlt
    have hmissing := hnone a ha hparent
    rw [← Bool.not_eq_true, isBlockReady_iff] at hmissing ⊢
    rintro ⟨hvalid', hmem⟩
    exact hmissing ⟨hvalid', Finset.mem_of_mem_insert_of_ne hmem hne⟩

/-- A block with a good verdict passes the checks of its delivery. -/
theorem verify_of_verdict (inv : c.Inv env) (skips : c.db.Skips) {r : CoinView × DeploymentState}
    (hverdict : c.verdict env b = .ok (.ok r)) :
    ∃ cache, c.verify env b c.tip = .ok (c.withCache cache, .ok ()) := by
  have hself : Alike c c c.tip := ⟨rfl, rfl, fun _ => rfl, rfl, fun _ => rfl⟩
  cases hquery : c.db.getDeployments env b.header.time c.tip with
  | error p =>
    rw [verdict, verifyContext, hquery] at hverdict
    cases hverdict
  | ok flags =>
    obtain ⟨cache, state⟩ := flags
    obtain ⟨⟨_, _⟩, hagain⟩ := getDeployments_again inv skips inv.tip_stored hquery
    have heq : (c.verify env b c.tip).map Prod.snd
        = ((c.withCache cache).verify env b c.tip).map Prod.snd :=
      Alike.verify_eq ⟨rfl, rfl, by simp, by simp, by simp⟩ hagain hquery
    rw [verdict, verifyContext, hquery, bind_of_ok rfl] at hverdict
    obtain ⟨p, hverify, -⟩ | ⟨c₁, c₂, verified, hverify, hverify'⟩ := map_snd_cases heq
    · dsimp only at hverdict
      rw [hverify] at hverdict
      cases hverdict
    · dsimp only at hverdict
      rw [hverify] at hverdict
      obtain ⟨⟨cache', rfl⟩, -⟩ := verify_eq_ok hverify'
      cases verified with
      | error e => cases hverdict
      | ok _ => exact ⟨cache', hverify'⟩

theorem NoRecreate.concat {log : List Notification} {snapshot : Snapshot} {view : CoinView}
    (h : NoRecreate env log)
    (hfresh : ∀ books, Books.ofLine env (stackOf log) = some books →
      Ledger.FreshAll books.coin (b.ledgerTxs env e.height)) :
    NoRecreate env (log ++ [Notification.connect snapshot e b view]) := by
  intro before s' e' b' v' after hlog books hbooks
  rcases eq_or_exists_of_concat hlog with ⟨rfl, heq⟩ | ⟨after', hlog⟩
  · cases heq
    exact hfresh books hbooks
  · exact h before s' e' b' v' after' hlog books hbooks

/-- The block is stored, and what is known of the others stays. -/
structure Written (c c' : Chain) (e : ChainEntry) (b : Block) : Prop where
  entries : c'.db.getEntryByHash = c.db.getEntryByHash
  blocks (hash : BlockHash) :
    c'.db.getBlock hash = if hash = e.hash then some b else c.db.getBlock hash
  downloaded : c'.db.downloaded = insert e.hash c.db.downloaded
  invalid : c'.db.invalid = c.db.invalid
  mostWork : c'.db.mostWork = c.db.mostWork

/-! ## What the client finds out about the next block -/

/-- No block is lost as the chain goes on. -/
theorem Visited.blocks_mono (law : env.Lawful) (h : Visited env c)
    (hmoves : ReflTransGen (Move env) c c') :
    ∀ hash b, c.db.getBlock hash = some b → c'.db.getBlock hash = some b := by
  induction hmoves with
  | refl => exact fun _ _ h => h
  | tail hrun hmove ih =>
    exact fun hash b hb => (hmove.stored ((h.moves hrun).inv law)).2 hash b (ih hash b hb)

/-- The blocks of the main chain are stored. -/
theorem Visited.exists_block (law : env.Lawful) (h : Visited env c) {a : ChainEntry}
    (ha : c.db.Ancestor c.tip a) : ∃ block, c.db.getBlock a.hash = some block := by
  have inv := h.inv law
  have hstored := inv.complete_tip a ha
  rw [ChainDB.hasBlock, decide_eq_true_eq, inv.downloaded_iff] at hstored
  exact Finmap.mem_iff.1 hstored

section Agree

variable (law : env.Lawful) (hinj : Function.Injective env.blockHash)

include law hinj

/-- A node whose tip is the one that another node connected a block on finds what that node
found. -/
theorem Connected.verdict_eq (hactive : TaprootActive env) {before : List Notification}
    {s₁ s₂ : Chain} (h : Connected env before e b s₁ s₂ s) (hfresh : NoRecreate env s₁.notified)
    (h' : Visited env c) (hfresh' : NoRecreate env c.notified) (htip : c.tip.hash = s₁.tip.hash)
    (hsame : ∀ a, s.db.Ancestor s₁.tip a → c.db.getBlock a.hash = s.db.getBlock a.hash) :
    c.tip = s₁.tip ∧ stackOf c.notified = stackOf s₁.notified
      ∧ c.verdict env b = s₁.verdict env b := by
  have hentries := h.visited.entries_mono law h.moves
  have hblocks := h.visited.blocks_mono law h.moves
  have hsame₁ : ∀ a, s₁.db.Ancestor s₁.tip a → c.db.getBlock a.hash = s₁.db.getBlock a.hash := by
    intro a ha
    obtain ⟨block, hblock⟩ := h.visited.exists_block law ha
    rw [hsame a (Forest.Ancestor.mono hentries ha), hblock, hblocks _ _ hblock]
  obtain ⟨heq, hstack, hbooks⟩ := h.visited.same_books law hinj h' hfresh hfresh' htip hsame₁
  have alike := h.visited.alike law hinj h' heq (congrArg Books.coin hbooks)
  refine ⟨heq, hstack, alike.verdict_eq heq (h.visited.inv law) (h'.inv law)
    (h.visited.skips law) (h'.skips law) ?_⟩
  rw [flagsAt_of_active hactive, flagsAt_of_active hactive, heq]

omit hinj in
theorem Trails.stored (h : Trails env s c) : s.db.getEntryByHash c.tip.hash = some c.tip :=
  h.main.stored (h.server.inv law).tree (h.server.inv law).tip_stored

omit hinj in
theorem Next.stored (h : Trails env s c) (hnext : Next s c e b) :
    s.db.getEntryByHash e.hash = some e :=
  hnext.main.stored (h.server.inv law).tree (h.server.inv law).tip_stored

/-- The client has the entries of the server's main chain. -/
theorem Trails.stored_of_known (h : Trails env s c) {a : ChainEntry}
    (ha : s.db.Ancestor s.tip a) : c.db.getEntryByHash a.hash = some a := by
  have inv := h.server.inv law
  obtain ⟨a', ha'⟩ := Option.isSome_iff_exists.1 (h.known ha).1
  obtain rfl := (h.server.agrees law hinj h.client).entry (ha.stored inv.tree inv.tip_stored) ha'
  exact ha'

/-- What the client knows of the next block. -/
theorem Next.spec (h : Trails env s c) (hnext : Next s c e b) :
    c.db.getEntryByHash e.hash = some e ∧ e.hash ≠ env.genesisEntry.hash
      ∧ e.height = c.tip.height + 1 := by
  have inv := h.server.inv law
  have hstored := hnext.stored law h
  have hparent : s.db.getEntryByHash e.prevBlock = some c.tip := by rw [hnext.prev, h.stored law]
  refine ⟨h.stored_of_known law hinj hnext.main, fun heq => ?_,
    inv.tree.height_eq hstored hparent⟩
  rw [heq, inv.tree.genesis] at hstored
  rw [← Option.some.inj hstored, inv.tree.rooted.up_root] at hparent
  cases hparent

/-- A next block with a good verdict is stored, and accepted if it connects. -/
theorem Trails.exists_written (h : Trails env s c) (hnext : Next s c e b)
    {r : CoinView × DeploymentState} (hgood : c.verdict env b = .ok (.ok r)) (now : Nat) :
    ∃ c₂, Visited env c₂ ∧ Written c c₂ e b ∧ c₂.tip = c.tip ∧ c₂.notified = c.notified
      ∧ ∀ c', c₂.connect env b e c₂.tip = .ok (c', .ok e) → c.add env now b = .ok (c', .ok e) := by
  have inv := h.client.inv law
  obtain ⟨he, hgen, hheight⟩ := hnext.spec law hinj h
  have hhash := (h.server.inv law).block_hash hnext.block
  have hnew : c.db.hasBlock e.hash = false := by
    by_contra hstored
    have := h.top he (by simpa using hstored)
    omega
  have hnone : ∀ a, c.db.getEntryByHash a.hash = some a → a.prevBlock = e.hash →
      c.isBlockReady a.hash = false := by
    intro a ha hchild
    by_contra hready
    have := h.top ha (decide_eq_true (isBlockReady_iff.1 (by simpa using hready)).2)
    have := inv.tree.height_eq ha (by rw [hchild, he])
    omega
  obtain ⟨cache, hverify⟩ := verify_of_verdict inv (h.client.skips law) hgood
  obtain ⟨-, hprev, hbody⟩ := verify_eq_ok hverify
  obtain ⟨db, hwrite, hadd⟩ := addWith_next inv he hnext.prev hnew (h.known hnext.main).2 hhash
    (h.server.getSize_le law hnext.block hgen) hnone hverify
  obtain ⟨hblocks, hdb, -⟩ := getBlock_writeBlock (inv.withCache cache) hnew hwrite
  refine ⟨{ c.withCache cache with db := db }, (h.client.tail (.cache cache)).tail
    (.block he hhash hnew (hbody rfl) hwrite), ?_, rfl, rfl, fun c' hconnect => ?_⟩
  · refine ⟨?_, hblocks, ?_, ?_, ?_⟩
    all_goals
      dsimp only
      rw [hdb]
      rfl
  · rw [add, hhash, he]
    dsimp only
    rw [hprev, inv.tip_stored]
    exact hadd c' hconnect

/-- The next block of the server is accepted by the client and becomes its tip. -/
theorem Trails.exists_add (hactive : TaprootActive env) (h : Trails env s c) (hnext : Next s c e b)
    (now : Nat) : ∃ c', c.add env now b = .ok (c', .ok e) ∧ c'.tip = e ∧ Written c c' e b
      ∧ Visited env c' ∧ NoRecreate env c'.notified := by
  have inv := h.server.inv law
  have hstored := hnext.stored law h
  obtain ⟨he, hgen, hheight⟩ := hnext.spec law hinj h
  -- the server connected the block on the tip of the client
  obtain ⟨before, snapshot, b', view', after, s₁, s₂, hlog, hconn, hfresh₁⟩ :=
    h.server.exists_connected law h.freshServer hstored
      ((inv.main.isMainChain_iff_ancestor inv.tree inv.tip_stored hstored).2 hnext.main)
      (fun h => hgen (h ▸ rfl))
  obtain rfl : b' = b := by
    have hb' := hconn.visited.blocks_mono law hconn.moves _ _ hconn.block
    exact Option.some.inj (hb'.symm.trans hnext.block)
  have htip : c.tip = s₁.tip := by
    have hstored := hconn.visited.entries_mono law hconn.moves _ _
      (hconn.visited.inv law).tip_stored
    rw [← hconn.prev, hnext.prev, h.stored law] at hstored
    exact Option.some.inj hstored
  obtain ⟨view, state, record, hgood, hrecord, hfits⟩ := hconn.spec law hfresh₁
  obtain ⟨-, hstack, hverdict⟩ := hconn.verdict_eq law hinj hactive hfresh₁ h.client h.freshClient
    (congrArg ChainEntry.hash htip) (htip ▸ fun a ha => h.same ha)
  -- and so does the client, with the block on disk
  obtain ⟨c₂, hvisited, hwritten, htip₂, htold, hadd⟩ :=
    h.exists_written law hinj hnext (hverdict.trans hgood) now
  have inv₂ := hvisited.inv law
  have hfresh₂ : NoRecreate env c₂.notified := htold ▸ h.freshClient
  have hsame₂ : ∀ a, s.db.Ancestor s₁.tip a → c₂.db.getBlock a.hash = s.db.getBlock a.hash := by
    intro a ha
    rw [← htip] at ha
    rw [hwritten.blocks, if_neg, h.same ha]
    rintro heq
    have hself := ha.stored inv.tree (h.stored law)
    rw [heq, hstored] at hself
    obtain rfl := Option.some.inj hself
    have := inv.tree.rooted.rank_le_of_ancestor (h.stored law) ha
    omega
  obtain ⟨-, -, hverdict₂⟩ := hconn.verdict_eq law hinj hactive hfresh₁ hvisited hfresh₂
    (congrArg ChainEntry.hash (htip₂.trans htip)) hsame₂
  have he₂ : c₂.db.getEntryByHash e.hash = some e := by rw [hwritten.entries, he]
  have hb₂ : c₂.db.getBlock e.hash = some b' := by rw [hwritten.blocks, if_pos rfl]
  have hprev₂ : e.prevBlock = c₂.tip.hash := htip₂ ▸ hnext.prev
  obtain ⟨c', hconnect⟩ :=
    exists_connect_of_verdict inv₂ he₂ hb₂ hprev₂ (hverdict₂.trans hgood) hrecord hfits
  have hready : c₂.isBlockReady e.hash = true := by
    refine isBlockReady_iff.2 ⟨?_, ?_⟩
    · rw [hwritten.invalid]
      exact (h.known hnext.main).2
    · rw [hwritten.downloaded]
      exact Finset.mem_insert_self ..
  obtain ⟨hsame, htip'⟩ := connect_sameStore inv₂ he₂ hb₂ hprev₂ hconnect
  obtain ⟨_, _, _, _, _, _, -, -, -, -, -, -, heffect⟩ :=
    connect_effect inv₂ (hvisited.undoInv law).unspent he₂ hb₂ hprev₂ hconnect
  refine ⟨c', hadd c' hconnect, htip', ⟨?_, ?_, ?_, ?_, ?_⟩,
    hvisited.tail (.connect he₂ hready hb₂ hprev₂ hconnect), ?_⟩
  · rw [hsame.entries, hwritten.entries]
  · exact fun hash => by rw [hsame.blocks, hwritten.blocks]
  · rw [hsame.downloaded, hwritten.downloaded]
  · rw [hsame.invalid, hwritten.invalid]
  · rw [heffect, ← hwritten.mostWork]
    rfl
  · rw [heffect]
    change NoRecreate env (c₂.notified ++ [_])
    rw [htold]
    refine h.freshClient.concat fun books hbooks => ?_
    rw [hstack, hconn.notified] at hbooks
    exact h.freshServer before _ e b' _ after hlog books hbooks

/-- The client goes on to trail the server. -/
theorem Trails.next (h : Trails env s c) (hnext : Next s c e b) (htip : c'.tip = e)
    (hwritten : Written c c' e b) (hvisited : Visited env c')
    (hfresh : NoRecreate env c'.notified) : Trails env s c' where
  server := h.server
  client := hvisited
  freshServer := h.freshServer
  freshClient := hfresh
  main := htip ▸ hnext.main
  known := by
    intro a ha
    rw [hasHeader, hwritten.entries, hwritten.invalid]
    exact h.known ha
  same := by
    intro a ha
    rw [hwritten.blocks]
    split_ifs with heq
    · rw [heq, hnext.block]
    · rw [htip] at ha
      rcases ha.cases_head with rfl | ⟨p, hp, ha⟩
      · exact absurd rfl heq
      · obtain rfl : c.tip = p := by
          rw [hnext.prev, h.stored law] at hp
          exact Option.some.inj hp
        exact h.same ha
  top := by
    intro a ha hbody
    obtain ⟨he, -, hheight⟩ := hnext.spec law hinj h
    rw [hwritten.entries] at ha
    rw [htip]
    simp only [ChainDB.hasBlock, hwritten.downloaded, Finset.mem_insert, decide_eq_true_eq] at hbody
    rcases hbody with heq | hbody
    · rw [heq, he] at ha
      exact (Option.some.inj ha) ▸ le_rfl
    · have := h.top ha (decide_eq_true hbody)
      omega

omit hinj in
theorem Trails.eq_tip (h : Trails env s c) (hheight : c.tip.height = s.tip.height) :
    c.tip = s.tip := by
  have inv := h.server.inv law
  exact inv.tree.rooted.ancestor_unique inv.tip_stored h.main .refl hheight

omit hinj in
/-- As long as the server is ahead there is a next block. -/
theorem Trails.exists_next (h : Trails env s c) (hlt : c.tip.height < s.tip.height) :
    ∃ e b, Next s c e b ∧ ∀ hi, c.tip.height < hi →
      s.db.path s.tip c.tip.height hi = e :: s.db.path s.tip (c.tip.height + 1) hi := by
  have inv := h.server.inv law
  obtain ⟨e, he⟩ := inv.tree.rooted.exists_climb inv.tip_stored
    (Nat.sub_le s.tip.height (c.tip.height + 1))
  have hmain : s.db.Ancestor s.tip e := Forest.ancestor_of_climb he
  have hheight := inv.tree.rooted.rank_climb inv.tip_stored he
  have hstored := hmain.stored inv.tree inv.tip_stored
  obtain ⟨b, hb⟩ := h.server.exists_block law hmain
  have hgen : e ≠ env.genesisEntry := by
    rintro rfl
    rw [Env.genesisEntry_height] at hheight
    omega
  obtain ⟨p, hp⟩ := inv.tree.rooted.exists_parent hstored hgen
  have hparent := inv.tree.height_eq hstored hp
  obtain rfl : p = c.tip := by
    refine inv.tree.rooted.ancestor_unique inv.tip_stored (hmain.tail hp) h.main ?_
    omega
  refine ⟨e, b, ⟨hmain, (inv.tree.hash_eq hp).symm, hb⟩, fun hi hhi => ?_⟩
  have hone := ChainDB.path_concat inv.tree inv.tip_stored hmain
    (show c.tip.height < e.height by omega)
  rw [ChainDB.path_append (show c.tip.height ≤ e.height by omega) (show e.height ≤ hi by omega),
    hone, hparent, Nat.add_sub_cancel, ChainDB.path_eq_nil le_rfl]
  rfl

/-- The blocks that are handed over at their times, up to the first that is refused. -/
def addAll (env : Env) : List (Nat × Block) → Chain →
    Except Panic (Returned BlockVerificationError Unit)
  | [], c => .ok (c, .ok ())
  | (now, block) :: rest, c => do
    let (c, added) ← c.add env now block
    match added with
    | .error e => return (c, .error e)
    | .ok _ => addAll env rest c

/-- The blocks of a part of the server's main chain are all accepted. -/
theorem Trails.exists_addAll (hactive : TaprootActive env) (h : Trails env s c) {hi : Nat}
    (hle : hi ≤ s.tip.height) (hlo : c.tip.height ≤ hi) {deliveries : List (Nat × Block)}
    (hblocks : List.Forall₂ (fun e delivery => s.db.getBlock e.hash = some delivery.2)
      (s.db.path s.tip c.tip.height hi) deliveries) :
    ∃ c', addAll env deliveries c = .ok (c', .ok ()) ∧ Trails env s c' ∧ c'.tip.height = hi := by
  induction deliveries generalizing c with
  | nil =>
    refine ⟨c, rfl, h, le_antisymm hlo ?_⟩
    by_contra hlt
    obtain ⟨e, b, -, hpath⟩ := h.exists_next law (by omega)
    rw [hpath hi (by omega)] at hblocks
    cases hblocks
  | cons delivery rest ih =>
    obtain ⟨now, block⟩ := delivery
    have hlt : c.tip.height < hi := by
      by_contra hge
      rw [ChainDB.path_eq_nil (by omega)] at hblocks
      cases hblocks
    obtain ⟨e, b, hnext, hpath⟩ := h.exists_next law (by omega)
    rw [hpath hi hlt] at hblocks
    obtain ⟨hblock, hrest⟩ := List.forall₂_cons.1 hblocks
    obtain rfl := Option.some.inj (hnext.block.symm.trans hblock)
    obtain ⟨c₁, hadd, htip, hwritten, hvisited, hfresh⟩ := h.exists_add law hinj hactive hnext now
    have h₁ := h.next law hinj hnext htip hwritten hvisited hfresh
    obtain ⟨-, -, hheight⟩ := hnext.spec law hinj h
    rw [← hheight, ← htip] at hrest
    obtain ⟨c', hall, h'⟩ := ih h₁ (by rw [htip]; omega) hrest
    exact ⟨c', by rw [addAll, hadd]; exact hall, h'⟩

/-- At the height of the server the client has its tip and its books. -/
theorem Trails.same_tip (h : Trails env s c) (hheight : c.tip.height = s.tip.height) :
    c.tip = s.tip ∧ c.db.books = s.db.books := by
  have htip := h.eq_tip law hheight
  exact ⟨htip, (h.server.same_books law hinj h.client h.freshServer h.freshClient
    (congrArg ChainEntry.hash htip) fun a ha => h.same (htip ▸ ha)).2.2⟩

end Agree

end Chain

namespace Small

/-- The node has connected the first block. -/
def connectedFirst (s : Chain) : Bool :=
  holdsFirst s && s.tip.height == 1 && decide (0 < s.tip.time)
    && s.db.isMainChain env.genesisEntry
    && decide (s.db.entryCache.hash.keys = {env.genesisEntry.hash, blockHash first.header})

/-- The node has the header of the first block. -/
def headedFirst (c : Chain) : Bool :=
  decide (c.tip = env.genesisEntry) && decide (c.db.invalid = ∅) && c.notified.isEmpty
    && decide (c.db.getBlock env.genesisEntry.hash = some env.genesisBlock)
    && decide (c.db.downloaded = {env.genesisEntry.hash})
    && c.db.hasHeader env.genesisEntry.hash && c.db.hasHeader (blockHash first.header)
    && c.db.mostWork.map ChainEntry.hash == some (blockHash first.header)

/-- One node with the first block, and one with its header. -/
theorem exists_trailing : ∃ s c, Chain.Trails env s c ∧ s.tip.height = 1 ∧ c.tip.height = 0
    ∧ s.tip.hash = blockHash first.header
    ∧ s.db.getBlock (blockHash first.header) = some first ∧ 0 < s.tip.time
    ∧ c.db.mostWork = some s.tip := by
  obtain ⟨s, hs, hP⟩ := Chain.exists_reachable env [.add 100 first] connectedFirst (by decide)
    (by decide +kernel)
  obtain ⟨c, hc, hQ⟩ := Chain.exists_reachable env [.addHeader 100 first.header] headedFirst
    (by decide) (by decide +kernel)
  simp only [connectedFirst, holdsFirst, headedFirst, Bool.and_eq_true, decide_eq_true_eq,
    beq_iff_eq] at hP hQ
  obtain ⟨⟨⟨⟨⟨⟨⟨⟨⟨hhash, -⟩, -⟩, hgenesis⟩, hfirst⟩, hone⟩, hheight⟩, htime⟩, hmain⟩, hkeys⟩ := hP
  obtain ⟨⟨⟨⟨⟨⟨⟨htip, hvalid⟩, hnone⟩, hgenesis'⟩, hbodies⟩, hknown⟩, hknown'⟩, hbest⟩ := hQ
  have hserver := hs.visited lawful
  have hclient := hc.visited lawful
  have inv := hserver.inv lawful
  have inv' := hclient.inv lawful
  have trails : Chain.Trails env s c := by
    refine ⟨hserver, hclient, .of_oneConnected hone,
      by simp [Chain.NoRecreate, List.isEmpty_iff.1 hnone], ?_, fun ha => ?_, fun ha => ?_,
      fun ha hbody => ?_⟩
    · rw [htip]
      exact (inv.main.isMainChain_iff_ancestor inv.tree inv.tip_stored inv.tree.genesis).1 hmain
    · have hmem : _ ∈ s.db.entryCache.hash.keys :=
        Finmap.mem_keys.2 (Finmap.mem_of_lookup_eq_some (ha.stored inv.tree inv.tip_stored))
      rw [hkeys] at hmem
      refine ⟨?_, by simp [hvalid]⟩
      rcases Finset.mem_insert.1 hmem with heq | hmem
      · rw [heq, hknown]
      · rw [Finset.mem_singleton.1 hmem, hknown']
    · rw [htip] at ha
      have hle := inv.tree.rooted.rank_le_of_ancestor inv.tree.genesis ha
      have hself := ha.stored inv.tree inv.tree.genesis
      obtain rfl := inv.tree.rooted.eq_root_of_rank hself (Nat.le_zero.1 hle)
      rw [hgenesis, hgenesis']
    · rw [ChainDB.hasBlock, hbodies, decide_eq_true_eq, Finset.mem_singleton] at hbody
      rw [hbody, inv'.tree.genesis] at ha
      rw [← Option.some.inj ha, htip]
  obtain ⟨best, hmost, ⟨hstored, -⟩, -⟩ := hclient.mostWorkKept lawful
  have hsame := trails.stored_of_known lawful blockHash_injective .refl
  rw [hmost] at hbest
  rw [Option.some.inj hbest, ← hhash, hsame] at hstored
  exact ⟨s, c, trails, hheight, htip ▸ rfl, hhash, hfirst, htime,
    hmost.trans (congrArg some (Option.some.inj hstored).symm)⟩

end Small

namespace Chain

end Chain

end BitcoinNode
