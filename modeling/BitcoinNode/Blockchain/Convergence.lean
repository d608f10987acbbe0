import BitcoinNode.Blockchain.Agreement
import BitcoinNode.Blockchain.Optimal
import BitcoinNode.Blockchain.Replay

/-!
# Nodes converge

Two nodes that have downloaded the same blocks, in whatever order they came and whatever was
reorganized on the way, end with tips of the same work, and nodes with one tip hold the same
coins and indexes.
-/

namespace BitcoinNode

open ChainDB

namespace Chain

variable {env : Env} {c c' : Chain} {e : ChainEntry} {line : List (ChainEntry × Block)}

/-- Both nodes have the same body for every block. -/
def SameBlocks (c c' : Chain) : Prop := ∀ hash, c'.db.getBlock hash = c.db.getBlock hash

theorem SameBlocks.symm (h : SameBlocks c c') : SameBlocks c' c := fun hash => (h hash).symm

theorem SameBlocks.hasBlock (h : SameBlocks c c') (inv : c.Inv env) (inv' : c'.Inv env)
    (hash : BlockHash) : c'.db.hasBlock hash = c.db.hasBlock hash := by
  have hstored : ∀ {c : Chain}, c.Inv env →
      (c.db.hasBlock hash = true ↔ (c.db.getBlock hash).isSome = true) := by
    intro c inv
    rw [ChainDB.hasBlock, decide_eq_true_eq, inv.downloaded_iff, getBlock, BlockStore.readBlock,
      Finmap.lookup_isSome]
  rw [Bool.eq_iff_iff, hstored inv', hstored inv, h hash]

/-- A branch whose blocks one node has is one that the other has, with the same entries. -/
theorem Complete.agrees (law : env.Lawful) (hinj : Function.Injective env.blockHash)
    (h : Visited env c) (h' : Visited env c') (hsame : SameBlocks c c')
    (he : c.db.getEntryByHash e.hash = some e) (hcomplete : c.Complete e) :
    c'.db.getEntryByHash e.hash = some e ∧ c'.Complete e := by
  have inv := h.inv law
  have inv' := h'.inv law
  have hblock : c'.db.hasBlock e.hash = true := by
    rw [hsame.hasBlock inv inv']
    exact hcomplete e .refl
  obtain ⟨e', he'⟩ := inv'.block_entry (by simpa [ChainDB.hasBlock] using hblock)
  obtain rfl := (h.agrees law hinj h').entry he he'
  refine ⟨he', fun a ha => ?_⟩
  rw [hsame.hasBlock inv inv']
  exact hcomplete a ((h'.agrees law hinj h).ancestor he' he ha)

/-- The tip is complete. -/
theorem Inv.complete_tip (inv : c.Inv env) : c.Complete c.tip := by
  intro a ha
  have hmain := inv.main.isMainChain_of_ancestor inv.tree inv.tip_stored ha inv.isMainChain_tip
  exact decide_eq_true (isBlockReady_iff.1 (inv.ready_of_main hmain)).2

/-- Two nodes that have downloaded the same blocks, none of them marked invalid, have tips of the
same work. When no other branch has as much work as the tip of one it is the tip of both. -/
theorem nodes_converge (law : env.Lawful) (hinj : Function.Injective env.blockHash)
    (h : Reachable env c) (h' : Reachable env c') (hsame : SameBlocks c c')
    (hinvalid : c.db.invalid = ∅) (hinvalid' : c'.db.invalid = ∅) :
    c'.tip.chainwork = c.tip.chainwork
      ∧ ((∀ e, c.db.getEntryByHash e.hash = some e → c.Complete e →
        e.chainwork = c.tip.chainwork → e = c.tip) → c'.tip = c.tip) := by
  have hvisited := h.visited law
  have hvisited' := h'.visited law
  have inv := hvisited.inv law
  have inv' := hvisited'.inv law
  obtain ⟨hstored, hcomplete⟩ :=
    inv.complete_tip.agrees law hinj hvisited hvisited' hsame inv.tip_stored
  obtain ⟨hstored', hcomplete'⟩ :=
    inv'.complete_tip.agrees law hinj hvisited' hvisited hsame.symm inv'.tip_stored
  have hle := h.best law hinj hinvalid _ hstored' hcomplete'
  have hge := h'.best law hinj hinvalid' _ hstored hcomplete
  have hwork := le_antisymm hle hge
  exact ⟨hwork, fun hunique => hunique _ hstored' hcomplete' hwork⟩

/-! ## One tip -/

/-- The blocks up to a shared entry are the same on both nodes. -/
theorem line_agrees (tree : c.db.Tree env) (agrees : c.db.Agrees c'.db)
    (he : c.db.getEntryByHash e.hash = some e) (he' : c'.db.getEntryByHash e.hash = some e)
    (hsame : ∀ a, c.db.Ancestor e a → c'.db.getBlock a.hash = c.db.getBlock a.hash)
    (hline : c.db.Line e line) : c'.db.Line e line := by
  induction hline with
  | genesis hgen => exact .genesis hgen
  | @child e p block line hgen hp hb _ ih =>
    have hp' := (agrees.parent he he').trans hp
    have hself := tree.self hp
    have hhash := tree.hash_eq hp
    refine .child hgen hp' ((hsame e .refl).trans hb) (ih hself ?_ fun a ha => ?_)
    · rw [hhash, hp']
    · exact hsame a (.head hp ha)

/-- Nodes with one tip have connected the same blocks, and their books are those of the blocks. -/
theorem Visited.same_books (law : env.Lawful) (hinj : Function.Injective env.blockHash)
    (h : Visited env c) (h' : Visited env c') (hfresh : NoRecreate env c.notified)
    (hfresh' : NoRecreate env c'.notified) (htip : c'.tip.hash = c.tip.hash)
    (hsame : ∀ a, c.db.Ancestor c.tip a → c'.db.getBlock a.hash = c.db.getBlock a.hash) :
    c'.tip = c.tip ∧ stackOf c'.notified = stackOf c.notified ∧ c'.db.books = c.db.books := by
  have inv := h.inv law
  have inv' := h'.inv law
  have agrees := h.agrees law hinj h'
  have hstored' := inv'.tip_stored
  rw [htip] at hstored'
  have heq := agrees.entry inv.tip_stored hstored'
  rw [heq] at hstored'
  have replay := h.replayInv law hfresh
  have replay' := h'.replayInv law hfresh'
  have hline := line_agrees inv.tree agrees inv.tip_stored hstored' hsame replay.line
  have hline' := replay'.line
  rw [heq] at hline'
  have hstack := hline'.unique hline
  have hbooks := replay'.books
  rw [hstack, replay.books] at hbooks
  exact ⟨heq, hstack, (Option.some.inj hbooks).symm⟩

/-- Nodes with one tip hold the same coins, heights and children, and count the same transactions,
whatever they connected and disconnected on the way and whatever else they know. -/
theorem same_tip_same_books (law : env.Lawful) (hinj : Function.Injective env.blockHash)
    (h : Reachable env c) (h' : Reachable env c') (hfresh : NoRecreate env c.notified)
    (hfresh' : NoRecreate env c'.notified) (htip : c'.tip.hash = c.tip.hash)
    (hsame : ∀ a, c.db.Ancestor c.tip a → c'.db.getBlock a.hash = c.db.getBlock a.hash) :
    c'.tip = c.tip ∧ c'.db.db.coin = c.db.db.coin ∧ c'.db.state.tx = c.db.state.tx
      ∧ c'.db.db.hash = c.db.db.hash ∧ c'.db.db.nextHash = c.db.db.nextHash := by
  obtain ⟨heq, -, hbooks⟩ :=
    (h.visited law).same_books law hinj (h'.visited law) hfresh hfresh' htip hsame
  exact ⟨heq, congrArg Books.coin hbooks, congrArg Books.tx hbooks, congrArg Books.hash hbooks,
    congrArg Books.nextHash hbooks⟩

end Chain

namespace Small

/-- The node has the first block, and no other but genesis. -/
def holdsFirst (c : Chain) : Bool :=
  c.tip.hash == blockHash first.header && decide (c.db.invalid = ∅)
    && decide (c.db.blocks.blocks.keys = {env.genesisEntry.hash, blockHash first.header})
    && decide (c.db.getBlock env.genesisEntry.hash = some env.genesisBlock)
    && decide (c.db.getBlock (blockHash first.header) = some first) && Chain.oneConnected c

theorem sameBlocks_of_holdsFirst {c c' : Chain} (h : holdsFirst c = true)
    (h' : holdsFirst c' = true) : Chain.SameBlocks c c' := by
  simp only [holdsFirst, Bool.and_eq_true, decide_eq_true_eq] at h h'
  intro hash
  by_cases hmem : hash ∈ ({env.genesisEntry.hash, blockHash first.header} : Finset BlockHash)
  · rcases Finset.mem_insert.1 hmem with rfl | hmem
    · rw [h.1.1.2, h'.1.1.2]
    · rw [Finset.mem_singleton.1 hmem, h.1.2, h'.1.2]
  · have hnone : ∀ {c : Chain}, c.db.blocks.blocks.keys
        = {env.genesisEntry.hash, blockHash first.header} → c.db.getBlock hash = none := by
      intro c hkeys
      rw [getBlock, BlockStore.readBlock, Finmap.lookup_eq_none, ← Finmap.mem_keys, hkeys]
      exact hmem
    rw [hnone h.1.1.1.2, hnone h'.1.1.1.2]

/-- Two nodes that got the first block, one of them its header first. -/
theorem exists_pair : ∃ c c', Chain.Reachable env c ∧ Chain.Reachable env c'
    ∧ holdsFirst c = true ∧ holdsFirst c' = true := by
  obtain ⟨c, hc, hP⟩ := Chain.exists_reachable env [.add 100 first] holdsFirst (by decide)
    (by decide +kernel)
  obtain ⟨c', hc', hP'⟩ := Chain.exists_reachable env
    [.addHeader 100 first.header, .add 100 first] holdsFirst (by decide) (by decide +kernel)
  exact ⟨c, c', hc, hc', hP, hP'⟩

end Small

namespace Chain

/-- The two nodes have tips of one work. -/
theorem nodes_converge_first : ∃ c c', Reachable Small.env c ∧ Reachable Small.env c'
    ∧ c'.tip.chainwork = c.tip.chainwork := by
  obtain ⟨c, c', hc, hc', hP, hP'⟩ := Small.exists_pair
  have hsame := Small.sameBlocks_of_holdsFirst hP hP'
  simp only [Small.holdsFirst, Bool.and_eq_true, decide_eq_true_eq] at hP hP'
  exact ⟨c, c', hc, hc', (nodes_converge Small.lawful Small.blockHash_injective hc hc' hsame
    hP.1.1.1.1.2 hP'.1.1.1.1.2).1⟩

/-- The two nodes hold one set of coins. -/
theorem same_tip_same_books_first : ∃ c c', Reachable Small.env c ∧ Reachable Small.env c'
    ∧ c.tip.hash = Small.blockHash Small.first.header ∧ c'.db.db.coin = c.db.db.coin := by
  obtain ⟨c, c', hc, hc', hP, hP'⟩ := Small.exists_pair
  have hsame := Small.sameBlocks_of_holdsFirst hP hP'
  simp only [Small.holdsFirst, Bool.and_eq_true, beq_iff_eq] at hP hP'
  exact ⟨c, c', hc, hc', hP.1.1.1.1.1, (same_tip_same_books Small.lawful
    Small.blockHash_injective hc hc' (.of_oneConnected hP.2) (.of_oneConnected hP'.2)
    (hP'.1.1.1.1.1.trans hP.1.1.1.1.1.symm) fun a _ => hsame a.hash).2.1⟩

end Chain

end BitcoinNode
