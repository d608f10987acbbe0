import BitcoinNode.Mempool.Node
import BitcoinNode.Indexers.FilterChain

/-!
# Filters served by hash

The index finds a block by its hash at the height at which it was connected, and serves what
stands there now. A block that was disconnected keeps its height, so once another block is
connected there the filter of that one is served under both hashes.
-/

namespace BitcoinNode

namespace FilterIndexer

open Chain

variable {bip : Bip158} {env : Env} {filters : FilterIndexer} {log : List Notification}

/-- What is found under the hash was computed when a block with that hash was connected. -/
def ServedRight (bip : Bip158) (env : Env) (log : List Notification) (filters : FilterIndexer)
    (hash : BlockHash) : Prop :=
  (∀ filter, filters.filterByHash hash = .ok (some filter) →
      ∃ r ∈ rowsOf bip env log, r.block = hash ∧ r.filter = filter)
    ∧ (∀ filterHash, filters.filterHashByBlockHash hash = .ok (some filterHash) →
      ∃ r ∈ rowsOf bip env log, r.block = hash ∧ r.filterHash = filterHash)
    ∧ ∀ header, filters.filterHeaderByHash hash = .ok (some header) →
      ∃ r ∈ rowsOf bip env log, r.block = hash ∧ r.filterHeader = header

/-- The block connected last at the height of the hash is the block with the hash, or one
whose filter, filter hash and filter header are also ones of it. -/
def Current (bip : Bip158) (env : Env) (log : List Notification) (hash : BlockHash) : Prop :=
  ∀ own last, lastWhere (·.block == hash) (rowsOf bip env log) = some own →
    lastWhere (·.height == own.height) (rowsOf bip env log) = some last →
      last.block = hash
        ∨ (∃ r ∈ rowsOf bip env log, r.block = hash ∧ r.filter = last.filter)
          ∧ (∃ r ∈ rowsOf bip env log, r.block = hash ∧ r.filterHash = last.filterHash)
          ∧ ∃ r ∈ rowsOf bip env log, r.block = hash ∧ r.filterHeader = last.filterHeader

/-- Every row is that of the genesis block or of a block that was connected. -/
theorem exists_of_mem_rowsOf {r : FilterRow} (h : r ∈ rowsOf bip env log) :
    ∃ below link, r = bip.row below link ∧
      (link = env.genesisLink ∨ ∃ s, .connect s link.entry link.block link.view ∈ log) := by
  induction log using List.reverseRecOn with
  | nil => exact ⟨[], env.genesisLink, List.mem_singleton.1 h, .inl rfl⟩
  | append_singleton log notification ih =>
    have hold : r ∈ rowsOf bip env log → ∃ below link, r = bip.row below link ∧
        (link = env.genesisLink
          ∨ ∃ s, .connect s link.entry link.block link.view ∈ log ++ [notification]) := by
      intro h
      obtain ⟨below, link, hr, hlink⟩ := ih h
      exact ⟨below, link, hr, hlink.imp_right fun ⟨s, hs⟩ => ⟨s, List.mem_append_left _ hs⟩⟩
    cases notification with
    | connect s e b v =>
      rw [rowsOf_connect] at h
      rcases List.mem_append.1 h with h | h
      · exact hold h
      · exact ⟨_, ⟨e, b, v⟩, List.mem_singleton.1 h, .inr ⟨s, by simp⟩⟩
    | disconnect s e b v => exact hold (by simpa using h)

theorem row_fits (hfit : Fitting env log) {r : FilterRow} (h : r ∈ rowsOf bip env log) :
    r.height < 2 ^ 32 ∧ r.block < 2 ^ 256 := by
  obtain ⟨below, link, rfl, rfl | ⟨s, hs⟩⟩ := exists_of_mem_rowsOf h
  · exact hfit.genesis
  · exact hfit.logged hs

/-- What an index that saw the rows serves under a hash. -/
theorem Holds.served_iff (hfit : Fitting env log) (h : filters.Holds (rowsOf bip env log))
    {hash : BlockHash} (hhash : hash < 2 ^ 256) :
    filters.ServedRight bip env log hash ↔ Current bip env log hash := by
  unfold ServedRight Current filterByHash filterHashByBlockHash filterHeaderByHash
  simp only [h.byHash hhash]
  cases hown : lastWhere (·.block == hash) (rowsOf bip env log) with
  | none => simp
  | some own =>
    obtain ⟨hmem, hblock⟩ := mem_of_lastWhere hown
    obtain ⟨last, hlast⟩ := exists_lastWhere (p := (·.height == own.height)) hmem (by simp)
    have hheight := (row_fits hfit hmem).1
    have hlast' := (mem_of_lastWhere hlast).1
    simp only [h.filterByHeight hheight, h.filterHashByHeight hheight,
      h.filterHeaderByHeight hheight, hlast, Option.map_some, Except.ok.injEq, Option.some.injEq,
      forall_eq']
    constructor
    · rintro h own' last' rfl hlast''
      cases hlast.symm.trans hlast''
      exact .inr h
    · intro h
      rcases h own last rfl hlast with heq | h
      · exact ⟨⟨last, hlast', heq, rfl⟩, ⟨last, hlast', heq, rfl⟩, last, hlast', heq, rfl⟩
      · exact h

/-- What is found under the hash of a block is its own exactly as long as no other block was
connected at its height since, unless that one has the same filter data. -/
theorem servedRight_iff (law : env.Lawful) {c : Chain} (h : Visited env c)
    (hfit : Fitting env c.notified) (hrun : run bip env c.notified = .ok filters)
    {hash : BlockHash} (hhash : hash < 2 ^ 256) :
    filters.ServedRight bip env c.notified hash ↔ Current bip env c.notified hash := by
  obtain ⟨filters', hrun', hholds⟩ | ⟨hrun', -⟩ :=
    @run_eq bip _ _ _ _ law (h.inv law).tree hfit (h.told law)
  · cases hrun.symm.trans hrun'
    exact hholds.served_iff hfit hhash
  · rw [hrun] at hrun'
    cases hrun'

end FilterIndexer

/-! ## A chain that replaces a block -/

namespace Small

open Chain

/-- Spends the first coinbase. -/
def paidBlock : Block := numberedBlock 101 [reward 101, deposit]
/-- A block in the same place, with another script. -/
def siblingBlock : Block :=
  block 101 122 102 [{ coinbase 101 0 with output := [⟨4000000000, [0x51]⟩] }]
/-- A block above it. -/
def heavierBlock : Block := block 103 123 103 [reward 102]

/-- The acts of a node that downloads a branch of two blocks and then switches to it. -/
def replacingActs : List Node.Act :=
  ((List.range 100).map fun n => numberedBlock (n + 1) [reward (n + 1)]).flatMap connectActs
    ++ connectActs paidBlock ++ [Node.Act.header siblingBlock.header, .block 103 siblingBlock,
      .header heavierBlock.header, .block 104 heavierBlock, .disconnect, .connect 103, .connect 104]

/-- The scripts that a view has for what the transactions besides the coinbase spend. -/
def spentScripts (b : Block) (scripts : OutPoint → Option Script) : List (Option Script) :=
  (b.txdata.tail.flatMap Transaction.input).map fun input => scripts input.previousOutput

/-- What is told of a block. -/
structure Told where
  connected : Bool
  hash : BlockHash
  height : Nat
  block : Block
  scripts : List (Option Script)
  deriving DecidableEq

def told : Notification → Told
  | .connect _ e b v => ⟨true, e.hash, e.height, b, spentScripts b (FilterIndexer.scriptForCoin v)⟩
  | .disconnect _ e b v =>
    ⟨false, e.hash, e.height, b, spentScripts b (FilterIndexer.scriptForCoin v)⟩

/-- A hundred blocks, then one that is replaced. -/
def replacing : List Told :=
  ((List.range 100).map fun n =>
      ⟨true, n + 2, n + 1, numberedBlock (n + 1) [reward (n + 1)], []⟩)
    ++ [⟨true, 102, 101, paidBlock, [some []]⟩, ⟨false, 102, 101, paidBlock, [some []]⟩,
      ⟨true, 103, 101, siblingBlock, []⟩, ⟨true, 104, 102, heavierBlock, []⟩]

/-- Whether a node has told of these blocks and stands on the second of the new ones. -/
def hasReplaced (n : Node) : Bool :=
  decide (n.chain.notified.map told = replacing ∧ n.chain.tip.height = 102)

set_option maxRecDepth 20000 in
theorem rewards_eq : (List.range 100).map (fun n => numberedBlock (n + 1) [reward (n + 1)])
    = (List.range 100).map fun k => forkLine.block (k + 1) := by decide +kernel

set_option maxRecDepth 20000 in
theorem exists_replacing : ∃ c, Visited paying c ∧ c.notified.map told = replacing
    ∧ c.tip.height = 102 := by
  obtain ⟨n, hn, hP⟩ := Node.exists_visited paying 1000 replacingActs hasReplaced (by
    rw [replacingActs, rewards_eq, List.append_assoc, ← straightActs_eq paying_plain]
    refine (Node.map_run_straight rfl (fun k hk => forkLine_extends k (hk.trans (by decide)))
      _ _).trans ?_
    decide +kernel)
  exact ⟨n.chain, hn.chain, of_decide_eq_true hP⟩

variable {log : List Notification} {s : Snapshot} {e : ChainEntry} {b : Block} {v : CoinView}

theorem mem_replacing (h : log.map told = replacing) (hmem : .connect s e b v ∈ log) :
    ⟨true, e.hash, e.height, b, spentScripts b (FilterIndexer.scriptForCoin v)⟩ ∈ replacing :=
  h ▸ List.mem_map_of_mem (f := told) hmem

theorem fitting_replacing (h : log.map told = replacing) : Fitting paying log := by
  refine ⟨⟨by decide, by decide⟩, fun {s e b v} hmem => ?_⟩
  have hall : ∀ t ∈ replacing, t.height < 2 ^ 32 ∧ t.hash < 2 ^ 256 := by decide +kernel
  exact hall _ (mem_replacing h hmem)

/-- A filter that lists the scripts of a block instead of coding them. -/
def listScripts (block : Block) (spent : List (Option Script)) : Option (List UInt8) :=
  if spent.all Option.isSome then
    let elements := (((block.txdata.flatMap Transaction.output).map TxOut.scriptPubkey).filter
        (fun script => script.head? != some 0x6a)
      ++ spent.reduceOption).filter fun script => !script.isEmpty
    some (UInt8.ofNat elements.dedup.length :: elements.dedup.flatten)
  else none

def filters : Bip158 where
  newScriptFilter block scripts := listScripts block (spentScripts block scripts)
  filterHash content := scriptCode content
  filterHeader hash previous := Nat.pair hash previous + 1

theorem filters_builds : filters.Builds := by
  intro block scripts h
  have hall : (spentScripts block scripts).all Option.isSome = true := by
    rw [spentScripts, List.all_map, List.all_eq_true]
    simp only [List.mem_flatMap]
    rintro input ⟨tx, htx, hinput⟩
    exact h tx htx input hinput
  simp only [filters, listScripts, hall, if_true, Option.isSome_some]

end Small

namespace FilterIndexer

open Chain

/-- The filter headers of a main chain that has replaced a block. -/
theorem filterHeaders_mainChain_replacing : ∃ c : Chain, c.tip.height = 102 ∧
    ∃ indexer, run Small.filters Small.paying c.notified = .ok indexer ∧
      ∀ height, 1 ≤ height → height ≤ c.tip.height → ∃ link content previous,
        (linksOf c.notified)[height - 1]? = some link
        ∧ c.db.getEntryByHeight height = .ok (some link.entry)
        ∧ c.db.getBlock link.entry.hash = some link.block
        ∧ Small.filters.newScriptFilter link.block (scriptForCoin link.view) = some content
        ∧ indexer.filterByHeight height = .ok (some ⟨content⟩)
        ∧ indexer.filterHashByHeight height = .ok (some (Small.filters.filterHash content))
        ∧ indexer.filterHeaderByHeight (height - 1) = .ok (some previous)
        ∧ indexer.filterHeaderByHeight height
            = .ok (some
              (Small.filters.filterHeader (Small.filters.filterHash content) previous)) := by
  obtain ⟨c, hc, htold, hheight⟩ := Small.exists_replacing
  exact ⟨c, hheight, filterHeaders_mainChain Small.paying_lawful Small.filters_builds rfl hc
    (Small.fitting_replacing htold)⟩

/-- What is found under a hash in an index that saw a block replaced. -/
theorem servedRight_iff_replacing : ∃ c, Visited Small.paying c ∧ ∃ indexer,
    run Small.filters Small.paying c.notified = .ok indexer
      ∧ (indexer.ServedRight Small.filters Small.paying c.notified 103
        ↔ Current Small.filters Small.paying c.notified 103) := by
  obtain ⟨c, hc, htold, -⟩ := Small.exists_replacing
  have hfit := Small.fitting_replacing htold
  have hbuilt := allBuilt Small.paying_lawful Small.filters_builds rfl hc
  obtain ⟨indexer, hrun, -⟩ | ⟨-, hnot⟩ := @run_eq Small.filters _ _ _ _ Small.paying_lawful
    (hc.inv Small.paying_lawful).tree hfit (hc.told Small.paying_lawful)
  · exact ⟨c, hc, indexer, hrun, servedRight_iff Small.paying_lawful hc hfit hrun (by decide)⟩
  · exact absurd hbuilt hnot

/-- After a block is replaced, the filter of its successor is served under its hash. -/
theorem exists_not_servedRight : ∃ c, Visited Small.paying c ∧ ∃ indexer,
    run Small.filters Small.paying c.notified = .ok indexer
      ∧ ¬ indexer.ServedRight Small.filters Small.paying c.notified 102 := by
  obtain ⟨c, hc, htold, -⟩ := Small.exists_replacing
  have hfit := Small.fitting_replacing htold
  have hbuilt := allBuilt Small.paying_lawful Small.filters_builds rfl hc
  obtain ⟨indexer, hrun, hholds⟩ | ⟨-, hnot⟩ := @run_eq Small.filters _ _ _ _ Small.paying_lawful
    (hc.inv Small.paying_lawful).tree hfit (hc.told Small.paying_lawful)
  swap
  · exact absurd hbuilt hnot
  refine ⟨c, hc, indexer, hrun, fun hserved => ?_⟩
  have hcurrent := (hholds.served_iff hfit (by decide)).1 hserved
  -- every row of the replaced block lists no script
  have hrows : ∀ r ∈ rowsOf Small.filters Small.paying c.notified, r.block = 102 →
      r.height = 101 ∧ r.filter = ⟨[0]⟩ := by
    intro r hr hblock
    obtain ⟨below, link, rfl, rfl | ⟨s, hs⟩⟩ := exists_of_mem_rowsOf hr
    · exact absurd hblock (show (1 : Nat) ≠ 102 by decide)
    · have hall : ∀ t ∈ Small.replacing, t.hash = 102 → t.height = 101 ∧ t.block = Small.paidBlock
          ∧ t.scripts = [some []] := by decide +kernel
      obtain ⟨hheight, hpaid, hscripts⟩ := hall _ (Small.mem_replacing htold hs) hblock
      refine ⟨hheight, congrArg BlockFilter.mk ?_⟩
      dsimp only at hpaid hscripts
      simp only [Bip158.content, Small.filters]
      rw [hscripts, hpaid]
      decide +kernel
  -- the last row at its height is that of the block in its place
  obtain ⟨front, back, hsplit, -, hback⟩ := List.map_eq_append_iff.1 htold
  obtain ⟨n₁, _, rfl, h₁, hback⟩ := List.map_eq_cons_iff.1 hback
  obtain ⟨n₂, _, rfl, h₂, hback⟩ := List.map_eq_cons_iff.1 hback
  obtain ⟨n₃, _, rfl, h₃, hback⟩ := List.map_eq_cons_iff.1 hback
  obtain ⟨n₄, _, rfl, h₄, hback⟩ := List.map_eq_cons_iff.1 hback
  obtain rfl := List.map_eq_nil_iff.1 hback
  cases n₁ with
  | disconnect => cases h₁
  | connect s₁ e₁ b₁ v₁ =>
  cases n₂ with
  | connect => cases h₂
  | disconnect s₂ e₂ b₂ v₂ =>
  cases n₃ with
  | disconnect => cases h₃
  | connect s₃ e₃ b₃ v₃ =>
  cases n₄ with
  | disconnect => cases h₄
  | connect s₄ e₄ b₄ v₄ =>
  simp only [Small.told, Small.Told.mk.injEq, true_and] at h₁ h₃ h₄
  have hlog : c.notified = front ++ [Notification.connect s₁ e₁ b₁ v₁]
      ++ [Notification.disconnect s₂ e₂ b₂ v₂] ++ [Notification.connect s₃ e₃ b₃ v₃]
      ++ [Notification.connect s₄ e₄ b₄ v₄] := by simp [hsplit]
  have hlast : ∃ last, lastWhere (·.height == 101) (rowsOf Small.filters Small.paying c.notified)
      = some last ∧ last.block = 103 ∧ last.filter = ⟨[1, 0x51]⟩ := by
    rw [hlog, rowsOf_connect, lastWhere_concat, if_neg (by simp [Bip158.row, h₄.2.1]),
      rowsOf_connect, lastWhere_concat, if_pos (by simp [Bip158.row, h₃.2.1])]
    refine ⟨_, rfl, h₃.1, congrArg BlockFilter.mk ?_⟩
    simp only [Bip158.content, Small.filters]
    rw [h₃.2.2.2, h₃.2.2.1]
    decide +kernel
  obtain ⟨last, hlast, hsibling, hfilter⟩ := hlast
  obtain ⟨own, hown⟩ : ∃ own,
      lastWhere (·.block == 102) (rowsOf Small.filters Small.paying c.notified) = some own := by
    refine exists_lastWhere (a := Small.filters.row (mainOf Small.paying front) ⟨e₁, b₁, v₁⟩) ?_
      (by simp [Bip158.row, h₁.1])
    rw [hlog, rowsOf_connect, rowsOf_connect, rowsOf_disconnect, rowsOf_connect]
    simp
  obtain ⟨hmem, hblock⟩ := mem_of_lastWhere hown
  rw [← (hrows own hmem (beq_iff_eq.1 hblock)).1] at hlast
  rcases hcurrent own last hown hlast with heq | ⟨⟨r, hr, hblock, heq⟩, -⟩
  · rw [hsibling] at heq
    cases heq
  · rw [hfilter, (hrows r hr hblock).2] at heq
    cases heq

end FilterIndexer

end BitcoinNode
