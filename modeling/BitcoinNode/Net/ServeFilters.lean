import BitcoinNode.Blockchain.Agreement
import BitcoinNode.Blockchain.Counters
import BitcoinNode.Blockchain.HashRange
import BitcoinNode.Indexers.FilterServed

/-!
# Serving filters

`handle_get_cfheaders` and `handle_get_cfilters` of `net/peer_manager.rs`. What is served for a
block of the main chain commits to the header that the index has for it: whoever starts from the
header that was sent and adds the hashes of the filters one by one gets there.
-/

namespace BitcoinNode

/-- How a request for filters ends early: by `bail!`, by a panic of the chain or of the index, by an
`unwrap` of nothing, or by the assertion on the numbers of hashes and filters. -/
inductive FilterHalt where
  | error (text : String)
  | panic (p : Panic)
  | unwrap
  | lengths
  deriving DecidableEq, Repr

structure CFHeaders where
  filterHashes : List FilterHash
  previousFilterHeader : FilterHeader
  stopHash : BlockHash
  filterType : Nat
  deriving DecidableEq, Repr

structure CFilter where
  blockHash : BlockHash
  filter : List UInt8
  filterType : Nat
  deriving DecidableEq, Repr

/-- A filter is made of the block and the scripts of what it spends. -/
def Bip158.Reads (bip : Bip158) : Prop :=
  ∀ block scripts scripts', (∀ tx ∈ block.txdata.tail, ∀ input ∈ tx.input,
    scripts input.previousOutput = scripts' input.previousOutput) →
      bip.newScriptFilter block scripts = bip.newScriptFilter block scripts'

namespace FilterIndexer

/-- `unwrap` on what the index returns -/
def unwrap {α : Type} : Except Panic (Option α) → Except FilterHalt α
  | .error p => .error (.panic p)
  | .ok none => .error .unwrap
  | .ok (some a) => .ok a

def filtersByBlockHashes (filters : FilterIndexer) (hashes : List BlockHash) :
    Except FilterHalt (List BlockFilter) :=
  hashes.mapM fun hash => unwrap (filters.filterByHash hash)

def filterHashesByBlockHashes (filters : FilterIndexer) (hashes : List BlockHash) :
    Except FilterHalt (List FilterHash) :=
  hashes.mapM fun hash => unwrap (filters.filterHashByBlockHash hash)

end FilterIndexer

namespace Chain

/-- The hashes of a range, as the handlers ask for them. -/
def filterRange (c : Chain) (startHeight : Nat) (stopHash : BlockHash) (maxResults : Nat) :
    Except FilterHalt (List BlockHash) :=
  match c.heightToHashRange startHeight stopHash maxResults with
  | .error p => .error (.panic p)
  | .ok hashes => .ok hashes

/-- The header that the answer to `getcfheaders` starts from. -/
def previousHeader (c : Chain) (filters : FilterIndexer) (startHeight : Nat) :
    Except FilterHalt FilterHeader :=
  if startHeight > 0 then
    match c.db.getEntryByHeight (startHeight - 1) with
    | .error p => .error (.panic p)
    | .ok none => .error .unwrap
    | .ok (some entry) => FilterIndexer.unwrap (filters.filterHeaderByHash entry.hash)
  else .ok 0

def handleGetCfheaders (c : Chain) (filterIndex : Option FilterIndexer)
    (filterType startHeight : Nat) (stopHash : BlockHash) : Except FilterHalt (Option CFHeaders) :=
  if filterType ≠ 0 then .error (.error "bad filter type")
  else
    match filterIndex with
    | none => .ok none
    | some filters => do
      let hashes ← c.filterRange startHeight stopHash 2000
      let filterHashes ← filters.filterHashesByBlockHashes hashes
      let previousFilterHeader ← c.previousHeader filters startHeight
      return some ⟨filterHashes, previousFilterHeader, stopHash, filterType⟩

def handleGetCfilters (c : Chain) (filterIndex : Option FilterIndexer)
    (filterType startHeight : Nat) (stopHash : BlockHash) : Except FilterHalt (List CFilter) :=
  if filterType ≠ 0 then .error (.error "bad filter type")
  else
    match filterIndex with
    | none => .ok []
    | some filters => do
      let hashes ← c.filterRange startHeight stopHash 1000
      let found ← filters.filtersByBlockHashes hashes
      if hashes.length ≠ found.length then throw .lengths
      return (hashes.zip found).map fun (hash, filter) => ⟨hash, filter.content, filterType⟩

end Chain

/-! ## The rows of the main chain -/

namespace FilterIndexer

open Chain

variable {bip : Bip158} {env : Env} {db : ChainDB} {tip : ChainEntry} {log : List Notification}
  {filters : FilterIndexer} {i : Nat} {link : Link}

/-- The hash of a block of the main chain leads to its height. -/
theorem Holds.byHash_mainOf {α : Type} (tree : db.Tree env)
    (htold : ChainDB.Told db env.genesisEntry log tip) (hfit : Fitting env log)
    (h : filters.Holds (rowsOf bip env log)) (hlink : (mainOf env log)[i]? = some link)
    (byHeight : Nat → Except Panic (Option α)) :
    filters.byHash byHeight link.entry.hash = byHeight i := by
  have hrecorded := @ChainDB.Told.recorded bip _ _ _ _ tree htold
  obtain ⟨hmem, hheight⟩ := mem_of_lastWhere (hrecorded.main hlink)
  obtain ⟨r, hr⟩ := exists_lastWhere (p := (·.block == link.entry.hash)) hmem (by simp [Bip158.row])
  obtain ⟨hmem', hblock⟩ := mem_of_lastWhere hr
  -- both rows are of the one block stored under the hash
  obtain ⟨e, he, hown⟩ := hrecorded.stored hmem
  obtain ⟨e', he', hlast⟩ := hrecorded.stored hmem'
  rw [beq_iff_eq.1 hblock] at he'
  cases he.symm.trans he'
  have hhash : link.entry.hash < 2 ^ 256 := (row_fits hfit hmem).2
  rw [h.byHash hhash, hr]
  dsimp only
  rw [← hlast, hown, beq_iff_eq.1 hheight]

/-- What the index serves for a block of the main chain. -/
theorem Holds.served_mainOf (tree : db.Tree env)
    (htold : ChainDB.Told db env.genesisEntry log tip) (hfit : Fitting env log)
    (h : filters.Holds (rowsOf bip env log)) (hlink : (mainOf env log)[i]? = some link) :
    filters.filterByHash link.entry.hash = .ok (some ⟨bip.content link⟩)
      ∧ filters.filterHashByBlockHash link.entry.hash
        = .ok (some (bip.filterHash (bip.content link)))
      ∧ filters.filterHeaderByHash link.entry.hash
        = .ok (some (bip.headerChain ((mainOf env log).take (i + 1)))) := by
  have hrow := (@ChainDB.Told.recorded bip _ _ _ _ tree htold).main hlink
  obtain ⟨hmem, hheight⟩ := mem_of_lastWhere hrow
  have hfits := (row_fits hfit hmem).1
  rw [beq_iff_eq.1 hheight] at hfits
  refine ⟨?_, ?_, ?_⟩
  · rw [filterByHash, h.byHash_mainOf tree htold hfit hlink, h.filterByHeight hfits, hrow]
    rfl
  · rw [filterHashByBlockHash, h.byHash_mainOf tree htold hfit hlink, h.filterHashByHeight hfits,
      hrow]
    rfl
  · rw [filterHeaderByHash, h.byHash_mainOf tree htold hfit hlink, h.filterHeaderByHeight hfits,
      hrow, List.take_add_one, hlink, Option.toList_some, Bip158.headerChain_concat]
    rfl

end FilterIndexer

namespace Chain

variable {bip : Bip158} {env : Env} {c : Chain} {filters : FilterIndexer} {e : ChainEntry}
  {startHeight n : Nat} {link : Link}

/-- The block of the main chain at a height is the one that was connected there. -/
theorem Visited.exists_mainOf (law : env.Lawful) (h : Visited env c)
    (he : c.db.getEntryByHash e.hash = some e) (hmain : c.db.isMainChain e = true) :
    ∃ link, (mainOf env c.notified)[e.height]? = some link ∧ link.entry = e := by
  have inv := h.inv law
  have hlookup := ChainDB.isMainChain_iff.1 hmain
  have hle := inv.main.lookup_le hlookup
  cases hheight : e.height with
  | zero =>
    obtain rfl := inv.tree.rooted.eq_root_of_rank he hheight
    exact ⟨env.genesisLink, rfl, rfl⟩
  | succ n =>
    have hlength := (h.told law).height_eq inv.tree
    rw [hheight] at hlookup hle
    obtain ⟨link, hlink⟩ : ∃ link, (linksOf c.notified)[n]? = some link :=
      ⟨_, List.getElem?_eq_getElem (by omega)⟩
    refine ⟨link, by simpa [mainOf] using hlink, ?_⟩
    obtain ⟨-, hat, -⟩ := h.getElem_linksOf law hlink
    rw [ChainDB.getEntryByHeight, hlookup] at hat
    dsimp only at hat
    rw [show c.db.entryCache.hash.lookup e.hash = some e from he] at hat
    exact (Option.some.inj (Except.ok.inj hat)).symm

/-- The blocks below a block of the main chain are the ones that were connected there. -/
theorem Visited.exists_mainOf_below (law : env.Lawful) (h : Visited env c)
    (he : c.db.getEntryByHash e.hash = some e) (hmain : c.db.isMainChain e = true)
    {a : ChainEntry} (ha : c.db.Ancestor e a) :
    ∃ link, (mainOf env c.notified)[a.height]? = some link ∧ link.entry = a
      ∧ c.db.getEntryByHeight a.height = .ok (some a) := by
  have inv := h.inv law
  have hastored := ha.stored inv.tree he
  have hamain : c.db.isMainChain a = true :=
    (inv.main.isMainChain_iff_ancestor inv.tree inv.tip_stored hastored).2
      (((inv.main.isMainChain_iff_ancestor inv.tree inv.tip_stored he).1 hmain).trans ha)
  obtain ⟨link, hlink, heq⟩ := h.exists_mainOf law hastored hamain
  refine ⟨link, hlink, heq, ?_⟩
  rw [ChainDB.getEntryByHeight, ChainDB.isMainChain_iff.1 hamain]
  dsimp only
  rw [show c.db.entryCache.hash.lookup a.hash = some a from hastored]

/-- The blocks of the main chain from a height to another. -/
def between (env : Env) (log : List Notification) (startHeight stopHeight : Nat) : List Link :=
  ((mainOf env log).take (stopHeight + 1)).drop startHeight

theorem getElem?_between (startHeight stopHeight : Nat) (hn : startHeight + n ≤ stopHeight) :
    (between env c.notified startHeight stopHeight)[n]?
      = (mainOf env c.notified)[startHeight + n]? := by
  rw [between, List.getElem?_drop, List.getElem?_take_of_lt (by omega)]

theorem Visited.length_between (law : env.Lawful) (h : Visited env c)
    (hmain : c.db.isMainChain e = true) (hle : startHeight ≤ e.height) :
    (between env c.notified startHeight e.height).length = e.height - startHeight + 1 := by
  have inv := h.inv law
  have hheight := (h.told law).height_eq inv.tree
  have hbelow := inv.main.lookup_le (ChainDB.isMainChain_iff.1 hmain)
  simp only [between, List.length_drop, List.length_take, mainOf, List.length_cons]
  omega

theorem Visited.listsBranch_between (law : env.Lawful) (h : Visited env c)
    (he : c.db.getEntryByHash e.hash = some e) (hmain : c.db.isMainChain e = true)
    (hle : startHeight ≤ e.height) :
    c.ListsBranch startHeight e
      ((between env c.notified startHeight e.height).map fun link => link.entry.hash) := by
  have tree := (h.inv law).tree
  have hlength := h.length_between law hmain hle
  refine ⟨by rw [List.length_map, hlength], fun i hi => ?_⟩
  rw [List.length_map, hlength] at hi
  obtain ⟨a, ha⟩ := tree.rooted.exists_climb he (n := e.height - (startHeight + i)) (by omega)
  have hheight := tree.rooted.rank_climb he ha
  obtain ⟨link, hlink, rfl, -⟩ :=
    h.exists_mainOf_below law he hmain (Forest.ancestor_of_climb ha)
  have hat : link.entry.height = startHeight + i := by omega
  refine ⟨link.entry, Forest.ancestor_of_climb ha, hat, ?_⟩
  rw [List.getElem?_map, getElem?_between _ _ (by omega), ← hat, hlink]
  rfl

/-- A range on the main chain is listed as the blocks that were connected there. -/
theorem Visited.heightToHashRange_eq (law : env.Lawful) (h : Visited env c)
    (he : c.db.getEntryByHash e.hash = some e) (hmain : c.db.isMainChain e = true)
    {maxResults : Nat} (hstart : 0 < startHeight) (hlt : startHeight < e.height)
    (hmax : e.height - startHeight + 1 ≤ maxResults) :
    c.heightToHashRange startHeight e.hash maxResults
      = .ok ((between env c.notified startHeight e.height).map fun link => link.entry.hash) := by
  have tree := (h.inv law).tree
  obtain ⟨branch, hrun, hlength, hbranch⟩ :=
    @ChainDB.hashesDown_eq env c.db e e.hash (e.height - startHeight + 1) [] tree he (by omega)
  rw [heightToHashRange, he]
  dsimp only
  rw [if_neg (not_not.2 hlt), if_neg (not_not.2 hmax), hrun, List.append_nil]
  obtain ⟨hsame, hlists⟩ := h.listsBranch_between law he hmain hlt.le
  refine congrArg Except.ok (List.ext_getElem (hlength.trans hsame.symm) fun i hi hi' => ?_)
  obtain ⟨a, ha, hheight, hget⟩ := hbranch i (by omega)
  obtain ⟨b, hb, hheight', hget'⟩ := hlists i hi'
  obtain rfl := tree.rooted.ancestor_unique he ha hb (by omega)
  rw [List.getElem?_eq_getElem hi] at hget
  rw [List.getElem?_eq_getElem hi'] at hget'
  exact Option.some.inj (hget.trans hget'.symm)

/-- The panic of a range that is not listed. -/
def rangePanic (startHeight stopHeight maxResults : Nat) : Panic :=
  if ¬ startHeight < stopHeight then .rangeStart
  else if ¬ stopHeight - startHeight + 1 ≤ maxResults then .rangeLength
  else .rangeEntry

theorem Visited.heightToHashRange_panics (law : env.Lawful) (h : Visited env c)
    (he : c.db.getEntryByHash e.hash = some e) {maxResults : Nat}
    (hout : ¬ (0 < startHeight ∧ startHeight < e.height
      ∧ e.height - startHeight + 1 ≤ maxResults)) :
    c.heightToHashRange startHeight e.hash maxResults
      = .error (rangePanic startHeight e.height maxResults) := by
  rw [heightToHashRange, he, rangePanic]
  dsimp only
  split_ifs with hlt hmax
  · exact ChainDB.hashesDown_panics (h.inv law).tree he (by omega)
  · rfl
  · rfl

/-! ## What is answered -/

theorem mem_between {stopHeight : Nat}
    (hlink : link ∈ between env c.notified startHeight stopHeight) :
    ∃ i : Nat, (mainOf env c.notified)[i]? = some link :=
  List.mem_iff_getElem?.1 (List.mem_of_mem_take (List.mem_of_mem_drop hlink))

/-- The index of a chain holds the rows of what the chain told. -/
theorem Visited.holds (law : env.Lawful) (h : Visited env c) (hfit : Fitting env c.notified)
    (hrun : FilterIndexer.run bip env c.notified = .ok filters) :
    filters.Holds (rowsOf bip env c.notified) := by
  obtain ⟨filters', hrun', hholds⟩ | ⟨hrun', -⟩ :=
    @FilterIndexer.run_eq bip _ _ _ _ law (h.inv law).tree hfit (h.told law)
  · cases hrun.symm.trans hrun'
    exact hholds
  · rw [hrun] at hrun'
    cases hrun'

theorem Visited.handleGetCfheaders_eq (law : env.Lawful) (h : Visited env c)
    (hfit : Fitting env c.notified)
    (hrun : FilterIndexer.run bip env c.notified = .ok filters)
    (he : c.db.getEntryByHash e.hash = some e) (hmain : c.db.isMainChain e = true)
    (hstart : 0 < startHeight) (hlt : startHeight < e.height)
    (hmax : e.height - startHeight + 1 ≤ 2000) :
    c.handleGetCfheaders (some filters) 0 startHeight e.hash = .ok (some
      ⟨(between env c.notified startHeight e.height).map fun link =>
          bip.filterHash (bip.content link),
        bip.headerChain ((mainOf env c.notified).take startHeight), e.hash, 0⟩) := by
  have inv := h.inv law
  have hholds := h.holds law hfit hrun
  have hserved {i : Nat} {link : Link} (hlink : (mainOf env c.notified)[i]? = some link) :=
    hholds.served_mainOf inv.tree (h.told law) hfit hlink
  have hhashes : filters.filterHashesByBlockHashes
      ((between env c.notified startHeight e.height).map fun link => link.entry.hash)
      = .ok ((between env c.notified startHeight e.height).map fun link =>
          bip.filterHash (bip.content link)) := by
    refine mapM_map_eq_ok fun link hlink => ?_
    obtain ⟨i, hi⟩ := mem_between hlink
    rw [(hserved hi).2.1]
    rfl
  -- the block below the range
  obtain ⟨a, ha⟩ := inv.tree.rooted.exists_climb he (n := e.height - (startHeight - 1)) (by omega)
  have hheight := inv.tree.rooted.rank_climb he ha
  obtain ⟨link, hlink, rfl, hat⟩ :=
    h.exists_mainOf_below law he hmain (Forest.ancestor_of_climb ha)
  have hbelow : link.entry.height = startHeight - 1 := by omega
  rw [hbelow] at hlink hat
  have hprevious : c.previousHeader filters startHeight
      = .ok (bip.headerChain ((mainOf env c.notified).take startHeight)) := by
    rw [previousHeader, if_pos hstart, hat]
    dsimp only
    rw [(hserved hlink).2.2, Nat.sub_add_cancel hstart]
    rfl
  rw [handleGetCfheaders, if_neg (not_not.2 rfl), filterRange,
    h.heightToHashRange_eq law he hmain hstart hlt hmax]
  dsimp only
  rw [bind_of_ok rfl, hhashes, bind_of_ok rfl, hprevious]
  rfl

theorem Visited.handleGetCfheaders_panics (law : env.Lawful) (h : Visited env c)
    (he : c.db.getEntryByHash e.hash = some e)
    (hout : ¬ (0 < startHeight ∧ startHeight < e.height ∧ e.height - startHeight + 1 ≤ 2000)) :
    c.handleGetCfheaders (some filters) 0 startHeight e.hash
      = .error (.panic (rangePanic startHeight e.height 2000)) := by
  rw [handleGetCfheaders, if_neg (not_not.2 rfl), filterRange,
    h.heightToHashRange_panics law he hout]
  rfl

theorem Visited.handleGetCfilters_eq (law : env.Lawful) (h : Visited env c)
    (hfit : Fitting env c.notified)
    (hrun : FilterIndexer.run bip env c.notified = .ok filters)
    (he : c.db.getEntryByHash e.hash = some e) (hmain : c.db.isMainChain e = true)
    (hstart : 0 < startHeight) (hlt : startHeight < e.height)
    (hmax : e.height - startHeight + 1 ≤ 1000) :
    c.handleGetCfilters (some filters) 0 startHeight e.hash
      = .ok ((between env c.notified startHeight e.height).map fun link =>
          ⟨link.entry.hash, bip.content link, 0⟩) := by
  have inv := h.inv law
  have hholds := h.holds law hfit hrun
  have hfilters : filters.filtersByBlockHashes
      ((between env c.notified startHeight e.height).map fun link => link.entry.hash)
      = .ok ((between env c.notified startHeight e.height).map fun link =>
          ⟨bip.content link⟩) := by
    refine mapM_map_eq_ok fun link hlink => ?_
    obtain ⟨i, hi⟩ := mem_between hlink
    rw [(hholds.served_mainOf inv.tree (h.told law) hfit hi).1]
    rfl
  rw [handleGetCfilters, if_neg (not_not.2 rfl), filterRange,
    h.heightToHashRange_eq law he hmain hstart hlt hmax]
  dsimp only
  rw [bind_of_ok rfl, hfilters, bind_of_ok rfl, if_neg (by simp), List.zip_map', List.map_map]
  rfl

theorem Visited.handleGetCfilters_panics (law : env.Lawful) (h : Visited env c)
    (he : c.db.getEntryByHash e.hash = some e)
    (hout : ¬ (0 < startHeight ∧ startHeight < e.height ∧ e.height - startHeight + 1 ≤ 1000)) :
    c.handleGetCfilters (some filters) 0 startHeight e.hash
      = .error (.panic (rangePanic startHeight e.height 1000)) := by
  rw [handleGetCfilters, if_neg (not_not.2 rfl), filterRange,
    h.heightToHashRange_panics law he hout]
  rfl

/-- The header of a block of a range is that of the block below the range and the filter hashes
from there on. -/
theorem headerChain_between {stopHeight : Nat} (hle : startHeight ≤ stopHeight + 1) :
    ((between env c.notified startHeight stopHeight).map fun link =>
        bip.filterHash (bip.content link)).foldl
        (fun previous hash => bip.filterHeader hash previous)
        (bip.headerChain ((mainOf env c.notified).take startHeight))
      = bip.headerChain ((mainOf env c.notified).take (stopHeight + 1)) := by
  rw [List.foldl_map, Bip158.headerChain, ← List.foldl_append, between]
  have htake : (mainOf env c.notified).take startHeight
      = ((mainOf env c.notified).take (stopHeight + 1)).take startHeight := by
    rw [List.take_take, min_eq_left hle]
  rw [htake, List.take_append_drop, Bip158.headerChain]

theorem between_take {stopHeight : Nat} (hfrom : startHeight ≤ n) (hle : n ≤ stopHeight) :
    (between env c.notified startHeight stopHeight).take (n + 1 - startHeight)
      = between env c.notified startHeight n := by
  rw [between, between, List.take_drop, List.take_take, Nat.add_sub_cancel' (by omega),
    min_eq_left (by omega)]

/-- What an answer with filter hashes says about the blocks up to the one it stops at. -/
structure Commits (bip : Bip158) (c : Chain) (filters : FilterIndexer) (startHeight : Nat)
    (e : ChainEntry) (answer : CFHeaders) : Prop where
  stop : answer.stopHash = e.hash
  length : answer.filterHashes.length = e.height - startHeight + 1
  previous {a : ChainEntry} : c.db.Ancestor e a → a.height + 1 = startHeight →
    filters.filterHeaderByHash a.hash = .ok (some answer.previousFilterHeader)
  hash {a : ChainEntry} : c.db.Ancestor e a → startHeight ≤ a.height →
    filters.filterHashByBlockHash a.hash = .ok answer.filterHashes[a.height - startHeight]?
  /-- The header of a block is that of the first one and the hashes up to its own. -/
  header {a : ChainEntry} : c.db.Ancestor e a → startHeight ≤ a.height →
    filters.filterHeaderByHash a.hash
      = .ok (some ((answer.filterHashes.take (a.height + 1 - startHeight)).foldl
          (fun previous hash => bip.filterHeader hash previous) answer.previousFilterHeader))

theorem Visited.commits (law : env.Lawful) (h : Visited env c) (hfit : Fitting env c.notified)
    (hrun : FilterIndexer.run bip env c.notified = .ok filters)
    (he : c.db.getEntryByHash e.hash = some e) (hmain : c.db.isMainChain e = true)
    (hlt : startHeight < e.height) :
    Commits bip c filters startHeight e
      ⟨(between env c.notified startHeight e.height).map fun link =>
          bip.filterHash (bip.content link),
        bip.headerChain ((mainOf env c.notified).take startHeight), e.hash, 0⟩ := by
  have inv := h.inv law
  have hserved {a : ChainEntry} (ha : c.db.Ancestor e a) :
      ∃ link, (mainOf env c.notified)[a.height]? = some link
        ∧ filters.filterHashByBlockHash a.hash = .ok (some (bip.filterHash (bip.content link)))
        ∧ filters.filterHeaderByHash a.hash
          = .ok (some (bip.headerChain ((mainOf env c.notified).take (a.height + 1)))) := by
    obtain ⟨link, hlink, rfl, -⟩ := h.exists_mainOf_below law he hmain ha
    exact ⟨link, hlink, ((h.holds law hfit hrun).served_mainOf inv.tree (h.told law) hfit hlink).2⟩
  refine ⟨rfl, ?_, fun {a} ha hbelow => ?_, fun {a} ha hfrom => ?_, fun {a} ha hfrom => ?_⟩
  · rw [List.length_map, h.length_between law hmain hlt.le]
  · obtain ⟨link, -, -, hheader⟩ := hserved ha
    rw [hheader, hbelow]
  · have hupto := inv.tree.rooted.rank_le_of_ancestor he ha
    obtain ⟨link, hlink, hhash, -⟩ := hserved ha
    rw [hhash, List.getElem?_map, getElem?_between _ _ (by omega),
      Nat.add_sub_cancel' hfrom, hlink]
    rfl
  · have hupto := inv.tree.rooted.rank_le_of_ancestor he ha
    obtain ⟨link, -, -, hheader⟩ := hserved ha
    rw [hheader, ← List.map_take, between_take hfrom hupto, headerChain_between (by omega)]

/-- A request for the filter hashes of a range on the main chain is answered exactly when the
range begins above the genesis block and has from two to two thousand blocks. The answer commits to
what the index holds for every block of the range. -/
theorem cfheaders_commit (law : env.Lawful) (h : Visited env c) (hfit : Fitting env c.notified)
    (hrun : FilterIndexer.run bip env c.notified = .ok filters)
    (he : c.db.getEntryByHash e.hash = some e) (hmain : c.db.isMainChain e = true)
    (filterType startHeight : Nat) :
    ((∃ answer, c.handleGetCfheaders (some filters) filterType startHeight e.hash
        = .ok (some answer)) ↔
      filterType = 0 ∧ 0 < startHeight ∧ startHeight < e.height ∧ e.height - startHeight + 1 ≤ 2000)
    ∧ ∀ answer, c.handleGetCfheaders (some filters) filterType startHeight e.hash
        = .ok (some answer) → Commits bip c filters startHeight e answer := by
  by_cases htype : filterType = 0
  · subst htype
    by_cases hrange : 0 < startHeight ∧ startHeight < e.height ∧ e.height - startHeight + 1 ≤ 2000
    · obtain ⟨hstart, hlt, hmax⟩ := hrange
      have hanswer := h.handleGetCfheaders_eq law hfit hrun he hmain hstart hlt hmax
      refine ⟨iff_of_true ⟨_, hanswer⟩ ⟨rfl, hstart, hlt, hmax⟩, fun answer hok => ?_⟩
      cases hanswer.symm.trans hok
      exact h.commits law hfit hrun he hmain hlt
    · rw [h.handleGetCfheaders_panics law he hrange]
      exact ⟨iff_of_false (by simp) (by tauto), by simp⟩
  · rw [handleGetCfheaders, if_pos htype]
    exact ⟨by simp [htype], by simp⟩

/-- A request for the filters of a range on the main chain is answered exactly when the range begins
above the genesis block and has from two to a thousand blocks. Then it lists the branch, and what
is answered to a request for the filter hashes of the range is the hash of each filter. -/
theorem cfilters_match (law : env.Lawful) (h : Visited env c) (hfit : Fitting env c.notified)
    (hrun : FilterIndexer.run bip env c.notified = .ok filters)
    (he : c.db.getEntryByHash e.hash = some e) (hmain : c.db.isMainChain e = true)
    (filterType startHeight : Nat) :
    ((∃ answers, c.handleGetCfilters (some filters) filterType startHeight e.hash = .ok answers) ↔
      filterType = 0 ∧ 0 < startHeight ∧ startHeight < e.height ∧ e.height - startHeight + 1 ≤ 1000)
    ∧ ∀ answers, c.handleGetCfilters (some filters) filterType startHeight e.hash = .ok answers →
      c.ListsBranch startHeight e (answers.map CFilter.blockHash)
        ∧ ∃ answer, c.handleGetCfheaders (some filters) filterType startHeight e.hash
            = .ok (some answer)
          ∧ answer.filterHashes = answers.map fun answer => bip.filterHash answer.filter := by
  by_cases htype : filterType = 0
  · subst htype
    by_cases hrange : 0 < startHeight ∧ startHeight < e.height ∧ e.height - startHeight + 1 ≤ 1000
    · obtain ⟨hstart, hlt, hmax⟩ := hrange
      have hanswers := h.handleGetCfilters_eq law hfit hrun he hmain hstart hlt hmax
      refine ⟨iff_of_true ⟨_, hanswers⟩ ⟨rfl, hstart, hlt, hmax⟩, fun answers hok => ?_⟩
      cases hanswers.symm.trans hok
      refine ⟨?_, _, h.handleGetCfheaders_eq law hfit hrun he hmain hstart hlt (by omega), ?_⟩
      · rw [List.map_map]
        exact h.listsBranch_between law he hmain hlt.le
      · rw [List.map_map]
        rfl
    · rw [h.handleGetCfilters_panics law he hrange]
      exact ⟨iff_of_false (by simp) (by tauto), by simp⟩
  · rw [handleGetCfilters, if_pos htype]
    exact ⟨by simp [htype], by simp⟩

/-! ## Two nodes -/

section TwoNodes

variable {c' : Chain} {filters' : FilterIndexer} {link' : Link} {view view' : CoinView}

/-- Two views have one script for an output of which both have a coin. -/
theorem scriptForCoin_agrees (hid : OutputsFaithful env) (hmade : view.Made env)
    (hmade' : view'.Made env) {o : OutPoint} (ho : o ∈ view.map) (ho' : o ∈ view'.map) :
    FilterIndexer.scriptForCoin view' o = FilterIndexer.scriptForCoin view o := by
  obtain ⟨coin, hcoin⟩ := Option.isSome_iff_exists.1 (AList.lookup_isSome.2 ho)
  obtain ⟨coin', hcoin'⟩ := Option.isSome_iff_exists.1 (AList.lookup_isSome.2 ho')
  rw [FilterIndexer.scriptForCoin, FilterIndexer.scriptForCoin, hcoin, hcoin', Option.map_some,
    Option.map_some, OutputOf.unique hid (hmade' o coin' hcoin') (hmade o coin hcoin)]

/-- One block has one filter on every node that connected it. -/
theorem Visited.content_agrees (law : env.Lawful) (hid : OutputsFaithful env) (hreads : bip.Reads)
    (h : Visited env c) (h' : Visited env c') {i : Nat}
    (hlink : (mainOf env c.notified)[i]? = some link)
    (hlink' : (mainOf env c'.notified)[i]? = some link') (hblock : link'.block = link.block) :
    bip.content link' = bip.content link := by
  cases i with
  | zero =>
    cases hlink
    cases hlink'
    rfl
  | succ i =>
    obtain ⟨s, hs⟩ := mem_of_mem_linksOf (List.mem_of_getElem? hlink)
    obtain ⟨s', hs'⟩ := mem_of_mem_linksOf (List.mem_of_getElem? hlink')
    obtain ⟨wf, -⟩ := h.connected_view law hs
    obtain ⟨hcovers, hmade⟩ := (h.origins law).notified _ hs
    obtain ⟨hcovers', hmade'⟩ := (h'.origins law).notified _ hs'
    rw [hblock] at hcovers'
    rw [Bip158.content, Bip158.content, hblock]
    refine congrArg (Option.getD · []) (hreads _ _ _ fun tx htx input hinput => ?_)
    obtain ⟨coinbase, rest, hdata, -, hrest⟩ := wf.exists_coinbase
    rw [hdata, List.tail_cons] at htx
    have hmem : tx ∈ link.block.txdata := by simp [hdata, htx]
    exact scriptForCoin_agrees hid hmade hmade' (hcovers tx hmem (hrest tx htx) input hinput)
      (hcovers' tx hmem (hrest tx htx) input hinput)

/-- What two nodes have connected up to a block of both main chains is the same for filters. -/
theorem Visited.upTo_agrees (law : env.Lawful) (hinj : Function.Injective env.blockHash)
    (hid : OutputsFaithful env) (hreads : bip.Reads) (h : Visited env c) (h' : Visited env c')
    (he : c.db.getEntryByHash e.hash = some e) (he' : c'.db.getEntryByHash e.hash = some e)
    (hmain : c.db.isMainChain e = true) (hmain' : c'.db.isMainChain e = true)
    (hsame : ∀ a, c.db.Ancestor e a → c'.db.getBlock a.hash = c.db.getBlock a.hash) :
    ((mainOf env c'.notified).take (e.height + 1)).map (fun link => (link.entry, bip.content link))
      = ((mainOf env c.notified).take (e.height + 1)).map fun link =>
          (link.entry, bip.content link) := by
  have tree := (h.inv law).tree
  have agrees := h.agrees law hinj h'
  refine List.ext_getElem? fun i => ?_
  by_cases hi : i < e.height + 1
  · obtain ⟨a, ha⟩ := tree.rooted.exists_climb he (n := e.height - i) (by omega)
    have hheight := tree.rooted.rank_climb he ha
    have hanc := Forest.ancestor_of_climb ha
    obtain ⟨link, hlink, hentry, -⟩ := h.exists_mainOf_below law he hmain hanc
    obtain ⟨link', hlink', hentry', -⟩ :=
      h'.exists_mainOf_below law he' hmain' (agrees.ancestor he he' hanc)
    have hblock : link'.block = link.block := by
      cases hzero : a.height with
      | zero =>
        rw [hzero] at hlink hlink'
        cases hlink
        cases hlink'
        rfl
      | succ n =>
        rw [hzero] at hlink hlink'
        obtain ⟨-, -, hb, -⟩ := h.getElem_linksOf law hlink
        obtain ⟨-, -, hb', -⟩ := h'.getElem_linksOf law hlink'
        rw [hentry', hsame a hanc, ← hentry, hb] at hb'
        exact (Option.some.inj hb').symm
    have hcontent := h.content_agrees law hid hreads h' hlink hlink' hblock
    rw [List.getElem?_map, List.getElem?_map, List.getElem?_take_of_lt hi,
      List.getElem?_take_of_lt hi, show i = a.height by omega, hlink, hlink', Option.map_some,
      Option.map_some, hentry, hentry', hcontent]
  · rw [List.getElem?_eq_none (by simp; omega), List.getElem?_eq_none (by simp; omega)]

theorem headerChain_eq (bip : Bip158) (links : List Link) : bip.headerChain links
    = (links.map fun link => (link.entry, bip.content link)).foldl
        (fun previous p => bip.filterHeader (bip.filterHash p.2) previous) 0 := by
  rw [List.foldl_map]
  rfl

/-- Two nodes with one block on their main chains and the same blocks below it give one answer to
every request for filters that stops there, whichever branches they have left. -/
theorem filters_agree (law : env.Lawful) (hinj : Function.Injective env.blockHash)
    (hid : OutputsFaithful env) (hreads : bip.Reads) (h : Visited env c) (h' : Visited env c')
    (hfit : Fitting env c.notified) (hfit' : Fitting env c'.notified)
    (hrun : FilterIndexer.run bip env c.notified = .ok filters)
    (hrun' : FilterIndexer.run bip env c'.notified = .ok filters')
    (he : c.db.getEntryByHash e.hash = some e) (he' : c'.db.getEntryByHash e.hash = some e)
    (hmain : c.db.isMainChain e = true) (hmain' : c'.db.isMainChain e = true)
    (hsame : ∀ a, c.db.Ancestor e a → c'.db.getBlock a.hash = c.db.getBlock a.hash)
    (filterType startHeight : Nat) :
    c'.handleGetCfheaders (some filters') filterType startHeight e.hash
        = c.handleGetCfheaders (some filters) filterType startHeight e.hash
      ∧ c'.handleGetCfilters (some filters') filterType startHeight e.hash
        = c.handleGetCfilters (some filters) filterType startHeight e.hash := by
  have hupTo := h.upTo_agrees law hinj hid hreads h' he he' hmain hmain' hsame
  have hbetween : (between env c'.notified startHeight e.height).map
        (fun link => (link.entry, bip.content link))
      = (between env c.notified startHeight e.height).map fun link =>
          (link.entry, bip.content link) := by
    rw [between, between, List.map_drop, List.map_drop, hupTo]
  have hheader : startHeight ≤ e.height →
      bip.headerChain ((mainOf env c'.notified).take startHeight)
        = bip.headerChain ((mainOf env c.notified).take startHeight) := by
    intro hle
    have htake := congrArg (List.take startHeight) hupTo
    rw [← List.map_take, ← List.map_take, List.take_take, List.take_take,
      min_eq_left (by omega)] at htake
    rw [headerChain_eq, headerChain_eq, htake]
  by_cases htype : filterType = 0
  · subst htype
    constructor
    · by_cases hrange : 0 < startHeight ∧ startHeight < e.height ∧ e.height - startHeight + 1 ≤ 2000
      · obtain ⟨hstart, hlt, hmax⟩ := hrange
        have hhashes := congrArg (List.map fun p => bip.filterHash p.2) hbetween
        rw [List.map_map, List.map_map] at hhashes
        rw [h.handleGetCfheaders_eq law hfit hrun he hmain hstart hlt hmax,
          h'.handleGetCfheaders_eq law hfit' hrun' he' hmain' hstart hlt hmax, hheader hlt.le]
        exact congrArg (fun hashes => Except.ok (some (CFHeaders.mk hashes _ _ _))) hhashes
      · rw [h.handleGetCfheaders_panics law he hrange, h'.handleGetCfheaders_panics law he' hrange]
    · by_cases hrange : 0 < startHeight ∧ startHeight < e.height ∧ e.height - startHeight + 1 ≤ 1000
      · obtain ⟨hstart, hlt, hmax⟩ := hrange
        have hanswers := congrArg (List.map fun p => CFilter.mk p.1.hash p.2 0) hbetween
        rw [List.map_map, List.map_map] at hanswers
        rw [h.handleGetCfilters_eq law hfit hrun he hmain hstart hlt hmax,
          h'.handleGetCfilters_eq law hfit' hrun' he' hmain' hstart hlt hmax]
        exact congrArg Except.ok hanswers
      · rw [h.handleGetCfilters_panics law he hrange, h'.handleGetCfilters_panics law he' hrange]
  · rw [handleGetCfheaders, handleGetCfheaders, handleGetCfilters, handleGetCfilters, if_pos htype,
      if_pos htype, if_pos htype, if_pos htype]
    exact ⟨rfl, rfl⟩

end TwoNodes

end Chain

/-! ## Two nodes with the same blocks -/

namespace Small

open Chain

/-- The headers of the genesis block and of two blocks above it. -/
def firstHeaders : List BlockHeader :=
  [env.genesisBlock.header, (numberedBlock 1 [reward 1]).header,
    (numberedBlock 2 [reward 2]).header]

/-- Hashes without collisions, small ones for the first headers. -/
def indexed : Env := { paying with blockHash := fun header =>
  if header ∈ firstHeaders then firstHeaders.idxOf header + 1 else blockHash header + 4 }

theorem indexed_lawful : indexed.Lawful where
  blockHash_ne_zero header := by
    dsimp only [indexed]
    split_ifs <;> exact Nat.succ_ne_zero _
  work_pos _ _ := Nat.two_pos
  genesis_prev := rfl

theorem indexed_injective : Function.Injective indexed.blockHash := by
  intro header header' h
  have hlength : firstHeaders.length = 3 := rfl
  have hlt {header : BlockHeader} (h : header ∈ firstHeaders) :
      firstHeaders.idxOf header < 3 := hlength ▸ List.idxOf_lt_length_iff.2 h
  dsimp only [indexed] at h
  split_ifs at h with hmem hmem' hmem'
  · exact (List.idxOf_inj hmem).1 (Nat.add_right_cancel h)
  · have hidx := hlt hmem
    have heq : firstHeaders.idxOf header + 1 = blockHash header' + 4 := h
    omega
  · have hidx := hlt hmem'
    have heq : firstHeaders.idxOf header' + 1 = blockHash header + 4 := h.symm
    omega
  · exact blockHash_injective (Nat.add_right_cancel h)

theorem indexed_outputsFaithful : OutputsFaithful indexed := fun _ _ h =>
  output_eq_of_txid (Nat.pair_eq_pair.1 h).2

theorem filters_reads : filters.Reads := by
  intro block scripts scripts' h
  have hspent : spentScripts block scripts = spentScripts block scripts' := by
    refine List.map_congr_left fun input hinput => ?_
    obtain ⟨tx, htx, hinput⟩ := List.mem_flatMap.1 hinput
    exact h tx htx input hinput
  simp only [filters, hspent]

def twoActs (extra : List Node.Act) : List Node.Act :=
  let b := numberedBlock 1 [reward 1]
  let b' := numberedBlock 2 [reward 2]
  extra ++ [Node.Act.header b.header, .header b'.header, .block 2 b, .block 3 b', .connect 2,
    .connect 3]

/-- What two blocks tell. -/
def twoTold : List Told :=
  [⟨true, 2, 1, numberedBlock 1 [reward 1], []⟩, ⟨true, 3, 2, numberedBlock 2 [reward 2], []⟩]

/-- Whether a node has connected the two blocks and stores no others. -/
def holdsTwo (c : Chain) : Bool :=
  decide (c.notified.map told = twoTold) && decide (c.tip.hash = 3 ∧ c.tip.height = 2)
    && decide (c.db.blocks.blocks.keys = {1, 2, 3})
    && decide (c.db.getBlock 1 = some env.genesisBlock)
    && decide (c.db.getBlock 2 = some (numberedBlock 1 [reward 1]))
    && decide (c.db.getBlock 3 = some (numberedBlock 2 [reward 2]))

theorem exists_two : ∃ c c', Visited indexed c ∧ Visited indexed c'
    ∧ holdsTwo c = true ∧ holdsTwo c' = true ∧ c.db.entryCache.hash.keys.card = 3
    ∧ c'.db.entryCache.hash.keys.card = 4 := by
  obtain ⟨n, hn, hP⟩ := Node.exists_visited indexed 1000 (twoActs [])
    (fun n => holdsTwo n.chain && decide (n.chain.db.entryCache.hash.keys.card = 3))
    (by decide +kernel)
  obtain ⟨n', hn', hP'⟩ := Node.exists_visited indexed 1000
    (twoActs [.header (block 1 30 7 []).header])
    (fun n => holdsTwo n.chain && decide (n.chain.db.entryCache.hash.keys.card = 4))
    (by decide +kernel)
  rw [Bool.and_eq_true, decide_eq_true_eq] at hP hP'
  exact ⟨n.chain, n'.chain, hn.chain, hn'.chain, hP.1, hP'.1, hP.2, hP'.2⟩

variable {c c' : Chain}

theorem fitting_of_holdsTwo (h : holdsTwo c = true) : Fitting indexed c.notified := by
  simp only [holdsTwo, Bool.and_eq_true, decide_eq_true_eq] at h
  refine ⟨⟨by decide, by decide⟩, fun {s e b v} hmem => ?_⟩
  have hall : ∀ t ∈ twoTold, t.height < 2 ^ 32 ∧ t.hash < 2 ^ 256 := by decide +kernel
  exact hall _ (h.1.1.1.1.1 ▸ List.mem_map_of_mem (f := told) hmem)

theorem sameBlocks_of_holdsTwo (h : holdsTwo c = true) (h' : holdsTwo c' = true)
    (hash : BlockHash) : c'.db.getBlock hash = c.db.getBlock hash := by
  simp only [holdsTwo, Bool.and_eq_true, decide_eq_true_eq] at h h'
  by_cases hmem : hash ∈ ({1, 2, 3} : Finset BlockHash)
  · rcases Finset.mem_insert.1 hmem with rfl | hmem
    · rw [h.1.1.2, h'.1.1.2]
    · rcases Finset.mem_insert.1 hmem with rfl | hmem
      · rw [h.1.2, h'.1.2]
      · rw [Finset.mem_singleton.1 hmem, h.2, h'.2]
  · have hnone : ∀ {c : Chain}, c.db.blocks.blocks.keys = {1, 2, 3} →
        c.db.getBlock hash = none := by
      intro c hkeys
      rw [ChainDB.getBlock, BlockStore.readBlock, Finmap.lookup_eq_none, ← Finmap.mem_keys, hkeys]
      exact hmem
    rw [hnone h.1.1.1.2, hnone h'.1.1.1.2]

theorem exists_run {env : Env} (law : env.Lawful) (hgenesis : env.genesisBlock.txdata.length = 1)
    (h : Visited env c) (hfit : Fitting env c.notified) :
    ∃ indexer, FilterIndexer.run filters env c.notified = .ok indexer := by
  obtain ⟨indexer, hrun, -⟩ | ⟨-, hnot⟩ :=
    @FilterIndexer.run_eq filters _ _ _ _ law (h.inv law).tree hfit (h.told law)
  · exact ⟨indexer, hrun⟩
  · exact absurd (FilterIndexer.allBuilt law filters_builds hgenesis h) hnot

end Small

namespace Chain

variable {c : Chain}

theorem tip_of_holdsTwo (h : Small.holdsTwo c = true) : c.tip.hash = 3 ∧ c.tip.height = 2 := by
  simp only [Small.holdsTwo, Bool.and_eq_true, decide_eq_true_eq] at h
  exact h.1.1.1.1.2

/-- The filter hashes of the two blocks. -/
theorem cfheaders_commit_two : ∃ c indexer answer, Visited Small.indexed c ∧ c.tip.height = 2
    ∧ FilterIndexer.run Small.filters Small.indexed c.notified = .ok indexer
    ∧ c.handleGetCfheaders (some indexer) 0 1 c.tip.hash = .ok (some answer)
    ∧ Commits Small.filters c indexer 1 c.tip answer := by
  obtain ⟨c, -, hc, -, htwo, -⟩ := Small.exists_two
  have hfit := Small.fitting_of_holdsTwo htwo
  have hheight := (tip_of_holdsTwo htwo).2
  have inv := hc.inv Small.indexed_lawful
  obtain ⟨indexer, hrun⟩ := Small.exists_run Small.indexed_lawful rfl hc hfit
  obtain ⟨hiff, hcommits⟩ := cfheaders_commit Small.indexed_lawful hc hfit hrun inv.tip_stored
    inv.isMainChain_tip 0 1
  obtain ⟨answer, hanswer⟩ := hiff.2 ⟨rfl, Nat.one_pos, by omega, by omega⟩
  exact ⟨c, indexer, answer, hc, hheight, hrun, hanswer, hcommits answer hanswer⟩

/-- The filters of the two blocks. -/
theorem cfilters_match_two : ∃ c indexer answers, Visited Small.indexed c ∧ c.tip.height = 2
    ∧ FilterIndexer.run Small.filters Small.indexed c.notified = .ok indexer
    ∧ c.handleGetCfilters (some indexer) 0 1 c.tip.hash = .ok answers
    ∧ c.ListsBranch 1 c.tip (answers.map CFilter.blockHash) := by
  obtain ⟨c, -, hc, -, htwo, -⟩ := Small.exists_two
  have hfit := Small.fitting_of_holdsTwo htwo
  have hheight := (tip_of_holdsTwo htwo).2
  have inv := hc.inv Small.indexed_lawful
  obtain ⟨indexer, hrun⟩ := Small.exists_run Small.indexed_lawful rfl hc hfit
  obtain ⟨hiff, hmatch⟩ := cfilters_match Small.indexed_lawful hc hfit hrun inv.tip_stored
    inv.isMainChain_tip 0 1
  obtain ⟨answers, hanswers⟩ := hiff.2 ⟨rfl, Nat.one_pos, by omega, by omega⟩
  exact ⟨c, indexer, answers, hc, hheight, hrun, hanswers, (hmatch answers hanswers).1⟩

/-- Two nodes of the two blocks, one of which knows another header. -/
theorem filters_agree_two : ∃ c c' indexer indexer', Visited Small.indexed c
    ∧ Visited Small.indexed c' ∧ c.db.entryCache.hash.keys.card = 3
    ∧ c'.db.entryCache.hash.keys.card = 4
    ∧ FilterIndexer.run Small.filters Small.indexed c.notified = .ok indexer
    ∧ FilterIndexer.run Small.filters Small.indexed c'.notified = .ok indexer'
    ∧ c'.handleGetCfheaders (some indexer') 0 1 c.tip.hash
      = c.handleGetCfheaders (some indexer) 0 1 c.tip.hash := by
  obtain ⟨c, c', hc, hc', htwo, htwo', hcard, hcard'⟩ := Small.exists_two
  have hfit := Small.fitting_of_holdsTwo htwo
  have hfit' := Small.fitting_of_holdsTwo htwo'
  have inv := hc.inv Small.indexed_lawful
  have inv' := hc'.inv Small.indexed_lawful
  obtain ⟨indexer, hrun⟩ := Small.exists_run Small.indexed_lawful rfl hc hfit
  obtain ⟨indexer', hrun'⟩ := Small.exists_run Small.indexed_lawful rfl hc' hfit'
  have hstored' := inv'.tip_stored
  have hhash : c'.tip.hash = c.tip.hash :=
    (tip_of_holdsTwo htwo').1.trans (tip_of_holdsTwo htwo).1.symm
  rw [hhash] at hstored'
  have htip : c'.tip = c.tip := (hc.agrees Small.indexed_lawful Small.indexed_injective hc').entry
    inv.tip_stored hstored'
  rw [htip] at hstored'
  exact ⟨c, c', indexer, indexer', hc, hc', hcard, hcard', hrun, hrun',
    (filters_agree Small.indexed_lawful Small.indexed_injective Small.indexed_outputsFaithful
      Small.filters_reads hc hc' hfit hfit' hrun hrun' inv.tip_stored hstored'
      inv.isMainChain_tip (htip ▸ inv'.isMainChain_tip)
      (fun a _ => Small.sameBlocks_of_holdsTwo htwo htwo' a.hash) 0 1).1⟩

end Chain

end BitcoinNode
