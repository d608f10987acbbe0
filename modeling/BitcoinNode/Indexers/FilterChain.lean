import BitcoinNode.Indexers.FilterIndex

/-!
# The filter headers of the main chain

What the index holds is what was written last: for a block its height, and for a height the
row of the block connected there last. The blocks of the main chain are connected upwards,
so the last row at each of their heights is their own, and it commits to the row below.
-/

namespace BitcoinNode

/-! ## The last item with a property -/

section LastWhere

variable {α : Type} {p : α → Bool} {items : List α} {a : α}

def lastWhere (p : α → Bool) (items : List α) : Option α := items.reverse.find? p

@[simp] theorem lastWhere_nil : lastWhere p [] = none := rfl

theorem lastWhere_concat :
    lastWhere p (items ++ [a]) = if p a then some a else lastWhere p items := by
  simp only [lastWhere, List.reverse_append, List.reverse_singleton, List.singleton_append,
    List.find?_cons]
  cases p a <;> rfl

theorem mem_of_lastWhere (h : lastWhere p items = some a) : a ∈ items ∧ p a = true :=
  ⟨List.mem_reverse.1 (List.mem_of_find?_eq_some h), List.find?_some h⟩

theorem exists_lastWhere (h : a ∈ items) (hp : p a = true) : ∃ b, lastWhere p items = some b := by
  rw [← Option.isSome_iff_exists, lastWhere, List.find?_isSome]
  exact ⟨a, List.mem_reverse.2 h, hp⟩

end LastWhere

/-! ## Heights and hashes -/

/-- The height and the hash of the entry fit their types. -/
def ChainEntry.Fits (e : ChainEntry) : Prop := e.height < 2 ^ 32 ∧ e.hash < 2 ^ 256

/-- Every block that was connected has a height and a hash that fit. -/
structure Fitting (env : Env) (log : List Notification) : Prop where
  genesis : env.genesisEntry.Fits
  logged {s : Snapshot} {e : ChainEntry} {b : Block} {v : CoinView} :
    .connect s e b v ∈ log → e.Fits

theorem Fitting.of_append {env : Env} {log log' : List Notification}
    (h : Fitting env (log ++ log')) : Fitting env log :=
  ⟨h.genesis, fun hmem => h.logged (List.mem_append_left _ hmem)⟩

/-! ## Rows -/

/-- What is written for a block when it is connected. -/
structure FilterRow where
  block : BlockHash
  height : Nat
  filter : BlockFilter
  filterHash : FilterHash
  filterHeader : FilterHeader
  deriving DecidableEq

namespace Bip158

/-- The content of the filter of a block that was connected. -/
def content (bip : Bip158) (link : Link) : List UInt8 :=
  (bip.newScriptFilter link.block (FilterIndexer.scriptForCoin link.view)).getD []

/-- The filter header of the last of some blocks in a row, the first one without a parent. -/
def headerChain (bip : Bip158) (links : List Link) : FilterHeader :=
  links.foldl (fun previous link => bip.filterHeader (bip.filterHash (bip.content link)) previous) 0

/-- The row of a block on top of others. -/
def row (bip : Bip158) (below : List Link) (link : Link) : FilterRow where
  block := link.entry.hash
  height := link.entry.height
  filter := ⟨bip.content link⟩
  filterHash := bip.filterHash (bip.content link)
  filterHeader := bip.filterHeader (bip.filterHash (bip.content link)) (bip.headerChain below)

theorem headerChain_concat (bip : Bip158) (below : List Link) (link : Link) :
    bip.headerChain (below ++ [link]) = (bip.row below link).filterHeader := by
  simp [headerChain, row]

end Bip158

/-- The genesis block, which spends nothing. -/
def Env.genesisLink (env : Env) : Link := ⟨env.genesisEntry, env.genesisBlock, CoinView.empty⟩

namespace Chain

/-- The main chain with its genesis block. -/
def mainOf (env : Env) (log : List Notification) : List Link := env.genesisLink :: linksOf log

/-- The rows of all blocks that were ever connected, in order. -/
def historyOf (bip : Bip158) (env : Env) (log : List Notification) : List Link × List FilterRow :=
  log.foldl (fun history notification =>
    match notification with
    | .connect _ entry block view =>
      (history.1 ++ [⟨entry, block, view⟩],
        history.2 ++ [bip.row (env.genesisLink :: history.1) ⟨entry, block, view⟩])
    | .disconnect _ _ _ _ => (history.1.dropLast, history.2)) ([], [bip.row [] env.genesisLink])

def rowsOf (bip : Bip158) (env : Env) (log : List Notification) : List FilterRow :=
  (historyOf bip env log).2

variable {bip : Bip158} {env : Env} {log : List Notification} {s : Snapshot} {e : ChainEntry}
  {b : Block} {v : CoinView}

theorem historyOf_fst : (historyOf bip env log).1 = linksOf log := by
  induction log using List.reverseRecOn with
  | nil => rfl
  | append_singleton log notification ih =>
    cases notification <;> simp_all [historyOf, linksOf]

@[simp] theorem rowsOf_nil : rowsOf bip env [] = [bip.row [] env.genesisLink] := rfl

@[simp] theorem rowsOf_connect : rowsOf bip env (log ++ [Notification.connect s e b v]) =
    rowsOf bip env log ++ [bip.row (mainOf env log) ⟨e, b, v⟩] := by
  rw [mainOf, ← @historyOf_fst bip env]
  simp [rowsOf, historyOf]

@[simp] theorem rowsOf_disconnect :
    rowsOf bip env (log ++ [Notification.disconnect s e b v]) = rowsOf bip env log := by
  simp [rowsOf, historyOf]

end Chain

namespace ChainDB

open Chain

variable {bip : Bip158} {env : Env} {db : ChainDB} {tip : ChainEntry} {log : List Notification}

/-- Every row is that of a stored block, and the last row at a height of the main chain is
that of its block. -/
structure Recorded (bip : Bip158) (env : Env) (db : ChainDB) (log : List Notification) : Prop where
  stored {r : FilterRow} : r ∈ rowsOf bip env log →
    ∃ e, db.getEntryByHash r.block = some e ∧ e.height = r.height
  main {i : Nat} {link : Link} : (mainOf env log)[i]? = some link →
    lastWhere (·.height == i) (rowsOf bip env log) = some (bip.row ((mainOf env log).take i) link)

/-- The main chain ends with the tip. -/
theorem Told.mainOf_eq (tree : db.Tree env) (h : Told db env.genesisEntry log tip) :
    ∃ below link, mainOf env log = below ++ [link] ∧ below.length = tip.height
      ∧ link.entry = tip := by
  have hheight := h.height_eq tree
  cases hlinks : linksOf log using List.reverseRecOn with
  | nil =>
    have hbranch := h.branch tree.genesis
    rw [hlinks] at hbranch
    refine ⟨[], env.genesisLink, by simp [mainOf, hlinks], by simp [hheight, hlinks], ?_⟩
    generalize hnil : ([] : List Link) = links at hbranch
    cases hbranch with
    | root => rfl
    | child => simp at hnil
  | append_singleton rest link =>
    have hbranch := h.branch tree.genesis
    rw [hlinks] at hbranch
    refine ⟨env.genesisLink :: rest, link, by simp [mainOf, hlinks], by simp [hheight, hlinks], ?_⟩
    generalize hlast : rest ++ [link] = links at hbranch
    cases hbranch with
    | root => simp at hlast
    | child =>
      obtain ⟨-, hlink⟩ := List.append_inj' hlast rfl
      rw [List.singleton_inj.1 hlink]

theorem Told.tip_fits (tree : db.Tree env) (h : Told db env.genesisEntry log tip)
    (hfit : Fitting env log) : tip.Fits := by
  obtain ⟨below, link, hmain, -, rfl⟩ := h.mainOf_eq tree
  have hmem : link ∈ mainOf env log := by simp [hmain]
  rcases List.mem_cons.1 hmem with rfl | hmem
  · exact hfit.genesis
  · obtain ⟨s, hs⟩ := mem_of_mem_linksOf hmem
    exact hfit.logged hs

theorem Told.recorded (tree : db.Tree env) (h : Told db env.genesisEntry log tip) :
    Recorded bip env db log := by
  induction h with
  | start =>
    refine ⟨?_, ?_⟩
    · intro r hr
      obtain rfl := List.mem_singleton.1 hr
      exact ⟨_, tree.genesis, rfl⟩
    · intro i link hi
      cases i with
      | zero =>
        obtain rfl : env.genesisLink = link := by simpa [mainOf] using hi
        rfl
      | succ i => simp [mainOf] at hi
  | @connect log s e tip b v htold he hb hprev ih =>
    have hp := (htold.branch tree.genesis).tip_stored tree.genesis
    rw [← hprev] at hp
    have hheight : e.height = (mainOf env log).length := by
      rw [tree.height_eq he hp, htold.height_eq tree, mainOf, List.length_cons]
    have hmain : mainOf env (log ++ [Notification.connect s e b v])
        = mainOf env log ++ [⟨e, b, v⟩] := by
      simp [mainOf]
    refine ⟨?_, ?_⟩
    · intro r hr
      rw [rowsOf_connect] at hr
      rcases List.mem_append.1 hr with hr | hr
      · exact ih.stored hr
      · obtain rfl := List.mem_singleton.1 hr
        exact ⟨e, he, rfl⟩
    · intro i link hi
      rw [rowsOf_connect, lastWhere_concat, hmain]
      rw [hmain] at hi
      by_cases hlt : i < (mainOf env log).length
      · rw [List.getElem?_append_left hlt] at hi
        rw [if_neg (by simp [Bip158.row]; omega), List.take_append_of_le_length hlt.le]
        exact ih.main hi
      · have hlen := (List.getElem?_eq_some_iff.1 hi).choose
        obtain rfl : i = (mainOf env log).length := by grind
        obtain rfl : ⟨e, b, v⟩ = link := by simpa using hi
        rw [if_pos (by simp [Bip158.row, hheight]), List.take_left]
  | @disconnect log s e p b v htold hne _ _ ih =>
    refine ⟨fun hr => ih.stored (by simpa using hr), fun {i link} hi => ?_⟩
    obtain ⟨rest, b', v', _, hlinks, -⟩ :=
      (htold.branch tree.genesis).exists_last tree.genesis hne
    have hmain : mainOf env log
        = mainOf env (log ++ [Notification.disconnect s e b v]) ++ [⟨e, b', v'⟩] := by
      simp [mainOf, hlinks]
    have hlt := (List.getElem?_eq_some_iff.1 hi).choose
    have hold := @ChainDB.Recorded.main _ _ _ _ ih i link
    rw [hmain, List.getElem?_append_left hlt, List.take_append_of_le_length hlt.le] at hold
    rw [rowsOf_disconnect]
    exact hold hi

end ChainDB

namespace FilterIndexer

open Chain

variable {bip : Bip158} {env : Env} {filters : FilterIndexer} {rows below : List FilterRow}

/-- What an index that saw the rows holds under a key. -/
def stored (rows : List FilterRow) : Key → Option Value
  | .filter height => (lastWhere (·.height == height) rows).map fun r => .filter r.filter.content
  | .filterHash height =>
    (lastWhere (·.height == height) rows).map fun r => .filterHash r.filterHash
  | .filterHeader height =>
    (lastWhere (·.height == height) rows).map fun r => .filterHeader r.filterHeader
  | .height hash => (lastWhere (·.block == hash) rows).map fun r => .height r.height

/-- The index holds what was written last. -/
def Holds (filters : FilterIndexer) (rows : List FilterRow) : Prop :=
  ∀ key, key.Fits → filters.db.get key = stored rows key

theorem Holds.write (h : filters.Holds rows) {r : FilterRow} (hheight : r.height < 2 ^ 32)
    (hblock : r.block < 2 ^ 256) :
    Holds ⟨filters.db.writeBatch [
      .insert (Key.height r.block) (.height r.height),
      .insert (Key.filterHeader r.height) (.filterHeader r.filterHeader),
      .insert (Key.filterHash r.height) (.filterHash r.filterHash),
      .insert (Key.filter r.height) (.filter r.filter.content)]⟩ (rows ++ [r]) := by
  intro key hkey
  have hinj : ∀ key' : Key, key'.Fits →
      (DiskDatabase.rawKey key = DiskDatabase.rawKey key' ↔ key = key') :=
    fun key' hkey' => rawKey_inj hkey hkey'
  simp only [DiskDatabase.writeBatch_cons, DiskDatabase.writeBatch_nil, DiskDatabase.get_insert]
  simp only [hinj (.filter _) hheight, hinj (.filterHash _) hheight, hinj (.filterHeader _) hheight,
    hinj (.height _) hblock, h key hkey]
  cases key <;> simp [stored, lastWhere_concat] <;> grind

theorem Holds.filterByHeight (h : filters.Holds rows) {n : Nat} (hn : n < 2 ^ 32) :
    filters.filterByHeight n = .ok ((lastWhere (·.height == n) rows).map FilterRow.filter) := by
  rw [FilterIndexer.filterByHeight, read, h (.filter n) hn, stored]
  cases lastWhere (·.height == n) rows <;> rfl

theorem Holds.filterHashByHeight (h : filters.Holds rows) {n : Nat} (hn : n < 2 ^ 32) :
    filters.filterHashByHeight n
      = .ok ((lastWhere (·.height == n) rows).map FilterRow.filterHash) := by
  rw [FilterIndexer.filterHashByHeight, read, h (.filterHash n) hn, stored]
  cases lastWhere (·.height == n) rows <;> rfl

theorem Holds.filterHeaderByHeight (h : filters.Holds rows) {n : Nat} (hn : n < 2 ^ 32) :
    filters.filterHeaderByHeight n
      = .ok ((lastWhere (·.height == n) rows).map FilterRow.filterHeader) := by
  rw [FilterIndexer.filterHeaderByHeight, read, h (.filterHeader n) hn, stored]
  cases lastWhere (·.height == n) rows <;> rfl

/-- A lookup by hash is one at the height at which the block was connected last. -/
theorem Holds.byHash {α : Type} (h : filters.Holds rows)
    {byHeight : Nat → Except Panic (Option α)} {hash : BlockHash} (hhash : hash < 2 ^ 256) :
    filters.byHash byHeight hash = match lastWhere (·.block == hash) rows with
      | none => .ok none
      | some r => byHeight r.height := by
  rw [FilterIndexer.byHash, read, h (.height hash) hhash, stored]
  cases lastWhere (·.block == hash) rows <;> rfl

/-- Connecting a block appends its row, when the header of its parent is found. -/
theorem Holds.blockConnected (h : filters.Holds rows) {below : List Link} {e : ChainEntry}
    {b : Block} {v : CoinView} (hheight : e.height < 2 ^ 32) (hhash : e.hash < 2 ^ 256)
    (hbuilt : (bip.newScriptFilter b (scriptForCoin v)).isSome)
    (hprev : e.prevBlock = 0 ∧ below = [] ∨ e.prevBlock ≠ 0
      ∧ filters.filterHeaderByHash e.prevBlock = .ok (some (bip.headerChain below))) :
    ∃ filters', filters.blockConnected bip e b v = .ok filters'
      ∧ filters'.Holds (rows ++ [bip.row below ⟨e, b, v⟩]) := by
  obtain ⟨content, hcontent⟩ := Option.isSome_iff_exists.1 hbuilt
  have hrow : bip.content ⟨e, b, v⟩ = content := by simp [Bip158.content, hcontent]
  have hwrite := h.write (r := bip.row below ⟨e, b, v⟩) hheight hhash
  refine ⟨_, ?_, hwrite⟩
  rw [FilterIndexer.blockConnected, hcontent]
  rcases hprev with ⟨hzero, rfl⟩ | ⟨hne, hheader⟩
  · simp [hzero, Bip158.row, hrow, BlockFilter.filterHeader, Bip158.headerChain]
  · simp [hne, hheader, Bip158.row, hrow, BlockFilter.filterHeader]
    rfl

/-- Whether every filter can be built, that of the genesis block included. -/
def AllBuilt (bip : Bip158) (env : Env) (log : List Notification) : Prop :=
  (bip.newScriptFilter env.genesisBlock (scriptForCoin CoinView.empty)).isSome
    ∧ ∀ s e b v, .connect s e b v ∈ log → (bip.newScriptFilter b (scriptForCoin v)).isSome

section Run

variable {db : ChainDB} {tip : ChainEntry} {log : List Notification}

theorem run_concat (notification : Notification) : run bip env (log ++ [notification])
    = run bip env log >>= fun filters => filters.handle bip notification := by
  simp [run, List.foldlM_append]

/-- The filter header of the tip is found under its hash. -/
theorem Holds.tip_header (tree : db.Tree env) (htold : ChainDB.Told db env.genesisEntry log tip)
    (h : filters.Holds (rowsOf bip env log)) (hheight : tip.height < 2 ^ 32)
    (hhash : tip.hash < 2 ^ 256) :
    filters.filterHeaderByHash tip.hash = .ok (some (bip.headerChain (mainOf env log))) := by
  obtain ⟨below, link, hmain, hlen, rfl⟩ := htold.mainOf_eq tree
  have hrecorded := @ChainDB.Told.recorded bip _ _ _ _ tree htold
  have hlink : (mainOf env log)[below.length]? = some link := by simp [hmain]
  have hrow := hrecorded.main hlink
  obtain ⟨hmem, -⟩ := mem_of_lastWhere hrow
  obtain ⟨r, hr⟩ := exists_lastWhere (p := (·.block == link.entry.hash)) hmem (by simp [Bip158.row])
  obtain ⟨hmem', hblock⟩ := mem_of_lastWhere hr
  obtain ⟨e, he, hre⟩ := hrecorded.stored hmem'
  have htip := (htold.branch tree.genesis).tip_stored tree.genesis
  rw [beq_iff_eq.1 hblock] at he
  cases he.symm.trans htip
  rw [filterHeaderByHash, h.byHash hhash, hr]
  dsimp only
  rw [← hre, h.filterHeaderByHeight hheight, ← hlen, hrow, hmain, List.take_left,
    Bip158.headerChain_concat]
  rfl

theorem blockConnected_eq_error {e : ChainEntry} {b : Block} {v : CoinView}
    (h : (bip.newScriptFilter b (scriptForCoin v)).isSome = false) :
    filters.blockConnected bip e b v = .error .scriptFilter := by
  have hnone : bip.newScriptFilter b (scriptForCoin v) = none := by simpa using h
  rw [blockConnected, hnone]
  rfl

/-- The index holds the rows of what its listener was told, unless a filter cannot be built. -/
theorem run_eq (law : env.Lawful) (tree : db.Tree env) (hfit : Fitting env log)
    (htold : ChainDB.Told db env.genesisEntry log tip) :
    (∃ filters, run bip env log = .ok filters ∧ filters.Holds (rowsOf bip env log))
      ∨ run bip env log = .error .scriptFilter ∧ ¬ AllBuilt bip env log := by
  induction htold with
  | start =>
    have hempty : Holds ⟨∅⟩ [] := fun key _ => by cases key <;> simp [stored]
    obtain ⟨hheight, hhash⟩ := hfit.genesis
    have hnew : DiskDatabase.has (∅ : DiskDatabase Value) (Key.filter 0) = false := by
      simp [DiskDatabase.has, Finmap.notMem_empty]
    rw [show run bip env [] = new bip env ∅ by simp [run], new, hnew, if_neg Bool.false_ne_true]
    cases hbuilt : (bip.newScriptFilter env.genesisBlock (scriptForCoin CoinView.empty)).isSome with
    | true =>
      exact .inl (@Holds.blockConnected _ _ _ hempty [] _ _ _ hheight hhash hbuilt
        (.inl ⟨law.genesis_prev, rfl⟩))
    | false => exact .inr ⟨blockConnected_eq_error hbuilt, fun h => by simp [h.1] at hbuilt⟩
  | @connect log s e tip b v htold he hb hprev ih =>
    rw [run_concat]
    rcases ih hfit.of_append with ⟨filters, hrun, hholds⟩ | ⟨hrun, hnot⟩
    · rw [hrun, bind_of_ok rfl, handle]
      obtain ⟨hheight, hhash⟩ := hfit.logged (s := s) (e := e) (b := b) (v := v) (by simp)
      have htip := (htold.branch tree.genesis).tip_stored tree.genesis
      obtain ⟨hheight', hhash'⟩ := htold.tip_fits tree hfit.of_append
      cases hbuilt : (bip.newScriptFilter b (scriptForCoin v)).isSome with
      | true =>
        rw [rowsOf_connect]
        refine .inl (hholds.blockConnected hheight hhash hbuilt (.inr ⟨?_, ?_⟩))
        · rw [hprev]
          intro hzero
          rw [hzero, tree.getEntryByHash_zero law] at htip
          cases htip
        · rw [hprev]
          exact hholds.tip_header tree htold hheight' hhash'
      | false =>
        refine .inr ⟨blockConnected_eq_error hbuilt, fun h => ?_⟩
        simp [h.2 s e b v (by simp)] at hbuilt
    · rw [hrun]
      exact .inr ⟨rfl, fun h => hnot ⟨h.1, fun s e b v hmem => h.2 s e b v (by simp [hmem])⟩⟩
  | disconnect _ _ _ _ ih =>
    rw [run_concat, rowsOf_disconnect]
    rcases ih hfit.of_append with ⟨filters, hrun, hholds⟩ | ⟨hrun, hnot⟩
    · exact .inl ⟨filters, by rw [hrun]; rfl, hholds⟩
    · rw [hrun]
      exact .inr ⟨rfl, fun h => hnot ⟨h.1, fun s e b v hmem => h.2 s e b v (by simp [hmem])⟩⟩

end Run

/-- A view that covers a well-formed block has every script the filter is built from. -/
theorem isSome_newScriptFilter (hbuilds : bip.Builds) {b : Block} {v : CoinView}
    (wf : b.WellFormed) (hcovers : v.Covers b) :
    (bip.newScriptFilter b (scriptForCoin v)).isSome := by
  refine hbuilds b _ fun tx htx input hinput => ?_
  obtain ⟨coinbase, rest, hdata, -, hrest⟩ := wf.exists_coinbase
  rw [hdata, List.tail_cons] at htx
  have hmem := hcovers tx (by simp [hdata, htx]) (hrest tx htx) input hinput
  rw [scriptForCoin, Option.isSome_map]
  exact AList.lookup_isSome.2 hmem

theorem allBuilt (law : env.Lawful) (hbuilds : bip.Builds)
    (hgenesis : env.genesisBlock.txdata.length = 1) {c : Chain} (h : Visited env c) :
    AllBuilt bip env c.notified := by
  refine ⟨hbuilds _ _ fun tx htx => ?_, fun s e b v hmem => ?_⟩
  · obtain ⟨coinbase, hdata⟩ := List.length_eq_one_iff.1 hgenesis
    simp [hdata] at htx
  · obtain ⟨wf, coins, hview⟩ := h.connected_view law hmem
    exact isSome_newScriptFilter hbuilds wf (CoinView.covers_of_blockView hview)

/-- Along the main chain of any state that a chain passes through, reorganizations that
failed midway included, the index holds the filter and the filter hash of each block, and
filter headers that commit to one another; the previous header was always found. -/
theorem filterHeaders_mainChain (law : env.Lawful) (hbuilds : bip.Builds)
    (hgenesis : env.genesisBlock.txdata.length = 1) {c : Chain} (h : Visited env c)
    (hfit : Fitting env c.notified) : ∃ filters, run bip env c.notified = .ok filters ∧
      ∀ height, 1 ≤ height → height ≤ c.tip.height → ∃ link content previous,
        (linksOf c.notified)[height - 1]? = some link
        ∧ c.db.getEntryByHeight height = .ok (some link.entry)
        ∧ c.db.getBlock link.entry.hash = some link.block
        ∧ bip.newScriptFilter link.block (scriptForCoin link.view) = some content
        ∧ filters.filterByHeight height = .ok (some ⟨content⟩)
        ∧ filters.filterHashByHeight height = .ok (some (bip.filterHash content))
        ∧ filters.filterHeaderByHeight (height - 1) = .ok (some previous)
        ∧ filters.filterHeaderByHeight height
            = .ok (some (bip.filterHeader (bip.filterHash content) previous)) := by
  have inv := h.inv law
  have htold := h.told law
  have hbuilt := @allBuilt bip _ law hbuilds hgenesis _ h
  obtain ⟨filters, hrun, hholds⟩ | ⟨-, hnot⟩ := @run_eq bip _ _ _ _ law inv.tree hfit htold
  swap
  · exact absurd hbuilt hnot
  refine ⟨filters, hrun, fun height hpos hle => ?_⟩
  obtain ⟨n, rfl⟩ := Nat.exists_eq_add_of_le' hpos
  have hlen := htold.height_eq inv.tree
  obtain ⟨link, hlink⟩ : ∃ link, (linksOf c.notified)[n]? = some link :=
    ⟨_, List.getElem?_eq_getElem (by omega)⟩
  obtain ⟨-, hentry, hblock, -⟩ := h.getElem_linksOf law hlink
  obtain ⟨s, hmem⟩ := mem_of_mem_linksOf (List.mem_of_getElem? hlink)
  obtain ⟨content, hcontent⟩ := Option.isSome_iff_exists.1 (hbuilt.2 s _ _ _ hmem)
  have hrow : bip.content link = content := by simp [Bip158.content, hcontent]
  -- the rows of the block and of the one below it
  have hrecorded := @ChainDB.Told.recorded bip _ _ _ _ inv.tree htold
  have hlink' : (mainOf env c.notified)[n + 1]? = some link := by simpa [mainOf] using hlink
  have hmain := hrecorded.main hlink'
  obtain ⟨parent, hparent⟩ : ∃ parent, (mainOf env c.notified)[n]? = some parent :=
    ⟨_, List.getElem?_eq_getElem (by simp [mainOf]; omega)⟩
  have hbelow := hrecorded.main hparent
  have htake : (mainOf env c.notified).take (n + 1)
      = (mainOf env c.notified).take n ++ [parent] := by
    rw [List.take_add_one, hparent]
    rfl
  have hfits := (hfit.logged hmem).1
  rw [show link.entry.height = n + 1 from beq_iff_eq.1 (mem_of_lastWhere hmain).2] at hfits
  refine ⟨link, content, bip.headerChain ((mainOf env c.notified).take (n + 1)), hlink, hentry,
    hblock, hcontent, ?_, ?_, ?_, ?_⟩
  · rw [hholds.filterByHeight hfits, hmain]
    simp [Bip158.row, hrow]
  · rw [hholds.filterHashByHeight hfits, hmain]
    simp [Bip158.row, hrow]
  · rw [Nat.add_sub_cancel, hholds.filterHeaderByHeight (by omega), hbelow, htake,
      Bip158.headerChain_concat]
    rfl
  · rw [hholds.filterHeaderByHeight hfits, hmain]
    simp [Bip158.row, hrow]

end FilterIndexer

end BitcoinNode
