import BitcoinNode.Blockchain.Runs
import BitcoinNode.Blockchain.Ancestors
import BitcoinNode.Library.Table

/-!
# Restarting the node

What `ChainDB::new` and `open` load from the columns, against what the running node holds
in memory: the entry cache and the state record come back as they were, and the entry with
the most work does when no other stored header has as much.
-/

namespace BitcoinNode

/-- `ChainEntryCache::new`: the cache loaded from the entry and hash columns. -/
def ChainEntryCache.new (db : Database) : ChainEntryCache where
  height := db.hash.rows.foldl (fun height row => height.insert row.1 row.2) ∅
  hash := db.entry.rows.foldl (fun hash row => hash.insert row.2.hash row.2) ∅
  batch := []

namespace ChainDB

/-- `ChainDB::new` and then `open`, on the columns and files of a database that holds a state
record. The record is read back with `commited` unset. -/
def reopen (env : Env) (db : ChainDB) : ChainDB where
  entryCache := .new db.db
  state := (db.db.chainState.map fun state => { state with commited := false }).getD .default
  db := db.db
  pending := none
  invalid := ∅
  mostWork := db.getMostWorkEntry
  blocks := db.blocks
  versionBitsCache := .new env.network
  downloaded := db.blocks.blocks.keys

/-- The entry column holds the entries of the cache, field by field. -/
def EntriesSaved (db : ChainDB) : Prop := db.db.entry = db.entryCache.hash

/-- A stored entry with as much work as any. -/
def Heaviest (db : ChainDB) (entry : ChainEntry) : Prop :=
  db.getEntryByHash entry.hash = some entry
    ∧ ∀ hash e, db.getEntryByHash hash = some e → e.chainwork ≤ entry.chainwork

/-- The chainwork column holds the stored entries without a stored child. -/
structure TipIndex (db : ChainDB) : Prop where
  sorted : Table.Sorted db.db.chainWork
  mem_iff {key : Nat} {e : ChainEntry} : (key, e) ∈ db.db.chainWork ↔
    db.getEntryByHash e.hash = some e ∧ key = chainWorkKey e.chainwork e.hash
      ∧ ∀ hash child, db.getEntryByHash hash = some child → child.prevBlock ≠ e.hash

/-- Of the stored entries with the most work, the one kept in memory has the greatest hash. -/
def MostWorkKept (db : ChainDB) : Prop :=
  ∃ m, db.mostWork = some m ∧ db.Heaviest m ∧ ∀ e, db.Heaviest e → e.hash ≤ m.hash

variable {env : Env} {db db' : ChainDB} {entry prev : ChainEntry}

/-! ## The entry cache -/

theorem entryCache_new (tree : db.Tree env) (hbatch : db.entryCache.batch = [])
    (hsaved : db.EntriesSaved) (hhash : db.db.hash = db.entryCache.height) :
    ChainEntryCache.new db.db = db.entryCache := by
  have hentries : ∀ row ∈ db.db.entry.rows, row.2.hash = row.1 := by
    intro row hrow
    rw [hsaved] at hrow
    exact tree.hash_eq (FMap.mem_rows.1 hrow)
  have hheight := @FMap.foldl_insert_rows _ _ _ db.db.hash Prod.fst fun _ _ => rfl
  have hcache := @FMap.foldl_insert_rows _ _ _ db.db.entry (fun row => row.2.hash) hentries
  rw [ChainEntryCache.new, hheight, hcache, hhash, hsaved, ← hbatch]

/-! ## The tip index -/

theorem chainWorkKey_hash {work work' : Nat} {hash hash' : BlockHash} (h : hash < 2 ^ 256)
    (h' : hash' < 2 ^ 256) (hkey : chainWorkKey work hash = chainWorkKey work' hash') :
    hash = hash' := by
  have hmod := congrArg (· % 2 ^ 256) hkey
  simp only [chainWorkKey, Nat.mul_add_mod_self_right, Nat.mod_eq_of_lt h, Nat.mod_eq_of_lt h']
    at hmod
  exact hmod

theorem chainWorkKey_lt {work : Nat} {hash hash' : BlockHash} :
    chainWorkKey work hash < chainWorkKey work hash' ↔ hash < hash' :=
  Nat.add_lt_add_iff_left

/-- Saving a header puts it in the index in the place of its parent. -/
theorem TipIndex.headerSaved (law : env.Lawful) (hbound : ∀ header, env.blockHash header < 2 ^ 256)
    (tree : db.Tree env) (index : db.TipIndex) (hheader : entry.hash = env.blockHash entry.header)
    (hnew : db.getEntryByHash entry.hash = none)
    (hprev : db.getEntryByHash entry.prevBlock = some prev)
    (mostWork : Option ChainEntry) : (db.headerSaved entry prev mostWork).TipIndex := by
  have hget : ∀ hash, (db.headerSaved entry prev mostWork).getEntryByHash hash
      = if hash = entry.hash then some entry else db.getEntryByHash hash :=
    fun hash => getEntryByHash_headerSaved hash
  have hcolumn : (db.headerSaved entry prev mostWork).db.chainWork = Table.insert
      (db.db.chainWork.filter (·.1 ≠ chainWorkKey prev.chainwork prev.hash))
      (chainWorkKey entry.chainwork entry.hash) entry := rfl
  have hlt : ∀ {hash e}, db.getEntryByHash hash = some e → e.hash < 2 ^ 256 := by
    intro hash e he
    rw [tree.hash_eq he, ← tree.header_hash he]
    exact hbound _
  have hentry : entry.hash < 2 ^ 256 := hheader ▸ hbound _
  have hsorted : Table.Sorted
      (db.db.chainWork.filter (·.1 ≠ chainWorkKey prev.chainwork prev.hash)) :=
    index.sorted.filter _
  have hprevHash := tree.hash_eq hprev
  -- no stored entry is a child of the new one
  have hchildless : ∀ hash child, db.getEntryByHash hash = some child →
      child.prevBlock ≠ entry.hash := by
    intro hash child hchild heq
    by_cases hgen : child = env.genesisEntry
    · subst hgen
      exact law.blockHash_ne_zero entry.header (hheader ▸ heq ▸ law.genesis_prev)
    · obtain ⟨p, hp⟩ := tree.rooted.exists_parent hchild hgen
      rw [heq, hnew] at hp
      cases hp
  have hother : ∀ {hash e}, db.getEntryByHash hash = some e → e.hash ≠ entry.hash := by
    intro hash e he heq
    rw [← heq, tree.self he] at hnew
    cases hnew
  refine ⟨hcolumn ▸ hsorted.insert _ _, fun {key e} => ?_⟩
  rw [hcolumn, hsorted.mem_insert, List.mem_filter, index.mem_iff]
  simp only [hget, decide_eq_true_eq, Prod.mk.injEq]
  constructor
  · rintro (⟨rfl, rfl⟩ | ⟨⟨⟨he, rfl, hleaf⟩, hne⟩, -⟩)
    · refine ⟨by simp, rfl, fun hash child hchild => ?_⟩
      split_ifs at hchild
      · cases hchild
        rw [← hprevHash]
        exact hother hprev
      · exact hchildless hash child hchild
    · refine ⟨by rw [if_neg (hother he), he], rfl, fun hash child hchild => ?_⟩
      split_ifs at hchild
      · cases hchild
        intro heq
        rw [heq, he] at hprev
        cases hprev
        exact hne rfl
      · exact hleaf hash child hchild
  · rintro ⟨he, rfl, hleaf⟩
    split_ifs at he with heq
    · cases he
      exact .inl ⟨rfl, rfl⟩
    · refine .inr ⟨⟨⟨he, rfl, fun hash child hchild => ?_⟩, fun hkey => ?_⟩, fun hkey => ?_⟩
      · refine hleaf hash child ?_
        rw [if_neg, hchild]
        rintro rfl
        cases hnew.symm.trans hchild
      · have hprevBlock := hleaf entry.hash entry (if_pos rfl)
        rw [chainWorkKey_hash (hlt he) (hlt hprev) hkey, hprevHash] at hprevBlock
        exact hprevBlock rfl
      · exact heq (chainWorkKey_hash (hlt he) hentry hkey)

theorem getMostWorkEntry_eq :
    db.getMostWorkEntry = Table.scanBest ChainEntry.chainwork db.db.chainWork := by
  unfold ChainDB.getMostWorkEntry Table.scanBest
  congr 1
  funext best row
  cases best with
  | none => rfl
  | some best => rfl

/-- The entry read from the index: of the stored entries with the most work, the one with
the least hash. -/
theorem TipIndex.getMostWorkEntry (tree : db.Tree env) (index : db.TipIndex)
    (htop : ∃ top, db.Heaviest top) : ∃ entry, db.getMostWorkEntry = some entry
      ∧ db.Heaviest entry ∧ ∀ e, db.Heaviest e → entry.hash ≤ e.hash := by
  -- an entry of the greatest work has no child, so the index holds it
  have hrow : ∀ e, db.Heaviest e → (chainWorkKey e.chainwork e.hash, e) ∈ db.db.chainWork := by
    rintro e ⟨he, hall⟩
    refine index.mem_iff.2 ⟨he, rfl, fun hash child hchild heq => ?_⟩
    have hlt := tree.chainwork_lt hchild (show db.getEntryByHash child.prevBlock = some e by
      rw [heq, he])
    exact absurd (hall hash child hchild) (by omega)
  obtain ⟨top, htop⟩ := htop
  obtain ⟨entry, hscan⟩ := Table.exists_scanBest ChainEntry.chainwork
    (List.ne_nil_of_mem (hrow top htop))
  obtain ⟨before, key, after, hcolumn, hbefore, hafter⟩ := Table.scanBest_eq_some hscan
  obtain ⟨hentry, hkey, -⟩ := index.mem_iff.1
    (show (key, entry) ∈ db.db.chainWork by rw [hcolumn]; simp)
  have hmax : ∀ row ∈ db.db.chainWork, row.2.chainwork ≤ entry.chainwork := by
    intro row hrow
    rw [hcolumn, List.mem_append, List.mem_cons] at hrow
    rcases hrow with hrow | rfl | hrow
    · exact (hbefore row hrow).le
    · exact le_rfl
    · exact hafter row hrow
  have hheaviest : db.Heaviest entry :=
    ⟨hentry, fun hash e he => (htop.2 hash e he).trans (hmax _ (hrow top htop))⟩
  refine ⟨entry, getMostWorkEntry_eq.trans hscan, hheaviest, fun e he => ?_⟩
  have hwork : e.chainwork = entry.chainwork :=
    le_antisymm (hheaviest.2 _ _ he.1) (he.2 _ _ hentry)
  have hmem := hrow e he
  rw [hcolumn, List.mem_append, List.mem_cons] at hmem
  rcases hmem with hmem | hmem | hmem
  · exact absurd (hbefore _ hmem) (by dsimp only; omega)
  · cases hmem
    exact le_rfl
  · have hsorted := index.sorted
    rw [hcolumn] at hsorted
    have hlt := (List.pairwise_cons.1 (List.pairwise_append.1 hsorted).2.1).1 _ hmem
    dsimp only at hlt
    rw [hkey, hwork, chainWorkKey_lt] at hlt
    exact hlt.le

/-! ## The entry in memory -/

theorem updateMostWork_congr (h : db'.mostWork = db.mostWork) (entry : ChainEntry) :
    (db'.updateMostWork entry).mostWork = (db.updateMostWork entry).mostWork := by
  unfold updateMostWork
  rw [h]
  split
  · rfl
  · split_ifs <;> simp [h]

/-- The skip pointer that `save_entry` recomputes is the one the entry has. -/
theorem saveEntry_mostWork {tip skip p : ChainEntry} (tree : db.Tree env) (main : db.Main tip)
    (skips : db.Skips) (hidle : db.Idle) (hnew : db.getEntryByHash entry.hash = none)
    (hprev : db.getEntryByHash entry.prevBlock = some prev)
    (hheight : entry.height = prev.height + 1) (hskip : entry.skip = skip.hash)
    (hanc : db.Ancestor prev skip) (hskipHeight : skip.height = getSkipHeight entry.height)
    (h : db.saveEntry entry p = .ok db') :
    db'.mostWork = (db.updateMostWork entry).mostWork := by
  have hlt := getSkipHeight_lt (show 0 < entry.height by omega)
  have hstored := hanc.stored tree (tree.self hprev)
  let staged : ChainDB := { db with
    pending := some db.state
    entryCache := db.entryCache.insertHashBatch entry }
  obtain ⟨a, ha, hanc', haheight⟩ := @getAncestor_new env staged tip entry (tree.congr rfl)
    ⟨main.top, main.above, main.stored, main.prev⟩ (skips.congr rfl) prev _ hnew
    (.inr ⟨skip, hskip ▸ hstored, .head hprev hanc, hskipHeight⟩) hprev hheight hlt
  obtain rfl : a = skip := by
    rcases Relation.ReflTransGen.cases_head hanc' with rfl | ⟨q, hq, hqa⟩
    · omega
    · cases hprev.symm.trans hq
      exact tree.rooted.ancestor_unique hprev hqa hanc (by omega)
  rw [saveEntry, start_eq hidle, bind_of_ok rfl] at h
  dsimp only at h
  split at h
  · rename_i hgen
    simp [ChainEntry.isGenesis, hheight] at hgen
  · have hsearch : staged.getSkip entry = .ok a := ha
    rw [hsearch] at h
    simp only [bind_eq_ok, pure_eq_ok] at h
    obtain ⟨_, hskip', _, rfl, db₁, hcommit, rfl⟩ := h
    cases hskip'
    have hmost : db₁.mostWork = db.mostWork := by rw [← Except.ok.inj hcommit]
    rw [← hskip]
    exact updateMostWork_congr hmost entry

/-- `update_most_work` keeps the entry with the greatest work, then the greatest hash. -/
theorem MostWorkKept.update (kept : db.MostWorkKept)
    (hmost : db'.mostWork = (db.updateMostWork entry).mostWork)
    (hget : ∀ hash, db'.getEntryByHash hash
      = if hash = entry.hash then some entry else db.getEntryByHash hash)
    (hnew : db.getEntryByHash entry.hash = none) : db'.MostWorkKept := by
  obtain ⟨m, hm, ⟨hstored, hmax⟩, hgreatest⟩ := kept
  have hstored' : db'.getEntryByHash m.hash = some m := by
    rw [hget, if_neg, hstored]
    intro heq
    rw [← heq, hstored] at hnew
    cases hnew
  have hentry : db'.getEntryByHash entry.hash = some entry := by rw [hget, if_pos rfl]
  have hcases : ∀ {hash e}, db'.getEntryByHash hash = some e →
      e = entry ∨ db.getEntryByHash hash = some e := by
    intro hash e he
    rw [hget] at he
    split_ifs at he with heq
    · exact .inl (Option.some.inj he).symm
    · exact .inr he
  -- an old entry that is among the heaviest now was so before, and has the work of `m`
  have hold : ∀ {e}, db'.Heaviest e → e ≠ entry → db.Heaviest e ∧ e.chainwork = m.chainwork := by
    rintro e ⟨he, hall⟩ hne
    have he := (hcases he).resolve_left hne
    have hge := hall _ _ hstored'
    have hle := hmax _ _ he
    exact ⟨⟨he, fun hash x hx => (hmax hash x hx).trans hge⟩, le_antisymm hle hge⟩
  unfold updateMostWork at hmost
  rw [hm] at hmost
  dsimp only at hmost
  split_ifs at hmost with hgt heq
  · refine ⟨entry, hmost, ⟨hentry, fun hash e he => ?_⟩, fun e he => ?_⟩
    · rcases hcases he with rfl | he
      · exact le_rfl
      · exact (hmax hash e he).trans hgt.le
    · by_cases hne : e = entry
      · exact hne ▸ le_rfl
      · have hle := he.2 _ _ hentry
        have hwork := (hold he hne).2
        omega
  · refine ⟨entry, hmost, ⟨hentry, fun hash e he => ?_⟩, fun e he => ?_⟩
    · rcases hcases he with rfl | he
      · exact le_rfl
      · exact heq.1 ▸ hmax hash e he
    · by_cases hne : e = entry
      · exact hne ▸ le_rfl
      · exact (hgreatest e (hold he hne).1).trans heq.2.le
  · refine ⟨m, hmost.trans hm, ⟨hstored', fun hash e he => ?_⟩, fun e he => ?_⟩
    · rcases hcases he with rfl | he
      · exact Nat.le_of_not_lt hgt
      · exact hmax hash e he
    · by_cases hne : e = entry
      · subst hne
        have hle := he.2 _ _ hstored'
        by_contra hlt
        exact heq ⟨le_antisymm (Nat.le_of_not_lt hgt) hle, Nat.lt_of_not_le hlt⟩
      · exact hgreatest e (hold he hne).1

end ChainDB

namespace Chain

open Relation

variable {env : Env} {c c' : Chain}

/-! ## Runs -/

/-- The headers, in memory and in the columns, are the same. -/
structure SameHeaders (db db' : ChainDB) : Prop where
  entry : db'.db.entry = db.db.entry
  cache : db'.entryCache.hash = db.entryCache.hash
  chainWork : db'.db.chainWork = db.db.chainWork
  mostWork : db'.mostWork = db.mostWork

/-- Only saving a header touches the headers: `connect` puts an entry in the cache that is
there already. -/
theorem Move.sameHeaders (inv : c.Inv env) (h : Move env c c') :
    SameHeaders c.db c'.db ∨ ∃ now header result,
      c.addHeader env now header = .ok (c', .ok result) := by
  cases h with
  | cache cache => exact .inl ⟨rfl, rfl, rfl, rfl⟩
  | header h => exact .inr ⟨_, _, _, h⟩
  | invalid _ _ => exact .inl ⟨rfl, rfl, rfl, rfl⟩
  | block _ _ _ _ hwrite =>
    obtain ⟨blocks, -, rfl⟩ := ChainDB.writeBlock_eq_ok hwrite
    exact .inl ⟨rfl, rfl, rfl, rfl⟩
  | @connect _ block entry hentry _ hblock hprev h =>
    obtain ⟨-, -, cache, ⟨e, he, -⟩ | ⟨view, state, db, -, -, -, -, hdb, rfl⟩⟩ := connect_eq_ok h
    · cases he
    have htip : c.db.getEntryByHash entry.prevBlock = some c.tip := by rw [hprev, inv.tip_stored]
    obtain ⟨record, blocks, -, -, rfl⟩ := ChainDB.connect_eq_ok (inv.withCache cache).idle
      (inv.tree.isGenesis_eq_false hentry htip) (inv.block_hash hblock) hdb
    exact .inl ⟨rfl, FMap.insert_of_lookup hentry, rfl, rfl⟩
  | disconnect h =>
    obtain ⟨block, prev, db, view, -, -, hdb, rfl⟩ := disconnect_eq_ok h
    obtain ⟨undo, record, -, -, rfl⟩ := ChainDB.disconnect_eq_ok inv.idle hdb
    exact .inl ⟨rfl, rfl, rfl, rfl⟩

theorem entriesSaved_move (inv : c.Inv env) (saved : c.db.EntriesSaved) (h : Move env c c') :
    c'.db.EntriesSaved := by
  rcases h.sameHeaders inv with same | ⟨now, header, result, h⟩
  · exact same.entry.trans (saved.trans same.cache.symm)
  · rcases addHeader_eq_ok h with ⟨_, hr, -⟩ | ⟨entry, _, _, _, -, -, -, -, -, -, -, -, hsave, rfl⟩
    · cases hr
    · obtain ⟨mostWork, rfl⟩ := ChainDB.saveEntry_eq_ok inv.idle hsave
      exact congrArg (Finmap.insert entry.hash entry) saved

theorem Visited.entriesSaved (law : env.Lawful) (h : Visited env c) : c.db.EntriesSaved := by
  obtain ⟨c₀, hnew, hrun⟩ := h
  refine ReflTransGen.invariant_with (P := fun c => c.db.EntriesSaved) (Q := Inv env)
    (fun _ _ hst hs => hs.move law hst) (fun _ _ hst hs hsaved => entriesSaved_move hs hsaved hst)
    hrun (Inv.new law hnew) ?_
  obtain ⟨mostWork, rfl⟩ := new_eq_ok law hnew
  rfl

/-- The cache and the state record in memory are what a restart would load: after every
committed operation of every run. -/
theorem restart_loads_cache (law : env.Lawful) (h : Visited env c) :
    ChainEntryCache.new c.db.db = c.db.entryCache
    ∧ (∃ stored, c.db.db.chainState = some stored ∧ stored.tip = c.db.state.tip
      ∧ stored.tx = c.db.state.tx ∧ stored.coin = c.db.state.coin
      ∧ stored.value = c.db.state.value)
    ∧ (c.db.reopen env).entryCache = c.db.entryCache
    ∧ (c.db.reopen env).state = { c.db.state with commited := false } := by
  have inv := h.inv law
  have hcache := ChainDB.entryCache_new inv.tree inv.idle.batch (h.entriesSaved law) inv.hash_column
  refine ⟨hcache, ⟨_, inv.state_column, rfl, rfl, rfl, rfl⟩, hcache, ?_⟩
  rw [ChainDB.reopen, inv.state_column]
  rfl

/-- The cache after the first block. -/
theorem restart_loads_cache_first : ∃ c : Chain, c.tip.height = 1
    ∧ ChainEntryCache.new c.db.db = c.db.entryCache := by
  obtain ⟨c, hc, hP⟩ := exists_reachable Small.env [.add 100 Small.first]
    (fun c => decide (c.tip.height = 1)) (by decide) (by decide +kernel)
  exact ⟨c, of_decide_eq_true hP, (restart_loads_cache Small.lawful (hc.visited Small.lawful)).1⟩

theorem mostWork_new (law : env.Lawful) (h : Chain.new env = .ok c) :
    c.db.mostWork = some env.genesisEntry := by
  have hmost : c.db.mostWork = c.db.getMostWorkEntry := by
    simp only [Chain.new, ChainDB.openFresh, bind_eq_ok, pure_eq_ok] at h
    obtain ⟨_, ⟨db, -, rfl⟩, h⟩ := h
    split at h
    · cases h
    split at h
    · split at h
      · cases h
        rfl
      · cases h
    · simp only [bind_eq_ok, pure_eq_ok] at h
      obtain ⟨_, -, h⟩ := h
      cases h
      rfl
  obtain ⟨mostWork, rfl⟩ := new_eq_ok law h
  exact hmost

theorem mostWorkKept_new (law : env.Lawful) (h : Chain.new env = .ok c) : c.db.MostWorkKept := by
  have hmost := mostWork_new law h
  obtain ⟨mostWork, rfl⟩ := new_eq_ok law h
  refine ⟨env.genesisEntry, hmost, ⟨getEntryByHash_fresh.2 ⟨rfl, rfl⟩, fun hash e he => ?_⟩,
    fun e he => ?_⟩
  · rw [(getEntryByHash_fresh.1 he).2]
  · rw [(getEntryByHash_fresh.1 he.1).2]

theorem tipIndex_new (law : env.Lawful) (h : Chain.new env = .ok c) : c.db.TipIndex := by
  obtain ⟨mostWork, rfl⟩ := new_eq_ok law h
  refine ⟨List.pairwise_singleton _ _, fun {key e} => ?_⟩
  have hcolumn : (ChainDB.fresh env mostWork).db.chainWork =
    [(chainWorkKey env.genesisEntry.chainwork env.genesisEntry.hash, env.genesisEntry)] := rfl
  rw [hcolumn, List.mem_singleton, Prod.mk.injEq]
  constructor
  · rintro ⟨rfl, rfl⟩
    refine ⟨getEntryByHash_fresh.2 ⟨rfl, rfl⟩, rfl, fun hash child hchild heq => ?_⟩
    rw [(getEntryByHash_fresh.1 hchild).2] at heq
    exact law.blockHash_ne_zero env.genesisBlock.header (heq.symm.trans law.genesis_prev)
  · rintro ⟨he, rfl, -⟩
    obtain rfl := (getEntryByHash_fresh.1 he).2
    exact ⟨rfl, rfl⟩

theorem SameHeaders.getEntryByHash {db db' : ChainDB} (same : SameHeaders db db') :
    db'.getEntryByHash = db.getEntryByHash := by
  unfold ChainDB.getEntryByHash
  rw [same.cache]

/-- What a saved header is, as `save_entry` is given it. -/
theorem addHeader_saved (inv : c.Inv env) (skips : c.db.Skips) {now : Nat} {header : BlockHeader}
    {entry prev : ChainEntry} (h : c.addHeader env now header = .ok (c', .ok (entry, prev))) :
    c.db.getEntryByHash entry.prevBlock = some prev ∧ entry.hash = env.blockHash entry.header
      ∧ c'.db.mostWork = (c.db.updateMostWork entry).mostWork
      ∧ ∃ mostWork, c' = { c with db := c.db.headerSaved entry prev mostWork } := by
  obtain ⟨hnew, -⟩ := getEntryByHash_addHeader inv h
  rcases addHeader_eq_ok h with ⟨_, hr, -⟩ | ⟨_, _, skip, db, hr, -, -, -, hprev, hskip, hentry,
    -, hsave, rfl⟩
  · cases hr
  cases hr
  have hself := inv.tree.self hprev
  obtain ⟨-, hanc, hheight⟩ := ChainDB.getAncestor_eq_ok inv.tree inv.main skips hself hskip
  have hparent : c.db.getEntryByHash entry.prevBlock = some prev := by
    rw [hentry]
    exact hprev
  have hmost := ChainDB.saveEntry_mostWork inv.tree inv.main skips inv.idle hnew hparent
    (by rw [hentry]; rfl) (by rw [hentry]) hanc (by rw [hentry]; exact hheight) hsave
  obtain ⟨mostWork, rfl⟩ := ChainDB.saveEntry_eq_ok inv.idle hsave
  exact ⟨hparent, by rw [hentry]; rfl, hmost, mostWork, rfl⟩

theorem mostWorkKept_move (inv : c.Inv env) (skips : c.db.Skips) (kept : c.db.MostWorkKept)
    (h : Move env c c') : c'.db.MostWorkKept := by
  rcases h.sameHeaders inv with same | ⟨now, header, ⟨entry, prev⟩, h⟩
  · obtain ⟨m, hm, hmax, hgreatest⟩ := kept
    refine ⟨m, same.mostWork.trans hm, ?_, ?_⟩
    · unfold ChainDB.Heaviest
      rw [same.getEntryByHash]
      exact hmax
    · unfold ChainDB.Heaviest
      rw [same.getEntryByHash]
      exact hgreatest
  · obtain ⟨hnew, hget⟩ := getEntryByHash_addHeader inv h
    exact kept.update (addHeader_saved inv skips h).2.2.1 hget hnew

theorem tipIndex_move (law : env.Lawful) (hbound : ∀ header, env.blockHash header < 2 ^ 256)
    (inv : c.Inv env) (skips : c.db.Skips) (index : c.db.TipIndex) (h : Move env c c') :
    c'.db.TipIndex := by
  rcases h.sameHeaders inv with same | ⟨now, header, ⟨entry, prev⟩, h⟩
  · refine ⟨same.chainWork ▸ index.sorted, ?_⟩
    rw [same.chainWork, same.getEntryByHash]
    exact index.mem_iff
  · obtain ⟨hprev, hhash, -, mostWork, rfl⟩ := addHeader_saved inv skips h
    exact index.headerSaved law hbound inv.tree hhash (getEntryByHash_addHeader inv h).1 hprev
      mostWork

/-- What every move keeps, given the skip pointers. -/
theorem Visited.induction_skips (law : env.Lawful) {P : Chain → Prop}
    (hnew : ∀ c, Chain.new env = .ok c → P c)
    (hmove : ∀ c c', c.Inv env → c.db.Skips → Move env c c' → P c → P c') (h : Visited env c) :
    P c := by
  obtain ⟨c₀, h₀, hrun⟩ := h
  exact ReflTransGen.invariant_with (P := P) (Q := fun c => c.Inv env ∧ c.db.Skips)
    (fun _ _ hst hs => ⟨hs.1.move law hst, skips_move hs.1 hs.2 hst⟩)
    (fun _ _ hst hs hP => hmove _ _ hs.1 hs.2 hst hP) hrun
    ⟨Inv.new law h₀, Visited.skips law ⟨c₀, h₀, .refl⟩⟩ (hnew c₀ h₀)

theorem Visited.mostWorkKept (law : env.Lawful) (h : Visited env c) : c.db.MostWorkKept :=
  Visited.induction_skips law (P := fun c => c.db.MostWorkKept) (fun _ => mostWorkKept_new law)
    (fun _ _ inv skips hst kept => mostWorkKept_move inv skips kept hst) h

theorem Visited.tipIndex (law : env.Lawful) (hbound : ∀ header, env.blockHash header < 2 ^ 256)
    (h : Visited env c) : c.db.TipIndex :=
  Visited.induction_skips law (P := fun c => c.db.TipIndex) (fun _ => tipIndex_new law)
    (fun _ _ inv skips hst index => tipIndex_move law hbound inv skips index hst) h

/-- A restart finds the entry with the most work that the running node has exactly when no
two stored headers share the most work. -/
theorem restart_mostWork_iff (law : env.Lawful)
    (hbound : ∀ header, env.blockHash header < 2 ^ 256) (h : Reachable env c) :
    c.db.mostWork = c.db.getMostWorkEntry
      ↔ ∀ e e', c.db.Heaviest e → c.db.Heaviest e' → e = e' := by
  have hvisited := h.visited law
  have inv := hvisited.inv law
  obtain ⟨m, hm, hmax, hgreatest⟩ := hvisited.mostWorkKept law
  obtain ⟨read, hread, hmaxRead, hleast⟩ :=
    (hvisited.tipIndex law hbound).getMostWorkEntry inv.tree ⟨m, hmax⟩
  rw [hm, hread]
  constructor
  · rintro heq
    cases heq
    have hsame : ∀ e, c.db.Heaviest e → e = m := by
      intro e he
      have hhash : e.hash = m.hash := le_antisymm (hgreatest e he) (hleast e he)
      have hstored := he.1
      rw [hhash, hmax.1] at hstored
      exact (Option.some.inj hstored).symm
    intro e e' he he'
    rw [hsame e he, hsame e' he']
  · intro hunique
    rw [hunique m read hmax hmaxRead]

end Chain

/-! ## Two headers of equal work -/

namespace Small

/-- The small network with 32-byte hashes. -/
def shortEnv : Env := { env with blockHash := fun header => header.nonce % 2 ^ 255 + 1 }

theorem shortEnv_lawful : shortEnv.Lawful where
  blockHash_ne_zero _ := Nat.succ_ne_zero _
  work_pos _ _ := Nat.two_pos
  genesis_prev := rfl

theorem shortEnv_bound (header : BlockHeader) : shortEnv.blockHash header < 2 ^ 256 := by
  have hle : header.nonce % 2 ^ 255 + 1 ≤ 2 ^ 255 := Nat.mod_lt _ (Nat.two_pow_pos 255)
  exact hle.trans_lt (Nat.pow_lt_pow_right (by decide) (by decide))

/-- A header on genesis. -/
def child (nonce : Nat) : BlockHeader := ⟨4, shortEnv.genesisEntry.hash, 0, 20, 0, nonce⟩

end Small

namespace Chain

theorem restart_mostWork_iff_child : ∃ c, Reachable Small.shortEnv c
    ∧ (c.db.mostWork = c.db.getMostWorkEntry
      ↔ ∀ e e', c.db.Heaviest e → c.db.Heaviest e' → e = e') := by
  obtain ⟨c, hc, -⟩ := exists_reachable Small.shortEnv [.addHeader 100 (Small.child 1)]
    (fun _ => true) (by decide) (by decide +kernel)
  exact ⟨c, hc, restart_mostWork_iff Small.shortEnv_lawful Small.shortEnv_bound hc⟩

/-- After two headers on genesis the node keeps one and a restart reads the other. -/
theorem siblings_differ_after_restart : ∃ c, Reachable Small.shortEnv c
    ∧ c.db.mostWork ≠ c.db.getMostWorkEntry := by
  obtain ⟨c, hc, hP⟩ := exists_reachable Small.shortEnv
    [.addHeader 100 (Small.child 1), .addHeader 100 (Small.child 2)]
    (fun c => decide (c.db.mostWork ≠ c.db.getMostWorkEntry)) (by decide) (by decide +kernel)
  exact ⟨c, hc, of_decide_eq_true hP⟩

end Chain

end BitcoinNode
