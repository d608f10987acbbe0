import BitcoinNode.Blockchain.Loops
import BitcoinNode.Blockchain.Restart

/-!
# Children

The two columns that lead from a block to the ones above it: `NextHashes` lists every stored
child once, and `NextHash` leads from a main-chain block to the next one. The search for the
best continuation goes through the first.
-/

namespace BitcoinNode

namespace ChainDB

def getNextHash (db : ChainDB) (hash : BlockHash) : Option BlockHash := db.db.nextHash.lookup hash

def getNext (db : ChainDB) (entry : ChainEntry) : Option ChainEntry :=
  (db.getNextHash entry.hash).bind db.getEntryByHash

/-- A main-chain block has one height. -/
theorem Main.height_unique {db : ChainDB} {tip : ChainEntry} (main : db.Main tip) {h h' : Nat}
    {hash : BlockHash} (hh : db.entryCache.height.lookup h = some hash)
    (hh' : db.entryCache.height.lookup h' = some hash) : h = h' := by
  obtain ⟨e, he, rfl⟩ := main.stored hh
  obtain ⟨e', he', rfl⟩ := main.stored hh'
  rw [he] at he'
  rw [Option.some.inj he']

end ChainDB

namespace Chain

open Relation

variable {env : Env} {c c' : Chain} {block : Block} {entry : ChainEntry}

/-- What the two columns hold. -/
structure Nexts (c : Chain) : Prop where
  nodup (hash : BlockHash) : (c.db.getNextHashes hash).Nodup
  main {hash next : BlockHash} : c.db.getNextHash hash = some next ↔
    ∃ h, c.db.entryCache.height.lookup h = some hash
      ∧ c.db.entryCache.height.lookup (h + 1) = some next

theorem Nexts.mono (h : c.Nexts) (hdb : c'.db.db = c.db.db)
    (hheight : c'.db.entryCache.height = c.db.entryCache.height) : c'.Nexts := by
  have hnexts : c'.db.getNextHashes = c.db.getNextHashes := by
    funext hash
    rw [ChainDB.getNextHashes, ChainDB.getNextHashes, hdb]
  refine ⟨hnexts ▸ h.nodup, fun {hash next} => ?_⟩
  rw [ChainDB.getNextHash, hdb, hheight]
  exact h.main

/-- A saved header is a new child of its parent. -/
theorem Nexts.headerSaved (h : c.Nexts) (inv : c.Inv env) {prev : ChainEntry}
    {mostWork : Option ChainEntry} (hnew : c.db.getEntryByHash entry.hash = none) :
    Nexts { c with db := c.db.headerSaved entry prev mostWork } := by
  refine ⟨fun hash => ?_, h.main⟩
  have hget : (c.db.headerSaved entry prev mostWork).getNextHashes hash
      = if hash = prev.hash then c.db.getNextHashes prev.hash ++ [entry.hash]
        else c.db.getNextHashes hash := by
    unfold ChainDB.getNextHashes
    simp only [ChainDB.headerSaved, Database.writeBatch_cons, Database.writeBatch_nil,
      Operation.apply, Database.insert, Database.remove, ChainDB.getNextHashes]
    split_ifs with heq
    · subst heq
      simp
    · rw [Finmap.lookup_insert_of_ne _ heq]
  change ((c.db.headerSaved entry prev mostWork).getNextHashes hash).Nodup
  rw [hget]
  split_ifs
  · refine List.nodup_append.2 ⟨h.nodup _, List.nodup_singleton _, ?_⟩
    rintro child hchild _ hlast rfl
    obtain ⟨e, he, -⟩ := inv.children.1 hchild
    rw [List.mem_singleton.1 hlast, hnew] at he
    cases he
  · exact h.nodup hash

/-- Connecting a block leads from the old tip to it. -/
theorem Nexts.connect (h : c.Nexts) (inv : c.Inv env)
    (hentry : c.db.getEntryByHash entry.hash = some entry)
    (hblock : c.db.getBlock entry.hash = some block) (hprev : entry.prevBlock = c.tip.hash)
    (hconnect : c.connect env block entry c.tip = .ok (c', .ok entry)) : c'.Nexts := by
  have htip : c.db.getEntryByHash entry.prevBlock = some c.tip := by rw [hprev, inv.tip_stored]
  have hheight := inv.tree.height_eq hentry htip
  obtain ⟨-, -, cache, ⟨e, he, -⟩ | ⟨view, state, db, -, -, -, -, hdb, rfl⟩⟩ :=
    connect_eq_ok hconnect
  · cases he
  obtain ⟨record, blocks, -, -, rfl⟩ := ChainDB.connect_eq_ok (inv.withCache cache).idle
    (inv.tree.isGenesis_eq_false hentry htip) (inv.block_hash hblock) hdb
  refine ⟨h.nodup, fun {hash next} => ?_⟩
  change (c.db.db.nextHash.insert entry.prevBlock entry.hash).lookup hash = some next
    ↔ ∃ n, (c.db.entryCache.height.insert entry.height entry.hash).lookup n = some hash
      ∧ (c.db.entryCache.height.insert entry.height entry.hash).lookup (n + 1) = some next
  have hbelow : ∀ n, n ≠ entry.height →
      (c.db.entryCache.height.insert entry.height entry.hash).lookup n
        = c.db.entryCache.height.lookup n := fun n hn => Finmap.lookup_insert_of_ne _ hn
  by_cases hold : hash = entry.prevBlock
  · subst hold
    rw [Finmap.lookup_insert, hprev]
    constructor
    · rintro hnext
      refine ⟨c.tip.height, ?_, ?_⟩
      · rw [hbelow _ (by omega), inv.main.top]
      · rw [← hheight, Finmap.lookup_insert, hnext]
    · rintro ⟨n, hn, hnext⟩
      have hne : n ≠ entry.height := by
        rintro rfl
        rw [hbelow _ (by omega), inv.main.above (by omega)] at hnext
        cases hnext
      rw [hbelow n hne] at hn
      obtain rfl := inv.main.height_unique hn inv.main.top
      rwa [← hheight, Finmap.lookup_insert] at hnext
  · rw [Finmap.lookup_insert_of_ne _ hold]
    refine h.main.trans (exists_congr fun n => ?_)
    have hne : n = c.tip.height → c.db.entryCache.height.lookup n ≠ some hash := by
      rintro rfl hn
      rw [inv.main.top] at hn
      exact hold (hprev ▸ (Option.some.inj hn).symm)
    by_cases hn : n = c.tip.height ∨ n = entry.height
    · have habove := inv.main.above (h := entry.height) (by omega)
      have habove' := inv.main.above (h := entry.height + 1) (by omega)
      rcases hn with rfl | rfl
      · rw [hbelow c.tip.height (by omega)]
        exact iff_of_false (fun hn => hne rfl hn.1) (fun hn => hne rfl hn.1)
      · rw [hbelow (entry.height + 1) (by omega), habove']
        exact iff_of_false (fun hn => by cases hn.2) (fun hn => by cases hn.2)
    · push Not at hn
      rw [hbelow n hn.2, hbelow (n + 1) (by omega)]

theorem Nexts.disconnect (h : c.Nexts) (inv : c.Inv env)
    (hdisc : c.disconnect env c.tip = .ok c') : c'.Nexts := by
  obtain ⟨-, hparent⟩ := disconnect_sameStore inv hdisc
  have hheight := inv.tree.height_eq inv.tip_stored hparent
  obtain ⟨block, prev, db, view, -, -, hdb, rfl⟩ := disconnect_eq_ok hdisc
  obtain ⟨undo, record, -, -, rfl⟩ := ChainDB.disconnect_eq_ok inv.idle hdb
  change c.tip.height = prev.height + 1 at hheight
  refine ⟨h.nodup, fun {hash next} => ?_⟩
  change (c.db.db.nextHash.erase c.tip.prevBlock).lookup hash = some next
    ↔ ∃ n, (c.db.entryCache.height.erase c.tip.height).lookup n = some hash
      ∧ (c.db.entryCache.height.erase c.tip.height).lookup (n + 1) = some next
  have hbelow : c.db.entryCache.height.lookup prev.height = some c.tip.prevBlock :=
    inv.main.prev (hheight ▸ inv.main.top) inv.tip_stored
  simp only [FMap.lookup_erase_eq_some]
  constructor
  · rintro ⟨hne, hnext⟩
    obtain ⟨n, hn, hn'⟩ := h.main.1 hnext
    refine ⟨n, ⟨?_, hn⟩, ?_, hn'⟩
    · rintro rfl
      rw [inv.main.above (Nat.lt_succ_self _)] at hn'
      cases hn'
    · rintro hn1
      obtain rfl : n = prev.height := by omega
      exact hne (Option.some.inj (hn.symm.trans hbelow))
  · rintro ⟨n, ⟨-, hn⟩, hne, hn'⟩
    refine ⟨?_, h.main.2 ⟨n, hn, hn'⟩⟩
    rintro rfl
    have := inv.main.height_unique hn hbelow
    omega

theorem Nexts.move (h : c.Nexts) (inv : c.Inv env) (hmove : Move env c c') : c'.Nexts := by
  cases hmove with
  | cache cache => exact h.mono rfl rfl
  | header hadd =>
    rcases addHeader_eq_ok hadd with
      ⟨_, he, -⟩ | ⟨entry, prev, skip, db, -, -, -, hnew, -, -, rfl, -, hsave, rfl⟩
    · cases he
    · obtain ⟨mostWork, rfl⟩ := ChainDB.saveEntry_eq_ok inv.idle hsave
      exact h.headerSaved inv hnew
  | invalid _ _ => exact h.mono rfl rfl
  | block _ _ hnew _ hwrite =>
    obtain ⟨-, hdb, -⟩ := getBlock_writeBlock inv hnew hwrite
    exact h.mono (congrArg (·.db) hdb) (congrArg (·.entryCache.height) hdb)
  | connect hentry _ hblock hprev hconnect => exact h.connect inv hentry hblock hprev hconnect
  | disconnect hdisc => exact h.disconnect inv hdisc

/-- Along every run `NextHashes` lists a child once and `NextHash` follows the main chain. -/
theorem Visited.nexts (law : env.Lawful) (h : Visited env c) : c.Nexts := by
  obtain ⟨c₀, hnew, hrun⟩ := h
  refine ReflTransGen.invariant_with (P := fun c => c.Nexts) (Q := Inv env)
    (fun _ _ hst hs => hs.move law hst) (fun _ _ hst hs hnexts => hnexts.move hs hst) hrun
    (Inv.new law hnew) ?_
  obtain ⟨mostWork, rfl⟩ := new_eq_ok law hnew
  refine ⟨fun hash => ?_, fun {hash next} => ?_⟩
  · unfold ChainDB.getNextHashes
    simp only [ChainDB.fresh, Database.writeBatch_cons, Database.writeBatch_nil, Operation.apply,
      Database.insert, Database.empty]
    rcases eq_or_ne hash 0 with rfl | hne
    · simp
    · simp [Finmap.lookup_insert_of_ne _ hne]
  · have hnone : (ChainDB.fresh env mostWork).getNextHash hash = none := by
      simp [ChainDB.getNextHash, ChainDB.fresh, Operation.apply, Database.insert, Database.empty]
    dsimp only
    rw [hnone]
    refine iff_of_false (by simp) ?_
    rintro ⟨n, -, hn⟩
    exact absurd (lookup_height_fresh.1 hn).1 n.succ_ne_zero

/-! ## The best continuation -/

/-- A path that goes somewhere ends in more work than it started with. -/
theorem Linked.lt_lastWork (inv : c.Inv env) {path : List ChainEntry} (hne : path ≠ [])
    (hentry : c.db.getEntryByHash entry.hash = some entry) (h : c.Linked entry path) :
    entry.chainwork < lastWork path := by
  obtain ⟨e, path, rfl⟩ := List.exists_cons_of_ne_nil hne
  obtain ⟨⟨hstored, hprev, -⟩, hpath⟩ := h
  have hlt := inv.tree.chainwork_lt hstored (by rw [hprev, hentry])
  exact hlt.trans_le (Linked.chainwork_le inv hstored hpath)

/-- The best continuation of a ready entry is a path of ready entries from a child on, and no
ready entry reached from it through ready ones has more work than the last of them. -/
theorem getNextBest_complete (law : env.Lawful) (h : Visited env c)
    (hentry : c.db.getEntryByHash entry.hash = some entry)
    (hready : c.isBlockReady entry.hash = true) :
    ∃ path, c.getNextBest entry = .ok path ∧ c.Linked entry path
      ∧ (∀ es a, c.Linked entry (es ++ [a]) → ∃ last ∈ path.getLast?, a.chainwork ≤ last.chainwork)
      ∧ (path = [] ↔ ∀ a, ¬ c.Extends entry a)
      ∧ ∀ hash, (c.db.getNextHashes hash).Nodup ∧ ∀ child, child ∈ c.db.getNextHashes hash
        ↔ ∃ e, c.db.getEntryByHash child = some e ∧ e.prevBlock = hash := by
  have inv := h.inv law
  obtain ⟨path, hpath⟩ := getNextBest_exists inv hentry
  obtain ⟨hlinked, hbest⟩ := getNextBest_eq_ok inv hpath hready
  have hwork : ∀ es a, c.Linked entry (es ++ [a]) →
      ∃ last ∈ path.getLast?, a.chainwork ≤ last.chainwork := by
    intro es a hes
    have hle := hbest _ hes
    have hlt := Linked.lt_lastWork inv (by simp) hentry hes
    have hlast : lastWork (es ++ [a]) = a.chainwork := by simp [lastWork]
    cases hpath : path.getLast? with
    | none =>
      rw [List.getLast?_eq_none_iff.1 hpath, show lastWork [] = 0 from rfl] at hle
      omega
    | some last =>
      have : lastWork path = last.chainwork := by simp [lastWork, hpath]
      exact ⟨last, rfl, by omega⟩
  refine ⟨path, hpath, hlinked, hwork, ⟨?_, fun hnone => ?_⟩, fun hash =>
    ⟨(h.nexts law).nodup hash, fun child => inv.children⟩⟩
  · rintro rfl a ha
    obtain ⟨last, hlast, -⟩ := hwork [] a ⟨ha, trivial⟩
    cases hlast
  · cases path with
    | nil => rfl
    | cons a path => exact absurd hlinked.1 (hnone a)

/-- From the genesis entry after one block. -/
theorem getNextBest_complete_first : ∃ c path, Reachable Small.env c ∧ c.tip.height = 1
    ∧ c.getNextBest Small.env.genesisEntry = .ok path
    ∧ c.Linked Small.env.genesisEntry path
    ∧ ∀ es a, c.Linked Small.env.genesisEntry (es ++ [a]) →
      ∃ last ∈ path.getLast?, a.chainwork ≤ last.chainwork := by
  obtain ⟨c, hc, hP⟩ := exists_reachable Small.env [.add 100 Small.first]
    (fun c => c.tip.height == 1 && c.isBlockReady Small.env.genesisEntry.hash) (by decide)
    (by decide +kernel)
  obtain ⟨hheight, hready⟩ := Bool.and_eq_true_iff.1 hP
  have hvisited := hc.visited Small.lawful
  obtain ⟨path, hpath, hlinked, hbest, -⟩ :=
    getNextBest_complete Small.lawful hvisited (hvisited.inv Small.lawful).tree.genesis hready
  exact ⟨c, path, hc, eq_of_beq hheight, hpath, hlinked, hbest⟩

end Chain

end BitcoinNode
