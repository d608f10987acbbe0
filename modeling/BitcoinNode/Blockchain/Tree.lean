import BitcoinNode.Library.Forest
import BitcoinNode.Blockchain.Effects

/-!
# The header tree and the main chain

The stored entries form a tree rooted at the genesis entry, in which height and work grow
along every branch. The height index lists one branch of it, from genesis to the tip.
-/

namespace BitcoinNode

/-- What the node relies on of the library: no header hashes to the default hash, a header
that passes its proof-of-work check carries work, and the genesis block has no parent. -/
structure Env.Lawful (env : Env) : Prop where
  blockHash_ne_zero (header : BlockHeader) : env.blockHash header ≠ 0
  work_pos (header : BlockHeader) : env.validatePow header = true → 0 < env.work header
  genesis_prev : env.genesisBlock.header.prevBlockhash = 0

namespace ChainDB

/-- The second entry is the first one or one of its stored ancestors. -/
abbrev Ancestor (db : ChainDB) : ChainEntry → ChainEntry → Prop :=
  Forest.Ancestor ChainEntry.prevBlock db.getEntryByHash

/-- The stored entries form a tree. -/
structure Tree (env : Env) (db : ChainDB) : Prop where
  hash_eq {hash : BlockHash} {e : ChainEntry} : db.getEntryByHash hash = some e → e.hash = hash
  header_hash {hash : BlockHash} {e : ChainEntry} :
    db.getEntryByHash hash = some e → env.blockHash e.header = hash
  genesis : db.getEntryByHash env.genesisEntry.hash = some env.genesisEntry
  rooted : Forest.Rooted ChainEntry.prevBlock ChainEntry.height db.getEntryByHash env.genesisEntry
  chainwork {hash : BlockHash} {e p : ChainEntry} : db.getEntryByHash hash = some e →
    db.getEntryByHash e.prevBlock = some p →
      0 < env.work e.header ∧ e.chainwork = p.chainwork + env.work e.header

/-- The height index lists the branch that ends with the tip. -/
structure Main (db : ChainDB) (tip : ChainEntry) : Prop where
  top : db.entryCache.height.lookup tip.height = some tip.hash
  above {h : Nat} : tip.height < h → db.entryCache.height.lookup h = none
  stored {h : Nat} {hash : BlockHash} : db.entryCache.height.lookup h = some hash →
    ∃ e, db.getEntryByHash hash = some e ∧ e.height = h
  prev {h : Nat} {hash : BlockHash} {e : ChainEntry} :
    db.entryCache.height.lookup (h + 1) = some hash → db.getEntryByHash hash = some e →
      db.entryCache.height.lookup h = some e.prevBlock

theorem isMainChain_iff {db : ChainDB} {e : ChainEntry} :
    db.isMainChain e = true ↔ db.entryCache.height.lookup e.height = some e.hash := by
  simp [isMainChain]

namespace Tree

variable {env : Env} {db : ChainDB} (tree : db.Tree env)

include tree

theorem self {hash : BlockHash} {e : ChainEntry} (h : db.getEntryByHash hash = some e) :
    db.getEntryByHash e.hash = some e := by
  rwa [tree.hash_eq h]

theorem height_eq {hash : BlockHash} {e p : ChainEntry} (he : db.getEntryByHash hash = some e)
    (hp : db.getEntryByHash e.prevBlock = some p) : e.height = p.height + 1 :=
  tree.rooted.rank_parent he hp

theorem chainwork_lt {hash : BlockHash} {e p : ChainEntry} (he : db.getEntryByHash hash = some e)
    (hp : db.getEntryByHash e.prevBlock = some p) : p.chainwork < e.chainwork := by
  have := tree.chainwork he hp
  omega

theorem getEntryByHash_zero (law : env.Lawful) : db.getEntryByHash 0 = none := by
  cases h : db.getEntryByHash 0 with
  | none => rfl
  | some e => exact absurd (tree.header_hash h) (law.blockHash_ne_zero _)

/-- An entry below the genesis entry has a parent. -/
theorem exists_parent {hash : BlockHash} {e : ChainEntry} (he : db.getEntryByHash hash = some e)
    (hgen : e.isGenesis = false) : ∃ p, db.getEntryByHash e.prevBlock = some p := by
  refine tree.rooted.exists_parent he ?_
  rintro rfl
  cases hgen

theorem isGenesis_eq_false {hash : BlockHash} {e p : ChainEntry}
    (he : db.getEntryByHash hash = some e) (hp : db.getEntryByHash e.prevBlock = some p) :
    e.isGenesis = false := by
  have := tree.height_eq he hp
  simp [ChainEntry.isGenesis, this]

end Tree

namespace Main

variable {env : Env} {db : ChainDB} {tip : ChainEntry} (main : db.Main tip)

include main

theorem lookup_le {h : Nat} {hash : BlockHash} (hh : db.entryCache.height.lookup h = some hash) :
    h ≤ tip.height := by
  by_contra hlt
  rw [main.above (by omega)] at hh
  cases hh

/-- Every height up to the tip is filled. -/
theorem exists_lookup {h : Nat} (hh : h ≤ tip.height) :
    ∃ hash, db.entryCache.height.lookup h = some hash := by
  induction hh using Nat.decreasingInduction with
  | self => exact ⟨_, main.top⟩
  | of_succ k _ ih =>
    obtain ⟨hash, hhash⟩ := ih
    obtain ⟨e, he, -⟩ := main.stored hhash
    exact ⟨_, main.prev hhash he⟩

theorem isMainChain_tip : db.isMainChain tip = true := isMainChain_iff.2 main.top

/-- The parent of a main-chain entry is on the main chain. -/
theorem isMainChain_parent (tree : db.Tree env) {e p : ChainEntry}
    (he : db.getEntryByHash e.hash = some e) (hp : db.getEntryByHash e.prevBlock = some p)
    (h : db.isMainChain e = true) : db.isMainChain p = true := by
  have hheight := tree.height_eq he hp
  rw [isMainChain_iff, hheight] at h
  rw [isMainChain_iff, main.prev h he, tree.hash_eq hp]

theorem isMainChain_of_ancestor (tree : db.Tree env) {e a : ChainEntry}
    (he : db.getEntryByHash e.hash = some e) (ha : db.Ancestor e a)
    (h : db.isMainChain e = true) : db.isMainChain a = true := by
  induction ha using Relation.ReflTransGen.head_induction_on with
  | refl => exact h
  | head hp _ ih => exact ih (tree.self hp) (main.isMainChain_parent tree he hp h)

/-- The main chain is one branch: it is the ancestry of its tip. -/
theorem isMainChain_iff_ancestor (tree : db.Tree env) {a : ChainEntry}
    (htip : db.getEntryByHash tip.hash = some tip) (ha : db.getEntryByHash a.hash = some a) :
    db.isMainChain a = true ↔ db.Ancestor tip a := by
  refine ⟨fun h => ?_, fun h => main.isMainChain_of_ancestor tree htip h main.isMainChain_tip⟩
  have hle := main.lookup_le (isMainChain_iff.1 h)
  obtain ⟨b, hb⟩ := tree.rooted.exists_climb htip (n := tip.height - a.height) (by omega)
  have hanc := Forest.ancestor_of_climb hb
  obtain ⟨hash, hstored⟩ := Forest.climb_stored htip hb
  have hheight := tree.rooted.rank_climb htip hb
  have hmain := main.isMainChain_of_ancestor tree htip hanc main.isMainChain_tip
  rw [isMainChain_iff, show b.height = a.height by omega, isMainChain_iff.1 h] at hmain
  have hab : a.hash = b.hash := Option.some.inj hmain
  rw [hab, tree.self hstored] at ha
  exact Option.some.inj ha ▸ hanc

end Main

/-! ## What the operations do to the tree and the index -/

section Operations

variable {env : Env} {db : ChainDB} {entry prev tip : ChainEntry} {view : CoinView}
  {state : ChainState} {blocks : BlockStore} {mostWork : Option ChainEntry}

theorem getEntryByHash_headerSaved (hash : BlockHash) :
    (db.headerSaved entry prev mostWork).getEntryByHash hash =
      if hash = entry.hash then some entry else db.getEntryByHash hash := by
  unfold getEntryByHash headerSaved
  split_ifs with h
  · rw [h, Finmap.lookup_insert]
  · rw [Finmap.lookup_insert_of_ne _ h]

theorem getEntryByHash_connected (view : CoinView) (state : ChainState) (blocks : BlockStore)
    (hentry : db.getEntryByHash entry.hash = some entry) :
    (db.connected entry view state blocks).getEntryByHash = db.getEntryByHash := by
  funext hash
  unfold getEntryByHash connected at *
  rcases eq_or_ne hash entry.hash with rfl | h
  · rw [Finmap.lookup_insert, hentry]
  · rw [Finmap.lookup_insert_of_ne _ h]

/-- The tree depends on the stored entries only. -/
theorem Tree.congr {db' : ChainDB} (tree : db.Tree env)
    (h : db'.getEntryByHash = db.getEntryByHash) : db'.Tree env := by
  obtain ⟨h₁, h₂, h₃, h₄, h₅⟩ := tree
  rw [← h] at h₁ h₂ h₃ h₄ h₅
  exact ⟨h₁, h₂, h₃, h₄, h₅⟩

theorem Tree.headerSaved (law : env.Lawful) (tree : db.Tree env)
    (hnew : db.getEntryByHash entry.hash = none)
    (hprev : db.getEntryByHash entry.prevBlock = some prev)
    (hhash : env.blockHash entry.header = entry.hash) (hheight : entry.height = prev.height + 1)
    (hpos : 0 < env.work entry.header)
    (hwork : entry.chainwork = prev.chainwork + env.work entry.header) :
    (db.headerSaved entry prev mostWork).Tree env := by
  have hnz : entry.hash ≠ 0 := hhash ▸ law.blockHash_ne_zero _
  have hmono : ∀ hash e, db.getEntryByHash hash = some e →
      (db.headerSaved entry prev mostWork).getEntryByHash hash = some e := by
    intro hash e he
    rw [getEntryByHash_headerSaved, if_neg, he]
    rintro rfl
    rw [hnew] at he
    cases he
  have hcases : ∀ hash e, (db.headerSaved entry prev mostWork).getEntryByHash hash = some e →
      db.getEntryByHash hash = some e ∨ hash = entry.hash ∧ e = entry := by
    intro hash e he
    rw [getEntryByHash_headerSaved] at he
    split_ifs at he with h
    · exact .inr ⟨h, (Option.some.inj he).symm⟩
    · exact .inl he
  have hrooted := tree.rooted.insert hmono hcases (by
    rw [show env.genesisEntry.prevBlock = 0 from law.genesis_prev]
    exact hnz.symm) hprev hheight
  refine ⟨?_, ?_, hmono _ _ tree.genesis, hrooted, ?_⟩
  · intro hash e he
    rcases hcases _ _ he with he | ⟨rfl, rfl⟩
    · exact tree.hash_eq he
    · rfl
  · intro hash e he
    rcases hcases _ _ he with he | ⟨rfl, rfl⟩
    · exact tree.header_hash he
    · exact hhash
  · intro hash e p he hp
    rcases hcases _ _ he with he | ⟨rfl, rfl⟩
    · have hne : e ≠ env.genesisEntry := by
        rintro rfl
        rw [hrooted.up_root] at hp
        cases hp
      obtain ⟨q, hq⟩ := tree.rooted.exists_parent he hne
      rw [hmono _ _ hq] at hp
      exact Option.some.inj hp ▸ tree.chainwork he hq
    · rw [hmono _ _ hprev] at hp
      exact Option.some.inj hp ▸ ⟨hpos, hwork⟩

/-- Connecting a child of the tip extends the branch. -/
theorem Main.connected (tree : db.Tree env) (main : db.Main tip)
    (htip : db.getEntryByHash tip.hash = some tip)
    (hentry : db.getEntryByHash entry.hash = some entry) (hprev : entry.prevBlock = tip.hash) :
    (db.connected entry view state blocks).Main entry := by
  have hheight : entry.height = tip.height + 1 :=
    tree.height_eq hentry (by rw [hprev, htip])
  have hstored := getEntryByHash_connected view state blocks hentry
  have hlookup : ∀ h, (db.connected entry view state blocks).entryCache.height.lookup h =
      if h = entry.height then some entry.hash else db.entryCache.height.lookup h := by
    intro h
    unfold ChainDB.connected
    split_ifs with hh
    · rw [hh, Finmap.lookup_insert]
    · rw [Finmap.lookup_insert_of_ne _ hh]
  refine ⟨by rw [hlookup, if_pos rfl], ?_, ?_, ?_⟩
  · intro h hlt
    rw [hlookup, if_neg (by omega)]
    exact main.above (by omega)
  · intro h hash hh
    rw [hlookup] at hh
    rw [hstored]
    split_ifs at hh with heq
    · exact ⟨entry, Option.some.inj hh ▸ hentry, heq.symm⟩
    · exact main.stored hh
  · intro h hash e hh he
    rw [hlookup] at hh
    rw [hstored] at he
    split_ifs at hh with heq
    · rw [← Option.some.inj hh, hentry] at he
      rw [hlookup, if_neg (by omega), ← Option.some.inj he, hprev,
        show h = tip.height by omega]
      exact main.top
    · have hle := main.lookup_le hh
      rw [hlookup, if_neg (by omega)]
      exact main.prev hh he

/-- Disconnecting the tip leaves the branch of its parent. -/
theorem Main.disconnected (tree : db.Tree env) (main : db.Main tip)
    (htip : db.getEntryByHash tip.hash = some tip)
    (hprev : db.getEntryByHash tip.prevBlock = some prev) :
    (db.disconnected tip view state).Main prev := by
  have hheight : tip.height = prev.height + 1 := tree.height_eq htip hprev
  have hlookup : ∀ h, h ≠ tip.height →
      (db.disconnected tip view state).entryCache.height.lookup h =
        db.entryCache.height.lookup h := fun h hh => Finmap.lookup_erase_ne hh
  have herased : (db.disconnected tip view state).entryCache.height.lookup tip.height = none :=
    Finmap.lookup_erase tip.height _
  have htop : db.entryCache.height.lookup prev.height = some prev.hash := by
    rw [main.prev (hheight ▸ main.top) htip, tree.hash_eq hprev]
  have hof : ∀ {h hash}, (db.disconnected tip view state).entryCache.height.lookup h = some hash →
      db.entryCache.height.lookup h = some hash := by
    intro h hash hh
    rcases eq_or_ne h tip.height with rfl | hne
    · rw [herased] at hh
      cases hh
    · rwa [hlookup h hne] at hh
  refine ⟨by rw [hlookup _ (by omega), htop], ?_, fun hh => main.stored (hof hh), ?_⟩
  · intro h hlt
    rcases eq_or_ne h tip.height with rfl | hne
    · exact herased
    · rw [hlookup h hne]
      exact main.above (by omega)
  · intro h hash e hh he
    have hle := main.lookup_le (hof hh)
    rw [hlookup h (by omega)]
    exact main.prev (hof hh) he

end Operations

end ChainDB

end BitcoinNode
